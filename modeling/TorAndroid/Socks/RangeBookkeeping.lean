import TorAndroid.Socks.RangeListing

namespace TorAndroid.Socks.Range

open TorAndroid.Lib.Throwing TorAndroid.Lib.GuardedRun
open TorAndroid.Socks.Basic TorAndroid.Socks.Basic.Platform

/-- Entries of a kind with a text. -/
def Listed.Is (kind : Kind) (s : String) (x : Listed) : Prop :=
  x.kind = kind ∧ x.entry.name = s

instance (kind : Kind) (s : String) : DecidablePred (Listed.Is kind s) := fun _ =>
  inferInstanceAs (Decidable (_ ∧ _))

/-- The host names and endings are those of the entries. -/
structure Booked (l : Listing) : Prop where
  hosts : ∀ s, s ∈ l.host_names ↔ ∃ x ∈ l.all, x.Is .host s
  endings : l.end_names.Perm
    ((l.all.filter fun x => x.kind = .ending).map fun x => x.entry.name)

/-- A removal takes away the only host with its text, and an ending if there is one. -/
def Careful (l : Listing) : Call → Prop
  | .remove s => ∀ x ∈ l.all.find? fun x => x.entry.name = s,
      (∀ y ∈ l.all.eraseP fun x => x.entry.name = s, ¬y.Is .host s) ∧
        ((∃ y ∈ l.all, y.Is .ending s) → x.kind = .ending)
  | _ => True

/-- Entries that were added as texts. -/
def fromText (s : String) (x : Listed) : Bool :=
  x.entry.name = s ∧ x.kind ≠ .address ∧ x.kind ≠ .addresses

section Count

variable (platform : Platform) (getHostAddress : InetAddress → String)

/-- The call adds an entry with this text. -/
def adds (l : Listing) (s : String) : Call → Bool
  | .addString s₀ => (l.addString s₀).2 ∧ s₀.map trim = some s
  | _ => false

/-- The call removes an entry that was added as this text. -/
def removes (l : Listing) (s : String) : Call → Bool
  | .remove s' => s' = s ∧ (l.all.find? fun x => x.entry.name = s).any (fromText s)
  | _ => false

def added (s : String) : List Call → Nat
  | [] => 0
  | a :: hist => (adds (after platform getHostAddress hist) s a).toNat + added s hist

def removed (s : String) : List Call → Nat
  | [] => 0
  | a :: hist => (removes (after platform getHostAddress hist) s a).toNat + removed s hist

end Count

/-- What is to hold of a range after some calls, the newest first. -/
structure Kept (platform : Platform) (getHostAddress : InetAddress → String) (hist : List Call)
    (l : Listing) : Prop where
  booked : Booked l
  hosts : ∀ s, (∃ x ∈ l.all, x.Is .host s) → ∀ attemptResolve,
    l.range.containsText platform s attemptResolve = .ok true
  endings : ∀ s, (∃ x ∈ l.all, x.Is .ending s) → ∀ host : String,
    s.toList <:+ (trim host).toList →
      ∀ attemptResolve, l.range.containsText platform host attemptResolve = .ok true
  gone : ∀ s, removed platform getHostAddress s hist = added platform getHostAddress s hist →
    s ∉ l.host_names ∧ s ∉ l.end_names

section Steps

variable {platform : Platform} {getHostAddress : InetAddress → String} {l : Listing} {kind : Kind}
  {entry : Entry}

theorem Booked.congr {l' : Listing} (h : Booked l) (hhosts : l'.host_names = l.host_names)
    (hends : l'.end_names = l.end_names)
    (hall : l'.all.map (fun x => (x.kind, x.entry.name)) =
      l.all.map fun x => (x.kind, x.entry.name)) : Booked l' := by
  have hmem : ∀ l : Listing, ∀ s, (∃ x ∈ l.all, x.Is .host s) ↔
      (Kind.host, s) ∈ l.all.map fun x => (x.kind, x.entry.name) := by
    intro l s
    simp [Listed.Is]
  have hendings : ∀ l : Listing,
      (l.all.filter fun x => x.kind = .ending).map (fun x => x.entry.name) =
        ((l.all.map fun x => (x.kind, x.entry.name)).filter fun x => x.1 = .ending).map
          Prod.snd := by
    intro l
    rw [List.filter_map, List.map_map]
    rfl
  refine ⟨fun s => ?_, ?_⟩
  · rw [hhosts, h.hosts, hmem, hmem, hall]
  · rw [hends, hendings, hall, ← hendings]
    exact h.endings

theorem booked_append (h : Booked l) (hhost : kind ≠ .host) (hending : kind ≠ .ending) :
    Booked (l.append kind entry) := by
  refine ⟨fun s => ?_, ?_⟩
  · rw [show (l.append kind entry).host_names = l.host_names from rfl, h.hosts]
    simp [Listing.append, Listed.Is, hhost]
  · rw [show (l.append kind entry).end_names = l.end_names from rfl]
    simpa [Listing.append, hending] using h.endings

theorem addString_cases (l : Listing) (s₀ : Option String) :
    l.addString s₀ = (l, false) ∨
      ∃ s x, s₀.map trim = some s ∧ s ≠ "" ∧ x.entry.name = s ∧ x.kind ≠ .address ∧
        x.kind ≠ .addresses ∧ (l.addString s₀).2 = true ∧
        (l.addString s₀).1.all = l.all ++ [x] ∧
        (l.addString s₀).1.host_names =
          (if x.kind = .host then l.host_names.insert s else l.host_names) ∧
        (l.addString s₀).1.end_names =
          if x.kind = .ending then l.end_names ++ [s] else l.end_names := by
  cases s₀ with
  | none => exact Or.inl rfl
  | some s₀ =>
      simp only [Listing.addString]
      split_ifs with hempty hnet hending
      · exact Or.inl rfl
      · cases ip2intarray (trim s₀) with
        | none => exact Or.inl rfl
        | some addr =>
            refine Or.inr
              ⟨trim s₀, ⟨.network, trim s₀, _, _⟩, rfl, hempty, rfl,
                by simp, by simp, rfl, rfl, ?_, ?_⟩
            · exact (if_neg (by simp)).symm
            · exact (if_neg (by simp)).symm
      · refine Or.inr
          ⟨trim s₀, ⟨.ending, trim s₀, _, _⟩, rfl, hempty, rfl, by simp, by simp, rfl, rfl, ?_, ?_⟩
        · exact (if_neg (by simp)).symm
        · exact (if_pos rfl).symm
      · split
        · refine Or.inr
            ⟨trim s₀, ⟨.pair, trim s₀, _, _⟩, rfl, hempty, rfl, by simp, by simp, rfl, rfl, ?_, ?_⟩
          · exact (if_neg (by simp)).symm
          · exact (if_neg (by simp)).symm
        · refine Or.inr
            ⟨trim s₀, ⟨.host, trim s₀, _, _⟩, rfl, hempty, rfl, by simp, by simp, rfl, rfl, ?_, ?_⟩
          · exact (if_pos rfl).symm
          · exact (if_neg (by simp)).symm

theorem booked_addString (h : Booked l) (s₀ : Option String) : Booked (l.addString s₀).1 := by
  rcases addString_cases l s₀ with hsame | ⟨s, x, -, -, hname, -, -, -, hall, hhosts, hends⟩
  · rw [hsame]
    exact h
  · refine ⟨fun s' => ?_, ?_⟩
    · rw [hhosts, hall]
      simp only [Listed.Is, List.mem_append, List.mem_singleton, or_and_right, exists_or,
        exists_eq_left]
      have hbefore := h.hosts s'
      simp only [Listed.Is] at hbefore
      rw [← hbefore, hname]
      split_ifs with hkind
      · rw [List.mem_insert_iff, or_comm]
        simp [hkind, eq_comm]
      · simp [hkind]
    · rw [hends, hall, List.filter_append, List.map_append]
      split_ifs with hkind
      · simpa [hkind, hname] using h.endings.append_right [s]
      · simpa [hkind] using h.endings

/-- The entries before the first one with the text, that entry, and those behind it. -/
theorem remove_cases (l : Listing) (s : String) :
    ((∀ x ∈ l.all, x.entry.name ≠ s) ∧ l.remove s = (l, false)) ∨
      ∃ pre x post, l.all = pre ++ x :: post ∧ x.entry.name = s ∧
        (∀ y ∈ pre, y.entry.name ≠ s) ∧
        l.all.find? (fun x => x.entry.name = s) = some x ∧
        l.remove s =
          (⟨l.host_names.filter (· ≠ s), pre ++ post, l.end_names.erase s⟩, true) ∧
        l.all.eraseP (fun x => x.entry.name = s) = pre ++ post := by
  by_cases hany : l.all.any fun x => x.entry.name = s
  · right
    obtain ⟨x, hx, hname⟩ := List.any_eq_true.mp hany
    obtain ⟨y, pre, post, hpre, hy, hall, herase⟩ :=
      List.exists_of_eraseP (p := fun x => decide (x.entry.name = s)) hx hname
    have hbefore : ∀ z ∈ pre, z.entry.name ≠ s := fun z hz => by simpa using hpre z hz
    refine ⟨pre, y, post, hall, by simpa using hy, hbefore, ?_, ?_, herase⟩
    · rw [List.find?_eq_some_iff_append]
      exact ⟨hy, pre, post, hall, fun z hz => by simpa using hpre z hz⟩
    · rw [Listing.remove, if_pos hany, herase]
  · left
    refine ⟨fun x hx hname => hany (List.any_eq_true.mpr ⟨x, hx, by simpa using hname⟩), ?_⟩
    rw [Listing.remove, if_neg hany]

theorem booked_remove (h : Booked l) (s : String) (hcareful : Careful l (.remove s)) :
    Booked (l.remove s).1 := by
  rcases remove_cases l s with
    ⟨-, hsame⟩ | ⟨pre, x, post, hall, hname, -, hfind, hremove, herase⟩
  · rw [hsame]
    exact h
  · obtain ⟨hhosts, hkind⟩ := hcareful x hfind
    rw [herase] at hhosts
    rw [hremove]
    refine ⟨fun s' => ?_, ?_⟩
    · rw [List.mem_filter, h.hosts, hall]
      simp only [decide_eq_true_eq, List.mem_append, List.mem_cons]
      constructor
      · rintro ⟨⟨y, hy, hs⟩, hne⟩
        refine ⟨y, ?_, hs⟩
        rcases hy with hy | rfl | hy
        · exact Or.inl hy
        · exact absurd (hs.2.symm.trans hname) hne
        · exact Or.inr hy
      · rintro ⟨y, hy, hs⟩
        refine ⟨⟨y, hy.imp_right Or.inr, hs⟩, ?_⟩
        rintro rfl
        exact hhosts y (List.mem_append.mpr hy) hs
    · have hend := h.endings
      rw [hall, List.filter_append, List.filter_cons] at hend
      by_cases hx : x.kind = .ending
      · simp only [hx, decide_true, if_true, List.map_append, List.map_cons, hname] at hend
        have herased := (hend.trans List.perm_middle).erase s
        rwa [List.erase_cons_head, ← List.map_append, ← List.filter_append] at herased
      · have hnot : s ∉ l.end_names := by
          intro hmem
          rw [h.endings.mem_iff, List.mem_map] at hmem
          obtain ⟨y, hy, hs⟩ := hmem
          rw [List.mem_filter, decide_eq_true_eq] at hy
          exact hx (hkind ⟨y, hy.1, hy.2, hs⟩)
        simp only [hx, decide_false, Bool.false_eq_true, if_false, ← List.filter_append] at hend
        rwa [List.erase_of_not_mem hnot]

theorem map_resolver (l : Listing) (index : Nat) (low high : Option Nat) :
    (apply platform getHostAddress l (.resolver index low high)).all.map
        (fun x => (x.kind, x.entry.name)) = l.all.map fun x => (x.kind, x.entry.name) := by
  refine List.ext_getElem? fun j => ?_
  simp only [apply, List.getElem?_map, List.getElem?_modify]
  cases l.all[j]? with
  | none => rfl
  | some x => by_cases hj : index = j <;> simp [hj]

theorem booked_resolver (h : Booked l) (index : Nat) (low high : Option Nat) :
    Booked (apply platform getHostAddress l (.resolver index low high)) := by
  exact h.congr rfl rfl (map_resolver l index low high)

theorem booked_call {a : Call} (h : Booked l) (hcareful : Careful l a) :
    Booked (apply platform getHostAddress l a) := by
  cases a with
  | addString s => exact booked_addString h s
  | addAddress ip => exact booked_append h (by decide) (by decide)
  | addAddresses low high => exact booked_append h (by decide) (by decide)
  | remove s => exact booked_remove h s hcareful
  | resolver index low high => exact booked_resolver h index low high

/-- A removal that is not careful leaves a text that is kept in one place only. -/
theorem not_booked_of_not_careful {a : Call} (h : Booked l) (hnot : ¬Careful l a) :
    ¬Booked (apply platform getHostAddress l a) := by
  cases a with
  | remove s =>
      intro hbooked
      refine hnot ?_
      rcases remove_cases l s with
        ⟨hnone, -⟩ | ⟨pre, x, post, hall, -, -, hfind, hremove, herase⟩
      · intro x hx
        have hname := List.find?_some hx
        exact absurd (of_decide_eq_true hname) (hnone x (List.mem_of_find?_eq_some hx))
      · intro y hy
        cases hfind.symm.trans hy
        rw [apply, hremove] at hbooked
        refine ⟨fun y hy hs => ?_, fun hending => ?_⟩
        · rw [herase] at hy
          have hmem := (hbooked.hosts s).mpr ⟨y, hy, hs⟩
          simp at hmem
        · by_contra hkind
          -- the ending is still listed, but its text is gone
          have hcount := h.endings.count_eq s
          have hcount' := hbooked.endings.count_eq s
          obtain ⟨y, hy, hs⟩ := hending
          have hmem : s ∈ l.end_names := by
            rw [h.endings.mem_iff, List.mem_map]
            exact ⟨y, List.mem_filter.mpr ⟨hy, by simpa using hs.1⟩, hs.2⟩
          have hsame : l.all.filter (fun x => x.kind = .ending) =
              (pre ++ post).filter fun x => x.kind = .ending := by
            rw [hall, List.filter_append, List.filter_append,
              List.filter_cons_of_neg (by simpa using hkind)]
          rw [hsame, ← hcount', List.count_erase_self] at hcount
          have := List.count_pos_iff.mpr hmem
          omega
  | addString s => exact absurd trivial hnot
  | addAddress ip => exact absurd trivial hnot
  | addAddresses low high => exact absurd trivial hnot
  | resolver index low high => exact absurd trivial hnot

theorem mem_apply {a : Call} {x : Listed} (hx : x ∈ (apply platform getHostAddress l a).all) :
    (∃ y ∈ l.all, y.kind = x.kind ∧ y.entry.name = x.entry.name) ∨
      (x.kind = .address ∨ x.kind = .addresses) ∨
      ∃ s₀ : String, x.entry.name = trim s₀ ∧ trim s₀ ≠ "" := by
  cases a with
  | addString s₀ =>
      rw [apply] at hx
      rcases addString_cases l s₀ with hsame | ⟨s, y, hs, hne, hname, -, -, -, hall, -⟩
      · rw [hsame] at hx
        exact Or.inl ⟨x, hx, rfl, rfl⟩
      · rw [hall, List.mem_append, List.mem_singleton] at hx
        rcases hx with hx | rfl
        · exact Or.inl ⟨x, hx, rfl, rfl⟩
        · obtain ⟨s₁, rfl, rfl⟩ := Option.map_eq_some_iff.mp hs
          exact Or.inr (Or.inr ⟨s₁, hname, hne⟩)
  | addAddress ip =>
      rcases List.mem_append.mp hx with hx | hx
      · exact Or.inl ⟨x, hx, rfl, rfl⟩
      · exact Or.inr (Or.inl (Or.inl (by rw [List.mem_singleton.mp hx])))
  | addAddresses low high =>
      rcases List.mem_append.mp hx with hx | hx
      · exact Or.inl ⟨x, hx, rfl, rfl⟩
      · exact Or.inr (Or.inl (Or.inr (by rw [List.mem_singleton.mp hx])))
  | remove s =>
      rw [apply] at hx
      rcases remove_cases l s with ⟨-, hsame⟩ | ⟨pre, y, post, hall, -, -, -, hremove, -⟩
      · rw [hsame] at hx
        exact Or.inl ⟨x, hx, rfl, rfl⟩
      · rw [hremove] at hx
        refine Or.inl ⟨x, ?_, rfl, rfl⟩
        rw [hall, List.mem_append, List.mem_cons]
        exact (List.mem_append.mp hx).imp_right Or.inr
  | resolver index low high =>
      have hpair := List.mem_map_of_mem (f := fun x : Listed => (x.kind, x.entry.name)) hx
      rw [map_resolver, List.mem_map] at hpair
      obtain ⟨y, hy, heq⟩ := hpair
      exact Or.inl ⟨y, hy, congrArg Prod.fst heq, congrArg Prod.snd heq⟩

end Steps

section Runs

variable {platform : Platform} {getHostAddress : InetAddress → String} {hist : List Call}
  {l : Listing} {s : String}

theorem after_of_run (hrun : Run (call platform getHostAddress) Always .empty hist l) :
    l = after platform getHostAddress hist := by
  induction hrun with
  | start => rfl
  | next _ _ hstep ih =>
      cases hstep
      rw [ih]
      rfl

/-- Texts are kept without the white space around them. -/
theorem trim_of_after {x : Listed} (hx : x ∈ (after platform getHostAddress hist).all)
    (haddress : x.kind ≠ .address) (haddresses : x.kind ≠ .addresses) :
    trim x.entry.name = x.entry.name ∧ x.entry.name ≠ "" := by
  induction hist generalizing x with
  | nil => cases hx
  | cons a hist ih =>
      rcases mem_apply hx with ⟨y, hy, hkind, hname⟩ | hkind | ⟨s₀, hname, hne⟩
      · rw [← hname]
        exact ih hy (hkind ▸ haddress) (hkind ▸ haddresses)
      · rcases hkind with hkind | hkind
        · exact absurd hkind haddress
        · exact absurd hkind haddresses
      · rw [hname]
        exact ⟨trim_trim s₀, hne⟩

/-- A call counts the entries with a text up or down. -/
theorem count_apply (platform : Platform) (getHostAddress : InetAddress → String) (l : Listing)
    (s : String) (a : Call) :
    (apply platform getHostAddress l a).all.countP (fromText s) + (removes l s a).toNat =
      l.all.countP (fromText s) + (adds l s a).toNat := by
  cases a with
  | addString s₀ =>
      simp only [apply, adds, removes]
      rcases addString_cases l s₀ with
        hsame | ⟨s', x, hs, -, hname, haddress, haddresses, htrue, hall, -⟩
      · rw [hsame]
        simp
      · rw [hall, List.countP_append, htrue, hs]
        by_cases heq : s' = s
        · simp [fromText, hname, heq, haddress, haddresses]
        · simp [fromText, hname, heq]
  | addAddress ip => simp [apply, adds, removes, Listing.addAddress, Listing.append, fromText]
  | addAddresses low high =>
      simp [apply, adds, removes, Listing.addAddresses, Listing.append, fromText]
  | remove s' =>
      simp only [apply, adds, removes]
      rcases remove_cases l s' with
        ⟨hnone, hsame⟩ | ⟨pre, x, post, hall, hname, -, hfind, hremove, -⟩
      · rw [hsame]
        by_cases heq : s' = s
        · have hfind : l.all.find? (fun x => x.entry.name = s) = none := by
            rw [List.find?_eq_none]
            exact fun x hx => by simpa [heq] using hnone x hx
          simp [hfind]
        · simp [heq]
      · rw [hremove, hall, List.countP_append, List.countP_append, List.countP_cons]
        by_cases heq : s' = s
        · subst heq
          rw [hall] at hfind
          cases htext : fromText s' x
          · simp [hfind, htext]
          · simp [hfind, htext, Nat.add_assoc]
        · have htext : fromText s x = false := by
            simp [fromText, hname, heq]
          simp [heq, htext]
  | resolver index low high =>
      have hcount : ∀ xs : List Listed, xs.countP (fromText s) =
          (xs.map fun x => (x.kind, x.entry.name)).countP
            fun x => x.2 = s ∧ x.1 ≠ .address ∧ x.1 ≠ .addresses := by
        intro xs
        rw [List.countP_map]
        rfl
      rw [hcount, map_resolver, ← hcount]
      rfl

theorem count_after (platform : Platform) (getHostAddress : InetAddress → String) (s : String)
    (hist : List Call) :
    (after platform getHostAddress hist).all.countP (fromText s) +
        removed platform getHostAddress s hist = added platform getHostAddress s hist := by
  induction hist with
  | nil => rfl
  | cons a hist ih =>
      have hstep := count_apply platform getHostAddress (after platform getHostAddress hist) s a
      rw [after, added, removed]
      omega

theorem mem_all_of_range {x : Listed} (hx : x ∈ l.all) : l.range.all ≠ [] :=
  List.ne_nil_of_mem (List.mem_map_of_mem hx)

theorem kept_of_booked (hrun : Run (call platform getHostAddress) Always .empty hist l)
    (h : Booked l) : Kept platform getHostAddress hist l := by
  have hl := after_of_run hrun
  refine ⟨h, fun s hs attemptResolve => ?_, fun s hs host hends attemptResolve => ?_,
    fun s heq => ?_⟩
  · have hmem := (h.hosts s).mpr hs
    obtain ⟨x, hx, hkind, hname⟩ := hs
    obtain ⟨htrim, hne⟩ := trim_of_after (hl ▸ hx) (by simp [hkind]) (by simp [hkind])
    rw [hname] at htrim hne
    have hhost : l.range.checkHost s = true := decide_eq_true hmem
    rw [InetRange.containsText, if_neg (mem_all_of_range hx), htrim, if_neg hne, if_pos hhost]
  · obtain ⟨x, hx, hkind, hname⟩ := hs
    obtain ⟨htrim, hne⟩ := trim_of_after (hl ▸ hx) (by simp [hkind]) (by simp [hkind])
    rw [hname] at htrim hne
    have hmem : s ∈ l.end_names := by
      rw [h.endings.mem_iff, List.mem_map]
      exact ⟨x, List.mem_filter.mpr ⟨hx, by simpa using hkind⟩, hname⟩
    have hending : l.range.checkHostEnding (trim host) = true := by
      rw [InetRange.checkHostEnding, List.any_eq_true]
      exact ⟨s, hmem, by simpa using hends⟩
    have hhost : trim host ≠ "" := by
      intro hempty
      rw [hempty] at hends
      exact hne (String.toList_inj.mp (List.suffix_nil.mp hends))
    rw [InetRange.containsText, if_neg (mem_all_of_range hx), if_neg hhost]
    split_ifs <;> rfl
  · have hcount := count_after platform getHostAddress s hist
    have hnone : l.all.countP (fromText s) = 0 := by
      rw [hl]
      omega
    rw [List.countP_eq_zero] at hnone
    constructor
    · rw [h.hosts]
      rintro ⟨x, hx, hkind, hname⟩
      exact hnone x hx (by simp [fromText, hkind, hname])
    · rw [h.endings.mem_iff, List.mem_map]
      rintro ⟨x, hx, hname⟩
      rw [List.mem_filter, decide_eq_true_eq] at hx
      exact hnone x hx.1 (by simp [fromText, hx.2, hname])

theorem booked_run (hrun : Run (call platform getHostAddress) Careful .empty hist l) : Booked l :=
  hrun.invariant (I := fun _ l => Booked l) ⟨by simp [Listing.empty], by simp [Listing.empty]⟩
    fun _ _ _ _ h hcareful hstep => Option.some.inj hstep ▸ booked_call h hcareful

/-- After every call of a run the host names and endings are those of the entries, so that
what is listed is contained and what was removed is not, if and only if every removal of
the run is careful. -/
theorem kept_iff_careful (platform : Platform) (getHostAddress : InetAddress → String)
    {hist : List Call} {l : Listing}
    (hrun : Run (call platform getHostAddress) Always .empty hist l) :
    (∀ older t, older <:+ hist → Run (call platform getHostAddress) Always .empty older t →
        Kept platform getHostAddress older t) ↔
      Run (call platform getHostAddress) Careful .empty hist l := by
  have hvisits :
      (∀ older t, older <:+ hist → Run (call platform getHostAddress) Always .empty older t →
          Booked t) ↔ Run (call platform getHostAddress) Careful .empty hist l :=
    Run.visits_iff_guarded ⟨by simp [Listing.empty], by simp [Listing.empty]⟩
      (fun _ _ _ _ hguarded hcareful hstep =>
        Option.some.inj hstep ▸ booked_call (booked_run hguarded) hcareful)
      (fun _ _ _ h hstep hnot => Option.some.inj hstep ▸ not_booked_of_not_careful h hnot) hrun
  rw [← hvisits]
  exact ⟨fun h older t hsuffix ht => (h older t hsuffix ht).booked,
    fun h older t hsuffix ht => kept_of_booked ht (h older t hsuffix ht)⟩

/-- A name is added, listed and removed. -/
theorem kept_iff_careful_single :
    ∃ l, Run (call latin1 fun _ => "") Always .empty
        [.remove "localhost", .addString (some " localhost")] l ∧
      ((∀ older t, older <:+ [Call.remove "localhost", .addString (some " localhost")] →
          Run (call latin1 fun _ => "") Always .empty older t →
            Kept latin1 (fun _ => "") older t) ↔
        Run (call latin1 fun _ => "") Careful .empty
          [.remove "localhost", .addString (some " localhost")] l) := by
  have hrun : Run (call latin1 fun _ => "") Always .empty
      [.remove "localhost", .addString (some " localhost")] _ :=
    .next (.next .start trivial rfl) trivial rfl
  exact ⟨_, hrun, kept_iff_careful latin1 (fun _ => "") hrun⟩

/-- A name is added twice and removed once. -/
def twice : List Call :=
  [.remove "localhost", .addString (some "localhost"), .addString (some "localhost")]

/-- It is listed then, but no host name any more. -/
theorem not_kept_of_twice :
    ¬∀ hist l, Run (call latin1 fun _ => "") Always .empty hist l →
      Kept latin1 (fun _ => "") hist l := by
  intro h
  have hkept : Kept latin1 (fun _ => "") twice (after latin1 (fun _ => "") twice) :=
    h twice _ (.next (.next (.next .start trivial rfl) trivial rfl) trivial rfl)
  have hlisted : ∃ x ∈ (after latin1 (fun _ => "") twice).all, x.Is .host "localhost" := by
    decide +kernel
  have hnot : "localhost" ∉ (after latin1 (fun _ => "") twice).host_names := by
    decide +kernel
  exact hnot ((hkept.booked.hosts "localhost").mpr hlisted)

end Runs

end TorAndroid.Socks.Range
