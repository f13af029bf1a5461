import TorAndroid.Dns.LookupResult

namespace TorAndroid.Dns.Counted

open TorAndroid.Lib.LinkedCells TorAndroid.Lib.DoublyLinked TorAndroid.Lib.GuardedRun

/-- An entry without the record sets that can be purged. Its references may have been
checked or not. -/
structure CleanEntry (now : Int) (s : Cache) (c d : Cent) : Prop where
  name : d.qname = c.qname
  flags : d.flags = clearAuth now c (List.finRange _)
  negTimes : d.negTimes = c.negTimes
  rrset : ∀ i, (d.rrset i).map RrSet.bare = (leave now (c.rrset i)).map RrSet.bare
  cNs : d.cNs = c.cNs ∨ c.flags.isLocal = false ∧ d.cNs = refreshRef now s c c.cNs slotNS
  cSoa : d.cSoa = c.cSoa ∨ c.flags.isLocal = false ∧ d.cSoa = refreshRef now s c c.cSoa slotSOA

/-- What becomes of an entry: one that is emptied or expired is removed. -/
inductive CleanTo (now : Int) (s : Cache) : Option Cent → Option Cent → Prop
  | absent : CleanTo now s none none
  | dropped {c : Cent} (hgone : gone now c = true) : CleanTo now s (some c) none
  | kept {c d : Cent} (hgone : gone now c = false) (h : CleanEntry now s c d) :
      CleanTo now s (some c) (some d)

/-- `t` is `s` with everything removed that is timed out. -/
def Cleaned (now : Int) (s t : Cache) : Prop :=
  ∀ k, CleanTo now s (s.find k) (t.find k)

/-- Whether an entry answers for the names below its domain. -/
def answers (now : Int) (s : Cache) (domain : Name) (c : Cent) : Bool :=
  c.negative || if c.flags.wild then (s.find (wildcard domain)).any fun e => !gone now e
    else c.flags.isLocal

/-- Whether the nearest of some domains with an entry that is kept answers. -/
def keptAnswers (now : Int) (s : Cache) : List Name → Bool
  | [] => false
  | domain :: domains =>
      match (s.find domain.fold).filter fun c => !gone now c with
      | some c => answers now s domain c
      | none => keptAnswers now s domains

/-- The nearest of some domains with an entry has one that is dropped, but has a wildcard
record that is kept, or there is an entry behind it that answers. -/
def shadowed (now : Int) (s : Cache) : List Name → Bool
  | [] => false
  | domain :: domains =>
      match s.find domain.fold with
      | none => shadowed now s domains
      | some c => gone now c && (keptAnswers now s domains || (!c.negative && c.flags.wild &&
          (s.find (wildcard domain)).any fun e => !gone now e))

/-- An entry that is dropped hides one that answers, or is still used for a wildcard. -/
def hidden (now : Int) (s : Cache) (name : Name) (wild : Bool) : Bool :=
  wild &&
    match s.find name.fold with
    | some c => gone now c && keptAnswers now s (enclosing name)
    | none => shadowed now s (enclosing name)

section Bare

variable {now : Int}

theorem leave_map_bare (r : Option RrSet) :
    leave now (r.map RrSet.bare) = (leave now r).map RrSet.bare := by
  cases r with
  | none => rfl
  | some r =>
      change (some r.bare).filter _ = ((some r).filter _).map _
      by_cases hpurge : r.purgeable now
      · have hbare : r.bare.purgeable now = true := hpurge
        simp [Option.filter, hpurge, hbare]
      · have hbare : ¬r.bare.purgeable now = true := hpurge
        simp [Option.filter, hpurge, hbare]

theorem staleSet_map_bare (r : Option RrSet) :
    staleSet now (r.map RrSet.bare) = staleSet now r := by
  cases r <;> rfl

theorem any_purgeable_bare (r : Option RrSet) :
    (r.map RrSet.bare).any (RrSet.purgeable now) = r.any (RrSet.purgeable now) := by
  cases r <;> rfl

theorem any_purgeable_leave (r : Option RrSet) :
    (leave now r).any (RrSet.purgeable now) = false := by
  cases r with
  | none => rfl
  | some r => by_cases hpurge : r.purgeable now <;> simp [leave, Option.filter, hpurge]

theorem needless_eq (c : Cent) : c.needless now =
    match c.negTimes with
    | some (ttl, ts) => !c.flags.isLocal && timedout now ts ttl
    | none => true := by
  obtain ⟨qname, cs, numRrs, dflags, arm, cNs, cSoa⟩ := c
  cases arm <;> rfl

end Bare

section CleanEntry

variable {now : Int} {s t : Cache} {c d : Cent}

theorem isLocal_clearAuth (c : Cent) (is : List Slot) :
    (clearAuth now c is).isLocal = c.flags.isLocal ∧ (clearAuth now c is).wild = c.flags.wild := by
  rw [clearAuth]
  split_ifs <;> exact ⟨rfl, rfl⟩

theorem CleanEntry.staleSet (h : CleanEntry now s c d) (i : Slot) :
    staleSet now (d.rrset i) = staleSet now (c.rrset i) := by
  rw [← staleSet_map_bare, h.rrset, staleSet_map_bare, staleSet_leave]

theorem CleanEntry.leave (h : CleanEntry now s c d) (i : Slot) :
    (leave now (d.rrset i)).map RrSet.bare = (leave now (c.rrset i)).map RrSet.bare := by
  rw [← leave_map_bare, h.rrset, leave_map_bare, leave_leave]

theorem CleanEntry.negative (h : CleanEntry now s c d) : d.negative = c.negative := by
  have hneg : ∀ e : Cent, e.negative = e.negTimes.isSome := by
    rintro ⟨qname, cs, numRrs, dflags, arm, cNs, cSoa⟩
    cases arm <;> rfl
  rw [hneg, hneg, h.negTimes]

theorem CleanEntry.gone (h : CleanEntry now s c d) : gone now d = gone now c := by
  have hnone : ∀ i, (Counted.leave now (d.rrset i)).isNone =
    (Counted.leave now (c.rrset i)).isNone := by
    intro i
    have := congrArg Option.isNone (h.leave i)
    simpa using this
  rw [Counted.gone, Counted.gone, needless_eq, needless_eq, h.negTimes, h.flags,
    (isLocal_clearAuth c _).1]
  simp only [hnone]

theorem staleSet_of_gone (h : Counted.gone now c = true) (i : Slot) :
    Counted.staleSet now (c.rrset i) = true := by
  rw [Counted.gone, Bool.and_eq_true, List.all_eq_true] at h
  rw [← staleSet_leave, Option.isNone_iff_eq_none.mp (h.1 i (List.mem_finRange i))]
  rfl

theorem CleanTo.staleSet {u v : Option Cent} (h : CleanTo now s u v) (i : Slot) :
    Counted.staleSet now (v.bind fun c => c.rrset i) =
      Counted.staleSet now (u.bind fun c => c.rrset i) := by
  cases h with
  | absent => rfl
  | dropped hgone => exact (staleSet_of_gone hgone i).symm
  | kept hgone h => exact h.staleSet i

/-- References are stale in the cache and in the clean one alike. -/
theorem CleanEntry.staleRef (hclean : Cleaned now s t) (h : CleanEntry now s c d) (i : Slot)
    (ref : UInt8) : staleRef now t d ref i = staleRef now s c ref i :=
  staleRef_congr h.name (h.staleSet i) (fun k => (hclean k).staleSet i) ref

theorem refreshRef_clean {i : Slot} {ref : UInt8} (isLocal : Bool)
    (hstale : ∀ ref, staleRef now t d ref i = staleRef now s c ref i) {ref' : UInt8}
    (href : ref' = ref ∨ isLocal = false ∧ ref' = refreshRef now s c ref i) :
    (if isLocal then ref' else refreshRef now t d ref' i) =
      if isLocal then ref else refreshRef now s c ref i := by
  have hrefresh : ∀ ref, refreshRef now t d ref i = refreshRef now s c ref i := fun ref => by
    rw [refreshRef, refreshRef, hstale]
  rcases href with rfl | ⟨rfl, rfl⟩
  · rw [hrefresh]
  · rw [if_neg Bool.false_ne_true, if_neg Bool.false_ne_true, hrefresh]
    -- a reference that was checked stays as it is
    by_cases hns : ref ≠ cundef ∧ Dns.staleRef now s c ref i
    · rw [refreshRef, refreshRef, if_pos hns, if_neg fun h => h.1 rfl]
    · rw [refreshRef, refreshRef, if_neg hns, if_neg hns]

theorem CleanEntry.purgedView (hclean : Cleaned now s t) (h : CleanEntry now s c d) :
    purgedView now t d = purgedView now s c := by
  have hany : ∀ i, (d.rrset i).any (RrSet.purgeable now) = false := fun i => by
    rw [← any_purgeable_bare, h.rrset, any_purgeable_bare, any_purgeable_leave]
  have hauth : clearAuth now d (List.finRange _) = clearAuth now c (List.finRange _) := by
    rw [clearAuth, if_neg, h.flags]
    simp [hany]
  simp only [Counted.purgedView, hauth, h.leave, h.name, h.negTimes]
  rw [h.flags, (isLocal_clearAuth c _).1, refreshRef_clean _ (h.staleRef hclean slotNS) h.cNs,
    refreshRef_clean _ (h.staleRef hclean slotSOA) h.cSoa]

end CleanEntry

/-- What a search up the hierarchy hands out if it passes over the entries that are dropped. -/
def keptUp (now : Int) (s : Cache) : List Name → Option ((Content × DFlags) × WildCode)
  | [] => none
  | domain :: domains =>
      match (s.find domain.fold).filter fun c => !gone now c with
      | some c => (wildEntry s domain c).bind (handOut now s)
      | none => keptUp now s domains

section Search

variable {cfg : CacheConfig} {E : Int × Int → Prop} {now : Int} {s t : Cache} {c d : Cent}

theorem CleanTo.handOut {u v : Option Cent} (hclean : Cleaned now s t) (h : CleanTo now s u v)
    (w : WildCode) : (v.map fun c => (c, w)).bind (handOut now t) =
      (u.map fun c => (c, w)).bind (handOut now s) := by
  cases h with
  | absent => rfl
  | dropped hgone => simp [Counted.handOut, hgone]
  | kept hgone h => simp [Counted.handOut, h.gone, hgone, h.purgedView hclean]

theorem wildEntry_clean (hclean : Cleaned now s t) (hkeep : gone now c = false)
    (h : CleanEntry now s c d) (domain : Name) :
    (wildEntry t domain d).bind (handOut now t) = (wildEntry s domain c).bind (handOut now s) := by
  rw [wildEntry, wildEntry, h.negative, h.flags, (isLocal_clearAuth c _).1,
    (isLocal_clearAuth c _).2]
  have hself : ∀ w, handOut now t (d, w) = handOut now s (c, w) :=
    fun w => (CleanTo.kept hkeep h).handOut hclean w
  split_ifs
  · exact hself .neg
  · exact (hclean (wildcard domain)).handOut hclean .wild
  · exact hself .locnerr
  · rfl

theorem searchUp_clean (hclean : Cleaned now s t) (domains : List Name) :
    (searchUp t domains).bind (handOut now t) = keptUp now s domains := by
  induction domains with
  | nil => rfl
  | cons domain domains ih =>
      rw [searchUp, keptUp]
      cases hs : s.find domain.fold <;> cases ht : t.find domain.fold <;>
        have hto := hs ▸ ht ▸ hclean domain.fold
      · exact ih
      · cases hto
      · cases hto with
        | dropped hgone => simpa [Option.filter, hgone] using ih
      · cases hto with
        | kept hgone h => simpa [Option.filter, hgone] using wildEntry_clean hclean hgone h domain

theorem isSome_wildEntry (hkeep : gone now c = false) (domain : Name) :
    ((wildEntry s domain c).bind (handOut now s)).isSome = answers now s domain c := by
  rw [wildEntry, answers]
  cases c.negative with
  | true => simp [handOut, hkeep]
  | false =>
      cases c.flags.wild with
      | true =>
          cases s.find (wildcard domain) with
          | none => rfl
          | some e => cases hgone : gone now e <;> simp [handOut, hgone]
      | false => cases c.flags.isLocal <;> simp [handOut, hkeep]

theorem isSome_keptUp (domains : List Name) :
    (keptUp now s domains).isSome = keptAnswers now s domains := by
  induction domains with
  | nil => rfl
  | cons domain domains ih =>
      rw [keptUp, keptAnswers]
      cases hc : (s.find domain.fold).filter fun c => !gone now c with
      | none => exact ih
      | some c =>
          have hkeep := (Option.filter_eq_some_iff.mp hc).2
          exact isSome_wildEntry (by simpa using hkeep) domain

theorem length_of_fold {n : Name} {k : Key} (h : n.fold = k) : n.labels.length = k.length := by
  rw [← h, Name.fold, List.length_map]

/-- What is handed out belongs to one of the domains, or is a wildcard entry of it. -/
theorem length_of_keptUp (hgood : Good cfg E s) {domains : List Name}
    {x : (Content × DFlags) × WildCode} (h : keptUp now s domains = some x) :
    ∃ domain ∈ domains, x.1.1.qname.labels.length ≤ domain.labels.length + 1 := by
  induction domains with
  | nil => cases h
  | cons domain domains ih =>
      rw [keptUp] at h
      cases hc : (s.find domain.fold).filter fun c => !gone now c with
      | none =>
          rw [hc] at h
          obtain ⟨above, hmem, hle⟩ := ih h
          exact ⟨above, List.mem_cons_of_mem _ hmem, hle⟩
      | some c =>
          refine ⟨domain, List.mem_cons_self, ?_⟩
          have hfind := (Option.filter_eq_some_iff.mp hc).1
          simp only [hc] at h
          obtain ⟨⟨e, w⟩, he, hout⟩ := Option.bind_eq_some_iff.mp h
          have hname : e.qname.labels.length ≤ domain.labels.length + 1 := by
            rw [wildEntry] at he
            split_ifs at he
            · cases he
              rw [length_of_fold (name_of_good hgood hfind), ← length_of_fold rfl]
              exact Nat.le_succ _
            · obtain ⟨e', he', heq⟩ := Option.map_eq_some_iff.mp he
              cases heq
              rw [length_of_fold (name_of_good hgood he'), wildcard, List.length_cons,
                ← length_of_fold rfl]
            · cases he
              rw [length_of_fold (name_of_good hgood hfind), ← length_of_fold rfl]
              exact Nat.le_succ _
          rw [handOut] at hout
          split_ifs at hout
          cases hout
          exact hname

/-- What is handed out for an entry that is dropped: only its wildcard can be kept. -/
theorem wildEntry_gone (hgone : gone now c = true) (domain : Name) :
    (wildEntry s domain c).bind (handOut now s) =
      if !c.negative && c.flags.wild then
        ((s.find (wildcard domain)).map fun e => (e, .wild)).bind (handOut now s)
      else none := by
  rw [wildEntry]
  cases c.negative with
  | true => simp [handOut, hgone]
  | false =>
      cases c.flags.wild with
      | true => rfl
      | false => cases c.flags.isLocal <;> simp [handOut, hgone]

/-- A search in the cache hands out what one does that passes over the dropped entries,
unless such an entry comes first. -/
theorem searchUp_eq_iff (hgood : Good cfg E s) {domains : List Name}
    (hdown : domains.Pairwise fun a b => b.labels.length < a.labels.length) :
    (searchUp s domains).bind (handOut now s) = keptUp now s domains ↔
      shadowed now s domains = false := by
  induction domains with
  | nil => exact iff_of_true rfl rfl
  | cons domain domains ih =>
      rw [List.pairwise_cons] at hdown
      rw [searchUp, keptUp, shadowed]
      cases hc : s.find domain.fold with
      | none => exact ih hdown.2
      | some c =>
          cases hgone : gone now c with
          | false => simp [Option.filter, hgone]
          | true =>
              simp only [Option.filter, hgone, Bool.not_true, Bool.false_eq_true, if_false,
                Bool.true_and, wildEntry_gone hgone, Bool.or_eq_false_iff]
              have hnone : none = keptUp now s domains ↔ (keptUp now s domains).isSome = false := by
                rw [eq_comm, Option.isSome_eq_false_iff, Option.isNone_iff_eq_none]
              rw [← isSome_keptUp]
              cases hwild : !c.negative && c.flags.wild with
              | false => simpa using hnone
              | true =>
                  rw [if_pos rfl, Bool.true_and]
                  cases he : s.find (wildcard domain) with
                  | none => simpa using hnone
                  | some e =>
                      cases hkeep : gone now e with
                      | true => simpa [handOut, hkeep] using hnone
                      | false =>
                          -- a wildcard entry of a domain further up has a shorter name
                          refine iff_of_false (fun heq => ?_) (by simp [hkeep])
                          simp only [Option.map_some, Option.bind_some, handOut, hkeep,
                            Bool.false_eq_true, if_false] at heq
                          obtain ⟨above, hmem, hle⟩ := length_of_keptUp hgood heq.symm
                          have hlt := hdown.1 above hmem
                          have hlen : e.qname.labels.length = domain.labels.length + 1 := by
                            rw [length_of_fold (name_of_good hgood he), wildcard, List.length_cons,
                              ← length_of_fold rfl]
                          change e.qname.labels.length ≤ _ at hle
                          omega

theorem enclosing_pairwise (name : Name) :
    (enclosing name).Pairwise fun a b => b.labels.length < a.labels.length := by
  rw [enclosing, List.pairwise_map]
  have hlength : ∀ k, (name.suffix k).labels.length = min k name.labels.length := by
    intro k
    rw [Name.suffix, List.length_drop]
    omega
  have hrange : ((List.range name.labels.length).reverse.filter fun k => 0 < k).Pairwise
      fun a b => b < a :=
    (List.pairwise_reverse.mpr List.pairwise_lt_range).filter _
  refine hrange.imp_of_mem fun {a b} ha _ hlt => ?_
  have hmem := List.mem_range.mp (List.mem_reverse.mp (List.mem_of_mem_filter ha))
  rw [hlength, hlength]
  omega

/-- A lookup in the cache hands out what one in the clean cache does, unless an entry is
hidden. -/
theorem lookupFound_eq_iff (hgood : Good cfg E s) (hclean : Cleaned now s t) (name : Name)
    (wild : Bool) :
    (lookupFound s name wild).bind (handOut now s) =
      (lookupFound t name wild).bind (handOut now t) ↔
      hidden now s name wild = false := by
  rw [lookupFound, lookupFound, hidden]
  cases hs : s.find name.fold <;> cases ht : t.find name.fold <;>
    have hto := hs ▸ ht ▸ hclean name.fold
  · cases wild with
    | false => exact iff_of_true rfl rfl
    | true =>
        simp only [if_true, searchUp_clean hclean, Bool.true_and]
        exact searchUp_eq_iff hgood (enclosing_pairwise name)
  · cases hto
  · cases hto with
    | dropped hgone =>
        cases wild with
        | false => simp [handOut, hgone]
        | true =>
            simp only [Option.bind_some, handOut, hgone, if_true, searchUp_clean hclean,
              Bool.true_and]
            rw [← isSome_keptUp, eq_comm, Option.isSome_eq_false_iff, Option.isNone_iff_eq_none]
  · cases hto with
    | kept hgone h =>
        have hout := (CleanTo.kept hgone h).handOut hclean WildCode.exact
        simpa [hgone] using hout.symm

end Search

section PurgeAll

variable {cfg : CacheConfig} {E : Int × Int → Prop} {now : Int} {s u v : Cache} {k : Key}
  {c : Cent}

/-- Some of the entries are clean, and the others are as they were. -/
def PartClean (now : Int) (s u : Cache) (ks : List Key) : Prop :=
  ∀ k, if k ∈ ks then u.find k = s.find k else CleanTo now s (s.find k) (u.find k)

theorem PartClean.staleSet {ks : List Key} (h : PartClean now s u ks) (k : Key) (i : Slot) :
    staleSet now (setAt u k i) = staleSet now (setAt s k i) := by
  have hk := h k
  split_ifs at hk
  · rw [setAt, setAt, hk]
  · exact hk.staleSet i

theorem PartClean.purgeCent {ks : List Key} {x : Int} (h : PartClean now s u (k :: ks))
    (hk : k ∉ ks) (hc : u.find k = some c) (hname : c.qname.fold = k)
    (hv : purgeCent cfg now true false u k = some (v, x)) : PartClean now s v ks := by
  obtain ⟨rfl, hpurged, hdropped⟩ := purgeCent_real hc hname hv
  have hsc : s.find k = some c := by
    have := h k
    rw [if_pos List.mem_cons_self] at this
    rw [← this, hc]
  have hother : ∀ k', k' ≠ k → v.find k' = u.find k' := by
    intro k' hk'
    rcases Int.lt_or_le (predicted now true u c) 0 with hneg | hstay
    · rw [hdropped hneg, Function.update_of_ne hk']
    · obtain ⟨e, he⟩ := hpurged hstay
      rw [he.find, hname, Function.update_of_ne hk']
  have hrefresh : ∀ i ref, refreshRef now u c ref i = refreshRef now s c ref i := fun i ref => by
    rw [refreshRef, refreshRef, staleRef_congr rfl rfl fun k => h.staleSet k i]
  intro k'
  by_cases hk' : k' = k
  · subst hk'
    rw [if_neg hk, hsc]
    rcases Int.lt_or_le (predicted now true u c) 0 with hneg | hstay
    · rw [hdropped hneg, Function.update_self]
      exact .dropped (predicted_neg_iff.mp hneg)
    · obtain ⟨e, he⟩ := hpurged hstay
      rw [he.find, hname, Function.update_self]
      refine .kept (Bool.eq_false_iff.mpr fun hgone => ?_)
        ⟨he.name, he.flags, he.negTimes, fun i => by rw [he.rrset], ?_, ?_⟩
      · exact absurd (predicted_neg_iff.mpr hgone) (Int.not_lt.mpr hstay)
      · rw [he.cNs, hrefresh]
        cases c.flags.isLocal with
        | true => exact Or.inl rfl
        | false => exact Or.inr ⟨rfl, rfl⟩
      · rw [he.cSoa, hrefresh]
        cases c.flags.isLocal with
        | true => exact Or.inl rfl
        | false => exact Or.inr ⟨rfl, rfl⟩
  · have := h k'
    rw [hother k' hk']
    simpa [hk'] using this

theorem purgeAll_cleaned (h : Good cfg E s) :
    ∃ t, purgeAll cfg now s = some t ∧ Good cfg E t ∧ Cleaned now s t := by
  suffices hgen : ∀ (ks : List Key) (u : Cache), ks.Nodup → (∀ k ∈ ks, (s.find k).isSome) →
      Good cfg E u → PartClean now s u ks →
      ∃ t, ks.foldlM (fun s k => (purgeCent cfg now true false s k).map Prod.fst) u = some t ∧
        Good cfg E t ∧ PartClean now s t [] by
    have hkeys : ∀ k, k ∈ s.table.keys ↔ (s.find k).isSome := fun k =>
      AList.lookup_isSome.symm
    obtain ⟨t, ht, hgood, hclean⟩ := hgen s.table.keys s s.table.keys_nodup
      (fun k hk => (hkeys k).mp hk) h fun k => by
        split_ifs with hk
        · rfl
        · rw [hkeys, Option.not_isSome_iff_eq_none] at hk
          rw [hk]
          exact .absent
    exact ⟨t, ht, hgood, fun k => by simpa using hclean k⟩
  intro ks
  induction ks with
  | nil => exact fun u _ _ hgood hpart => ⟨u, rfl, hgood, hpart⟩
  | cons k ks ih =>
      intro u hnodup hsome hgood hpart
      rw [List.nodup_cons] at hnodup
      rw [List.forall_mem_cons] at hsome
      obtain ⟨c, hc⟩ := Option.isSome_iff_exists.mp hsome.1
      have hsame := hpart k
      rw [if_pos List.mem_cons_self, hc] at hsame
      obtain ⟨v, x, hv, hgoodv⟩ := purgeCent_good hgood hsame now
      rw [List.foldlM_cons, hv]
      exact ih v hnodup.2 hsome.2 hgoodv
        (hpart.purgeCent hnodup.1 hsame (name_of_good hgood hsame) hv)

end PurgeAll

/-- Nothing in the entry is timed out, but for record sets that are local or never purged. -/
structure Live (now : Int) (e : Cent) : Prop where
  rrset : ∀ i, ∀ r ∈ e.rrset i, timedout now r.ts r.ttl = true →
    r.flags.nopurge = true ∨ r.flags.isLocal = true
  negative : ∀ x ∈ e.negTimes, timedout now x.2 x.1 = true → e.flags.isLocal = true

/-- What a caller of `lookup_cache` sees. -/
def seen (r : Option (Cent × WildCode)) : Option ((Content × DFlags) × WildCode) :=
  r.map fun x => (view x.1, x.2)

section Transparency

variable {cfg : CacheConfig} {now : Int} {s : Cache} {c e : Cent}

theorem live_of_view (hview : view e = purgedView now s c) (hkeep : gone now c = false) :
    Live now e := by
  simp only [view, Cent.content, purgedView, Prod.mk.injEq, Content.mk.injEq] at hview
  obtain ⟨⟨-, htimes, -, -, hrrset⟩, hflags⟩ := hview
  refine ⟨fun i r hr htime => ?_, fun x hx htime => ?_⟩
  · have hi := congrFun hrrset i
    rw [Option.mem_def.mp hr, Option.map_some, eq_comm, Option.map_eq_some_iff] at hi
    obtain ⟨r', hr', hbare⟩ := hi
    have hstay : r'.purgeable now = false := by
      simpa using (Option.filter_eq_some_iff.mp hr').2
    have hstay' : r.purgeable now = false := by
      change r.bare.purgeable now = false
      rw [← hbare]
      exact hstay
    rwa [RrSet.purgeable, htime, Bool.and_true, Bool.not_eq_false', Bool.or_eq_true] at hstay'
  · have hneg : c.negative = true := by
      rw [htimes] at hx
      obtain ⟨qname, cs, numRrs, dflags, arm, cNs, cSoa⟩ := c
      cases arm with
      | neg => rfl
      | rr => cases hx
    have hneedless : c.needless now = false := by
      rw [gone, Bool.and_eq_false_iff] at hkeep
      refine hkeep.resolve_left ?_
      simp [Cent.rrset_of_negative hneg, leave]
    rw [needless_eq, ← htimes, Option.mem_def.mp hx] at hneedless
    rw [hflags, (isLocal_clearAuth c _).1]
    simpa [htime] using hneedless

/-- What a lookup hands out is live, and it is what a lookup in the clean cache hands out
if and only if no entry is hidden by one that the purge drops. -/
theorem lookupCache_transparent_iff {hist : List Call}
    (hrun : Run (call cfg) Always Cache.empty hist s) (now : Int) (name : Name) (wild : Bool) :
    ∃ u r, lookupCache cfg now s name wild = some (u, r) ∧ (∀ x ∈ r, Live now x.1) ∧
      (∃ t, purgeAll cfg now s = some t ∧ Good cfg NoDeficit t ∧ Cleaned now s t) ∧
      ∀ t, Good cfg NoDeficit t → Cleaned now s t →
        ∃ u' r', lookupCache cfg now t name wild = some (u', r') ∧
          (seen r = seen r' ↔ hidden now s name wild = false) := by
  have hgood := (tidy_run hrun).1
  obtain ⟨u, r, hr, hseen⟩ := lookupCache_eq hgood now name wild
  refine ⟨u, r, hr, fun x hx => ?_, purgeAll_cleaned hgood, fun t ht hclean => ?_⟩
  · rw [Option.mem_def.mp hx, Option.map_some, eq_comm, Option.bind_eq_some_iff] at hseen
    obtain ⟨⟨c, w⟩, -, hout⟩ := hseen
    rw [handOut] at hout
    split_ifs at hout with hgone
    exact live_of_view (congrArg Prod.fst (Option.some.inj hout)).symm (Bool.eq_false_iff.mpr hgone)
  · obtain ⟨u', r', hr', hseen'⟩ := lookupCache_eq ht now name wild
    refine ⟨u', r', hr', ?_⟩
    rw [seen, seen, hseen, hseen']
    exact lookupFound_eq_iff hgood hclean name wild

def hiddenName : Name :=
  ⟨(letterName 97).labels ++ (letterName 98).labels⟩

/-- `b` does not exist, as a name server says. -/
def negation : Recipe where
  qname := letterName 98
  negative := true
  ttl := 900
  ts := 1000
  flags := ⟨false, false, false, false⟩
  ops := []

/-- `a.b` had a record set before. -/
def outdated : Recipe where
  qname := hiddenName
  negative := false
  ttl := 0
  ts := 0
  flags := ⟨false, false, false, false⟩
  ops := [.rr slotNS 300 1000 ⟨false, false, false, false, false, false, false⟩ [0]]

/-- The lookup of `a.b` when its record set is timed out. -/
theorem lookupCache_transparent_iff_outdated :
    ∃ s, Run (call exampleConfig) Always Cache.empty
        [.op (.add 1000 outdated), .op (.add 1000 negation)] s ∧
      ∃ u r, lookupCache exampleConfig 1700 s hiddenName true = some (u, r) ∧
        (∀ x ∈ r, Live 1700 x.1) ∧
        (∃ t, purgeAll exampleConfig 1700 s = some t ∧ Good exampleConfig NoDeficit t ∧
          Cleaned 1700 s t) ∧
        ∀ t, Good exampleConfig NoDeficit t → Cleaned 1700 s t →
          ∃ u' r', lookupCache exampleConfig 1700 t hiddenName true = some (u', r') ∧
            (seen r = seen r' ↔ hidden 1700 s hiddenName true = false) := by
  obtain ⟨s, hs⟩ := Option.isSome_iff_exists.mp
    (show (execute (call exampleConfig) Always Cache.empty
    [.op (.add 1000 negation), .op (.add 1000 outdated)]).isSome by decide +kernel)
  exact ⟨s, run_of_execute hs, lookupCache_transparent_iff (run_of_execute hs) 1700 hiddenName true⟩

/-- Nothing is handed out for `a.b`, but if it had been purged before, the entry of `b`. -/
theorem not_lookupCache_transparent :
    ¬∀ hist s, Run (call exampleConfig) Always Cache.empty hist s → ∀ now name wild t u r u' r',
      purgeAll exampleConfig now s = some t →
      lookupCache exampleConfig now s name wild = some (u, r) →
      lookupCache exampleConfig now t name wild = some (u', r') → seen r = seen r' := by
  intro h
  have heval : ((execute (call exampleConfig) Always Cache.empty
      [.op (.add 1000 negation), .op (.add 1000 outdated)]).bind fun s =>
        (lookupCache exampleConfig 1700 s hiddenName true).bind fun x =>
        (purgeAll exampleConfig 1700 s).bind fun t =>
        (lookupCache exampleConfig 1700 t hiddenName true).map fun y =>
          (x.2.isSome, y.2.isSome)) = some (false, true) := by
    decide +kernel
  obtain ⟨s, hs, heval⟩ := Option.bind_eq_some_iff.mp heval
  obtain ⟨⟨u, r⟩, hr, heval⟩ := Option.bind_eq_some_iff.mp heval
  obtain ⟨t, ht, heval⟩ := Option.bind_eq_some_iff.mp heval
  obtain ⟨⟨u', r'⟩, hr', heval⟩ := Option.map_eq_some_iff.mp heval
  have heq := h _ s (run_of_execute hs) 1700 hiddenName true t u r u' r' ht hr hr'
  have hsome := congrArg Option.isSome heq
  rw [seen, seen, Option.isSome_map, Option.isSome_map] at hsome
  rw [Prod.mk.injEq] at heval
  rw [heval.1, heval.2] at hsome
  cases hsome

end Transparency

end TorAndroid.Dns.Counted
