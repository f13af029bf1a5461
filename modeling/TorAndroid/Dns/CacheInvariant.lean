import TorAndroid.Dns.EvictionOrder
import Mathlib.Data.Finmap

namespace TorAndroid.Dns

open TorAndroid.Lib.LinkedCells TorAndroid.Lib.DoublyLinked

namespace Cache

theorem find_put (s : Cache) (k : Key) (c : Cent) :
    (s.put k c).find = Function.update s.find k (some c) := by
  funext k'
  by_cases h : k' = k
  · subst h
    simp [find, put]
  · simp [find, put, h]

/-- What holds of the entry that is stored and of all others holds of every entry. -/
theorem forall_find_update {s t : Cache} {k : Key} {d : Cent} {p : Key → Cent → Prop}
    (hfind : t.find = Function.update s.find k (some d))
    (hs : ∀ k' ≠ k, ∀ c, s.find k' = some c → p k' c) (hd : p k d) :
    ∀ k' c, t.find k' = some c → p k' c := by
  intro k' c hc
  rw [hfind] at hc
  by_cases hk : k' = k
  · subst hk
    rw [Function.update_self] at hc
    cases hc
    exact hd
  · rw [Function.update_of_ne hk] at hc
    exact hs k' hk c hc

theorem length_entries_le {s : Cache} {keys : List Key}
    (h : ∀ k c, s.find k = some c → k ∈ keys) : s.table.entries.length ≤ keys.length := by
  have hkeys : s.table.keys ⊆ keys := by
    intro k hk
    obtain ⟨c, hc⟩ := Option.isSome_iff_exists.mp (AList.lookup_isSome.mpr (AList.mem_keys.mpr hk))
    exact h k c hc
  have hlength := (List.subperm_of_subset s.table.keys_nodup hkeys).length_le
  change (s.table.entries.map Sigma.fst).length ≤ keys.length at hlength
  rwa [List.length_map] at hlength

/-- A sum over the entries. -/
def total (s : Cache) (g : Cent → Int) : Int :=
  (s.table.entries.map fun e => g e.2).sum

/-- A sum over the entries but one. -/
def rest (s : Cache) (k : Key) (g : Cent → Int) : Int :=
  ((s.table.erase k).entries.map fun e => g e.2).sum

theorem find_erase (s : Cache) (k : Key) :
    { s with table := s.table.erase k }.find = Function.update s.find k none := by
  funext k'
  by_cases h : k' = k
  · subst h
    simp [find]
  · simp [find, h]

theorem total_of_find {s : Cache} {k : Key} {c : Cent} (h : s.find k = some c)
    (g : Cent → Int) : s.total g = g c + s.rest k g := by
  have hkey : k ∈ s.table.entries.keys := by
    rw [List.mem_keys]
    exact ⟨c, List.of_mem_dlookup (Option.mem_def.mpr h)⟩
  obtain ⟨d, l₁, l₂, -, hentries, herase⟩ := List.exists_of_kerase hkey
  have hd : d = c := by
    have hd := List.mem_dlookup s.table.nodupKeys (b := d) (a := k) (by simp [hentries])
    exact Option.some.inj (hd.symm.trans h)
  simp only [total, rest, AList.erase, herase]
  simp only [hentries, hd, List.map_append, List.map_cons, List.sum_append, List.sum_cons]
  omega

theorem total_of_find_none {s : Cache} {k : Key} (h : s.find k = none) (g : Cent → Int) :
    s.total g = s.rest k g := by
  have hnot : k ∉ s.table.entries.keys := AList.lookup_eq_none.mp h
  rw [total, rest, AList.erase]
  exact congrArg (fun l => (List.map (fun e : Sigma fun _ : Key => Cent => g e.2) l).sum)
    (List.kerase_of_notMem_keys hnot).symm

theorem total_eq_sum (s : Cache) (g : Cent → Int) :
    s.total g = ∑ k ∈ s.table.keys.toFinset, (s.find k).elim 0 g := by
  rw [List.sum_toFinset _ s.table.keys_nodup, AList.keys, List.keys, List.map_map, total]
  refine congrArg List.sum (List.map_congr_left fun e he => ?_)
  have hfind : s.find e.1 = some e.2 := List.mem_dlookup s.table.nodupKeys he
  rw [Function.comp_apply, hfind]
  rfl

/-- A sum of quantities that are not negative is not larger for smaller entries. -/
theorem total_le {s t : Cache} {g : Cent → Int}
    (h : ∀ k d, t.find k = some d → ∃ c, s.find k = some c ∧ g d ≤ g c)
    (hpos : ∀ k c, s.find k = some c → 0 ≤ g c) : t.total g ≤ s.total g := by
  have hkeys : ∀ (s : Cache) k, k ∈ s.table.keys.toFinset ↔ ∃ c, s.find k = some c := by
    intro s k
    rw [List.mem_toFinset, ← AList.mem_keys, ← AList.lookup_isSome, Option.isSome_iff_exists]
    rfl
  rw [total_eq_sum, total_eq_sum]
  calc ∑ k ∈ t.table.keys.toFinset, (t.find k).elim 0 g
      ≤ ∑ k ∈ t.table.keys.toFinset, (s.find k).elim 0 g := by
        refine Finset.sum_le_sum fun k hk => ?_
        obtain ⟨d, hd⟩ := (hkeys t k).mp hk
        obtain ⟨c, hc, hle⟩ := h k d hd
        rw [hd, hc]
        exact hle
    _ ≤ ∑ k ∈ s.table.keys.toFinset, (s.find k).elim 0 g := by
        refine Finset.sum_le_sum_of_subset_of_nonneg (fun k hk => ?_) fun k hk _ => ?_
        · obtain ⟨d, hd⟩ := (hkeys t k).mp hk
          obtain ⟨c, hc, -⟩ := h k d hd
          exact (hkeys s k).mpr ⟨c, hc⟩
        · obtain ⟨c, hc⟩ := (hkeys s k).mp hk
          rw [hc]
          exact hpos k c hc

theorem rest_put (s : Cache) (k : Key) (c : Cent) (g : Cent → Int) :
    (s.put k c).rest k g = s.rest k g := by
  simp [rest, put, AList.erase, AList.entries_insert]

end Cache

section Invariant

variable (sz : Sizes) (E : Int × Int → Prop)

/-- An entry filed under a key, with the counters it may have and with a node for
every place that belongs on the list and is not pending. -/
structure Cent.Ok (k : Key) (pend : Option Slot → Prop) (c : Cent) : Prop where
  name : c.qname.fold = k
  surplus : E (c.surplus sz)
  linked : ∀ o, (c.lentOf o).isSome ↔ c.listed o = true ∧ ¬pend o

/-- The list holds the nodes `xs`, and they are the nodes of the entries.  The places
in `P` have no node yet. -/
structure Inv (s : Cache) (xs : List (Addr × Lent)) (P : Set Lent) : Prop where
  represents : s.rrl.Represents xs
  mem_iff : ∀ a le, (a, le) ∈ xs ↔ ∃ c, s.find le.cent = some c ∧ c.lentOf le.idx = some a
  ok : ∀ k c, s.find k = some c → c.Ok sz E k fun o => ⟨k, o⟩ ∈ P

/-- The counters of the cache are sums over the entries. -/
structure Sized (s : Cache) : Prop where
  cacheSize : s.cacheSize = s.total Cent.cs
  entNum : s.entNum = s.total fun _ => 1

variable {sz E} {s t : Cache} {xs ys : List (Addr × Lent)} {P Q : Set Lent} {k : Key} {c : Cent}

theorem Inv.owns (h : Inv sz E s xs P) (hc : s.find k = some c) :
    Owns s.rrl xs k c.lentOf := by
  refine ⟨h.represents, fun a o => ?_⟩
  rw [h.mem_iff]
  constructor
  · rintro ⟨d, hd, hlent⟩
    cases hc.symm.trans hd
    exact hlent
  · exact fun hlent => ⟨c, hc, hlent⟩

theorem Inv.nodup (h : Inv sz E s xs P) : (xs.map Prod.snd).Nodup := by
  refine List.Nodup.map_on ?_ h.represents.nodup.of_map
  rintro ⟨a, le⟩ hx ⟨b, le'⟩ hy heq
  obtain rfl : le = le' := heq
  obtain ⟨c, hc, hlent⟩ := (h.mem_iff a le).mp hx
  obtain ⟨d, hd, hlent'⟩ := (h.mem_iff b le).mp hy
  cases hc.symm.trans hd
  cases hlent.symm.trans hlent'
  rfl

/-- The places that have a node are those that belong on the list. -/
theorem Inv.mem_listed (h : Inv sz E s xs ∅) (le : Lent) :
    le ∈ xs.map Prod.snd ↔ ∃ c, s.find le.cent = some c ∧ c.listed le.idx = true := by
  rw [List.mem_map]
  constructor
  · rintro ⟨⟨a, le'⟩, hx, rfl⟩
    obtain ⟨c, hc, hlent⟩ := (h.mem_iff a le').mp hx
    exact ⟨c, hc, (((h.ok _ c hc).linked _).mp (by simp [hlent])).1⟩
  · rintro ⟨c, hc, hlisted⟩
    obtain ⟨a, ha⟩ := Option.isSome_iff_exists.mp
      (((h.ok _ c hc).linked le.idx).mpr ⟨hlisted, by simp⟩)
    exact ⟨(a, le), (h.mem_iff a le).mpr ⟨c, hc, ha⟩, rfl⟩

theorem Inv.owns_none (h : Inv sz E s xs P) (hc : s.find k = none) :
    Owns s.rrl xs k fun _ => none := by
  refine ⟨h.represents, fun a o => ?_⟩
  rw [h.mem_iff]
  simp [hc]

theorem Inv.update (h : Inv sz E s xs P) {v : Option Cent}
    (hfind : t.find = Function.update s.find k v)
    (hown : Owns t.rrl ys k fun o => v.bind fun c => c.lentOf o) (hsame : SameElse k xs ys)
    (hok : ∀ c, v = some c → c.Ok sz E k fun o => ⟨k, o⟩ ∈ Q)
    (hQ : ∀ le : Lent, le.cent ≠ k → (le ∈ Q ↔ le ∈ P)) : Inv sz E t ys Q := by
  refine ⟨hown.represents, fun a le => ?_, fun k' d hd => ?_⟩
  · obtain ⟨k', o⟩ := le
    by_cases hk : k' = k
    · subst hk
      rw [hown.mem_iff, hfind, Function.update_self, Option.bind_eq_some_iff]
    · rw [hsame a ⟨k', o⟩ hk, h.mem_iff, hfind, Function.update_of_ne hk]
  · rw [hfind] at hd
    by_cases hk : k' = k
    · subst hk
      rw [Function.update_self] at hd
      exact hok d hd
    · rw [Function.update_of_ne hk] at hd
      have hokd := h.ok k' d hd
      refine ⟨hokd.name, hokd.surplus, fun o => ?_⟩
      rw [hokd.linked o, hQ ⟨k', o⟩ hk]

/-- A place that does not belong on the list need not be pending. -/
theorem Inv.unpend (h : Inv sz E s xs P) (hQ : Q ⊆ P)
    (hlisted : ∀ le ∈ P, le ∉ Q → ∀ c, s.find le.cent = some c → c.listed le.idx = false) :
    Inv sz E s xs Q := by
  refine ⟨h.represents, h.mem_iff, fun k c hc => ?_⟩
  have hok := h.ok k c hc
  refine ⟨hok.name, hok.surplus, fun o => ?_⟩
  rw [hok.linked o]
  refine and_congr_right fun htrue => not_congr ⟨fun hP => ?_, fun hmem => hQ hmem⟩
  by_contra hnot
  rw [hlisted _ hP hnot c hc] at htrue
  cases htrue

theorem Cache.find_of_insert {d : Cent} (ht : t.table = s.table.insert k d) :
    t.find = Function.update s.find k (some d) := by
  rw [← Cache.find_put]
  funext k'
  exact congrArg (AList.lookup k') ht

theorem Cache.find_of_erase (ht : t.table = s.table.erase k) :
    t.find = Function.update s.find k none := by
  rw [← Cache.find_erase]
  funext k'
  exact congrArg (AList.lookup k') ht

/-- At most the entry of `k` is different, and it is now `d`. -/
structure Touches (s t : Cache) (k : Key) (d : Cent) : Prop where
  find : t.find = Function.update s.find k (some d)
  rest : ∀ g, t.rest k g = s.rest k g
  entNum : t.entNum = s.entNum
  insertSort : t.insertSort = s.insertSort

namespace Touches

variable {u : Cache} {d e : Cent}

theorem of_insert (ht : t.table = s.table.insert k d) (hnum : t.entNum = s.entNum)
    (hsort : t.insertSort = s.insertSort) : Touches s t k d := by
  refine ⟨Cache.find_of_insert ht, fun g => ?_, hnum, hsort⟩
  rw [← Cache.rest_put s k d]
  exact congrArg (fun a : AList fun _ : Key => Cent =>
    ((a.erase k).entries.map fun e => g e.2).sum) ht

theorem refl (hc : s.find k = some c) : Touches s s k c :=
  ⟨by rw [← hc, Function.update_eq_self], fun _ => rfl, rfl, rfl⟩

theorem trans (h₁ : Touches s t k d) (h₂ : Touches t u k e) : Touches s u k e := by
  refine ⟨?_, fun g => (h₂.rest g).trans (h₁.rest g), h₂.entNum.trans h₁.entNum,
    h₂.insertSort.trans h₁.insertSort⟩
  rw [h₂.find, h₁.find, Function.update_idem]

theorem find_self (h : Touches s t k d) : t.find k = some d := by
  rw [h.find, Function.update_self]

theorem find_ne (h : Touches s t k d) {k' : Key} (hk : k' ≠ k) : t.find k' = s.find k' := by
  rw [h.find, Function.update_of_ne hk]

theorem total_eq (h : Touches s t k d) (g : Cent → Int) : t.total g = g d + s.rest k g := by
  rw [Cache.total_of_find h.find_self, h.rest]

theorem sized (h : Touches s t k d) (hsized : Sized s) (hc : s.find k = some c)
    (hsize : t.cacheSize = s.cacheSize - c.cs + d.cs) : Sized t := by
  constructor
  · rw [h.total_eq, hsize, hsized.cacheSize, Cache.total_of_find hc]
    omega
  · rw [h.total_eq, h.entNum, hsized.entNum, Cache.total_of_find hc]

end Touches

theorem Sized.erase (h : Sized s) (hc : s.find k = some c) (ht : t.table = s.table.erase k)
    (hsize : t.cacheSize = s.cacheSize - c.cs) (hnum : t.entNum = s.entNum - 1) : Sized t := by
  have htotal : ∀ g, t.total g = s.rest k g := fun g =>
    congrArg (fun l => (List.map (fun e : Sigma fun _ : Key => Cent => g e.2) l).sum)
      (congrArg AList.entries ht)
  constructor
  · rw [htotal, hsize, h.cacheSize, Cache.total_of_find hc]
    omega
  · rw [htotal, hnum, h.entNum, Cache.total_of_find hc]
    omega

namespace Cent.Ok

variable {pend : Option Slot → Prop} {i : Slot} {d : Cent}

theorem of_same (h : c.Ok sz E k pend) (hname : d.qname = c.qname)
    (hsurplus : d.surplus sz = c.surplus sz) (hlent : d.lentOf = c.lentOf)
    (hlisted : d.listed = c.listed) : d.Ok sz E k pend := by
  refine ⟨hname ▸ h.name, hsurplus ▸ h.surplus, ?_⟩
  rw [hlent, hlisted]
  exact h.linked

theorem pend_congr {pend' : Option Slot → Prop} (h : c.Ok sz E k pend)
    (hpend : ∀ o, pend o ↔ pend' o) : c.Ok sz E k pend' := by
  refine ⟨h.name, h.surplus, fun o => ?_⟩
  rw [h.linked, hpend]

theorem congr (h : c.Ok sz E k pend) (harm : d.arm = c.arm) (hname : d.qname = c.qname)
    (hnum : d.numRrs = c.numRrs) (hcs : d.cs = c.cs)
    (hlocal : d.flags.isLocal = c.flags.isLocal) : d.Ok sz E k pend := by
  refine h.of_same hname (surplus_congr harm hname hnum hcs) ?_ ?_
  · funext o
    cases o <;> simp only [lentOf, rrset, harm]
  · funext o
    cases o <;> simp only [listed, rrset, negative, harm, hlocal]

theorem withoutRrset (h : c.Ok sz E k pend) : (c.withoutRrset sz i).Ok sz E k pend := by
  have hframe := withoutRrset_frame c sz i
  refine ⟨hframe.1 ▸ h.name, by rw [surplus_withoutRrset]; exact h.surplus, fun o => ?_⟩
  rw [lentOf_withoutRrset]
  cases o with
  | none =>
      rw [Function.update_of_ne (by simp), h.linked]
      simp only [listed, hframe.2.1, hframe.2.2.1]
  | some j =>
      by_cases hji : j = i
      · subst hji
        simp [listed, rrset_withoutRrset]
      · rw [Function.update_of_ne (by simpa using hji), h.linked]
        simp only [listed, rrset_withoutRrset, Function.update_of_ne hji, hframe.2.1]

theorem withRrset (h : c.Ok sz E k pend) (hi : c.rrset i = none) (ttl ts : Int) (flags : CFlags) :
    (c.withRrset sz i ttl ts flags).Ok sz E k fun o => pend o ∨ o = some i := by
  refine ⟨h.name, by rw [surplus_withRrset, hi]; simpa using h.surplus, fun o => ?_⟩
  rw [lentOf_withRrset hi]
  cases o with
  | none => simp [listed, Cent.withRrset, negative]
  | some j =>
      rw [Function.update_of_ne (by simp), h.linked]
      by_cases hji : j = i
      · subst hji
        simp [listed, hi]
      · simp only [listed, rrset_withRrset, Function.update_of_ne hji, Option.some.injEq, hji,
          or_false]
        rfl

theorem modifyRrset (h : c.Ok sz E k pend) {f : RrSet → RrSet}
    (hlent : ∀ r, (f r).lent = r.lent) (hlocal : ∀ r, (f r).flags.isLocal = r.flags.isLocal)
    (hsize : ∀ r, (f r).size sz = r.size sz) : (c.modifyRrset i f).Ok sz E k pend :=
  h.of_same (modifyRrset_frame c i f).1 (surplus_modifyRrset hsize) (lentOf_modifyRrset hlent)
    (listed_modifyRrset hlocal)

theorem appendRr (h : c.Ok sz E k pend) (data : List UInt8) (hi : (c.rrset i).isSome) :
    (appendRr sz c i data).Ok sz E k pend := by
  refine h.of_same (modifyRrset_frame ..).1 (surplus_appendRr hi) ?_ ?_
  · exact lentOf_modifyRrset fun _ => rfl
  · exact listed_modifyRrset fun _ => rfl

end Cent.Ok

section Operations

variable {cfg : CacheConfig}

/-- Only this node is taken off the list with a record set. -/
theorem Inv.delSlot (h : Inv cfg.sizes E s xs P) (hc : s.find k = some c) (i : Slot) :
    ∃ t, delSlot cfg s k c i = some t ∧
      Inv cfg.sizes E t (xs.filter fun y => c.lentOf (some i) ≠ some y.1) P ∧
      Touches s t k (c.withoutRrset cfg.sizes i) ∧
      t.cacheSize = s.cacheSize - c.cs + (c.withoutRrset cfg.sizes i).cs := by
  obtain ⟨l, hl, hown, hsame⟩ := (h.owns hc).removeRrl (some i)
  refine ⟨{ s with
    rrl := l
    cacheSize := s.cacheSize - ((c.rrset i).elim 0 (RrSet.size cfg.sizes) : Nat) }.put k
      (c.withoutRrset cfg.sizes i), ?_, ?_, Touches.of_insert rfl rfl rfl, ?_⟩
  · simp only [Dns.delSlot, delCentRrsetByIndex_eq, hl]
    rfl
  · rw [← Cent.lentOf_withoutRrset c cfg.sizes] at hown
    refine h.update (Cache.find_put _ _ _) hown hsame ?_ fun _ _ => Iff.rfl
    rintro d ⟨⟩
    exact (h.ok k c hc).withoutRrset
  · rw [(Cent.withoutRrset_frame c cfg.sizes i).2.2.2]
    cases c.rrset i <;> simp [Cache.put]

theorem Inv.delCacheEnt (h : Inv cfg.sizes E s xs P) (hsized : Sized s) (hc : s.find k = some c) :
    ∃ t, delCacheEnt cfg s k c = some t ∧
      Inv cfg.sizes E t (xs.filter fun y => ∀ o ∈ places, c.lentOf o ≠ some y.1) P ∧ Sized t ∧
      t.find = Function.update s.find k none ∧ t.insertSort = s.insertSort := by
  obtain ⟨l, hl, hown, hsame⟩ := (h.owns hc).removeEach places_nodup
  have hgone : (fun o => if o ∈ places then none else c.lentOf o) = fun _ => none := by
    funext o
    rw [if_pos (mem_places o)]
  rw [hgone] at hown
  refine ⟨{ s with
    table := s.table.erase k
    rrl := l
    cacheSize := s.cacheSize - c.cs
    entNum := s.entNum - 1 }, ?_, ?_, ?_, ?_, rfl⟩
  · simp only [Dns.delCacheEnt, freeCent_eq, hl]
    rfl
  · refine h.update (Cache.find_of_erase rfl) hown hsame ?_ fun _ _ => Iff.rfl
    rintro d ⟨⟩
  · exact hsized.erase hc rfl rfl rfl
  · exact Cache.find_of_erase rfl

/-- The place holds something. -/
def Cent.has (c : Cent) : Option Slot → Bool
  | none => c.negative
  | some i => (c.rrset i).isSome

theorem Cent.has_of_lentOf {o : Option Slot} {a : Addr} (h : c.lentOf o = some a) :
    c.has o = true := by
  cases o with
  | none =>
      obtain ⟨qname, cs, numRrs, dflags, arm, cNs, cSoa⟩ := c
      cases arm with
      | neg => rfl
      | rr => cases h
  | some i =>
      obtain ⟨r, hr, -⟩ := Option.bind_eq_some_iff.mp h
      simp [has, hr]

theorem lentTs_isSome {le : Lent} (hc : s.find le.cent = some c) (h : c.has le.idx = true) :
    (lentTs s le).isSome := by
  obtain ⟨k, o⟩ := le
  cases o with
  | none =>
      obtain ⟨qname, cs, numRrs, dflags, arm, cNs, cSoa⟩ := c
      cases arm with
      | neg => simp [lentTs, hc]
      | rr => cases h
  | some i =>
      obtain ⟨r, hr⟩ := Option.isSome_iff_exists.mp h
      simp [lentTs, hc, hr]

/-- The neighbours of a new node; they are in order if the list is kept sorted. -/
theorem Inv.insertPlace (h : Inv sz E s xs P) {le : Lent} (hc : s.find le.cent = some c)
    (hhas : c.has le.idx = true) :
    ∃ pre post, xs = pre ++ post ∧
      insertPlace s le = some (lastAddr none pre, headAddr post none) ∧
      (s.insertSort = true → ∀ a, (∀ x ∈ pre.getLast?, s.nodeTs x ≤ s.nodeTs (a, le)) ∧
        ∀ x ∈ post, s.nodeTs (a, le) < s.nodeTs x) := by
  cases hsort : s.insertSort with
  | false =>
      refine ⟨xs, [], by simp, ?_, nofun⟩
      simp [Dns.insertPlace, hsort, h.represents.tail]
  | true =>
      obtain ⟨ts, hts⟩ := Option.isSome_iff_exists.mp (lentTs_isSome hc hhas)
      let stop := fun n => (lentTs s n).map fun t => decide (t ≤ ts)
      have hstop : ∀ x ∈ xs, (stop x.2).isSome := by
        rintro ⟨a, le'⟩ hx
        obtain ⟨c', hc', hlent⟩ := (h.mem_iff a le').mp hx
        rw [Option.isSome_map]
        exact lentTs_isSome hc' (Cent.has_of_lentOf hlent)
      have hnode : ∀ x b, stop x.2 = some b → decide (s.nodeTs x ≤ ts) = b := by
        intro x b hx
        obtain ⟨t, ht, hb⟩ := Option.map_eq_some_iff.mp hx
        rw [Cache.nodeTs, ht]
        exact hb
      obtain ⟨pre, mid, hxs, hfind, hlast, hmid⟩ := h.represents.findBack_spec hstop
        (List.append_nil xs).symm (Nat.lt_succ_of_le h.represents.length_le)
      rw [← h.represents.tail] at hfind
      have hnew : ∀ a, s.nodeTs (a, le) = ts := fun a => by rw [Cache.nodeTs, hts]; rfl
      refine ⟨pre, mid, hxs, ?_, fun _ a => ⟨fun x hx => ?_, fun x hx => ?_⟩⟩
      · have hnext := DList.Represents.nextOf_eq (hxs ▸ h.represents)
        simp only [Dns.insertPlace, hsort, if_true, hts, Option.bind_eq_bind, Option.bind_some]
        rw [hfind]
        simp only [Option.bind_some]
        rw [hnext]
        rfl
      · have hle := of_decide_eq_true (hnode x true (hlast x hx))
        rwa [hnew]
      · have hlt := of_decide_eq_false (hnode x false (hmid x hx))
        rw [hnew]
        exact Int.not_le.mp hlt

/-- The timestamps are the same if those of the entry that is changed are. -/
theorem Cache.nodeTs_update (hfind : t.find = Function.update s.find k (some d))
    (hc : s.find k = some c) (hts : d.tsOf = c.tsOf) : t.nodeTs = s.nodeTs := by
  funext x
  rw [Cache.nodeTs, Cache.nodeTs, lentTs_eq, lentTs_eq, hfind]
  by_cases hk : x.2.cent = k
  · rw [hk, Function.update_self, hc, Option.bind_some, Option.bind_some, hts]
  · rw [Function.update_of_ne hk]

theorem Cent.tsOf_setLent (c : Cent) (o : Option Slot) (a : Addr) :
    (c.setLent o a).tsOf = c.tsOf := by
  obtain ⟨qname, cs, numRrs, dflags, arm, cNs, cSoa⟩ := c
  funext o'
  cases o with
  | none =>
      cases arm with
      | neg => cases o' <;> rfl
      | rr => rfl
  | some i =>
      cases o' with
      | none => cases arm <;> rfl
      | some j =>
          simp only [tsOf, setLent, rrset_modifyRrset]
          by_cases hji : j = i
          · subst hji
            rw [Function.update_self]
            cases Cent.rrset ⟨qname, cs, numRrs, dflags, arm, cNs, cSoa⟩ j <;> rfl
          · rw [Function.update_of_ne hji]

theorem Cent.lentOf_setLent {o : Option Slot} (h : c.has o = true) (a : Addr) :
    (c.setLent o a).lentOf = Function.update c.lentOf o (some a) := by
  funext o'
  cases o with
  | none =>
      obtain ⟨qname, cs, numRrs, dflags, arm, cNs, cSoa⟩ := c
      cases arm with
      | neg => cases o' <;> rfl
      | rr => cases h
  | some i =>
      obtain ⟨r, hr⟩ := Option.isSome_iff_exists.mp h
      cases o' with
      | none =>
          obtain ⟨qname, cs, numRrs, dflags, arm, cNs, cSoa⟩ := c
          cases arm <;> rfl
      | some j =>
          rw [lentOf_some, setLent, rrset_modifyRrset]
          by_cases hji : j = i
          · subst hji
            simp [hr]
          · rw [Function.update_of_ne hji, Function.update_of_ne (by simpa using hji), lentOf_some]

theorem copyCent_setLent (c : Cent) (o : Option Slot) (a : Addr) :
    copyCent (c.setLent o a) = copyCent c := by
  obtain ⟨qname, cs, numRrs, dflags, arm, cNs, cSoa⟩ := c
  cases o with
  | none => cases arm <;> rfl
  | some i =>
      cases arm with
      | neg => rfl
      | rr b =>
          simp only [Cent.setLent, Cent.modifyRrset, copyCent, RrArray.modifyAll, RrArray.modify,
            Cent.mk.injEq, Arm.rr.injEq, RrArray.mk.injEq, true_and, and_true]
          funext j
          by_cases hji : j = i
          · subst hji
            cases b.slots j <;> simp
          · rw [Function.update_of_ne hji]

theorem Cent.Ok.of_copy {pend pend' : Option Slot → Prop} {d : Cent} (h : c.Ok sz E k pend)
    (hcopy : copyCent d = copyCent c)
    (hlinked : ∀ o, (d.lentOf o).isSome ↔ c.listed o = true ∧ ¬pend' o) :
    d.Ok sz E k pend' := by
  refine ⟨?_, ?_, ?_⟩
  · rw [← (copyCent_frame d).1, hcopy, (copyCent_frame c).1]
    exact h.name
  · rw [← surplus_copyCent, hcopy, surplus_copyCent]
    exact h.surplus
  · rwa [← listed_copyCent d, hcopy, listed_copyCent]

theorem Cent.listed_eq (c : Cent) (o : Option Slot) : c.listed o = (c.has o && !c.localAt o) := by
  cases o with
  | none => simp [listed, has, localAt]
  | some i =>
      simp only [listed, has, localAt]
      cases c.rrset i <;> simp

/-- A place that is not on the list is put on it, if it belongs there. -/
theorem Inv.insertRrl (h : Inv sz E s xs P) (le : Lent) (hc : s.find le.cent = some c)
    (hhas : c.has le.idx = true) (hlent : c.lentOf le.idx = none) :
    ∃ t ys d, insertRrl s le = some t ∧ Inv sz E t ys (P \ {le}) ∧ Touches s t le.cent d ∧
      t.cacheSize = s.cacheSize ∧ copyCent d = copyCent c ∧ (s.OldestFirst → t.OldestFirst) := by
  obtain ⟨k, o⟩ := le
  have hok := h.ok k c hc
  have hlisted : c.listed o = !c.localAt o := by rw [Cent.listed_eq, hhas, Bool.true_and]
  have hQ : ∀ le : Lent, le.cent ≠ k → (le ∈ P \ {⟨k, o⟩} ↔ le ∈ P) := by
    intro le hle
    simp only [Set.mem_sdiff, Set.mem_singleton_iff, and_iff_left_iff_imp]
    rintro - rfl
    exact hle rfl
  -- a place other than this one is pending if it was
  have hpend : ∀ o', o' ≠ o → ((⟨k, o'⟩ : Lent) ∈ P \ {⟨k, o⟩} ↔ ⟨k, o'⟩ ∈ P) := by
    intro o' ho'
    simp [ho']
  cases hlocal : c.localAt o with
  | true =>
      refine ⟨s, xs, c, by simp [Dns.insertRrl, hc, hlocal], ?_, Touches.refl hc, rfl, rfl, id⟩
      refine h.update (Touches.refl hc).find (h.owns hc) (SameElse.refl k xs) ?_ hQ
      rintro d ⟨⟩
      refine ⟨hok.name, hok.surplus, fun o' => ?_⟩
      by_cases ho' : o' = o
      · subst ho'
        simp [hlent, hlisted, hlocal]
      · rw [hok.linked o', hpend o' ho']
  | false =>
      obtain ⟨pre, post, hxs, hplace, horder⟩ := h.insertPlace hc hhas
      have hfresh := s.rrl.fresh_node
      obtain ⟨l, hl, hrep⟩ := (hxs ▸ h.represents).insertBetween hfresh ⟨k, o⟩
      have hmem : ∀ x, x ∈ pre ++ (s.rrl.fresh, (⟨k, o⟩ : Lent)) :: post ↔
          x = (s.rrl.fresh, ⟨k, o⟩) ∨ x ∈ xs := by
        intro x
        rw [hxs, List.mem_append, List.mem_cons, List.mem_append]
        tauto
      refine ⟨{ s with rrl := l }.put k (c.setLent o s.rrl.fresh),
        pre ++ (s.rrl.fresh, ⟨k, o⟩) :: post, c.setLent o s.rrl.fresh, ?_, ?_,
        Touches.of_insert rfl rfl rfl, rfl, copyCent_setLent c o _, fun hold hsort => ?_⟩
      · simp [Dns.insertRrl, hc, hlocal, hplace, hl]
      · refine h.update (Cache.find_put _ _ _) ⟨hrep, fun a o' => ?_⟩ ?_ ?_ hQ
        · rw [hmem, (h.owns hc).mem_iff]
          simp only [Option.bind_some, Cent.lentOf_setLent hhas]
          by_cases ho' : o' = o
          · subst ho'
            simp [hlent, eq_comm]
          · simp [ho']
        · intro a le hle
          rw [hmem]
          simp only [or_iff_right_iff_imp]
          rintro ⟨⟩
          exact absurd rfl hle
        · rintro d ⟨⟩
          refine hok.of_copy (copyCent_setLent c o _) fun o' => ?_
          rw [Cent.lentOf_setLent hhas]
          by_cases ho' : o' = o
          · subst ho'
            simp [hlisted, hlocal]
          · rw [Function.update_of_ne ho', hok.linked o', hpend o' ho']
      · have hts := Cache.nodeTs_update (t := { s with rrl := l }.put k (c.setLent o s.rrl.fresh))
          (Cache.find_put _ _ _) hc (Cent.tsOf_setLent c o _)
        have hsorted := hold hsort
        rw [h.represents.toList_eq, hxs] at hsorted
        obtain ⟨hpre, hpost⟩ := horder hsort s.rrl.fresh
        change (DList.toList l).Pairwise _
        rw [hts, hrep.toList_eq]
        exact pairwise_insert hsorted hpre hpost

/-- The list shrank, and the timestamps of the places that still have a node are the
same. -/
theorem Inv.keeps_of_shrinks {Q : Set Lent} (hs : Inv sz E s xs P) (ht : Inv sz E t ys Q)
    (hsort : t.insertSort = s.insertSort) (hshrinks : Shrinks s.rrl t.rrl)
    (hts : ∀ k o d, t.find k = some d → (d.lentOf o).isSome →
      lentTs t ⟨k, o⟩ = lentTs s ⟨k, o⟩) : s.Keeps t := by
  obtain ⟨zs, hzs, hsub⟩ := hshrinks xs hs.represents
  have heq : zs = ys := hzs.toList_eq.symm.trans ht.represents.toList_eq
  subst heq
  refine ⟨hsort, ?_, ?_⟩
  · rw [ht.represents.toList_eq, hs.represents.toList_eq]
    exact hsub
  · rw [ht.represents.toList_eq]
    rintro ⟨a, k, o⟩ hx
    obtain ⟨d, hd, hlent⟩ := (ht.mem_iff a ⟨k, o⟩).mp hx
    rw [Cache.nodeTs, Cache.nodeTs, hts k o d hd (by rw [hlent]; rfl)]

theorem Inv.keeps_of_touches {Q : Set Lent} {d : Cent} (hs : Inv sz E s xs P)
    (ht : Inv sz E t ys Q) (htouch : Touches s t k d) (hc : s.find k = some c)
    (hshrinks : Shrinks s.rrl t.rrl)
    (hts : ∀ o, (d.lentOf o).isSome → d.tsOf o = c.tsOf o) : s.Keeps t := by
  refine hs.keeps_of_shrinks ht htouch.insertSort hshrinks fun k' o e he hlent => ?_
  rw [lentTs_eq, lentTs_eq]
  by_cases hk : k' = k
  · subst hk
    cases htouch.find_self.symm.trans he
    rw [htouch.find_self, hc]
    exact hts o hlent
  · rw [htouch.find_ne hk]

theorem Inv.keeps_of_erase {Q : Set Lent} (hs : Inv sz E s xs P) (ht : Inv sz E t ys Q)
    (hsort : t.insertSort = s.insertSort) (hshrinks : Shrinks s.rrl t.rrl)
    (hfind : t.find = Function.update s.find k none) : s.Keeps t := by
  refine hs.keeps_of_shrinks ht hsort hshrinks fun k' o d hd _ => ?_
  have hk : k' ≠ k := by
    rintro rfl
    rw [hfind, Function.update_self] at hd
    cases hd
  rw [lentTs_eq, lentTs_eq, hfind, Function.update_of_ne hk]

end Operations

end Invariant

end TorAndroid.Dns
