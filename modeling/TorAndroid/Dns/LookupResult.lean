import TorAndroid.Dns.PurgeDryRun

namespace TorAndroid.Dns.Counted

open TorAndroid.Lib.LinkedCells TorAndroid.Lib.DoublyLinked TorAndroid.Lib.GuardedRun

/-- What `*wild` says of an entry: it is the one of the name itself, that of a wildcard
(`w_wild`), or that of an enclosing domain (`w_neg`, `w_locnerr`). -/
inductive WildCode where
  | exact
  | wild
  | neg
  | locnerr
deriving DecidableEq, Repr

/-- The name of the wildcard entry of a domain. -/
def wildcard (domain : Name) : Key :=
  [42] :: domain.fold

/-- What the entry of an enclosing domain stands for. -/
def wildEntry (s : Cache) (domain : Name) (c : Cent) : Option (Cent × WildCode) :=
  if c.negative then some (c, .neg)
  else if c.flags.wild then (s.find (wildcard domain)).map fun e => (e, .wild)
  else if c.flags.isLocal then some (c, .locnerr)
  else none

/-- The search up the name hierarchy, which ends at the first entry. -/
def searchUp (s : Cache) : List Name → Option (Cent × WildCode)
  | [] => none
  | domain :: domains =>
      match s.find domain.fold with
      | some c => wildEntry s domain c
      | none => searchUp s domains

/-- The enclosing domains of a name other than the root, the nearest first. -/
def enclosing (name : Name) : List Name :=
  ((List.range name.labels.length).reverse.filter fun k => 0 < k).map name.suffix

/-- The entry that `lookup_cache` finds. -/
def lookupFound (s : Cache) (name : Name) (wild : Bool) : Option (Cent × WildCode) :=
  match s.find name.fold with
  | some c => some (c, .exact)
  | none => if wild then searchUp s (enclosing name) else none

/-- `lookup_cache`, with the copy of the entry that is handed out and `*wild`. -/
def lookupCache (cfg : CacheConfig) (now : Int) (s : Cache) (name : Name) (wild : Bool) :
    Option (Cache × Option (Cent × WildCode)) :=
  match lookupFound s name wild with
  | none => some (s, none)
  | some (c, w) => do
      let (s, purge) ← purgeCent cfg now true true s c.qname.fold
      if purge = 0 then some (s, some (copyCent c, w))
      else
        -- the search is made once more under the write lock
        match lookupFound s name wild with
        | none => some (s, none)
        | some (c, w) =>
            let (s, n) ← purgeCent cfg now true false s c.qname.fold
            if n < 0 then some (s, none)
            else
              let c ← s.find c.qname.fold
              some (s, some (copyCent c, w))

/-- Purge every entry. -/
def purgeAll (cfg : CacheConfig) (now : Int) (s : Cache) : Option Cache :=
  s.table.keys.foldlM (fun s k => (purgeCent cfg now true false s k).map Prod.fst) s

section Found

variable {s : Cache} {name : Name} {c : Cent} {w : WildCode}

theorem searchUp_entry (s : Cache) (name : Name) (ks : List Nat) :
    (searchUp s (ks.map name.suffix)).map Prod.fst =
      match ks.findSome? fun k => (s.find (name.suffix k).fold).map fun c => (k, c) with
      | none => none
      | some (k, c) =>
          if c.negative then some c
          else if c.flags.wild then s.find ([42] :: (name.suffix k).fold)
          else if c.flags.isLocal then some c
          else none := by
  induction ks with
  | nil => rfl
  | cons k ks ih =>
      rw [List.map_cons, searchUp, List.findSome?_cons]
      cases hc : s.find (name.suffix k).fold with
      | none => simpa [hc] using ih
      | some c =>
          simp only [Option.map_some, wildEntry, wildcard]
          split_ifs
          · rfl
          · cases s.find ([42] :: (name.suffix k).fold) <;> rfl
          · rfl
          · rfl

theorem lookupFound_entry (s : Cache) (name : Name) (wild : Bool) :
    (lookupFound s name wild).map Prod.fst = lookupEntry s name wild := by
  rw [lookupFound, lookupEntry]
  cases s.find name.fold with
  | some c => rfl
  | none =>
      cases wild with
      | false => rfl
      | true => exact searchUp_entry s name _

theorem find_of_searchUp {domains : List Name} (h : searchUp s domains = some (c, w)) :
    ∃ k, s.find k = some c := by
  induction domains with
  | nil => cases h
  | cons domain domains ih =>
      rw [searchUp] at h
      cases hd : s.find domain.fold with
      | none =>
          rw [hd] at h
          exact ih h
      | some d =>
          simp only [hd, wildEntry] at h
          split_ifs at h
          · cases h
            exact ⟨_, hd⟩
          · obtain ⟨e, he, heq⟩ := Option.map_eq_some_iff.mp h
            cases heq
            exact ⟨_, he⟩
          · cases h
            exact ⟨_, hd⟩

theorem find_of_lookupFound {wild : Bool} (h : lookupFound s name wild = some (c, w)) :
    ∃ k, s.find k = some c := by
  rw [lookupFound] at h
  cases hc : s.find name.fold with
  | some d =>
      simp only [hc] at h
      cases h
      exact ⟨_, hc⟩
  | none =>
      simp only [hc] at h
      split_ifs at h
      exact find_of_searchUp h

end Found

/-- What of an entry can be seen in a copy. -/
def view (c : Cent) : Content × DFlags :=
  (c.content, c.flags)

/-- Whether the purge drops an entry: no record set stays, and it is not needed. -/
def gone (now : Int) (c : Cent) : Bool :=
  ((List.finRange _).all fun i => (leave now (c.rrset i)).isNone) && c.needless now

/-- What can be seen of an entry after the purge. -/
def purgedView (now : Int) (s : Cache) (c : Cent) : Content × DFlags :=
  (⟨c.qname, c.negTimes,
    if c.flags.isLocal then c.cNs else refreshRef now s c c.cNs slotNS,
    if c.flags.isLocal then c.cSoa else refreshRef now s c c.cSoa slotSOA,
    fun i => (leave now (c.rrset i)).map RrSet.bare⟩, clearAuth now c (List.finRange _))

section Outcome

variable {cfg : CacheConfig} {E : Int × Int → Prop} {now : Int} {s t : Cache} {k : Key} {c : Cent}

theorem gone_iff : gone now c = true ↔ (allCount now c).2 = 0 ∧ c.needless now = true := by
  simp [gone, allCount, tallyAll, tally_eq, List.countP_eq_zero]

theorem predicted_neg_iff : predicted now true s c < 0 ↔ gone now c = true := by
  rw [gone_iff, predicted]
  simp only [Bool.true_and, Bool.and_eq_true, beq_iff_eq]
  split_ifs with hgone
  · exact iff_of_true (by decide) hgone
  · exact iff_of_false (by omega) hgone
  · exact iff_of_false (by omega) hgone

theorem view_copyCent (c : Cent) : view (copyCent c) = view c := by
  obtain ⟨qname, cs, numRrs, dflags, arm, cNs, cSoa⟩ := c
  cases arm with
  | neg => rfl
  | rr a =>
      simp only [view, Cent.content, Cent.rrset_copyCent, Option.map_map]
      rfl

theorem view_purged {e : Cent} (h : Purged now s t c e) : view e = purgedView now s c := by
  simp only [view, Cent.content, purgedView, h.name, h.negTimes, h.cNs, h.cSoa, h.flags, h.rrset]

/-- Nothing changes if the dry run returns 0. -/
theorem view_of_predicted (h : predicted now true s c = 0) : view c = purgedView now s c := by
  have hrv : (tallyAll now c).rv = 0 ∧ (c.flags.isLocal = false → staleCount now s c = 0) := by
    rw [predicted, allCount] at h
    split_ifs at h <;> simp_all <;> omega
  have hnot : ∀ i, ¬(c.rrset i).any (RrSet.purgeable now) := by
    have hzero := hrv.1
    simp only [tallyAll, tally_eq, Nat.zero_add, List.countP_eq_zero] at hzero
    exact fun i => hzero i (List.mem_finRange i)
  have hflags : clearAuth now c (List.finRange _) = c.flags := by
    rw [clearAuth, if_neg]
    rw [List.any_eq_true]
    rintro ⟨i, -, hi⟩
    exact hnot i hi
  simp only [view, Cent.content, purgedView, hflags, leave_of_not_purgeable (hnot _)]
  cases hlocal : c.flags.isLocal with
  | true => rfl
  | false =>
      obtain ⟨hns, hsoa⟩ := staleCount_eq_zero_iff.mp (hrv.2 hlocal)
      rw [hns, hsoa]
      rfl

/-- What is handed out of an entry that was found. -/
def handOut (now : Int) (s : Cache) (x : Cent × WildCode) :
    Option ((Content × DFlags) × WildCode) :=
  if gone now x.1 then none else some (purgedView now s x.1, x.2)

theorem purgeCent_good (h : Good cfg E s) (hc : s.find k = some c) (now : Int) :
    ∃ t x, purgeCent cfg now true false s k = some (t, x) ∧ Good cfg E t := by
  obtain ⟨xs, hinv, hsized, hsort⟩ := h
  obtain ⟨t, ys, b, ht, hpurged, -⟩ :=
    purgeCent_spec (p := fun _ => True) (q := fun _ _ => True) hinv
    hsized hc (fun r (_ : r.purgeable now = true) => trivial) (fun _ _ _ => trivial) true
  rw [← purgeCent_uncounted, Option.map_eq_some_iff] at ht
  obtain ⟨⟨t', x⟩, ht, heq⟩ := ht
  obtain rfl : t' = t := congrArg Prod.fst heq
  exact ⟨t', x, ht, ys, hpurged.inv, hpurged.sized, hpurged.insertSort.trans hsort⟩

theorem name_of_good (h : Good cfg E s) (hc : s.find k = some c) : c.qname.fold = k := by
  obtain ⟨xs, hinv, -⟩ := h
  exact (hinv.ok k c hc).name

/-- `lookup_cache` hands out the purged entry, if the purge leaves it. -/
theorem lookupCache_eq (h : Good cfg E s) (now : Int) (name : Name) (wild : Bool) :
    ∃ t r, lookupCache cfg now s name wild = some (t, r) ∧
      r.map (fun x => (view x.1, x.2)) = (lookupFound s name wild).bind (handOut now s) := by
  rw [lookupCache]
  cases hfound : lookupFound s name wild with
  | none => exact ⟨s, none, rfl, rfl⟩
  | some x =>
      obtain ⟨c, w⟩ := x
      obtain ⟨k, hc⟩ := find_of_lookupFound hfound
      have hk := name_of_good h hc
      subst hk
      have hneg : predicted now true s c < 0 ↔ gone now c = true := predicted_neg_iff
      simp only [purgeCent_dry hc, Option.bind_eq_bind, Option.bind_some, hfound, handOut]
      split_ifs with hzero hgone hgone
      · have := hneg.mpr hgone
        omega
      · refine ⟨s, _, rfl, ?_⟩
        rw [Option.map_some, view_copyCent, view_of_predicted hzero]
      · obtain ⟨t, n, ht, -⟩ := purgeCent_good h hc now
        obtain ⟨rfl, -, hdropped⟩ := purgeCent_real hc rfl ht
        rw [ht, Option.bind_some, if_pos (hneg.mpr hgone)]
        exact ⟨t, none, rfl, rfl⟩
      · obtain ⟨t, n, ht, -⟩ := purgeCent_good h hc now
        obtain ⟨rfl, hpurged, -⟩ := purgeCent_real hc rfl ht
        have hstay : ¬predicted now true s c < 0 := fun hlt => hgone (hneg.mp hlt)
        obtain ⟨e, he⟩ := hpurged (Int.not_lt.mp hstay)
        have hfind : t.find c.qname.fold = some e := by rw [he.find, Function.update_self]
        rw [ht, Option.bind_some, if_neg hstay, hfind, Option.bind_some]
        refine ⟨t, _, rfl, ?_⟩
        rw [Option.map_some, view_copyCent, view_purged he]

/-- What the lookup does to the cache is what the cache's `lookup_cache` does. -/
theorem lookupCache_state (h : Good cfg E s) (name : Name) (wild : Bool) :
    (lookupCache cfg now s name wild).map Prod.fst = Dns.lookupCache cfg now s name wild := by
  rw [lookupCache, Dns.lookupCache, ← lookupFound_entry]
  cases hfound : lookupFound s name wild with
  | none => rfl
  | some x =>
      obtain ⟨c, w⟩ := x
      obtain ⟨k, hc⟩ := find_of_lookupFound hfound
      have hk := name_of_good h hc
      subst hk
      simp only [purgeCent_dry hc, Option.map_some, Option.bind_eq_bind, Option.bind_some,
        purgeTest_iff, hfound]
      by_cases hzero : predicted now true s c = 0
      · rw [if_pos hzero, if_neg (not_not.mpr hzero), Option.map_some]
      · obtain ⟨t, n, ht, -⟩ := purgeCent_good h hc now
        obtain ⟨rfl, hpurged, -⟩ := purgeCent_real hc rfl ht
        rw [if_neg hzero, if_pos hzero, ← purgeCent_uncounted, ht, Option.bind_some]
        split_ifs with hneg
        · rfl
        · obtain ⟨e, he⟩ := hpurged (Int.not_lt.mp hneg)
          have hfind : t.find c.qname.fold = some e := by rw [he.find, Function.update_self]
          rw [hfind]
          rfl

end Outcome

end TorAndroid.Dns.Counted
