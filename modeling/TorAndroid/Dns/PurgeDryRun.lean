import TorAndroid.Dns.CacheTidy
import TorAndroid.Dns.DiskCache

namespace TorAndroid.Dns.Counted

open TorAndroid.Lib.LinkedCells TorAndroid.Lib.DoublyLinked TorAndroid.Lib.GuardedRun

/-- The counters of the loop of `purge_all_rrsets`. -/
@[ext]
structure Tally where
  rv : Nat
  numrrs : Nat
  numrrext : Nat
deriving DecidableEq, Repr

/-- What one record set adds to the counters. -/
def Tally.count (now : Int) (n : Tally) (i : Slot) : Option RrSet → Tally
  | none => n
  | some r =>
      if r.purgeable now then { n with rv := n.rv + 1 }
      else { n with
        numrrs := n.numrrs + 1
        numrrext := if nrrmu ≤ i.val then n.numrrext + 1 else n.numrrext }

variable (cfg : CacheConfig)

/-- One turn of the loop of `purge_all_rrsets`. -/
def purgeStep (now : Int) (test : Bool) (k : Key) (acc : Cache × Tally) (i : Slot) :
    Option (Cache × Tally) := do
  let (s, n) := acc
  let c ← s.find k
  let s ← if !test && (c.rrset i).any (RrSet.purgeable now) then delSlot cfg s k c i else some s
  some (s, n.count now i (c.rrset i))

/-- `purge_all_rrsets`, with the number of items deleted and the number of record sets
that remain. -/
def purgeAllRrsets (now : Int) (test : Bool) (s : Cache) (k : Key) :
    Option (Cache × Nat × Nat) := do
  let (s, n) ← (List.finRange _).foldlM (purgeStep cfg now test k) (s, ⟨0, 0, 0⟩)
  let c ← s.find k
  if c.ext && n.numrrext == 0 then
    let s := if test then s
      else { s with cacheSize := s.cacheSize - cfg.sizes.pointer * nrrext }.put k
        (c.freeExt cfg.sizes)
    some (s, n.rv + 1, n.numrrs)
  else some (s, n.rv, n.numrrs)

/-- A reference as it is left, and whether it was stale. -/
def checkRef (now : Int) (test : Bool) (s : Cache) (c : Cent) (ref : UInt8)
    (i : Slot) : UInt8 × Nat :=
  if ref ≠ cundef ∧ staleRef now s c ref i then (if test then ref else cundef, 1) else (ref, 0)

def purgeCent (now : Int) (delete test : Bool) (s : Cache) (k : Key) : Option (Cache × Int) := do
  let (s, npurge, numrrs) ← purgeAllRrsets cfg now test s k
  let c ← s.find k
  if delete && numrrs == 0 && c.needless now then
    let s ← if test then some s else delCacheEnt cfg s c.qname.fold c
    some (s, -1)
  else if c.flags.isLocal then some (s, npurge)
  else
    let ns := checkRef now test s c c.cNs slotNS
    let c₁ := { c with cNs := ns.1 }
    let soa := checkRef now test (if test then s else s.put k c₁) c₁ c₁.cSoa slotSOA
    let c₂ := { c₁ with cSoa := soa.1 }
    some (if test then s else s.put k c₂, npurge + ns.2 + soa.2)

section Uncounted

variable {cfg} {now : Int} {k : Key}

theorem purgeStep_uncounted (s : Cache) (n : Tally) (i : Slot) :
    (purgeStep cfg now false k (s, n) i).map (fun x => (x.1, x.2.numrrs, x.2.numrrext)) =
      Dns.purgeStep cfg now k (s, n.numrrs, n.numrrext) i := by
  rw [purgeStep, Dns.purgeStep]
  cases hc : s.find k with
  | none => simp
  | some c =>
      cases hr : c.rrset i with
      | none => simp [hr, Tally.count]
      | some r =>
          by_cases hpurge : r.purgeable now
          · cases hdel : delSlot cfg s k c i <;> simp [hr, hpurge, hdel, Tally.count]
          · simp [hr, hpurge, Tally.count]

theorem foldlM_purgeStep_uncounted (is : List Slot) (s : Cache) (n : Tally) :
    (is.foldlM (purgeStep cfg now false k) (s, n)).map
        (fun x => (x.1, x.2.numrrs, x.2.numrrext)) =
      is.foldlM (Dns.purgeStep cfg now k) (s, n.numrrs, n.numrrext) := by
  induction is generalizing s n with
  | nil => rfl
  | cons i is ih =>
      rw [List.foldlM_cons, List.foldlM_cons, ← purgeStep_uncounted]
      cases hstep : purgeStep cfg now false k (s, n) i with
      | none => rfl
      | some x => exact ih x.1 x.2

theorem purgeAllRrsets_uncounted (s : Cache) :
    (purgeAllRrsets cfg now false s k).map (fun x => (x.1, x.2.2)) =
      Dns.purgeAllRrsets cfg now s k := by
  have hloop : _ = (List.finRange _).foldlM (Dns.purgeStep cfg now k) (s, 0, 0) :=
    foldlM_purgeStep_uncounted (List.finRange _) s ⟨0, 0, 0⟩
  rw [purgeAllRrsets, Dns.purgeAllRrsets, ← hloop]
  cases (List.finRange _).foldlM (purgeStep cfg now false k) (s, ⟨0, 0, 0⟩) with
  | none => rfl
  | some x =>
      obtain ⟨t, n⟩ := x
      cases hd : t.find k with
      | none => simp [hd]
      | some d =>
          simp only [Option.map_some, Option.bind_eq_bind, Option.bind_some, hd,
            Bool.false_eq_true, if_false]
          split_ifs <;> rfl

theorem checkRef_real (s : Cache) (c : Cent) (ref : UInt8) (i : Slot) :
    (checkRef now false s c ref i).1 = refreshRef now s c ref i := by
  simp only [checkRef, refreshRef, Bool.false_eq_true, if_false]
  split_ifs <;> rfl

/-- The purge of the cache is the counted one, where the entry is gone when `-1` is
returned. -/
theorem purgeCent_uncounted (delete : Bool) (s : Cache) :
    (purgeCent cfg now delete false s k).map (fun x => (x.1, decide (x.2 = -1))) =
      Dns.purgeCent cfg now delete s k := by
  rw [purgeCent, Dns.purgeCent, ← purgeAllRrsets_uncounted]
  cases purgeAllRrsets cfg now false s k with
  | none => rfl
  | some x =>
      obtain ⟨t, n, numrrs⟩ := x
      cases hd : t.find k with
      | none => simp [hd]
      | some d =>
          simp only [Option.map_some, Option.bind_eq_bind, Option.bind_some, hd,
            Bool.false_eq_true, if_false, checkRef_real]
          split_ifs
          · cases delCacheEnt cfg t d.qname.fold d <;> rfl
          · simp only [Option.map_some, Option.some.injEq, Prod.mk.injEq, true_and,
              decide_eq_false_iff_not]
            omega
          · simp only [Option.map_some, Option.some.injEq, Prod.mk.injEq, true_and,
              decide_eq_false_iff_not]
            omega

end Uncounted

/-- An entry with other record sets. -/
structure Resets (c d : Cent) : Prop where
  name : d.qname = c.qname
  isLocal : d.flags.isLocal = c.flags.isLocal
  negTimes : d.negTimes = c.negTimes
  needless : ∀ now, d.needless now = c.needless now
  refs : (d.cNs, d.cSoa) = (c.cNs, c.cSoa)

section Resets

variable {c d e : Cent}

theorem Resets.refl (c : Cent) : Resets c c :=
  ⟨rfl, rfl, rfl, fun _ => rfl, rfl⟩

theorem Resets.trans (h₁ : Resets c d) (h₂ : Resets d e) : Resets c e :=
  ⟨h₂.name.trans h₁.name, h₂.isLocal.trans h₁.isLocal, h₂.negTimes.trans h₁.negTimes,
    fun now => (h₂.needless now).trans (h₁.needless now), h₂.refs.trans h₁.refs⟩

theorem resets_withoutRrset (c : Cent) (sz : Sizes) (i : Slot) :
    Resets c (c.withoutRrset sz i) := by
  obtain ⟨qname, cs, numRrs, dflags, arm, cNs, cSoa⟩ := c
  cases arm with
  | neg => exact Resets.refl _
  | rr a =>
      rw [Cent.withoutRrset]
      cases h : a.slots i with
      | none => simpa only [h] using Resets.refl _
      | some r =>
          simp only [h]
          exact ⟨rfl, rfl, rfl, fun _ => rfl, rfl⟩

theorem flags_withoutRrset {sz : Sizes} {i : Slot} (h : (c.rrset i).isSome) :
    (c.withoutRrset sz i).flags = { c.flags with auth := false } := by
  obtain ⟨qname, cs, numRrs, dflags, arm, cNs, cSoa⟩ := c
  cases arm with
  | neg => cases h
  | rr a =>
      obtain ⟨r, hr⟩ := Option.isSome_iff_exists.mp h
      change a.slots i = some r at hr
      simp only [Cent.withoutRrset, hr]

theorem resets_freeExt (c : Cent) (sz : Sizes) : Resets c (c.freeExt sz) := by
  obtain ⟨qname, cs, numRrs, dflags, arm, cNs, cSoa⟩ := c
  cases arm <;> exact ⟨rfl, rfl, rfl, fun _ => rfl, rfl⟩

theorem ext_freeExt (c : Cent) (sz : Sizes) : (c.freeExt sz).ext = false := by
  obtain ⟨qname, cs, numRrs, dflags, arm, cNs, cSoa⟩ := c
  cases arm <;> rfl

end Resets

section Effects

variable {cfg : CacheConfig} {now : Int} {s t : Cache} {k : Key} {c d : Cent} {n m : Tally}

/-- The record set that a purge leaves at an index. -/
def leave (now : Int) (r : Option RrSet) : Option RrSet :=
  r.filter fun r => !r.purgeable now

theorem leave_of_purgeable {r : Option RrSet} (h : r.any (RrSet.purgeable now)) :
    leave now r = none := by
  cases r with
  | none => rfl
  | some r => simpa [leave] using h

theorem leave_of_not_purgeable {r : Option RrSet} (h : ¬r.any (RrSet.purgeable now)) :
    leave now r = r := by
  cases r with
  | none => rfl
  | some r => simpa [leave, Option.filter] using h

/-- The flags of an entry after some of its record sets were purged. -/
def clearAuth (now : Int) (c : Cent) (is : List Slot) : DFlags :=
  if is.any fun i => (c.rrset i).any (RrSet.purgeable now) then { c.flags with auth := false }
  else c.flags

/-- The counters after the loop over some of the record sets. -/
def tally (now : Int) (f : Slot → Option RrSet) (n : Tally) (is : List Slot) : Tally :=
  is.foldl (fun n i => n.count now i (f i)) n

theorem find_delSlot {i : Slot} (h : delSlot cfg s k c i = some t) :
    t.find = Function.update s.find k (some (c.withoutRrset cfg.sizes i)) := by
  rw [delSlot, delCentRrsetByIndex_eq] at h
  cases hl : removeRrl s.rrl (c.lentOf (some i)) with
  | none =>
      rw [hl] at h
      cases h
  | some l =>
      simp only [hl, Option.map_some, Option.bind_eq_bind, Option.bind_some, Option.some.injEq] at h
      rw [← h]
      exact Cache.find_put _ _ _

theorem find_delCacheEnt (h : delCacheEnt cfg s k c = some t) :
    t.find = Function.update s.find k none := by
  rw [delCacheEnt] at h
  cases hl : freeCent cfg.sizes s.rrl c with
  | none => simp [hl] at h
  | some l =>
      simp only [hl, Option.bind_eq_bind, Option.bind_some, Option.some.injEq] at h
      rw [← h]
      exact Cache.find_of_erase rfl

theorem foldlM_dry (hc : s.find k = some c) (is : List Slot) :
    is.foldlM (purgeStep cfg now true k) (s, n) = some (s, tally now c.rrset n is) := by
  induction is generalizing n with
  | nil => rfl
  | cons i is ih =>
      simp only [List.foldlM_cons, purgeStep, hc, Bool.not_true, Bool.false_and,
        Bool.false_eq_true, if_false, Option.bind_eq_bind, Option.bind_some]
      exact ih

/-- The loop removes the record sets that can be purged, and its counters are those of
the dry run: a turn sees only record sets that no turn before it has touched. -/
theorem foldlM_real (hc : s.find k = some c) {is : List Slot} (hnodup : is.Nodup)
    (h : is.foldlM (purgeStep cfg now false k) (s, n) = some (t, m)) :
    ∃ d, t.find = Function.update s.find k (some d) ∧ Resets c d ∧ d.ext = c.ext ∧
      d.flags = clearAuth now c is ∧
      (∀ i, d.rrset i = if i ∈ is then leave now (c.rrset i) else c.rrset i) ∧
      m = tally now c.rrset n is := by
  induction is generalizing s c n with
  | nil =>
      cases h
      refine ⟨c, ?_, Resets.refl c, rfl, rfl, by simp, rfl⟩
      rw [← hc, Function.update_eq_self]
  | cons i is ih =>
      rw [List.nodup_cons] at hnodup
      rw [List.foldlM_cons, purgeStep] at h
      simp only [hc, Bool.not_false, Bool.true_and, Option.bind_eq_bind, Option.bind_some] at h
      by_cases hpurge : (c.rrset i).any (RrSet.purgeable now)
      · rw [if_pos hpurge] at h
        cases hdel : delSlot cfg s k c i with
        | none => simp [hdel] at h
        | some s₁ =>
            rw [hdel] at h
            have hfind := find_delSlot hdel
            have hc₁ : s₁.find k = some (c.withoutRrset cfg.sizes i) := by
              rw [hfind, Function.update_self]
            obtain ⟨d, htfind, hresets, hext, hflags, hrrset, hm⟩ := ih hc₁ hnodup.2 h
            have hother : ∀ j ∈ is, (c.withoutRrset cfg.sizes i).rrset j = c.rrset j := by
              intro j hj
              rw [Cent.rrset_withoutRrset, Function.update_of_ne]
              rintro rfl
              exact hnodup.1 hj
            refine ⟨d, ?_, (resets_withoutRrset c cfg.sizes i).trans hresets,
              hext.trans Cent.ext_withoutRrset, ?_, fun j => ?_, ?_⟩
            · rw [htfind, hfind, Function.update_idem]
            · have hsome : (c.rrset i).isSome := by
                obtain ⟨r, hr, -⟩ := (Option.any_eq_true ..).mp hpurge
                rw [hr]
                rfl
              rw [hflags, clearAuth, clearAuth, flags_withoutRrset hsome, List.any_cons, hpurge]
              simp
            · rw [hrrset j]
              by_cases hj : j ∈ is
              · rw [if_pos hj, if_pos (List.mem_cons_of_mem i hj), hother j hj]
              · rw [if_neg hj, Cent.rrset_withoutRrset]
                by_cases hji : j = i
                · subst hji
                  rw [Function.update_self, if_pos List.mem_cons_self, leave_of_purgeable hpurge]
                · rw [Function.update_of_ne hji, if_neg (by simp [hji, hj])]
            · rw [hm, tally, tally, List.foldl_cons]
              exact List.foldl_ext _ _ _ fun n j hj => by rw [hother j hj]
      · rw [if_neg hpurge] at h
        obtain ⟨d, htfind, hresets, hext, hflags, hrrset, hm⟩ := ih hc hnodup.2 h
        refine ⟨d, htfind, hresets, hext, ?_, fun j => ?_, hm⟩
        · rw [hflags, clearAuth, clearAuth, List.any_cons, Bool.eq_false_iff.mpr hpurge,
            Bool.false_or]
        rw [hrrset j]
        by_cases hj : j ∈ is
        · rw [if_pos hj, if_pos (List.mem_cons_of_mem i hj)]
        · rw [if_neg hj]
          by_cases hji : j = i
          · subst hji
            rw [if_pos List.mem_cons_self, leave_of_not_purgeable hpurge]
          · rw [if_neg (by simp [hji, hj])]

/-- The counters say how many record sets go, stay, and stay in `rrext`. -/
theorem tally_eq (f : Slot → Option RrSet) (is : List Slot) :
    tally now f n is =
      ⟨n.rv + is.countP fun i => (f i).any (RrSet.purgeable now),
        n.numrrs + is.countP fun i => (leave now (f i)).isSome,
        n.numrrext + is.countP fun i => decide (nrrmu ≤ i.val) && (leave now (f i)).isSome⟩ := by
  induction is generalizing n with
  | nil => rfl
  | cons i is ih =>
      simp only [tally, List.foldl_cons, List.countP_cons] at ih ⊢
      rw [ih]
      cases f i with
      | none => simp [Tally.count, leave]
      | some r =>
          by_cases hpurge : r.purgeable now
          · simp [Tally.count, hpurge, leave, Nat.add_assoc, Nat.add_comm 1]
          · by_cases hext : nrrmu ≤ i.val
            · simp [Tally.count, hpurge, hext, leave, Option.filter, Nat.add_assoc, Nat.add_comm 1]
            · simp [Tally.count, hpurge, hext, leave, Option.filter, Nat.add_assoc, Nat.add_comm 1]

/-- The counters of the whole loop. -/
def tallyAll (now : Int) (c : Cent) : Tally :=
  tally now c.rrset ⟨0, 0, 0⟩ (List.finRange _)

theorem leave_none_of_numrrext (h : (tallyAll now c).numrrext = 0) {i : Slot} (hi : nrrmu ≤ i.val) :
    leave now (c.rrset i) = none := by
  simp only [tallyAll, tally_eq, Nat.zero_add, List.countP_eq_zero] at h
  have := h i (List.mem_finRange i)
  simpa [hi] using this

/-- What `purge_all_rrsets` returns, and the number of record sets that remain. -/
def allCount (now : Int) (c : Cent) : Nat × Nat :=
  (if c.ext && (tallyAll now c).numrrext == 0 then (tallyAll now c).rv + 1 else (tallyAll now c).rv,
    (tallyAll now c).numrrs)

theorem purgeAllRrsets_dry (hc : s.find k = some c) :
    purgeAllRrsets cfg now true s k = some (s, allCount now c) := by
  simp only [purgeAllRrsets, foldlM_dry hc, Option.bind_eq_bind, Option.bind_some, hc, if_true]
  rw [← tallyAll, allCount]
  by_cases hfree : c.ext && (tallyAll now c).numrrext == 0
  · rw [if_pos hfree, if_pos hfree]
  · rw [if_neg hfree, if_neg hfree]

/-- The entry after `purge_all_rrsets`: no record set is left that can be purged, and the
array `rrext` only with something in it. -/
theorem purgeAllRrsets_real {x : Nat × Nat} (hc : s.find k = some c)
    (h : purgeAllRrsets cfg now false s k = some (t, x)) :
    ∃ d, t.find = Function.update s.find k (some d) ∧ Resets c d ∧
      d.flags = clearAuth now c (List.finRange _) ∧ (∀ i, d.rrset i = leave now (c.rrset i)) ∧
      d.ext = (c.ext && (tallyAll now c).numrrext != 0) ∧ x = allCount now c := by
  rw [purgeAllRrsets] at h
  cases hloop : (List.finRange _).foldlM (purgeStep cfg now false k) (s, ⟨0, 0, 0⟩) with
  | none => simp [hloop] at h
  | some y =>
      obtain ⟨u, m⟩ := y
      obtain ⟨d, hfind, hresets, hext, hflags, hrrset, hm⟩ :=
        foldlM_real hc (List.nodup_finRange _) hloop
      have hleave : ∀ i, d.rrset i = leave now (c.rrset i) := fun i => by
        rw [hrrset i, if_pos (List.mem_finRange i)]
      have hd : u.find k = some d := by rw [hfind, Function.update_self]
      obtain rfl : m = tallyAll now c := hm
      simp only [hloop, Option.bind_eq_bind, Option.bind_some, hd, Bool.false_eq_true, if_false,
        hext] at h
      rw [allCount]
      split_ifs at h ⊢ with hfree
      · cases h
        rw [Bool.and_eq_true, beq_iff_eq] at hfree
        obtain ⟨hsame, -, -, hsameFlags, -⟩ :=
          Cent.freeExt_spec cfg.sizes (hext.trans hfree.1) fun i hi =>
          (hleave i).trans (leave_none_of_numrrext hfree.2 hi)
        refine ⟨d.freeExt cfg.sizes, ?_, hresets.trans (resets_freeExt d cfg.sizes),
          hsameFlags.trans hflags, fun i => ?_, ?_, rfl⟩
        · rw [Cache.find_put]
          change Function.update u.find k _ = _
          rw [hfind, Function.update_idem]
        · rw [hsame, hleave]
        · simp [hfree, ext_freeExt]
      · cases h
        refine ⟨d, hfind, hresets, hflags, hleave, ?_, rfl⟩
        rw [hext]
        cases hce : c.ext with
        | false => rfl
        | true => simpa [hce] using hfree

end Effects

section References

variable {now : Int} {s t : Cache} {k : Key} {c d : Cent} {i : Slot}

theorem leave_leave (now : Int) (r : Option RrSet) : leave now (leave now r) = leave now r := by
  cases r with
  | none => rfl
  | some r => by_cases hpurge : r.purgeable now <;> simp [leave, Option.filter, hpurge]

theorem timedout_of_purgeable {r : RrSet} (h : r.purgeable now = true) :
    timedout now r.ts r.ttl = true := by
  rw [RrSet.purgeable, Bool.and_eq_true] at h
  exact h.2

/-- Whether a reference to a record set is stale. -/
def staleSet (now : Int) : Option RrSet → Bool
  | none => true
  | some r => r.rrs.isEmpty || (!r.flags.isLocal && timedout now r.ts r.ttl)

theorem staleSet_leave (r : Option RrSet) : staleSet now (leave now r) = staleSet now r := by
  by_cases hpurge : r.any (RrSet.purgeable now)
  · rw [leave_of_purgeable hpurge]
    obtain ⟨r, rfl, hpr⟩ := (Option.any_eq_true ..).mp hpurge
    simp [staleSet, RrSet.isLocal_of_purgeable hpr, timedout_of_purgeable hpr]
  · rw [leave_of_not_purgeable hpurge]

/-- The record set that a state has under a key. -/
def setAt (s : Cache) (k : Key) (i : Slot) : Option RrSet :=
  (s.find k).bind fun c => c.rrset i

/-- Whether a reference is stale depends on the record sets of the entry and of the
enclosing domains. -/
theorem staleRef_congr (hname : d.qname = c.qname)
    (hself : staleSet now (d.rrset i) = staleSet now (c.rrset i))
    (hfind : ∀ k, staleSet now (setAt t k i) = staleSet now (setAt s k i)) (ref : UInt8) :
    staleRef now t d ref i = staleRef now s c ref i := by
  have hsplit : ∀ (u : Cache) (e : Cent), staleRef now u e ref i = staleSet now
      (if ref.toNat = e.qname.labels.length then e.rrset i
      else if ref.toNat < e.qname.labels.length then setAt u (e.qname.suffix ref.toNat).fold i
      else none) := fun _ _ => rfl
  rw [hsplit, hsplit, hname]
  split_ifs
  · exact hself
  · exact hfind _
  · rfl

theorem staleSet_setAt (hc : s.find k = some c) (hfind : t.find = Function.update s.find k (some d))
    (hrrset : ∀ i, d.rrset i = leave now (c.rrset i)) (k' : Key) :
    staleSet now (setAt t k' i) = staleSet now (setAt s k' i) := by
  rw [setAt, setAt, hfind]
  by_cases hk : k' = k
  · subst hk
    rw [Function.update_self, hc, Option.bind_some, Option.bind_some, hrrset, staleSet_leave]
  · rw [Function.update_of_ne hk]

/-- The number of stale references of an entry. -/
def staleCount (now : Int) (s : Cache) (c : Cent) : Nat :=
  (checkRef now true s c c.cNs slotNS).2 + (checkRef now true s c c.cSoa slotSOA).2

theorem checkRef_snd (test : Bool) (hstale : ∀ ref, staleRef now t d ref i = staleRef now s c ref i)
    (ref : UInt8) : (checkRef now test t d ref i).2 = (checkRef now true s c ref i).2 := by
  rw [checkRef, checkRef, hstale]
  split_ifs <;> rfl

theorem checkRef_dry (s : Cache) (c : Cent) (ref : UInt8) :
    (checkRef now true s c ref i).1 = ref := by
  simp only [checkRef, if_true]
  split_ifs <;> rfl

theorem checkRef_checked (hstale : ∀ ref, staleRef now t d ref i = staleRef now s c ref i)
    (ref : UInt8) : (checkRef now true t d (refreshRef now s c ref i) i).2 = 0 := by
  rw [checkRef_snd true hstale, refreshRef]
  split_ifs with href
  · rw [checkRef, if_neg fun h => h.1 rfl]
  · rw [checkRef, if_neg href]

end References

section Predicts

variable {cfg : CacheConfig} {now : Int} {s t : Cache} {k : Key} {c : Cent} {delete : Bool}

/-- What `purge_cent` returns for an entry. -/
def predicted (now : Int) (delete : Bool) (s : Cache) (c : Cent) : Int :=
  if delete && (allCount now c).2 == 0 && c.needless now then -1
  else if c.flags.isLocal then (allCount now c).1
  else (allCount now c).1 + staleCount now s c

theorem purgeCent_dry (hc : s.find k = some c) :
    purgeCent cfg now delete true s k = some (s, predicted now delete s c) := by
  simp only [purgeCent, purgeAllRrsets_dry hc, Option.bind_eq_bind, Option.bind_some, hc, if_true,
    checkRef_dry, predicted, staleCount]
  split_ifs
  · rfl
  · rfl
  · rw [Nat.cast_add, ← Int.add_assoc]

theorem staleCount_eq_zero_iff : staleCount now s c = 0 ↔
    refreshRef now s c c.cNs slotNS = c.cNs ∧ refreshRef now s c c.cSoa slotSOA = c.cSoa := by
  have hzero : ∀ ref i, (checkRef now true s c ref i).2 = 0 ↔ refreshRef now s c ref i = ref := by
    intro ref i
    rw [checkRef, refreshRef]
    by_cases href : ref ≠ cundef ∧ staleRef now s c ref i
    · rw [if_pos href, if_pos href]
      exact iff_of_false Nat.one_ne_zero (Ne.symm href.1)
    · rw [if_neg href, if_neg href]
      exact iff_of_true rfl rfl
  rw [staleCount, Nat.add_eq_zero_iff, hzero, hzero]

theorem isSome_leave (r : Option RrSet) :
    (leave now r).isSome = r.any fun r => !r.purgeable now := by
  cases r with
  | none => rfl
  | some r => by_cases hpurge : r.purgeable now <;> simp [leave, Option.filter, hpurge]

/-- `lookup_cache` asks whether the dry run returns anything but 0. -/
theorem purgeTest_iff : purgeTest now s c = true ↔ predicted now true s c ≠ 0 := by
  have hany : ((List.finRange _).any fun i => (c.rrset i).any (RrSet.purgeable now)) = true ↔
      (tallyAll now c).rv ≠ 0 := by
    simp [tallyAll, tally_eq, List.countP_eq_zero]
  have hstay : ((List.finRange _).filter fun i => (c.rrset i).any fun r => !r.purgeable now).isEmpty
      = true ↔ (tallyAll now c).numrrs = 0 := by
    simp [tallyAll, tally_eq, List.countP_eq_zero, isSome_leave, List.isEmpty_iff,
      List.filter_eq_nil_iff]
  have hext : (((List.finRange _).filter fun i => (c.rrset i).any fun r => !r.purgeable now).all
      fun i => decide (i.val < nrrmu)) = true ↔ (tallyAll now c).numrrext = 0 := by
    simp only [tallyAll, tally_eq, Nat.zero_add, List.countP_eq_zero, isSome_leave,
      List.all_eq_true,
      List.mem_filter, List.mem_finRange, true_and, decide_eq_true_eq, Bool.and_eq_true, not_and]
    exact forall_congr' fun i => ⟨fun h _ hle hr => absurd (h hr) (Nat.not_lt.mpr hle),
      fun h hr => Nat.lt_of_not_le fun hle => h trivial hle hr⟩
  have hrefs : (decide (refreshRef now s c c.cNs slotNS ≠ c.cNs) = true ∨
      decide (refreshRef now s c c.cSoa slotSOA ≠ c.cSoa) = true) ↔ staleCount now s c ≠ 0 := by
    rw [ne_eq (staleCount now s c), staleCount_eq_zero_iff, not_and_or, decide_eq_true_eq,
      decide_eq_true_eq]
  simp only [purgeTest, Bool.or_eq_true, Bool.and_eq_true, hany, hstay, hext, hrefs, predicted,
    allCount, Bool.true_and, beq_iff_eq, Bool.not_eq_true']
  split_ifs with hdel hlocal hfree hfree
  · simp [hdel]
  · exact iff_of_true (Or.inl (Or.inl (Or.inr hfree))) (by omega)
  · simp [hdel, hlocal, hfree]
  · exact iff_of_true (Or.inl (Or.inl (Or.inr hfree))) (by omega)
  · simp only [hdel, hfree, hlocal, or_false, true_and]
    omega

/-- What is left of an entry that was purged. -/
structure Purged (now : Int) (s t : Cache) (c e : Cent) : Prop where
  name : e.qname = c.qname
  flags : e.flags = clearAuth now c (List.finRange _)
  isLocal : e.flags.isLocal = c.flags.isLocal
  negTimes : e.negTimes = c.negTimes
  needless : e.needless now = c.needless now
  rrset : ∀ i, e.rrset i = leave now (c.rrset i)
  ext : e.ext = (c.ext && (tallyAll now c).numrrext != 0)
  find : t.find = Function.update s.find c.qname.fold (some e)
  cNs : e.cNs = if c.flags.isLocal then c.cNs else refreshRef now s c c.cNs slotNS
  cSoa : e.cSoa = if c.flags.isLocal then c.cSoa else refreshRef now s c c.cSoa slotSOA

/-- The purge returns what the dry run returns, and leaves a purged entry unless it says
that the entry is gone. -/
theorem purgeCent_real {x : Int} (hc : s.find k = some c) (hk : c.qname.fold = k)
    (h : purgeCent cfg now delete false s k = some (t, x)) :
    x = predicted now delete s c ∧ (0 ≤ x → ∃ e, Purged now s t c e) ∧
      (x < 0 → t.find = Function.update s.find k none) := by
  subst hk
  rw [purgeCent] at h
  cases hall : purgeAllRrsets cfg now false s c.qname.fold with
  | none => simp [hall] at h
  | some y =>
      obtain ⟨u, y⟩ := y
      obtain ⟨d, hfind, hresets, hflags, hrrset, hext, rfl⟩ := purgeAllRrsets_real hc hall
      have hd : u.find c.qname.fold = some d := by rw [hfind, Function.update_self]
      simp only [hall, Option.bind_eq_bind, Option.bind_some, hd, Bool.false_eq_true, if_false,
        hresets.needless, hresets.isLocal] at h
      rw [predicted]
      split_ifs at h ⊢ with hdel hlocal
      · cases hent : delCacheEnt cfg u d.qname.fold d with
        | none => simp [hent] at h
        | some v =>
            simp only [hent, Option.bind_some, Option.some.injEq, Prod.mk.injEq] at h
            obtain ⟨rfl, rfl⟩ := h
            refine ⟨rfl, fun hnonneg => absurd hnonneg (by decide), fun _ => ?_⟩
            rw [find_delCacheEnt hent, hresets.name, hfind, Function.update_idem]
      · cases h
        refine ⟨rfl, fun _ => ⟨d, hresets.name, hflags, hresets.isLocal, hresets.negTimes,
          hresets.needless now, hrrset, hext, hfind, ?_, ?_⟩, fun hneg => absurd hneg (by omega)⟩
        · rw [if_pos hlocal]
          exact (Prod.mk.injEq .. ▸ hresets.refs).1
        · rw [if_pos hlocal]
          exact (Prod.mk.injEq .. ▸ hresets.refs).2
      · have hrefs := hresets.refs
        rw [Prod.mk.injEq] at hrefs
        -- each reference is checked in a state that has the purged entry
        have hns : ∀ ref, staleRef now u d ref slotNS = staleRef now s c ref slotNS :=
          staleRef_congr hresets.name (by rw [hrrset, staleSet_leave])
            (staleSet_setAt hc hfind hrrset)
        have hsoa : ∀ ns ref, staleRef now (u.put c.qname.fold { d with cNs := ns })
            { d with cNs := ns } ref slotSOA = staleRef now s c ref slotSOA := by
          intro ns
          refine staleRef_congr hresets.name ?_
            (staleSet_setAt (d := { d with cNs := ns }) hc ?_ hrrset)
          · exact (congrArg _ (hrrset slotSOA)).trans (staleSet_leave _)
          · rw [Cache.find_put, hfind, Function.update_idem]
        simp only [Option.some.injEq, Prod.mk.injEq, checkRef_snd false hns,
          checkRef_snd false (hsoa _), checkRef_real, refreshRef, hns, hsoa] at h
        obtain ⟨rfl, rfl⟩ := h
        rw [hrefs.1, hrefs.2]
        refine ⟨by rw [staleCount, Nat.cast_add, ← Int.add_assoc], fun _ =>
          ⟨{ d with
            cNs := refreshRef now s c c.cNs slotNS
            cSoa := refreshRef now s c c.cSoa slotSOA }, hresets.name, hflags, hresets.isLocal,
            hresets.negTimes, hresets.needless now, hrrset, hext, ?_, ?_, ?_⟩,
          fun hneg => absurd hneg (by omega)⟩
        · rw [Cache.find_put, hfind, Function.update_idem]
          rfl
        · rw [if_neg hlocal]
        · rw [if_neg hlocal]

theorem predicted_purged {e : Cent} (hc : s.find c.qname.fold = some c) (h : Purged now s t c e)
    (hstay : 0 ≤ predicted now delete s c) : predicted now delete t e = 0 := by
  have hrv : (tallyAll now e).rv = 0 := by
    simp only [tallyAll, tally_eq, Nat.zero_add, List.countP_eq_zero, h.rrset]
    intro i _
    cases c.rrset i with
    | none => simp [leave]
    | some r => by_cases hpurge : r.purgeable now <;> simp [leave, Option.filter, hpurge]
  have hnum : (tallyAll now e).numrrs = (tallyAll now c).numrrs ∧
      (tallyAll now e).numrrext = (tallyAll now c).numrrext := by
    simp only [tallyAll, tally_eq, h.rrset, leave_leave, and_self]
  have hall : allCount now e = (0, (allCount now c).2) := by
    rw [allCount, hnum.1, hnum.2, hrv, h.ext, allCount]
    cases c.ext <;> simp
  rw [predicted] at hstay ⊢
  rw [hall, h.needless, h.isLocal]
  split_ifs at hstay ⊢ with hdel hlocal
  · omega
  · rfl
  · have hstale : ∀ i ref, staleRef now t e ref i = staleRef now s c ref i := fun i =>
      staleRef_congr h.name (by rw [h.rrset, staleSet_leave]) (staleSet_setAt hc h.find h.rrset)
    rw [staleCount, h.cNs, h.cSoa, if_neg hlocal, if_neg hlocal, checkRef_checked (hstale slotNS),
      checkRef_checked (hstale slotSOA)]
    rfl

/-- In every state of the cache the dry run changes nothing and returns what the purge
returns, and it returns 0 after a purge that left the entry. -/
theorem purgeCent_predicted {hist : List Call} (hrun : Run (call cfg) Always Cache.empty hist s)
    (hc : s.find k = some c) (now : Int) (delete : Bool) :
    ∃ t x, purgeCent cfg now delete false s k = some (t, x) ∧
      purgeCent cfg now delete true s k = some (s, x) ∧
      (0 ≤ x → purgeCent cfg now delete true t k = some (t, 0)) := by
  obtain ⟨⟨xs, hinv, hsized, -⟩, -⟩ := tidy_run hrun
  have hk := (hinv.ok k c hc).name
  obtain ⟨t, -, b, ht, -⟩ := purgeCent_spec (p := fun _ => True) (q := fun _ _ => True) hinv hsized
    hc (fun r (_ : r.purgeable now = true) => trivial) (fun _ _ _ => trivial) delete
  rw [← purgeCent_uncounted, Option.map_eq_some_iff] at ht
  obtain ⟨⟨t', x⟩, ht, -⟩ := ht
  obtain ⟨rfl, hpurged, -⟩ := purgeCent_real hc hk ht
  refine ⟨t', _, ht, purgeCent_dry hc, fun hstay => ?_⟩
  obtain ⟨e, he⟩ := hpurged hstay
  have hfind : t'.find k = some e := by rw [he.find, hk, Function.update_self]
  rw [purgeCent_dry hfind, predicted_purged (hk ▸ hc) he hstay]

/-- An entry whose record sets are timed out. -/
theorem purgeCent_predicted_expired :
    ∃ s c t x, Run (call exampleConfig) Always Cache.empty
        [.op (.add 1000 (exampleRecipe [slotNS, slotSOA]))] s ∧
      s.find exampleName.fold = some c ∧
      purgeCent exampleConfig 5000 false false s exampleName.fold = some (t, x) ∧
      purgeCent exampleConfig 5000 false true s exampleName.fold = some (s, x) ∧
      (0 ≤ x → purgeCent exampleConfig 5000 false true t exampleName.fold = some (t, 0)) := by
  obtain ⟨s, hs⟩ := Option.isSome_iff_exists.mp (show
    (call exampleConfig Cache.empty (.op (.add 1000 (exampleRecipe [slotNS, slotSOA])))).isSome by
      decide +kernel)
  have hfind : ((call exampleConfig Cache.empty
      (.op (.add 1000 (exampleRecipe [slotNS, slotSOA])))).bind fun s =>
        s.find exampleName.fold).isSome := by
    decide +kernel
  rw [hs, Option.bind_some, Option.isSome_iff_exists] at hfind
  obtain ⟨c, hc⟩ := hfind
  have hrun : Run (call exampleConfig) Always Cache.empty
      [.op (.add 1000 (exampleRecipe [slotNS, slotSOA]))] s := .next .start trivial hs
  obtain ⟨t, x, hall⟩ := purgeCent_predicted hrun hc 5000 false
  exact ⟨s, c, t, x, hrun, hc, hall⟩

end Predicts

end TorAndroid.Dns.Counted
