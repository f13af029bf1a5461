import TorAndroid.Dns.DiskLoad
import Mathlib.Algebra.BigOperators.Group.List.Basic
import Mathlib.Algebra.Order.BigOperators.Group.List

namespace TorAndroid.Dns

open TorAndroid.Lib.LinkedCells TorAndroid.Lib.DoublyLinked

section Fresh

variable {cfg : CacheConfig} {s : Cache} {now limit : Int}

/-- Nothing in the cache is timed out. -/
def Cache.Fresh (now : Int) (s : Cache) : Prop :=
  ∀ k c, s.find k = some c → (∀ i, ∀ r ∈ c.rrset i, r.purgeable now = false) ∧
    (c.numRrs = 0 → c.needless now = false)

theorem purgeOld_fresh (h : s.Fresh now) {k : Key} {c : Cent} (hc : s.find k = some c)
    (o : Option Slot) : purgeOld cfg now s ⟨k, o⟩ = some s := by
  obtain ⟨hsets, hneedless⟩ := h k c hc
  have hkept : ¬(decide (c.numRrs = 0) && c.needless now) = true := by
    rw [Bool.and_eq_true, decide_eq_true_eq]
    rintro ⟨hnum, hneed⟩
    rw [hneedless hnum] at hneed
    cases hneed
  simp only [purgeOld, hc, Option.bind_eq_bind, Option.bind_some]
  split_ifs
  · rfl
  · cases o with
    | none => rfl
    | some i =>
        have hany : ¬(c.rrset i).any (RrSet.purgeable now) = true := by
          intro hany
          obtain ⟨r, hr, hpurge⟩ := (Option.any_eq_true ..).mp hany
          rw [hsets i r hr] at hpurge
          cases hpurge
        simp only [purgeRrset, hc, Option.bind_eq_bind, Option.bind_some, if_neg hany, if_neg hkept]

/-- A purge leaves a cache alone that is not too large and in which nothing is timed out. -/
theorem purgeCache_fresh (h : Linked cfg s) (hfresh : s.Fresh now) (hsize : s.cacheSize ≤ limit)
    (lazy : Bool) : purgeCache cfg now s limit lazy = some s := by
  obtain ⟨xs, hinv, -⟩ := h
  obtain ⟨t, ys, ht, heq, -⟩ := walkAll_spec (fun s => !lazy || decide (limit < s.cacheSize))
    (purgeOld cfg now) (J := fun t ys => t = s ∧ ys = xs) (by
      rintro _ _ ⟨rfl, rfl⟩
      exact hinv.represents) (by
      rintro _ pre a ⟨k, o⟩ post ⟨rfl, hxs⟩
      obtain ⟨c, hc, -⟩ := (hinv.mem_iff a ⟨k, o⟩).mp (by rw [← hxs]; simp)
      exact ⟨_, pre ++ [(a, ⟨k, o⟩)], purgeOld_fresh hfresh hc o, rfl, by rw [← hxs]; simp⟩)
    ⟨rfl, rfl⟩
  subst heq
  rw [purgeCache, ht]
  exact if_pos hsize

end Fresh

section Numbered

variable {cfg : CacheConfig} {name : Nat → Name} {s : Cache} {n i : Nat} {c : Cent}

/-- A new negative entry for a name. -/
def negativeCent (cfg : CacheConfig) (owner : Name) : Cent :=
  initCent cfg.sizes owner true 0 0 ⟨false, false, false, false⟩

/-- A negative entry for a name as it is stored, wherever its node is. -/
structure IsNegative (cfg : CacheConfig) (owner : Name) (c : Cent) : Prop where
  qname : c.qname = owner
  cs : c.cs = cfg.sizes.cent + rhnlen owner.wire
  isLocal : c.flags.isLocal = false
  negTimes : c.negTimes = some (boundTtl cfg true 0, 0)

theorem isNegative_of_copy {owner : Name}
    (h : copyCent c = copyCent (adjustCent cfg (copyCent (negativeCent cfg owner)))) :
    IsNegative cfg owner c := by
  have hstored : copyCent (adjustCent cfg (copyCent (negativeCent cfg owner))) =
      { negativeCent cfg owner with arm := .neg none (boundTtl cfg true 0) 0 } := rfl
  rw [hstored] at h
  obtain ⟨qname', cs, numRrs, dflags, arm, cNs, cSoa⟩ := c
  cases arm with
  | neg lent ttl ts =>
      cases h
      exact ⟨rfl, rfl, rfl, rfl⟩
  | rr a => cases h

/-- The cache holds negative entries for the first `n` names and no others. -/
structure Numbered (cfg : CacheConfig) (name : Nat → Name) (n : Nat) (s : Cache) : Prop where
  good : Good cfg NoDeficit s
  find : ∀ i < n, ∃ c, s.find (name i).fold = some c
  only : ∀ k c, s.find k = some c → ∃ i < n, (name i).fold = k ∧ IsNegative cfg (name i) c

theorem IsNegative.negative {owner : Name} (h : IsNegative cfg owner c) : c.negative = true := by
  by_contra hpos
  have hnone := h.negTimes
  rw [Cent.negTimes_eq_none_iff.mpr (by simpa using hpos)] at hnone
  cases hnone

theorem Numbered.fresh (h : Numbered cfg name n s) : s.Fresh 0 := by
  intro k c hc
  obtain ⟨i, -, -, hneg⟩ := h.only k c hc
  refine ⟨fun j r hr => ?_, fun _ => ?_⟩
  · rw [Cent.rrset_of_negative hneg.negative] at hr
    cases hr
  · have htimes := hneg.negTimes
    obtain ⟨qname, cs, numRrs, dflags, arm, cNs, cSoa⟩ := c
    cases arm with
    | neg lent ttl ts =>
        cases htimes
        have hlate : ¬(0 : Int) + max (boundTtl cfg true 0) cacheLat < 0 := by
          rw [Int.zero_add, Int.not_lt]
          exact Int.le_trans (by decide) (Int.le_max_right _ _)
        simp only [Cent.needless, timedout, decide_eq_false hlate, Bool.and_false]
    | rr a => cases htimes

theorem Numbered.zero : Numbered cfg name 0 Cache.empty :=
  ⟨good_empty, fun i hi => absurd hi (Nat.not_lt_zero i), fun k c hc => by cases hc⟩

theorem Numbered.add (h : Numbered cfg name n s) (hnew : ∀ i < n, (name i).fold ≠ (name n).fold)
    (hroom : ∀ t, Numbered cfg name (n + 1) t → t.cacheSize ≤ cfg.permCache * 1024 + mcsz) :
    ∃ t, addCache cfg 0 s (negativeCent cfg (name n)) = some t ∧ Numbered cfg name (n + 1) t := by
  obtain ⟨xs, hinv, hsized, hsort⟩ := h.good
  have hnone : s.find (negativeCent cfg (name n)).qname.fold = none := by
    by_contra hsome
    obtain ⟨c, hc⟩ := Option.ne_none_iff_exists'.mp hsome
    obtain ⟨i, hi, hkey, -⟩ := h.only _ c hc
    exact hnew i hi hkey
  obtain ⟨t, ys, d, ht, htinv, htsized, htsort, hfind, hcopy, -⟩ :=
    addNew_spec (E := NoDeficit) hinv hsized hnone (by
      rw [negativeCent, surplus_initCent]
      exact le_refl (0 : Int × Int))
  change t.find = Function.update s.find (name n).fold (some d) at hfind
  have hnumbered : Numbered cfg name (n + 1) t := by
    refine ⟨⟨ys, htinv, htsized, htsort.trans hsort⟩, fun i hi => ?_,
      Cache.forall_find_update hfind (fun k _ c hc => ?_) ?_⟩
    · obtain hlt | rfl := Nat.lt_succ_iff_lt_or_eq.mp hi
      · rw [hfind, Function.update_of_ne (hnew i hlt)]
        exact h.find i hlt
      · exact ⟨d, by rw [hfind]; exact Function.update_self ..⟩
    · obtain ⟨i, hi, hc⟩ := h.only k c hc
      exact ⟨i, Nat.lt_succ_of_lt hi, hc⟩
    · exact ⟨n, Nat.lt_succ_self n, rfl, isNegative_of_copy hcopy⟩
  refine ⟨t, ?_, hnumbered⟩
  have hneg : ¬((negativeCent cfg (name n)).numRrs = 0 ∧
      (!(negativeCent cfg (name n)).negative) = true) := by
    rintro ⟨-, hpos⟩
    cases hpos
  rw [addCache, hnone]
  simp only [if_neg hneg, ht, Option.bind_eq_bind, Option.bind_some]
  exact purgeCache_within (hroom t hnumbered)

theorem Numbered.length_entries_le (h : Numbered cfg name n s) : s.table.entries.length ≤ n := by
  have hlength := @Cache.length_entries_le s ((List.range n).map fun i => (name i).fold)
    fun k c hc => by
      obtain ⟨i, hi, hkey, -⟩ := h.only k c hc
      exact List.mem_map.mpr ⟨i, List.mem_range.mpr hi, hkey⟩
  rwa [List.length_map, List.length_range] at hlength

/-- The size of the cache, where no name is longer than `l` bytes. -/
theorem Numbered.cacheSize_le (h : Numbered cfg name n s) {l : Nat}
    (hname : ∀ i < n, rhnlen (name i).wire ≤ l) :
    s.cacheSize ≤ n * (cfg.sizes.cent + l : Nat) := by
  obtain ⟨xs, -, hsized, -⟩ := h.good
  have hentry : ∀ x ∈ s.table.entries.map (fun e => e.2.cs),
      x ≤ ((cfg.sizes.cent + l : Nat) : Int) := by
    intro x hx
    obtain ⟨e, he, rfl⟩ := List.mem_map.mp hx
    obtain ⟨i, hi, -, hneg⟩ := h.only e.1 e.2 (List.mem_dlookup s.table.nodupKeys he)
    rw [hneg.cs]
    exact_mod_cast Nat.add_le_add_left (hname i hi) _
  have hsum := List.sum_le_card_nsmul _ _ hentry
  rw [List.length_map, nsmul_eq_mul] at hsum
  rw [hsized.cacheSize]
  refine Int.le_trans hsum ?_
  exact_mod_cast Nat.mul_le_mul_right _ h.length_entries_le

theorem exists_numbered {l : Nat} (hinj : ∀ i j, i < j → j < n → (name i).fold ≠ (name j).fold)
    (hname : ∀ i < n, rhnlen (name i).wire ≤ l)
    (hroom : (n : Int) * (cfg.sizes.cent + l : Nat) ≤ cfg.permCache * 1024 + mcsz) :
    ∃ s, Numbered cfg name n s := by
  induction n with
  | zero => exact ⟨Cache.empty, .zero⟩
  | succ n ih =>
      have hstep : (n : Int) * (cfg.sizes.cent + l : Nat) ≤
          ((n + 1 : Nat) : Int) * (cfg.sizes.cent + l : Nat) := by
        exact_mod_cast Nat.mul_le_mul_right _ (Nat.le_succ n)
      obtain ⟨s, hs⟩ := ih (fun i j hi hj => hinj i j hi (Nat.lt_succ_of_lt hj))
        (fun i hi => hname i (Nat.lt_succ_of_lt hi)) (Int.le_trans hstep hroom)
      obtain ⟨t, -, ht⟩ := hs.add (fun i hi => hinj i n hi (Nat.lt_succ_self n)) fun t ht =>
        Int.le_trans (ht.cacheSize_le hname) hroom
      exact ⟨t, ht⟩

theorem Numbered.le_length_rrl (h : Numbered cfg name n s)
    (hinj : ∀ i j, i < j → j < n → (name i).fold ≠ (name j).fold) :
    n ≤ s.rrl.toList.length := by
  obtain ⟨xs, hinv, -, -⟩ := h.good
  have hnodup : ((List.range n).map fun i => (⟨(name i).fold, none⟩ : Lent)).Nodup := by
    refine List.Nodup.map_on (fun i hi j hj heq => ?_) List.nodup_range
    have hkey : (name i).fold = (name j).fold := congrArg Lent.cent heq
    rw [List.mem_range] at hi hj
    obtain hlt | heq | hlt := Nat.lt_trichotomy i j
    · exact absurd hkey (hinj i j hlt hj)
    · exact heq
    · exact absurd hkey.symm (hinj j i hlt hi)
  have hsub : ((List.range n).map fun i => (⟨(name i).fold, none⟩ : Lent)) ⊆ xs.map Prod.snd := by
    intro le hle
    obtain ⟨i, hi, rfl⟩ := List.mem_map.mp hle
    obtain ⟨c, hc⟩ := h.find i (List.mem_range.mp hi)
    obtain ⟨j, -, -, hneg⟩ := h.only _ c hc
    refine (hinv.mem_listed _).mpr ⟨c, hc, ?_⟩
    simp [Cent.listed, hneg.negative, hneg.isLocal]
  have hlength := (List.subperm_of_subset hnodup hsub).length_le
  rw [List.length_map, List.length_range, List.length_map] at hlength
  rwa [hinv.represents.toList_eq]

theorem Numbered.rrset (h : Numbered cfg name n s) {k : Key} (hc : s.find k = some c) (j : Slot) :
    c.rrset j = none := by
  obtain ⟨i, -, -, hneg⟩ := h.only k c hc
  exact Cent.rrset_of_negative hneg.negative j

end Numbered

end TorAndroid.Dns
