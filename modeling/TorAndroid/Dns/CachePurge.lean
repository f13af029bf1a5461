import TorAndroid.Dns.CacheInvariant
import Mathlib.Algebra.Order.Ring.Int

namespace TorAndroid.Dns

open TorAndroid.Lib.LinkedCells TorAndroid.Lib.DoublyLinked

section Thins

variable (p : RrSet → Prop) (q : Bool → Arm → Prop)

/-- An entry with some record sets removed that satisfy `p`. -/
structure Cent.Thins (c d : Cent) : Prop where
  name : d.qname = c.qname
  cs : d.cs ≤ c.cs
  isLocal : d.flags.isLocal = c.flags.isLocal
  negative : d.negative = c.negative
  arm : c.negative = true → d.arm = c.arm
  rrset : ∀ i, d.rrset i = c.rrset i ∨ d.rrset i = none ∧ ∀ r ∈ c.rrset i, p r

/-- An entry is gone only if its record sets satisfy `p`, and if it was negative its
local flag and what it held satisfy `q`. -/
inductive ThinsTo : Option Cent → Option Cent → Prop
  | absent : ThinsTo none none
  | gone {c : Cent} (hrrset : ∀ i, ∀ r ∈ c.rrset i, p r)
      (hneg : c.negative = true → q c.flags.isLocal c.arm) : ThinsTo (some c) none
  | kept {c d : Cent} (h : c.Thins p d) : ThinsTo (some c) (some d)

/-- What a purge may do to the entries: take away what satisfies `p` or `q`. -/
def Cache.Thins (s t : Cache) : Prop :=
  ∀ k, ThinsTo p q (s.find k) (t.find k)

end Thins

section ThinsLemmas

variable {p : RrSet → Prop} {q : Bool → Arm → Prop}

theorem Cent.Thins.refl (c : Cent) : c.Thins p c :=
  ⟨rfl, Int.le_refl _, rfl, rfl, fun _ => rfl, fun _ => Or.inl rfl⟩

theorem Cent.Thins.trans {c d e : Cent} (h₁ : c.Thins p d) (h₂ : d.Thins p e) : c.Thins p e := by
  refine ⟨h₂.name.trans h₁.name, Int.le_trans h₂.cs h₁.cs, h₂.isLocal.trans h₁.isLocal,
    h₂.negative.trans h₁.negative,
      fun hneg => (h₂.arm (h₁.negative.trans hneg)).trans (h₁.arm hneg), fun i => ?_⟩
  rcases h₂.rrset i with heq | ⟨hnone, hp⟩
  · rw [heq]
    exact h₁.rrset i
  · rcases h₁.rrset i with heq | ⟨-, hp'⟩
    · exact Or.inr ⟨hnone, heq ▸ hp⟩
    · exact Or.inr ⟨hnone, hp'⟩

theorem Cent.Thins.mono {p' : RrSet → Prop} {c d : Cent} (h : c.Thins p d)
    (hp : ∀ i, ∀ r ∈ c.rrset i, p r → p' r) : c.Thins p' d := by
  refine ⟨h.name, h.cs, h.isLocal, h.negative, h.arm, fun i => ?_⟩
  rcases h.rrset i with heq | ⟨hnone, hr⟩
  · exact Or.inl heq
  · exact Or.inr ⟨hnone, fun r hmem => hp i r hmem (hr r hmem)⟩

theorem ThinsTo.refl (v : Option Cent) : ThinsTo p q v v := by
  cases v with
  | none => exact .absent
  | some c => exact .kept (Cent.Thins.refl c)

theorem ThinsTo.trans {u v w : Option Cent} (h₁ : ThinsTo p q u v) (h₂ : ThinsTo p q v w) :
    ThinsTo p q u w := by
  cases h₁ with
  | absent => exact h₂
  | gone hrrset hneg =>
      cases h₂
      exact .gone hrrset hneg
  | kept h =>
      cases h₂ with
      | kept h' => exact .kept (h.trans h')
      | gone hrrset hneg =>
          refine .gone (fun i r hr => ?_) fun hc => ?_
          · rcases h.rrset i with heq | ⟨-, hp⟩
            · exact hrrset i r (heq ▸ hr)
            · exact hp r hr
          · rw [← h.isLocal, ← h.arm hc]
            exact hneg (h.negative.trans hc)

theorem Cache.Thins.refl (s : Cache) : s.Thins p q s :=
  fun _ => ThinsTo.refl _

theorem Cache.Thins.trans {s t u : Cache} (h₁ : s.Thins p q t) (h₂ : t.Thins p q u) :
    s.Thins p q u :=
  fun k => (h₁ k).trans (h₂ k)

theorem Cache.Thins.of_update {s t : Cache} {k : Key} {v : Option Cent}
    (hfind : t.find = Function.update s.find k v) (h : ThinsTo p q (s.find k) v) :
    s.Thins p q t := by
  intro k'
  rw [hfind]
  by_cases hk : k' = k
  · subst hk
    rw [Function.update_self]
    exact h
  · rw [Function.update_of_ne hk]
    exact ThinsTo.refl _

theorem Cent.Thins.withoutRrset (c : Cent) (sz : Sizes) (i : Slot)
    (h : ∀ r ∈ c.rrset i, p r) : c.Thins p (c.withoutRrset sz i) := by
  obtain ⟨hname, hlocal, hneg, hcs⟩ := withoutRrset_frame c sz i
  refine ⟨hname, ?_, hlocal, hneg, withoutRrset_of_negative, fun j => ?_⟩
  · rw [hcs]
    cases c.rrset i with
    | none => simp
    | some r => simp
  · rw [rrset_withoutRrset]
    by_cases hji : j = i
    · subst hji
      exact Or.inr ⟨Function.update_self .., h⟩
    · exact Or.inl (Function.update_of_ne hji _ _)

end ThinsLemmas

/-- What a purge leaves: the invariant, and everything but what it may take. -/
structure Purged (sz : Sizes) (E : Int × Int → Prop) (p : RrSet → Prop)
    (q : Bool → Arm → Prop) (s t : Cache) (ys : List (Addr × Lent)) : Prop where
  inv : Inv sz E t ys ∅
  sized : Sized t
  thins : s.Thins p q t
  insertSort : t.insertSort = s.insertSort

section Walk

variable (cond : Cache → Bool) (body : Cache → Lent → Option Cache)
  {J : Cache → List (Addr × Lent) → Prop}

/-- A walk whose turns keep the nodes that are still ahead. -/
theorem walkRrl_spec (hrep : ∀ s xs, J s xs → s.rrl.Represents xs)
    (hbody : ∀ s pre a le post, J s (pre ++ (a, le) :: post) →
      ∃ t pre', body s le = some t ∧ J t (pre' ++ post))
    {n : Nat} {s : Cache} {pre post : List (Addr × Lent)} (hJ : J s (pre ++ post))
    (hn : post.length < n) :
    ∃ t ys, walkRrl cond body n s (headAddr post none) = some t ∧ J t ys := by
  induction n generalizing s pre post with
  | zero => simp at hn
  | succ n ih =>
      cases post with
      | nil => exact ⟨s, pre ++ [], rfl, hJ⟩
      | cons x post =>
          obtain ⟨a, le⟩ := x
          have hnode := (hrep s _ hJ).node_of_mem rfl
          obtain ⟨t, pre', ht, hJt⟩ := hbody s pre a le post hJ
          simp only [headAddr_cons, walkRrl, hnode, Option.bind_eq_bind, Option.bind_some, ht]
          split_ifs
          · exact ih hJt (by simpa using hn)
          · exact ⟨s, _, rfl, hJ⟩

theorem walkAll_spec (hrep : ∀ s xs, J s xs → s.rrl.Represents xs)
    (hbody : ∀ s pre a le post, J s (pre ++ (a, le) :: post) →
      ∃ t pre', body s le = some t ∧ J t (pre' ++ post))
    {s : Cache} {xs : List (Addr × Lent)} (hJ : J s xs) :
    ∃ t ys, walkAll cond body s = some t ∧ J t ys := by
  have hx := hrep s xs hJ
  rw [walkAll, hx.head]
  exact walkRrl_spec cond body hrep hbody (List.nil_append xs ▸ hJ) (Nat.lt_succ_of_le hx.length_le)

end Walk

theorem Cent.lentOf_none_of_rrset {c : Cent} {i : Slot} (h : (c.rrset i).isSome) :
    c.lentOf none = none := by
  obtain ⟨qname, cs, numRrs, dflags, arm, cNs, cSoa⟩ := c
  cases arm with
  | neg => cases h
  | rr => rfl

theorem Cent.negative_of_rrset {c : Cent} {i : Slot} (h : (c.rrset i).isSome) :
    c.negative = false := by
  obtain ⟨qname, cs, numRrs, dflags, arm, cNs, cSoa⟩ := c
  cases arm with
  | neg => cases h
  | rr => rfl

theorem Cent.rrset_of_negative {c : Cent} (h : c.negative = true) (i : Slot) :
    c.rrset i = none := by
  by_contra hne
  rw [negative_of_rrset (Option.isSome_iff_ne_none.mpr hne)] at h
  cases h

theorem Cent.count_pos_of_rrset {c : Cent} {i : Slot} (h : (c.rrset i).isSome) : 0 < c.count := by
  obtain ⟨r, hr⟩ := Option.isSome_iff_exists.mp h
  rw [count, measure]
  refine Finset.sum_pos' (fun j _ => ?_) ⟨i, Finset.mem_univ i, ?_⟩
  · cases c.rrset j <;> simp
  · rw [hr]
    exact Int.one_pos

theorem RrSet.isLocal_of_purgeable {r : RrSet} {now : Int} (h : r.purgeable now = true) :
    r.flags.isLocal = false := by
  simp only [purgeable, Bool.and_eq_true, Bool.not_eq_true', Bool.or_eq_false_iff] at h
  exact h.1.2

theorem Cent.isLocal_of_needless {c : Cent} {now : Int} (h : c.needless now = true)
    (hneg : c.negative = true) : c.flags.isLocal = false := by
  obtain ⟨qname, cs, numRrs, dflags, arm, cNs, cSoa⟩ := c
  cases arm with
  | neg =>
      simp only [needless, Bool.and_eq_true] at h
      simpa using h.1
  | rr => cases hneg

section Turns

variable {cfg : CacheConfig} {E : Int × Int → Prop} (hE : ∀ x, E x → 0 ≤ x.1)
  {p : RrSet → Prop} {q : Bool → Arm → Prop} {s : Cache} {P : Set Lent} {k : Key} {c : Cent}

include hE

theorem Cent.Ok.rrset_eq_none {pend : Option Slot → Prop} {sz : Sizes} (h : c.Ok sz E k pend)
    (hnum : c.numRrs = 0) (i : Slot) : c.rrset i = none := by
  by_contra hne
  have hpos := count_pos_of_rrset (Option.isSome_iff_ne_none.mpr hne)
  have hle : 0 ≤ c.numRrs - c.count := hE _ h.surplus
  omega

/-- An entry without record sets is removed, and no node of `post` is its own. -/
theorem Inv.delEmpty {pre post : List (Addr × Lent)} (h : Inv cfg.sizes E s (pre ++ post) P)
    (hsized : Sized s) (hc : s.find k = some c) (hnum : c.numRrs = 0)
    (hpost : ∀ y ∈ post, c.lentOf none ≠ some y.1) :
    ∃ t pre', Dns.delCacheEnt cfg s c.qname.fold c = some t ∧
      Inv cfg.sizes E t (pre' ++ post) P ∧ Sized t ∧
      t.find = Function.update s.find k none ∧ t.insertSort = s.insertSort := by
  have hok := h.ok k c hc
  obtain ⟨t, ht, hinv, hsized', hfind, hsort⟩ := h.delCacheEnt hsized hc
  have hkeep : ∀ y ∈ post, ∀ o ∈ places, c.lentOf o ≠ some y.1 := by
    intro y hy o _
    cases o with
    | none => exact hpost y hy
    | some i => simp [hok.rrset_eq_none hE hnum i]
  have hfilter : (post.filter fun y => ∀ o ∈ places, c.lentOf o ≠ some y.1) = post :=
    List.filter_eq_self.mpr fun y hy => decide_eq_true (hkeep y hy)
  rw [List.filter_append, hfilter] at hinv
  exact ⟨t, _, hok.name.symm ▸ ht, hinv, hsized', hfind, hsort⟩

theorem Purged.delEmpty {s₀ : Cache} {pre post : List (Addr × Lent)}
    (h : Purged cfg.sizes E p q s₀ s (pre ++ post)) (hc : s.find k = some c) (hnum : c.numRrs = 0)
    (hpost : ∀ y ∈ post, c.lentOf none ≠ some y.1)
    (hneg : c.negative = true → q c.flags.isLocal c.arm) :
    ∃ t pre', delCacheEnt cfg s c.qname.fold c = some t ∧
      Purged cfg.sizes E p q s₀ t (pre' ++ post) := by
  obtain ⟨t, pre', ht, hinv, hsized, hfind, hsort⟩ := h.inv.delEmpty hE h.sized hc hnum hpost
  refine ⟨t, pre', ht, hinv, hsized, h.thins.trans (.of_update hfind ?_), hsort.trans h.insertSort⟩
  rw [hc]
  refine .gone (fun i r hr => ?_) hneg
  rw [(h.inv.ok k c hc).rrset_eq_none hE hnum i] at hr
  cases hr

omit hE in
/-- A record set whose node comes next is removed, and the node with it. -/
theorem Purged.delSlot {s₀ : Cache} {pre post : List (Addr × Lent)} {a : Addr} {i : Slot}
    (h : Purged cfg.sizes E p q s₀ s (pre ++ (a, ⟨k, some i⟩) :: post)) (hc : s.find k = some c)
    (hp : ∀ r ∈ c.rrset i, p r) :
    ∃ t, delSlot cfg s k c i = some t ∧ Purged cfg.sizes E p q s₀ t (pre ++ post) ∧
      t.find k = some (c.withoutRrset cfg.sizes i) := by
  have hlent : c.lentOf (some i) = some a :=
    ((h.inv.owns hc).mem_iff a (some i)).mp (by simp)
  obtain ⟨t, ht, hinv, htouch, hsize⟩ := h.inv.delSlot hc i
  have hfilter : ((pre ++ (a, (⟨k, some i⟩ : Lent)) :: post).filter fun y =>
      c.lentOf (some i) ≠ some y.1) = pre ++ post := by
    rw [← h.inv.represents.filter_split, hlent]
    exact List.filter_congr fun y _ => by simp [eq_comm]
  rw [hfilter] at hinv
  refine ⟨t, ht, ⟨hinv, htouch.sized h.sized hc hsize, ?_, ?_⟩, htouch.find_self⟩
  · refine h.thins.trans (.of_update htouch.find ?_)
    rw [hc]
    exact .kept (.withoutRrset c cfg.sizes i hp)
  · exact htouch.insertSort.trans h.insertSort

omit hE in
theorem Purged.split_ne {sz : Sizes} {s₀ : Cache} {pre post : List (Addr × Lent)} {x : Addr × Lent}
    (h : Purged sz E p q s₀ s (pre ++ x :: post)) : ∀ y ∈ post, y.1 ≠ x.1 := by
  intro y hy heq
  have hnodup := h.inv.represents.nodup
  rw [List.map_append, List.map_cons, List.nodup_middle, List.nodup_cons] at hnodup
  exact hnodup.1 (heq ▸ List.mem_append_right _ (List.mem_map_of_mem hy))

theorem Purged.purgeOld {now : Int} (hp : ∀ r : RrSet, r.purgeable now = true → p r)
    (hq : ∀ c : Cent, c.negative = true → c.needless now = true → q c.flags.isLocal c.arm)
    {s₀ : Cache} {pre post : List (Addr × Lent)} {a : Addr}
    {le : Lent} (h : Purged cfg.sizes E p q s₀ s (pre ++ (a, le) :: post)) :
    ∃ t pre', purgeOld cfg now s le = some t ∧ Purged cfg.sizes E p q s₀ t (pre' ++ post) := by
  obtain ⟨k, o⟩ := le
  obtain ⟨c, hc, hlent⟩ := (h.inv.mem_iff a ⟨k, o⟩).mp (by simp)
  have hhere : Purged cfg.sizes E p q s₀ s ((pre ++ [(a, ⟨k, o⟩)]) ++ post) := by simpa using h
  cases hlocal : c.localAt o with
  | true => exact ⟨s, _, by simp [Dns.purgeOld, hc, hlocal], hhere⟩
  | false =>
      -- the last test of the turn, for the entry as it is by then
      have hend : ∀ {t : Cache} {pre₁ : List (Addr × Lent)} {d : Cent},
          Purged cfg.sizes E p q s₀ t (pre₁ ++ post) → t.find k = some d →
          (∀ y ∈ post, d.lentOf none ≠ some y.1) →
          ∃ u pre', (if decide (d.numRrs = 0) && d.needless now
            then delCacheEnt cfg t d.qname.fold d else some t) = some u ∧
            Purged cfg.sizes E p q s₀ u (pre' ++ post) := by
        intro t pre₁ d ht hd hpost
        split_ifs with hcond
        · rw [Bool.and_eq_true, decide_eq_true_eq] at hcond
          exact ht.delEmpty hE hd hcond.1 hpost fun hneg => hq d hneg hcond.2
        · exact ⟨t, pre₁, rfl, ht⟩
      cases o with
      | none =>
          obtain ⟨u, pre', hu, hpurged⟩ := hend hhere hc (by
            intro y hy heq
            rw [hlent] at heq
            cases heq
            exact h.split_ne y hy rfl)
          exact ⟨u, pre', by simpa [Dns.purgeOld, hc, hlocal] using hu, hpurged⟩
      | some i =>
          have hsome : (c.rrset i).isSome := Cent.has_of_lentOf hlent
          have hnone := Cent.lentOf_none_of_rrset hsome
          cases hpurge : (c.rrset i).any (RrSet.purgeable now) with
          | true =>
              obtain ⟨t, ht, hpurged, hfind⟩ := h.delSlot hc (by
                intro r hr
                rw [Option.mem_def.mp hr] at hpurge
                exact hp r hpurge)
              obtain ⟨u, pre', hu, hpurged'⟩ := hend hpurged hfind (by
                intro y _
                rw [Cent.lentOf_withoutRrset, Function.update_of_ne (by simp), hnone]
                simp)
              refine ⟨u, pre', ?_, hpurged'⟩
              simp only [Dns.purgeOld, hc, hlocal, purgeRrset, hpurge, ht, hfind,
                Option.bind_eq_bind, Option.bind_some, if_true]
              simpa using hu
          | false =>
              obtain ⟨u, pre', hu, hpurged⟩ := hend hhere hc (by simp [hnone])
              refine ⟨u, pre', ?_, hpurged⟩
              simpa [Dns.purgeOld, hc, hlocal, purgeRrset, hpurge] using hu

theorem Purged.purgeAny (hp : ∀ r : RrSet, r.flags.isLocal = false → p r)
    (hq : ∀ a, q false a) {s₀ : Cache} {pre post : List (Addr × Lent)} {a : Addr} {le : Lent}
    (h : Purged cfg.sizes E p q s₀ s (pre ++ (a, le) :: post)) :
    ∃ t pre', purgeAny cfg s le = some t ∧ Purged cfg.sizes E p q s₀ t (pre' ++ post) := by
  obtain ⟨k, o⟩ := le
  obtain ⟨c, hc, hlent⟩ := (h.inv.mem_iff a ⟨k, o⟩).mp (by simp)
  have hhere : Purged cfg.sizes E p q s₀ s ((pre ++ [(a, ⟨k, o⟩)]) ++ post) := by simpa using h
  cases hlocal : c.localAt o with
  | true => exact ⟨s, _, by simp [Dns.purgeAny, hc, hlocal], hhere⟩
  | false =>
      have hflag : c.flags.isLocal = false := (Bool.or_eq_false_iff.mp hlocal).2
      have hend : ∀ {t : Cache} {pre₁ : List (Addr × Lent)} {d : Cent},
          Purged cfg.sizes E p q s₀ t (pre₁ ++ post) → t.find k = some d →
          (∀ y ∈ post, d.lentOf none ≠ some y.1) → d.flags.isLocal = false →
          ∃ u pre', (if d.numRrs = 0 then delCacheEnt cfg t d.qname.fold d else some t) = some u ∧
            Purged cfg.sizes E p q s₀ u (pre' ++ post) := by
        intro t pre₁ d ht hd hpost hdlocal
        split_ifs with hcond
        · exact ht.delEmpty hE hd hcond hpost fun _ => hdlocal ▸ hq d.arm
        · exact ⟨t, pre₁, rfl, ht⟩
      cases o with
      | none =>
          obtain ⟨u, pre', hu, hpurged⟩ := hend hhere hc (by
            intro y hy heq
            rw [hlent] at heq
            cases heq
            exact h.split_ne y hy rfl) hflag
          exact ⟨u, pre', by simpa [Dns.purgeAny, hc, hlocal] using hu, hpurged⟩
      | some i =>
          obtain ⟨t, ht, hpurged, hfind⟩ := h.delSlot hc (by
            intro r hr
            simp only [Cent.localAt, Option.mem_def.mp hr] at hlocal
            exact hp r (by simpa using (Bool.or_eq_false_iff.mp hlocal).1))
          have hnone := Cent.lentOf_none_of_rrset (Cent.has_of_lentOf hlent)
          obtain ⟨-, hlocal', -, -⟩ := Cent.withoutRrset_frame c cfg.sizes i
          obtain ⟨u, pre', hu, hpurged'⟩ := hend hpurged hfind (by
            intro y _
            rw [Cent.lentOf_withoutRrset, Function.update_of_ne (by simp), hnone]
            simp) (hlocal'.trans hflag)
          refine ⟨u, pre', ?_, hpurged'⟩
          simp only [Dns.purgeAny, hc, hlocal, ht, hfind, Option.bind_eq_bind, Option.bind_some]
          simpa using hu

omit hE in
theorem Purged.of_inv {sz : Sizes} {xs : List (Addr × Lent)} (h : Inv sz E s xs ∅)
    (hsized : Sized s) : Purged sz E p q s s xs :=
  ⟨h, hsized, Cache.Thins.refl s, rfl⟩

theorem purgeCache_spec {xs : List (Addr × Lent)} (h : Inv cfg.sizes E s xs ∅)
    (hsized : Sized s) (hsort : s.insertSort = true)
    (hp : ∀ r : RrSet, r.flags.isLocal = false → p r) (hq : ∀ a, q false a)
    (now limit : Int) (lazy : Bool) :
    ∃ t ys, purgeCache cfg now s limit lazy = some t ∧ Purged cfg.sizes E p q s t ys := by
  have hrep : ∀ t ys, Purged cfg.sizes E p q s t ys → t.rrl.Represents ys :=
    fun _ _ h => h.inv.represents
  obtain ⟨t, ys, ht, hpurged⟩ := walkAll_spec
    (fun s => !lazy || decide (limit < s.cacheSize)) (purgeOld cfg now) hrep
    (fun _ _ _ _ _ hJ => hJ.purgeOld hE (fun r hr => hp r (RrSet.isLocal_of_purgeable hr))
      fun c hneg hc => Cent.isLocal_of_needless hc hneg ▸ hq c.arm) (Purged.of_inv h hsized)
  obtain ⟨u, zs, hu, hpurged'⟩ := walkAll_spec (fun s => decide (limit < s.cacheSize))
    (purgeAny cfg) hrep (fun _ _ _ _ _ hJ => hJ.purgeAny hE hp hq) hpurged
  rw [purgeCache, ht]
  simp only [Option.bind_eq_bind, Option.bind_some, hpurged.insertSort, hsort, if_true, hu]
  split_ifs
  · exact ⟨t, ys, rfl, hpurged⟩
  · exact ⟨u, zs, rfl, hpurged'⟩

end Turns

section Order

variable {sz : Sizes} {cfg : CacheConfig} {E : Int × Int → Prop} {p : RrSet → Prop}
  {q : Bool → Arm → Prop} {s t : Cache} {xs ys : List (Addr × Lent)} {P Q : Set Lent}

theorem Cent.Thins.tsOf {c d : Cent} (h : c.Thins p d) {o : Option Slot}
    (hhas : d.has o = true) : d.tsOf o = c.tsOf o := by
  cases o with
  | none =>
      have hneg : c.negative = true := h.negative.symm.trans hhas
      simp only [Cent.tsOf, h.arm hneg]
  | some i =>
      rcases h.rrset i with heq | ⟨hnone, -⟩
      · simp only [Cent.tsOf, heq]
      · simp [Cent.has, hnone] at hhas

theorem Inv.keeps_of_thins (hs : Inv sz E s xs P) (ht : Inv sz E t ys Q)
    (hsort : t.insertSort = s.insertSort) (hshrinks : Shrinks s.rrl t.rrl)
    (hthins : s.Thins p q t) : s.Keeps t := by
  refine hs.keeps_of_shrinks ht hsort hshrinks fun k o d hd hlent => ?_
  obtain ⟨a, ha⟩ := Option.isSome_iff_exists.mp hlent
  have hto := hthins k
  rw [hd] at hto
  rw [lentTs_eq, lentTs_eq, hd]
  generalize hsk : s.find k = v at hto
  cases hto with
  | kept h =>
      simp only [Option.bind_some]
      exact h.tsOf (Cent.has_of_lentOf ha)

theorem Purged.keeps (h : Purged sz E p q s t ys) (hs : Inv sz E s xs ∅)
    (hshrinks : Shrinks s.rrl t.rrl) : s.Keeps t :=
  hs.keeps_of_thins h.inv h.insertSort hshrinks h.thins

end Order

section Entry

variable {cfg : CacheConfig} {E : Int × Int → Prop} {p : RrSet → Prop}
  {q : Bool → Arm → Prop} {s : Cache} {xs : List (Addr × Lent)} {k : Key} {c : Cent}

theorem Cent.Thins.rrset_none {d : Cent} (h : c.Thins p d) {i : Slot} (hi : c.rrset i = none) :
    d.rrset i = none := by
  rcases h.rrset i with heq | ⟨hnone, -⟩
  · exact heq.trans hi
  · exact hnone

/-- The loop of `purge_all_rrsets`: a record set that stays is counted. -/
theorem Inv.purgeLoop {P : Set Lent} {now : Int}
    (hp : ∀ r : RrSet, r.purgeable now = true → p r) (is : List Slot) {n m : Nat}
    (h : Inv cfg.sizes E s xs P) (hc : s.find k = some c) :
    ∃ t ys d n' m', is.foldlM (purgeStep cfg now k) (s, n, m) = some (t, n', m') ∧
      Inv cfg.sizes E t ys P ∧ Touches s t k d ∧ t.cacheSize = s.cacheSize - c.cs + d.cs ∧
      c.Thins p d ∧ n ≤ n' ∧ m ≤ m' ∧
      ∀ i ∈ is, (d.rrset i).isSome → 0 < n' ∧ (nrrmu ≤ i.val → 0 < m') := by
  induction is generalizing s xs c n m with
  | nil =>
      exact ⟨s, xs, c, n, m, rfl, h, Touches.refl hc, by omega, .refl c, Nat.le_refl n,
        Nat.le_refl m, by simp⟩
  | cons i is ih =>
      cases hr : c.rrset i with
      | none =>
          obtain ⟨t, ys, d, n', m', ht, hinv, htouch, hsize, hthins, hn, hm, hcount⟩ :=
            ih (n := n) (m := m) h hc
          refine ⟨t, ys, d, n', m', ?_, hinv, htouch, hsize, hthins, hn, hm, ?_⟩
          · simpa [purgeStep, hc, hr] using ht
          · refine List.forall_mem_cons.mpr ⟨fun hsome => ?_, hcount⟩
            simp [hthins.rrset_none hr] at hsome
      | some r =>
          cases hpurge : r.purgeable now with
          | true =>
              have hpi : ∀ r' ∈ c.rrset i, p r' := by
                intro r' hr'
                cases hr.symm.trans hr'
                exact hp r hpurge
              obtain ⟨s₁, hs₁, hinv₁, htouch₁, hsize₁⟩ := h.delSlot hc i
              obtain ⟨t, ys, d, n', m', ht, hinv, htouch, hsize, hthins, hn, hm, hcount⟩ :=
                ih (n := n) (m := m) hinv₁ htouch₁.find_self
              refine ⟨t, ys, d, n', m', ?_, hinv, htouch₁.trans htouch, by omega,
                (Cent.Thins.withoutRrset c cfg.sizes i hpi).trans hthins, hn, hm, ?_⟩
              · simpa [purgeStep, hc, hr, hpurge, hs₁] using ht
              · refine List.forall_mem_cons.mpr ⟨fun hsome => ?_, hcount⟩
                simp [hthins.rrset_none (i := i) (by simp [Cent.rrset_withoutRrset])] at hsome
          | false =>
              obtain ⟨t, ys, d, n', m', ht, hinv, htouch, hsize, hthins, hn, hm, hcount⟩ :=
                ih (n := n + 1) (m := if nrrmu ≤ i.val then m + 1 else m) h hc
              refine ⟨t, ys, d, n', m', ?_, hinv, htouch, hsize, hthins, by omega, ?_, ?_⟩
              · simpa [purgeStep, hc, hr, hpurge] using ht
              · split_ifs at hm <;> omega
              · refine List.forall_mem_cons.mpr ⟨fun _ => ⟨by omega, fun hi => ?_⟩, hcount⟩
                rw [if_pos hi] at hm
                omega

theorem Cent.ext_of_negative (h : c.negative = true) : c.ext = false := by
  obtain ⟨qname, cs, numRrs, dflags, arm, cNs, cSoa⟩ := c
  cases arm with
  | neg => rfl
  | rr => cases h

/-- The array `rrext` is freed when nothing is in it. -/
theorem Cent.freeExt_spec (sz : Sizes) (hext : c.ext = true)
    (hnone : ∀ i : Slot, nrrmu ≤ i.val → c.rrset i = none) :
    (c.freeExt sz).rrset = c.rrset ∧ (c.freeExt sz).lentOf = c.lentOf ∧
      (c.freeExt sz).qname = c.qname ∧ (c.freeExt sz).flags = c.flags ∧
      (c.freeExt sz).negative = c.negative ∧ (c.freeExt sz).surplus sz = c.surplus sz ∧
      (c.freeExt sz).cs = c.cs - sz.pointer * nrrext := by
  obtain ⟨qname, cs, numRrs, dflags, arm, cNs, cSoa⟩ := c
  cases arm with
  | neg => cases hext
  | rr a =>
      have hrrset : a.freeExt.slots = a.slots := by
        funext i
        change (if i.val < nrrmu then a.slots i else none) = a.slots i
        split_ifs with hi
        · rfl
        · exact (hnone i (Nat.le_of_not_lt hi)).symm
      have hsame : (Cent.freeExt ⟨qname, cs, numRrs, dflags, .rr a, cNs, cSoa⟩ sz).rrset =
          Cent.rrset ⟨qname, cs, numRrs, dflags, .rr a, cNs, cSoa⟩ := hrrset
      refine ⟨hsame, ?_, rfl, rfl, rfl, ?_, rfl⟩
      · funext o
        cases o with
        | none => rfl
        | some i => rw [lentOf_some, lentOf_some, hsame]
      · simp only [surplus, count, size, measure, hsame]
        have : a.ext = true := hext
        simp only [Cent.freeExt, extSize, Cent.ext, this, RrArray.freeExt, Prod.mk.injEq, true_and]
        simp
        omega

theorem Inv.purgeAllRrsets {P : Set Lent} (h : Inv cfg.sizes E s xs P) (hc : s.find k = some c)
    {now : Int} (hp : ∀ r : RrSet, r.purgeable now = true → p r) :
    ∃ t ys d n, purgeAllRrsets cfg now s k = some (t, n) ∧ Inv cfg.sizes E t ys P ∧
      Touches s t k d ∧ t.cacheSize = s.cacheSize - c.cs + d.cs ∧ c.Thins p d ∧
      (n = 0 → ∀ i, d.rrset i = none) := by
  obtain ⟨t, ys, d, n, m, ht, hinv, htouch, hsize, hthins, -, -, hcount⟩ :=
    h.purgeLoop hp (List.finRange _) (n := 0) (m := 0) hc
  have hnone : ∀ i, (n = 0 ∨ nrrmu ≤ i.val ∧ m = 0) → d.rrset i = none := by
    intro i hi
    by_contra hne
    have := hcount i (List.mem_finRange i) (Option.isSome_iff_ne_none.mpr hne)
    omega
  cases hfree : d.ext && m == 0 with
  | false =>
      refine ⟨t, ys, d, n, ?_, hinv, htouch, hsize, hthins, fun hn i => hnone i (Or.inl hn)⟩
      simp only [Dns.purgeAllRrsets, ht, Option.bind_eq_bind, Option.bind_some, htouch.find_self]
      simp [hfree]
  | true =>
      rw [Bool.and_eq_true, beq_iff_eq] at hfree
      obtain ⟨hrrset, hlent, hname, hflags, hneg, hsurplus, hcs⟩ := Cent.freeExt_spec cfg.sizes
        hfree.1 fun i hi => hnone i (Or.inr ⟨hi, hfree.2⟩)
      refine ⟨{ t with cacheSize := t.cacheSize - cfg.sizes.pointer * nrrext }.put k
        (d.freeExt cfg.sizes), ys, d.freeExt cfg.sizes, n, ?_, ?_,
        htouch.trans (Touches.of_insert rfl rfl rfl), ?_, ?_, ?_⟩
      · simp only [Dns.purgeAllRrsets, ht, Option.bind_eq_bind, Option.bind_some,
          htouch.find_self]
        simp [hfree]
      · refine hinv.update (Cache.find_put _ _ _) ?_ (SameElse.refl k ys) ?_ fun _ _ => Iff.rfl
        · simp only [Option.bind_some, hlent]
          exact hinv.owns htouch.find_self
        · rintro e ⟨⟩
          refine (hinv.ok k d htouch.find_self).of_same hname hsurplus hlent ?_
          funext o
          cases o <;> simp only [Cent.listed, hrrset, hneg, hflags]
      · change t.cacheSize - _ = _
        omega
      · refine hthins.trans ⟨hname, ?_, by rw [hflags], hneg, fun hdneg => ?_, fun i => Or.inl ?_⟩
        · rw [hcs]
          have hpointers := Int.natCast_nonneg (cfg.sizes.pointer * nrrext)
          push_cast at hpointers
          omega
        · rw [Cent.ext_of_negative hdneg] at hfree
          cases hfree.1
        · rw [hrrset]
      · rw [hrrset]
        exact fun hn i => hnone i (Or.inl hn)

/-- `purge_cent` keeps the invariant, and the entry unless it may remove it. -/
theorem purgeCent_spec (h : Inv cfg.sizes E s xs ∅) (hsized : Sized s) (hc : s.find k = some c)
    {now : Int} (hp : ∀ r : RrSet, r.purgeable now = true → p r)
    (hq : ∀ c : Cent, c.negative = true → c.needless now = true → q c.flags.isLocal c.arm)
    (delete : Bool) :
    ∃ t ys b, purgeCent cfg now delete s k = some (t, b) ∧ Purged cfg.sizes E p q s t ys ∧
      (delete = false → ∃ d, t.find k = some d) := by
  obtain ⟨t, ys, d, n, ht, hinv, htouch, hsize, hthins, hnone⟩ := h.purgeAllRrsets hc hp
  have hsized' := htouch.sized hsized hc hsize
  have hd := htouch.find_self
  have hcache : s.Thins p q t := .of_update htouch.find (hc ▸ .kept hthins)
  simp only [purgeCent, ht, Option.bind_eq_bind, Option.bind_some, hd]
  split_ifs with hdel hlocal
  · simp only [Bool.and_eq_true, beq_iff_eq] at hdel
    obtain ⟨u, hu, hinv', hsized'', hfind, hsort⟩ := hinv.delCacheEnt hsized' hd
    rw [← (hinv.ok k d hd).name] at hu
    refine ⟨u, _, true, by rw [hu]; rfl, ⟨hinv', hsized'', hcache.trans ?_, ?_⟩, ?_⟩
    · refine .of_update hfind (hd ▸ .gone (fun i r hr => ?_) fun hneg => hq d hneg hdel.2)
      rw [hnone hdel.1.2 i] at hr
      cases hr
    · exact hsort.trans htouch.insertSort
    · rw [hdel.1.1]
      exact fun hfalse => by cases hfalse
  · exact ⟨t, ys, false, rfl, ⟨hinv, hsized', hcache, htouch.insertSort⟩, fun _ => ⟨d, hd⟩⟩
  · -- the references are no part of the invariant
    set e := { d with
      cNs := refreshRef now t d d.cNs slotNS
      cSoa := refreshRef now (t.put k { d with cNs := refreshRef now t d d.cNs slotNS })
        { d with cNs := refreshRef now t d d.cNs slotNS } d.cSoa slotSOA } with he
    have htouch' : Touches t (t.put k e) k e := .of_insert rfl rfl rfl
    refine ⟨t.put k e, ys, false, rfl, ⟨?_, ?_, ?_, ?_⟩, fun _ => ⟨e, htouch'.find_self⟩⟩
    · have hown : Owns t.rrl ys k d.lentOf := hinv.owns hd
      refine hinv.update htouch'.find hown (SameElse.refl k ys) ?_ fun _ _ => Iff.rfl
      rintro _ ⟨⟩
      exact (hinv.ok k d hd).congr rfl rfl rfl rfl rfl
    · refine htouch'.sized hsized' hd ?_
      change t.cacheSize = t.cacheSize - d.cs + d.cs
      omega
    · refine hcache.trans (.of_update htouch'.find (hd ▸ .kept ?_))
      exact ⟨rfl, Int.le_refl _, rfl, rfl, fun _ => rfl, fun _ => Or.inl rfl⟩
    · exact htouch.insertSort

end Entry

end TorAndroid.Dns
