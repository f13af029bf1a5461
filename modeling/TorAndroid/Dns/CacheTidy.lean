import TorAndroid.Dns.EvictionRun

namespace TorAndroid.Dns

open TorAndroid.Lib.LinkedCells TorAndroid.Lib.DoublyLinked
open TorAndroid.Lib.GuardedRun

section Tidy

/-- No record occurs twice in a record set. -/
def Cent.Distinct (c : Cent) : Prop :=
  ∀ i, ∀ r ∈ c.rrset i, r.rrs.Nodup

/-- A record set as `add_cache` leaves it. -/
structure RrSet.Tidy (r : RrSet) : Prop where
  nodup : r.rrs.Nodup
  nocache : r.flags.nocache = false

def Cache.Tidy (s : Cache) : Prop :=
  ∀ k c, s.find k = some c → ∀ i, ∀ r ∈ c.rrset i, r.Tidy

variable {sz : Sizes} {cfg : CacheConfig} {s t : Cache} {c d new : Cent}

theorem Cent.Distinct.of_update (h : c.Distinct) {i : Slot} {v : Option RrSet}
    (hrrset : d.rrset = Function.update c.rrset i v) (hv : ∀ r ∈ v, r.rrs.Nodup) :
    d.Distinct := by
  intro j r hr
  rw [hrrset] at hr
  by_cases hj : j = i
  · subst hj
    rw [Function.update_self] at hr
    exact hv r hr
  · rw [Function.update_of_ne hj] at hr
    exact h j r hr

theorem Cent.Distinct.withRrset (h : c.Distinct) (i : Slot) (ttl ts : Int) (flags : CFlags) :
    (c.withRrset sz i ttl ts flags).Distinct := by
  refine h.of_update rrset_withRrset ?_
  rintro _ ⟨⟩
  exact List.nodup_nil

theorem Cent.Distinct.appendRr (h : c.Distinct) {i : Slot} {data : List UInt8}
    (hdata : ∀ r ∈ c.rrset i, data ∉ r.rrs) : (appendRr sz c i data).Distinct := by
  refine h.of_update rrset_appendRr fun r hr => ?_
  obtain ⟨r', hr', rfl⟩ := Option.map_eq_some_iff.mp hr
  exact List.Nodup.append (h i r' hr') (List.nodup_singleton data)
    (List.disjoint_singleton.mpr (hdata r' hr'))

theorem BuildOp.distinct_run {l m : Rrl} {op : BuildOp} (h : c.Distinct)
    (hrun : op.run sz (l, c) = some (m, d)) : d.Distinct := by
  cases op with
  | rrset i ttl ts flags =>
      rw [BuildOp.run, addCentRrsetByIndex_eq, Option.map_eq_some_iff] at hrun
      obtain ⟨l', -, heq⟩ := hrun
      cases heq
      exact h.withRrset i ttl ts flags
  | rr i ttl ts flags data =>
      simp only [BuildOp.run, addCentRr] at hrun
      split at hrun
      · cases hrun
        exact h
      split at hrun
      · rename_i r hr
        -- the smaller time to live is kept
        have hlower : (if ttl < r.ttl then c.modifyRrset i fun r => { r with ttl := ttl }
            else c).Distinct ∧ ∀ r' ∈ (if ttl < r.ttl then c.modifyRrset i fun r =>
              { r with ttl := ttl } else c).rrset i, r'.rrs = r.rrs := by
          split_ifs
          · refine ⟨h.of_update Cent.rrset_modifyRrset fun r' hr' => ?_, fun r' hr' => ?_⟩
            · obtain ⟨r₀, hr₀, rfl⟩ := Option.map_eq_some_iff.mp hr'
              exact h i r₀ hr₀
            · rw [Cent.rrset_modifyRrset, Function.update_self, hr] at hr'
              cases hr'
              rfl
          · refine ⟨h, fun r' hr' => ?_⟩
            cases hr.symm.trans hr'
            rfl
        split at hrun
        · cases hrun
          exact hlower.1
        · rename_i hnot
          cases hrun
          exact hlower.1.appendRr fun r' hr' => by rwa [hlower.2 r' hr']
      · rename_i hnone
        rw [addCentRrsetByIndex_eq] at hrun
        simp only [Option.bind_eq_bind, Option.bind_eq_some_iff, Option.map_eq_some_iff] at hrun
        obtain ⟨-, ⟨l', -, rfl⟩, heq⟩ := hrun
        cases heq
        refine (h.withRrset i ttl ts flags).appendRr fun r hr => ?_
        rw [Cent.rrset_withRrset, Function.update_self] at hr
        cases hr
        exact List.not_mem_nil
  | negate ttl ts =>
      have hneg : d.negative = true := by
        obtain ⟨qname, cs, numRrs, dflags, arm, cNs, cSoa⟩ := c
        cases arm with
        | neg =>
            cases hrun
            rfl
        | rr a =>
            simp only [BuildOp.run, negateCent, Option.bind_eq_bind,
              Option.bind_eq_some_iff] at hrun
            obtain ⟨x, -, heq⟩ := hrun
            cases heq
            rfl
      intro i r hr
      rw [Cent.rrset_of_negative hneg] at hr
      cases hr

theorem Recipe.distinct_build {l m : Rrl} {e : Recipe} (h : e.build sz l = some (m, c)) :
    c.Distinct := by
  have hgen : ∀ (ops : List BuildOp) (x : Rrl × Cent), x.2.Distinct →
      ops.foldlM (BuildOp.run sz) x = some (m, c) → c.Distinct := by
    intro ops
    induction ops with
    | nil =>
        rintro x hx ⟨⟩
        exact hx
    | cons op ops ih =>
        intro x hx hrun
        rw [List.foldlM_cons, Option.bind_eq_bind, Option.bind_eq_some_iff] at hrun
        obtain ⟨y, hy, hrest⟩ := hrun
        exact ih y (BuildOp.distinct_run hx hy) hrest
  refine hgen e.ops _ (fun i r hr => ?_) h
  have hnone : (initCent sz e.qname e.negative e.ttl e.ts e.flags).rrset i = none := by
    cases e.negative <;> rfl
  rw [hnone] at hr
  cases hr

theorem RrSet.Tidy.of_bare {r r' : RrSet} (h : r.Tidy) (hbare : r'.bare = r.bare) : r'.Tidy := by
  obtain ⟨lent, ttl, ts, flags, rrs⟩ := r
  obtain ⟨lent', ttl', ts', flags', rrs'⟩ := r'
  simp only [RrSet.bare, RrSet.mk.injEq, true_and] at hbare
  obtain ⟨-, -, rfl, rfl⟩ := hbare
  exact ⟨h.nodup, h.nocache⟩

theorem RrSet.tidy_adjustTtl {r : RrSet} (h : r.rrs.Nodup) : (adjustTtl cfg r).Tidy := by
  refine ⟨(adjustTtl_frame cfg r).2.2.1 ▸ h, ?_⟩
  rw [adjustTtl]
  split_ifs with hnocache
  · rfl
  · simpa using hnocache

theorem tidy_of_thins (h : s.ThinsAny t) (hs : s.Tidy) : t.Tidy := by
  intro k d hd i r hr
  have hk := h k
  rw [hd] at hk
  generalize hc : s.find k = v at hk
  cases hk with
  | kept hthins =>
      rcases hthins.rrset i with heq | ⟨hnone, -⟩
      · exact hs k _ hc i r (heq ▸ hr)
      · rw [hnone] at hr
        cases hr

theorem tidy_of_sub (h : ∀ k d, t.find k = some d → s.find k = some d) (hs : s.Tidy) : t.Tidy :=
  fun k d hd => hs k d (h k d hd)

/-- At most one entry is changed, and its record sets are as they should be. -/
theorem tidy_of_update {k : Key} (hfind : t.find = Function.update s.find k (some d))
    (hs : s.Tidy) (hd : ∀ i, ∀ r ∈ d.rrset i, r.Tidy) : t.Tidy :=
  Cache.forall_find_update hfind (fun k' _ => hs k') hd

theorem tidy_of_adds (h : s.AddsAny cfg new t) (hnew : new.Distinct) (hs : s.Tidy) : t.Tidy := by
  cases h with
  | same => exact hs
  | @stored _ d _ hfind hcopy =>
      refine tidy_of_update hfind hs fun i r hr => ?_
      have hbare : (d.rrset i).map RrSet.bare = _ := (Cent.rrset_copyCent d i).symm
      rw [hcopy, Cent.rrset_copyCent, (adjustCent_frame cfg _).2.2.2.2.2.2, Cent.rrset_copyCent,
        hr] at hbare
      cases hr' : new.rrset i with
      | none => simp [hr'] at hbare
      | some r' =>
          simp only [hr', Option.map_some, Option.some.injEq] at hbare
          exact (RrSet.tidy_adjustTtl (hnew i r' hr')).of_bare (hbare.trans (adjustTtl_bare cfg r'))
  | @merged s₁ _ c d hthins hc _ hfind hmerge =>
      have hs₁ := tidy_of_thins hthins hs
      refine tidy_of_update hfind hs₁ fun i r hr => ?_
      rcases hmerge.rrset i with heq | hnone | ⟨r', hr', heq⟩
      · rw [hr] at heq
        obtain ⟨r', hr', hbare⟩ := exists_of_map_bare heq.symm
        exact (hs₁ _ c hc i r' hr').of_bare hbare.symm
      · rw [hnone] at hr
        cases hr
      · rw [hr] at heq
        exact (RrSet.tidy_adjustTtl (hnew i r' hr')).of_bare (Option.some.inj heq)

theorem tidy_invalidateRecord (hs : s.Tidy) (name : Name) : (invalidateRecord s name).Tidy := by
  rw [invalidateRecord]
  cases hc : s.find name.fold with
  | none => exact hs
  | some c =>
      refine tidy_of_update (Cache.find_put _ _ _) hs fun i r hr => ?_
      have hold := hs _ c hc i
      obtain ⟨qname, cs, numRrs, dflags, arm, cNs, cSoa⟩ := c
      cases arm with
      | neg => cases hr
      | rr a =>
          obtain ⟨r', hr', rfl⟩ := Option.map_eq_some_iff.mp hr
          exact ⟨(hold r' hr').nodup, (hold r' hr').nocache⟩

theorem readEntries_tidy {entries : List (Int × DiskEntry)} (h : Linked cfg s) (hs : s.Tidy)
    (ht : entries.foldlM (readEntry cfg) s = some t) : t.Tidy := by
  induction entries generalizing s with
  | nil =>
      cases ht
      exact hs
  | cons x entries ih =>
      rw [List.foldlM_cons, Option.bind_eq_bind, Option.bind_eq_some_iff] at ht
      obtain ⟨u, hu, hrest⟩ := ht
      refine ih (readEntry_linked h hu).1 ?_ hrest
      obtain ⟨c, hc, hsurplus⟩ := x.2.build_spec cfg.sizes
      rw [readEntry, hc] at hu
      obtain ⟨-, ⟨s₁, hadds, hthins⟩, -⟩ := addCache_linked h hsurplus hu
      refine tidy_of_thins hthins (tidy_of_adds hadds ?_ hs)
      have hbuild := hc s.rrl
      simp only [DiskEntry.build, Option.bind_eq_bind, Option.bind_eq_some_iff] at hbuild
      obtain ⟨⟨m, c'⟩, hrecipe, heq⟩ := hbuild
      cases heq
      have hdistinct : c'.Distinct := Recipe.distinct_build hrecipe
      exact hdistinct

theorem readDiskCache_tidy {file : DiskFile} (h : Good cfg NoDeficit s) (hs : s.Tidy)
    (ht : readDiskCache cfg s file = some t) : t.Tidy := by
  cases file with
  | none =>
      cases ht
      exact hs
  | some entries =>
      simp only [readDiskCache, Option.bind_eq_bind, Option.bind_eq_some_iff] at ht
      obtain ⟨u, hu, hend⟩ := ht
      have hstart := linked_unsorted h
      have htidy := readEntries_tidy hstart hs hu
      split at hend
      · cases hend
        exact htidy
      · rw [Option.map_eq_some_iff] at hend
        obtain ⟨v, hv, rfl⟩ := hend
        obtain ⟨-, hfind, -⟩ := linked_sortRrl (readEntries_linked hstart hu).1 hv
        exact tidy_of_sub (fun k d hd => by rwa [hfind] at hd) htidy

theorem call_tidy {a : Call} (h : Good cfg NoDeficit s) (hs : s.Tidy)
    (ht : call cfg s a = some t) : Good cfg NoDeficit t ∧ t.Tidy := by
  cases a with
  | readDisk file => exact ⟨(readDiskCache_linked h ht).1, readDiskCache_tidy h hs ht⟩
  | op op =>
      refine ⟨good_of_step h ht, ?_⟩
      cases op with
      | add now e =>
          obtain ⟨c, hc, -, hweak, -⟩ := e.build_spec cfg.sizes
          obtain ⟨xs, hinv, hsized, -⟩ := h
          simp only [call, step, hc, Option.bind_eq_bind, Option.bind_some] at ht
          obtain ⟨-, ⟨s₁, hadds, hthins⟩, -⟩ := addCache_linked ⟨xs, hinv, hsized⟩ hweak ht
          exact tidy_of_thins hthins (tidy_of_adds hadds (Recipe.distinct_build (hc s.rrl)) hs)
      | del name =>
          obtain ⟨v, hv, -, -, hsub⟩ := good_delCache h name
          cases hv.symm.trans ht
          exact tidy_of_sub hsub hs
      | invalidate name =>
          cases ht
          exact tidy_invalidateRecord hs name
      | setFlags name auth nocache wild =>
          cases ht
          rw [setCentFlags]
          cases hc : s.find name.fold with
          | none => exact hs
          | some c => exact tidy_of_update (Cache.find_put _ _ _) hs (hs _ c hc)
      | empty sla =>
          obtain ⟨v, hv, -, -, hsub⟩ := good_emptyCache h sla
          cases hv.symm.trans ht
          exact tidy_of_sub hsub hs
      | lookup now name wild =>
          obtain ⟨v, hv, -, hthins⟩ := lookupCache_spec (p := fun _ => True)
            (q := fun _ _ => True) h (fun _ _ => trivial) (fun _ _ _ => trivial) name wild
          cases hv.symm.trans ht
          exact tidy_of_thins hthins hs
      | purge now limit lazy =>
          obtain ⟨xs, hinv, hsized, -⟩ := h
          exact tidy_of_thins (purgeCache_linked ⟨xs, hinv, hsized⟩ ht).2.1 hs

theorem tidy_run {hist : List Call} (hrun : Run (call cfg) Always Cache.empty hist s) :
    Good cfg NoDeficit s ∧ s.Tidy :=
  hrun.invariant (I := fun _ s => Good cfg NoDeficit s ∧ s.Tidy)
    ⟨good_empty, fun k c hc => by simp [Cache.find, Cache.empty] at hc⟩
    fun _ _ _ _ hI _ ht => call_tidy hI.1 hI.2 ht

end Tidy

end TorAndroid.Dns
