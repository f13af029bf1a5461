import TorAndroid.Dns.PurgeBounds

namespace TorAndroid.Dns

open TorAndroid.Lib.LinkedCells TorAndroid.Lib.DoublyLinked TorAndroid.Lib.GuardedRun

/-- Some record set of the entry stays when the entry is purged. -/
def Cent.HasCurrent (now : Int) (c : Cent) : Prop :=
  ∃ i, ∃ r ∈ c.rrset i, r.purgeable now = false

/-- An entry that is handed to `add_cache`: its record sets are counted right if it is stored
as it is, and it has a record set if its name has an entry in which nothing stays. -/
def Cache.Admits (s : Cache) (now : Int) (new : Cent) : Prop :=
  new.negative = true ∨
    match s.find new.qname.fold with
    | none => new.numRrs = new.count
    | some c => (∃ i, (new.rrset i).isSome) ∨ c.flags.isLocal = true ∨ c.negative = true ∨
        c.HasCurrent now

/-- The calls after which every entry can be evicted. `invalidate_record`, which changes
timestamps, is not among them. -/
def Admitted (cfg : CacheConfig) (s : Cache) : Op → Prop
  | .add now e => ∀ l new, e.build cfg.sizes s.rrl = some (l, new) → s.Admits now new
  | .invalidate _ => False
  | _ => True

section Filling

variable {cfg : CacheConfig} {s t : Cache} {k : Key} {c d new : Cent} {now : Int} {i : Slot}

theorem Cent.Filled.of_copy (h : c.Filled) (hcopy : copyCent d = copyCent c) : d.Filled := by
  have hrrset : ∀ i, (d.rrset i).isSome = (c.rrset i).isSome := by
    intro i
    have hi := congrArg (fun e => (e.rrset i).isSome) hcopy
    simpa [rrset_copyCent] using hi
  obtain ⟨-, -, -, hflags, hneg, -⟩ := copyCent_frame d
  obtain ⟨-, -, -, hflags', hneg', -⟩ := copyCent_frame c
  rw [hcopy] at hflags hneg
  exact h.congr (congrArg DFlags.isLocal (hflags.symm.trans hflags')) (hneg.symm.trans hneg') hrrset

theorem Cent.negTimes_isSome (c : Cent) : c.negTimes.isSome = c.negative := by
  obtain ⟨qname, cs, numRrs, dflags, arm, cNs, cSoa⟩ := c
  cases arm <;> rfl

theorem Cent.filled_of_rrset (h : (c.rrset i).isSome) : c.Filled :=
  filled_iff.mpr (.inr (.inr ⟨i, h⟩))

/-- A new record set is only refused for a local entry, or because of another record set. -/
theorem filled_of_crCheckAdd {l l' : Rrl} {ttl : Int} {flags : CFlags}
    (h : crCheckAdd cfg now l c i ttl flags = some (l', d, false)) : d.Filled := by
  have hold : ∀ x, x ∈ conflicting c i → c.Filled := fun x hx =>
    Cent.filled_of_rrset (i := x.1) (by rw [rrset_of_mem_conflicting hx]; rfl)
  rw [crCheckAdd] at h
  split_ifs at h with _ hlocal hany hempty hremove
  · cases h
  · cases h
    rw [Bool.and_eq_true] at hlocal
    exact .inl hlocal.2
  · cases h
    rw [Bool.and_eq_true, List.any_eq_true] at hany
    obtain ⟨-, x, hx, -⟩ := hany
    exact hold x hx
  · cases h
  · simp only [Option.bind_eq_bind, Option.bind_eq_some_iff] at h
    obtain ⟨x, -, heq⟩ := h
    cases heq
  · cases h
    rw [Bool.or_eq_true, not_or, Bool.not_eq_true] at hremove
    rw [hremove.1, Bool.not_false, Bool.true_and, List.isEmpty_iff] at hempty
    obtain ⟨x, hx⟩ := List.exists_mem_of_ne_nil _ hempty
    exact hold x hx

theorem isSome_appendRrs (sz : Sizes) (c : Cent) (i j : Slot) (rrs : List (List UInt8)) :
    ((appendRrs sz c i rrs).rrset j).isSome = (c.rrset j).isSome := by
  induction rrs generalizing c with
  | nil => rfl
  | cons data rrs ih =>
      have hturn : ((appendRr sz c i data).rrset j).isSome = (c.rrset j).isSome := by
        rw [Cent.rrset_appendRr]
        by_cases hj : j = i
        · subst hj
          simp
        · rw [Function.update_of_ne hj]
      exact (ih _).trans hturn

theorem insertRrl_filled {le : Lent} (h : insertRrl s le = some t)
    (hc : s.find le.cent = some c) :
    ∃ d, t.find = Function.update s.find le.cent (some d) ∧ copyCent d = copyCent c := by
  simp only [insertRrl, hc, Option.bind_eq_bind, Option.bind_some] at h
  split_ifs at h
  · cases h
    exact ⟨c, by rw [← hc, Function.update_eq_self], rfl⟩
  · obtain ⟨x, -, h⟩ := Option.bind_eq_some_iff.mp h
    obtain ⟨l, -, h⟩ := Option.bind_eq_some_iff.mp h
    cases h
    exact ⟨_, Cache.find_put _ _ _, copyCent_setLent c _ _⟩

/-- After a turn of the loop of `add_cache` the entry holds something if it did before, or if
there was something to add. -/
theorem addSlot_filled (h : addSlot cfg now k new s i = some t) (hc : s.find k = some c) :
    ∃ d, t.find = Function.update s.find k (some d) ∧
      (c.Filled ∨ (new.rrset i).isSome → d.Filled) := by
  have hstay : s.find = Function.update s.find k (some c) := by rw [← hc, Function.update_eq_self]
  simp only [addSlot, hc, Option.bind_eq_bind, Option.bind_some] at h
  cases hr : new.rrset i with
  | none =>
      simp only [hr, Option.some.injEq] at h
      subst h
      exact ⟨c, hstay, by simp⟩
  | some r =>
      simp only [hr] at h
      split_ifs at h with hkeep
      · cases h
        refine ⟨c, hstay, fun _ => Cent.filled_of_rrset (i := i) ?_⟩
        obtain ⟨old, hold, -⟩ := (Option.any_eq_true ..).mp hkeep
        rw [hold]
        rfl
      · obtain ⟨⟨l₁, c₁, n⟩, -, h⟩ := Option.bind_eq_some_iff.mp h
        obtain ⟨⟨l₂, c₂, ok⟩, hcheck, h⟩ := Option.bind_eq_some_iff.mp h
        cases ok with
        | false =>
            simp only [Bool.not_false, if_true, Option.some.injEq] at h
            subst h
            exact ⟨c₂, Cache.find_put _ _ _, fun _ => filled_of_crCheckAdd hcheck⟩
        | true =>
            simp only [Bool.not_true, Bool.false_eq_true, if_false] at h
            obtain ⟨⟨l₃, c₃⟩, hadd, h⟩ := Option.bind_eq_some_iff.mp h
            rw [addCentRrsetByIndex_eq, Option.map_eq_some_iff] at hadd
            obtain ⟨l, -, heq⟩ := hadd
            cases heq
            obtain ⟨d, hfind, hcopy⟩ := insertRrl_filled h
              (by rw [Cache.find_put, Function.update_self])
            refine ⟨d, by rw [hfind, Cache.find_put, Function.update_idem]; rfl, fun _ => ?_⟩
            refine Cent.Filled.of_copy (Cent.filled_of_rrset (i := i) ?_) hcopy
            rw [Cent.rrset_modifyRrset, Function.update_self, Option.isSome_map, isSome_appendRrs,
              Cent.rrset_withRrset, Function.update_self]
            rfl

theorem addSlots_filled {is : List Slot} (h : is.foldlM (addSlot cfg now k new) s = some t)
    (hc : s.find k = some c) :
    ∃ d, t.find = Function.update s.find k (some d) ∧
      ((c.Filled ∨ ∃ i ∈ is, (new.rrset i).isSome) → d.Filled) := by
  induction is generalizing s c with
  | nil =>
      cases h
      exact ⟨c, by rw [← hc, Function.update_eq_self], by simp⟩
  | cons i is ih =>
      rw [List.foldlM_cons, Option.bind_eq_bind, Option.bind_eq_some_iff] at h
      obtain ⟨u, hu, h⟩ := h
      obtain ⟨e, hfind, hfilled⟩ := addSlot_filled hu hc
      obtain ⟨d, hfind', hfilled'⟩ := ih h (by rw [hfind, Function.update_self])
      refine ⟨d, by rw [hfind', hfind, Function.update_idem], fun hor => hfilled' ?_⟩
      rw [List.exists_mem_cons_iff, ← or_assoc] at hor
      exact hor.imp_left hfilled

/-- What `purge_cent` leaves when it may not remove the entry. -/
theorem purgeCent_filled {b : Bool} (h : purgeCent cfg now false s k = some (t, b))
    (hc : s.find k = some c) (hk : c.qname.fold = k) :
    ∃ d, t.find = Function.update s.find k (some d) ∧
      (c.flags.isLocal = true ∨ c.negative = true ∨ c.HasCurrent now → d.Filled) := by
  rw [← Counted.purgeCent_uncounted, Option.map_eq_some_iff] at h
  obtain ⟨⟨u, x⟩, h, heq⟩ := h
  cases heq
  obtain ⟨hx, hpurged, -⟩ := Counted.purgeCent_real hc hk h
  obtain ⟨d, hd⟩ := hpurged (by
    rw [hx, Counted.predicted]
    simp only [Bool.false_and, Bool.false_eq_true, if_false]
    split_ifs <;> omega)
  refine ⟨d, hk ▸ hd.find, fun hor => Cent.filled_iff.mpr ?_⟩
  refine hor.imp hd.isLocal.trans (Or.imp (fun hneg => ?_) ?_)
  · rw [← Cent.negTimes_isSome, hd.negTimes, Cent.negTimes_isSome, hneg]
  · rintro ⟨i, r, hr, hstay⟩
    refine ⟨i, ?_⟩
    rw [hd.rrset, Option.mem_def.mp hr, Counted.isSome_leave, Option.any_some, hstay]
    rfl

/-- An entry that `purge_cent` may remove stays only if it holds something. -/
theorem purgeCent_keeps_filled {b : Bool} (hs : s.Filled)
    (h : purgeCent cfg now true s k = some (t, b)) (hc : s.find k = some c)
    (hk : c.qname.fold = k) : t.Filled := by
  rw [← Counted.purgeCent_uncounted, Option.map_eq_some_iff] at h
  obtain ⟨⟨u, x⟩, h, heq⟩ := h
  cases heq
  obtain ⟨hx, hpurged, hgone⟩ := Counted.purgeCent_real hc hk h
  by_cases hneg : x < 0
  · intro k' d hd
    exact hs k' d (Cache.find_of_update_none (hgone hneg) hd)
  · obtain ⟨d, hd⟩ := hpurged (Int.not_lt.mp hneg)
    refine Cache.forall_find_update hd.find (fun k' _ => hs k') ?_
    rw [Cent.filled_iff]
    rw [hx, Counted.predicted] at hneg
    by_contra hempty
    rw [not_or, not_or, not_exists] at hempty
    -- nothing stays, and the entry is not needed
    have hneedless : c.needless now = true := by
      rw [← hd.needless]
      have hpositive := hempty.2.1
      obtain ⟨qname, cs, numRrs, dflags, arm, cNs, cSoa⟩ := d
      cases arm with
      | neg => exact absurd rfl hpositive
      | rr => rfl
    have hnone : (Counted.allCount now c).2 = 0 := by
      simp only [Counted.allCount, Counted.tallyAll, Counted.tally_eq, Nat.zero_add,
        List.countP_eq_zero]
      intro i _
      rw [← hd.rrset]
      exact hempty.2.2 i
    simp [hneedless, hnone] at hneg

end Filling

section Operations

variable {cfg : CacheConfig} {s t : Cache} {now : Int} {new : Cent}

theorem Good.mono {E E' : Int × Int → Prop} (hE : ∀ x, E x → E' x) (h : Good cfg E s) :
    Good cfg E' s := by
  obtain ⟨xs, hinv, hsized, hsort⟩ := h
  exact ⟨xs, ⟨hinv.represents, hinv.mem_iff, fun k c hc =>
    ⟨(hinv.ok k c hc).name, hE _ (hinv.ok k c hc).surplus, (hinv.ok k c hc).linked⟩⟩, hsized, hsort⟩

/-- A cache from which a purge can evict whatever is not local, the oldest first. -/
structure Evictable (cfg : CacheConfig) (s : Cache) : Prop where
  good : Good cfg Exact s
  filled : s.Filled
  oldest : s.OldestFirst

theorem Evictable.purge (h : Evictable cfg s) {limit : Int} {lazy : Bool}
    (ht : purgeCache cfg now s limit lazy = some t) : Evictable cfg t := by
  obtain ⟨turns, u, hbounds, hgood, hfilled, hold⟩ :=
    purgeCache_bounds h.good h.filled h.oldest now limit lazy
  obtain rfl : u = t := Option.some.inj (hbounds.purge.symm.trans ht)
  exact ⟨hgood, hfilled, hold⟩

theorem Cache.Filled.update {k : Key} {d : Cent} (h : s.Filled)
    (hfind : t.find = Function.update s.find k (some d)) (hd : d.Filled) : t.Filled :=
  Cache.forall_find_update hfind (fun k' _ => h k') hd

theorem Evictable.addNew (h : Evictable cfg s) (hc : s.find new.qname.fold = none)
    (hfilled : new.Filled) (hsurplus : Exact (new.surplus cfg.sizes))
    (ht : addNew cfg s new = some t) : Evictable cfg t := by
  obtain ⟨xs, hinv, hsized, hsort⟩ := h.good
  obtain ⟨u, ys, d, hu, hinv', hsized', hsort', hfind, hcopy, hold⟩ :=
    addNew_spec hinv hsized hc hsurplus
  obtain rfl : u = t := Option.some.inj (hu.symm.trans ht)
  refine ⟨⟨ys, hinv', hsized', hsort'.trans hsort⟩, h.filled.update hfind ?_, hold h.oldest⟩
  refine Cent.Filled.of_copy ?_ hcopy
  obtain ⟨-, -, hneg, -, hlocal, -, hrrset⟩ := adjustCent_frame cfg (copyCent new)
  have hcopied : (copyCent new).Filled := by
    obtain ⟨-, -, -, hflags, hneg', -⟩ := Cent.copyCent_frame new
    refine hfilled.congr (congrArg DFlags.isLocal hflags) hneg' fun i => ?_
    rw [Cent.rrset_copyCent, Option.isSome_map]
  refine hcopied.congr hlocal hneg fun i => ?_
  rw [hrrset, Option.isSome_map]

/-- `add_cache` leaves something in an entry if the new one or the purge of the old one does. -/
theorem find_addExisting {c : Cent} (ht : addExisting cfg now s new = some t)
    (hc : s.find new.qname.fold = some c) (hname : c.qname.fold = new.qname.fold) :
    ∃ d, t.find = Function.update s.find new.qname.fold (some d) ∧
      ((∃ i, (new.rrset i).isSome) ∨ c.flags.isLocal = true ∨ c.negative = true ∨
        c.HasCurrent now → d.Filled) := by
  rw [Dns.addExisting] at ht
  simp only [Option.bind_eq_bind, Option.bind_eq_some_iff] at ht
  obtain ⟨⟨v, b⟩, hv, c₂, hc₂, w, hw, d, hd, heq⟩ := ht
  obtain ⟨e, hfind, hfilled⟩ := purgeCent_filled hv hc hname
  obtain ⟨e', hfind', hfilled'⟩ := addSlots_filled hw hc₂
  have he : c₂ = e := by
    rw [hfind, Function.update_self] at hc₂
    exact (Option.some.inj hc₂).symm
  have he' : d = e' := by
    rw [hfind', Function.update_self] at hd
    exact (Option.some.inj hd).symm
  subst he he'
  cases heq
  refine ⟨{ d with
    flags := { d.flags with
      auth := d.flags.auth || new.flags.auth
      wild := d.flags.wild || new.flags.wild }
    cNs := mergeRef d.cNs new.cNs
    cSoa := mergeRef d.cSoa new.cSoa }, ?_, fun hkeep => ?_⟩
  · refine (Cache.find_put _ _ _).trans ?_
    rw [hfind', Function.update_idem]
    change Function.update v.find _ _ = _
    rw [hfind, Function.update_idem]
  · refine Cent.Filled.congr (hfilled' ?_) rfl rfl fun _ => rfl
    rcases hkeep with ⟨i, hi⟩ | hrest
    · exact .inr ⟨i, List.mem_finRange i, hi⟩
    · exact .inl (hfilled hrest)

theorem Evictable.addExisting {c : Cent} (h : Evictable cfg s) (hc : s.find new.qname.fold = some c)
    (hkeep : (∃ i, (new.rrset i).isSome) ∨ c.flags.isLocal = true ∨ c.negative = true ∨
      c.HasCurrent now) (ht : addExisting cfg now s new = some t) : Evictable cfg t := by
  obtain ⟨xs, hinv, hsized, hsort⟩ := h.good
  obtain ⟨u, ys, s₁, c₁, d, hu, hinv', hsized', hsort', -, -, -, -, hold⟩ :=
    addExisting_spec (p := fun _ => True) (q := fun _ _ => True) now hinv hsized hc
      (fun _ _ => trivial) fun _ _ _ => trivial
  obtain rfl : u = t := Option.some.inj (hu.symm.trans ht)
  refine ⟨⟨ys, hinv', hsized', hsort'.trans hsort⟩, ?_, hold h.oldest⟩
  obtain ⟨e, hfind, hfillede⟩ := find_addExisting ht hc (hinv.ok _ c hc).name
  exact h.filled.update hfind (hfillede hkeep)

theorem Evictable.addCache (h : Evictable cfg s) (hadmitted : s.Admits now new)
    (hnum : new.negative = true → new.numRrs = 0) (hcs : 0 ≤ (new.surplus cfg.sizes).2)
    (ht : addCache cfg now s new = some t) : Evictable cfg t := by
  have hnegative : new.negative = true → new.Filled ∧ Exact (new.surplus cfg.sizes) := by
    intro hneg
    refine ⟨Cent.filled_iff.mpr (.inr (.inl hneg)), ?_, hcs⟩
    change new.numRrs - new.count = 0
    rw [hnum hneg, Cent.count, Cent.measure_eq_zero (Cent.rrset_of_negative hneg)]
    rfl
  rw [Dns.addCache] at ht
  cases hfind : s.find new.qname.fold with
  | none =>
      simp only [hfind] at ht
      split_ifs at ht with hempty
      · exact h.purge ht
      · obtain ⟨u, hu, ht⟩ := Option.bind_eq_some_iff.mp ht
        refine (h.addNew hfind ?_ ?_ hu).purge ht
        · cases hneg : new.negative with
          | true => exact (hnegative hneg).1
          | false =>
              have hcount := hadmitted.resolve_left (by rw [hneg]; decide)
              simp only [hfind] at hcount
              refine Cent.filled_iff.mpr (.inr (.inr (Cent.exists_rrset_of_count ?_)))
              rw [← hcount]
              exact fun hzero => hempty ⟨hzero, by rw [hneg]; rfl⟩
        · cases hneg : new.negative with
          | true => exact (hnegative hneg).2
          | false =>
              have hcount := hadmitted.resolve_left (by rw [hneg]; decide)
              simp only [hfind] at hcount
              exact ⟨Int.sub_eq_zero.mpr hcount, hcs⟩
  | some c =>
      simp only [hfind] at ht
      split_ifs at ht with hneg hlocal
      · cases ht
        exact h
      · obtain ⟨u', hu', hgood, hufind, hkeeps⟩ := good_delCacheEnt h.good hfind
        simp only [hu', Option.bind_eq_bind, Option.bind_some, Option.bind_eq_some_iff] at ht
        obtain ⟨v, hv, ht⟩ := ht
        have hdeleted : Evictable cfg u' :=
          ⟨hgood, fun k d hd => h.filled k d (Cache.find_of_update_none hufind hd),
            hkeeps.oldestFirst h.oldest⟩
        exact (hdeleted.addNew (by rw [hufind, Function.update_self]) (hnegative hneg).1
          (hnegative hneg).2 hv).purge ht
      · obtain ⟨u, hu, ht⟩ := Option.bind_eq_some_iff.mp ht
        have hkeep := hadmitted.resolve_left hneg
        simp only [hfind] at hkeep
        exact (h.addExisting hfind hkeep hu).purge ht

theorem Evictable.lookup (h : Evictable cfg s) {name : Name} {wild : Bool}
    (ht : lookupCache cfg now s name wild = some t) : Evictable cfg t := by
  obtain ⟨u, hu, hgood, -⟩ := @lookupCache_spec _ _ _ (fun _ => True) (fun _ _ => True) now h.good
    (fun _ _ => trivial) (fun _ _ _ => trivial) name wild
  obtain rfl : u = t := Option.some.inj (hu.symm.trans ht)
  refine ⟨hgood, ?_, lookupCache_order (h.good.mono fun _ => Exact.noDeficit) h.oldest ht⟩
  obtain ⟨xs, hinv, -⟩ := h.good
  rw [lookupCache] at ht
  split at ht
  · cases ht
    exact h.filled
  · rename_i c hentry
    split at ht
    · obtain ⟨⟨v, b⟩, hv, ht⟩ := Option.bind_eq_some_iff.mp ht
      cases ht
      obtain ⟨k, hc⟩ := find_of_lookupEntry hentry
      obtain rfl := (hinv.ok k c hc).name
      exact purgeCent_keeps_filled h.filled hv hc rfl
    · cases ht
      exact h.filled

theorem Evictable.setFlags (h : Evictable cfg s) (name : Name) (auth nocache wild : Bool) :
    Evictable cfg (setCentFlags s name auth nocache wild) := by
  refine ⟨good_setCentFlags h.good name auth nocache wild, ?_,
    setCentFlags_order h.oldest name auth nocache wild⟩
  rw [setCentFlags]
  cases hc : s.find name.fold with
  | none => exact h.filled
  | some c =>
      exact h.filled.update (Cache.find_put _ _ _) ((h.filled _ c hc).congr rfl rfl fun _ => rfl)

/-- A negative entry has no record sets to count. -/
theorem BuildOp.numRrs_run {sz : Sizes} {l m : Rrl} {c d : Cent} {op : BuildOp}
    (h : c.negative = true → c.numRrs = 0) (hrun : op.run sz (l, c) = some (m, d)) :
    d.negative = true → d.numRrs = 0 := by
  have hpositive : ∀ {e : Cent} {i : Slot}, (e.rrset i).isSome → e.negative = true → e.numRrs = 0 :=
    fun hi hneg => by rw [Cent.negative_of_rrset hi] at hneg; cases hneg
  have hadded : ∀ {e : Cent} {i : Slot} {ttl ts : Int} {flags : CFlags},
      ((e.withRrset sz i ttl ts flags).rrset i).isSome := by
    intro e i ttl ts flags
    rw [Cent.rrset_withRrset, Function.update_self]
    rfl
  have happended : ∀ {e : Cent} {i : Slot} {data : List UInt8}, (e.rrset i).isSome →
      ((appendRr sz e i data).rrset i).isSome := by
    intro e i data hi
    rwa [Cent.rrset_appendRr, Function.update_self, Option.isSome_map]
  cases op with
  | rrset i ttl ts flags =>
      rw [BuildOp.run, addCentRrsetByIndex_eq, Option.map_eq_some_iff] at hrun
      obtain ⟨l', -, heq⟩ := hrun
      cases heq
      exact hpositive hadded
  | rr i ttl ts flags data =>
      simp only [BuildOp.run, addCentRr] at hrun
      split at hrun
      · cases hrun
        exact h
      split at hrun
      · rename_i r hr
        have hlower : ((if ttl < r.ttl then c.modifyRrset i fun r => { r with ttl := ttl }
            else c).rrset i).isSome := by
          split_ifs
          · rw [Cent.rrset_modifyRrset, Function.update_self, hr]
            rfl
          · rw [hr]
            rfl
        split at hrun
        · cases hrun
          exact hpositive hlower
        · cases hrun
          exact hpositive (happended hlower)
      · rw [addCentRrsetByIndex_eq] at hrun
        simp only [Option.bind_eq_bind, Option.bind_eq_some_iff, Option.map_eq_some_iff] at hrun
        obtain ⟨-, ⟨l', -, rfl⟩, heq⟩ := hrun
        cases heq
        exact hpositive (happended hadded)
  | negate ttl ts =>
      obtain ⟨qname, cs, numRrs, dflags, arm, cNs, cSoa⟩ := c
      cases arm with
      | neg lent ttl' ts' =>
          cases hrun
          exact fun _ => h rfl
      | rr a =>
          simp only [BuildOp.run, negateCent, Option.bind_eq_bind, Option.bind_eq_some_iff] at hrun
          obtain ⟨x, -, heq⟩ := hrun
          cases heq
          exact fun _ => rfl

theorem Recipe.numRrs_build {sz : Sizes} {l m : Rrl} {e : Recipe} {c : Cent}
    (h : e.build sz l = some (m, c)) : c.negative = true → c.numRrs = 0 :=
  foldlM_rel (R := fun x y : Rrl × Cent => (x.2.negative = true → x.2.numRrs = 0) →
      y.2.negative = true → y.2.numRrs = 0) (fun _ => id) (fun _ _ _ hxy hyz hx => hyz (hxy hx))
    (fun _ _ _ hrun hx => BuildOp.numRrs_run hx hrun) h fun _ => rfl

theorem Evictable.step {op : Op} (h : Evictable cfg s) (hok : Admitted cfg s op)
    (ht : step cfg s op = some t) : Evictable cfg t := by
  cases op with
  | add now e =>
      obtain ⟨c, hc, -, hsurplus, -⟩ := e.build_spec cfg.sizes
      simp only [Dns.step, hc, Option.bind_eq_bind, Option.bind_some] at ht
      exact h.addCache (hok _ _ (hc _)) (Recipe.numRrs_build (hc s.rrl))
        (Prod.le_def.mp hsurplus).2 ht
  | del name =>
      obtain ⟨v, hv, hgood, hkeeps, hsub⟩ := good_delCache h.good name
      cases hv.symm.trans ht
      exact ⟨hgood, fun k c hc => h.filled k c (hsub k c hc), hkeeps.oldestFirst h.oldest⟩
  | invalidate name => exact hok.elim
  | setFlags name auth nocache wild =>
      cases ht
      exact h.setFlags name auth nocache wild
  | empty sla =>
      obtain ⟨v, hv, hgood, hkeeps, hsub⟩ := good_emptyCache h.good sla
      cases hv.symm.trans ht
      exact ⟨hgood, fun k c hc => h.filled k c (hsub k c hc), hkeeps.oldestFirst h.oldest⟩
  | lookup now name wild => exact h.lookup ht
  | purge now limit lazy => exact h.purge ht

theorem evictable_run {hist : List Op} (hrun : Run (step cfg) (Admitted cfg) Cache.empty hist s) :
    Evictable cfg s := by
  refine hrun.invariant (I := fun _ s => Evictable cfg s)
    ⟨good_empty, ?_, fun _ => List.Pairwise.nil⟩ fun _ _ _ _ hI hok ht => hI.step hok ht
  intro k c hc
  cases hc

/-- After every run of calls that `add_cache` should be given, a purge keeps its bounds. -/
theorem purgeCache_bounds_run {hist : List Op}
    (hrun : Run (step cfg) (Admitted cfg) Cache.empty hist s) (now limit : Int) (lazy : Bool) :
    ∃ turns t, PurgeBounds cfg now s limit lazy turns t := by
  have h := evictable_run hrun
  obtain ⟨turns, t, hbounds, -⟩ := purgeCache_bounds h.good h.filled h.oldest now limit lazy
  exact ⟨turns, t, hbounds⟩

end Operations

section Example

/-- Two record sets are stored, and evicted when they may be. -/
theorem purgeCache_bounds_run_twoTypes :
    ∃ s, Run (step exampleConfig) (Admitted exampleConfig) Cache.empty
        [.add 1000 (exampleRecipe [slotNS, slotSOA])] s ∧
      ∃ turns t, PurgeBounds exampleConfig 1100 s 0 true turns t := by
  obtain ⟨s, hs⟩ := Option.isSome_iff_exists.mp (show
    (step exampleConfig Cache.empty (.add 1000 (exampleRecipe [slotNS, slotSOA]))).isSome by
      decide +kernel)
  have hadmitted : Admitted exampleConfig Cache.empty
      (.add 1000 (exampleRecipe [slotNS, slotSOA])) := by
    intro l new hbuild
    obtain ⟨c, hc, -, -, hfresh⟩ := (exampleRecipe [slotNS, slotSOA]).build_spec exampleConfig.sizes
    cases (hc _).symm.trans hbuild
    exact .inr (Int.sub_eq_zero.mp (congrArg Prod.fst (hfresh (by decide))))
  have hrun := Run.start.next hadmitted hs
  exact ⟨s, hrun, purgeCache_bounds_run hrun 1100 0 true⟩

/-- An entry without record sets is added for a name whose only record set is timed out. -/
def emptying : List Op :=
  [.add 1000 (exampleRecipe [slotNS]), .add 5000 (exampleRecipe [])]

/-- The entry that is left has no node on the list. -/
theorem purgeCache_not_bounds_emptying :
    ∃ s, Run (step exampleConfig) Always Cache.empty emptying.reverse s ∧
      ¬∃ turns t, PurgeBounds exampleConfig 5000 s 0 false turns t := by
  have hsome : (execute (step exampleConfig) Always Cache.empty emptying).isSome := by
    decide +kernel
  obtain ⟨s, hs⟩ := Option.isSome_iff_exists.mp hsome
  refine ⟨s, run_of_execute hs, ?_⟩
  rintro ⟨turns, t, hbounds⟩
  have hleft : ((execute (step exampleConfig) Always Cache.empty emptying).bind fun s =>
      (purgeCache exampleConfig 5000 s 0 false).bind fun t =>
        (t.find exampleName.fold).map fun c => (decide (t.cacheSize ≤ 0), c.flags.isLocal,
          (List.finRange _).any fun i => (c.rrset i).isSome)) = some (false, false, false) := by
    decide +kernel
  rw [hs, Option.bind_some, hbounds.purge, Option.bind_some, Option.map_eq_some_iff] at hleft
  obtain ⟨c, hc, heq⟩ := hleft
  simp only [Prod.mk.injEq, decide_eq_false_iff_not] at heq
  obtain ⟨hsize, hlocal, hnone⟩ := heq
  rcases hbounds.bound.resolve_left hsize _ c hc with hl | ⟨i, r, hr, -⟩
  · rw [hlocal] at hl
    cases hl
  · rw [List.any_eq_false] at hnone
    exact hnone i (List.mem_finRange i) (by rw [Option.mem_def.mp hr]; rfl)

end Example

end TorAndroid.Dns
