import TorAndroid.Dns.BoundedCache

namespace TorAndroid.Dns

open TorAndroid.Lib.LinkedCells TorAndroid.Lib.DoublyLinked

/-- No two record sets of an entry conflict, those with `CF_NEGATIVE` left out. -/
def Cent.ConflictFree (c : Cent) : Prop :=
  ∀ i j, i ≠ j → ∀ r ∈ c.rrset i, ∀ r' ∈ c.rrset j, r.flags.negative = false →
    r'.flags.negative = false → conflicts i j = false

def Cache.ConflictFree (s : Cache) : Prop :=
  ∀ k c, s.find k = some c → c.ConflictFree

/-- Every record set of `d` is one of `c`, as far as conflicts go. -/
def Cent.Within (c d : Cent) : Prop :=
  ∀ i, ∀ r ∈ d.rrset i, ∃ r' ∈ c.rrset i, r'.flags.negative = r.flags.negative

/-- Nothing was added to the cache. -/
def Cache.Within (s t : Cache) : Prop :=
  ∀ k d, t.find k = some d → ∃ c, s.find k = some c ∧ c.Within d

theorem conflicts_comm (i j : Slot) : conflicts i j = conflicts j i :=
  Bool.or_comm _ _

section Within

variable {s t u : Cache} {c d e : Cent} {k : Key}

theorem Cent.Within.refl (c : Cent) : c.Within c :=
  fun _ r hr => ⟨r, hr, rfl⟩

theorem Cent.Within.trans (h₁ : c.Within d) (h₂ : d.Within e) : c.Within e := by
  intro i r hr
  obtain ⟨r', hr', hneg⟩ := h₂ i r hr
  obtain ⟨r'', hr'', hneg'⟩ := h₁ i r' hr'
  exact ⟨r'', hr'', hneg'.trans hneg⟩

theorem Cent.Within.of_rrset (h : ∀ i, d.rrset i = c.rrset i ∨ d.rrset i = none) : c.Within d := by
  intro i r hr
  rcases h i with heq | hnone
  · exact ⟨r, heq ▸ hr, rfl⟩
  · rw [hnone] at hr
    cases hr

theorem Cent.Within.of_copy (h : copyCent d = copyCent c) : c.Within d := by
  intro i r hr
  have hi := congrArg (fun e => e.rrset i) h
  simp only [rrset_copyCent, Option.mem_def.mp hr, Option.map_some] at hi
  obtain ⟨r', hr', hbare⟩ := Option.map_eq_some_iff.mp hi.symm
  exact ⟨r', hr', congrArg (fun r => r.flags.negative) hbare⟩

theorem Cent.ConflictFree.within (h : c.ConflictFree) (hd : c.Within d) : d.ConflictFree := by
  intro i j hij r hr r' hr' hneg hneg'
  obtain ⟨r₁, hr₁, heq⟩ := hd i r hr
  obtain ⟨r₂, hr₂, heq'⟩ := hd j r' hr'
  exact h i j hij r₁ hr₁ r₂ hr₂ (heq.trans hneg) (heq'.trans hneg')

theorem Cache.Within.refl (s : Cache) : s.Within s :=
  fun _ c hc => ⟨c, hc, .refl c⟩

theorem Cache.Within.trans (h₁ : s.Within t) (h₂ : t.Within u) : s.Within u := by
  intro k e he
  obtain ⟨d, hd, hwithin⟩ := h₂ k e he
  obtain ⟨c, hc, hwithin'⟩ := h₁ k d hd
  exact ⟨c, hc, hwithin'.trans hwithin⟩

theorem Cache.Within.of_find (h : t.find = s.find) : s.Within t :=
  fun _ c hc => ⟨c, h ▸ hc, .refl c⟩

theorem Cache.Within.update (hc : s.find k = some c)
    (hfind : t.find = Function.update s.find k (some d)) (hd : c.Within d) : s.Within t :=
  Cache.forall_find_update hfind (fun _ _ e he => ⟨e, he, .refl e⟩) ⟨c, hc, hd⟩

theorem Cache.Within.erase (hfind : t.find = Function.update s.find k none) : s.Within t :=
  fun _ e he => ⟨e, Cache.find_of_update_none hfind he, .refl e⟩

theorem Cache.ConflictFree.update (h : s.ConflictFree)
    (hfind : t.find = Function.update s.find k (some d)) (hd : d.ConflictFree) :
    t.ConflictFree :=
  Cache.forall_find_update hfind (fun k' _ => h k') hd

theorem Cache.ConflictFree.within (h : s.ConflictFree) (ht : s.Within t) : t.ConflictFree := by
  intro k d hd
  obtain ⟨c, hc, hwithin⟩ := ht k d hd
  exact (h k c hc).within hwithin

end Within

section Purge

variable {cfg : CacheConfig} {s t : Cache} {c : Cent} {k : Key} {i : Slot} {now : Int}

theorem within_delSlot (hc : s.find k = some c)
    (h : delSlot cfg s k c i = some t) : s.Within t := by
  refine .update hc (Counted.find_delSlot h) (.of_rrset fun j => ?_)
  rw [Cent.rrset_withoutRrset]
  by_cases hj : j = i
  · exact .inr (hj ▸ Function.update_self ..)
  · exact .inl (Function.update_of_ne hj ..)

theorem within_delCacheEnt (h : delCacheEnt cfg s k c = some t) : s.Within t :=
  .erase (Counted.find_delCacheEnt h)

theorem within_purgeRrset (h : purgeRrset cfg now s k i = some t) : s.Within t := by
  simp only [purgeRrset, Option.bind_eq_bind, Option.bind_eq_some_iff] at h
  obtain ⟨c, hc, h⟩ := h
  split at h
  · exact within_delSlot hc h
  · cases h
    exact .refl s

theorem within_purgeOld {le : Lent} (h : purgeOld cfg now s le = some t) : s.Within t := by
  simp only [purgeOld, Option.bind_eq_bind, Option.bind_eq_some_iff] at h
  obtain ⟨c, hc, h⟩ := h
  split at h
  · cases h
    exact .refl s
  obtain ⟨u, hu, d, -, h⟩ : ∃ u, s.Within u ∧ ∃ d,
      u.find le.cent = some d ∧ (if (decide (d.numRrs = 0) && d.needless now) = true then
        delCacheEnt cfg u d.qname.fold d else some u) = some t := by
    split at h
    · simp only [Option.bind_eq_some_iff] at h
      obtain ⟨u, hu, h⟩ := h
      exact ⟨u, within_purgeRrset hu, h⟩
    · simp only [Option.bind_some, Option.bind_eq_some_iff] at h
      exact ⟨s, .refl s, h⟩
  split at h
  · exact hu.trans (within_delCacheEnt h)
  · cases h
    exact hu

theorem within_purgeAny {le : Lent} (h : purgeAny cfg s le = some t) : s.Within t := by
  simp only [purgeAny, Option.bind_eq_bind, Option.bind_eq_some_iff] at h
  obtain ⟨c, hc, h⟩ := h
  split at h
  · cases h
    exact .refl s
  obtain ⟨u, hu, d, -, h⟩ : ∃ u, s.Within u ∧ ∃ d,
      u.find le.cent = some d ∧ (if d.numRrs = 0 then
        delCacheEnt cfg u d.qname.fold d else some u) = some t := by
    split at h
    · simp only [Option.bind_eq_some_iff] at h
      obtain ⟨u, hu, h⟩ := h
      exact ⟨u, within_delSlot hc hu, h⟩
    · simp only [Option.bind_some, Option.bind_eq_some_iff] at h
      exact ⟨s, .refl s, h⟩
  split at h
  · exact hu.trans (within_delCacheEnt h)
  · cases h
    exact hu

theorem within_walkRrl {cond : Cache → Bool} {body : Cache → Lent → Option Cache}
    (hbody : ∀ s le t, body s le = some t → s.Within t) {n : Nat} {a : Option Addr}
    (h : walkRrl cond body n s a = some t) : s.Within t := by
  induction n generalizing s a with
  | zero => cases h
  | succ n ih =>
      cases a with
      | none =>
          cases h
          exact .refl _
      | some a =>
          rw [walkRrl] at h
          split at h
          · simp only [Option.bind_eq_bind, Option.bind_eq_some_iff] at h
            obtain ⟨le, -, u, hu, h⟩ := h
            exact (hbody s le.val u hu).trans (ih h)
          · cases h
            exact .refl _

/-- `purge_cache` adds nothing, in any state. -/
theorem within_purgeCache {limit : Int} {lazy : Bool}
    (h : purgeCache cfg now s limit lazy = some t) : s.Within t := by
  simp only [purgeCache, Option.bind_eq_bind, Option.bind_eq_some_iff] at h
  obtain ⟨u, hu, h⟩ := h
  have hfirst := within_walkRrl (fun _ _ _ => within_purgeOld) hu
  split at h
  · cases h
    exact hfirst
  obtain ⟨v, hv, h⟩ : ∃ v, v.find = u.find ∧
      walkAll (fun s => decide (limit < s.cacheSize)) (purgeAny cfg) v = some t := by
    split at h
    · exact ⟨u, rfl, h⟩
    · simp only [Option.bind_eq_some_iff, Option.map_eq_some_iff, sortRrl, Option.bind_eq_bind] at h
      obtain ⟨v, ⟨w, ⟨order, -, hw⟩, rfl⟩, h⟩ := h
      cases hw
      refine ⟨_, ?_, h⟩
      rfl
  exact (hfirst.trans (.of_find hv)).trans (within_walkRrl (fun _ _ _ => within_purgeAny) h)

theorem within_purgeStep {x y : Cache × Nat × Nat} (h : purgeStep cfg now k x i = some y) :
    x.1.Within y.1 := by
  simp only [purgeStep, Option.bind_eq_bind, Option.bind_eq_some_iff] at h
  obtain ⟨c, hc, h⟩ := h
  split at h
  · cases h
    exact .refl _
  · split at h
    · rw [Option.bind_eq_some_iff] at h
      obtain ⟨u, hdel, h⟩ := h
      cases h
      exact within_delSlot hc hdel
    · cases h
      exact .refl _

theorem Cent.within_freeExt (c : Cent) (sz : Sizes) : c.Within (c.freeExt sz) := by
  refine .of_rrset fun i => ?_
  obtain ⟨qname, cs, numRrs, dflags, arm, cNs, cSoa⟩ := c
  cases arm with
  | neg => exact .inl rfl
  | rr a =>
      by_cases hi : i.val < nrrmu
      · exact .inl (if_pos hi)
      · exact .inr (if_neg hi)

theorem within_purgeAllRrsets {n : Nat} (h : purgeAllRrsets cfg now s k = some (t, n)) :
    s.Within t := by
  simp only [purgeAllRrsets, Option.bind_eq_bind, Option.bind_eq_some_iff] at h
  obtain ⟨⟨u, n', m⟩, hu, c, hc, h⟩ := h
  have hloop : s.Within u := foldlM_rel (R := fun x y : Cache × Nat × Nat => x.1.Within y.1)
    (fun _ => .refl _) (fun _ _ _ => Cache.Within.trans) (fun _ _ _ => within_purgeStep) hu
  split at h
  · cases h
    exact hloop.trans (.update hc (Cache.find_put _ _ _) (c.within_freeExt _))
  · cases h
    exact hloop

theorem within_purgeCent {delete b : Bool} (h : purgeCent cfg now delete s k = some (t, b)) :
    s.Within t := by
  simp only [purgeCent, Option.bind_eq_bind, Option.bind_eq_some_iff] at h
  obtain ⟨⟨u, n⟩, hu, c, hc, h⟩ := h
  have hpurge := within_purgeAllRrsets hu
  split at h
  · rw [Option.bind_eq_some_iff] at h
    obtain ⟨v, hv, h⟩ := h
    cases h
    exact hpurge.trans (within_delCacheEnt hv)
  · split at h
    · cases h
      exact hpurge
    · cases h
      exact hpurge.trans (.update hc (Cache.find_put _ _ _) (.of_rrset fun _ => .inl rfl))

end Purge

section Merge

variable {cfg : CacheConfig} {s t : Cache} {c d new : Cent} {k : Key} {i : Slot} {now : Int}
  {l l' : Rrl}

theorem rrset_dropConflicts {old : List (Slot × RrSet)}
    (h : old.foldlM (dropConflict cfg) (l, c) = some (l', d)) (j : Slot) :
    d.rrset j = if j ∈ old.map Prod.fst then none else c.rrset j := by
  induction old generalizing l c with
  | nil =>
      cases h
      simp
  | cons x old ih =>
      rw [List.foldlM_cons, Option.bind_eq_bind, Option.bind_eq_some_iff] at h
      obtain ⟨⟨m, e⟩, hdrop, h⟩ := h
      simp only [dropConflict, delCentRrsetByIndex_eq, Option.bind_eq_bind, Option.bind_eq_some_iff,
        Option.map_eq_some_iff] at hdrop
      obtain ⟨-, ⟨m', -, rfl⟩, heq⟩ := hdrop
      cases heq
      rw [ih h, Cent.rrset_withoutRrset]
      by_cases hj : j = x.1
      · simp [hj]
      · simp only [List.map_cons, List.mem_cons, hj, false_or, Function.update_of_ne hj]

theorem mem_conflicting {x : Slot × RrSet} :
    x ∈ conflicting c i ↔
      c.rrset x.1 = some x.2 ∧ x.2.flags.negative = false ∧ conflicts i x.1 = true := by
  obtain ⟨j, r⟩ := x
  simp only [conflicting, List.mem_filterMap]
  constructor
  · rintro ⟨j', -, hj⟩
    cases hr : c.rrset j' with
    | none => simp [hr] at hj
    | some r' =>
        simp only [hr] at hj
        split_ifs at hj with hcond
        cases hj
        simpa [hr] using hcond
  · rintro ⟨hr, hneg, hconf⟩
    exact ⟨j, List.mem_finRange j, by simp [hr, hneg, hconf]⟩

/-- What `cr_check_add` leaves does not conflict with the record set it lets in. -/
theorem crCheckAdd_clears {ttl : Int} {flags : CFlags} {ok : Bool}
    (h : crCheckAdd cfg now l c i ttl flags = some (l', d, ok)) :
    (∀ j, d.rrset j = c.rrset j ∨ d.rrset j = none) ∧
      (ok = true → flags.negative = false → ∀ j, ∀ r ∈ d.rrset j, r.flags.negative = false →
        conflicts i j = false) := by
  rw [crCheckAdd] at h
  split_ifs at h with hneg hlocal hany hempty hremove
  · cases h
    exact ⟨fun j => .inl rfl, fun _ hfalse => by rw [hneg] at hfalse; cases hfalse⟩
  · cases h
    exact ⟨fun j => .inl rfl, fun hfalse => by cases hfalse⟩
  · cases h
    exact ⟨fun j => .inl rfl, fun hfalse => by cases hfalse⟩
  · cases h
    -- there is no conflict
    rw [Bool.and_eq_true, List.isEmpty_iff] at hempty
    refine ⟨fun j => .inl rfl, fun _ _ j r hr hpositive => ?_⟩
    by_contra hconf
    have hmem : (j, r) ∈ conflicting c i :=
      mem_conflicting.mpr ⟨hr, hpositive, by simpa using hconf⟩
    rw [hempty.2] at hmem
    cases hmem
  · simp only [Option.bind_eq_bind, Option.bind_eq_some_iff] at h
    obtain ⟨⟨m, e⟩, hdrop, heq⟩ := h
    cases heq
    have hrrset := rrset_dropConflicts hdrop
    refine ⟨fun j => ?_, fun _ _ j r hr hpositive => ?_⟩
    · rw [hrrset]
      split_ifs
      · exact .inr rfl
      · exact .inl rfl
    · rw [hrrset] at hr
      split_ifs at hr with hj
      · cases hr
      · by_contra hconf
        refine hj (List.mem_map.mpr ⟨(j, r), ?_, rfl⟩)
        exact mem_conflicting.mpr ⟨hr, hpositive, by simpa using hconf⟩
  · cases h
    exact ⟨fun j => .inl rfl, fun hfalse => by cases hfalse⟩

/-- A record set comes to an entry in which nothing conflicts with it. -/
theorem Cent.ConflictFree.put (h : c.ConflictFree) {v : RrSet} {i : Slot}
    (hrrset : d.rrset = Function.update c.rrset i (some v))
    (hclear : v.flags.negative = false → ∀ j, ∀ r ∈ c.rrset j, r.flags.negative = false →
      conflicts i j = false) : d.ConflictFree := by
  intro j j' hne r hr r' hr' hneg hneg'
  rw [hrrset] at hr hr'
  by_cases hj : j = i
  · subst hj
    rw [Function.update_self] at hr
    rw [Function.update_of_ne hne.symm] at hr'
    cases hr
    exact hclear hneg j' r' hr' hneg'
  · rw [Function.update_of_ne hj] at hr
    by_cases hj' : j' = i
    · subst hj'
      rw [Function.update_self] at hr'
      cases hr'
      rw [conflicts_comm]
      exact hclear hneg' j r hr hneg
    · rw [Function.update_of_ne hj'] at hr'
      exact h j j' hne r hr r' hr' hneg hneg'

theorem rrset_appendRrs (sz : Sizes) (c : Cent) (i : Slot) (rrs : List (List UInt8)) :
    (appendRrs sz c i rrs).rrset =
      Function.update c.rrset i ((c.rrset i).map fun r => { r with rrs := r.rrs ++ rrs }) := by
  induction rrs generalizing c with
  | nil =>
      have hsame : (c.rrset i).map (fun r => { r with rrs := r.rrs ++ [] }) = c.rrset i := by
        cases c.rrset i <;> simp
      rw [hsame, Function.update_eq_self]
      rfl
  | cons data rrs ih =>
      refine (ih _).trans ?_
      rw [Cent.rrset_appendRr, Function.update_self, Function.update_idem, Option.map_map]
      congr 2
      funext r
      simp

/-- A turn of the loop of `add_cache` over the new record sets. -/
theorem addSlot_conflictFree (h : addSlot cfg now k new s i = some t) (hs : s.ConflictFree) :
    t.ConflictFree := by
  simp only [addSlot, Option.bind_eq_bind, Option.bind_eq_some_iff] at h
  obtain ⟨c, hc, h⟩ := h
  cases hr : new.rrset i with
  | none =>
      simp only [hr, Option.some.injEq] at h
      exact h ▸ hs
  | some r =>
      simp only [hr] at h
      split_ifs at h with hkeep
      · cases h
        exact hs
      · simp only [delCentRrsetByIndex_eq, Option.bind_eq_some_iff, Option.map_eq_some_iff] at h
        obtain ⟨-, ⟨l₁, -, rfl⟩, ⟨l₂, e, ok⟩, hcheck, h⟩ := h
        obtain ⟨hsub, hclear⟩ := crCheckAdd_clears hcheck
        have hwithin : c.Within e := by
          refine .of_rrset fun j => ?_
          rcases hsub j with heq | hnone
          · rw [heq, Cent.rrset_withoutRrset]
            by_cases hj : j = i
            · exact .inr (hj ▸ Function.update_self ..)
            · exact .inl (Function.update_of_ne hj ..)
          · exact .inr hnone
        have hfree := (hs k c hc).within hwithin
        cases ok with
        | false =>
            simp only [Bool.not_false, if_true, Option.some.injEq] at h
            subst h
            exact hs.update (Cache.find_put _ _ _) hfree
        | true =>
            simp only [Bool.not_true, Bool.false_eq_true, if_false, addCentRrsetByIndex_eq,
              Option.bind_eq_some_iff, Option.map_eq_some_iff] at h
            obtain ⟨-, ⟨l₃, -, rfl⟩, h⟩ := h
            obtain ⟨d, hfind, hcopy⟩ := insertRrl_filled h
              (by rw [Cache.find_put, Function.update_self])
            refine hs.update (by rw [hfind, Cache.find_put, Function.update_idem]; rfl)
              (Cent.ConflictFree.within ?_ (.of_copy hcopy))
            refine hfree.put (i := i) (v := adjustTtl cfg ⟨none, r.ttl, r.ts, r.flags, r.rrs⟩) ?_
              fun hneg => hclear rfl ?_
            · rw [Cent.rrset_modifyRrset, rrset_appendRrs, Cent.rrset_withRrset]
              simp only [Function.update_self, Function.update_idem, Option.map_some,
                List.nil_append]
            · exact
                (adjustTtl_frame cfg ⟨none, r.ttl, r.ts, r.flags, r.rrs⟩).2.2.2.2.symm.trans hneg

theorem addExisting_conflictFree (h : addExisting cfg now s new = some t) (hs : s.ConflictFree) :
    t.ConflictFree := by
  simp only [addExisting, Option.bind_eq_bind, Option.bind_eq_some_iff] at h
  obtain ⟨⟨u, b⟩, hu, c, hc, v, hv, d, hd, heq⟩ := h
  cases heq
  have hpurged := hs.within (within_purgeCent hu)
  have hmerged : v.ConflictFree := foldlM_rel
    (R := fun x y : Cache => x.ConflictFree → y.ConflictFree) (fun _ => id)
    (fun _ _ _ hxy hyz hx => hyz (hxy hx)) (fun _ _ _ hturn => addSlot_conflictFree hturn) hv
    (fun k c hc => hpurged k c hc)
  refine hmerged.within (.update (k := new.qname.fold) (d := { d with
    flags := { d.flags with
      auth := d.flags.auth || new.flags.auth
      wild := d.flags.wild || new.flags.wild }
    cNs := mergeRef d.cNs new.cNs
    cSoa := mergeRef d.cSoa new.cSoa }) hd ?_ (.of_rrset fun _ => .inl rfl))
  exact Cache.find_put _ _ _

theorem addNew_conflictFree (h : addNew cfg s new = some t) (hs : s.ConflictFree)
    (hnew : new.ConflictFree) : t.ConflictFree := by
  have hadjusted : (adjustCent cfg (copyCent new)).ConflictFree := by
    refine hnew.within fun i r hr => ?_
    rw [(adjustCent_frame cfg _).2.2.2.2.2.2, Cent.rrset_copyCent, Option.map_map, Option.mem_def,
      Option.map_eq_some_iff] at hr
    obtain ⟨r', hr', rfl⟩ := hr
    exact ⟨r', hr', (adjustTtl_frame cfg r'.bare).2.2.2.2.symm⟩
  have hinsert : ∀ {u v : Cache} {le : Lent}, insertRrl u le = some v → u.Within v := by
    intro u v le hv
    have hfound : ∃ c, u.find le.cent = some c := by
      simp only [insertRrl, Option.bind_eq_bind, Option.bind_eq_some_iff] at hv
      obtain ⟨c, hc, -⟩ := hv
      exact ⟨c, hc⟩
    obtain ⟨c, hc⟩ := hfound
    obtain ⟨d, hfind, hcopy⟩ := insertRrl_filled hv hc
    exact .update hc hfind (.of_copy hcopy)
  have hslots : ∀ {u v : Cache}, (List.finRange _).foldlM (insertSlot new.qname.fold) u = some v →
      u.Within v := by
    intro u v hv
    refine foldlM_rel (R := Cache.Within) .refl (fun _ _ _ => .trans) (fun w i x hx => ?_) hv
    simp only [insertSlot, Option.bind_eq_bind, Option.bind_eq_some_iff] at hx
    obtain ⟨c, -, hx⟩ := hx
    split at hx
    · exact hinsert hx
    · cases hx
      exact .refl w
  have hstored : ({ s with entNum := s.entNum + 1 }.put new.qname.fold
      (adjustCent cfg (copyCent new))).ConflictFree :=
    hs.update (Cache.find_put _ _ _) hadjusted
  rw [addNew] at h
  simp only [Option.bind_eq_bind] at h
  split at h
  all_goals
    obtain ⟨u, hu, heq⟩ := Option.bind_eq_some_iff.mp h
    cases heq
  · exact fun k d hd => hstored.within (hinsert hu) k d hd
  · exact fun k d hd => hstored.within (hslots hu) k d hd

/-- What `add_cache` stores, merges or leaves out, no entry holds record sets that conflict.
The call does not fail in a cache that is linked as it should be. -/
theorem addCache_conflictFree (cfg : CacheConfig) (now : Int) (s : Cache) (new : Cent)
    (hs : s.ConflictFree) (hnew : new.ConflictFree) :
    (∀ t, addCache cfg now s new = some t → t.ConflictFree) ∧
      (Good cfg NoDeficit s → 0 ≤ new.surplus cfg.sizes → (addCache cfg now s new).isSome) := by
  refine ⟨fun t ht => ?_, fun hgood hsurplus => ?_⟩
  · rw [addCache] at ht
    cases hfind : s.find new.qname.fold with
    | none =>
        simp only [hfind] at ht
        split_ifs at ht
        · exact hs.within (within_purgeCache ht)
        · obtain ⟨u, hu, ht⟩ := Option.bind_eq_some_iff.mp ht
          exact (addNew_conflictFree hu hs hnew).within (within_purgeCache ht)
    | some c =>
        simp only [hfind] at ht
        split_ifs at ht
        · cases ht
          exact hs
        · simp only [Option.bind_eq_bind, Option.bind_eq_some_iff] at ht
          obtain ⟨u, hu, v, hv, ht⟩ := ht
          exact (addNew_conflictFree hv (hs.within (within_delCacheEnt hu)) hnew).within
            (within_purgeCache ht)
        · obtain ⟨u, hu, ht⟩ := Option.bind_eq_some_iff.mp ht
          exact (addExisting_conflictFree hu hs).within (within_purgeCache ht)
  · obtain ⟨-, t, ht, -⟩ := addCache_spec (p := fun _ => True) (q := fun _ _ => True)
      (fun _ => NoDeficit.fst) (fun _ _ => trivial) (fun _ => trivial) hgood hsurplus now
    rw [ht]
    rfl

end Merge

section Example

theorem conflictFree_empty : Cache.empty.ConflictFree := by
  intro k c hc
  cases hc

/-- An entry with one record set, of one record. -/
def singleCent (i : Slot) (ttl : Int) (data : List UInt8) : Cent :=
  appendRr exampleConfig.sizes
    ((initCent exampleConfig.sizes exampleName false 0 0 ⟨false, false, false, false⟩).withRrset
      exampleConfig.sizes i ttl 1000 ⟨false, false, false, false, false, false, false⟩)
    i data

theorem conflictFree_singleCent (i : Slot) (ttl : Int) (data : List UInt8) :
    (singleCent i ttl data).ConflictFree := by
  have hnone : ∀ j, j ≠ i → (singleCent i ttl data).rrset j = none := by
    intro j hj
    rw [singleCent, Cent.rrset_appendRr, Function.update_of_ne hj, Cent.rrset_withRrset,
      Function.update_of_ne hj]
    rfl
  intro j j' hne r hr r' hr' _ _
  by_cases hj : j = i
  · rw [hnone j' fun hj' => hne (hj.trans hj'.symm)] at hr'
    cases hr'
  · rw [hnone j hj] at hr
    cases hr

/-- An alias of the name. -/
def newAlias (ttl : Int) : Cent :=
  singleCent ⟨2, by decide⟩ ttl [1, 97, 0]

/-- An address of the name. -/
def newAddress (ttl : Int) : Cent :=
  singleCent slotA ttl [10, 0, 0, 1]

/-- The types of which the entry for the name holds a record set. -/
def heldSlots (s : Cache) : List Slot :=
  (List.finRange _).filter fun i => (s.find exampleName.fold).any fun c => (c.rrset i).isSome

/-- An alias of a name, and then its address, which drives it out. -/
theorem addCache_conflictFree_addressAfterAlias :
    ∃ s t, addCache exampleConfig 1000 Cache.empty (newAlias 300) = some s ∧
      addCache exampleConfig 1100 s (newAddress 3000) = some t ∧
      conflicts ⟨2, by decide⟩ ⟨0, by decide⟩ = true ∧ heldSlots s = [⟨2, by decide⟩] ∧
      heldSlots t = [⟨0, by decide⟩] ∧ t.ConflictFree := by
  have hvalues : ((addCache exampleConfig 1000 Cache.empty (newAlias 300)).bind
      fun s => (addCache exampleConfig 1100 s (newAddress 3000)).map
        fun t => (heldSlots s, heldSlots t)) =
      some ([⟨2, by decide⟩], [⟨0, by decide⟩]) := by
    decide +kernel
  obtain ⟨s, hs, hvalues⟩ := Option.bind_eq_some_iff.mp hvalues
  obtain ⟨t, ht, hvalues⟩ := Option.map_eq_some_iff.mp hvalues
  obtain ⟨hheld, hheld'⟩ := Prod.mk.inj hvalues
  obtain ⟨hfree, -⟩ := addCache_conflictFree exampleConfig 1000 Cache.empty
    (newAlias 300) conflictFree_empty (conflictFree_singleCent _ _ _)
  exact ⟨s, t, hs, ht, by decide, hheld, hheld', (addCache_conflictFree exampleConfig 1100 s _
    (hfree s hs) (conflictFree_singleCent _ _ _)).1 t ht⟩

end Example

end TorAndroid.Dns
