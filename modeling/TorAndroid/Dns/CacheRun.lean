import TorAndroid.Dns.CacheAdd

namespace TorAndroid.Dns

open TorAndroid.Lib.LinkedCells TorAndroid.Lib.DoublyLinked

/-- The operations that build an entry: `add_cent_rrset_by_type`, `add_cent_rr` and
`negate_cent`. -/
inductive BuildOp where
  | rrset (i : Slot) (ttl ts : Int) (flags : CFlags)
  | rr (i : Slot) (ttl ts : Int) (flags : CFlags) (data : List UInt8)
  | negate (ttl ts : Int)

/-- How an entry is built: the arguments of `init_cent` and the operations after it. -/
structure Recipe where
  qname : Name
  negative : Bool
  ttl : Int
  ts : Int
  flags : DFlags
  ops : List BuildOp

section Build

variable (sz : Sizes)

def BuildOp.run (x : Rrl × Cent) : BuildOp → Option (Rrl × Cent)
  | .rrset i ttl ts flags => addCentRrsetByIndex sz x.1 x.2 i ttl ts flags
  | .rr i ttl ts flags data => addCentRr sz x.1 x.2 i ttl ts flags data
  | .negate ttl ts => negateCent sz x.1 x.2 ttl ts

def Recipe.build (l : Rrl) (e : Recipe) : Option (Rrl × Cent) :=
  e.ops.foldlM (BuildOp.run sz) (l, initCent sz e.qname e.negative e.ttl e.ts e.flags)

/-- The entry that is built.  It does not depend on the list. -/
def Recipe.cent (e : Recipe) : Option Cent :=
  (e.build sz DList.empty).map Prod.snd

/-- A record set is added by type only where there is none. -/
def BuildOp.fresh (c : Cent) : BuildOp → Bool
  | .rrset i _ _ _ => (c.rrset i).isNone
  | _ => true

/-- Every operation of a list is fresh when it is reached. -/
def freshFrom (x : Rrl × Cent) : List BuildOp → Bool
  | [] => true
  | op :: ops => op.fresh x.2 && (op.run sz x).all fun y => freshFrom y ops

def Recipe.fresh (e : Recipe) : Bool :=
  freshFrom sz (DList.empty, initCent sz e.qname e.negative e.ttl e.ts e.flags) e.ops

end Build

/-- The operations on the cache. -/
inductive Op where
  | add (now : Int) (e : Recipe)
  | del (name : Name)
  | invalidate (name : Name)
  | setFlags (name : Name) (auth nocache wild : Bool)
  | empty (sla : Option (List Slist))
  | lookup (now : Int) (name : Name) (wild : Bool)
  | purge (now limit : Int) (lazy : Bool)

variable (cfg : CacheConfig)

def step (s : Cache) : Op → Option Cache
  | .add now e => do
      let (l, c) ← e.build cfg.sizes s.rrl
      addCache cfg now { s with rrl := l } c
  | .del name => delCache cfg s name
  | .invalidate name => some (invalidateRecord s name)
  | .setFlags name auth nocache wild => some (setCentFlags s name auth nocache wild)
  | .empty sla => emptyCache cfg s sla
  | .lookup now name wild => lookupCache cfg now s name wild
  | .purge now limit lazy => purgeCache cfg now s limit lazy

def run (ops : List Op) : Option Cache :=
  ops.foldlM (step cfg) Cache.empty

section Building

variable {sz : Sizes} {c : Cent}

/-- No node of the list is for the entry. -/
def Cent.Unlisted (c : Cent) : Prop :=
  ∀ o, c.lentOf o = none

theorem unlisted_initCent (qname : Name) (negative : Bool) (ttl ts : Int) (flags : DFlags) :
    (initCent sz qname negative ttl ts flags).Unlisted := by
  intro o
  cases negative <;> cases o <;> rfl

theorem Cent.measure_eq_zero (h : ∀ i, c.rrset i = none) (g : RrSet → Int) : c.measure g = 0 :=
  Finset.sum_eq_zero fun i _ => by rw [h i]; rfl

theorem Cent.surplus_of_empty (h : ∀ i, c.rrset i = none) (hext : c.ext = false) :
    c.surplus sz = (c.numRrs, c.cs - (sz.cent + rhnlen c.qname.wire)) := by
  simp [surplus, count, size, extSize, hext, measure_eq_zero h]

theorem surplus_initCent (qname : Name) (negative : Bool) (ttl ts : Int) (flags : DFlags) :
    (initCent sz qname negative ttl ts flags).surplus sz = 0 := by
  cases negative
  all_goals
    rw [Cent.surplus_of_empty (fun _ => rfl) rfl]
    simp [initCent]

theorem Cent.Unlisted.modifyRrset (h : c.Unlisted) {i : Slot} {f : RrSet → RrSet}
    (hf : ∀ r, (f r).lent = r.lent) : (c.modifyRrset i f).Unlisted := by
  intro o
  rw [lentOf_modifyRrset hf]
  exact h o

theorem Cent.Unlisted.withRrset (h : c.Unlisted) (i : Slot) (ttl ts : Int) (flags : CFlags) :
    (c.withRrset sz i ttl ts flags).Unlisted := by
  intro o
  cases o with
  | none => rfl
  | some j =>
      rw [lentOf_some, rrset_withRrset]
      by_cases hj : j = i
      · simp [hj]
      · rw [Function.update_of_ne hj]
        exact h (some j)

theorem addCentRrsetByIndex_unlisted (sz : Sizes) (h : c.Unlisted) (l : Rrl) (i : Slot)
    (ttl ts : Int)
    (flags : CFlags) :
    addCentRrsetByIndex sz l c i ttl ts flags = some (l, c.withRrset sz i ttl ts flags) := by
  rw [addCentRrsetByIndex_eq, h none]
  rfl

theorem Cent.surplus_withRrset_nonneg (h : 0 ≤ c.surplus sz) (i : Slot) (ttl ts : Int)
    (flags : CFlags) : 0 ≤ (c.withRrset sz i ttl ts flags).surplus sz := by
  obtain ⟨hfirst, hsecond⟩ := Prod.le_def.mp h
  rw [surplus_withRrset]
  cases c.rrset i with
  | none => exact ⟨by simpa using hfirst, by simpa using hsecond⟩
  | some r =>
      have hsize := Int.natCast_nonneg (r.size sz)
      exact ⟨Int.add_nonneg hfirst Int.one_nonneg, Int.add_nonneg hsecond hsize⟩

theorem negateCent_unlisted (h : c.Unlisted) (ttl ts : Int) :
    ∃ d, (∀ l, negateCent sz l c ttl ts = some (l, d)) ∧ d.Unlisted ∧ d.qname = c.qname ∧
      (0 ≤ c.surplus sz → 0 ≤ d.surplus sz) ∧ (c.surplus sz = 0 → d.surplus sz = 0) := by
  obtain ⟨qname, cs, numRrs, dflags, arm, cNs, cSoa⟩ := c
  cases arm with
  | neg lent ttl' ts' =>
      refine ⟨⟨qname, cs, numRrs, dflags, .neg lent ttl ts, cNs, cSoa⟩, fun l => rfl, fun o => ?_,
        rfl, fun hc => hc, fun hc => hc⟩
      cases o with
      | none => exact h none
      | some i => rfl
  | rr a =>
      have hnone : ∀ o ∈ (List.finRange _).map some,
          (fun o : Option Slot => (o.bind a.slots).bind RrSet.lent) o = none := by
        intro o ho
        obtain ⟨i, -, rfl⟩ := List.mem_map.mp ho
        exact h (some i)
      set freed :=
        ((List.finRange _).map fun i => (a.slots i).elim 0 (RrSet.size sz)).sum with hfreed
      have hmeasure : ((freed : Nat) : Int) =
          Cent.measure ⟨qname, cs, numRrs, dflags, .rr a, cNs, cSoa⟩
            fun r => (r.size sz : Int) := by
        rw [hfreed, ← Fin.sum_univ_def, Nat.cast_sum]
        refine Finset.sum_congr rfl fun i _ => ?_
        change _ = (a.slots i).elim 0 _
        cases a.slots i <;> simp
      set d : Cent := ⟨qname, cs - freed - (if a.ext then sz.pointer * nrrext else 0), 0, dflags,
        .neg none ttl ts, cNs, cSoa⟩
      have hsurplus : d.surplus sz =
          (0, (Cent.surplus ⟨qname, cs, numRrs, dflags, .rr a, cNs, cSoa⟩ sz).2) := by
        rw [Cent.surplus_of_empty (fun _ => rfl) rfl]
        simp only [Cent.surplus, Cent.size, Cent.extSize, Cent.ext, ← hmeasure]
        refine Prod.ext rfl ?_
        change cs - freed - ((if a.ext then sz.pointer * nrrext else 0 : Nat) : Int)
          - (sz.cent + rhnlen qname.wire) = cs - (sz.cent + rhnlen qname.wire +
            (if a.ext then (sz.pointer * nrrext : Int) else 0) + freed)
        rw [Nat.cast_ite, Nat.cast_mul, Nat.cast_zero]
        omega
      refine ⟨d, fun l => ?_, fun o => by cases o <;> rfl, rfl, fun hc => ?_, fun hc => ?_⟩
      · simp only [negateCent, delAllRrsets_eq, removeEach_none l hnone]
        rfl
      · rw [hsurplus]
        exact ⟨le_refl 0, (Prod.le_def.mp hc).2⟩
      · rw [hsurplus, hc]
        rfl

theorem Cent.Unlisted.appendRr (h : c.Unlisted) (i : Slot) (data : List UInt8) :
    (appendRr sz c i data).Unlisted := by
  intro o
  exact (h.modifyRrset (i := i) (f := fun r => { r with rrs := r.rrs ++ [data] }) fun _ => rfl) o

theorem addCentRr_unlisted (h : c.Unlisted) (i : Slot) (ttl ts : Int) (flags : CFlags)
    (data : List UInt8) :
    ∃ d, (∀ l, addCentRr sz l c i ttl ts flags data = some (l, d)) ∧ d.Unlisted ∧
      d.qname = c.qname ∧ d.surplus sz = c.surplus sz := by
  cases hignore : c.flags.isLocal && !flags.isLocal with
  | true => exact ⟨c, fun l => by simp [addCentRr, hignore], h, rfl, rfl⟩
  | false =>
      cases hr : c.rrset i with
      | none =>
          have hset := fun l => addCentRrsetByIndex_unlisted sz h l i ttl ts flags
          refine ⟨appendRr sz (c.withRrset sz i ttl ts flags) i data, fun l => ?_,
            (h.withRrset i ttl ts flags).appendRr i data, (Cent.modifyRrset_frame ..).1, ?_⟩
          · simp only [addCentRr, hignore, hr, hset]
            rfl
          · rw [Cent.surplus_appendRr (by simp [Cent.rrset_withRrset]), Cent.surplus_withRrset, hr]
            simp
      | some r =>
          -- the smaller time to live is kept
          obtain ⟨e, he, hunlisted, hname, hsurplus, hsome⟩ : ∃ e,
              e = (if ttl < r.ttl then c.modifyRrset i fun r => { r with ttl := ttl } else c) ∧
              e.Unlisted ∧ e.qname = c.qname ∧ e.surplus sz = c.surplus sz ∧
              (e.rrset i).isSome := by
            refine ⟨_, rfl, ?_⟩
            split_ifs
            · exact ⟨h.modifyRrset fun _ => rfl, (Cent.modifyRrset_frame ..).1,
                Cent.surplus_modifyRrset fun _ => rfl, by simp [Cent.rrset_modifyRrset, hr]⟩
            · exact ⟨h, rfl, rfl, by simp [hr]⟩
          by_cases hmem : data ∈ r.rrs
          · refine ⟨e, fun l => ?_, hunlisted, hname, hsurplus⟩
            simp [addCentRr, hignore, hr, hmem, he]
          · refine ⟨appendRr sz e i data, fun l => ?_, hunlisted.appendRr i data,
              (Cent.modifyRrset_frame ..).1.trans hname, ?_⟩
            · simp [addCentRr, hignore, hr, hmem, he]
            · rw [Cent.surplus_appendRr hsome, hsurplus]

/-- An operation on an entry outside of the cache leaves the list alone. -/
theorem BuildOp.run_spec (sz : Sizes) (h : c.Unlisted) (op : BuildOp) :
    ∃ d, (∀ l, op.run sz (l, c) = some (l, d)) ∧ d.Unlisted ∧ d.qname = c.qname ∧
      (0 ≤ c.surplus sz → 0 ≤ d.surplus sz) ∧
      (op.fresh c = true → c.surplus sz = 0 → d.surplus sz = 0) := by
  cases op with
  | rrset i ttl ts flags =>
      refine ⟨c.withRrset sz i ttl ts flags,
        fun l => addCentRrsetByIndex_unlisted sz h l i ttl ts flags,
          h.withRrset i ttl ts flags, rfl,
        fun hc => Cent.surplus_withRrset_nonneg hc i ttl ts flags, fun hfresh hc => ?_⟩
      have hnone : c.rrset i = none := by simpa [fresh] using hfresh
      rw [Cent.surplus_withRrset, hnone, hc]
      rfl
  | rr i ttl ts flags data =>
      obtain ⟨d, hd, hunlisted, hname, hsurplus⟩ := addCentRr_unlisted h i ttl ts flags data
      exact ⟨d, hd, hunlisted, hname, fun hc => hsurplus ▸ hc, fun _ hc => hsurplus.trans hc⟩
  | negate ttl ts =>
      obtain ⟨d, hd, hunlisted, hname, hweak, hstrong⟩ := negateCent_unlisted h ttl ts
      exact ⟨d, hd, hunlisted, hname, hweak, fun _ => hstrong⟩

/-- An entry built outside of the cache, with no surplus if record sets are only added
where there is none. -/
theorem Recipe.build_spec (sz : Sizes) (e : Recipe) :
    ∃ c, (∀ l, e.build sz l = some (l, c)) ∧ c.Unlisted ∧ 0 ≤ c.surplus sz ∧
      (e.fresh sz = true → c.surplus sz = 0) := by
  suffices hgen : ∀ (ops : List BuildOp) (c : Cent), c.Unlisted → 0 ≤ c.surplus sz →
      ∃ d, (∀ l, ops.foldlM (BuildOp.run sz) (l, c) = some (l, d)) ∧ d.Unlisted ∧
        0 ≤ d.surplus sz ∧
        (freshFrom sz (DList.empty, c) ops = true → c.surplus sz = 0 → d.surplus sz = 0) by
    have hsurplus : (initCent sz e.qname e.negative e.ttl e.ts e.flags).surplus sz = 0 :=
      surplus_initCent _ _ _ _ _
    obtain ⟨d, hd, hunlisted, hweak, hstrong⟩ := hgen e.ops
      (initCent sz e.qname e.negative e.ttl e.ts e.flags) (unlisted_initCent _ _ _ _ _)
      (by rw [hsurplus])
    exact ⟨d, hd, hunlisted, hweak, fun hfresh => hstrong hfresh hsurplus⟩
  intro ops
  induction ops with
  | nil => exact fun c hc hweak => ⟨c, fun _ => rfl, hc, hweak, fun _ hzero => hzero⟩
  | cons op ops ih =>
      intro c hc hweak
      obtain ⟨d, hd, hunlisted, -, hweak', hstrong⟩ := BuildOp.run_spec sz hc op
      obtain ⟨d', hd', hunlisted', hweak'', hstrong'⟩ := ih d hunlisted (hweak' hweak)
      refine ⟨d', fun l => ?_, hunlisted', hweak'', fun hfresh hzero => ?_⟩
      · rw [List.foldlM_cons, hd]
        exact hd' l
      · simp only [freshFrom, hd, Option.all_some, Bool.and_eq_true] at hfresh
        exact hstrong' hfresh.2 (hstrong hfresh.1 hzero)

end Building

section Steps

variable {cfg : CacheConfig} {E : Int × Int → Prop} {s : Cache} {k : Key} {c : Cent}

/-- An entry is replaced by one with the same nodes and counters. -/
theorem Good.put (h : Good cfg E s) (hc : s.find k = some c) {d : Cent} (hname : d.qname = c.qname)
    (hcs : d.cs = c.cs) (hsurplus : d.surplus cfg.sizes = c.surplus cfg.sizes)
    (hlent : d.lentOf = c.lentOf) (hlisted : d.listed = c.listed) : Good cfg E (s.put k d) := by
  obtain ⟨xs, hinv, hsized, hsort⟩ := h
  have htouch : Touches s (s.put k d) k d := .of_insert rfl rfl rfl
  refine ⟨xs, hinv.update htouch.find ?_ (SameElse.refl k xs) ?_ fun _ _ => Iff.rfl, ?_, hsort⟩
  · simp only [Option.bind_some, hlent]
    exact hinv.owns hc
  · rintro _ ⟨⟩
    exact (hinv.ok k c hc).of_same hname hsurplus hlent hlisted
  · refine htouch.sized hsized hc ?_
    rw [hcs]
    change s.cacheSize = _
    omega

theorem good_invalidateRecord (h : Good cfg E s) (name : Name) :
    Good cfg E (invalidateRecord s name) := by
  rw [invalidateRecord]
  cases hc : s.find name.fold with
  | none => exact h
  | some c =>
      obtain ⟨qname, cs, numRrs, dflags, arm, cNs, cSoa⟩ := c
      cases arm with
      | neg lent ttl ts =>
          refine h.put hc rfl rfl rfl ?_ ?_
          · funext o
            cases o <;> rfl
          · funext o
            cases o <;> rfl
      | rr a =>
          refine h.put hc rfl rfl (Cent.surplus_map (fun _ => rfl) (fun _ => rfl) rfl rfl rfl rfl)
            ?_ ?_
          · funext o
            cases o with
            | none => rfl
            | some i =>
                change ((a.slots i).map _).bind RrSet.lent = (a.slots i).bind RrSet.lent
                cases a.slots i <;> rfl
          · funext o
            cases o with
            | none => rfl
            | some i =>
                simp only [Cent.listed, Cent.rrset, RrArray.modifyAll]
                cases a.slots i <;> rfl

theorem good_setCentFlags (h : Good cfg E s) (name : Name) (auth nocache wild : Bool) :
    Good cfg E (setCentFlags s name auth nocache wild) := by
  rw [setCentFlags]
  cases hc : s.find name.fold with
  | none => exact h
  | some c =>
      refine h.put hc rfl rfl (Cent.surplus_congr rfl rfl rfl rfl) ?_ ?_
      · funext o
        cases o <;> rfl
      · funext o
        cases o <;> rfl

theorem good_delCacheEnt (h : Good cfg E s) (hc : s.find k = some c) :
    ∃ t, delCacheEnt cfg s k c = some t ∧ Good cfg E t ∧
      t.find = Function.update s.find k none ∧ s.Keeps t := by
  obtain ⟨xs, hinv, hsized, hsort⟩ := h
  obtain ⟨t, ht, htinv, htsized, htfind, htsort⟩ := hinv.delCacheEnt hsized hc
  refine ⟨t, ht, ⟨_, htinv, htsized, htsort.trans hsort⟩, htfind, ?_⟩
  exact hinv.keeps_of_erase htinv htsort (shrinks_delCacheEnt ht) htfind

theorem Cache.find_of_update_none {t : Cache} {k' : Key} {d : Cent}
    (hfind : t.find = Function.update s.find k none) (hd : t.find k' = some d) :
    s.find k' = some d := by
  have hk : k' ≠ k := by
    rintro rfl
    rw [hfind, Function.update_self] at hd
    cases hd
  rwa [hfind, Function.update_of_ne hk] at hd

theorem good_delCache (h : Good cfg E s) (name : Name) :
    ∃ t, delCache cfg s name = some t ∧ Good cfg E t ∧ s.Keeps t ∧
      ∀ k d, t.find k = some d → s.find k = some d := by
  rw [delCache]
  cases hc : s.find name.fold with
  | none => exact ⟨s, rfl, h, .refl s, fun _ _ hd => hd⟩
  | some c =>
      obtain ⟨t, ht, hgood, hfind, hkeeps⟩ := good_delCacheEnt h hc
      exact ⟨t, ht, hgood, hkeeps, fun _ _ => Cache.find_of_update_none hfind⟩

theorem good_emptyCache (h : Good cfg E s) (sla : Option (List Slist)) :
    ∃ t, emptyCache cfg s sla = some t ∧ Good cfg E t ∧ s.Keeps t ∧
      ∀ k d, t.find k = some d → s.find k = some d := by
  -- the entries that are still to come are there
  suffices hgen : ∀ (es : List (Sigma fun _ : Key => Cent)) (s : Cache), Good cfg E s →
      es.NodupKeys → (∀ e ∈ es, s.find e.1 = some e.2) →
      ∃ t, es.foldlM (fun s e =>
        if sla.all (selected e.2.qname) then delCacheEnt cfg s e.1 e.2 else some s) s = some t ∧
        Good cfg E t ∧ s.Keeps t ∧ ∀ k d, t.find k = some d → s.find k = some d by
    refine hgen s.table.entries s h s.table.nodupKeys fun e he => ?_
    exact List.mem_dlookup s.table.nodupKeys he
  intro es
  induction es with
  | nil => exact fun s h _ _ => ⟨s, rfl, h, .refl s, fun _ _ hd => hd⟩
  | cons e es ih =>
      intro s h hnodup hes
      rw [List.nodupKeys_cons] at hnodup
      rw [List.forall_mem_cons] at hes
      rw [List.foldlM_cons]
      split_ifs
      · obtain ⟨t, ht, hgood, hfind, hkeeps⟩ := good_delCacheEnt h hes.1
        rw [ht]
        obtain ⟨u, hu, hgood', hkeeps', hsub⟩ := ih t hgood hnodup.2 (by
          intro e' he'
          rw [hfind, Function.update_of_ne]
          · exact hes.2 e' he'
          · rintro heq
            exact hnodup.1 (heq ▸ List.mem_keys_of_mem he'))
        exact ⟨u, hu, hgood', hkeeps.trans hkeeps',
          fun k d hd => Cache.find_of_update_none hfind (hsub k d hd)⟩
      · exact ih s h hnodup.2 hes.2

theorem find_of_lookupEntry {name : Name} {wild : Bool}
    (h : lookupEntry s name wild = some c) : ∃ k, s.find k = some c := by
  rw [lookupEntry] at h
  split at h
  · rename_i d hd
    cases h
    exact ⟨_, hd⟩
  · split_ifs at h
    dsimp only at h
    split at h
    · cases h
    · rename_i k d hup
      obtain ⟨j, -, hj⟩ := List.exists_of_findSome?_eq_some hup
      obtain ⟨e, he, heq⟩ := Option.map_eq_some_iff.mp hj
      cases heq
      split_ifs at h
      · cases h
        exact ⟨_, he⟩
      · exact ⟨_, h⟩
      · cases h
        exact ⟨_, he⟩

theorem lookupCache_spec {p : RrSet → Prop} {q : Bool → Arm → Prop} {now : Int}
    (h : Good cfg E s) (hp : ∀ r : RrSet, r.purgeable now = true → p r)
    (hq : ∀ c : Cent, c.negative = true → c.needless now = true → q c.flags.isLocal c.arm)
    (name : Name) (wild : Bool) :
    ∃ t, lookupCache cfg now s name wild = some t ∧ Good cfg E t ∧ s.Thins p q t := by
  rw [lookupCache]
  cases hentry : lookupEntry s name wild with
  | none => exact ⟨s, rfl, h, Cache.Thins.refl s⟩
  | some c =>
      simp only [Option.bind_eq_bind]
      split_ifs
      · obtain ⟨xs, hinv, hsized, hsort⟩ := h
        obtain ⟨k, hc⟩ := find_of_lookupEntry hentry
        obtain ⟨t, ys, b, ht, hpurged, -⟩ := purgeCent_spec hinv hsized hc hp hq true
        rw [(hinv.ok k c hc).name, ht]
        exact ⟨t, rfl, ⟨ys, hpurged.inv, hpurged.sized, hpurged.insertSort.trans hsort⟩,
          hpurged.thins⟩
      · exact ⟨s, rfl, h, Cache.Thins.refl s⟩

theorem good_step (hE : ∀ x, E x → 0 ≤ x.1) (h : Good cfg E s) (op : Op)
    (hadd : ∀ now e, op = .add now e → ∀ l c, e.build cfg.sizes s.rrl = some (l, c) →
      E (c.surplus cfg.sizes)) : ∃ t, step cfg s op = some t ∧ Good cfg E t := by
  cases op with
  | add now e =>
      obtain ⟨c, hc, -, -, -⟩ := e.build_spec cfg.sizes
      obtain ⟨s₁, t, ht, hgood, -⟩ := addCache_spec (p := fun _ => True) (q := fun _ _ => True) hE
        (fun _ _ => trivial) (fun _ => trivial) h (hadd now e rfl s.rrl c (hc s.rrl)) now
      refine ⟨t, ?_, hgood⟩
      simp only [step, hc, Option.bind_eq_bind, Option.bind_some]
      exact ht
  | del name =>
      obtain ⟨t, ht, hgood, -⟩ := good_delCache h name
      exact ⟨t, ht, hgood⟩
  | invalidate name => exact ⟨_, rfl, good_invalidateRecord h name⟩
  | setFlags name auth nocache wild => exact ⟨_, rfl, good_setCentFlags h name auth nocache wild⟩
  | empty sla =>
      obtain ⟨t, ht, hgood, -⟩ := good_emptyCache h sla
      exact ⟨t, ht, hgood⟩
  | lookup now name wild =>
      obtain ⟨t, ht, hgood, -⟩ := lookupCache_spec (p := fun _ => True) (q := fun _ _ => True) h
        (fun _ _ => trivial) (fun _ _ _ => trivial) name wild
      exact ⟨t, ht, hgood⟩
  | purge now limit lazy =>
      obtain ⟨xs, hinv, hsized, hsort⟩ := h
      obtain ⟨t, ys, ht, hpurged⟩ := purgeCache_spec (p := fun _ => True) (q := fun _ _ => True) hE
        hinv hsized hsort (fun _ _ => trivial) (fun _ => trivial) now limit lazy
      exact ⟨t, ht, ys, hpurged.inv, hpurged.sized, hpurged.insertSort.trans hsort⟩

theorem good_empty : Good cfg E Cache.empty := by
  refine ⟨[], ⟨DList.empty_represents, ?_, ?_⟩, ⟨rfl, rfl⟩, rfl⟩
  · simp [Cache.find, Cache.empty]
  · simp [Cache.find, Cache.empty]

/-- The entry that is added is built without a second record set of one type. -/
def Op.fresh (sz : Sizes) : Op → Bool
  | .add _ e => e.fresh sz
  | _ => true

theorem good_run (hE : ∀ x, E x → 0 ≤ x.1) {ops : List Op}
    (h : ∀ op ∈ ops, ∀ now e, op = .add now e → ∀ l m c, e.build cfg.sizes l = some (m, c) →
      E (c.surplus cfg.sizes)) : ∃ s, run cfg ops = some s ∧ Good cfg E s := by
  induction ops using List.reverseRecOn with
  | nil => exact ⟨Cache.empty, rfl, good_empty⟩
  | append_singleton ops op ih =>
      rw [List.forall_mem_append, List.forall_mem_singleton] at h
      obtain ⟨s, hs, hgood⟩ := ih h.1
      obtain ⟨t, ht, hgood'⟩ := good_step hE hgood op fun now e hop => h.2 now e hop s.rrl
      refine ⟨t, ?_, hgood'⟩
      rw [run, List.foldlM_append]
      change (run cfg ops).bind _ = _
      rw [hs]
      simpa using ht

end Steps

/-- The representation invariant of the cache. -/
structure Cache.Consistent (sz : Sizes) (s : Cache) : Prop where
  cacheSize : s.cacheSize = (s.table.entries.map fun e => e.2.cs).sum
  cs : ∀ k c, s.find k = some c → c.cs = c.size sz
  entNum : s.entNum = s.table.entries.length
  numRrs : ∀ k c, s.find k = some c →
    c.numRrs = (Finset.univ.filter fun i => (c.rrset i).isSome).card
  list : ∃ xs, s.rrl.Represents xs ∧ (xs.map Prod.snd).Nodup ∧
    (∀ le, le ∈ xs.map Prod.snd ↔ ∃ c, s.find le.cent = some c ∧ c.listed le.idx = true) ∧
    ∀ x ∈ xs, ∃ c, s.find x.2.cent = some c ∧ c.lentOf x.2.idx = some x.1

theorem Cent.count_eq_card (c : Cent) :
    c.count = (Finset.univ.filter fun i => (c.rrset i).isSome).card := by
  rw [Cent.count, Cent.measure, Finset.card_filter, Nat.cast_sum]
  refine Finset.sum_congr rfl fun i _ => ?_
  cases c.rrset i <;> rfl

theorem consistent_of_good {cfg : CacheConfig} {s : Cache} (h : Good cfg (· = 0) s) :
    Cache.Consistent cfg.sizes s := by
  obtain ⟨xs, hinv, hsized, -⟩ := h
  refine ⟨hsized.cacheSize, fun k c hc => ?_, ?_, fun k c hc => ?_, xs, hinv.represents, ?_, ?_, ?_⟩
  · have := congrArg Prod.snd (hinv.ok k c hc).surplus
    simp only [Cent.surplus, Prod.snd_zero] at this
    omega
  · rw [hsized.entNum, Cache.total]
    simp
  · have hfirst := congrArg Prod.fst (hinv.ok k c hc).surplus
    simp only [Cent.surplus, Prod.fst_zero] at hfirst
    have hcount := c.count_eq_card
    omega
  · exact hinv.nodup
  · exact hinv.mem_listed
  · rintro ⟨a, le⟩ hx
    exact (hinv.mem_iff a le).mp hx

/-- In every run the cache is consistent, if the entries are built without a second
record set of one type. -/
theorem cache_consistent (cfg : CacheConfig) (ops : List Op)
    (h : ∀ op ∈ ops, op.fresh cfg.sizes = true) :
    ∃ s, run cfg ops = some s ∧ Cache.Consistent cfg.sizes s := by
  have hzero : ∀ x : Int × Int, x = 0 → 0 ≤ x.1 := by
    rintro _ rfl
    exact Int.le_refl 0
  obtain ⟨s, hs, hgood⟩ : ∃ s, run cfg ops = some s ∧ Good cfg (· = 0) s :=
    good_run hzero (by
      rintro op hop now e rfl l m c hbuild
      obtain ⟨d, hd, -, -, hfresh⟩ := e.build_spec cfg.sizes
      cases (hd l).symm.trans hbuild
      exact hfresh (h _ hop))
  exact ⟨s, hs, consistent_of_good hgood⟩

section Example

/-- The settings of `pdnsd` on a machine with pointers of eight bytes. -/
def exampleConfig : CacheConfig where
  sizes := ⟨104, 40, 16, 8⟩
  minTtl := 120
  maxTtl := 604800
  negTtl := 900
  permCache := 2048

def exampleName : Name :=
  ⟨[⟨[119], by decide, by decide⟩]⟩

/-- An entry with the record sets of some types, all empty. -/
def exampleRecipe (is : List Slot) : Recipe where
  qname := exampleName
  negative := false
  ttl := 0
  ts := 0
  flags := ⟨false, false, false, false⟩
  ops := is.map fun i => .rrset i 300 1000 ⟨true, false, false, false, false, false, false⟩

theorem cache_consistent_twoTypes :
    (∀ op ∈ [Op.add 1000 (exampleRecipe [slotNS, slotSOA]), .del exampleName],
      op.fresh exampleConfig.sizes = true) ∧
    ∃ s, run exampleConfig [Op.add 1000 (exampleRecipe [slotNS, slotSOA]),
      .del exampleName] = some s ∧
      Cache.Consistent exampleConfig.sizes s :=
  ⟨by decide, cache_consistent exampleConfig _ (by decide)⟩

/-- A second record set of one type is counted but not held. -/
theorem cache_inconsistent_of_second_rrset :
    ¬∀ ops, ∃ s, run exampleConfig ops = some s ∧ Cache.Consistent exampleConfig.sizes s := by
  intro h
  obtain ⟨s, hs, hcons⟩ := h [.add 1000 (exampleRecipe [slotNS, slotNS])]
  have hwrong : (run exampleConfig [.add 1000 (exampleRecipe [slotNS, slotNS])]).map
      (fun s => (s.find exampleName.fold).map fun c => decide (c.numRrs =
        ((Finset.univ.filter fun i => (c.rrset i).isSome).card : Int))) = some (some false) := by
    decide +kernel
  rw [hs, Option.map_some, Option.some.injEq, Option.map_eq_some_iff] at hwrong
  obtain ⟨c, hc, hne⟩ := hwrong
  exact of_decide_eq_false hne (hcons.numRrs _ c hc)

end Example

end TorAndroid.Dns
