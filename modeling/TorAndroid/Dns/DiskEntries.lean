import TorAndroid.Dns.CacheTidy
import TorAndroid.Dns.DiskCache

namespace TorAndroid.Dns

open TorAndroid.Lib.LinkedCells TorAndroid.Lib.DoublyLinked

section ReadSets

variable {c : Cent}

/-- The records of a set as they are read of what was written of them. -/
def RrSet.writtenRrs (r : RrSet) : List (List UInt8) :=
  (r.rrs.take 255).map fun data => (writeRr data).data

/-- A record set that is written, as it is read. -/
def Cent.diskSet (c : Cent) (i : Slot) : Option DiskSet :=
  (c.rrset i).bind fun r =>
    if r.flags.isLocal then none else some ⟨i, r.ttl, r.ts, r.flags, r.writtenRrs⟩

def Cent.diskSets (c : Cent) : List DiskSet :=
  (c.iterlist.filterMap slotOf).filterMap c.diskSet

theorem readSets_cons {x : FileSet} {xs : List FileSet} {sets : List DiskSet} {prevtp : Nat}
    {i : Slot} (hi : slotOf x.tp = some i) (hlt : prevtp < x.tp)
    (hsets : readSets x.tp xs = some sets) :
    readSets prevtp (x :: xs) =
      some (⟨i, x.ttl, x.ts, x.flags, x.rrs.map FileRr.data⟩ :: sets) := by
  simp [readSets, hi, Nat.not_le.mpr hlt, hsets]

theorem readSets_written (c : Cent) : readSets 0 (writeEntry c).sets = some c.diskSets := by
  obtain ⟨hsorted, hcached⟩ := iterlist_ascending c
  suffices hgen : ∀ (l : List Nat) (prevtp : Nat), l.Pairwise (· < ·) →
      (∀ tp ∈ l, prevtp < tp ∧ (slotOf tp).isSome) →
      readSets prevtp (l.filterMap fun tp => (c.getrrset tp).bind fun r =>
        if r.flags.isLocal then none else some (writeRrset tp r)) =
      some ((l.filterMap slotOf).filterMap c.diskSet) from
    hgen c.iterlist 0 hsorted hcached
  intro l
  induction l with
  | nil => exact fun _ _ _ => rfl
  | cons tp l ih =>
      intro prevtp hsorted hl
      rw [List.pairwise_cons] at hsorted
      rw [List.forall_mem_cons] at hl
      obtain ⟨⟨hlt, hsome⟩, hrest⟩ := hl
      obtain ⟨i, hi⟩ := Option.isSome_iff_exists.mp hsome
      rw [List.filterMap_cons_some hi]
      cases hr : c.rrset i with
      | none =>
          simp only [List.filterMap_cons, Cent.getrrset, hi, hr, Cent.diskSet, Option.bind_some,
            Option.bind_none]
          exact ih prevtp hsorted.2 hrest
      | some r =>
          cases hlocal : r.flags.isLocal with
          | true =>
              simp only [List.filterMap_cons, Cent.getrrset, hi, hr, Cent.diskSet,
                Option.bind_some, hlocal, if_true]
              exact ih prevtp hsorted.2 hrest
          | false =>
              have hnext := ih tp hsorted.2 fun tp' htp' =>
                ⟨hsorted.1 tp' htp', (hrest tp' htp').2⟩
              simp only [List.filterMap_cons, Cent.getrrset, hi, hr, Cent.diskSet,
                Option.bind_some, hlocal, Bool.false_eq_true, if_false]
              have hread := readSets_cons (x := writeRrset tp r) hi hlt hnext
              rw [writeRrset, List.map_map] at hread
              exact hread

theorem mem_diskSets {x : DiskSet} (h : x ∈ c.diskSets) :
    ∃ r, c.rrset x.index = some r ∧ r.flags.isLocal = false ∧
      x = ⟨x.index, r.ttl, r.ts, r.flags, r.writtenRrs⟩ := by
  obtain ⟨i, -, hi⟩ := List.mem_filterMap.mp h
  obtain ⟨r, hr, hx⟩ := Option.bind_eq_some_iff.mp hi
  split_ifs at hx with hlocal
  cases hx
  exact ⟨r, hr, by simpa using hlocal, rfl⟩

theorem exists_diskSets {i : Slot} {r : RrSet} (hr : c.rrset i = some r)
    (hlocal : r.flags.isLocal = false) :
    ⟨i, r.ttl, r.ts, r.flags, r.writtenRrs⟩ ∈ c.diskSets := by
  obtain ⟨tp, htp, hi⟩ := mem_iterlist (c := c) (i := i) (by rw [hr]; rfl)
  refine List.mem_filterMap.mpr ⟨i, List.mem_filterMap.mpr ⟨tp, htp, hi⟩, ?_⟩
  simp [Cent.diskSet, hr, hlocal]

theorem diskSets_nodup (c : Cent) : (c.diskSets.map DiskSet.index).Nodup := by
  rw [Cent.diskSets, List.map_filterMap]
  refine List.Nodup.filterMap (fun i j k hi hj => ?_) (iterlist_nodup c)
  have hindex : ∀ i k, k ∈ (c.diskSet i).map DiskSet.index → k = i := by
    intro i k hk
    obtain ⟨x, hx, rfl⟩ := Option.map_eq_some_iff.mp hk
    obtain ⟨r, -, hx⟩ := Option.bind_eq_some_iff.mp hx
    split_ifs at hx
    cases hx
    rfl
  rw [← hindex i k hi, ← hindex j k hj]

end ReadSets

section Build

variable {sz : Sizes} {c d : Cent} {i : Slot} {r : RrSet}

/-- An entry outside of the cache got a record set. -/
structure Cent.Gains (sz : Sizes) (c : Cent) (i : Slot) (r : RrSet) (d : Cent) : Prop where
  unlisted : d.Unlisted
  qname : d.qname = c.qname
  flags : d.flags = c.flags
  negative : d.negative = false
  surplus : d.surplus sz = c.surplus sz
  rrset : d.rrset = Function.update c.rrset i (some r)
  ext : d.ext = (c.ext || decide (nrrmu ≤ i.val))

theorem Cent.Unlisted.gains_withRrset (sz : Sizes) (h : c.Unlisted) (hi : c.rrset i = none)
    (ttl ts : Int)
    (flags : CFlags) :
    c.Gains sz i ⟨none, ttl, ts, flags, []⟩ (c.withRrset sz i ttl ts flags) := by
  refine ⟨h.withRrset i ttl ts flags, rfl, rfl, rfl, ?_, rrset_withRrset, ext_withRrset⟩
  rw [surplus_withRrset, hi]
  exact add_zero _

theorem Cent.Gains.rrset_self (h : c.Gains sz i r d) : d.rrset i = some r := by
  rw [h.rrset, Function.update_self]

theorem Cent.Gains.appendRr (h : c.Gains sz i r d) (data : List UInt8) :
    c.Gains sz i { r with rrs := r.rrs ++ [data] } (appendRr sz d i data) := by
  obtain ⟨hname, -, -, hflags, hneg⟩ :=
    modifyRrset_frame d i fun r => { r with rrs := r.rrs ++ [data] }
  refine ⟨h.unlisted.appendRr i data, hname.trans h.qname, hflags.trans h.flags,
    hneg.trans h.negative, ?_, ?_, ?_⟩
  · rw [surplus_appendRr (by rw [h.rrset_self]; rfl), h.surplus]
  · rw [rrset_appendRr, h.rrset_self, h.rrset, Function.update_idem]
    rfl
  · exact ext_modifyRrset.trans h.ext

/-- Records are added one after the other, but those that are there already are left out. -/
def addNewRrs (rrs more : List (List UInt8)) : List (List UInt8) :=
  more.foldl (fun rrs data => if rrs.contains data then rrs else rrs ++ [data]) rrs

@[simp]
theorem addNewRrs_nil (rrs : List (List UInt8)) : addNewRrs rrs [] = rrs := rfl

@[simp]
theorem addNewRrs_cons (rrs : List (List UInt8)) (data : List UInt8) (more : List (List UInt8)) :
    addNewRrs rrs (data :: more) =
      addNewRrs (if data ∈ rrs then rrs else rrs ++ [data]) more := by
  rw [addNewRrs, addNewRrs, List.foldl_cons]
  simp only [List.contains_iff_mem]

theorem addNewRrs_of_nodup {rrs more : List (List UInt8)} (h : (rrs ++ more).Nodup) :
    addNewRrs rrs more = rrs ++ more := by
  induction more generalizing rrs with
  | nil => exact (List.append_nil rrs).symm
  | cons data more ih =>
      have hnew : data ∉ rrs := by
        rw [List.nodup_append] at h
        exact fun hmem => h.2.2 data hmem data List.mem_cons_self rfl
      rw [addNewRrs_cons, if_neg hnew, ih (by simpa using h), List.append_assoc,
        List.singleton_append]

theorem addNewRrs_sublist (rrs more : List (List UInt8)) :
    (addNewRrs rrs more).Sublist (rrs ++ more) := by
  induction more generalizing rrs with
  | nil => rw [addNewRrs_nil, List.append_nil]
  | cons data more ih =>
      rw [addNewRrs_cons]
      refine (ih _).trans ?_
      split_ifs
      · exact (List.Sublist.refl rrs).append (List.sublist_cons_self data more)
      · rw [List.append_assoc, List.singleton_append]

theorem Cent.Gains.records (h : c.Gains sz i r d) (hset : r.flags.isLocal = false)
    (rrs : List (List UInt8)) :
    ∃ e, (∀ l, (rrs.map (.rr i r.ttl r.ts r.flags)).foldlM (BuildOp.run sz) (l, d) =
        some (l, e)) ∧
      c.Gains sz i { r with rrs := if c.flags.isLocal then r.rrs else addNewRrs r.rrs rrs } e := by
  cases hlocal : c.flags.isLocal with
  | true =>
      refine ⟨d, fun l => ?_, by simpa using h⟩
      have hskip : ∀ data, BuildOp.run sz (l, d) (.rr i r.ttl r.ts r.flags data) = some (l, d) := by
        intro data
        simp [BuildOp.run, addCentRr, h.flags, hlocal, hset]
      induction rrs with
      | nil => rfl
      | cons data rrs ih =>
          rw [List.map_cons, List.foldlM_cons, hskip]
          exact ih
  | false =>
      induction rrs generalizing d r with
      | nil => exact ⟨d, fun _ => rfl, by simpa using h⟩
      | cons data rrs ih =>
          by_cases hold : data ∈ r.rrs
          · have hrun : ∀ l, BuildOp.run sz (l, d) (.rr i r.ttl r.ts r.flags data) =
              some (l, d) := by
              intro l
              simp [BuildOp.run, addCentRr, h.flags, hlocal, h.rrset_self, hold]
            obtain ⟨e, he, hgains⟩ := ih h hset
            refine ⟨e, fun l => ?_, by simpa [hold] using hgains⟩
            rw [List.map_cons, List.foldlM_cons, hrun]
            exact he l
          · have hrun : ∀ l, BuildOp.run sz (l, d) (.rr i r.ttl r.ts r.flags data) =
                some (l, Dns.appendRr sz d i data) := by
              intro l
              simp [BuildOp.run, addCentRr, h.flags, hlocal, h.rrset_self, hold]
            obtain ⟨e, he, hgains⟩ := ih (r := { r with rrs := r.rrs ++ [data] })
              (h.appendRr data) hset
            refine ⟨e, fun l => ?_, by simpa [hold] using hgains⟩
            rw [List.map_cons, List.foldlM_cons, hrun]
            exact he l

/-- The record set that is read for an entry. -/
def DiskSet.rrset (x : DiskSet) (isLocal : Bool) : RrSet :=
  ⟨none, x.ttl, x.ts, x.flags, if isLocal then [] else addNewRrs [] x.rrs⟩

theorem DiskSet.build_spec (sz : Sizes) {x : DiskSet} (h : c.Unlisted) (hi : c.rrset x.index = none)
    (hset : x.flags.isLocal = false) :
    ∃ d, (∀ l, x.ops.foldlM (BuildOp.run sz) (l, c) = some (l, d)) ∧
      c.Gains sz x.index (x.rrset c.flags.isLocal) d := by
  obtain ⟨e, he, hgains⟩ :=
    (h.gains_withRrset sz hi x.ttl x.ts x.flags).records hset x.rrs
  refine ⟨e, fun l => ?_, by simpa [DiskSet.rrset] using hgains⟩
  rw [DiskSet.ops, List.foldlM_cons]
  simp only [BuildOp.run, addCentRrsetByIndex_unlisted sz h]
  exact he l

/-- An entry outside of the cache got several record sets. -/
structure Cent.GainsAll (sz : Sizes) (c : Cent) (sets : List DiskSet) (d : Cent) : Prop where
  unlisted : d.Unlisted
  qname : d.qname = c.qname
  flags : d.flags = c.flags
  negTimes : d.negTimes = if sets = [] then c.negTimes else none
  surplus : d.surplus sz = c.surplus sz
  rrset : ∀ x ∈ sets, d.rrset x.index = some (x.rrset c.flags.isLocal)
  others : ∀ i, (∀ x ∈ sets, x.index ≠ i) → d.rrset i = c.rrset i
  ext : d.ext = true → c.ext = true ∨ ∃ x ∈ sets, nrrmu ≤ x.index.val

theorem Cent.negTimes_eq_none_iff : c.negTimes = none ↔ c.negative = false := by
  obtain ⟨qname, cs, numRrs, dflags, arm, cNs, cSoa⟩ := c
  cases arm <;> simp [negTimes, negative]

theorem buildSets_spec (sz : Sizes) {sets : List DiskSet} (h : c.Unlisted)
    (hnone : ∀ x ∈ sets, c.rrset x.index = none) (hindex : (sets.map DiskSet.index).Nodup)
    (hset : ∀ x ∈ sets, x.flags.isLocal = false) :
    ∃ d, (∀ l, (sets.flatMap DiskSet.ops).foldlM (BuildOp.run sz) (l, c) = some (l, d)) ∧
      c.GainsAll sz sets d := by
  induction sets generalizing c with
  | nil =>
      exact ⟨c, fun _ => rfl, h, rfl, rfl, rfl, rfl, by simp, fun _ _ => rfl, fun hext => .inl hext⟩
  | cons x sets ih =>
      rw [List.forall_mem_cons] at hnone hset
      rw [List.map_cons, List.nodup_cons] at hindex
      have hne : ∀ y ∈ sets, y.index ≠ x.index := by
        intro y hy heq
        exact hindex.1 (heq ▸ List.mem_map_of_mem hy)
      obtain ⟨d, hd, hgains⟩ := DiskSet.build_spec sz h hnone.1 hset.1
      obtain ⟨e, he, hall⟩ := ih hgains.unlisted (fun y hy => by
        rw [hgains.rrset, Function.update_of_ne (hne y hy)]
        exact hnone.2 y hy) hindex.2 hset.2
      refine ⟨e, fun l => ?_, hall.unlisted, hall.qname.trans hgains.qname,
        hall.flags.trans hgains.flags, ?_, hall.surplus.trans hgains.surplus, ?_, ?_, ?_⟩
      · rw [List.flatMap_cons, List.foldlM_append, hd]
        exact he l
      · rw [hall.negTimes, Cent.negTimes_eq_none_iff.mpr hgains.negative]
        simp
      · rw [List.forall_mem_cons, ← hgains.flags]
        refine ⟨?_, hall.rrset⟩
        rw [hall.others x.index hne, hgains.rrset_self, hgains.flags]
      · intro i hi
        rw [List.forall_mem_cons] at hi
        rw [hall.others i hi.2, hgains.rrset, Function.update_of_ne (Ne.symm hi.1)]
      · intro hext
        rcases hall.ext hext with hext | ⟨y, hy, hle⟩
        · rw [hgains.ext, Bool.or_eq_true, decide_eq_true_eq] at hext
          rcases hext with hext | hle
          · exact .inl hext
          · exact .inr ⟨x, List.mem_cons_self, hle⟩
        · exact .inr ⟨y, List.mem_cons_of_mem x hy, hle⟩

end Build

section ReadBack

variable {cfg : CacheConfig} {c d : Cent}

/-- The records of a set that are in the cache after it was written and read back. -/
def RrSet.readRrs (r : RrSet) (isLocal : Bool) : List (List UInt8) :=
  if isLocal then [] else addNewRrs [] r.writtenRrs

/-- What is in the cache for an entry that was written and read back. -/
structure Cent.ReadBack (cfg : CacheConfig) (c d : Cent) : Prop where
  qname : d.qname = c.qname
  isLocal : d.flags.isLocal = c.flags.isLocal
  cs : d.cs ≤ c.cs
  cNs : d.cNs = c.cNs
  cSoa : d.cSoa = c.cSoa
  negTimes : d.negTimes = c.negTimes.map fun x =>
    (if c.flags.nocache then 0 else boundTtl cfg true x.1, x.2)
  rrset : ∀ i, (d.rrset i).map RrSet.bare = ((c.rrset i).filter fun r => !r.flags.isLocal).map
    fun r => adjustTtl cfg { r.bare with rrs := r.readRrs c.flags.isLocal }

/-- The record sets of an entry can be written: none has more than 255 records. -/
def Cent.Few (c : Cent) : Prop :=
  ∀ i, ∀ r ∈ c.rrset i, r.flags.isLocal = false → r.rrs.length ≤ 255

theorem negTimes_initCent (sz : Sizes) (c : Cent) :
    (initCent sz c.qname c.negative (c.negTimes.getD (0, 0)).1 (c.negTimes.getD (0, 0)).2
      c.flags).negTimes = c.negTimes := by
  obtain ⟨qname, cs, numRrs, dflags, arm, cNs, cSoa⟩ := c
  cases arm <;> rfl

theorem rrset_initCent (sz : Sizes) (qname : Name) (negative : Bool) (ttl ts : Int)
    (flags : DFlags) (i : Slot) : (initCent sz qname negative ttl ts flags).rrset i = none := by
  cases negative <;> rfl

theorem toWrite_iff (hneg : c.negative = false) :
    c.toWrite = true ↔ ∃ i r, c.rrset i = some r ∧ r.flags.isLocal = false := by
  simp only [Cent.toWrite, hneg, Bool.false_eq_true, if_false, List.any_eq_true]
  constructor
  · rintro ⟨i, -, hi⟩
    cases hr : c.rrset i with
    | none => simp [hr] at hi
    | some r => exact ⟨i, r, hr, by simpa [hr] using hi⟩
  · rintro ⟨i, r, hr, hlocal⟩
    exact ⟨i, List.mem_finRange i, by simp [hr, hlocal]⟩

/-- What is built from an entry that was written. -/
structure Cent.Rebuilt (sz : Sizes) (c b : Cent) : Prop where
  qname : b.qname = c.qname
  flags : b.flags = c.flags
  cNs : b.cNs = c.cNs
  cSoa : b.cSoa = c.cSoa
  negTimes : b.negTimes = c.negTimes
  surplus : b.surplus sz = 0
  rrset : ∀ i, b.rrset i = ((c.rrset i).filter fun r => !r.flags.isLocal).map fun r =>
    { r.bare with rrs := r.readRrs c.flags.isLocal }
  ext : b.ext = true → c.ext = true

theorem rebuild_spec (sz : Sizes) (c : Cent) :
    ∃ e b, (writeEntry c).read = some e ∧ (∀ l, e.build sz l = some (l, b)) ∧
      c.Rebuilt sz b := by
  have hsets : ∀ x ∈ c.diskSets, x.flags.isLocal = false := by
    intro x hx
    obtain ⟨r, hr, hlocal, heq⟩ := mem_diskSets hx
    rw [heq]
    exact hlocal
  have hstart : (initCent sz c.qname c.negative (c.negTimes.getD (0, 0)).1
      (c.negTimes.getD (0, 0)).2 c.flags).Unlisted := unlisted_initCent _ _ _ _ _
  obtain ⟨d, hd, hgains⟩ := buildSets_spec sz hstart
    (fun x _ => rrset_initCent ..) (diskSets_nodup c) hsets
  refine ⟨⟨c.qname, c.negative, c.flags, (c.negTimes.getD (0, 0)).1, (c.negTimes.getD (0, 0)).2,
    c.cNs, c.cSoa, c.diskSets⟩, { d with cNs := c.cNs, cSoa := c.cSoa }, ?_,
    fun l => ?_, hgains.qname, hgains.flags, rfl, rfl, ?_, ?_, fun i => ?_, fun hext => ?_⟩
  · rw [FileEntry.read, readSets_written]
    rfl
  · simp only [DiskEntry.build, Recipe.build, DiskEntry.recipe, hd]
    rfl
  · change d.negTimes = c.negTimes
    rw [hgains.negTimes, negTimes_initCent]
    split_ifs with hnil
    · rfl
    · cases hneg : c.negative with
      | false => exact (Cent.negTimes_eq_none_iff.mpr hneg).symm
      | true => exact absurd (by simp [Cent.diskSets, Cent.iterlist, hneg]) hnil
  · have hsame : Cent.surplus { d with cNs := c.cNs, cSoa := c.cSoa } sz = d.surplus sz :=
      Cent.surplus_congr rfl rfl rfl rfl
    rw [hsame, hgains.surplus, surplus_initCent]
  · change d.rrset i = _
    cases hr : (c.rrset i).filter fun r => !r.flags.isLocal with
    | none =>
        refine (hgains.others i fun x hx heq => ?_).trans (rrset_initCent ..)
        obtain ⟨r, hr', hlocal, -⟩ := mem_diskSets hx
        rw [heq] at hr'
        simp [hr', hlocal] at hr
    | some r =>
        obtain ⟨hr', hlocal⟩ : c.rrset i = some r ∧ r.flags.isLocal = false := by
          simpa [Option.filter_eq_some_iff] using hr
        exact hgains.rrset _ (exists_diskSets hr' hlocal)
  · rcases hgains.ext hext with hinit | ⟨x, hx, hle⟩
    · cases hneg : c.negative <;> simp [initCent, hneg, Cent.ext, RrArray.empty] at hinit
    · obtain ⟨r, hr, -, -⟩ := mem_diskSets hx
      by_contra hfalse
      have hnull := c.rrset_of_ext (by simpa using hfalse) hle
      rw [hnull] at hr
      cases hr

theorem Cent.Rebuilt.numRrs_ne_zero {sz : Sizes} {b : Cent} (h : c.Rebuilt sz b)
    (hwrite : c.toWrite = true) (hneg : b.negative = false) : b.numRrs ≠ 0 := by
  rw [← Cent.negTimes_eq_none_iff, h.negTimes, Cent.negTimes_eq_none_iff] at hneg
  obtain ⟨i, r, hr, hlocal⟩ := (toWrite_iff hneg).mp hwrite
  have hsome : (b.rrset i).isSome := by
    rw [h.rrset, hr]
    simp [Option.filter, hlocal]
  have hcount := Cent.count_pos_of_rrset hsome
  have hfirst : b.numRrs - b.count = 0 := congrArg Prod.fst h.surplus
  omega

/-- Records that were read back take no more memory than those that were written. -/
theorem RrSet.sum_readRrs_le (sz : Sizes) (r : RrSet) (isLocal : Bool) :
    ((r.readRrs isLocal).map fun d => sz.bucket + d.length).sum ≤
      (r.rrs.map fun d => sz.bucket + d.length).sum := by
  rw [RrSet.readRrs]
  split_ifs
  · exact Nat.zero_le _
  · calc ((addNewRrs [] r.writtenRrs).map fun d => sz.bucket + d.length).sum
      _ ≤ (r.writtenRrs.map fun d => sz.bucket + d.length).sum :=
          ((addNewRrs_sublist [] r.writtenRrs).map _).sum_le_sum fun _ _ => Nat.zero_le _
      _ ≤ ((r.rrs.take 255).map fun d => sz.bucket + d.length).sum := by
          rw [RrSet.writtenRrs, List.map_map]
          exact List.sum_le_sum fun d _ => Nat.add_le_add_left (List.length_take_le' _ _) _
      _ ≤ (r.rrs.map fun d => sz.bucket + d.length).sum :=
          ((List.take_sublist 255 r.rrs).map _).sum_le_sum fun _ _ => Nat.zero_le _

/-- An entry that was read back takes no more memory than the one that was written. -/
theorem Cent.Rebuilt.cs_le {sz : Sizes} {b : Cent} (h : c.Rebuilt sz b)
    (hc : 0 ≤ c.surplus sz) : b.cs ≤ c.cs := by
  have hsecond : b.cs - b.size sz = 0 := congrArg Prod.snd h.surplus
  have hcs : 0 ≤ c.cs - c.size sz := (Prod.le_def.mp hc).2
  have hext : b.extSize sz ≤ c.extSize sz := by
    rw [Cent.extSize, Cent.extSize]
    split_ifs with hb hc
    · exact Int.le_refl _
    · exact absurd (h.ext hb) hc
    · exact Int.mul_nonneg (Int.natCast_nonneg _) (Int.natCast_nonneg _)
    · exact Int.le_refl _
  have hmeasure : (b.measure fun r => (r.size sz : Int)) ≤
    c.measure fun r => (r.size sz : Int) := by
    refine Finset.sum_le_sum fun i _ => ?_
    rw [h.rrset i]
    cases c.rrset i with
    | none => simp
    | some r =>
        have hless : RrSet.size sz { r.bare with rrs := r.readRrs c.flags.isLocal } ≤ r.size sz :=
          Nat.add_le_add_left (r.sum_readRrs_le sz _) _
        cases hlocal : r.flags.isLocal with
        | true => simp [Option.filter, hlocal]
        | false => simpa [Option.filter, hlocal] using hless
  have hsize : b.size sz ≤ c.size sz := by
    simp only [Cent.size, h.qname]
    omega
  omega

theorem Cent.negTimes_copyCent (c : Cent) : (copyCent c).negTimes = c.negTimes := by
  obtain ⟨qname, cs, numRrs, dflags, arm, cNs, cSoa⟩ := c
  cases arm <;> rfl

theorem Cent.refs_copyCent (c : Cent) :
    (copyCent c).cNs = c.cNs ∧ (copyCent c).cSoa = c.cSoa := by
  obtain ⟨qname, cs, numRrs, dflags, arm, cNs, cSoa⟩ := c
  cases arm <;> exact ⟨rfl, rfl⟩

theorem negTimes_adjustCent (cfg : CacheConfig) (c : Cent) :
    (adjustCent cfg c).negTimes = c.negTimes.map (fun x =>
      (if c.flags.nocache then 0 else boundTtl cfg true x.1, x.2)) ∧
      (adjustCent cfg c).cNs = c.cNs ∧ (adjustCent cfg c).cSoa = c.cSoa := by
  obtain ⟨qname, cs, numRrs, dflags, arm, cNs, cSoa⟩ := c
  cases arm with
  | neg lent ttl ts =>
      cases hnocache : dflags.nocache <;>
        simp [adjustCent, adjustDomTtl, hnocache, Cent.negTimes]
  | rr a => exact ⟨rfl, rfl, rfl⟩

/-- `add_cache` stores what was built with its times to live adjusted. -/
theorem Cent.Rebuilt.readBack {b : Cent} (h : c.Rebuilt cfg.sizes b)
    (hc : 0 ≤ c.surplus cfg.sizes)
    (hcopy : copyCent d = copyCent (adjustCent cfg (copyCent b))) : c.ReadBack cfg d := by
  obtain ⟨hname, hcs, -, hflags, -, -⟩ := copyCent_frame d
  obtain ⟨hname', hcs', -, hflags', -, -⟩ := copyCent_frame (adjustCent cfg (copyCent b))
  obtain ⟨hname₂, hcs₂, -, -, hlocal₂, -, hrrset₂⟩ := adjustCent_frame cfg (copyCent b)
  obtain ⟨hname₃, hcs₃, -, hflags₃, -, -⟩ := copyCent_frame b
  obtain ⟨htimes, hns, hsoa⟩ := negTimes_adjustCent cfg (copyCent b)
  rw [hcopy] at hname hcs hflags
  refine ⟨?_, ?_, ?_, ?_, ?_, ?_, fun i => ?_⟩
  · rw [← hname, hname', hname₂, hname₃, h.qname]
  · rw [← hflags, hflags', hlocal₂, hflags₃, h.flags]
  · rw [← hcs, hcs', hcs₂, hcs₃]
    exact h.cs_le hc
  · rw [← (refs_copyCent d).1, hcopy, (refs_copyCent _).1, hns, (refs_copyCent b).1, h.cNs]
  · rw [← (refs_copyCent d).2, hcopy, (refs_copyCent _).2, hsoa, (refs_copyCent b).2, h.cSoa]
  · rw [← negTimes_copyCent d, hcopy, negTimes_copyCent, htimes, negTimes_copyCent, h.negTimes,
      hflags₃, h.flags]
  · rw [← rrset_copyCent, hcopy, rrset_copyCent, hrrset₂, rrset_copyCent, h.rrset]
    simp only [Option.map_map]
    refine congrArg (fun f => Option.map f _) (funext fun r => ?_)
    simp only [Function.comp_apply]
    rw [← adjustTtl_bare]
    cases hnocache : r.flags.nocache <;> simp [adjustTtl, RrSet.bare, hnocache]

end ReadBack

end TorAndroid.Dns
