import TorAndroid.Dns.DiskFile

namespace TorAndroid.Dns

open TorAndroid.Lib.ByteBuffer TorAndroid.Lib.TornInput

section Structs

variable {w : Nat}

/-- The time is in the range of `time_t`. -/
def FitsTime (w : Nat) (t : Int) : Prop :=
  -(256 ^ w : Nat) ≤ t * 2 ∧ t * 2 < (256 ^ w : Nat)

theorem length_timeBytes (w : Nat) (t : Int) : (timeBytes w t).length = w :=
  length_wordBytes _ _

theorem timeValue_timeBytes {t : Int} (h : FitsTime w t) : timeValue w (timeBytes w t) = t := by
  have hpos : 0 < ((256 ^ w : Nat) : Int) := Int.natCast_pos.mpr (Nat.pow_pos (by decide))
  have hcast : ((t % (256 ^ w : Nat)).toNat : Int) = t % (256 ^ w : Nat) :=
    Int.toNat_of_nonneg (Int.emod_nonneg t (Int.ne_of_gt hpos))
  have hlt : (t % (256 ^ w : Nat)).toNat < 256 ^ w := by
    have := Int.emod_lt_of_pos t hpos
    omega
  rw [timeValue, timeBytes, wordValue_wordBytes hlt, hcast, Int.emod_bmod]
  exact Int.bmod_eq_of_le_mul_two h.1 h.2

theorem CFlags.ofWord_word (f : CFlags) : CFlags.ofWord f.word = f := by
  have hall : ∀ a b c d e f g : Bool, CFlags.ofWord (CFlags.word ⟨a, b, c, d, e, f, g⟩) =
      ⟨a, b, c, d, e, f, g⟩ := by decide
  exact hall f.1 f.2 f.3 f.4 f.5 f.6 f.7

theorem CFlags.word_lt (f : CFlags) : f.word < 256 ^ 2 := by
  have hall : ∀ a b c d e f g : Bool, CFlags.word ⟨a, b, c, d, e, f, g⟩ < 256 ^ 2 := by decide
  exact hall f.1 f.2 f.3 f.4 f.5 f.6 f.7

theorem DFlags.ofWord_word (negative : Bool) (f : DFlags) :
    DFlags.ofWord (f.word negative) = f ∧ (f.word negative).testBit 0 = negative ∧
      f.word negative < 256 ^ 2 := by
  have hall : ∀ n a b c d : Bool, DFlags.ofWord (DFlags.word n ⟨a, b, c, d⟩) = ⟨a, b, c, d⟩ ∧
      (DFlags.word n ⟨a, b, c, d⟩).testBit 0 = n ∧ DFlags.word n ⟨a, b, c, d⟩ < 256 ^ 2 := by
    decide
  exact hall negative f.1 f.2 f.3 f.4

theorem DnsFile.ofBytes_bytes {x : DnsFile} (hqlen : x.qlen < 256) (hnum : x.numRrs < 256)
    (hflags : x.flags < 256 ^ 2) : DnsFile.ofBytes x.bytes = x := by
  have hbyte : ∀ v, v < 256 → wordValue (wordBytes 1 v) = v := fun v hv =>
    wordValue_wordBytes (by rwa [Nat.pow_one])
  change DnsFile.mk (wordValue (wordBytes 1 x.qlen)) (wordValue (wordBytes 1 x.numRrs))
    (wordValue (wordBytes 2 x.flags)) x.cNs x.cSoa = x
  rw [hbyte _ hqlen, hbyte _ hnum, wordValue_wordBytes hflags]

theorem RrFset.length_bytes (w : Nat) (x : RrFset) : (x.bytes w).length = 4 + (w + w) := by
  simp only [RrFset.bytes, List.length_append, length_wordBytes, length_timeBytes]

theorem RrFset.ofBytes_bytes {x : RrFset} (htp : x.tp < 256) (hnum : x.numRr < 256)
    (hflags : x.flags < 256 ^ 2) (httl : FitsTime w x.ttl) (hts : FitsTime w x.ts) :
    RrFset.ofBytes w (x.bytes w) = x := by
  have hbyte : ∀ v, v < 256 → wordValue (wordBytes 1 v) = v := fun v hv =>
    wordValue_wordBytes (by rwa [Nat.pow_one])
  have htimes : (x.bytes w).drop 4 = timeBytes w x.ttl ++ timeBytes w x.ts := rfl
  have httl' : ((x.bytes w).drop 4).take w = timeBytes w x.ttl := by
    rw [htimes]
    exact List.take_left' (length_timeBytes w _)
  have hts' : (x.bytes w).drop (4 + w) = timeBytes w x.ts := by
    rw [← List.drop_drop, htimes]
    exact List.drop_left' (length_timeBytes w _)
  rw [RrFset.ofBytes, httl', hts', timeValue_timeBytes httl, timeValue_timeBytes hts]
  change RrFset.mk (wordValue (wordBytes 1 x.tp)) (wordValue (wordBytes 1 x.numRr))
    (wordValue (wordBytes 2 x.flags)) x.ttl x.ts = x
  rw [hbyte _ htp, hbyte _ hnum, wordValue_wordBytes hflags]

end Structs

section Readers

variable {w : Nat} {memory : Nat → Bool}

/-- The ends after which the process goes on. -/
def ReadEnd.Stops : ReadEnd → Prop
  | .stop _ => True
  | .exit => False

theorem takes_next {what : String} {n : Nat} {code : List UInt8} (h : code.length = n) :
    Takes ReadEnd.Stops (next (.stop what) n : DiskReader (List UInt8)) code code := by
  subst h
  exact .next trivial code

theorem takes_nextField {what : String} {n : Nat} {code : List UInt8} (h : code.length = n) :
    Takes ReadEnd.Stops (nextField what n) code code := by
  rw [nextField]
  split_ifs with hzero
  · obtain rfl := List.eq_nil_of_length_eq_zero (h.trans hzero)
    exact .pure []
  · exact takes_next h

theorem takes_allocate (hmemory : ∀ n, memory n = true) :
    Takes ReadEnd.Stops (allocate memory) [] () :=
  .silent fun _ _ => ⟨_, if_pos (hmemory _)⟩

theorem takes_reserve (hmemory : ∀ n, memory n = true) (rdlen : Nat) :
    Takes ReadEnd.Stops (reserve memory rdlen) [] () := by
  refine .silent fun x rest => ?_
  by_cases hgrow : x.dtsz < rdlen
  · exact ⟨_, (if_pos hgrow).trans (if_pos (hmemory _))⟩
  · exact ⟨x, if_neg hgrow⟩

theorem takes_readRecord (hmemory : ∀ n, memory n = true) (rf : FileRr) :
    Takes ReadEnd.Stops (readRecord memory) (recordBytes rf) rf.data := by
  rw [readRecord, recordBytes]
  refine (takes_next (length_wordBytes 2 _)).bind ?_
  rw [wordValue_wordBytes rf.rdlen_lt]
  refine (takes_reserve hmemory _).after ?_
  refine (takes_nextField rfl).before ?_
  exact (takes_allocate hmemory).after (.pure rf.data)

/-- The fields of a record set are in the range of their types. -/
structure FileSet.Fits (w : Nat) (x : FileSet) : Prop where
  tp : x.tp < 256
  num : x.rrs.length < 256
  ttl : FitsTime w x.ttl
  ts : FitsTime w x.ts

theorem takes_readSet (hmemory : ∀ n, memory n = true) {x : FileSet} {i : Slot} {prevtp : Nat}
    (h : x.Fits w) (hi : slotOf x.tp = some i) (hlt : prevtp < x.tp) :
    Takes ReadEnd.Stops (readSet w memory prevtp) (setBytes w x)
      (x.tp, ⟨i, x.ttl, x.ts, x.flags, x.rrs.map FileRr.data⟩) := by
  rw [readSet, setBytes]
  refine (takes_next (RrFset.length_bytes w _)).bind ?_
  rw [RrFset.ofBytes_bytes h.tp h.num x.flags.word_lt h.ttl h.ts]
  simp only [hi, if_neg (Nat.not_le.mpr hlt), CFlags.ofWord_word]
  refine (takes_allocate hmemory).after ?_
  exact (Takes.many fun rf _ => takes_readRecord hmemory rf).before (.pure _)

theorem takes_readDiskSets (hmemory : ∀ n, memory n = true) {xs : List FileSet}
    {sets : List DiskSet} {prevtp : Nat} (h : ∀ x ∈ xs, x.Fits w)
    (hsets : readSets prevtp xs = some sets) :
    Takes ReadEnd.Stops (readDiskSets w memory xs.length prevtp) (xs.flatMap (setBytes w))
      sets := by
  induction xs generalizing prevtp sets with
  | nil =>
      cases hsets
      exact .pure []
  | cons x xs ih =>
      rw [List.forall_mem_cons] at h
      rw [readSets, Option.bind_eq_bind, Option.bind_eq_some_iff] at hsets
      obtain ⟨i, hi, hsets⟩ := hsets
      split_ifs at hsets with hlt
      obtain ⟨rest, hrest, hsets⟩ := Option.bind_eq_some_iff.mp hsets
      cases hsets
      rw [List.flatMap_cons]
      refine (takes_readSet hmemory h.1 hi (Nat.lt_of_not_le hlt)).bind ?_
      exact (ih h.2 hrest).before (.pure _)

theorem diskLabels_labels {labels : List Label} (h : ∀ l ∈ labels, l.bytes.length ≤ 63) {n : Nat}
    (hn : labels.length ≤ n) : diskLabels n (labels.flatMap Label.wire) = some labels := by
  induction labels generalizing n with
  | nil => cases n <;> rfl
  | cons l labels ih =>
      rw [List.forall_mem_cons] at h
      obtain ⟨n, rfl⟩ := Nat.exists_eq_succ_of_ne_zero (Nat.ne_zero_of_lt hn)
      have hpos := l.nonempty
      have htake : (l.bytes ++ labels.flatMap Label.wire).take l.bytes.length = l.bytes :=
        List.take_left
      rw [List.flatMap_cons, Label.wire, List.cons_append, diskLabels,
        dif_pos (by rw [l.lengthByte, List.length_append]; omega)]
      simp only [l.lengthByte, htake, List.drop_left, ih h.2 (Nat.le_of_lt_succ hn),
        Option.map_some]

theorem takes_readTimes {ttl ts : Int} (negative : Bool) (httl : FitsTime w ttl)
    (hts : FitsTime w ts) (hzero : negative = false → ttl = 0 ∧ ts = 0) :
    Takes ReadEnd.Stops (readTimes w negative)
      (if negative then timeBytes w ttl ++ timeBytes w ts else []) (ttl, ts) := by
  cases negative with
  | false =>
      obtain ⟨rfl, rfl⟩ := hzero rfl
      exact .pure _
  | true =>
      rw [readTimes, if_pos rfl, if_pos rfl]
      refine (takes_next (by
        rw [List.length_append, length_timeBytes, length_timeBytes])).before ?_
      rw [List.take_left' (length_timeBytes w ttl), List.drop_left' (length_timeBytes w ttl),
        timeValue_timeBytes httl, timeValue_timeBytes hts]
      exact .pure _

end Readers

section Entries

variable {w : Nat} {memory : Nat → Bool} {c : Cent}

/-- The fields of an entry are in the range of their types, and its name can be read. -/
structure Cent.FitsFile (w : Nat) (c : Cent) : Prop where
  name : c.qname.Valid
  times : ∀ x ∈ c.negTimes, FitsTime w x.1 ∧ FitsTime w x.2
  sets : ∀ i, ∀ r ∈ c.rrset i, FitsTime w r.ttl ∧ FitsTime w r.ts

/-- An entry as it is read of what was written of it. -/
def Cent.diskEntry (c : Cent) : DiskEntry where
  qname := c.qname
  negative := c.negative
  flags := c.flags
  ttl := (c.negTimes.getD (0, 0)).1
  ts := (c.negTimes.getD (0, 0)).2
  cNs := c.cNs
  cSoa := c.cSoa
  sets := c.diskSets

theorem read_writeEntry (c : Cent) : (writeEntry c).read = some c.diskEntry := by
  rw [FileEntry.read, readSets_written]
  rfl

theorem length_readSets {xs : List FileSet} {sets : List DiskSet} {prevtp : Nat}
    (h : readSets prevtp xs = some sets) : sets.length = xs.length := by
  induction xs generalizing prevtp sets with
  | nil =>
      cases h
      rfl
  | cons x xs ih =>
      rw [readSets, Option.bind_eq_bind, Option.bind_eq_some_iff] at h
      obtain ⟨i, -, h⟩ := h
      split_ifs at h
      obtain ⟨rest, hrest, h⟩ := Option.bind_eq_some_iff.mp h
      cases h
      rw [List.length_cons, List.length_cons, ih hrest]

/-- The number of record sets that is written is that of the sets that follow. -/
theorem countWritten_eq (c : Cent) : c.countWritten = (writeEntry c).sets.length := by
  rw [← length_readSets (readSets_written c), ← List.length_map (f := DiskSet.index),
    Cent.countWritten, List.countP_eq_length_filter]
  refine List.Perm.length_eq ((List.perm_ext_iff_of_nodup ((List.nodup_finRange _).filter _)
    (diskSets_nodup c)).mpr fun i => ?_)
  rw [List.mem_filter, List.mem_map]
  constructor
  · rintro ⟨-, hi⟩
    obtain ⟨r, hr, hforeign⟩ := (Option.any_eq_true ..).mp hi
    exact ⟨_, exists_diskSets hr (by simpa using hforeign), rfl⟩
  · rintro ⟨x, hx, rfl⟩
    obtain ⟨r, hr, hforeign, -⟩ := mem_diskSets hx
    refine ⟨List.mem_finRange _, ?_⟩
    rw [hr, Option.any_some, hforeign]
    rfl

theorem FitsTime.zero (w : Nat) : FitsTime w 0 := by
  have hpos : 0 < 256 ^ w := Nat.pow_pos (by decide)
  rw [FitsTime]
  omega

theorem Cent.FitsFile.set (h : c.FitsFile w) {x : FileSet} (hx : x ∈ (writeEntry c).sets) :
    x.Fits w := by
  obtain ⟨tp, htp, hset⟩ := List.mem_filterMap.mp hx
  obtain ⟨r, hr, hwrite⟩ := Option.bind_eq_some_iff.mp hset
  obtain ⟨i, -, hi⟩ := Option.bind_eq_some_iff.mp hr
  obtain ⟨httl, hts⟩ := h.sets i r hi
  split_ifs at hwrite
  cases hwrite
  have hall : ∀ tp ∈ c.iterlist, tp < 256 := by
    rw [Cent.iterlist]
    split_ifs <;> decide
  refine ⟨hall tp htp, ?_, httl, hts⟩
  rw [writeRrset, List.length_map]
  exact Nat.lt_succ_of_le (List.length_take_le _ _)

theorem length_labels_le (labels : List Label) :
    labels.length ≤ (labels.flatMap Label.wire).length := by
  induction labels with
  | nil => exact Nat.le_refl _
  | cons l labels ih =>
      rw [List.flatMap_cons, Label.wire, List.cons_append, List.length_cons, List.length_cons,
        List.length_append]
      omega

theorem takes_readDiskEntry (hmemory : ∀ n, memory n = true) (h : c.FitsFile w) :
    Takes ReadEnd.Stops (readDiskEntry w memory) (entryBytes w c) c.diskEntry := by
  have hwire : c.qname.wire = c.qname.labels.flatMap Label.wire ++ [0] := rfl
  have hlen := h.name.length_le
  have hqlen : c.qlen = (c.qname.labels.flatMap Label.wire).length := by
    rw [hwire, List.length_append] at hlen
    rw [Cent.qlen, rhnlen_wire, hwire, List.length_append, List.length_singleton,
      Nat.add_sub_cancel]
    exact Nat.mod_eq_of_lt (Nat.lt_of_succ_le hlen)
  have hname : c.qname.wire.take c.qlen = c.qname.labels.flatMap Label.wire := by
    rw [hwire, hqlen, List.take_left]
  obtain ⟨hflags, hnegative, hword⟩ := DFlags.ofWord_word c.negative c.flags
  have hcount : c.countWritten < 256 := by
    refine Nat.lt_of_le_of_lt List.countP_le_length ?_
    rw [List.length_finRange]
    decide
  have htimes : FitsTime w (writeEntry c).ttl ∧ FitsTime w (writeEntry c).ts := by
    change FitsTime w (c.negTimes.getD (0, 0)).1 ∧ FitsTime w (c.negTimes.getD (0, 0)).2
    cases hneg : c.negTimes with
    | none => exact ⟨.zero w, .zero w⟩
    | some x => exact h.times x hneg
  rw [readDiskEntry, entryBytes, hname]
  refine (takes_next (by rfl)).bind ?_
  rw [DnsFile.ofBytes_bytes (Nat.mod_lt _ (by decide)) hcount hword]
  simp only [hnegative]
  refine (takes_readTimes c.negative htimes.1 htimes.2 fun hpos => ?_).bind ?_
  · have hnone := Cent.negTimes_eq_none_iff.mpr hpos
    change (c.negTimes.getD (0, 0)).1 = 0 ∧ (c.negTimes.getD (0, 0)).2 = 0
    rw [hnone]
    exact ⟨rfl, rfl⟩
  · refine (takes_nextField hqlen.symm).bind ?_
    rw [diskLabels_labels h.name.labels_le (by rw [hqlen]; exact length_labels_le _)]
    simp only [countWritten_eq]
    refine (takes_allocate hmemory).after ?_
    refine (takes_readDiskSets hmemory (fun x hx => h.set hx) (readSets_written c)).before ?_
    rw [hflags]
    exact .pure _

end Entries

end TorAndroid.Dns
