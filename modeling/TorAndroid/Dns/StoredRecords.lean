import TorAndroid.Dns.Reencoding
import TorAndroid.Dns.ReplyRecords

namespace TorAndroid.Dns

/-- The records of an entry, type by type. -/
def Cent.records (c : Cent) : List Record :=
  c.iterlist.flatMap fun tp =>
    (c.getrrset tp).elim [] fun r => r.rrs.map fun data => ⟨c.qname, tp, r.ttl.toNat, data⟩

def storedRecords (centa : List Cent) : List Record :=
  centa.flatMap Cent.records

theorem slotOf_inj {tp tp' : Nat} {i : Slot} (h : slotOf tp = some i) (h' : slotOf tp' = some i) :
    tp = tp' := by
  have hnodup : rrlkuptab.Nodup := by decide
  have hentry : ∀ {tp}, slotOf tp = some i → 0 < tp ∧ rrlkuptab[tp - 1]? = some i.val := by
    intro tp h
    rw [slotOf] at h
    split_ifs at h with hzero
    obtain ⟨k, hk, h⟩ := Option.bind_eq_some_iff.mp h
    split_ifs at h
    cases h
    exact ⟨Nat.pos_of_ne_zero hzero, hk⟩
  obtain ⟨hpos, hget⟩ := hentry h
  obtain ⟨hpos', hget'⟩ := hentry h'
  have hlt : tp - 1 < rrlkuptab.length := (List.getElem?_eq_some_iff.mp hget).1
  have hsame := (List.getElem?_inj hlt hnodup).mp (hget.trans hget'.symm)
  omega

theorem mem_records {c : Cent} {x : Record} : x ∈ c.records ↔
    ∃ i r, slotOf x.tp = some i ∧ c.rrset i = some r ∧ x.data ∈ r.rrs ∧ x.owner = c.qname ∧
      x.ttl = r.ttl.toNat := by
  simp only [Cent.records, List.mem_flatMap]
  constructor
  · rintro ⟨tp, -, hmem⟩
    cases hget : c.getrrset tp with
    | none => simp [hget] at hmem
    | some r =>
        simp only [hget, Option.elim_some, List.mem_map] at hmem
        obtain ⟨data, hdata, rfl⟩ := hmem
        obtain ⟨i, hi, hr⟩ := Option.bind_eq_some_iff.mp hget
        exact ⟨i, r, hi, hr, hdata, rfl, rfl⟩
  · rintro ⟨i, r, hi, hr, hdata, howner, httl⟩
    obtain ⟨tp, htp, hslot⟩ := mem_iterlist (c := c) (i := i) (by simp [hr])
    obtain rfl := slotOf_inj hi hslot
    refine ⟨x.tp, htp, ?_⟩
    simp only [Cent.getrrset, hi, Option.bind_some, hr, Option.elim_some, List.mem_map]
    exact ⟨x.data, hdata, by rw [← howner, ← httl]⟩

theorem length_records (c : Cent) :
    (c.records.length : Int) ≤ c.measure fun r => r.rrs.length := by
  have hsum : ∀ l : List Nat, ((l.flatMap fun tp => (c.getrrset tp).elim [] fun r =>
      r.rrs.map fun data => (⟨c.qname, tp, r.ttl.toNat, data⟩ : Record)).length : Int) =
        ((l.filterMap slotOf).map fun i =>
          (c.rrset i).elim 0 fun r => (r.rrs.length : Int)).sum := by
    intro l
    induction l with
    | nil => rfl
    | cons tp l ih =>
        rw [List.flatMap_cons, List.length_append, Nat.cast_add, ih]
        cases hslot : slotOf tp with
        | none => simp [Cent.getrrset, hslot]
        | some i => cases hr : c.rrset i <;> simp [Cent.getrrset, hslot, hr]
  rw [Cent.records, hsum, ← List.sum_toFinset _ (iterlist_nodup c)]
  refine Finset.sum_le_univ_sum_of_nonneg fun i => ?_
  cases c.rrset i <;> simp

/-- What the records are that the entries of an array were made of. -/
structure Cent.MadeOf (c : Cent) (rs : List Record) : Prop where
  gathering : c.Gathering
  valid : c.qname.Valid
  data : ∀ i s, c.rrset i = some s → ∀ data ∈ s.rrs, ∃ r ∈ rs, slotOf r.tp = some i ∧
    r.owner.fold = c.qname.fold ∧ r.data = data
  ttl : ∀ i s, c.rrset i = some s → ∃ r ∈ rs, slotOf r.tp = some i ∧
    r.owner.fold = c.qname.fold ∧ (r.ttl : Int) = s.ttl

/-- An array that was made of these records, each in the entry of its owner. -/
structure Gathered (centa : List Cent) (rs : List Record) : Prop where
  madeOf : ∀ c ∈ centa, c.MadeOf rs
  distinct : (centa.map fun c => c.qname.fold).Nodup
  stored : ∀ r ∈ rs, ∀ i, slotOf r.tp = some i →
    ∃ c ∈ centa, c.qname.fold = r.owner.fold ∧ c.Holds i r.data

theorem Cent.MadeOf.mono {c : Cent} {rs rs' : List Record} (h : c.MadeOf rs) (hsub : rs ⊆ rs') :
    c.MadeOf rs' := by
  refine ⟨h.gathering, h.valid, fun i s hs data hdata => ?_, fun i s hs => ?_⟩
  · obtain ⟨r, hr, hprop⟩ := h.data i s hs data hdata
    exact ⟨r, hsub hr, hprop⟩
  · obtain ⟨r, hr, hprop⟩ := h.ttl i s hs
    exact ⟨r, hsub hr, hprop⟩

theorem Cent.MadeOf.build {c : Cent} {rs : List Record} (h : c.MadeOf rs) (sz : Sizes) {r : Record}
    {i : Slot} (hslot : slotOf r.tp = some i) (howner : r.owner.fold = c.qname.fold) (ts : Int)
    (flags : CFlags) : (c.build sz (.rr i r.ttl ts flags r.data)).MadeOf (rs ++ [r]) := by
  obtain ⟨hgather, hqname, hrrset⟩ := h.gathering.build sz i r.ttl ts flags r.data
  have hold := h.mono (List.subset_append_left rs [r])
  have hnew : r ∈ rs ++ [r] := List.mem_append_right rs List.mem_cons_self
  refine ⟨hgather, hqname ▸ h.valid, fun j s hs data hdata => ?_, fun j s hs => ?_⟩
  · rw [hrrset] at hs
    rw [hqname]
    by_cases hj : j = i
    · subst hj
      rw [Function.update_self, Option.some.injEq] at hs
      subst hs
      rcases (mem_withRr ..).mp hdata with rfl | ⟨s, hs, hdata⟩
      · exact ⟨r, hnew, hslot, howner, rfl⟩
      · exact hold.data j s hs data hdata
    · rw [Function.update_of_ne hj] at hs
      exact hold.data j s hs data hdata
  · rw [hrrset] at hs
    rw [hqname]
    by_cases hj : j = i
    · subst hj
      rw [Function.update_self, Option.some.injEq] at hs
      subst hs
      cases hbefore : c.rrset j with
      | none => exact ⟨r, hnew, hslot, howner, rfl⟩
      | some s =>
          by_cases hless : (r.ttl : Int) < s.ttl
          · exact ⟨r, hnew, hslot, howner, by simp only [withRr, if_pos hless]⟩
          · simp only [withRr, if_neg hless]
            exact hold.ttl j s hbefore
    · rw [Function.update_of_ne hj] at hs
      exact hold.ttl j s hs

theorem madeOf_initCent (sz : Sizes) {n : Name} (hn : n.Valid) (auth : Bool) :
    (initCent sz n false 0 0 ⟨false, auth, false, false⟩).MadeOf [] := by
  refine ⟨gathering_initCent sz n auth, hn, ?_, ?_⟩
  · rintro i s ⟨⟩
  · rintro i s ⟨⟩

theorem Gathered.replace {pre post : List Cent} {c d : Cent} {rs : List Record} {r : Record}
    {i : Slot} (h : Gathered (pre ++ c :: post) rs) (hslot : slotOf r.tp = some i)
    (hc : c.qname.fold = r.owner.fold) (hd : d.MadeOf (rs ++ [r])) (hqname : d.qname = c.qname)
    (hholds : ∀ j data, d.Holds j data ↔ (j = i ∧ data = r.data) ∨ c.Holds j data) :
    Gathered (pre ++ d :: post) (rs ++ [r]) := by
  have hold := fun e he => (h.madeOf e he).mono (List.subset_append_left rs [r])
  refine ⟨fun e he => ?_, by simpa [hqname] using h.distinct, fun r' hr' j hj => ?_⟩
  · rcases List.mem_append.mp he with he | he
    · exact hold e (List.mem_append_left _ he)
    · rcases List.mem_cons.mp he with rfl | he
      · exact hd
      · exact hold e (by simp [he])
  · rcases List.mem_append.mp hr' with hr' | hr'
    · obtain ⟨e, he, hname, hdata⟩ := h.stored r' hr' j hj
      rcases List.mem_append.mp he with he | he
      · exact ⟨e, List.mem_append_left _ he, hname, hdata⟩
      · rcases List.mem_cons.mp he with rfl | he
        · exact ⟨d, by simp, by rw [hqname, hname], (hholds j _).mpr (.inr hdata)⟩
        · exact ⟨e, by simp [he], hname, hdata⟩
    · obtain rfl := List.mem_singleton.mp hr'
      rw [hslot, Option.some.injEq] at hj
      exact ⟨d, by simp, by rw [hqname, hc], (hholds j _).mpr (.inl ⟨hj.symm, rfl⟩)⟩

theorem Gathered.append {centa : List Cent} {d : Cent} {rs : List Record} {r : Record} {i : Slot}
    (h : Gathered centa rs) (hslot : slotOf r.tp = some i)
    (hnone : ∀ c ∈ centa, c.qname.fold ≠ r.owner.fold) (hd : d.MadeOf (rs ++ [r]))
    (hqname : d.qname = r.owner) (hholds : d.Holds i r.data) :
    Gathered (centa ++ [d]) (rs ++ [r]) := by
  refine ⟨fun e he => ?_, ?_, fun r' hr' j hj => ?_⟩
  · rcases List.mem_append.mp he with he | he
    · exact (h.madeOf e he).mono (List.subset_append_left ..)
    · exact List.mem_singleton.mp he ▸ hd
  · rw [List.map_append, List.map_singleton, hqname]
    refine List.nodup_append.mpr ⟨h.distinct, List.nodup_singleton _, ?_⟩
    rintro a ha b hb rfl
    obtain ⟨e, he, rfl⟩ := List.mem_map.mp ha
    exact hnone e he (List.mem_singleton.mp hb)
  · rcases List.mem_append.mp hr' with hr' | hr'
    · obtain ⟨e, he, hprop⟩ := h.stored r' hr' j hj
      exact ⟨e, List.mem_append_left _ he, hprop⟩
    · obtain rfl := List.mem_singleton.mp hr'
      rw [hslot, Option.some.injEq] at hj
      exact ⟨d, by simp, by rw [hqname], hj ▸ hholds⟩

theorem Gathered.store {centa : List Cent} {rs : List Record} (h : Gathered centa rs) (sz : Sizes)
    (flags : CFlags) (ts : Int) {r : Record} (hr : r.owner.Valid) :
    Gathered ((Item.rr r).store sz flags ts centa) (rs ++ [r]) := by
  rw [Item.store]
  cases hslot : slotOf r.tp with
  | none =>
      refine ⟨fun c hc => (h.madeOf c hc).mono (List.subset_append_left ..), h.distinct, ?_⟩
      intro r' hr' j hj
      rcases List.mem_append.mp hr' with hr' | hr'
      · exact h.stored r' hr' j hj
      · rw [List.mem_singleton.mp hr', hslot] at hj
        cases hj
  | some i =>
      rw [Option.elim_some]
      rcases rrToCache_cases sz flags ts r i centa with ⟨pre, c, post, rfl, hc, heq⟩ | ⟨hnone, heq⟩
      · have hmade := h.madeOf c (by simp)
        obtain ⟨-, hqname, -⟩ := hmade.gathering.build sz i r.ttl ts flags r.data
        rw [heq]
        exact h.replace hslot hc (hmade.build sz hslot hc.symm ts flags) hqname
          (hmade.gathering.holds_build sz i r.ttl ts flags r.data)
      · have hmade := madeOf_initCent sz hr false
        obtain ⟨-, hqname, -⟩ := hmade.gathering.build sz i r.ttl ts flags r.data
        rw [heq]
        exact h.append hslot hnone ((hmade.build sz hslot rfl ts flags).mono (by simp)) hqname
          ((hmade.gathering.holds_build ..).mpr (.inl ⟨rfl, rfl⟩))

/-- The record of an item, if it is one for the cache. -/
def Item.record : Item → Option Record
  | .rr r => some r
  | _ => none

theorem Gathered.storeAll {centa : List Cent} {rs : List Record} (h : Gathered centa rs)
    (sz : Sizes) (flags : CFlags) (ts : Int) {items : List Item}
    (hitems : ∀ r, .rr r ∈ items → r.owner.Valid) :
    Gathered (items.foldl (Item.store sz flags ts) centa) (rs ++ items.filterMap Item.record) := by
  induction items generalizing centa rs with
  | nil => simpa using h
  | cons item items ih =>
      have hrest := fun r hr => hitems r (List.mem_cons_of_mem _ hr)
      cases item with
      | rr r =>
          have hnext := ih (h.store sz flags ts (hitems r List.mem_cons_self)) hrest
          simpa [Item.record] using hnext
      | opt => exact ih h hrest
      | ignored => exact ih h hrest

/-- The records of a set have one time to live. -/
theorem Gathered.uniform {centa : List Cent} {rs : List Record} (h : Gathered centa rs)
    {x y : Record} (hx : x ∈ storedRecords centa) (hy : y ∈ storedRecords centa)
    (howner : x.owner.fold = y.owner.fold) (htp : x.tp = y.tp) : x.ttl = y.ttl := by
  obtain ⟨c, hc, hx⟩ := List.mem_flatMap.mp hx
  obtain ⟨d, hd, hy⟩ := List.mem_flatMap.mp hy
  obtain ⟨i, s, hi, hs, -, hxc, hxs⟩ := mem_records.mp hx
  obtain ⟨j, t, hj, ht, -, hyd, hyt⟩ := mem_records.mp hy
  obtain rfl : c = d := List.inj_on_of_nodup_map h.distinct hc hd (by rw [← hxc, ← hyd, howner])
  rw [htp, hj, Option.some.injEq] at hi
  subst hi
  rw [hs, Option.some.injEq] at ht
  rw [hxs, hyt, ht]

/-- An array holds the records it was made of when those of a set have one time to live. -/
theorem Gathered.records_fold {centa : List Cent} {rs : List Record} (h : Gathered centa rs)
    (hslot : ∀ r ∈ rs, (slotOf r.tp).isSome)
    (huniform : ∀ x ∈ rs, ∀ y ∈ rs, x.owner.fold = y.owner.fold → x.tp = y.tp → x.ttl = y.ttl)
    (x : List (List UInt8) × Nat × Nat × List UInt8) :
    x ∈ (storedRecords centa).map Record.fold ↔ x ∈ rs.map Record.fold := by
  have httl : ∀ c ∈ centa, ∀ i s, c.rrset i = some s → ∀ r ∈ rs, slotOf r.tp = some i →
      r.owner.fold = c.qname.fold → s.ttl.toNat = r.ttl := by
    intro c hc i s hs r hr hi howner
    obtain ⟨r', hr', hi', howner', hset⟩ := (h.madeOf c hc).ttl i s hs
    rw [← hset, Int.toNat_natCast]
    exact huniform r' hr' r hr (howner'.trans howner.symm) (slotOf_inj hi' hi)
  constructor
  · intro hx
    obtain ⟨y, hy, rfl⟩ := List.mem_map.mp hx
    obtain ⟨c, hc, hy⟩ := List.mem_flatMap.mp hy
    obtain ⟨i, s, hi, hs, hdata, howner, hset⟩ := mem_records.mp hy
    obtain ⟨r, hr, hi', howner', hsame⟩ := (h.madeOf c hc).data i s hs y.data hdata
    have htp := slotOf_inj hi' hi
    refine List.mem_map.mpr ⟨r, hr, ?_⟩
    rw [Record.fold, Record.fold, howner', howner, htp, hsame, hset,
      httl c hc i s hs r hr hi' howner']
  · intro hx
    obtain ⟨r, hr, rfl⟩ := List.mem_map.mp hx
    obtain ⟨i, hi⟩ := Option.isSome_iff_exists.mp (hslot r hr)
    obtain ⟨c, hc, howner, s, hs, hdata⟩ := h.stored r hr i hi
    refine List.mem_map.mpr ⟨⟨c.qname, r.tp, s.ttl.toNat, r.data⟩, ?_, ?_⟩
    · exact List.mem_flatMap.mpr ⟨c, hc, mem_records.mpr ⟨i, s, hi, hs, hdata, rfl, rfl⟩⟩
    · rw [Record.fold, Record.fold, howner, httl c hc i s hs r hr hi howner.symm]

theorem Gathered.storable {centa : List Cent} {rs : List Record} (h : Gathered centa rs)
    (hrs : ∀ r ∈ rs, r.Storable) : ∀ x ∈ storedRecords centa, x.Storable := by
  intro x hx
  obtain ⟨c, hc, hx⟩ := List.mem_flatMap.mp hx
  obtain ⟨i, s, hi, hs, hdata, howner, hset⟩ := mem_records.mp hx
  obtain ⟨r, hr, hslot, -, hsame⟩ := (h.madeOf c hc).data i s hs x.data hdata
  obtain ⟨r', hr', -, -, httl⟩ := (h.madeOf c hc).ttl i s hs
  refine ⟨howner ▸ (h.madeOf c hc).valid, by simp [hi], ?_, ?_⟩
  · rw [hset, ← httl, Int.toNat_natCast]
    exact (hrs r' hr').ttl
  · rw [← slotOf_inj hslot hi, ← hsame]
    exact (hrs r hr).data

section Count

/-- The number of records in an array, set by set. -/
def countRrs (centa : List Cent) : Int :=
  (centa.map fun c => c.measure fun r => r.rrs.length).sum

theorem length_storedRecords (centa : List Cent) :
    ((storedRecords centa).length : Int) ≤ countRrs centa := by
  induction centa with
  | nil => exact le_rfl
  | cons c centa ih =>
      have hc := length_records c
      rw [storedRecords] at ih
      rw [storedRecords, countRrs, List.flatMap_cons, List.length_append, Nat.cast_add,
        List.map_cons, List.sum_cons]
      rw [countRrs] at ih
      omega

theorem measure_build {c : Cent} (h : c.Gathering) (sz : Sizes) (i : Slot) (ttl ts : Int)
    (flags : CFlags) (data : List UInt8) :
    (c.build sz (.rr i ttl ts flags data)).measure (fun r => r.rrs.length) ≤
      c.measure (fun r => r.rrs.length) + 1 := by
  obtain ⟨-, -, hrrset⟩ := h.build sz i ttl ts flags data
  rw [Cent.measure_update hrrset]
  cases hr : c.rrset i with
  | none => simp [withRr]
  | some s =>
      simp only [withRr, Option.elim_some]
      split_ifs
      · omega
      · rw [List.length_append, List.length_singleton, Nat.cast_add, Nat.cast_one]
        omega

theorem countRrs_store {centa : List Cent} (h : ∀ c ∈ centa, c.Gathering) (sz : Sizes)
    (flags : CFlags) (ts : Int) (item : Item) :
    countRrs (item.store sz flags ts centa) ≤ countRrs centa + 1 := by
  cases item with
  | opt => simp [Item.store]
  | ignored => simp [Item.store]
  | rr r =>
      rw [Item.store]
      cases slotOf r.tp with
      | none => simp
      | some i =>
          rw [Option.elim_some]
          rcases rrToCache_cases sz flags ts r i centa with ⟨pre, c, post, rfl, -, heq⟩ | ⟨-, heq⟩
          · have hbuild := measure_build (h c (by simp)) sz i r.ttl ts flags r.data
            simp only [heq, countRrs, List.map_append, List.map_cons, List.sum_append,
              List.sum_cons]
            omega
          · have hbuild :=
              measure_build (gathering_initCent sz r.owner false) sz i r.ttl ts flags r.data
            have hempty : (initCent sz r.owner false 0 0 ⟨false, false, false, false⟩).measure
                (fun r => r.rrs.length) = 0 := by
              simp [Cent.measure, Cent.rrset, initCent, RrArray.empty]
            simp only [heq, countRrs, List.map_append, List.map_cons, List.sum_append,
              List.sum_cons,
              List.map_nil, List.sum_nil]
            omega

theorem countRrs_storeAll {centa : List Cent} (h : ∀ c ∈ centa, c.Gathering) (sz : Sizes)
    (flags : CFlags) (ts : Int) (items : List Item) :
    countRrs (items.foldl (Item.store sz flags ts) centa) ≤ countRrs centa + items.length := by
  induction items generalizing centa with
  | nil => simp
  | cons item items ih =>
      have hnext := ih (store_spec sz flags ts item h).1
      have hone := countRrs_store h sz flags ts item
      rw [List.foldl_cons, List.length_cons, Nat.cast_add, Nat.cast_one]
      omega

end Count

section Items

variable {msg : List UInt8} {pos : Nat}

/-- A head as it was read. -/
structure RrHead.Within (msg : List UInt8) (pos : Nat) (h : RrHead) : Prop where
  owner : h.owner.Valid
  ttl : h.ttl < 2 ^ 32
  rdlength : h.rdlength < 65536
  start : pos + 11 ≤ h.rdata
  next : h.next ≤ msg.length

theorem int16_lt (p : Nat) : int16 msg p < 65536 := by
  have hhi := (byteAt msg p).toNat_lt
  have hlo := (byteAt msg (p + 1)).toNat_lt
  rw [int16]
  omega

theorem readHead_within {h : RrHead} (hread : readHead msg pos = .ok h) : h.Within msg pos := by
  rw [readHead] at hread
  cases hname : decompressName msg pos (msg.length - pos) with
  | error e =>
      simp only [hname, bind, Except.bind] at hread
      cases hread
  | ok x =>
      obtain ⟨bs, left⟩ := x
      obtain ⟨n, hn, rfl⟩ := decompressName_valid hname
      obtain ⟨ls, k, m, hexpands, -, hm, hleft, -, -⟩ := decompressName_iff.mp hname
      have hpos := hexpands.length_pos
      simp only [hname, bind, Except.bind] at hread
      split_ifs at hread with hfixed hdata
      cases hread
      have hhi : int16 msg (pos + (msg.length - pos - left) + 4) < 65536 := int16_lt _
      have hlo : int16 msg (pos + (msg.length - pos - left) + 4 + 2) < 65536 := int16_lt _
      refine ⟨by simpa using hn, ?_, int16_lt _, ?_, ?_⟩
      · simp only [int32]
        omega
      · simp only
        omega
      · simp only [RrHead.next]
        omega

theorem frames_within {recnum : Nat} : ∀ h ∈ frames msg recnum pos, ∃ pos', h.Within msg pos' := by
  induction recnum generalizing pos with
  | zero => simp [frames]
  | succ recnum ih =>
      rw [frames]
      cases hhead : readHead msg pos with
      | error e => simp
      | ok h => exact List.forall_mem_cons.mpr ⟨⟨pos, readHead_within hhead⟩, ih⟩

theorem mem_readItems {recnum : Nat} {r : Record} (hr : .rr r ∈ (readItems msg recnum pos).1) :
    ∃ h ∈ frames msg recnum pos, (slotOf h.tp).isSome ∧ h.cls = 1 ∧
      ∃ data, readRdata msg h.tp h.rdata h.rdlength = some data ∧
        r = ⟨h.owner, h.tp, h.ttl, data⟩ := by
  induction recnum generalizing pos with
  | zero => cases hr
  | succ recnum ih =>
      rw [readItems] at hr
      rw [frames]
      cases hhead : readHead msg pos with
      | error e =>
          simp only [hhead] at hr
          cases hr
      | ok h =>
          cases hitem : readItem msg h with
          | none =>
              simp only [hhead, hitem] at hr
              cases hr
          | some item =>
              simp only [hhead, hitem] at hr
              rcases List.mem_cons.mp hr with rfl | hr
              · rw [readItem] at hitem
                split_ifs at hitem with hopt hcached
                · cases hitem
                · obtain ⟨data, hdata, heq⟩ := Option.map_eq_some_iff.mp hitem
                  cases heq
                  exact ⟨h, List.mem_cons_self, hcached.1, hcached.2, data, hdata, rfl⟩
                · cases hitem
              · obtain ⟨h', hmem, hprop⟩ := ih hr
                exact ⟨h', List.mem_cons_of_mem _ hmem, hprop⟩

/-- A record takes eleven bytes at least. -/
theorem length_readItems (recnum : Nat) :
    11 * (readItems msg recnum pos).1.length ≤ msg.length - pos := by
  induction recnum generalizing pos with
  | zero => simp [readItems]
  | succ recnum ih =>
      rw [readItems]
      cases hhead : readHead msg pos with
      | error e => simp
      | ok h =>
          cases hitem : readItem msg h with
          | none => simp [hitem]
          | some item =>
              have hwithin := readHead_within hhead
              have hstart := hwithin.start
              have hnext := hwithin.next
              have hrest := @ih h.next
              simp only [hitem, List.length_cons]
              rw [RrHead.next] at hnext hrest ⊢
              omega

theorem readItems_storable {recnum : Nat} :
    ∀ r, .rr r ∈ (readItems msg recnum pos).1 → r.Storable := by
  intro r hr
  obtain ⟨h, hmem, hslot, -, data, hdata, rfl⟩ := mem_readItems hr
  obtain ⟨pos', hwithin⟩ := frames_within h hmem
  exact ⟨hwithin.owner, hslot, hwithin.ttl, msg, h.rdata, h.rdlength, hwithin.next,
    hwithin.rdlength, hdata⟩

end Items

end TorAndroid.Dns
