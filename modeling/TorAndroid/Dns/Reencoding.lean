import TorAndroid.Dns.RdataRoundTrip

namespace TorAndroid.Dns

/-- What is read of data that was written: nothing when it is too long for its length
field. -/
structure RdataAgain (msg : List UInt8) (tp p n : Nat) (data : List UInt8) : Prop where
  fits : data.length ≤ 65535 → ∃ data', readRdata msg tp p (n % 65536) = some data' ∧
    foldRdata tp data' = foldRdata tp data
  cut : 65535 < data.length → readRdata msg tp p (n % 65536) = none

theorem standsAt_append (hdr w : List UInt8) : StandsAt (hdr ++ w) hdr.length w := by
  rw [StandsAt, copyBytes, List.drop_left, List.take_length]

section Rdata

variable {tp start : Nat} {data : List UInt8} {cb : List CompEl} {done : List (Nat × List UInt8)}

theorem putRdata_fields {fs : List Field} (hfields : fieldsOf tp = some fs)
    (hshape : Shaped fs data) (hlen : data.length ≤ 1040) (hsound : Sound cb done start)
    (hsmall : start + data.length ≤ 2 ^ 32) :
    ∃ w cb' done', putRdata tp data start cb = some (w, cb') ∧ w.length ≤ data.length ∧
      Sound cb' (done ++ done') (start + w.length) ∧
      ∀ msg, (∀ x ∈ done, StandsAt msg x.1 x.2) → StandsAt msg start w →
        (∀ x ∈ done', StandsAt msg x.1 x.2) ∧ RdataAgain msg tp start w.length data := by
  obtain ⟨s, w, done', hrun, hout, hle, hsound', hreads⟩ :=
    putFields_spec hshape (tabled_fieldsOf hfields) (List.nil_append data).symm
      (s := ⟨[], 0, cb⟩) rfl (fun _ => rfl) le_rfl (by simpa using hsound) hsmall
  have hw : s.out = w := by simpa using hout
  refine ⟨w, s.cb, done', ?_, hle, by rwa [hw] at hsound', fun msg hdone hat => ?_⟩
  · rw [putRdata, hfields]
    simp only [hrun, Option.map_some, hw]
  · obtain ⟨hstands, data', hread, hlen', hfold⟩ := hreads msg hdone (by simpa using hat)
    refine ⟨hstands, fun _ => ⟨data', ?_, ?_⟩, fun hlong => by omega⟩
    · have hread' : readFields msg start w.length fs = some data' := by simpa using hread
      rw [readRdata.eq_def, hfields, Nat.mod_eq_of_lt (by omega)]
      simp only [hread', Option.filter_some]
      rw [if_pos (by simp; omega)]
    · rw [foldRdata, foldRdata, hfields]
      exact hfold

theorem putRdata_copied (hfields : fieldsOf tp = none) (hkept : Kept tp data)
    (hcut : CutShort tp data) (hsound : Sound cb done start) :
    ∃ w cb' done', putRdata tp data start cb = some (w, cb') ∧ w.length ≤ data.length ∧
      Sound cb' (done ++ done') (start + w.length) ∧
      ∀ msg, (∀ x ∈ done, StandsAt msg x.1 x.2) → StandsAt msg start w →
        (∀ x ∈ done', StandsAt msg x.1 x.2) ∧ RdataAgain msg tp start w.length data := by
  refine ⟨data, cb, [], ?_, le_rfl, ?_, fun msg _ hat => ⟨by simp, fun hle => ⟨data, ?_, rfl⟩,
    fun hlong => hcut hlong msg start hat⟩⟩
  · rw [putRdata, hfields]
  · simpa using hsound.mono (Nat.le_add_right start data.length)
  · rw [Nat.mod_eq_of_lt (by omega)]
    exact hkept msg start hat

theorem putRdata_spec (h : Producible tp data) (hsound : Sound cb done start)
    (hsmall : start + data.length ≤ 2 ^ 32) :
    ∃ w cb' done', putRdata tp data start cb = some (w, cb') ∧ w.length ≤ data.length ∧
      Sound cb' (done ++ done') (start + w.length) ∧
      ∀ msg, (∀ x ∈ done, StandsAt msg x.1 x.2) → StandsAt msg start w →
        (∀ x ∈ done', StandsAt msg x.1 x.2) ∧ RdataAgain msg tp start w.length data := by
  obtain ⟨msg, p, n, hin, hn, hread⟩ := h
  cases hfields : fieldsOf tp with
  | some fs =>
      obtain ⟨hshape, hlen⟩ := fields_of_readRdata hfields hin hread
      exact putRdata_fields hfields hshape hlen hsound hsmall
  | none =>
      obtain ⟨hkept, hcut⟩ := kept_of_readRdata hfields hin hn hread
      exact putRdata_copied hfields hkept hcut hsound

end Rdata

/-- What is compared of a record: the letters of names are in lower case. -/
def Record.fold (r : Record) : List (List UInt8) × Nat × Nat × List UInt8 :=
  (r.owner.fold, r.tp, r.ttl, foldRdata r.tp r.data)

/-- A record as `rrs2cent` may have stored it. -/
structure Record.Storable (r : Record) : Prop where
  owner : r.owner.Valid
  slot : (slotOf r.tp).isSome
  ttl : r.ttl < 2 ^ 32
  data : Producible r.tp r.data

/-- The most bytes a record takes. -/
def Record.size (r : Record) : Nat :=
  r.owner.wire.length + 10 + r.data.length

/-- What is read of a record that was written. -/
structure RecordAgain (msg : List UInt8) (p next : Nat) (r : Record) : Prop where
  fits : r.data.length ≤ 65535 → ∃ h r', readHead msg p = .ok h ∧ h.next = next ∧
    readItem msg h = some (.rr r') ∧ r'.fold = r.fold
  cut : 65535 < r.data.length → ∃ h, readHead msg p = .ok h ∧ readItem msg h = none

section Record

theorem cached_tp {tp : Nat} (h : (slotOf tp).isSome) : tp < 65536 ∧ tp ≠ 41 := by
  have hlen : rrlkuptab.length = 51 := rfl
  constructor
  · by_contra hle
    rw [slotOf, if_neg (by omega), List.getElem?_eq_none (by omega)] at h
    cases h
  · rintro rfl
    cases h

variable {msg : List UInt8} {p : Nat}

theorem readHead_written {n : Name} {len tp ttl rdlen : Nat} (htp : tp < 65536)
    (httl : ttl < 2 ^ 32)
    (hname : decompressName msg p (msg.length - p) = .ok (n.wire, msg.length - p - len))
    (hhead : StandsAt msg (p + len) (putHead tp ttl rdlen))
    (hin : p + len + 10 + rdlen ≤ msg.length) :
    readHead msg p = .ok ⟨n, tp, 1, ttl, rdlen % 65536, p + len + 10⟩ := by
  have hpos : msg.length - p - (msg.length - p - len) = len := by omega
  obtain ⟨hfront, hrdlen⟩ := hhead.append
  obtain ⟨hfront, httl'⟩ := hfront.append
  obtain ⟨htp', hcls⟩ := hfront.append
  have hrdlen' := int16_of_standsAt hrdlen
  have httl'' := int32_of_standsAt httl'
  have htp'' := int16_of_standsAt htp'
  have hcls' := int16_of_standsAt hcls
  simp only [List.length_append, putInt16, putInt32, List.length_cons, List.length_nil]
    at hrdlen' httl'' hcls'
  rw [readHead]
  simp only [hname, bind, Except.bind, hpos]
  rw [if_neg (by omega), hrdlen', htp'', hcls', httl'', if_neg (by omega), Name.ofWire_wire,
    Nat.mod_eq_of_lt htp, Nat.mod_eq_of_lt httl]

/-- The name, the head and the data of a record that stand behind each other. -/
theorem recordAgain_written {r : Record} (hr : r.Storable) {nbuf w : List UInt8} {n : Name}
    (hne : nbuf ≠ [])
    (hname : decompressName msg p (msg.length - p) =
      .ok (n.wire, msg.length - p - nbuf.length))
    (hfold : n.fold = r.owner.fold)
    (hat : StandsAt msg p (nbuf ++ putHead r.tp r.ttl w.length ++ w))
    (hdata : RdataAgain msg r.tp (p + nbuf.length + 10) w.length r.data)
    (hw : w.length ≤ r.data.length) :
    RecordAgain msg p (p + (nbuf ++ putHead r.tp r.ttl w.length ++ w).length) r := by
  obtain ⟨htp, hopt⟩ := cached_tp hr.slot
  have hin := hat.length_le (by simp [hne])
  obtain ⟨hhead, -⟩ := hat.append
  obtain ⟨-, hhead⟩ := hhead.append
  simp only [List.length_append, length_putHead] at hin ⊢
  have hread := readHead_written htp hr.ttl hname hhead (by omega)
  have hitem : readItem msg ⟨n, r.tp, 1, r.ttl, w.length % 65536, p + nbuf.length + 10⟩ =
      (readRdata msg r.tp (p + nbuf.length + 10) (w.length % 65536)).map fun data =>
        .rr ⟨n, r.tp, r.ttl, data⟩ := by
    rw [readItem, if_neg hopt, if_pos ⟨hr.slot, rfl⟩]
  constructor
  · intro hle
    obtain ⟨data', hdata', hfold'⟩ := hdata.fits hle
    refine ⟨_, ⟨n, r.tp, r.ttl, data'⟩, hread, ?_, by rw [hitem, hdata']; rfl, ?_⟩
    · simp only [RrHead.next]
      rw [Nat.mod_eq_of_lt (by omega)]
      omega
    · simp only [Record.fold, hfold, hfold']
  · intro hlong
    exact ⟨_, hread, by rw [hitem, hdata.cut hlong]; rfl⟩

theorem addRr_spec {ans : Response} {done : List (Nat × List UInt8)}
    (hsound : Sound ans.cb done ans.bytes.length) {r : Record} (hr : r.Storable) (sect : RrSection)
    (hsmall : ans.bytes.length + r.size ≤ 2 ^ 32) :
    ∃ ans' w done', addRr none ans sect r = some ans' ∧ ans'.bytes = ans.bytes ++ w ∧
      w ≠ [] ∧ w.length ≤ r.size ∧ Sound ans'.cb (done ++ done') ans'.bytes.length ∧
      ∀ msg, (∀ x ∈ done, StandsAt msg x.1 x.2) → StandsAt msg ans.bytes.length w →
        (∀ x ∈ done', StandsAt msg x.1 x.2) ∧
          RecordAgain msg ans.bytes.length (ans.bytes.length + w.length) r := by
  rw [Record.size] at hsmall ⊢
  obtain ⟨nbuf, cb, hcompress, hne, hnbuf, hsound₁, hname⟩ :=
    hsound.compress hr.owner le_rfl (by omega)
  obtain ⟨w, cb', done', hput, hw, hsound₂, hdata⟩ :=
    putRdata_spec hr.data (hsound₁.mono (Nat.le_add_right _ 10)) (by omega)
  refine ⟨({ ans with
      bytes := ans.bytes ++ nbuf ++ putHead r.tp r.ttl w.length ++ w,
      cb := cb' } : Response).count sect,
    nbuf ++ putHead r.tp r.ttl w.length ++ w, (ans.bytes.length, nbuf) :: done', ?_, ?_,
    by simp [hne], ?_, ?_, fun msg hdone hat => ?_⟩
  · rw [addRr]
    simp only [hcompress, hput, Option.bind_eq_bind, Option.bind_some]
    rfl
  · simp
  · simp only [List.length_append, length_putHead]
    omega
  · simpa [Nat.add_assoc] using hsound₂
  · obtain ⟨hfront, hdata'⟩ := hat.append
    obtain ⟨hnbuf', -⟩ := hfront.append
    have hin := hnbuf'.length_le hne
    have hdone' : ∀ x ∈ done ++ [(ans.bytes.length, nbuf)], StandsAt msg x.1 x.2 :=
      List.forall_mem_append.mpr ⟨hdone, by simpa using hnbuf'⟩
    obtain ⟨n, hn, hfold⟩ := hname msg hdone hnbuf' (msg.length - ans.bytes.length) (by omega)
    obtain ⟨hstands, hagain⟩ := hdata msg hdone' (by simpa [Nat.add_assoc] using hdata')
    exact ⟨List.forall_mem_cons.mpr ⟨hnbuf', hstands⟩,
      recordAgain_written hr hne hn hfold hat hagain hw⟩

end Record

/-- What is read of records that were written: the reading stops at the first one that is
cut. -/
structure RecordsAgain (msg : List UInt8) (p next : Nat) (rs : List Record) : Prop where
  fits : (∀ r ∈ rs, r.data.length ≤ 65535) → ∃ rs' : List Record,
    readItems msg rs.length p = (rs'.map .rr, .ok next) ∧
      rs'.map Record.fold = rs.map Record.fold
  cut : (∃ r ∈ rs, 65535 < r.data.length) → (readItems msg rs.length p).2 = .error .format

theorem RecordsAgain.cons {msg : List UInt8} {p mid next : Nat} {r : Record} {rs : List Record}
    (hr : RecordAgain msg p mid r) (hrs : RecordsAgain msg mid next rs) :
    RecordsAgain msg p next (r :: rs) := by
  constructor
  · intro hfits
    rw [List.forall_mem_cons] at hfits
    obtain ⟨h, r', hhead, hnext, hitem, hfold⟩ := hr.fits hfits.1
    obtain ⟨rs', hread, hfolds⟩ := hrs.fits hfits.2
    refine ⟨r' :: rs', ?_, by rw [List.map_cons, List.map_cons, hfold, hfolds]⟩
    rw [List.length_cons, readItems]
    simp only [hhead, hitem, hnext, hread, List.map_cons]
  · intro hlong
    rw [List.length_cons, readItems]
    by_cases hle : r.data.length ≤ 65535
    · obtain ⟨h, r', hhead, hnext, hitem, -⟩ := hr.fits hle
      simp only [hhead, hitem, hnext]
      obtain ⟨r'', hmem, hlong⟩ := hlong
      rcases List.mem_cons.mp hmem with rfl | hmem
      · omega
      · exact hrs.cut ⟨r'', hmem, hlong⟩
    · obtain ⟨h, hhead, hitem⟩ := hr.cut (Nat.lt_of_not_le hle)
      simp only [hhead, hitem]

theorem addRrs_spec {rs : List (RrSection × Record)} (hrs : ∀ x ∈ rs, x.2.Storable)
    {ans : Response} {done : List (Nat × List UInt8)}
    (hsound : Sound ans.cb done ans.bytes.length)
    (hsmall : ans.bytes.length + (rs.map fun x => x.2.size).sum ≤ 2 ^ 32) :
    ∃ ans' w, addRrs none ans rs = some ans' ∧ ans'.bytes = ans.bytes ++ w ∧
      ∀ msg, (∀ x ∈ done, StandsAt msg x.1 x.2) → StandsAt msg ans.bytes.length w →
        RecordsAgain msg ans.bytes.length (ans.bytes.length + w.length) (rs.map Prod.snd) := by
  induction rs generalizing ans done with
  | nil =>
      refine ⟨ans, [], rfl, by simp, fun msg _ _ => ⟨fun _ => ⟨[], rfl, rfl⟩, ?_⟩⟩
      rintro ⟨r, hr, -⟩
      cases hr
  | cons x rs ih =>
      rw [List.forall_mem_cons] at hrs
      rw [List.map_cons, List.sum_cons] at hsmall
      obtain ⟨ans₁, w₁, done₁, hadd, hbytes, -, hlen, hsound₁, hread⟩ :=
        addRr_spec hsound hrs.1 x.1 (by omega)
      have hlen₁ : ans₁.bytes.length = ans.bytes.length + w₁.length := by
        rw [hbytes, List.length_append]
      obtain ⟨ans₂, w₂, hadds, hbytes₂, hreads⟩ := ih hrs.2 hsound₁ (by omega)
      refine ⟨ans₂, w₁ ++ w₂, ?_, by rw [hbytes₂, hbytes, List.append_assoc], ?_⟩
      · rw [addRrs, List.foldlM_cons]
        simp only [hadd, Option.bind_eq_bind, Option.bind_some]
        exact hadds
      · intro msg hdone hat
        obtain ⟨hat₁, hat₂⟩ := hat.append
        obtain ⟨hstands, hagain⟩ := hread msg hdone hat₁
        have hrest := hreads msg (List.forall_mem_append.mpr ⟨hdone, hstands⟩) (by rwa [hlen₁])
        rw [hlen₁, Nat.add_assoc] at hrest
        rw [List.map_cons, List.length_append]
        exact .cons hagain hrest

end TorAndroid.Dns
