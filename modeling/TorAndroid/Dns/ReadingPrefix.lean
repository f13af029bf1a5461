import TorAndroid.Dns.AnswerContents
import TorAndroid.Dns.StoredRecords

namespace TorAndroid.Dns

section Bytes

variable {msg : List UInt8} (ext : List UInt8) {p n : Nat}

theorem copyBytes_append (h : p + n ≤ msg.length) :
    copyBytes (msg ++ ext) p n = copyBytes msg p n := by
  rw [copyBytes, copyBytes, List.drop_append_of_le_length (by omega),
    List.take_append_of_le_length (by rw [List.length_drop]; omega)]

theorem byteAt_append (h : p < msg.length) : byteAt (msg ++ ext) p = byteAt msg p := by
  simp [byteAt, List.getD, List.getElem?_append_left h]

theorem int16_append (h : p + 2 ≤ msg.length) : int16 (msg ++ ext) p = int16 msg p := by
  rw [int16, int16, byteAt_append ext (by omega), byteAt_append ext (by omega)]

theorem int32_append (h : p + 4 ≤ msg.length) : int32 (msg ++ ext) p = int32 msg p := by
  rw [int32, int32, int16_append ext (by omega), int16_append ext (by omega)]

theorem StandsAt.extend {bs : List UInt8} (h : StandsAt msg p bs) : StandsAt (msg ++ ext) p bs := by
  obtain rfl | hne := eq_or_ne bs []
  · rfl
  · rw [StandsAt, copyBytes_append ext (h.length_le hne)]
    exact h

end Bytes

section Names

variable {msg : List UInt8} (ext : List UInt8) {p h n sz left : Nat} {ls : List Label}
  {bs : List UInt8}

theorem Reads.extend (hr : Reads msg p ls h) : Reads (msg ++ ext) p ls h := by
  induction hr with
  | stop hp => exact .stop (hp.extend ext)
  | label hl hshort _ ih => exact .label (hl.extend ext) hshort ih
  | jump hp hc _ ih => exact .jump (hp.extend ext) hc ih

theorem Expands.extend (hr : Expands msg p ls h n) : Expands (msg ++ ext) p ls h n := by
  induction hr with
  | stop hp => exact .stop (hp.extend ext)
  | label hl hshort _ ih => exact .label (hl.extend ext) hshort ih
  | jump hp hc hrest => exact .jump (hp.extend ext) hc (hrest.extend ext)

/-- A name that was read, in a longer message and with more bytes left. -/
theorem decompressName_extend (hok : decompressName msg p sz = .ok (bs, left)) (k : Nat) :
    decompressName (msg ++ ext) p (sz + k) = .ok (bs, left + k) := by
  obtain ⟨ls, h, n, hr, hh, hn, rfl, hbs, hlen⟩ := decompressName_iff.mp hok
  exact decompressName_iff.mpr ⟨ls, h, n, hr.extend ext, hh, by omega, by omega, hbs, hlen⟩

theorem left_le_of_decompressName (hok : decompressName msg p sz = .ok (bs, left)) :
    left ≤ sz := by
  obtain ⟨ls, h, n, -, -, -, rfl, -⟩ := decompressName_iff.mp hok
  exact Nat.sub_le _ _

end Names

section Data

variable {msg : List UInt8} (ext : List UInt8) {p left tp : Nat} {data : List UInt8}

theorem readField_extend {f : Field} {left' : Nat} (hin : p + left ≤ msg.length)
    (h : readField msg p left f = some (data, left')) :
    readField (msg ++ ext) p left f = some (data, left') ∧ left' ≤ left := by
  cases f with
  | bytes n =>
      rw [readField] at h ⊢
      split_ifs at h with hn
      cases h
      rw [if_neg hn, copyBytes_append ext (by omega)]
      exact ⟨rfl, Nat.sub_le _ _⟩
  | name =>
      rw [readField] at h ⊢
      cases hname : decompressName msg p left with
      | error e =>
          rw [hname] at h
          cases h
      | ok x =>
          rw [hname] at h
          cases h
          have hext := decompressName_extend ext hname 0
          rw [Nat.add_zero, Nat.add_zero] at hext
          exact ⟨by rw [hext]; rfl, left_le_of_decompressName hname⟩
  | texts =>
      rw [readField] at h ⊢
      obtain ⟨k, hk, heq⟩ := Option.map_eq_some_iff.mp h
      cases heq
      obtain ⟨a, b, ha, hb, hk', h4, hleft, hleft', hle⟩ := textsLen_eq_some.mp hk
      have hext : textsLen (msg ++ ext) p left = some k := by
        refine textsLen_eq_some.mpr ⟨a, b, ?_, ?_, ?_, h4, hleft, hleft', hle⟩
        · rw [byteAt_append ext (by omega), ha]
        · rw [byteAt_append ext (by omega), hb]
        · rw [byteAt_append ext (by omega), hk']
      rw [hext, Option.map_some, copyBytes_append ext (by omega)]
      exact ⟨rfl, Nat.sub_le _ _⟩
  | rest =>
      cases h
      rw [readField, copyBytes_append ext hin]
      exact ⟨rfl, Nat.zero_le _⟩

theorem readFields_extend {fs : List Field} (hin : p + left ≤ msg.length)
    (h : readFields msg p left fs = some data) :
    readFields (msg ++ ext) p left fs = some data := by
  induction fs generalizing p left data with
  | nil => exact h
  | cons f fs ih =>
      rw [readFields] at h ⊢
      obtain ⟨⟨bs, left'⟩, hfield, h⟩ := Option.bind_eq_some_iff.mp h
      obtain ⟨more, hmore, heq⟩ := Option.bind_eq_some_iff.mp h
      obtain ⟨hfield', hle⟩ := readField_extend ext hin hfield
      have hmore' := ih (by omega) hmore
      rw [hfield', Option.bind_eq_bind, Option.bind_some]
      simp only [hmore', Option.bind_eq_bind, Option.bind_some]
      exact heq

theorem writeOutName_extend {skip : Nat} (hin : p + left ≤ msg.length)
    (h : writeOutName msg p left skip = some data) :
    writeOutName (msg ++ ext) p left skip = some data := by
  rw [writeOutName] at h ⊢
  split_ifs at h with hskip hnormal
  · rw [if_neg hskip, copyBytes_append ext (by omega), if_pos hnormal, copyBytes_append ext hin]
    exact h
  · rw [if_neg hskip, copyBytes_append ext (by omega), if_neg hnormal]
    cases hname : decompressName msg (p + skip) (left - skip) with
    | error e =>
        rw [hname] at h
        cases h
    | ok x =>
        rw [hname] at h
        have hext := decompressName_extend ext hname 0
        rw [Nat.add_zero, Nat.add_zero] at hext
        have hle := left_le_of_decompressName hname
        rw [hext, copyBytes_append ext (by omega)]
        simp only [Except.toOption, Option.bind_eq_bind, Option.bind_some] at h ⊢
        rw [copyBytes_append ext (by omega)]
        exact h

theorem readIpseckey_extend (hin : p + left ≤ msg.length)
    (h : readIpseckey msg p left = some data) : readIpseckey (msg ++ ext) p left = some data := by
  have hshort : ¬left < 3 := by
    intro hlt
    rw [readIpseckey, if_pos hlt] at h
    cases h
  rw [readIpseckey, if_neg hshort] at h ⊢
  rw [byteAt_append ext (by omega), copyBytes_append ext hin]
  split at h
  · exact h
  · exact h
  · exact h
  · exact writeOutName_extend ext hin h
  · cases h

theorem readRdata_extend (hin : p + left ≤ msg.length) (h : readRdata msg tp p left = some data) :
    readRdata (msg ++ ext) tp p left = some data := by
  rw [readRdata.eq_def] at h ⊢
  cases hfields : fieldsOf tp with
  | some fs =>
      simp only [hfields] at h ⊢
      obtain ⟨hread, hlen⟩ := Option.filter_eq_some_iff.mp h
      exact Option.filter_eq_some_iff.mpr ⟨readFields_extend ext hin hread, hlen⟩
  | none =>
      simp only [hfields] at h ⊢
      rw [copyBytes_append ext hin]
      split at h
      · exact h
      · exact h
      · exact readIpseckey_extend ext hin h
      · exact writeOutName_extend ext hin h
      · exact writeOutName_extend ext hin h
      · exact h

end Data

section Messages

variable {msg : List UInt8} (ext : List UInt8) {p pos : Nat}

theorem readHead_extend {h : RrHead} (hread : readHead msg p = .ok h) :
    readHead (msg ++ ext) p = .ok h := by
  rw [readHead] at hread ⊢
  cases hname : decompressName msg p (msg.length - p) with
  | error e =>
      simp only [hname, bind, Except.bind] at hread
      cases hread
  | ok x =>
      obtain ⟨bs, left⟩ := x
      have hle := left_le_of_decompressName hname
      have hin : p < msg.length := by
        obtain ⟨ls, k, m, hexpands, -⟩ := decompressName_iff.mp hname
        exact hexpands.reads.lt_length
      have hext := decompressName_extend ext hname ext.length
      have hleft : (msg ++ ext).length - p = msg.length - p + ext.length := by
        rw [List.length_append]
        omega
      rw [hleft, hext]
      simp only [hname, bind, Except.bind] at hread ⊢
      split_ifs at hread with hfixed hdata
      have hpos : p + (msg.length - p + ext.length - (left + ext.length)) =
          p + (msg.length - p - left) := by omega
      rw [hpos, if_neg (by omega), int16_append ext (by omega), if_neg (by omega),
        int16_append ext (by omega), int16_append ext (by omega), int32_append ext (by omega)]
      exact hread

theorem readItem_extend {h : RrHead} (hin : h.next ≤ msg.length) (hhdr : 4 ≤ msg.length)
    {item : Item} (hread : readItem msg h = some item) : readItem (msg ++ ext) h = some item := by
  rw [readItem] at hread ⊢
  rw [hdrRcode, byteAt_append ext (by omega)]
  split_ifs at hread ⊢
  · exact hread
  · obtain ⟨data, hdata, heq⟩ := Option.map_eq_some_iff.mp hread
    rw [readRdata_extend ext hin hdata, Option.map_some, heq]
  · exact hread

/-- What is read of a part of a message before it ends is read of the whole of it. -/
theorem readItems_extend (hhdr : 4 ≤ msg.length) (recnum : Nat) :
    (readItems msg recnum pos).1 <+: (readItems (msg ++ ext) recnum pos).1 ∧
      ∀ next, (readItems msg recnum pos).2 = .ok next →
        readItems (msg ++ ext) recnum pos = readItems msg recnum pos := by
  induction recnum generalizing pos with
  | zero => exact ⟨List.prefix_refl _, fun _ _ => rfl⟩
  | succ recnum ih =>
      simp only [readItems]
      cases hhead : readHead msg pos with
      | error e => exact ⟨List.nil_prefix, fun _ h => by cases h⟩
      | ok h =>
          rw [readHead_extend ext hhead]
          simp only
          cases hitem : readItem msg h with
          | none => exact ⟨List.nil_prefix, fun _ h => by cases h⟩
          | some item =>
              obtain ⟨hsub, hall⟩ := @ih h.next
              rw [readItem_extend ext (readHead_within hhead).next hhdr hitem]
              refine ⟨(List.prefix_cons_inj item).mpr hsub, fun next hnext => ?_⟩
              simp only [hall next hnext]

theorem readQuestions_extend (qdcount : Nat) :
    (readQuestions msg qdcount pos).1 <+: (readQuestions (msg ++ ext) qdcount pos).1 ∧
      ∀ next, (readQuestions msg qdcount pos).2 = .ok next →
        readQuestions (msg ++ ext) qdcount pos = readQuestions msg qdcount pos := by
  induction qdcount generalizing pos with
  | zero => exact ⟨List.prefix_refl _, fun _ _ => rfl⟩
  | succ qdcount ih =>
      simp only [readQuestions]
      cases hname : decompressName msg pos (msg.length - pos) with
      | error e => exact ⟨List.nil_prefix, fun _ h => by cases h⟩
      | ok x =>
          obtain ⟨bs, left⟩ := x
          have hle := left_le_of_decompressName hname
          have hin : pos < msg.length := by
            obtain ⟨ls, k, m, hexpands, -⟩ := decompressName_iff.mp hname
            exact hexpands.reads.lt_length
          have hext := decompressName_extend ext hname ext.length
          have hleft : (msg ++ ext).length - pos = msg.length - pos + ext.length := by
            rw [List.length_append]
            omega
          rw [hleft, hext]
          simp only
          by_cases hshort : left < 4
          · rw [if_pos hshort]
            exact ⟨List.nil_prefix, fun _ h => by cases h⟩
          · have hpos : pos + (msg.length - pos + ext.length - (left + ext.length)) =
                pos + (msg.length - pos - left) := by omega
            obtain ⟨hsub, hall⟩ := @ih (pos + (msg.length - pos - left) + 4)
            rw [if_neg hshort, if_neg (by omega), hpos, int16_append ext (by omega),
              int16_append ext (by omega)]
            refine ⟨(List.prefix_cons_inj _).mpr hsub, fun next hnext => ?_⟩
            simp only [hall next hnext]

end Messages

end TorAndroid.Dns
