import TorAndroid.Dns.StoredRecords

namespace TorAndroid.Dns

/-- Where the name stands that should not be compressed. -/
def nameOffset (msg : List UInt8) (h : RrHead) : Option Nat :=
  match h.tp with
  | 45 => if (byteAt msg (h.rdata + 1)).toNat = 3 then some 3 else none
  | 46 => some 18
  | 47 => some 0
  | _ => none

/-- The name in the data of a record is compressed, and the data is too long for a length
field when it is written out. -/
def RrHead.outgrows (msg : List UInt8) (h : RrHead) : Bool :=
  h.cls == 1 && (nameOffset msg h).any fun skip =>
    !isnormalencdomname (copyBytes msg (h.rdata + skip) (h.rdlength - skip)) &&
      (decompressName msg (h.rdata + skip) (h.rdlength - skip)).toOption.any fun x =>
        65535 < skip + x.1.length + x.2

section Lengths

variable {msg data : List UInt8} {h : RrHead}

theorem outgrows_eq_true : h.outgrows msg = true ↔
    h.cls = 1 ∧ ∃ skip name left, nameOffset msg h = some skip ∧
      isnormalencdomname (copyBytes msg (h.rdata + skip) (h.rdlength - skip)) = false ∧
      decompressName msg (h.rdata + skip) (h.rdlength - skip) = .ok (name, left) ∧
      65535 < skip + name.length + left := by
  have hok : ∀ (e : Except NameError (List UInt8 × Nat)) x, e.toOption = some x ↔ e = .ok x := by
    rintro (e | x) y <;> simp [Except.toOption]
  simp only [RrHead.outgrows, Bool.and_eq_true, beq_iff_eq, Option.any_eq_true, Bool.not_eq_true',
    decide_eq_true_eq, hok, Prod.exists]
  refine and_congr_right fun _ => exists_congr fun skip => ?_
  constructor
  · rintro ⟨hskip, hnormal, name, left, hname, hlong⟩
    exact ⟨name, left, hskip, hnormal, hname, hlong⟩
  · rintro ⟨name, left, hskip, hnormal, hname, hlong⟩
    exact ⟨hskip, hnormal, name, left, hname, hlong⟩

theorem nameOffset_other {msg : List UInt8} {h : RrHead} (h45 : h.tp ≠ 45) (h46 : h.tp ≠ 46)
    (h47 : h.tp ≠ 47) : nameOffset msg h = none := by
  unfold nameOffset
  split
  · exact absurd ‹_› h45
  · exact absurd ‹_› h46
  · exact absurd ‹_› h47
  · rfl

/-- Data without fields is copied, or a name in it is looked at. -/
theorem readRdata_cases (hfields : fieldsOf h.tp = none)
    (hread : readRdata msg h.tp h.rdata h.rdlength = some data) :
    (nameOffset msg h = none ∧ data = copyBytes msg h.rdata h.rdlength) ∨
      ∃ skip, nameOffset msg h = some skip ∧
        writeOutName msg h.rdata h.rdlength skip = some data := by
  obtain ⟨owner, tp, cls, ttl, rdlength, rdata⟩ := h
  simp only at hfields hread ⊢
  by_cases h45 : tp = 45
  · subst h45
    have hplain : readRdata msg 45 rdata rdlength = readIpseckey msg rdata rdlength := rfl
    rw [hplain, readIpseckey] at hread
    by_cases hshort : rdlength < 3
    · rw [if_pos hshort] at hread
      cases hread
    rw [if_neg hshort] at hread
    split at hread
    · rename_i hgate
      cases hread
      exact .inl ⟨by simp [nameOffset, hgate], rfl⟩
    · rename_i hgate
      split_ifs at hread
      cases hread
      exact .inl ⟨by simp [nameOffset, hgate], rfl⟩
    · rename_i hgate
      split_ifs at hread
      cases hread
      exact .inl ⟨by simp [nameOffset, hgate], rfl⟩
    · rename_i hgate
      exact .inr ⟨3, by simp [nameOffset, hgate], hread⟩
    · cases hread
  by_cases h46 : tp = 46
  · subst h46
    exact .inr ⟨18, rfl, hread⟩
  by_cases h47 : tp = 47
  · subst h47
    exact .inr ⟨0, rfl, hread⟩
  refine .inl ⟨nameOffset_other h45 h46 h47, ?_⟩
  rw [readRdata.eq_def, hfields] at hread
  simp only at hread
  split at hread
  · split_ifs at hread
    cases hread
    rfl
  · split_ifs at hread
    cases hread
    rfl
  · exact absurd rfl h45
  · exact absurd rfl h46
  · exact absurd rfl h47
  · cases hread
    rfl

theorem length_writeOutName {p n skip : Nat} (hin : p + n ≤ msg.length)
    (hread : writeOutName msg p n skip = some data) :
    (isnormalencdomname (copyBytes msg (p + skip) (n - skip)) = true ∧ data.length = n) ∨
      (isnormalencdomname (copyBytes msg (p + skip) (n - skip)) = false ∧
        ∃ name left, decompressName msg (p + skip) (n - skip) = .ok (name, left) ∧
          data.length = skip + name.length + left ∧ data.length < n + 256) := by
  rw [writeOutName] at hread
  split_ifs at hread with hskip hnormal
  · cases hread
    exact .inl ⟨hnormal, length_copyBytes hin⟩
  · cases hname : decompressName msg (p + skip) (n - skip) with
    | error e =>
        rw [hname] at hread
        cases hread
    | ok x =>
        obtain ⟨bs, left⟩ := x
        rw [hname] at hread
        cases hread
        obtain ⟨ls, k, m, hexpands, -, hm, hleft, -, hlen⟩ := decompressName_iff.mp hname
        have hpos := hexpands.length_pos
        have hhead : (copyBytes msg p skip).length = skip := length_copyBytes (by omega)
        have hrest : (copyBytes msg (p + (n - left)) left).length = left :=
          length_copyBytes (by omega)
        refine .inr ⟨by simpa using hnormal, bs, left, rfl, ?_, ?_⟩
        · simp only [List.length_append, hhead, hrest]
        · simp only [List.length_append, hhead, hrest]
          omega

/-- The data is too long exactly when the name in it makes it so. -/
theorem outgrows_iff (hin : h.rdata + h.rdlength ≤ msg.length) (hrdlength : h.rdlength < 65536)
    (hcls : h.cls = 1) (hread : readRdata msg h.tp h.rdata h.rdlength = some data) :
    (65535 < data.length ↔ h.outgrows msg = true) ∧ data.length < 65536 + 256 := by
  rw [outgrows_eq_true]
  cases hfields : fieldsOf h.tp with
  | some fs =>
      obtain ⟨-, hlen⟩ := fields_of_readRdata hfields hin hread
      have hnone : nameOffset msg h = none := by
        refine nameOffset_other ?_ ?_ ?_
        all_goals
          intro htp
          rw [htp] at hfields
          cases hfields
      refine ⟨⟨fun hlong => by omega, ?_⟩, by omega⟩
      rintro ⟨-, skip, name, left, hskip, -⟩
      rw [hnone] at hskip
      cases hskip
  | none =>
      rcases readRdata_cases hfields hread with ⟨hnone, rfl⟩ | ⟨skip, hskip, hwrite⟩
      · have hlen : (copyBytes msg h.rdata h.rdlength).length = h.rdlength := length_copyBytes hin
        refine ⟨⟨fun hlong => by omega, ?_⟩, by omega⟩
        rintro ⟨-, skip, name, left, hskip, -⟩
        rw [hnone] at hskip
        cases hskip
      · rcases length_writeOutName hin hwrite with ⟨hnormal, hlen⟩ |
          ⟨hnormal, name, left, hname, hlen, hbound⟩
        · refine ⟨⟨fun hlong => by omega, ?_⟩, by omega⟩
          rintro ⟨-, skip', name, left, hskip', hnormal', -⟩
          rw [hskip] at hskip'
          cases hskip'
          rw [hnormal] at hnormal'
          cases hnormal'
        · refine ⟨⟨fun hlong => ⟨hcls, skip, name, left, hskip, hnormal, hname, by omega⟩, ?_⟩,
            by omega⟩
          rintro ⟨-, skip', name', left', hskip', -, hname', hlong⟩
          rw [hskip] at hskip'
          cases hskip'
          rw [hname] at hname'
          cases hname'
          omega

theorem Producible.length_lt {tp : Nat} (h : Producible tp data) : data.length < 65536 + 256 := by
  obtain ⟨msg, p, n, hin, hn, hread⟩ := h
  exact (@outgrows_iff msg data ⟨⟨[]⟩, tp, 1, 0, n, p⟩ hin hn rfl hread).2

theorem Record.Storable.size_le {r : Record} (h : r.Storable) : r.size ≤ 256 + 10 + 65791 := by
  have howner := h.owner.length_le
  have hdata := h.data.length_lt
  rw [Record.size]
  omega

end Lengths

/-- `add_rr` takes all of these records, and `rrs2cent` finds the same ones in the message
that is made. -/
def Reencodes (sz : Sizes) (flags : CFlags) (queryts : Int) (hdr : List UInt8)
    (rs : List (RrSection × Record)) : Prop :=
  ∃ ans centa endpos, addRrs none ⟨hdr, 0, 0, 0, []⟩ rs = some ans ∧
    rrs2cent sz ans.bytes hdr.length rs.length flags queryts [] = (centa, .ok endpos) ∧
    ∀ x, x ∈ (storedRecords centa).map Record.fold ↔ x ∈ (rs.map Prod.snd).map Record.fold

/-- An array of entries before the first record is stored. -/
inductive Fresh (sz : Sizes) : List Cent → Prop
  | empty : Fresh sz []
  | asked {n : Name} (hn : n.Valid) (auth : Bool) :
      Fresh sz [initCent sz n false 0 0 ⟨false, auth, false, false⟩]

section RoundTrip

variable {sz sz' : Sizes} {flags flags' : CFlags} {queryts queryts' : Int} {hdr msg : List UInt8}
  {rs : List (RrSection × Record)}

theorem gathered_nil : Gathered [] [] :=
  ⟨by simp, by simp, by simp⟩

theorem Fresh.gathered {centa : List Cent} (h : Fresh sz centa) : Gathered centa [] := by
  cases h with
  | empty => exact gathered_nil
  | asked hn auth => exact ⟨by simpa using madeOf_initCent sz hn auth, by simp, by simp⟩

theorem Fresh.countRrs {centa : List Cent} (h : Fresh sz centa) : countRrs centa = 0 := by
  cases h with
  | empty => rfl
  | asked hn auth =>
      simp [Dns.countRrs, Cent.measure, Cent.rrset, initCent, RrArray.empty]

/-- Records are read again unless one of them is too long for its length field. -/
theorem reencodes_iff_short (hrs : ∀ x ∈ rs, x.2.Storable)
    (huniform : ∀ x ∈ rs.map Prod.snd, ∀ y ∈ rs.map Prod.snd,
      x.owner.fold = y.owner.fold → x.tp = y.tp → x.ttl = y.ttl)
    (hsmall : hdr.length + (rs.map fun x => x.2.size).sum ≤ 2 ^ 32) :
    Reencodes sz flags queryts hdr rs ↔ ∀ r ∈ rs.map Prod.snd, r.data.length ≤ 65535 := by
  obtain ⟨ans, w, hadd, hbytes, hagain⟩ :=
    @addRrs_spec rs hrs ⟨hdr, 0, 0, 0, []⟩ [] (sound_nil.mono (Nat.zero_le _)) hsmall
  have hread := hagain (hdr ++ w) (by simp) (standsAt_append hdr w)
  simp only at hbytes hread
  constructor
  · rintro ⟨ans', centa, endpos, hadd', hcent, -⟩
    obtain rfl : ans = ans' := Option.some.inj (hadd.symm.trans hadd')
    by_contra hlong
    have hcut := hread.cut (by simpa using hlong)
    have hrc : (readItems (hdr ++ w) rs.length hdr.length).2 = .ok endpos :=
      hbytes ▸ congrArg Prod.snd hcent
    rw [List.length_map, hrc] at hcut
    cases hcut
  · intro hfits
    obtain ⟨rs', hitems, hfolds⟩ := hread.fits hfits
    rw [List.length_map] at hitems
    have hfold : ∀ r' ∈ rs', ∃ r ∈ rs.map Prod.snd, r.fold = r'.fold := fun r' hr' =>
      List.mem_map.mp (hfolds ▸ List.mem_map_of_mem hr')
    have hvalid : ∀ r, .rr r ∈ rs'.map Item.rr → r.owner.Valid := by
      intro r hr
      have hmem : .rr r ∈ (readItems (hdr ++ w) rs.length hdr.length).1 := by rwa [hitems]
      exact (readItems_storable r hmem).owner
    have hgathered := gathered_nil.storeAll sz flags queryts hvalid
    have hrecords : (rs'.map Item.rr).filterMap Item.record = rs' := by
      simp [List.filterMap_map, Function.comp_def, Item.record]
    rw [hrecords, List.nil_append] at hgathered
    refine ⟨ans, (rs'.map Item.rr).foldl (Item.store sz flags queryts) [], hdr.length + w.length,
      hadd, ?_, fun x => ?_⟩
    · rw [hbytes, rrs2cent, hitems]
    · rw [hgathered.records_fold, hfolds]
      · intro r' hr'
        obtain ⟨r, hr, hsame⟩ := hfold r' hr'
        obtain ⟨x, hx, rfl⟩ := List.mem_map.mp hr
        simp only [Record.fold, Prod.mk.injEq] at hsame
        exact hsame.2.1 ▸ (hrs x hx).slot
      · intro x' hx' y' hy' howner htp
        obtain ⟨x, hx, hxs⟩ := hfold x' hx'
        obtain ⟨y, hy, hys⟩ := hfold y' hy'
        simp only [Record.fold, Prod.mk.injEq] at hxs hys
        have httl := huniform x hx y hy (by rw [hxs.1, hys.1, howner])
          (by rw [hxs.2.1, hys.2.1, htp])
        rw [← hxs.2.2.1, ← hys.2.2.1, httl]

variable {pos recnum endpos : Nat} {centa₀ centa : List Cent}

theorem nameOffset_cached {h : RrHead} {skip : Nat} (hskip : nameOffset msg h = some skip) :
    h.tp ≠ 41 ∧ (slotOf h.tp).isSome := by
  by_cases h45 : h.tp = 45
  · rw [h45]
    exact ⟨by decide, by decide⟩
  by_cases h46 : h.tp = 46
  · rw [h46]
    exact ⟨by decide, by decide⟩
  by_cases h47 : h.tp = 47
  · rw [h47]
    exact ⟨by decide, by decide⟩
  rw [nameOffset_other h45 h46 h47] at hskip
  cases hskip

/-- A record that is too long is stored exactly when one in the message has outgrown its length
field. -/
theorem stored_short_iff (hfresh : Fresh sz centa₀)
    (hread : rrs2cent sz msg pos recnum flags queryts centa₀ = (centa, .ok endpos)) :
    (∀ r ∈ storedRecords centa, r.data.length ≤ 65535) ↔
      ∀ h ∈ frames msg recnum pos, h.outgrows msg = false := by
  obtain rfl := congrArg Prod.fst hread
  have hrc : (readItems msg recnum pos).2 = .ok endpos := congrArg Prod.snd hread
  have hitems : ∀ r, .rr r ∈ (readItems msg recnum pos).1 → r.Storable := readItems_storable
  have hgathered := hfresh.gathered.storeAll sz flags queryts fun r hr => (hitems r hr).owner
  constructor
  · intro hshort h hmem
    by_contra hgrown
    rw [Bool.not_eq_false] at hgrown
    obtain ⟨hcls, skip, name, left, hskip, -⟩ := outgrows_eq_true.mp hgrown
    obtain ⟨hopt, hslot⟩ := nameOffset_cached hskip
    obtain ⟨data, hdata, hitem⟩ := readItems_frames (by simp [hrc]) hmem hopt hslot hcls
    obtain ⟨pos', hwithin⟩ := frames_within h hmem
    have hlong := (outgrows_iff hwithin.next hwithin.rdlength hcls hdata).1.mpr hgrown
    obtain ⟨i, hi⟩ := Option.isSome_iff_exists.mp hslot
    obtain ⟨c, hc, -, s, hs, hin⟩ := hgathered.stored ⟨h.owner, h.tp, h.ttl, data⟩
      (List.mem_append_right _ (List.mem_filterMap.mpr ⟨_, hitem, rfl⟩)) i hi
    have hstored : (⟨c.qname, h.tp, s.ttl.toNat, data⟩ : Record) ∈ storedRecords _ :=
      List.mem_flatMap.mpr ⟨c, hc, mem_records.mpr ⟨i, s, hi, hs, hin, rfl, rfl⟩⟩
    have hle : data.length ≤ 65535 := hshort _ hstored
    omega
  · intro hnone r hr
    obtain ⟨c, hc, hr⟩ := List.mem_flatMap.mp hr
    obtain ⟨i, s, hi, hs, hdata, -, -⟩ := mem_records.mp hr
    obtain ⟨x, hx, -, -, hsame⟩ := (hgathered.madeOf c hc).data i s hs r.data hdata
    rw [List.nil_append] at hx
    obtain ⟨item, hitem, hrecord⟩ := List.mem_filterMap.mp hx
    cases item with
    | opt => cases hrecord
    | ignored => cases hrecord
    | rr y =>
        cases hrecord
        obtain ⟨h, hmem, -, hcls, data, hread', rfl⟩ := mem_readItems hitem
        obtain ⟨pos', hwithin⟩ := frames_within h hmem
        by_contra hlong
        rw [← hsame] at hlong
        have hgrown := (outgrows_iff hwithin.next hwithin.rdlength hcls hread').1.mp
          (Nat.lt_of_not_le hlong)
        rw [hnone h hmem] at hgrown
        cases hgrown

/-- There are so few records that offsets in the message that is made do not overflow. -/
theorem size_stored (hmsg : msg.length < 65536) (hfresh : Fresh sz centa₀)
    (hread : rrs2cent sz msg pos recnum flags queryts centa₀ = (centa, .ok endpos))
    (hstorable : ∀ x ∈ rs, x.2.Storable) (hrs : (rs.map Prod.snd).Perm (storedRecords centa)) :
    (rs.map fun x => x.2.size).sum ≤ 5957 * 66057 := by
  obtain rfl := congrArg Prod.fst hread
  have hlen : rs.length ≤ 5957 := by
    have hcount := length_storedRecords
      ((readItems msg recnum pos).1.foldl (Item.store sz flags queryts) centa₀)
    have hall := countRrs_storeAll (fun c hc => (hfresh.gathered.madeOf c hc).gathering) sz flags
      queryts
      (readItems msg recnum pos).1
    have hitems : 11 * (readItems msg recnum pos).1.length ≤ msg.length - pos :=
      length_readItems recnum
    have hperm := hrs.length_eq
    rw [List.length_map] at hperm
    rw [hfresh.countRrs] at hall
    have hsame : rs.length = (storedRecords
      ((readItems msg recnum pos).1.foldl (Item.store sz flags queryts) centa₀)).length := hperm
    omega
  have hsum : (rs.map fun x => x.2.size).sum ≤ (rs.map fun x => x.2.size).length • 66057 :=
    List.sum_le_card_nsmul _ _ fun y hy => by
      obtain ⟨x, hx, rfl⟩ := List.mem_map.mp hy
      exact (hstorable x hx).size_le
  rw [List.length_map, smul_eq_mul] at hsum
  exact hsum.trans (Nat.mul_le_mul_right _ hlen)

/-- The records that were stored are read again when all of them fit their length field. -/
theorem reencodes_iff_stored_short (hmsg : msg.length < 65536) (hhdr : hdr.length < 65536)
    (hfresh : Fresh sz centa₀)
    (hread : rrs2cent sz msg pos recnum flags queryts centa₀ = (centa, .ok endpos))
    (hrs : (rs.map Prod.snd).Perm (storedRecords centa)) :
    Reencodes sz' flags' queryts' hdr rs ↔ ∀ r ∈ storedRecords centa, r.data.length ≤ 65535 := by
  have hitems : ∀ r, .rr r ∈ (readItems msg recnum pos).1 → r.Storable := readItems_storable
  have hgathered := hfresh.gathered.storeAll sz flags queryts fun r hr => (hitems r hr).owner
  have hsame : (readItems msg recnum pos).1.foldl (Item.store sz flags queryts) centa₀ = centa :=
    congrArg Prod.fst hread
  rw [hsame, List.nil_append] at hgathered
  have hall : ∀ r ∈ (readItems msg recnum pos).1.filterMap Item.record, r.Storable := by
    intro r hr
    obtain ⟨item, hitem, hrecord⟩ := List.mem_filterMap.mp hr
    cases item with
    | opt => cases hrecord
    | ignored => cases hrecord
    | rr y =>
        cases hrecord
        exact hitems _ hitem
  have hstorable : ∀ x ∈ rs, x.2.Storable := fun x hx =>
    hgathered.storable hall x.2 (hrs.mem_iff.mp (List.mem_map_of_mem hx))
  have hsize := size_stored hmsg hfresh hread hstorable hrs
  rw [reencodes_iff_short hstorable _ (by omega)]
  · exact ⟨fun h r hr => h r (hrs.mem_iff.mpr hr), fun h r hr => h r (hrs.mem_iff.mp hr)⟩
  · intro x hx y hy howner htp
    exact hgathered.uniform (hrs.mem_iff.mp hx) (hrs.mem_iff.mp hy) howner htp

/-- All records that were stored are encoded and read again, unless the data of one has
outgrown its length field. -/
theorem reencodes_stored_iff (hmsg : msg.length < 65536) (hhdr : hdr.length < 65536)
    (hfresh : Fresh sz centa₀)
    (hread : rrs2cent sz msg pos recnum flags queryts centa₀ = (centa, .ok endpos))
    (hrs : (rs.map Prod.snd).Perm (storedRecords centa)) :
    Reencodes sz' flags' queryts' hdr rs ↔
      ∀ h ∈ frames msg recnum pos, h.outgrows msg = false :=
  (reencodes_iff_stored_short hmsg hhdr hfresh hread hrs).trans (stored_short_iff hfresh hread)

end RoundTrip

section Runs

/-- The records of the name `a`: an exchange `b.a` with the name compressed, and an address. -/
def mailReply : List UInt8 :=
  List.replicate 12 0 ++ [1, 97, 0] ++ putHead 15 60 6 ++ [0, 10, 1, 98, 0xc0, 12] ++
    [0xc0, 12] ++ putHead 1 60 4 ++ [10, 0, 0, 1]

def mailCenta : List Cent :=
  (rrs2cent exampleConfig.sizes mailReply 12 2 noFlags 0 []).1

theorem mailReply_reencodes :
    Reencodes exampleConfig.sizes noFlags 0 (List.replicate 12 0)
      ((storedRecords mailCenta).map (RrSection.answer, ·)) ∧
        (storedRecords mailCenta).length = 2 := by
  have hread : rrs2cent exampleConfig.sizes mailReply 12 2 noFlags 0 [] = (mailCenta, .ok 47) :=
    Prod.ext (by rw [mailCenta]) (by decide +kernel)
  refine ⟨(reencodes_stored_iff (by decide) (by decide) .empty hread (by simp)).mpr ?_,
    by decide +kernel⟩
  decide +kernel

/-- A name of 256 bytes. -/
def longName : Name :=
  ⟨[⟨List.replicate 63 97, by decide, by decide⟩, ⟨List.replicate 63 97, by decide, by decide⟩,
    ⟨List.replicate 63 97, by decide, by decide⟩, ⟨List.replicate 62 97, by decide, by decide⟩]⟩

/-- The first bytes of a message with an `NSEC` record whose name refers to the bytes behind the
reference. -/
def nsecFront : List UInt8 :=
  List.replicate 12 0 ++ Name.wire ⟨[]⟩ ++ putHead 47 60 65300 ++ pointerBytes 25 ++ longName.wire

def nsecHead : RrHead := ⟨⟨[]⟩, 47, 1, 60, 65300, 23⟩

section Nsec

variable {msg : List UInt8}

theorem isnormalencdomname_reference {bs : List UInt8} {p n : Nat} {b : UInt8} (hb : 0x3f < b)
    (hat : StandsAt msg p (b :: bs)) : isnormalencdomname (copyBytes msg p (n + 1)) = false := by
  have hin := hat.length_le (by simp)
  rw [List.length_cons] at hin
  have hbyte : msg[p] = b := by
    simpa [byteAt, List.getD,
      List.getElem?_eq_getElem (show p < msg.length by omega)] using hat.cons.1
  have hne : b ≠ 0 := by
    rintro rfl
    exact absurd hb (by decide)
  rw [copyBytes, List.drop_eq_getElem_cons (by omega), hbyte, List.take_succ_cons,
    isnormalencdomname, dnsNameBufSize, List.take_succ_cons, normalLoop, if_neg hne, if_pos hb]

theorem nsec_name (hat : StandsAt msg 23 (pointerBytes 25))
    (hwire : StandsAt msg 25 longName.wire) :
    decompressName msg 23 65300 = .ok (longName.wire, 65298) := by
  have hvalid : longName.Valid := ⟨by decide +kernel, by decide +kernel⟩
  obtain ⟨hls, hstop⟩ := hwire.append
  rw [flatMap_wire_length] at hstop
  have hreads : Reads msg 25 longName.labels 0 := by
    simpa using Reads.labels hvalid.labels_le hls (.stop hstop)
  have hpointer : StandsAt msg 23 (([] : List Label).flatMap Label.wire ++ pointerBytes 25) := hat
  exact decompressName_pointer hpointer (by decide) (by simp) hreads (by decide)
    (by decide +kernel) (by decide +kernel) (by decide)

theorem nsec_spec (hlen : msg.length = 65323) (hfront : StandsAt msg 0 nsecFront) :
    frames msg 1 12 = [nsecHead] ∧ nsecHead.outgrows msg = true ∧
      (readItems msg 1 12).2 = .ok 65323 := by
  obtain ⟨hfront, hwire⟩ := hfront.append
  obtain ⟨hfront, hpointer⟩ := hfront.append
  obtain ⟨hfront, hhead⟩ := hfront.append
  obtain ⟨-, hroot⟩ := hfront.append
  have hroot : StandsAt msg 12 (Name.wire ⟨[]⟩) := hroot
  have hhead : StandsAt msg 13 (putHead 47 60 65300) := hhead
  have hname := nsec_name hpointer hwire
  have hcompressed : isnormalencdomname (copyBytes msg 23 65300) = false :=
    isnormalencdomname_reference (by decide) hpointer
  have howner := @decompressName_wire msg 12 (msg.length - 12) ⟨[]⟩ hroot ⟨by simp, by decide⟩
    (by rw [hlen]; decide)
  have hread : readHead msg 12 = .ok nsecHead :=
    readHead_written (by decide) (by decide) howner hhead (by rw [hlen]; decide)
  have hdata : readRdata msg 47 23 65300 = writeOutName msg 23 65300 0 := rfl
  have hitem : (readItem msg nsecHead).isSome := by
    rw [readItem, if_neg (by decide), if_pos ⟨by decide, rfl⟩, Option.isSome_map]
    rw [show readRdata msg nsecHead.tp nsecHead.rdata nsecHead.rdlength = _ from hdata,
      writeOutName,
      if_neg (by decide), hcompressed, hname]
    rfl
  obtain ⟨item, hitem⟩ := Option.isSome_iff_exists.mp hitem
  refine ⟨by simp only [frames, hread], ?_, by simp only [readItems, hread, hitem]; rfl⟩
  have hwirelen : longName.wire.length = 256 := by decide +kernel
  exact outgrows_eq_true.mpr ⟨rfl, 0, longName.wire, 65298, rfl, hcompressed, hname, by omega⟩

theorem nsec_not_reencodes (hlen : msg.length = 65323) (hfront : StandsAt msg 0 nsecFront) :
    ∃ centa, rrs2cent exampleConfig.sizes msg 12 1 noFlags 0 [] = (centa, .ok 65323) ∧
      ¬Reencodes exampleConfig.sizes noFlags 0 (List.replicate 12 0)
        ((storedRecords centa).map (RrSection.answer, ·)) := by
  obtain ⟨hframes, hgrown, hrc⟩ := nsec_spec hlen hfront
  have hread : rrs2cent exampleConfig.sizes msg 12 1 noFlags 0 [] = (_, .ok 65323) :=
    Prod.ext rfl hrc
  refine ⟨_, hread, fun h => ?_⟩
  have hshort := (reencodes_iff_stored_short (by rw [hlen]; decide) (by decide) .empty hread
    (by simp)).mp h
  have hsame := (stored_short_iff .empty hread).mp hshort nsecHead (by simp [hframes])
  rw [hgrown] at hsame
  cases hsame

end Nsec

def nsecReply : List UInt8 :=
  nsecFront ++ List.replicate 65042 0

theorem nsecReply_not_reencodes :
    ∃ centa, rrs2cent exampleConfig.sizes nsecReply 12 1 noFlags 0 [] = (centa, .ok 65323) ∧
      ¬Reencodes exampleConfig.sizes noFlags 0 (List.replicate 12 0)
        ((storedRecords centa).map (RrSection.answer, ·)) := by
  have hfront : nsecFront.length = 281 := by decide +kernel
  refine nsec_not_reencodes ?_ ?_
  · rw [nsecReply, List.length_append, hfront, List.length_replicate]
  · rw [StandsAt, copyBytes, List.drop_zero, nsecReply, List.take_left]

end Runs

end TorAndroid.Dns
