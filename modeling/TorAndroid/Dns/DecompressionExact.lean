import TorAndroid.Dns.Decompression

namespace TorAndroid.Dns

namespace Guarded

def store (tgt : List UInt8) (b : UInt8) : Option (List UInt8) :=
  if tgt.length < dnsNameBufSize then some (tgt ++ [b]) else none

/-- The innermost loops, which copy a segment. -/
def copy (msg : List UInt8) : Nat → Nat → List UInt8 → Option (List UInt8)
  | 0, _, tgt => some tgt
  | lb + 1, lptr, tgt => do
      let b ← msg[lptr]?
      let tgt ← store tgt b
      copy msg lb (lptr + 1) tgt

/-- There is no result when a byte is read outside the message or written outside `tgt`, or when
there are more turns than `fuel`. -/
def jumpedLoop (msg : List UInt8) :
    Nat → Nat → Nat → List UInt8 → Option (Except NameError (List UInt8))
  | 0, _, _, _ => none
  | fuel + 1, lptr, hops, tgt => do
      let lb ← msg[lptr]?
      if 0x3f < lb then
        if lb < 0xc0 then some (.error .format)
        else if msg.length ≤ lptr + 1 then some (.error .format)
        else if 255 < hops + 1 then some (.error .format)
        else
          let lo ← msg[lptr + 1]?
          let offs := pointerOffset lb lo
          if msg.length ≤ offs then some (.error .format)
          else jumpedLoop msg fuel offs (hops + 1) tgt
      else
        let tgt ← store tgt lb
        if lb = 0 then some (.ok tgt)
        else if msg.length ≤ lptr + 1 + lb.toNat then some (.error .format)
        else if dnsNameBufSize - 1 < tgt.length + lb.toNat then some (.error .format)
        else
          let tgt ← copy msg lb.toNat (lptr + 1) tgt
          jumpedLoop msg fuel (lptr + 1 + lb.toNat) hops tgt

def decompressLoop (msg : List UInt8) :
    Nat → Nat → Nat → List UInt8 → Option (Except NameError (List UInt8 × Nat))
  | 0, _, _, _ => none
  | fuel + 1, lptr, newsz, tgt => do
      let lb ← msg[lptr]?
      if 0x3f < lb then
        if lb < 0xc0 then some (.error .format)
        else if newsz - 1 = 0 then some (.error .trunc)
        else if msg.length ≤ lptr + 1 then some (.error .format)
        else
          let lo ← msg[lptr + 1]?
          let offs := pointerOffset lb lo
          if msg.length ≤ offs then some (.error .format)
          else
            let name ← jumpedLoop msg fuel offs 1 tgt
            some (name.map fun tgt => (tgt, newsz - 2))
      else
        let tgt ← store tgt lb
        if lb = 0 then some (.ok (tgt, newsz - 1))
        else if newsz - 1 ≤ lb.toNat then some (.error .trunc)
        else if msg.length ≤ lptr + 1 + lb.toNat then some (.error .format)
        else if dnsNameBufSize - 1 < tgt.length + lb.toNat then some (.error .format)
        else
          let tgt ← copy msg lb.toNat (lptr + 1) tgt
          decompressLoop msg fuel (lptr + 1 + lb.toNat) (newsz - 1 - lb.toNat) tgt

/-- The values of `*src`, `*sz`, `tgt` and `*len` after `RC_OK`. -/
structure Result where
  src : Nat
  sz : Nat
  tgt : List UInt8
  len : Nat
deriving DecidableEq, Repr

/-- The values that are returned when `newsz` bytes are left. -/
def result (src sz : Nat) (x : List UInt8 × Nat) : Result :=
  ⟨src + (sz - x.2), x.2, x.1, x.1.length⟩

def decompressName (msg : List UInt8) (fuel src sz : Nat) : Option (Except NameError Result) :=
  if sz = 0 then some (.error .trunc)
  else if msg.length ≤ src then some (.error .format)
  else (decompressLoop msg fuel src sz []).map fun r => r.map (result src sz)

variable {msg tgt : List UInt8}

theorem store_eq (h : tgt.length < dnsNameBufSize) (b : UInt8) : store tgt b = some (tgt ++ [b]) :=
  if_pos h

theorem copy_eq {lb lptr : Nat} (hin : lptr + lb ≤ msg.length)
    (hbuf : tgt.length + lb ≤ dnsNameBufSize) :
    copy msg lb lptr tgt = some (tgt ++ copyBytes msg lptr lb) := by
  induction lb generalizing lptr tgt with
  | zero => simp [copy, copyBytes]
  | succ lb ih =>
      have hlt : lptr < msg.length := by omega
      rw [copy, List.getElem?_eq_getElem hlt]
      simp only [Option.bind_eq_bind, Option.bind_some]
      rw [store_eq (by omega), Option.bind_some,
        ih (by omega) (by rw [List.length_append, List.length_singleton]; omega), copyBytes,
        copyBytes, List.drop_eq_getElem_cons hlt, List.take_succ_cons, List.append_assoc,
        List.singleton_append]

theorem byte_eq {p : Nat} (h : p < msg.length) : msg[p]? = some (byteAt msg p) := by
  simp [byteAt, List.getD, h]

theorem copy_segment {lb : UInt8} {lptr : Nat} (hin : ¬msg.length ≤ lptr + 1 + lb.toNat)
    (hbuf : ¬dnsNameBufSize - 1 < tgt.length + 1 + lb.toNat) :
    copy msg lb.toNat (lptr + 1) (tgt ++ [lb]) =
        some (tgt ++ lb :: copyBytes msg (lptr + 1) lb.toNat) ∧
      (tgt ++ lb :: copyBytes msg (lptr + 1) lb.toNat).length = tgt.length + 1 + lb.toNat := by
  rw [dnsNameBufSize] at hbuf
  constructor
  · rw [copy_eq (by omega) (by simp [dnsNameBufSize]; omega), List.append_assoc,
      List.singleton_append]
  · simp only [copyBytes, List.length_append, List.length_cons, List.length_take,
      List.length_drop]
    omega

/-- Every reference is counted and every segment fills the buffer, so the turns are bounded
by what is left of both. -/
theorem jumpedLoop_eq {fuel fuel' lptr hops : Nat} (hin : lptr < msg.length) (hhops : hops ≤ 255)
    (hbuf : tgt.length ≤ 255) (hfuel : 510 < fuel + hops + tgt.length)
    (hfuel' : 510 < fuel' + hops + tgt.length) :
    jumpedLoop msg fuel lptr hops tgt = some (Dns.jumpedLoop msg fuel' lptr hops tgt) := by
  induction fuel generalizing fuel' lptr hops tgt with
  | zero => omega
  | succ fuel ih =>
      obtain _ | fuel' := fuel'
      · omega
      · have hstore := store_eq (Nat.lt_succ_of_le hbuf)
        rw [jumpedLoop, Dns.jumpedLoop]
        simp only [byte_eq hin, Option.bind_eq_bind, Option.bind_some, hstore, List.length_append,
          List.length_singleton]
        generalize byteAt msg lptr = lb
        split_ifs with hptr hbits hmsg hmany hoffs hzero hend hfull
        · rfl
        · rfl
        · rfl
        · rw [byte_eq (Nat.lt_of_not_le hmsg), Option.bind_some, if_pos hoffs]
        · rw [byte_eq (Nat.lt_of_not_le hmsg), Option.bind_some, if_neg hoffs]
          exact ih (Nat.lt_of_not_le hoffs) (by omega) hbuf (by omega) (by omega)
        · rfl
        · rfl
        · rfl
        · obtain ⟨hcopy, hlen⟩ := copy_segment hend hfull
          rw [dnsNameBufSize] at hfull
          rw [hcopy, Option.bind_some]
          exact ih (Nat.lt_of_not_le hend) hhops (by omega) (by omega) (by omega)

theorem decompressLoop_eq {fuel fuel' lptr newsz : Nat} (hin : lptr < msg.length)
    (hbuf : tgt.length ≤ 255) (hfuel : 767 < fuel + tgt.length)
    (hfuel' : 255 < fuel' + tgt.length) :
    decompressLoop msg fuel lptr newsz tgt =
      some (Dns.decompressLoop msg fuel' lptr newsz tgt) := by
  induction fuel generalizing fuel' lptr newsz tgt with
  | zero => omega
  | succ fuel ih =>
      obtain _ | fuel' := fuel'
      · omega
      · have hstore := store_eq (Nat.lt_succ_of_le hbuf)
        rw [decompressLoop, Dns.decompressLoop]
        simp only [byte_eq hin, Option.bind_eq_bind, Option.bind_some, hstore, List.length_append,
          List.length_singleton]
        generalize byteAt msg lptr = lb
        split_ifs with hptr hbits hdata hmsg hoffs hzero hdata hend hfull
        · rfl
        · rfl
        · rfl
        · rw [byte_eq (Nat.lt_of_not_le hmsg), Option.bind_some, if_pos hoffs]
        · rw [byte_eq (Nat.lt_of_not_le hmsg), Option.bind_some, if_neg hoffs,
            jumpedLoop_eq (Nat.lt_of_not_le hoffs) (by omega) hbuf (by omega)
              (show 510 < 512 + 1 + tgt.length by omega), Option.bind_some]
          cases Dns.jumpedLoop msg 512 (pointerOffset lb (byteAt msg (lptr + 1))) 1 tgt <;> rfl
        · rfl
        · rfl
        · rfl
        · rfl
        · obtain ⟨hcopy, hlen⟩ := copy_segment hend hfull
          rw [dnsNameBufSize] at hfull
          rw [hcopy, Option.bind_some]
          exact ih (Nat.lt_of_not_le hend) (by omega) (by omega) (by omega)

/-- No access of `decompress_name` is outside the message or the buffer, and it ends. -/
theorem decompressName_eq {fuel : Nat} (hfuel : 768 ≤ fuel) (src sz : Nat) :
    decompressName msg fuel src sz =
      some ((Dns.decompressName msg src sz).map (result src sz)) := by
  rw [decompressName, Dns.decompressName]
  split_ifs with hsz hin
  · rfl
  · rfl
  · have hloop : decompressLoop msg fuel src sz [] = some (Dns.decompressLoop msg 256 src sz []) :=
      decompressLoop_eq (Nat.lt_of_not_le hin) (Nat.zero_le _) hfuel (by decide)
    rw [hloop, Option.map_some]

end Guarded

/-- The name with the segments `ls` stands at offset `p` of the message: its first `n` bytes
go up to the first reference or the null byte, and `h` references are followed. -/
inductive Expands (msg : List UInt8) : Nat → List Label → Nat → Nat → Prop
  | stop {p : Nat} (hp : StandsAt msg p [0]) : Expands msg p [] 0 1
  | label {p h n : Nat} {l : Label} {ls : List Label} (hl : StandsAt msg p l.wire)
      (hshort : l.bytes.length ≤ 63) (hrest : Expands msg (p + l.wire.length) ls h n) :
      Expands msg p (l :: ls) h (l.wire.length + n)
  | jump {p c h : Nat} {ls : List Label} (hp : StandsAt msg p (pointerBytes c))
      (hc : c ≤ 0x3fff) (hrest : Reads msg c ls h) : Expands msg p ls (h + 1) 2

section Exact

variable {msg tgt bs : List UInt8} {p h n : Nat} {ls : List Label}

theorem Expands.reads (hr : Expands msg p ls h n) : Reads msg p ls h := by
  induction hr with
  | stop hp => exact .stop hp
  | label hl hshort _ ih => exact .label hl hshort ih
  | jump hp hc hrest => exact .jump hp hc hrest

theorem Expands.length_pos (hr : Expands msg p ls h n) : 0 < n := by
  cases hr with
  | stop => exact Nat.one_pos
  | label => exact Nat.add_pos_left (Nat.succ_pos _) _
  | jump => exact Nat.two_pos

/-- Two bytes that are a reference are those that `compress_name` writes for its offset. -/
theorem pointerBytes_pointerOffset {hi lo : UInt8} (hge : ¬hi < 0xc0) :
    pointerOffset hi lo ≤ 0x3fff ∧ pointerBytes (pointerOffset hi lo) = [hi, lo] := by
  have hoffs : pointerOffset hi lo = hi.toNat % 64 * 256 + lo.toNat := by
    have hlo : lo.toNat < 2 ^ 8 := lo.toNat_lt
    rw [pointerOffset, show 0x3f = 2 ^ 6 - 1 from rfl, Nat.and_two_pow_sub_one_eq_mod,
      Nat.shiftLeft_eq, Nat.mul_comm, ← Nat.two_pow_add_eq_or_of_lt hlo]
  have hhi := hi.toNat_lt
  have hlo := lo.toNat_lt
  rw [UInt8.lt_iff_toNat_lt, show (0xc0 : UInt8).toNat = 192 from rfl] at hge
  refine ⟨by omega, ?_⟩
  have hhigh := pointerHigh_toNat (pointerOffset hi lo)
  have hlow := pointerLow_toNat (pointerOffset hi lo)
  rw [pointerBytes, List.cons.injEq, List.cons.injEq]
  refine ⟨UInt8.toNat_inj.mp ?_, UInt8.toNat_inj.mp ?_, rfl⟩
  · rw [hhigh, hoffs]
    omega
  · rw [hlow, hoffs]
    omega

theorem standsAt_byte (hin : p < msg.length) : StandsAt msg p [byteAt msg p] := by
  rw [StandsAt, copyBytes, List.drop_eq_getElem_cons hin, List.length_singleton,
    List.take_succ_cons, List.take_zero]
  simp [byteAt, List.getD, hin]

theorem standsAt_pointer {hi : UInt8} (hin : p < msg.length) (hhi : byteAt msg p = hi)
    (hge : ¬hi < 0xc0) (hmsg : ¬msg.length ≤ p + 1) :
    StandsAt msg p (pointerBytes (pointerOffset hi (byteAt msg (p + 1)))) := by
  rw [(pointerBytes_pointerOffset hge).2, StandsAt, copyBytes, List.drop_eq_getElem_cons hin,
    List.length_cons, List.take_succ_cons]
  have hrest : StandsAt msg (p + 1) [byteAt msg (p + 1)] := standsAt_byte (Nat.lt_of_not_le hmsg)
  rw [StandsAt, copyBytes] at hrest
  rw [hrest, ← hhi]
  simp [byteAt, List.getD, hin]

/-- The segment that is copied when the length byte and the bounds are right. -/
theorem exists_segment {lb : UInt8} (hin : p < msg.length) (hlb : byteAt msg p = lb)
    (hshort : ¬0x3f < lb) (hzero : lb ≠ 0) (hend : ¬msg.length ≤ p + 1 + lb.toNat) :
    ∃ l : Label, l.wire = lb :: copyBytes msg (p + 1) lb.toNat ∧ StandsAt msg p l.wire ∧
      l.bytes.length ≤ 63 ∧ l.wire.length = 1 + lb.toNat := by
  have hlen : (copyBytes msg (p + 1) lb.toNat).length = lb.toNat := by
    simp only [copyBytes, List.length_take, List.length_drop]
    omega
  have hle : lb.toNat ≤ 63 := by
    rw [UInt8.lt_iff_toNat_lt] at hshort
    simpa using hshort
  have hpos : 0 < lb.toNat := Nat.pos_of_ne_zero fun h => hzero (UInt8.toNat_inj.mp h)
  have hwire : Label.wire ⟨copyBytes msg (p + 1) lb.toNat, by omega, by omega⟩ =
      lb :: copyBytes msg (p + 1) lb.toNat := by
    simp [Label.wire, hlen]
  refine ⟨_, hwire, ?_, hlen.trans_le hle, by rw [hwire, List.length_cons, hlen, Nat.add_comm]⟩
  rw [hwire, StandsAt, List.length_cons, hlen, copyBytes, List.drop_eq_getElem_cons hin,
    List.take_succ_cons, ← copyBytes, ← hlb]
  simp [byteAt, List.getD, hin]

/-- The second loop returns names that can be read. -/
theorem jumpedLoop_sound {fuel hops : Nat} (hin : p < msg.length) (hhops : hops ≤ 255)
    (hbuf : tgt.length ≤ 255) (hok : jumpedLoop msg fuel p hops tgt = .ok bs) :
    ∃ ls h, Reads msg p ls h ∧ hops + h ≤ 255 ∧ bs = tgt ++ Name.wire ⟨ls⟩ ∧ bs.length ≤ 256 := by
  induction fuel generalizing p hops tgt with
  | zero => cases hok
  | succ fuel ih =>
      rw [jumpedLoop] at hok
      dsimp only at hok
      split_ifs at hok with hptr hbits hmsg hmany hoffs hzero hend hfull
      · obtain ⟨ls, h, hr, hle, hbs, hlen⟩ := ih (Nat.lt_of_not_le hoffs) (by omega) hbuf hok
        exact ⟨ls, h + 1, .jump (standsAt_pointer hin rfl hbits hmsg)
          (pointerBytes_pointerOffset hbits).1 hr, by omega, hbs, hlen⟩
      · refine ⟨[], 0, .stop ?_, hhops, ?_, ?_⟩
        · exact hzero ▸ standsAt_byte hin
        · exact (Except.ok.inj hok).symm.trans (by rw [hzero, Name.wire_nil])
        · rw [← Except.ok.inj hok, List.length_append, List.length_singleton]
          omega
      · obtain ⟨l, hwire, hstands, hshort, hlen⟩ := exists_segment hin rfl hptr hzero hend
        rw [dnsNameBufSize] at hfull
        obtain ⟨ls, h, hr, hle, hbs, hbslen⟩ := ih (Nat.lt_of_not_le hend) hhops
          (by rw [← hwire, List.length_append]; omega) hok
        refine ⟨l :: ls, h, .label hstands hshort ?_, hle, ?_, hbslen⟩
        · rwa [hlen, ← Nat.add_assoc]
        · rw [hbs, ← hwire, List.append_assoc, Name.wire, Name.wire, List.flatMap_cons,
            List.append_assoc]

theorem decompressLoop_sound {fuel newsz left : Nat} (hin : p < msg.length) (hnewsz : 0 < newsz)
    (hbuf : tgt.length ≤ 255) (hok : decompressLoop msg fuel p newsz tgt = .ok (bs, left)) :
    ∃ ls h n, Expands msg p ls h n ∧ h ≤ 255 ∧ n ≤ newsz ∧ left = newsz - n ∧
      bs = tgt ++ Name.wire ⟨ls⟩ ∧ bs.length ≤ 256 := by
  induction fuel generalizing p newsz tgt with
  | zero => cases hok
  | succ fuel ih =>
      rw [decompressLoop] at hok
      dsimp only at hok
      split_ifs at hok with hptr hbits hdata hmsg hoffs hzero hdata hend hfull
      · cases hjump : jumpedLoop msg 512
          (pointerOffset (byteAt msg p) (byteAt msg (p + 1))) 1 tgt with
        | error e =>
            rw [hjump] at hok
            cases hok
        | ok name =>
            rw [hjump] at hok
            cases hok
            obtain ⟨ls, h, hr, hle, hbs, hlen⟩ :=
              jumpedLoop_sound (Nat.lt_of_not_le hoffs) (by omega) hbuf hjump
            exact ⟨ls, h + 1, 2, .jump (standsAt_pointer hin rfl hbits hmsg)
              (pointerBytes_pointerOffset hbits).1 hr, by omega, by omega, rfl, hbs, hlen⟩
      · cases hok
        refine ⟨[], 0, 1, .stop ?_, by omega, hnewsz, rfl, ?_, ?_⟩
        · exact hzero ▸ standsAt_byte hin
        · rw [hzero, Name.wire_nil]
        · rw [List.length_append, List.length_singleton]
          omega
      · obtain ⟨l, hwire, hstands, hshort, hlen⟩ := exists_segment hin rfl hptr hzero hend
        rw [dnsNameBufSize] at hfull
        obtain ⟨ls, h, n, hr, hle, hn, hleft, hbs, hbslen⟩ := ih (Nat.lt_of_not_le hend)
          (by omega) (by rw [← hwire, List.length_append]; omega) hok
        refine ⟨l :: ls, h, l.wire.length + n, .label hstands hshort ?_, hle, by omega, by omega,
          ?_, hbslen⟩
        · rwa [hlen, ← Nat.add_assoc]
        · rw [hbs, ← hwire, List.append_assoc, Name.wire, Name.wire, List.flatMap_cons,
            List.append_assoc]

/-- A name that stands in the message is read, if it fits the buffer and its first part the
data field. -/
theorem decompressLoop_complete {fuel newsz : Nat} (hr : Expands msg p ls h n) (hhops : h ≤ 255)
    (hn : n ≤ newsz) (hlen : tgt.length + labelsLen ls + 1 ≤ 256) (hfuel : ls.length < fuel) :
    decompressLoop msg fuel p newsz tgt = .ok (tgt ++ Name.wire ⟨ls⟩, newsz - n) := by
  induction hr generalizing fuel newsz tgt with
  | stop hp =>
      obtain _ | fuel := fuel
      · cases hfuel
      · obtain ⟨hb, -⟩ := hp.cons
        simp [decompressLoop, hb, Name.wire]
  | @label p h n l ls hl hshort hrest ih =>
      obtain _ | fuel := fuel
      · cases hfuel
      · obtain ⟨hsmall, hne, hval, hcopy⟩ := label_byte_facts hl hshort
        have hin := hrest.reads.lt_length
        have hpos := hrest.length_pos
        have hwire : l.wire.length = l.bytes.length + 1 := rfl
        rw [labelsLen_cons] at hlen
        have hih : decompressLoop msg fuel (p + l.wire.length) (newsz - l.wire.length)
            (tgt ++ l.wire) = .ok (tgt ++ l.wire ++ Name.wire ⟨ls⟩, newsz - l.wire.length - n) :=
          ih hhops (by omega) (by rw [List.length_append]; omega)
            (by rw [List.length_cons] at hfuel; omega)
        rw [decompressLoop]
        simp only [if_neg hsmall, if_neg hne, hval, hcopy]
        rw [if_neg (by omega), if_neg (by omega), if_neg (by rw [dnsNameBufSize]; omega),
          show p + 1 + l.bytes.length = p + l.wire.length by omega,
          show newsz - 1 - l.bytes.length = newsz - l.wire.length by omega, hih, Nat.sub_sub]
        simp [Name.wire]
  | @jump p c h ls hp hc hrest =>
      obtain _ | fuel := fuel
      · cases hfuel
      · obtain ⟨hi, lo, hbytes, hbig, hge, hoffs⟩ := pointerBytes_byte c
        rw [hbytes] at hp
        have hin := hp.length_le (by simp)
        obtain ⟨hb, hlo⟩ := hp.cons
        obtain ⟨hb', -⟩ := hlo.cons
        have htarget := hrest.lt_length
        have hcount := Name.labels_length_le ⟨ls⟩
        simp only [List.length_cons, List.length_nil] at hin hcount
        have hjump : jumpedLoop msg 512 c 1 tgt = .ok (tgt ++ Name.wire ⟨ls⟩) :=
          jumpedLoop_reads hrest (by omega) hlen (by omega)
        rw [decompressLoop]
        simp only [hb, hb', if_pos hbig, if_neg hge, hoffs hc, hjump]
        rw [if_neg (by omega), if_neg (by omega), if_neg (by omega)]
        rfl

/-- `decompress_name` returns exactly the names that stand in the message, fit the buffer
and the data field and are reached through at most 255 references. -/
theorem decompressName_iff {sz left : Nat} : decompressName msg p sz = .ok (bs, left) ↔
    ∃ ls h n, Expands msg p ls h n ∧ h ≤ 255 ∧ n ≤ sz ∧ left = sz - n ∧
      bs = Name.wire ⟨ls⟩ ∧ bs.length ≤ 256 := by
  rw [decompressName]
  constructor
  · intro hok
    split_ifs at hok with hsz hin
    simpa using decompressLoop_sound (Nat.lt_of_not_le hin) (Nat.pos_of_ne_zero hsz)
      (Nat.zero_le _) hok
  · rintro ⟨ls, h, n, hr, hhops, hn, rfl, rfl, hlen⟩
    have hpos := hr.length_pos
    have hcount := Name.labels_length_le ⟨ls⟩
    rw [Name.wire_length] at hlen
    simp only at hlen hcount
    rw [if_neg (by omega), if_neg (Nat.not_le.mpr hr.reads.lt_length)]
    exact decompressLoop_complete hr hhops hn (by simpa using hlen) (by omega)

theorem Reads.labels_le (hr : Reads msg p ls h) : ∀ l ∈ ls, l.bytes.length ≤ 63 := by
  induction hr with
  | stop => simp
  | label _ hshort _ ih => exact List.forall_mem_cons.mpr ⟨hshort, ih⟩
  | jump _ _ _ ih => exact ih

theorem decompressName_valid {sz left : Nat} (hok : decompressName msg p sz = .ok (bs, left)) :
    ∃ n : Name, n.Valid ∧ bs = n.wire := by
  obtain ⟨ls, h, n, hr, -, -, -, rfl, hlen⟩ := decompressName_iff.mp hok
  exact ⟨⟨ls⟩, ⟨hr.reads.labels_le, hlen⟩, rfl⟩

/-- On every message `decompress_name` ends and accesses nothing but the message and the
buffer, and it returns exactly the expansions there are. -/
theorem decompressName_safe_exact (msg : List UInt8) (src sz : Nat) :
    ∃ r, (∀ fuel, 768 ≤ fuel → Guarded.decompressName msg fuel src sz = some r) ∧
      ∀ out : Guarded.Result, r = .ok out ↔
        ∃ ls h n, Expands msg src ls h n ∧ (Name.wire ⟨ls⟩).length ≤ 256 ∧ h ≤ 255 ∧ n ≤ sz ∧
          out.tgt = Name.wire ⟨ls⟩ ∧ out.len = (Name.wire ⟨ls⟩).length ∧
          out.src = src + n ∧ out.sz = sz - n := by
  refine ⟨_, fun fuel hfuel => Guarded.decompressName_eq hfuel src sz, fun out => ?_⟩
  obtain ⟨src', sz', tgt, len⟩ := out
  constructor
  · intro hok
    cases hres : decompressName msg src sz with
    | error e =>
        rw [hres] at hok
        cases hok
    | ok x =>
        obtain ⟨bs, left⟩ := x
        obtain ⟨ls, h, n, hr, hhops, hn, rfl, rfl, hlen⟩ := decompressName_iff.mp hres
        rw [hres] at hok
        cases hok
        refine ⟨ls, h, n, hr, hlen, hhops, hn, rfl, rfl, ?_, rfl⟩
        simp only
        omega
  · rintro ⟨ls, h, n, hr, hlen, hhops, hn, htgt, hout, hsrc, hsz⟩
    simp only at htgt hout hsrc hsz
    have hres : decompressName msg src sz = .ok (Name.wire ⟨ls⟩, sz - n) :=
      decompressName_iff.mpr ⟨ls, h, n, hr, hhops, hn, rfl, rfl, hlen⟩
    rw [hres, htgt, hout, hsrc, hsz]
    simp only [Except.map, Guarded.result, Except.ok.injEq, Guarded.Result.mk.injEq, and_true]
    omega

end Exact

end TorAndroid.Dns
