import TorAndroid.Dns.Compression

namespace TorAndroid.Dns

/-- Names a message can hold. -/
structure Name.Valid (n : Name) : Prop where
  labels_le : ∀ l ∈ n.labels, l.bytes.length ≤ 63
  length_le : n.wire.length ≤ 256

namespace Name

/-- The last `k` segments. -/
def tail (n : Name) (k : Nat) : List Label :=
  (n.labels.reverse.take k).reverse

/-- The segments before the last `k`. -/
def head (n : Name) (k : Nat) : List Label :=
  (n.labels.reverse.drop k).reverse

theorem head_append_tail (n : Name) (k : Nat) : n.head k ++ n.tail k = n.labels := by
  rw [head, tail, ← List.reverse_append, List.take_append_drop, List.reverse_reverse]

theorem labelsLen_head (n : Name) (k : Nat) : labelsLen (n.head k) = n.offset k := by
  rw [head, labelsLen_reverse, offset]

theorem offset_add_tail (n : Name) (k : Nat) :
    n.offset k + labelsLen (n.tail k) = labelsLen n.labels := by
  rw [← labelsLen_head, ← labelsLen_append, head_append_tail]

theorem labels_length_le (n : Name) : 2 * n.labels.length ≤ labelsLen n.labels := by
  obtain ⟨ls⟩ := n
  induction ls with
  | nil => simp
  | cons l ls ih =>
      have := l.nonempty
      simp only [List.length_cons, labelsLen_cons] at ih ⊢
      omega

theorem tail_length {n : Name} {k : Nat} (h : k ≤ n.labels.length) : (n.tail k).length = k := by
  simp [tail, h]

theorem tail_zero (n : Name) : n.tail 0 = [] := by
  simp [tail]

theorem head_zero (n : Name) : n.head 0 = n.labels := by
  simp [head]

/-- The segments between two parts at the end of a name. -/
def between (n : Name) (m k : Nat) : List Label :=
  ((n.labels.reverse.take k).drop m).reverse

theorem head_eq_append_between (n : Name) {m k : Nat} (h : m ≤ k) (hk : k ≤ n.labels.length) :
    n.head m = n.head k ++ n.between m k := by
  have hsplit : n.labels.reverse.drop m =
      (n.labels.reverse.take k).drop m ++ n.labels.reverse.drop k := by
    rw [← List.drop_append_of_le_length (by simp; omega), List.take_append_drop]
  rw [head, hsplit, List.reverse_append, head, between]

theorem tail_eq_between_append (n : Name) {m k : Nat} (h : m ≤ k) :
    n.tail k = n.between m k ++ n.tail m := by
  have hsplit := List.take_append_drop m (n.labels.reverse.take k)
  rw [List.take_take, Nat.min_eq_left h] at hsplit
  rw [tail, between, tail, ← List.reverse_append, hsplit]

theorem le_common {a b : Name} {k : Nat} :
    k ≤ a.common b ↔ k ≤ a.labels.length ∧ k ≤ b.labels.length ∧
      (a.tail k).map Label.fold = (b.tail k).map Label.fold := by
  rw [common, le_commonLabels]
  simp [tail]

theorem fold_split (n : Name) (k : Nat) :
    n.fold = (n.head k).map Label.fold ++ (n.tail k).map Label.fold := by
  rw [fold, ← List.map_append, head_append_tail]

/-- All of a name matches if the other one is the same or a subdomain, the case of letters aside. -/
theorem offset_eq_zero_iff (a b : Name) :
    a.offset (a.common b) = 0 ↔ a.fold <:+ b.fold := by
  obtain ⟨-, -, htails⟩ := le_common.mp (Nat.le_refl (a.common b))
  have hempty : a.offset (a.common b) = 0 ↔ a.head (a.common b) = [] := by
    rw [← a.labelsLen_head]
    cases a.head (a.common b) with
    | nil => simp
    | cons l labels => simp
  rw [hempty]
  constructor
  · intro hhead
    rw [a.fold_split (a.common b), hhead, htails, b.fold_split (a.common b)]
    exact List.suffix_append _ _
  · rintro ⟨front, hfront⟩
    -- all of the segments are shared
    have hlen : b.labels.length = front.length + a.labels.length := by
      have hfold := congrArg List.length hfront
      rw [List.length_append, fold, fold, List.length_map, List.length_map] at hfold
      exact hfold.symm
    have hshared : a.labels.length ≤ a.common b := by
      refine le_common.mpr ⟨Nat.le_refl _, by omega, ?_⟩
      have hall : a.tail a.labels.length = a.labels := by
        rw [tail, List.take_of_length_le (Nat.le_of_eq List.length_reverse), List.reverse_reverse]
      have hsplit := b.fold_split a.labels.length
      rw [← hfront] at hsplit
      rw [hall]
      refine (List.append_inj' hsplit ?_).2
      rw [List.length_map, tail_length (by omega), fold, List.length_map]
    rw [head, List.drop_eq_nil_of_le (by rwa [List.length_reverse]), List.reverse_nil]

end Name

/-- The bytes `bs` stand at offset `p` of the message. -/
def StandsAt (msg : List UInt8) (p : Nat) (bs : List UInt8) : Prop :=
  copyBytes msg p bs.length = bs

instance (msg : List UInt8) (p : Nat) (bs : List UInt8) : Decidable (StandsAt msg p bs) :=
  inferInstanceAs (Decidable (copyBytes msg p bs.length = bs))

namespace StandsAt

variable {msg : List UInt8} {p : Nat}

theorem length_le {bs : List UInt8} (h : StandsAt msg p bs) (hne : bs ≠ []) :
    p + bs.length ≤ msg.length := by
  have hlen := congrArg List.length h
  simp only [copyBytes, List.length_take, List.length_drop] at hlen
  have := List.length_pos_iff.mpr hne
  omega

theorem append {as bs : List UInt8} (h : StandsAt msg p (as ++ bs)) :
    StandsAt msg p as ∧ StandsAt msg (p + as.length) bs := by
  have hall : (msg.drop p).take (as.length + bs.length) = as ++ bs := by
    simpa [StandsAt, copyBytes] using h
  constructor
  · have htake := congrArg (List.take as.length) hall
    simpa [StandsAt, copyBytes, List.take_take] using htake
  · have hdrop := congrArg (List.drop as.length) hall
    simpa [StandsAt, copyBytes, List.drop_take, Nat.add_comm] using hdrop

theorem cons {b : UInt8} {bs : List UInt8} (h : StandsAt msg p (b :: bs)) :
    byteAt msg p = b ∧ StandsAt msg (p + 1) bs := by
  have hsplit : StandsAt msg p ([b] ++ bs) := h
  obtain ⟨hb, hbs⟩ := hsplit.append
  refine ⟨?_, by simpa using hbs⟩
  have hlt := hb.length_le (by simp)
  rw [List.length_singleton] at hlt
  have hdrop : (msg.drop p).take 1 = [b] := hb
  rw [List.drop_eq_getElem_cons (by omega), List.take_succ_cons, List.take_zero] at hdrop
  simpa [byteAt, List.getD, List.getElem?_eq_getElem (show p < msg.length by omega)] using
    hdrop

end StandsAt

theorem pointerHigh_toNat (c : Nat) :
    (UInt8.ofNat (0xc0 ||| ((c &&& 0x3f00) >>> 8))).toNat = 192 + c / 256 % 64 := by
  have hx : (c &&& 0x3f00) >>> 8 = c / 256 % 64 := by
    rw [Nat.shiftRight_and_distrib, Nat.shiftRight_eq_div_pow,
      show 0x3f00 >>> 8 = 2 ^ 6 - 1 from rfl, Nat.and_two_pow_sub_one_eq_mod]
  have hlt : c / 256 % 64 < 2 ^ 6 := Nat.mod_lt _ (by decide)
  rw [hx, show 0xc0 = 2 ^ 6 * 3 from rfl, ← Nat.two_pow_add_eq_or_of_lt hlt,
    UInt8.toNat_ofNat']
  omega

theorem pointerLow_toNat (c : Nat) : (UInt8.ofNat (c &&& 0xff)).toNat = c % 256 := by
  rw [show 0xff = 2 ^ 8 - 1 from rfl, Nat.and_two_pow_sub_one_eq_mod, UInt8.toNat_ofNat']
  omega

theorem pointerBytes_byte (c : Nat) :
    ∃ hi lo, pointerBytes c = [hi, lo] ∧ 0x3f < hi ∧ ¬hi < 0xc0 ∧
      (c ≤ 0x3fff → pointerOffset hi lo = c) := by
  have hhi := pointerHigh_toNat c
  have hlo := pointerLow_toNat c
  refine ⟨_, _, rfl, ?_, ?_, ?_⟩
  · rw [UInt8.lt_iff_toNat_lt, hhi]
    simp
    omega
  · rw [UInt8.lt_iff_toNat_lt, hhi]
    simp
  · intro hc
    have hlt : c % 256 < 2 ^ 8 := Nat.mod_lt _ (by decide)
    rw [pointerOffset, hhi, hlo, show 0x3f = 2 ^ 6 - 1 from rfl,
      Nat.and_two_pow_sub_one_eq_mod, Nat.shiftLeft_eq, Nat.mul_comm,
      ← Nat.two_pow_add_eq_or_of_lt hlt]
    omega

/-- At offset `p` of the message the segments `ls` can be read, following `h`
references. -/
inductive Reads (msg : List UInt8) : Nat → List Label → Nat → Prop
  | stop {p : Nat} (hp : StandsAt msg p [0]) : Reads msg p [] 0
  | label {p h : Nat} {l : Label} {ls : List Label} (hl : StandsAt msg p l.wire)
      (hshort : l.bytes.length ≤ 63) (hrest : Reads msg (p + l.wire.length) ls h) :
      Reads msg p (l :: ls) h
  | jump {p c h : Nat} {ls : List Label} (hp : StandsAt msg p (pointerBytes c))
      (hc : c ≤ 0x3fff) (hrest : Reads msg c ls h) : Reads msg p ls (h + 1)

namespace Reads

variable {msg : List UInt8} {p h : Nat} {ls : List Label}

theorem lt_length (hr : Reads msg p ls h) : p < msg.length := by
  cases hr with
  | stop hp => exact hp.length_le (by simp)
  | label hl _ _ =>
      have := hl.length_le (by simp [Label.wire])
      simp only [Label.wire, List.length_cons] at this
      omega
  | jump hp _ _ =>
      have := hp.length_le (by simp [pointerBytes])
      simp only [pointerBytes, List.length_cons] at this
      omega

theorem labels {as : List Label} (hshort : ∀ l ∈ as, l.bytes.length ≤ 63)
    (has : StandsAt msg p (as.flatMap Label.wire))
    (hr : Reads msg (p + labelsLen as) ls h) : Reads msg p (as ++ ls) h := by
  induction as generalizing p with
  | nil => simpa using hr
  | cons a as ih =>
      rw [List.forall_mem_cons] at hshort
      rw [List.flatMap_cons] at has
      obtain ⟨ha, has⟩ := has.append
      refine Reads.label ha hshort.1 (ih hshort.2 has ?_)
      rw [labelsLen_cons] at hr
      rw [Nat.add_assoc]
      simpa [Label.wire] using hr

end Reads

theorem Label.byte_facts (l : Label) (h : l.bytes.length ≤ 63) :
    UInt8.ofNat l.bytes.length ≠ 0 ∧ ¬0x3f < UInt8.ofNat l.bytes.length := by
  refine ⟨l.lengthByte_ne_zero, ?_⟩
  rw [UInt8.lt_iff_toNat_lt, l.lengthByte]
  simpa using h

theorem label_byte_facts {msg : List UInt8} {p : Nat} {l : Label}
    (hl : StandsAt msg p l.wire) (hshort : l.bytes.length ≤ 63) :
    ¬0x3f < byteAt msg p ∧ byteAt msg p ≠ 0 ∧ (byteAt msg p).toNat = l.bytes.length ∧
      byteAt msg p :: copyBytes msg (p + 1) l.bytes.length = l.wire := by
  obtain ⟨hb, hbs⟩ := hl.cons
  obtain ⟨hne, hsmall⟩ := l.byte_facts hshort
  rw [hb, hbs]
  exact ⟨hsmall, hne, l.lengthByte, rfl⟩

theorem jumpedLoop_reads {msg : List UInt8} {p h hops fuel : Nat} {ls : List Label}
    {tgt : List UInt8} (hr : Reads msg p ls h) (hhops : hops + h ≤ 255)
    (hlen : tgt.length + labelsLen ls + 1 ≤ 256) (hfuel : ls.length + h < fuel) :
    jumpedLoop msg fuel p hops tgt = .ok (tgt ++ Name.wire ⟨ls⟩) := by
  induction hr generalizing hops fuel tgt with
  | stop hp =>
      obtain _ | fuel := fuel
      · simp at hfuel
      · obtain ⟨hb, -⟩ := hp.cons
        simp [jumpedLoop, hb, Name.wire]
  | @label p h l ls hl hshort hrest ih =>
      obtain _ | fuel := fuel
      · simp at hfuel
      · obtain ⟨hsmall, hne, hval, hcopy⟩ := label_byte_facts hl hshort
        have hin := hrest.lt_length
        have hwire : l.wire.length = l.bytes.length + 1 := rfl
        rw [labelsLen_cons] at hlen
        have hih : jumpedLoop msg fuel (p + l.wire.length) hops (tgt ++ l.wire) =
            .ok (tgt ++ l.wire ++ Name.wire ⟨ls⟩) :=
          ih (by omega) (by rw [List.length_append]; omega)
            (by rw [List.length_cons] at hfuel; omega)
        rw [jumpedLoop]
        simp only [if_neg hsmall, if_neg hne, hval, hcopy]
        rw [if_neg (by omega), if_neg (by simp [dnsNameBufSize]; omega),
          show p + 1 + l.bytes.length = p + l.wire.length by omega, hih]
        simp [Name.wire]
  | @jump p c h ls hp hc hrest ih =>
      obtain _ | fuel := fuel
      · simp at hfuel
      · obtain ⟨hi, lo, hbytes, hbig, hge, hoffs⟩ := pointerBytes_byte c
        rw [hbytes] at hp
        have hin := hp.length_le (by simp)
        obtain ⟨hb, hlo⟩ := hp.cons
        obtain ⟨hb', -⟩ := hlo.cons
        have htarget := hrest.lt_length
        simp only [List.length_cons, List.length_nil] at hin
        rw [jumpedLoop]
        simp only [hb, hb', if_pos hbig, if_neg hge, hoffs hc]
        rw [if_neg (by omega), if_neg (by omega), if_neg (by omega)]
        exact ih (by omega) hlen (by omega)

/-- The first loop copies segments that are written out. -/
theorem decompressLoop_labels {msg : List UInt8} {p newsz fuel : Nat} {ls : List Label}
    {tgt : List UInt8} (hls : StandsAt msg p (ls.flatMap Label.wire))
    (hshort : ∀ l ∈ ls, l.bytes.length ≤ 63) (hsz : labelsLen ls < newsz)
    (hin : p + labelsLen ls < msg.length) (hlen : tgt.length + labelsLen ls + 1 ≤ 256) :
    decompressLoop msg (fuel + ls.length) p newsz tgt =
      decompressLoop msg fuel (p + labelsLen ls) (newsz - labelsLen ls)
        (tgt ++ ls.flatMap Label.wire) := by
  induction ls generalizing p newsz tgt with
  | nil => simp
  | cons l ls ih =>
      rw [List.flatMap_cons] at hls
      obtain ⟨hl, hls⟩ := hls.append
      rw [List.forall_mem_cons] at hshort
      rw [labelsLen_cons] at hsz hin hlen
      obtain ⟨hsmall, hne, hval, hcopy⟩ := label_byte_facts hl hshort.1
      have hwire : l.wire.length = l.bytes.length + 1 := rfl
      have hih : decompressLoop msg (fuel + ls.length) (p + l.wire.length)
          (newsz - l.wire.length) (tgt ++ l.wire) =
          decompressLoop msg fuel (p + l.wire.length + labelsLen ls)
            (newsz - l.wire.length - labelsLen ls)
            (tgt ++ l.wire ++ ls.flatMap Label.wire) :=
        ih hls hshort.2 (by omega) (by omega) (by rw [List.length_append]; omega)
      rw [List.length_cons, ← Nat.add_assoc, decompressLoop]
      simp only [if_neg hsmall, if_neg hne, hval, hcopy]
      rw [if_neg (by omega), if_neg (by omega), if_neg (by simp [dnsNameBufSize]; omega),
        show p + 1 + l.bytes.length = p + l.wire.length by omega,
        show newsz - 1 - l.bytes.length = newsz - l.wire.length by omega, hih]
      rw [labelsLen_cons, List.flatMap_cons, List.append_assoc, hwire]
      congr 1
      · omega
      · omega

/-- A name that ends in a reference is read up to and through that reference. -/
theorem decompressName_pointer {msg : List UInt8} {p c h sz : Nat} {ls rest : List Label}
    (hat : StandsAt msg p (ls.flatMap Label.wire ++ pointerBytes c)) (hc : c ≤ 0x3fff)
    (hshort : ∀ l ∈ ls, l.bytes.length ≤ 63) (hr : Reads msg c rest h) (hh : h < 128)
    (hlen : labelsLen ls + labelsLen rest + 1 ≤ 256) (hcount : ls.length + rest.length < 128)
    (hsz : labelsLen ls + 2 ≤ sz) :
    decompressName msg p sz =
      .ok (Name.wire ⟨ls ++ rest⟩, sz - (labelsLen ls + 2)) := by
  obtain ⟨hls, hp⟩ := hat.append
  rw [flatMap_wire_length] at hp
  obtain ⟨hi, lo, hbytes, hbig, hge, hoffs⟩ := pointerBytes_byte c
  rw [hbytes] at hp
  have hin := hp.length_le (by simp)
  obtain ⟨hb, hlo⟩ := hp.cons
  obtain ⟨hb', -⟩ := hlo.cons
  have htarget := hr.lt_length
  simp only [List.length_cons, List.length_nil] at hin
  have hjump : jumpedLoop msg 512 c 1 (ls.flatMap Label.wire) =
      .ok (ls.flatMap Label.wire ++ Name.wire ⟨rest⟩) :=
    jumpedLoop_reads hr (by omega) (by rw [flatMap_wire_length]; omega) (by omega)
  have hfuel : 256 = (255 - ls.length + 1) + ls.length := by omega
  rw [decompressName, if_neg (by omega), if_neg (by omega), hfuel,
    decompressLoop_labels hls hshort (by omega) (by omega) (by simp; omega), decompressLoop]
  simp only [hb, hb', if_pos hbig, if_neg hge, hoffs hc, List.nil_append, hjump]
  rw [if_neg (by omega), if_neg (by omega), if_neg (by omega)]
  simp only [bind, Except.bind, Except.ok.injEq, Prod.mk.injEq]
  exact ⟨by simp [Name.wire], by omega⟩

/-- A name that is written out is read up to its null byte. -/
theorem decompressName_wire {msg : List UInt8} {p sz : Nat} {n : Name}
    (hat : StandsAt msg p n.wire) (hn : n.Valid) (hsz : n.wire.length ≤ sz) :
    decompressName msg p sz = .ok (n.wire, sz - n.wire.length) := by
  obtain ⟨hls, hp⟩ := hat.append
  rw [flatMap_wire_length] at hp
  have hin := hp.length_le (by simp)
  obtain ⟨hb, -⟩ := hp.cons
  simp only [List.length_cons, List.length_nil] at hin
  have hlen := hn.length_le
  rw [Name.wire_length] at hlen hsz
  have hcount := n.labels_length_le
  have hfuel : 256 = (255 - n.labels.length + 1) + n.labels.length := by omega
  rw [decompressName, if_neg (by omega), if_neg (by omega), hfuel,
    decompressLoop_labels hls hn.labels_le (by omega) (by omega) (by simp; omega),
    decompressLoop]
  simp only [hb, List.nil_append]
  rw [if_neg (by decide), if_pos trivial, Name.wire_length]
  simp only [Except.ok.injEq, Prod.mk.injEq]
  exact ⟨rfl, by omega⟩

end TorAndroid.Dns
