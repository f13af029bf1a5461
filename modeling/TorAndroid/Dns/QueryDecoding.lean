import TorAndroid.Dns.AnswerEncoding
import TorAndroid.Dns.DecompressionExact

namespace TorAndroid.Dns

/-- A number in a field of four bits. -/
def fourBits (n : Nat) : Fin 16 :=
  ⟨n % 16, Nat.mod_lt n (by decide)⟩

@[simp]
theorem fourBits_val (n : Fin 16) : fourBits n.val = n :=
  Fin.ext (Nat.mod_eq_of_lt n.isLt)

/-- `OP_QUERY`. -/
def opQuery : Fin 16 := fourBits 0

/-- `dns_hdr_t`. -/
structure Header where
  id : UInt16
  qr : Bool
  opcode : Fin 16
  aa : Bool
  tc : Bool
  rd : Bool
  ra : Bool
  z : Bool
  ad : Bool
  cd : Bool
  rcode : Fin 16
  qdcount : UInt16
  ancount : UInt16
  nscount : UInt16
  arcount : UInt16
  deriving DecidableEq

namespace Header

def flags1 (h : Header) : UInt8 :=
  UInt8.ofNat (h.qr.toNat * 128 + h.opcode.val * 8 + h.aa.toNat * 4 + h.tc.toNat * 2 + h.rd.toNat)

def flags2 (h : Header) : UInt8 :=
  UInt8.ofNat (h.ra.toNat * 128 + h.z.toNat * 64 + h.ad.toNat * 32 + h.cd.toNat * 16 + h.rcode.val)

def bytes (h : Header) : List UInt8 :=
  putInt16 h.id.toNat ++ [h.flags1, h.flags2] ++ putInt16 h.qdcount.toNat ++
    putInt16 h.ancount.toNat ++ putInt16 h.nscount.toNat ++ putInt16 h.arcount.toNat

end Header

section Fields

variable (msg : List UInt8)

def hdrRd : Bool := (byteAt msg 2).toNat.testBit 0
def hdrAd : Bool := (byteAt msg 3).toNat.testBit 5
def hdrCd : Bool := (byteAt msg 3).toNat.testBit 4

/-- The header of a message that has twelve bytes. -/
def Header.read : Header where
  id := UInt16.ofNat (hdrId msg)
  qr := hdrQr msg
  opcode := fourBits (hdrOpcode msg)
  aa := hdrAa msg
  tc := hdrTc msg
  rd := hdrRd msg
  ra := hdrRa msg
  z := hdrZ msg
  ad := hdrAd msg
  cd := hdrCd msg
  rcode := fourBits (hdrRcode msg)
  qdcount := UInt16.ofNat (hdrQdcount msg)
  ancount := UInt16.ofNat (hdrAncount msg)
  nscount := UInt16.ofNat (hdrNscount msg)
  arcount := UInt16.ofNat (hdrArcount msg)

end Fields

/-- What is read of a header that was written. -/
structure ReadsHeader (msg : List UInt8) (h : Header) : Prop where
  id : hdrId msg = h.id.toNat
  qr : hdrQr msg = h.qr
  opcode : hdrOpcode msg = h.opcode.val
  aa : hdrAa msg = h.aa
  tc : hdrTc msg = h.tc
  rd : hdrRd msg = h.rd
  ra : hdrRa msg = h.ra
  z : hdrZ msg = h.z
  ad : hdrAd msg = h.ad
  cd : hdrCd msg = h.cd
  rcode : hdrRcode msg = h.rcode.val
  qdcount : hdrQdcount msg = h.qdcount.toNat
  ancount : hdrAncount msg = h.ancount.toNat
  nscount : hdrNscount msg = h.nscount.toNat
  arcount : hdrArcount msg = h.arcount.toNat

section Written

variable {msg : List UInt8} {h : Header}

theorem flags1_bits (h : Header) :
    h.flags1.toNat.testBit 7 = h.qr ∧ h.flags1.toNat / 8 % 16 = h.opcode.val ∧
      h.flags1.toNat.testBit 2 = h.aa ∧ h.flags1.toNat.testBit 1 = h.tc ∧
      h.flags1.toNat.testBit 0 = h.rd := by
  have hall : ∀ (qr aa tc rd : Bool) (opcode : Fin 16),
      let n := (UInt8.ofNat
        (qr.toNat * 128 + opcode.val * 8 + aa.toNat * 4 + tc.toNat * 2 + rd.toNat)).toNat
      n.testBit 7 = qr ∧ n / 8 % 16 = opcode.val ∧ n.testBit 2 = aa ∧ n.testBit 1 = tc ∧
        n.testBit 0 = rd := by
    decide +kernel
  exact hall h.qr h.aa h.tc h.rd h.opcode

theorem flags2_bits (h : Header) :
    h.flags2.toNat.testBit 7 = h.ra ∧ h.flags2.toNat.testBit 6 = h.z ∧
      h.flags2.toNat.testBit 5 = h.ad ∧ h.flags2.toNat.testBit 4 = h.cd ∧
      h.flags2.toNat % 16 = h.rcode.val := by
  have hall : ∀ (ra z ad cd : Bool) (rcode : Fin 16),
      let n := (UInt8.ofNat
        (ra.toNat * 128 + z.toNat * 64 + ad.toNat * 32 + cd.toNat * 16 + rcode.val)).toNat
      n.testBit 7 = ra ∧ n.testBit 6 = z ∧ n.testBit 5 = ad ∧ n.testBit 4 = cd ∧
        n % 16 = rcode.val := by
    decide +kernel
  exact hall h.ra h.z h.ad h.cd h.rcode

theorem readsHeader (hat : StandsAt msg 0 h.bytes) : ReadsHeader msg h := by
  obtain ⟨hfront, harcount⟩ := hat.append
  obtain ⟨hfront, hnscount⟩ := hfront.append
  obtain ⟨hfront, hancount⟩ := hfront.append
  obtain ⟨hfront, hqdcount⟩ := hfront.append
  obtain ⟨hid, hflags⟩ := hfront.append
  obtain ⟨hflags1, hflags⟩ := hflags.cons
  obtain ⟨hflags2, -⟩ := hflags.cons
  have hbyte2 : byteAt msg 2 = h.flags1 := hflags1
  have hbyte3 : byteAt msg 3 = h.flags2 := hflags2
  obtain ⟨hqr, hopcode, haa, htc, hrd⟩ := flags1_bits h
  obtain ⟨hra, hz, had, hcd, hrcode⟩ := flags2_bits h
  have hcount : ∀ {p : Nat} {n : UInt16}, StandsAt msg p (putInt16 n.toNat) →
      int16 msg p = n.toNat := fun hn =>
    (int16_of_standsAt hn).trans (Nat.mod_eq_of_lt (UInt16.toNat_lt _))
  constructor
  · exact hcount hid
  · rw [hdrQr, hbyte2, hqr]
  · rw [hdrOpcode, hbyte2, hopcode]
  · rw [hdrAa, hbyte2, haa]
  · rw [hdrTc, hbyte2, htc]
  · rw [hdrRd, hbyte2, hrd]
  · rw [hdrRa, hbyte3, hra]
  · rw [hdrZ, hbyte3, hz]
  · rw [hdrAd, hbyte3, had]
  · rw [hdrCd, hbyte3, hcd]
  · rw [hdrRcode, hbyte3, hrcode]
  · exact hcount hqdcount
  · exact hcount hancount
  · exact hcount hnscount
  · exact hcount harcount

theorem length_headerBytes (h : Header) : h.bytes.length = 12 := rfl

theorem standsAt_front (front rest : List UInt8) : StandsAt (front ++ rest) 0 front := by
  rw [StandsAt, copyBytes, List.drop_zero, List.take_left]

/-- A header is read as it was written, whatever comes behind it. -/
theorem read_headerBytes (h : Header) (rest : List UInt8) : Header.read (h.bytes ++ rest) = h := by
  have hread := readsHeader (standsAt_front h.bytes rest)
  rw [Header.read, hread.id, hread.qr, hread.opcode, hread.aa, hread.tc, hread.rd, hread.ra,
    hread.z, hread.ad, hread.cd, hread.rcode, hread.qdcount, hread.ancount, hread.nscount,
    hread.arcount, fourBits_val, fourBits_val]
  simp

end Written

/-- `mk_error_reply`. Only four bits of the return code fit in the header. -/
def mkErrorReply (id : UInt16) (opcode : Fin 16) (rescode : Nat) : Header where
  id := id
  qr := true
  opcode := opcode
  aa := false
  tc := false
  rd := false
  ra := true
  z := false
  ad := false
  cd := false
  rcode := fourBits rescode
  qdcount := 0
  ancount := 0
  nscount := 0
  arcount := 0

/-- The type of an `OPT` pseudo record. -/
def tOpt : Nat := 41

/-- The bytes of `add_opt_pseudo_rr`. -/
def optBytes (udpsize rcode ednsver zflags : Nat) : List UInt8 :=
  [0] ++ putInt16 tOpt ++ putInt16 udpsize ++ [UInt8.ofNat (rcode / 16), UInt8.ofNat ednsver] ++
    putInt16 zflags ++ putInt16 0

def sizeofOptPseudoRr : Nat := 11

def addOptPseudoRr (ans : Response) (udpsize rcode ednsver zflags : Nat) : Response :=
  { ans with
    bytes := ans.bytes ++ optBytes udpsize rcode ednsver zflags
    arcount := (ans.arcount + 1) % 65536 }

/-- `remove_opt_pseudo_rr` on a whole message: the message without the record, or nothing. -/
def removeOptPseudoRr (msg : List UInt8) : Option (List UInt8) :=
  if hdrArcount msg = 0 ∨ msg.length < 12 + sizeofOptPseudoRr then none
  else
    let sz := msg.length - sizeofOptPseudoRr
    if byteAt msg sz ≠ 0 then none
    else if int16 msg (sz + 1) ≠ tOpt then none
    else some ({ Header.read msg with
      arcount := UInt16.ofNat (hdrArcount msg - 1) }.bytes ++ (msg.take sz).drop 12)

/-- The loop of `decode_query`: the questions before the end or an error, and where the
remaining part of the message starts. -/
def readQuestions (msg : List UInt8) : Nat → Nat → List Question × Except NameError Nat
  | 0, pos => ([], .ok pos)
  | qdcount + 1, pos =>
      let sz := msg.length - pos
      match decompressName msg pos sz with
      | .error e => ([], .error e)
      | .ok (qbuf, left) =>
          let ptr := pos + (sz - left)
          if left < 4 then ([], .error .trunc)
          else
            let qe : Question := ⟨Name.ofWire qbuf, UInt16.ofNat (int16 msg ptr),
              UInt16.ofNat (int16 msg (ptr + 2))⟩
            let (qp, res) := readQuestions msg qdcount (ptr + 4)
            (qe :: qp, res)

/-- `decode_query`. The list is freed after a format error. -/
def decodeQuery (msg : List UInt8) : List Question × Except NameError Nat :=
  match readQuestions msg (hdrQdcount msg) 12 with
  | (_, .error .format) => ([], .error .format)
  | x => x

/-- `edns_info_t`. -/
structure EdnsInfo where
  udpsize : Nat
  rcode : Nat
  version : Nat
  doFlg : Bool
  deriving DecidableEq

/-- The loop of `decode_query_additional`: the `OPT` records before the end or an error. -/
def decodeQueryAdditional (msg : List UInt8) : Nat → Nat → List EdnsInfo × Except NameError Unit
  | 0, _ => ([], .ok ())
  | numrr + 1, pos =>
      match readHead msg pos with
      | .error e => ([], .error e)
      | .ok h =>
          let (ep, res) := decodeQueryAdditional msg numrr h.next
          if h.tp = tOpt then
            (⟨h.cls, h.ttl / 2 ^ 24 * 16 + hdrRcode msg, h.ttl / 2 ^ 16 % 256,
              (h.ttl / 2 ^ 8).testBit 7⟩ :: ep, res)
          else (ep, res)

end TorAndroid.Dns
