import TorAndroid.Dns.Records

/-!
Adding records to a message (`add_rr` of `dns_answer.c`).

The message is kept as its bytes from the header on; the counts in its header are kept
apart. There is no result when an assertion fails, or when a byte behind the data of the
record would be read.
-/

namespace TorAndroid.Dns

def putInt16 (n : Nat) : List UInt8 :=
  [UInt8.ofNat (n / 256), UInt8.ofNat n]

def putInt32 (n : Nat) : List UInt8 :=
  putInt16 (n / 65536) ++ putInt16 n

inductive RrSection where
  | answer
  | authority
  | additional
  deriving DecidableEq

/-- The message that is made, and the list of the names in it. -/
structure Response where
  bytes : List UInt8
  ancount : Nat
  nscount : Nat
  arcount : Nat
  cb : List CompEl
  deriving DecidableEq

/-- `rhnlen`, as long as the null byte is in the data. -/
def rhnlenIn : Nat → List UInt8 → Option Nat
  | _, [] => none
  | 0, lb :: rhn => if lb = 0 then some 1 else (rhnlenIn lb.toNat rhn).map (· + 1)
  | skip + 1, _ :: rhn => (rhnlenIn skip rhn).map (· + 1)

/-- What has been written of the data, how much of it has been read (`ilen`), and the
list of names. -/
structure Put where
  out : List UInt8
  ilen : Nat
  cb : List CompEl

/-- `compress_name` for the next name. The data will stand at the offset `start`. -/
def putName (data : List UInt8) (start : Nat) (s : Put) : Option Put := do
  let len ← rhnlenIn 0 (data.drop s.ilen)
  let (out, cb) ← compressName ((data.drop s.ilen).take len) (start + s.out.length) s.cb
  some ⟨s.out ++ out, s.ilen + len, cb⟩

/-- `memcpy` of the next bytes. -/
def putBytes (data : List UInt8) (n : Nat) (s : Put) : Option Put :=
  if data.length < s.ilen + n then none
  else some ⟨s.out ++ (data.drop s.ilen).take n, s.ilen + n, s.cb⟩

/-- The loop over the texts of a `NAPTR` record. -/
def putTextsLen (data : List UInt8) : Nat → Nat → Option Nat
  | 0, ilen => some ilen
  | j + 1, ilen =>
      let ilen := ilen + (byteAt data ilen).toNat + 1
      if data.length ≤ ilen then none else putTextsLen data j ilen

/-- The arms of the `switch` for the types with names: what they do for each of the fields
that `rrs2cent` tells apart, with their assertions. -/
def putFields (data : List UInt8) (start : Nat) : Put → List Field → Option Put
  | s, [] => some s
  | s, .bytes n :: fs => do
      guard (fs ≠ [] → n < data.length)
      let s ← putBytes data n s
      guard (fs = [] → s.out.length ≤ data.length)
      putFields data start s fs
  | s, .name :: fs => do
      let s ← putName data start s
      guard (s.out.length ≤ if fs = [] then data.length else s.ilen)
      putFields data start s fs
  | s, .texts :: fs => do
      guard (4 < data.length)
      let ilen ← putTextsLen data 3 4
      let s ← putBytes data ilen s
      putFields data start s fs
  | s, .rest :: fs => do
      guard (s.ilen ≤ data.length)
      let s ← putBytes data (data.length - s.ilen) s
      putFields data start s fs

def putRdata (tp : Nat) (data : List UInt8) (start : Nat) (cb : List CompEl) :
    Option (List UInt8 × List CompEl) :=
  match fieldsOf tp with
  | some fs => (putFields data start ⟨[], 0, cb⟩ fs).map fun s => (s.out, s.cb)
  | none => some (data, cb)

/-- The type, the class `C_IN`, the time to live and the length of the data. -/
def putHead (tp ttl rdlen : Nat) : List UInt8 :=
  putInt16 tp ++ putInt16 1 ++ putInt32 ttl ++ putInt16 rdlen

/-- One more record in a section. -/
def Response.count (ans : Response) (sect : RrSection) : Response :=
  match sect with
  | .answer => { ans with ancount := (ans.ancount + 1) % 65536 }
  | .authority => { ans with nscount := (ans.nscount + 1) % 65536 }
  | .additional => { ans with arcount := (ans.arcount + 1) % 65536 }

@[simp]
theorem Response.bytes_count (ans : Response) (sect : RrSection) :
    (ans.count sect).bytes = ans.bytes := by
  cases sect <;> rfl

@[simp]
theorem Response.cb_count (ans : Response) (sect : RrSection) : (ans.count sect).cb = ans.cb := by
  cases sect <;> rfl

/-- `add_rr`. A record of the additional section that makes the message longer than
`*udp` is withdrawn, but the list of names is not. -/
def addRr (udp : Option Nat) (ans : Response) (sect : RrSection) (r : Record) :
    Option Response := do
  let (nbuf, cb) ← compressName r.owner.wire ans.bytes.length ans.cb
  let (rdata, cb) ← putRdata r.tp r.data (ans.bytes.length + nbuf.length + 10) cb
  let bytes := ans.bytes ++ nbuf ++ putHead r.tp r.ttl rdata.length ++ rdata
  if (udp.any fun limit => limit < bytes.length) && sect = .additional then
    some { ans with cb := cb }
  else some ({ ans with bytes := bytes, cb := cb }.count sect)

/-- Records that are added one after the other. -/
def addRrs (udp : Option Nat) (ans : Response) (rrs : List (RrSection × Record)) :
    Option Response :=
  rrs.foldlM (fun ans x => addRr udp ans x.1 x.2) ans

section Ints

variable {msg : List UInt8} {p : Nat}

theorem int16_of_standsAt {n : Nat} (h : StandsAt msg p (putInt16 n)) :
    int16 msg p = n % 65536 := by
  obtain ⟨hhi, hrest⟩ := StandsAt.cons h
  obtain ⟨hlo, -⟩ := StandsAt.cons hrest
  rw [int16, hhi, hlo, UInt8.toNat_ofNat', UInt8.toNat_ofNat']
  omega

theorem int32_of_standsAt {n : Nat} (h : StandsAt msg p (putInt32 n)) :
    int32 msg p = n % 2 ^ 32 := by
  obtain ⟨hhi, hlo⟩ := StandsAt.append h
  have hlo : StandsAt msg (p + 2) (putInt16 n) := hlo
  rw [int32, int16_of_standsAt hhi, int16_of_standsAt hlo]
  omega

@[simp]
theorem length_putHead (tp ttl rdlen : Nat) : (putHead tp ttl rdlen).length = 10 := rfl

theorem rhnlenIn_skip (bs rest : List UInt8) :
    rhnlenIn bs.length (bs ++ rest) = (rhnlenIn 0 rest).map (bs.length + ·) := by
  induction bs with
  | nil => simp
  | cons b bs ih =>
      rw [List.length_cons, List.cons_append, rhnlenIn, ih, Option.map_map]
      congr 1
      funext n
      simp only [Function.comp]
      omega

theorem rhnlenIn_wire (n : Name) (rest : List UInt8) :
    rhnlenIn 0 (n.wire ++ rest) = some n.wire.length := by
  obtain ⟨ls⟩ := n
  induction ls with
  | nil => rfl
  | cons l ls ih =>
      rw [Name.wire_cons, List.cons_append, rhnlenIn, if_neg l.lengthByte_ne_zero, l.lengthByte,
        List.append_assoc, rhnlenIn_skip, ih]
      simp

end Ints

end TorAndroid.Dns
