import TorAndroid.Dns.Decompression
import TorAndroid.Dns.CacheRun
import TorAndroid.Dns.RrTypes

/-!
The records of a message as `rrs2cent` reads them (`dns_query.c`).

The data of a record is stored with its names written out.  The types whose data
holds names that can be compressed differ only in what stands around the names, so
a table says what that is; three more types keep their data as it came unless the
name in it is compressed.
-/

namespace TorAndroid.Dns

/-- `GETINT16`. -/
def int16 (msg : List UInt8) (p : Nat) : Nat :=
  (byteAt msg p).toNat * 256 + (byteAt msg (p + 1)).toNat

/-- `GETINT32`. -/
def int32 (msg : List UInt8) (p : Nat) : Nat :=
  int16 msg p * 65536 + int16 msg (p + 2)

/-- The segments of a name in memory. -/
def labelsOf : Nat → List UInt8 → List Label
  | 0, _ => []
  | _, [] => []
  | fuel + 1, lb :: rhn =>
      if h : 0 < lb.toNat ∧ lb.toNat ≤ rhn.length then
        ⟨rhn.take lb.toNat, by simp; omega, by have := lb.toNat_lt; simp; omega⟩ ::
          labelsOf fuel (rhn.drop lb.toNat)
      else []

/-- The name that a byte string starts with. -/
def Name.ofWire (rhn : List UInt8) : Name :=
  ⟨labelsOf rhn.length rhn⟩

theorem labelsOf_wire (ls : List Label) {fuel : Nat} (h : ls.length ≤ fuel) (rest : List UInt8) :
    labelsOf fuel (Name.wire ⟨ls⟩ ++ rest) = ls := by
  induction ls generalizing fuel with
  | nil => cases fuel <;> simp [labelsOf, Name.wire_nil]
  | cons l ls ih =>
      obtain _ | fuel := fuel
      · simp at h
      · have hbound : 0 < (UInt8.ofNat l.bytes.length).toNat ∧ (UInt8.ofNat l.bytes.length).toNat ≤
            (l.bytes ++ Name.wire ⟨ls⟩ ++ rest).length := by
          rw [l.lengthByte]
          exact ⟨l.nonempty, by simp⟩
        rw [Name.wire_cons, List.cons_append, labelsOf, dif_pos hbound]
        simp only [l.lengthByte, List.append_assoc, List.take_left, List.drop_left]
        rw [ih (by simpa using h)]

@[simp]
theorem Name.ofWire_wire_append (n : Name) (rest : List UInt8) :
    Name.ofWire (n.wire ++ rest) = n := by
  have hcount := n.labels_length_le
  have hlen := n.wire_length
  rw [ofWire, labelsOf_wire n.labels (by rw [List.length_append]; omega)]

@[simp]
theorem Name.ofWire_wire (n : Name) : Name.ofWire n.wire = n := by
  simpa using n.ofWire_wire_append []

/-- What stands in the data of a record, one after the other. -/
inductive Field where
  /-- Bytes that are copied, as a preference or the numbers of a `SOA` record. -/
  | bytes (n : Nat)
  | name
  /-- The order and preference of a `NAPTR` record and the three texts behind them. -/
  | texts
  /-- All that is left. -/
  | rest
  deriving DecidableEq

/-- The types with names in their data that `rrs2cent` writes out. -/
def fieldsOf : Nat → Option (List Field)
  | 2 | 3 | 4 | 5 | 7 | 8 | 9 | 12 => some [.name]
  | 14 | 17 => some [.name, .name]
  | 15 | 18 | 21 | 36 => some [.bytes 2, .name]
  | 6 => some [.name, .name, .bytes 20]
  | 26 => some [.bytes 2, .name, .name]
  | 33 => some [.bytes 6, .name]
  | 30 => some [.name, .rest]
  | 35 => some [.texts, .name]
  | _ => none

/-- The length of the fields of a `NAPTR` record before its name, of which `left`
bytes are there. -/
def textsLen (msg : List UInt8) (p left : Nat) : Option Nat := do
  let text := fun len => if left ≤ len then none else some (len + (byteAt msg (p + len)).toNat + 1)
  let len ← text 4
  let len ← text len
  let len ← text len
  if left < len then none else some len

/-- A field at offset `p` with `left` bytes left of the data: what is stored of it
and the bytes left behind it. -/
def readField (msg : List UInt8) (p left : Nat) : Field → Option (List UInt8 × Nat)
  | .bytes n => if left < n then none else some (copyBytes msg p n, left - n)
  | .name => (decompressName msg p left).toOption
  | .texts => (textsLen msg p left).map fun n => (copyBytes msg p n, left - n)
  | .rest => some (copyBytes msg p left, 0)

def readFields (msg : List UInt8) : Nat → Nat → List Field → Option (List UInt8)
  | _, left, [] => if left ≠ 0 then none else some []
  | p, left, f :: fs => do
      let (data, left') ← readField msg p left f
      let more ← readFields msg (p + (left - left')) left' fs
      some (data ++ more)

/-- The loop of `isnormalencdomname`. -/
def normalLoop : Nat → List UInt8 → Bool
  | _, [] => false
  | 0, lb :: rhn =>
      if lb = 0 then true
      else if 0x3f < lb then false
      else normalLoop lb.toNat rhn
  | skip + 1, _ :: rhn => normalLoop skip rhn

def isnormalencdomname (rhn : List UInt8) : Bool :=
  normalLoop 0 (rhn.take dnsNameBufSize)

/-- Data with a name after `skip` bytes that should not be compressed, but may be. -/
def writeOutName (msg : List UInt8) (p rdlength skip : Nat) : Option (List UInt8) :=
  if rdlength < skip then none
  else if isnormalencdomname (copyBytes msg (p + skip) (rdlength - skip)) then
    some (copyBytes msg p rdlength)
  else do
    let (name, left) ← (decompressName msg (p + skip) (rdlength - skip)).toOption
    some (copyBytes msg p skip ++ name ++ copyBytes msg (p + (rdlength - left)) left)

/-- An `IPSECKEY` record, which names its gateway or gives its address. -/
def readIpseckey (msg : List UInt8) (p rdlength : Nat) : Option (List UInt8) :=
  if rdlength < 3 then none
  else
    match (byteAt msg (p + 1)).toNat with
    | 0 => some (copyBytes msg p rdlength)
    | 1 => if rdlength - 3 < 4 then none else some (copyBytes msg p rdlength)
    | 2 => if rdlength - 3 < 16 then none else some (copyBytes msg p rdlength)
    | 3 => writeOutName msg p rdlength 3
    | _ => none

/-- The data that is stored of a record.  Nothing is a format error. -/
def readRdata (msg : List UInt8) (tp p rdlength : Nat) : Option (List UInt8) :=
  match fieldsOf tp with
  | some fs =>
      -- the buffer for an `NXT` record
      (readFields msg p rdlength fs).filter fun data => tp ≠ 30 || data.length ≤ 1040
  | none =>
      match tp with
      | 1 => if rdlength ≠ 4 then none else some (copyBytes msg p rdlength)
      | 28 => if rdlength ≠ 16 then none else some (copyBytes msg p rdlength)
      | 45 => readIpseckey msg p rdlength
      | 46 => writeOutName msg p rdlength 18
      | 47 => writeOutName msg p rdlength 0
      | _ => some (copyBytes msg p rdlength)

/-- The owner and the fixed part of a record, and where its data is. -/
structure RrHead where
  owner : Name
  tp : Nat
  cls : Nat
  ttl : Nat
  rdlength : Nat
  rdata : Nat
  deriving DecidableEq

/-- Where the record behind starts. -/
def RrHead.next (h : RrHead) : Nat :=
  h.rdata + h.rdlength

/-- The first part of a turn of `rrs2cent`.  `*lcnt` is what is left of the message. -/
def readHead (msg : List UInt8) (pos : Nat) : Except NameError RrHead := do
  let lcnt := msg.length - pos
  let (oname, left) ← decompressName msg pos lcnt
  let p := pos + (lcnt - left)
  if left < 10 then .error .trunc
  else
    let rdlength := int16 msg (p + 8)
    if left - 10 < rdlength then .error .trunc
    else .ok ⟨Name.ofWire oname, int16 msg p, int16 msg (p + 2), int32 msg (p + 4),
      rdlength, p + 10⟩

/-- A record with the data that is stored. -/
structure Record where
  owner : Name
  tp : Nat
  ttl : Nat
  data : List UInt8
  deriving DecidableEq

/-- What a turn of `rrs2cent` finds: an `OPT` pseudo record with its return code, a
record for the cache, or one of a type or class that is not cached. -/
inductive Item where
  | opt (rcode : Nat)
  | rr (r : Record)
  | ignored
  deriving DecidableEq

/-- The `rcode` field of the header. -/
def hdrRcode (msg : List UInt8) : Nat :=
  (byteAt msg 3).toNat % 16

def readItem (msg : List UInt8) (h : RrHead) : Option Item :=
  if h.tp = 41 then some (.opt (h.ttl / 2 ^ 24 * 16 + hdrRcode msg))
  else if (slotOf h.tp).isSome ∧ h.cls = 1 then
    (readRdata msg h.tp h.rdata h.rdlength).map fun data => .rr ⟨h.owner, h.tp, h.ttl, data⟩
  else some .ignored

/-- The loop of `rrs2cent` over `recnum` records: what it finds before it stops, and
where it stops or with which error. -/
def readItems (msg : List UInt8) : Nat → Nat → List Item × Except NameError Nat
  | 0, pos => ([], .ok pos)
  | recnum + 1, pos =>
      match readHead msg pos with
      | .error e => ([], .error e)
      | .ok h =>
          match readItem msg h with
          | none => ([], .error .format)
          | some item =>
              let (items, rc) := readItems msg recnum h.next
              (item :: items, rc)

/-- An operation on an entry that is on no list. -/
def Cent.build (sz : Sizes) (c : Cent) (op : BuildOp) : Cent :=
  ((op.run sz (Lib.DoublyLinked.DList.empty, c)).map Prod.snd).getD c

/-- `rr_to_cache`: the record comes to the entry of its name, which is made if there
is none. -/
def rrToCache (sz : Sizes) (flags : CFlags) (queryts : Int) (r : Record) (i : Slot) :
    List Cent → List Cent
  | [] => [(initCent sz r.owner false 0 0 ⟨false, false, false, false⟩).build sz
      (.rr i r.ttl queryts flags r.data)]
  | c :: centa =>
      if rhnicmp c.qname.wire r.owner.wire then
        c.build sz (.rr i r.ttl queryts flags r.data) :: centa
      else c :: rrToCache sz flags queryts r i centa

def Item.store (sz : Sizes) (flags : CFlags) (queryts : Int) (centa : List Cent) :
    Item → List Cent
  | .rr r => (slotOf r.tp).elim centa fun i => rrToCache sz flags queryts r i centa
  | _ => centa

/-- `rrs2cent`: the array with the records in it, and the return code. -/
def rrs2cent (sz : Sizes) (msg : List UInt8) (pos recnum : Nat) (flags : CFlags) (queryts : Int)
    (centa : List Cent) : List Cent × Except NameError Nat :=
  let (items, rc) := readItems msg recnum pos
  (items.foldl (Item.store sz flags queryts) centa, rc)

/-- The return code in the first `OPT` pseudo record. -/
def ednsRcode (items : List Item) : Option Nat :=
  items.findSome? fun
    | .opt rcode => some rcode
    | _ => none

end TorAndroid.Dns
