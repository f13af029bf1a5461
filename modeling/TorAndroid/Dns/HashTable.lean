import TorAndroid.Dns.Name
import TorAndroid.Lib.LinkedCells
import Mathlib.Data.Fintype.Basic
import Mathlib.Algebra.Group.Nat.Defs

/-!
The hash table of the DNS cache (`hash.c`).

Entries hang in 1024 chains of cells in the heap.  A chain is ordered by a long
hash of the names, which is compared before the names themselves.  A location
(`dns_hash_loc_t`) is the place of a link, as `dns_lookup` leaves it for
`add_dns_hash` and `del_dns_hash_ent`.
-/

namespace TorAndroid.Dns

open TorAndroid.Lib.LinkedCells

/-- `HASH_SZ` of `config.h`. -/
def hashSz : Nat := 10

abbrev Bucket := Fin (2 ^ hashSz)

section Hash

-- the width of the platform's `unsigned long`
variable (w : Nat)

def dnsHashLoop (i lb : Nat) (s : BitVec 32) (r : BitVec w) :
    List UInt8 → BitVec 32 × BitVec w
  | [] => (s, r)
  | c :: str =>
      match lb with
      | 0 =>
          if c = 0 then (s, r)
          else dnsHashLoop (i + 1) c.toNat
            (s + BitVec.ofNat 32 c.toNat <<< (i % (hashSz - 5)))
            (r + BitVec.ofNat w c.toNat <<< (i % (w - 7))) str
      | lb + 1 =>
          dnsHashLoop (i + 1) lb
            (s + BitVec.ofNat 32 (toupper c).toNat <<< (i % (hashSz - 5)))
            (r + BitVec.ofNat w (toupper c).toNat <<< (i % (w - 7))) str

/-- The high bits of the sum are folded onto the low ones. -/
def foldBits (s : BitVec 32) : BitVec 32 :=
  (s &&& 1023) + ((s &&& ~~~1023) >>> hashSz)

def dnsHash (str : List UInt8) : Bucket × BitVec w :=
  let (s, r) := dnsHashLoop w 0 0 0 0 str
  (Fin.ofNat (2 ^ hashSz) (foldBits (foldBits s) &&& 1023).toNat, r)

theorem dnsHashLoop_congr {lb : Nat} {a b : List UInt8} (h : rhnicmpLoop lb a b = true)
    (i : Nat) (s : BitVec 32) (r : BitVec w) :
    dnsHashLoop w i lb s r a = dnsHashLoop w i lb s r b := by
  induction a generalizing lb b i s r with
  | nil => cases lb <;> simp [rhnicmpLoop] at h
  | cons x a ih =>
      cases b with
      | nil => cases lb <;> simp [rhnicmpLoop] at h
      | cons y b =>
          cases lb with
          | zero =>
              obtain ⟨rfl, hrest⟩ : x = y ∧ (x ≠ 0 → rhnicmpLoop x.toNat a b = true) := by
                grind [rhnicmpLoop]
              by_cases hx : x = 0
              · simp [dnsHashLoop, hx]
              · simp only [dnsHashLoop, if_neg hx]
                exact ih (hrest hx) _ _ _
          | succ lb =>
              obtain ⟨hxy, h⟩ : tolower x = tolower y ∧ rhnicmpLoop lb a b = true := by
                grind [rhnicmpLoop]
              simp only [dnsHashLoop, toupper_eq_of_tolower_eq hxy]
              exact ih h _ _ _

/-- Names that differ in case only have the same two hashes. -/
theorem dnsHash_congr {a b : Name} (h : a.fold = b.fold) :
    dnsHash w a.wire = dnsHash w b.wire := by
  have hloop : rhnicmpLoop 0 a.wire b.wire = true := (rhnicmp_wire a b).mpr h
  rw [dnsHash, dnsHash, dnsHashLoop_congr w hloop]

end Hash

structure HashEnt (w : Nat) (ε : Type) where
  rhash : BitVec w
  data : ε

abbrev Table (w : Nat) (ε : Type) := Store Bucket (HashEnt w ε)

structure HashLoc (w : Nat) where
  pos : Place Bucket
  rhash : BitVec w

structure HashPos where
  bucket : Bucket
  ent : Option Addr

variable {w : Nat} {ε : Type}

def mkDnsHash : Table w ε :=
  ⟨fun _ => none, ∅⟩

-- the owner name of a cache entry
variable (qname : ε → Name)

/-- The loop of `dns_lookup` and `del_dns_hash`: walk on from `hep` while the
hashes are not beyond `rh`, until an entry of this name is met. -/
def searchLoop (t : Table w ε) (key : List UInt8) (rh : BitVec w) :
    Nat → Place Bucket → Option (Place Bucket × Option (Addr × Cell (HashEnt w ε)))
  | 0, _ => none
  | fuel + 1, hep => do
      match ← t.link hep with
      | none => some (hep, none)
      | some he =>
          let c ← t.cell he
          if c.val.rhash ≤ rh then
            if c.val.rhash = rh ∧ rhnicmp key (qname c.val.data).wire then
              some (hep, some (he, c))
            else searchLoop t key rh fuel (.next he)
          else some (hep, none)

/-- A chain has no more cells than are allocated. -/
def search (t : Table w ε) (key : List UInt8) :
    Option (Place Bucket × Option (Addr × Cell (HashEnt w ε))) :=
  searchLoop qname t key (dnsHash w key).2 (t.cells.keys.length + 1)
    (.root (dnsHash w key).1)

def dnsLookup (t : Table w ε) (key : List UInt8) : Option (Option ε × HashLoc w) := do
  let (hep, he) ← search qname t key
  some (he.map fun x => x.2.val.data, ⟨hep, (dnsHash w key).2⟩)

/-- `malloc` is the address of the new cell, or nothing when memory is out. -/
def addDnsHash (t : Table w ε) (data : ε) (loc : HashLoc w) (malloc : Option Addr) :
    Option (Bool × Table w ε) :=
  match malloc with
  | none => some (false, t)
  | some he => do
      let next ← t.link loc.pos
      let t' ← (t.alloc he ⟨next, ⟨loc.rhash, data⟩⟩).setLink loc.pos (some he)
      some (true, t')

def delDnsHashEnt (t : Table w ε) (loc : HashLoc w) : Option (ε × Table w ε) := do
  match ← t.link loc.pos with
  | none => none
  | some he =>
      let c ← t.cell he
      let t' ← t.setLink loc.pos c.next
      some (c.val.data, t'.free he)

def delDnsHash (t : Table w ε) (key : List UInt8) : Option (Option ε × Table w ε) := do
  match ← search qname t key with
  | (_, none) => some (none, t)
  | (hep, some (he, c)) =>
      let t' ← t.setLink hep c.next
      some (some c.val.data, t'.free he)

/-- The bucket loop of `fetch_first` and `fetch_next`. -/
def fetchScan (t : Table w ε) : List Bucket → Option (Option (ε × HashPos))
  | [] => some none
  | i :: is =>
      match t.root i with
      | none => fetchScan t is
      | some he => do
          let c ← t.cell he
          some (some (c.val.data, ⟨i, c.next⟩))

def fetchFirst (t : Table w ε) : Option (Option (ε × HashPos)) :=
  fetchScan t (List.finRange _)

def bucketsAfter (i : Bucket) : List Bucket :=
  (List.finRange _).drop (i + 1)

def fetchNext (t : Table w ε) (pos : HashPos) : Option (Option (ε × HashPos)) :=
  match pos.ent with
  | some he => do
      let c ← t.cell he
      some (some (c.val.data, ⟨pos.bucket, c.next⟩))
  | none => fetchScan t (bucketsAfter pos.bucket)

/-- What a caller that walks the table does with the entry it was given. -/
inductive Visit where
  | keep
  | del
  | delEnt
  deriving DecidableEq

def visit (t : Table w ε) (e : ε) : Visit → Option (Table w ε)
  | .keep => some t
  | .del => do
      let (_, t') ← delDnsHash qname t (qname e).wire
      some t'
  | .delEnt => do
      let (found, loc) ← dnsLookup qname t (qname e).wire
      match found with
      | none => some t
      | some _ =>
          let (_, t') ← delDnsHashEnt t loc
          some t'

def iterateFrom (choose : List ε → Visit) :
    Nat → Table w ε → Option (ε × HashPos) → List ε → Option (List ε × Table w ε)
  | _, t, none, seen => some (seen, t)
  | 0, _, some _, _ => none
  | fuel + 1, t, some (e, pos), seen => do
      let t' ← visit qname t e (choose (seen ++ [e]))
      let next ← fetchNext t' pos
      iterateFrom choose fuel t' next (seen ++ [e])

/-- A walk over the table with `fetch_first` and `fetch_next`.  After each entry
the caller decides, from the entries it was given so far, whether to delete the
last one before it asks for the next. -/
def iterate (choose : List ε → Visit) (t : Table w ε) : Option (List ε × Table w ε) := do
  let first ← fetchFirst t
  iterateFrom qname choose t.cells.keys.length t first []

/-- The cells of a bucket's chain. -/
def chain (t : Table w ε) (i : Bucket) : List (Addr × HashEnt w ε) :=
  t.follow t.cells.keys.length (t.root i)

def entries (t : Table w ε) : List ε :=
  (List.finRange _).flatMap fun i => (chain t i).map fun x => x.2.data

/-- The map the table stands for, on names with their case forgotten. -/
def entry (t : Table w ε) (k : List (List UInt8)) : Option ε :=
  (entries t).find? fun e => (qname e).fold = k

/-- The shape of the table: `L` lists the cells of each bucket. -/
structure Ordered (t : Table w ε) (L : Bucket → List (Addr × HashEnt w ε)) : Prop where
  represents : t.Represents L
  sorted : ∀ i, (L i).Pairwise fun x y => x.2.rhash ≤ y.2.rhash
  placed : ∀ i, ∀ x ∈ L i, dnsHash w (qname x.2.data).wire = (i, x.2.rhash)
  distinct : ∀ i, (L i).Pairwise fun x y => (qname x.2.data).fold ≠ (qname y.2.data).fold

end TorAndroid.Dns
