import TorAndroid.Dns.Name
import TorAndroid.Lib.DoublyLinked
import Mathlib.Algebra.BigOperators.Fin
import Mathlib.Algebra.Order.BigOperators.Group.Finset

/-!
Entries of the DNS cache (`cache.h`, `cache.c`).

An entry is negative or holds an array of record sets.  The `DF_NEGATIVE` bit says
which arm of the union in `dns_cent_t` is in use, so it is the constructor of `Arm`
here.  The arrays `rrmu` and `rrext` are one array with a mark that says whether
`rrext` is allocated.  The list `rrset_l` refers to a record set by the name of its
entry and its index, and to a negative entry by its name.
-/

namespace TorAndroid.Dns

open TorAndroid.Lib.LinkedCells TorAndroid.Lib.DoublyLinked

/-- The sizes of the C structures, which depend on the platform. -/
structure Sizes where
  cent : Nat
  rrset : Nat
  bucket : Nat
  pointer : Nat

/-- The flags of a record set (`CF_*`). -/
structure CFlags where
  negative : Bool
  isLocal : Bool
  auth : Bool
  nocache : Bool
  additional : Bool
  nopurge : Bool
  rootserv : Bool
  deriving DecidableEq

def noFlags : CFlags := ⟨false, false, false, false, false, false, false⟩

/-- The flags of an entry (`DF_*`) other than `DF_NEGATIVE`. -/
structure DFlags where
  isLocal : Bool
  auth : Bool
  nocache : Bool
  wild : Bool
  deriving DecidableEq

def nrrmu : Nat := 8

def nrrext : Nat := 39

/-- An index of the arrays `rrmu` and `rrext`. -/
abbrev Slot := Fin (nrrmu + nrrext)

/-- A name with its case forgotten, as the hash table maps it. -/
abbrev Key := List (List UInt8)

/-- `rr_set_t`. -/
structure RrSet where
  lent : Option Addr
  ttl : Int
  ts : Int
  flags : CFlags
  rrs : List (List UInt8)
  deriving DecidableEq

/-- The arrays `rrmu` and `rrext`. -/
structure RrArray where
  slots : Slot → Option RrSet
  ext : Bool
  ext_null : ext = false → ∀ i : Slot, nrrmu ≤ i.val → slots i = none

namespace RrArray

def empty : RrArray :=
  ⟨fun _ => none, false, fun _ _ _ => rfl⟩

/-- Store a record set, with `rrext` allocated if the index is in it. -/
def put (a : RrArray) (i : Slot) (r : RrSet) : RrArray where
  slots := Function.update a.slots i (some r)
  ext := a.ext || decide (nrrmu ≤ i.val)
  ext_null := by
    intro h j hj
    obtain ⟨hext, hi⟩ : a.ext = false ∧ i.val < nrrmu := by simpa using h
    rw [Function.update_of_ne (by rintro rfl; omega), a.ext_null hext j hj]

def clear (a : RrArray) (i : Slot) : RrArray where
  slots := Function.update a.slots i none
  ext := a.ext
  ext_null := by
    intro h j hj
    by_cases hji : j = i
    · simp [hji]
    · rw [Function.update_of_ne hji, a.ext_null h j hj]

/-- Change a record set in place. -/
def modify (a : RrArray) (i : Slot) (f : RrSet → RrSet) : RrArray where
  slots := Function.update a.slots i ((a.slots i).map f)
  ext := a.ext
  ext_null := by
    intro h j hj
    by_cases hji : j = i
    · subst hji
      simp [a.ext_null h j hj]
    · rw [Function.update_of_ne hji, a.ext_null h j hj]

def modifyAll (a : RrArray) (f : RrSet → RrSet) : RrArray where
  slots := fun i => (a.slots i).map f
  ext := a.ext
  ext_null := by
    intro h j hj
    simp [a.ext_null h j hj]

def freeExt (a : RrArray) : RrArray where
  slots := fun i => if i.val < nrrmu then a.slots i else none
  ext := false
  ext_null := by
    intro _ j hj
    simp [Nat.not_lt.mpr hj]

end RrArray

/-- The union of `dns_cent_t`. -/
inductive Arm where
  | neg (lent : Option Addr) (ttl ts : Int)
  | rr (a : RrArray)

/-- `dns_cent_t`. -/
structure Cent where
  qname : Name
  cs : Int
  numRrs : Int
  flags : DFlags
  arm : Arm
  cNs : UInt8
  cSoa : UInt8

def cundef : UInt8 := 0xff

/-- `rr_lent_t`: an entry, and the index of a record set in it or nothing for a
negative entry. -/
structure Lent where
  cent : Key
  idx : Option Slot
  deriving DecidableEq

abbrev Rrl := DList Lent

namespace Cent

def negative (c : Cent) : Bool :=
  match c.arm with
  | .neg .. => true
  | .rr _ => false

/-- `RRARR_INDEX_TESTEXT`. -/
def rrset (c : Cent) (i : Slot) : Option RrSet :=
  match c.arm with
  | .neg .. => none
  | .rr a => a.slots i

def ext (c : Cent) : Bool :=
  match c.arm with
  | .neg .. => false
  | .rr a => a.ext

def modifyRrset (c : Cent) (i : Slot) (f : RrSet → RrSet) : Cent :=
  match c.arm with
  | .neg .. => c
  | .rr a => { c with arm := .rr (a.modify i f) }

end Cent

variable (sz : Sizes)

def initCent (qname : Name) (negative : Bool) (ttl ts : Int) (flags : DFlags) : Cent where
  qname := qname
  cs := sz.cent + rhnlen qname.wire
  numRrs := 0
  flags := flags
  arm := if negative then .neg none ttl ts else .rr RrArray.empty
  cNs := cundef
  cSoa := cundef

/-- Take a node off the list, if there is one. -/
def removeRrl (l : Rrl) (lent : Option Addr) : Option Rrl :=
  match lent with
  | none => some l
  | some a => l.remove a

/-- The memory a record set takes. -/
def RrSet.size (r : RrSet) : Nat :=
  sz.rrset + (r.rrs.map fun d => sz.bucket + d.length).sum

def addCentRrsetByIndex (l : Rrl) (c : Cent) (i : Slot) (ttl ts : Int) (flags : CFlags) :
    Option (Rrl × Cent) := do
  -- an entry that gets a record set is not negative any more
  let (l, a) ← match c.arm with
    | .neg lent _ _ => (removeRrl l lent).map fun l => (l, RrArray.empty)
    | .rr a => some (l, a)
  let grown := if nrrmu ≤ i.val ∧ a.ext = false then c.cs + sz.pointer * nrrext else c.cs
  some (l, { c with
    arm := .rr (a.put i ⟨none, ttl, ts, flags, []⟩)
    cs := grown + sz.rrset
    numRrs := c.numRrs + 1 })

/-- `add_cent_rr_int` for a record set that is there: the record comes last. -/
def appendRr (c : Cent) (i : Slot) (data : List UInt8) : Cent :=
  { c.modifyRrset i fun r => { r with rrs := r.rrs ++ [data] } with
    cs := c.cs + sz.bucket + data.length }

def appendRrs (c : Cent) (i : Slot) (rrs : List (List UInt8)) : Cent :=
  rrs.foldl (fun c data => appendRr sz c i data) c

def addCentRr (l : Rrl) (c : Cent) (i : Slot) (ttl ts : Int) (flags : CFlags)
    (data : List UInt8) : Option (Rrl × Cent) :=
  if c.flags.isLocal && !flags.isLocal then some (l, c)
  else
    match c.rrset i with
    | some r =>
        let c := if ttl < r.ttl then c.modifyRrset i fun r => { r with ttl := ttl } else c
        if data ∈ r.rrs then some (l, c)
        else some (l, appendRr sz c i data)
    | none => do
        let (l, c) ← addCentRrsetByIndex sz l c i ttl ts flags
        some (l, appendRr sz c i data)

/-- What `add_cent_rr` makes of a record set: the smaller time to live is kept, and the data
comes last if it is new. -/
def withRr (ttl ts : Int) (flags : CFlags) (data : List UInt8) : Option RrSet → RrSet
  | none => ⟨none, ttl, ts, flags, [data]⟩
  | some s =>
      { s with
        ttl := if ttl < s.ttl then ttl else s.ttl
        rrs := if data ∈ s.rrs then s.rrs else s.rrs ++ [data] }

/-- `del_rrset`: the list without the record set, and the memory that was freed. -/
def delRrset (l : Rrl) (r : RrSet) : Option (Rrl × Nat) := do
  let l ← removeRrl l r.lent
  some (l, r.size sz)

def delCentRrsetByIndex (l : Rrl) (c : Cent) (i : Slot) : Option (Rrl × Cent × Nat) :=
  match c.arm with
  | .neg .. => some (l, c, 0)
  | .rr a =>
      match a.slots i with
      | none => some (l, c, 0)
      | some r => do
          let (l, rv) ← delRrset sz l r
          some (l, { c with
            arm := .rr (a.clear i)
            numRrs := c.numRrs - 1
            cs := c.cs - rv
            flags := { c.flags with auth := false } }, rv)

/-- One turn of the loop over the record sets that are freed with their entry. -/
def delTurn (a : RrArray) (x : Rrl × Nat) (i : Slot) : Option (Rrl × Nat) :=
  match a.slots i with
  | none => some x
  | some r => do
      let (l, rv) ← delRrset sz x.1 r
      some (l, x.2 + rv)

def delAllRrsets (l : Rrl) (a : RrArray) : Option (Rrl × Nat) :=
  (List.finRange (nrrmu + nrrext)).foldlM (delTurn sz a) (l, 0)

def freeCent (l : Rrl) (c : Cent) : Option Rrl :=
  match c.arm with
  | .neg lent _ _ => removeRrl l lent
  | .rr a => do
      let (l, _) ← delAllRrsets sz l a
      some l

def negateCent (l : Rrl) (c : Cent) (ttl ts : Int) : Option (Rrl × Cent) :=
  match c.arm with
  | .neg lent _ _ => some (l, { c with arm := .neg lent ttl ts })
  | .rr a => do
      let (l, freed) ← delAllRrsets sz l a
      some (l, { c with
        arm := .neg none ttl ts
        numRrs := 0
        cs := c.cs - freed - if a.ext then sz.pointer * nrrext else 0 })

/-- `copy_cent`: the copy is not on the list. -/
def copyCent (c : Cent) : Cent :=
  match c.arm with
  | .neg _ ttl ts => { c with arm := .neg none ttl ts }
  | .rr a => { c with arm := .rr (a.modifyAll fun r => { r with lent := none }) }

end TorAndroid.Dns
