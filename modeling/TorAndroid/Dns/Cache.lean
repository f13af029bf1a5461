import TorAndroid.Dns.CacheEntry
import TorAndroid.Dns.DomainMatch

/-!
The DNS cache (`cache.c`): the table of entries, the list of the record sets that
can be purged, and the operations on them.

The table is the map that the hash table refines, so an entry is found under its
name with the case forgotten.  The clock is read once per operation.  An operation
has no result where the code would follow a dangling pointer.
-/

namespace TorAndroid.Dns

open TorAndroid.Lib.LinkedCells TorAndroid.Lib.DoublyLinked

/-- The settings the cache depends on. -/
structure CacheConfig where
  sizes : Sizes
  minTtl : Int
  maxTtl : Int
  negTtl : Int
  permCache : Int

structure Cache where
  table : AList (fun _ : Key => Cent)
  rrl : Rrl
  cacheSize : Int
  entNum : Int
  insertSort : Bool

namespace Cache

def empty : Cache :=
  ⟨∅, DList.empty, 0, 0, true⟩

/-- The entry of a name (`dns_lookup`). -/
def find (s : Cache) (k : Key) : Option Cent :=
  s.table.lookup k

def put (s : Cache) (k : Key) (c : Cent) : Cache :=
  { s with table := s.table.insert k c }

end Cache

def cacheLat : Int := 120

/-- `timedout` and `timedout_nxdom`. -/
def timedout (now ts ttl : Int) : Bool :=
  ts + max ttl cacheLat < now

def RrSet.purgeable (now : Int) (r : RrSet) : Bool :=
  !(r.flags.nopurge || r.flags.isLocal) && timedout now r.ts r.ttl

/-- `get_rrlent_ts`. -/
def lentTs (s : Cache) (le : Lent) : Option Int := do
  let c ← s.find le.cent
  match le.idx, c.arm with
  | none, .neg _ _ ts => some ts
  | some i, _ => (c.rrset i).map RrSet.ts
  | none, .rr _ => none

/-- Store where the node of a record set, or of the entry itself, is. -/
def Cent.setLent (c : Cent) (idx : Option Slot) (a : Addr) : Cent :=
  match idx with
  | some i => c.modifyRrset i fun r => { r with lent := some a }
  | none =>
      match c.arm with
      | .neg _ ttl ts => { c with arm := .neg (some a) ttl ts }
      | .rr _ => c

/-- Whether the record set that a node is for, or its entry, is local. -/
def Cent.localAt (c : Cent) (idx : Option Slot) : Bool :=
  (match idx with
    | some i => (c.rrset i).any fun r => r.flags.isLocal
    | none => false) || c.flags.isLocal

/-- The neighbours between which `insert_rrl` puts a new node. -/
def insertPlace (s : Cache) (le : Lent) : Option (Option Addr × Option Addr) := do
  if s.insertSort then
    let ts ← lentTs s le
    let prev ← s.rrl.findBack (fun n => (lentTs s n).map fun t => decide (t ≤ ts))
      (s.rrl.nodes.keys.length + 1) s.rrl.tail
    let next ← s.rrl.nextOf prev
    some (prev, next)
  else some (s.rrl.tail, none)

/-- `insert_rrl`: local data is not put on the list. -/
def insertRrl (s : Cache) (le : Lent) : Option Cache := do
  let c ← s.find le.cent
  if c.localAt le.idx then some s
  else
    let (prev, next) ← insertPlace s le
    let rrl ← s.rrl.insertBetween prev next s.rrl.fresh le
    some ({ s with rrl := rrl }.put le.cent (c.setLent le.idx s.rrl.fresh))

section MergeSort

variable {β : Type} (ts : β → Int)

def listmerge (p q : List β) : List β :=
  List.merge p q fun x y => decide (ts x ≤ ts y)

/-- Merge a list into the array `tmp`, whose `i`th place is null or holds a sorted
list of length `2 ^ i`. -/
def carryInto : List (List β) → List β → List (List β)
  | [], carry => [carry]
  | [] :: tmp, carry => carry :: tmp
  | l :: tmp, carry => [] :: carryInto tmp (listmerge ts l carry)

/-- The order in which `sort_rrl` leaves the nodes, if the array of 32 lists is
long enough. -/
def mergeOrder (xs : List β) : Option (List β) :=
  let tmp := xs.foldl (fun tmp x => carryInto ts tmp [x]) []
  if 32 < tmp.length then none
  else some (tmp.foldl (fun carry l => listmerge ts l carry) [])

end MergeSort

def sortRrl (s : Cache) : Option Cache := do
  let order ← mergeOrder (fun x => (lentTs s x.2).getD 0) s.rrl.toList
  some { s with rrl := s.rrl.relink order }

variable (cfg : CacheConfig)

/-- `del_cache_ent`: the entry is taken out of the table and freed. -/
def delCacheEnt (s : Cache) (k : Key) (c : Cent) : Option Cache := do
  let rrl ← freeCent cfg.sizes s.rrl c
  some { s with
    table := s.table.erase k
    rrl := rrl
    cacheSize := s.cacheSize - c.cs
    entNum := s.entNum - 1 }

/-- Delete a record set of an entry, and take what was freed off the size. -/
def delSlot (s : Cache) (k : Key) (c : Cent) (i : Slot) : Option Cache := do
  let (rrl, c, rv) ← delCentRrsetByIndex cfg.sizes s.rrl c i
  some ({ s with rrl := rrl, cacheSize := s.cacheSize - rv }.put k c)

def purgeRrset (now : Int) (s : Cache) (k : Key) (i : Slot) : Option Cache := do
  let c ← s.find k
  if (c.rrset i).any (RrSet.purgeable now) then delSlot cfg s k c i else some s

/-- One turn of the loop of `purge_all_rrsets`: the record sets that stay are
counted, and those of them in `rrext`. -/
def purgeStep (now : Int) (k : Key) (acc : Cache × Nat × Nat) (i : Slot) :
    Option (Cache × Nat × Nat) := do
  let (s, numrrs, numrrext) := acc
  let c ← s.find k
  match c.rrset i with
  | none => some acc
  | some r =>
      if r.purgeable now then
        let s ← delSlot cfg s k c i
        some (s, numrrs, numrrext)
      else some (s, numrrs + 1, if nrrmu ≤ i.val then numrrext + 1 else numrrext)

/-- Free the array `rrext`. -/
def Cent.freeExt (c : Cent) (sz : Sizes) : Cent :=
  match c.arm with
  | .neg .. => c
  | .rr a => { c with arm := .rr a.freeExt, cs := c.cs - sz.pointer * nrrext }

/-- `purge_all_rrsets`, with the number of record sets that remain. -/
def purgeAllRrsets (now : Int) (s : Cache) (k : Key) : Option (Cache × Nat) := do
  let (s, numrrs, numrrext) ← (List.finRange _).foldlM (purgeStep cfg now k) (s, 0, 0)
  let c ← s.find k
  if c.ext && numrrext == 0 then
    some ({ s with cacheSize := s.cacheSize - cfg.sizes.pointer * nrrext }.put k
      (c.freeExt cfg.sizes), numrrs)
  else some (s, numrrs)

/-- The indices of the types `A`, `NS` and `SOA`. -/
def slotA : Slot := ⟨0, by decide⟩

def slotNS : Slot := ⟨1, by decide⟩

def slotSOA : Slot := ⟨3, by decide⟩

/-- The last `k` segments of a name (`skipsegs`). -/
def Name.suffix (n : Name) (k : Nat) : Name :=
  ⟨n.labels.drop (n.labels.length - k)⟩

/-- Whether a reference to the record set of an enclosing domain is stale. -/
def staleRef (now : Int) (s : Cache) (c : Cent) (ref : UInt8) (i : Slot) : Bool :=
  let rrset :=
    if ref.toNat = c.qname.labels.length then c.rrset i
    else if ref.toNat < c.qname.labels.length then
      (s.find (c.qname.suffix ref.toNat).fold).bind fun e => e.rrset i
    else none
  match rrset with
  | none => true
  | some r => r.rrs.isEmpty || (!r.flags.isLocal && timedout now r.ts r.ttl)

def refreshRef (now : Int) (s : Cache) (c : Cent) (ref : UInt8) (i : Slot) : UInt8 :=
  if ref ≠ cundef ∧ staleRef now s c ref i then cundef else ref

/-- Whether an entry that holds no record set can be removed. -/
def Cent.needless (now : Int) (c : Cent) : Bool :=
  match c.arm with
  | .neg _ ttl ts => !c.flags.isLocal && timedout now ts ttl
  | .rr _ => true

/-- `purge_cent`, with whether the entry was removed. -/
def purgeCent (now : Int) (delete : Bool) (s : Cache) (k : Key) : Option (Cache × Bool) := do
  let (s, numrrs) ← purgeAllRrsets cfg now s k
  let c ← s.find k
  if delete && numrrs == 0 && c.needless now then
    let s ← delCacheEnt cfg s c.qname.fold c
    some (s, true)
  else if c.flags.isLocal then some (s, false)
  else
    let c₁ := { c with cNs := refreshRef now s c c.cNs slotNS }
    let c₂ := { c₁ with cSoa := refreshRef now (s.put k c₁) c₁ c₁.cSoa slotSOA }
    some (s.put k c₂, false)

/-- The classes of the record types, and the classes they exclude (`rr_info`), in
the order of the indices. -/
inductive RrClass where
  | alias
  | record
  | idem
  | ptr
  deriving DecidableEq

def rrInfo : List RrClass :=
  [.record, .idem, .alias, .idem, .ptr, .idem, .idem, .record, .idem, .idem, .idem, .idem,
    .idem, .idem, .record, .record, .idem, .record, .record, .record, .record, .record, .record,
    .ptr, .idem, .idem, .idem, .record, .record, .idem, .record, .record, .record, .record,
    .record, .record, .record, .idem, .idem, .idem, .idem, .idem, .idem, .idem, .idem, .idem,
    .idem]

def RrClass.excludes : RrClass → List RrClass
  | .alias => [.record, .ptr]
  | .record => [.alias, .ptr]
  | .idem => []
  | .ptr => [.alias, .record]

def rrClass (i : Slot) : RrClass :=
  rrInfo.getD i.val .idem

/-- Two types that cannot be held for one name. -/
def conflicts (i j : Slot) : Bool :=
  (rrClass j).excludes.contains (rrClass i) || (rrClass i).excludes.contains (rrClass j)

/-- The record sets of an entry that conflict with a new one. -/
def conflicting (c : Cent) (i : Slot) : List (Slot × RrSet) :=
  (List.finRange _).filterMap fun j =>
    match c.rrset j with
    | none => none
    | some r => if !r.flags.negative && conflicts i j then some (j, r) else none

def dropConflict (x : Rrl × Cent) (y : Slot × RrSet) : Option (Rrl × Cent) := do
  let (l, c, _) ← delCentRrsetByIndex cfg.sizes x.1 x.2 y.1
  some (l, c)

/-- `cr_check_add`: whether the new record set may be added, with the record sets
that conflict with it removed if so. -/
def crCheckAdd (now : Int) (l : Rrl) (c : Cent) (i : Slot) (ttl : Int) (flags : CFlags) :
    Option (Rrl × Cent × Bool) :=
  let old := conflicting c i
  let rest := (old.map fun x => max (x.2.ttl + x.2.ts - now) 0).sum / old.length
  if flags.negative then some (l, c, true)
  else if !flags.isLocal && c.flags.isLocal then some (l, c, false)
  else if !flags.isLocal && old.any (fun x => x.2.flags.isLocal) then some (l, c, false)
  else if !flags.isLocal && old.isEmpty then some (l, c, true)
  else if flags.isLocal || decide (rest < ttl) then do
    let (l, c) ← old.foldlM (dropConflict cfg) (l, c)
    some (l, c, true)
  else some (l, c, false)

/-- The bounds of `adjust_ttl` and `adjust_dom_ttl` on a time to live. -/
def boundTtl (negative : Bool) (ttl : Int) : Int :=
  let minTtl := if negative && decide (cfg.negTtl < cfg.minTtl) then cfg.negTtl else cfg.minTtl
  if ttl < minTtl then minTtl
  else if cfg.maxTtl < ttl then cfg.maxTtl
  else ttl

def adjustTtl (r : RrSet) : RrSet :=
  if r.flags.nocache then { r with flags := { r.flags with nocache := false }, ttl := 0 }
  else { r with ttl := boundTtl cfg r.flags.negative r.ttl }

def adjustDomTtl (c : Cent) : Cent :=
  match c.arm with
  | .neg lent ttl ts =>
      if c.flags.nocache then
        { c with flags := { c.flags with nocache := false }, arm := .neg lent 0 ts }
      else { c with arm := .neg lent (boundTtl cfg true ttl) ts }
  | .rr _ => c

/-- One turn of the first loop of `purge_cache`. -/
def purgeOld (now : Int) (s : Cache) (le : Lent) : Option Cache := do
  let c ← s.find le.cent
  if c.localAt le.idx then some s
  else
    let s ← match le.idx with
      | some i => purgeRrset cfg now s le.cent i
      | none => some s
    let c ← s.find le.cent
    if decide (c.numRrs = 0) && c.needless now then delCacheEnt cfg s c.qname.fold c else some s

/-- One turn of the second loop, which does not ask whether the set is timed out. -/
def purgeAny (s : Cache) (le : Lent) : Option Cache := do
  let c ← s.find le.cent
  if c.localAt le.idx then some s
  else
    let s ← match le.idx with
      | some i => delSlot cfg s le.cent c i
      | none => some s
    let c ← s.find le.cent
    if c.numRrs = 0 then delCacheEnt cfg s c.qname.fold c else some s

/-- A walk along the list while the condition holds.  The next node is read before
the current one is worked on. -/
def walkRrl (cond : Cache → Bool) (body : Cache → Lent → Option Cache) :
    Nat → Cache → Option Addr → Option Cache
  | 0, _, _ => none
  | _ + 1, s, none => some s
  | n + 1, s, some a =>
      if cond s then do
        let le ← s.rrl.node a
        let s ← body s le.val
        walkRrl cond body n s le.next
      else some s

def walkAll (cond : Cache → Bool) (body : Cache → Lent → Option Cache) (s : Cache) :
    Option Cache :=
  walkRrl cond body (s.rrl.nodes.keys.length + 1) s s.rrl.head

def purgeCache (now : Int) (s : Cache) (limit : Int) (lazy : Bool) : Option Cache := do
  let s ← walkAll (fun s => !lazy || decide (limit < s.cacheSize)) (purgeOld cfg now) s
  if s.cacheSize ≤ limit then some s
  else
    let s ← if s.insertSort then some s
      else (sortRrl s).map fun s => { s with insertSort := true }
    walkAll (fun s => decide (limit < s.cacheSize)) (purgeAny cfg) s

def mcsz : Int := 10240

/-- Whether an old record set keeps a new one of its type out. -/
def keepsOut (now : Int) (old new : RrSet) : Bool :=
  (!new.flags.isLocal && old.flags.isLocal) ||
    (new.flags.additional && (!old.flags.additional ||
      (!new.flags.rootserv && old.flags.rootserv)) && !timedout now old.ts old.ttl)

/-- One turn of the loop of `add_cache` over the record sets of the new entry. -/
def addSlot (now : Int) (k : Key) (new : Cent) (s : Cache) (i : Slot) : Option Cache := do
  let c ← s.find k
  match new.rrset i with
  | none => some s
  | some r =>
      if (c.rrset i).any fun old => keepsOut now old r then some s
      else
        let (l, c, _) ← delCentRrsetByIndex cfg.sizes s.rrl c i
        let (l, c, ok) ← crCheckAdd cfg now l c i r.ttl r.flags
        if !ok then some ({ s with rrl := l }.put k c)
        else
          let (l, c) ← addCentRrsetByIndex cfg.sizes l c i r.ttl r.ts r.flags
          let c := (appendRrs cfg.sizes c i r.rrs).modifyRrset i (adjustTtl cfg)
          insertRrl ({ s with rrl := l }.put k c) ⟨k, some i⟩

/-- The larger of two references, where one is defined. -/
def mergeRef (old new : UInt8) : UInt8 :=
  if new ≠ cundef ∧ (old = cundef ∨ old < new) then new else old

/-- One turn of the loop over the record sets of an entry that is new. -/
def insertSlot (k : Key) (s : Cache) (i : Slot) : Option Cache := do
  let c ← s.find k
  if (c.rrset i).isSome then insertRrl s ⟨k, some i⟩ else some s

/-- The times to live of a copied entry, within their bounds. -/
def adjustCent (c : Cent) : Cent :=
  match c.arm with
  | .rr a => { c with arm := .rr (a.modifyAll (adjustTtl cfg)) }
  | .neg _ _ _ => adjustDomTtl cfg c

/-- A name that is not in the cache yet. -/
def addNew (s : Cache) (new : Cent) : Option Cache := do
  let k := new.qname.fold
  let c := adjustCent cfg (copyCent new)
  let s := { s with entNum := s.entNum + 1 }.put k c
  let s ← if c.negative then insertRrl s ⟨k, none⟩
    else (List.finRange _).foldlM (insertSlot k) s
  some { s with cacheSize := s.cacheSize + c.cs }

/-- An entry that is there gets the record sets of the new one. -/
def addExisting (now : Int) (s : Cache) (new : Cent) : Option Cache := do
  let k := new.qname.fold
  let (s, _) ← purgeCent cfg now false s k
  let c ← s.find k
  let s := { s with cacheSize := s.cacheSize - c.cs }
  let s ← (List.finRange _).foldlM (addSlot cfg now k new) s
  let c ← s.find k
  let c := { c with
    flags := { c.flags with
      auth := c.flags.auth || new.flags.auth
      wild := c.flags.wild || new.flags.wild }
    cNs := mergeRef c.cNs new.cNs
    cSoa := mergeRef c.cSoa new.cSoa }
  some { s.put k c with cacheSize := s.cacheSize + c.cs }

def addCache (now : Int) (s : Cache) (new : Cent) : Option Cache := do
  let purge := fun s => purgeCache cfg now s (cfg.permCache * 1024 + mcsz) true
  match s.find new.qname.fold with
  | none =>
      if new.numRrs = 0 ∧ !new.negative then purge s
      else
        let s ← addNew cfg s new
        purge s
  | some c =>
      if new.negative then
        if (List.finRange _).any fun i => (c.rrset i).any fun r => r.flags.isLocal then some s
        else
          let s ← delCacheEnt cfg s new.qname.fold c
          let s ← addNew cfg s new
          purge s
      else
        let s ← addExisting cfg now s new
        purge s

def delCache (s : Cache) (name : Name) : Option Cache :=
  match s.find name.fold with
  | none => some s
  | some c => delCacheEnt cfg s name.fold c

def invalidateRecord (s : Cache) (name : Name) : Cache :=
  match s.find name.fold with
  | none => s
  | some c =>
      let arm := match c.arm with
        | .rr a => .rr (a.modifyAll fun r =>
            { r with ts := 0, flags := { r.flags with auth := false } })
        | .neg lent ttl _ => .neg lent ttl 0
      s.put name.fold { c with arm := arm, flags := { c.flags with auth := false } }

/-- `set_cent_flags` for flags other than `DF_NEGATIVE` and `DF_LOCAL`. -/
def setCentFlags (s : Cache) (name : Name) (auth nocache wild : Bool) : Cache :=
  match s.find name.fold with
  | none => s
  | some c => s.put name.fold { c with flags := { c.flags with
      auth := c.flags.auth || auth
      nocache := c.flags.nocache || nocache
      wild := c.flags.wild || wild } }

/-- `slist_t`: a rule of an include/exclude list. -/
structure Slist where
  domain : Name
  exact : Bool
  included : Bool

/-- Whether `free_dns_hash_selected` deletes a name: the first rule that matches
decides. -/
def selected (name : Name) : List Slist → Bool
  | [] => false
  | sl :: sla =>
      let k := name.common sl.domain
      if sl.domain.offset k = 0 ∧ (!sl.exact || name.offset k == 0) then sl.included
      else selected name sla

def emptyCache (s : Cache) (sla : Option (List Slist)) : Option Cache :=
  s.table.entries.foldlM (fun s e =>
    if sla.all (selected e.2.qname) then delCacheEnt cfg s e.1 e.2 else some s) s

/-- The entry `lookup_cache` uses: the one of the name, or with `wild` the nearest
enclosing one that is negative, local, or has a wildcard record. -/
def lookupEntry (s : Cache) (name : Name) (wild : Bool) : Option Cent :=
  match s.find name.fold with
  | some c => some c
  | none =>
      if !wild then none
      else
        let up := (List.range name.labels.length).reverse.filter fun k => 0 < k
        match up.findSome? fun k => (s.find (name.suffix k).fold).map fun c => (k, c) with
        | none => none
        | some (k, c) =>
            if c.negative then some c
            else if c.flags.wild then s.find ([42] :: (name.suffix k).fold)
            else if c.flags.isLocal then some c
            else none

/-- Whether `purge_cent` would remove anything. -/
def purgeTest (now : Int) (s : Cache) (c : Cent) : Bool :=
  let stay := (List.finRange _).filter fun i => (c.rrset i).any fun r => !r.purgeable now
  (List.finRange _).any (fun i => (c.rrset i).any (RrSet.purgeable now)) ||
    (c.ext && stay.all fun i => i.val < nrrmu) || (stay.isEmpty && c.needless now) ||
    (!c.flags.isLocal &&
      (refreshRef now s c c.cNs slotNS ≠ c.cNs || refreshRef now s c c.cSoa slotSOA ≠ c.cSoa))

/-- What `lookup_cache` does to the cache. -/
def lookupCache (now : Int) (s : Cache) (name : Name) (wild : Bool) : Option Cache :=
  match lookupEntry s name wild with
  | none => some s
  | some c =>
      if purgeTest now s c then do
        let (s, _) ← purgeCent cfg now true s c.qname.fold
        some s
      else some s

end TorAndroid.Dns
