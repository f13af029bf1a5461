import TorAndroid.Dns.EvictionRun
import TorAndroid.Dns.RrTypes

namespace TorAndroid.Dns

open TorAndroid.Lib.GuardedRun

/-- `rr_fbucket_t` with the data behind it, whose length it holds as an `unsigned short`. -/
structure FileRr where
  data : List UInt8
  rdlen_lt : data.length < 256 ^ 2

/-- `rr_fset_t` with the records behind it, whose number it holds. -/
structure FileSet where
  tp : Nat
  flags : CFlags
  ttl : Int
  ts : Int
  rrs : List FileRr

/-- `dns_file_t` with the times, the name and the record sets behind it. -/
structure FileEntry where
  qname : Name
  negative : Bool
  flags : DFlags
  cNs : UInt8
  cSoa : UInt8
  ttl : Int
  ts : Int
  sets : List FileSet

/-- A record as it is written: `rf.rdlen` bytes, which are too few if the data is longer than an
`unsigned short` can say. -/
def writeRr (data : List UInt8) : FileRr where
  data := data.take (data.length % 256 ^ 2)
  rdlen_lt := by
    rw [List.length_take]
    exact (Nat.min_le_left _ _).trans_lt (Nat.mod_lt _ (by decide))

def writeRrset (tp : Nat) (r : RrSet) : FileSet :=
  ⟨tp, r.flags, r.ttl, r.ts, (r.rrs.take 255).map writeRr⟩

/-- Whether an entry is written at all. -/
def Cent.toWrite (c : Cent) : Bool :=
  if c.negative then !c.flags.isLocal
  else (List.finRange _).any fun i => (c.rrset i).any fun r => !r.flags.isLocal

/-- The time to live and the timestamp of a negative entry. -/
def Cent.negTimes (c : Cent) : Option (Int × Int) :=
  match c.arm with
  | .neg _ ttl ts => some (ttl, ts)
  | .rr _ => none

def writeEntry (c : Cent) : FileEntry where
  qname := c.qname
  negative := c.negative
  flags := c.flags
  cNs := c.cNs
  cSoa := c.cSoa
  ttl := (c.negTimes.getD (0, 0)).1
  ts := (c.negTimes.getD (0, 0)).2
  sets := c.iterlist.filterMap fun tp => (c.getrrset tp).bind fun r =>
    if r.flags.isLocal then none else some (writeRrset tp r)

variable (cfg : CacheConfig)

/-- `write_disk_cache`: the cache that is left, and the entries of the file. -/
def writeDiskCache (now : Int) (s : Cache) : Option (Cache × List FileEntry) := do
  let s ← purgeCache cfg now s (cfg.permCache * 1024) false
  some (s, (s.table.entries.filter fun e => e.2.toWrite).map fun e => writeEntry e.2)

/-- The record sets of an entry, if their types can be cached and are in ascending
order. -/
def readSets (prevtp : Nat) : List FileSet → Option (List DiskSet)
  | [] => some []
  | x :: xs => do
      let i ← slotOf x.tp
      if x.tp ≤ prevtp then none
      else
        let sets ← readSets x.tp xs
        some (⟨i, x.ttl, x.ts, x.flags, x.rrs.map FileRr.data⟩ :: sets)

def FileEntry.read (e : FileEntry) : Option DiskEntry := do
  let sets ← readSets 0 e.sets
  some ⟨e.qname, e.negative, e.flags, e.ttl, e.ts, e.cNs, e.cSoa, sets⟩

/-- The entries up to the first one with an error. -/
def readable : List FileEntry → List DiskEntry
  | [] => []
  | e :: es =>
      match e.read with
      | none => []
      | some d => d :: readable es

/-- `read_disk_cache` when the program starts, while the clock does not move. -/
def reload (now : Int) (file : List FileEntry) : Option Cache :=
  readDiskCache cfg Cache.empty (some ((readable file).map fun e => (now, e)))

/-- What an entry holds. -/
structure Content where
  qname : Name
  negative : Option (Int × Int)
  cNs : UInt8
  cSoa : UInt8
  rrset : Slot → Option RrSet

def Cent.content (c : Cent) : Content :=
  ⟨c.qname, c.negTimes, c.cNs, c.cSoa, fun i => (c.rrset i).map RrSet.bare⟩

/-- What an entry holds that is not local, if there is anything. -/
def Cent.nonLocal (c : Cent) : Option Content :=
  if c.toWrite then
    some { c.content with
      rrset := fun i => ((c.rrset i).filter fun r => !r.flags.isLocal).map RrSet.bare }
  else none

/-- One cache holds exactly what another one holds that is not local. -/
def Cache.Reproduces (u t : Cache) : Prop :=
  ∀ k, (u.find k).map Cent.content = (t.find k).bind Cent.nonLocal

/-- The bounds of `adjust_ttl`. -/
def WithinTtl (negative : Bool) (ttl : Int) : Prop :=
  (if negative then min cfg.minTtl cfg.negTtl else cfg.minTtl) ≤ ttl ∧ ttl ≤ cfg.maxTtl

/-- Nothing in the entry is changed when it is written and its record sets are added a second
time: the times to live are within the bounds, a local entry has no records that are not, and the
length of every record can be written. -/
structure Cent.Settled (c : Cent) : Prop where
  ttl : ∀ i, ∀ r ∈ c.rrset i, r.flags.isLocal = false → WithinTtl cfg r.flags.negative r.ttl
  rrs : c.flags.isLocal = true → ∀ i, ∀ r ∈ c.rrset i, r.flags.isLocal = false → r.rrs = []
  data : ∀ i, ∀ r ∈ c.rrset i, r.flags.isLocal = false → ∀ data ∈ r.rrs, data.length < 256 ^ 2
  negative : ∀ x ∈ c.negTimes, c.flags.isLocal = false →
    if c.flags.nocache then x.1 = 0 else WithinTtl cfg true x.1

end TorAndroid.Dns
