import TorAndroid.Dns.Decompression
import TorAndroid.Dns.DiskEntries
import TorAndroid.Lib.ByteBuffer
import TorAndroid.Lib.TornInput

/-!
The bytes of the cache file.  Its structs are packed; `w` is the size of `time_t` and of
`unsigned long`, which are stored with the lowest byte first.
-/

namespace TorAndroid.Dns

open TorAndroid.Lib.ByteBuffer TorAndroid.Lib.TornInput

section Structs

variable (w : Nat)

/-- The flags of a record set as `unsigned short`. -/
def CFlags.word (f : CFlags) : Nat :=
  f.negative.toNat + 2 * f.isLocal.toNat + 4 * f.auth.toNat + 8 * f.nocache.toNat +
    16 * f.additional.toNat + 32 * f.nopurge.toNat + 64 * f.rootserv.toNat

def CFlags.ofWord (v : Nat) : CFlags :=
  ⟨v.testBit 0, v.testBit 1, v.testBit 2, v.testBit 3, v.testBit 4, v.testBit 5, v.testBit 6⟩

/-- The flags of an entry, `DF_NEGATIVE` among them. -/
def DFlags.word (negative : Bool) (f : DFlags) : Nat :=
  negative.toNat + 2 * f.isLocal.toNat + 4 * f.auth.toNat + 8 * f.nocache.toNat +
    16 * f.wild.toNat

def DFlags.ofWord (v : Nat) : DFlags :=
  ⟨v.testBit 1, v.testBit 2, v.testBit 3, v.testBit 4⟩

def timeBytes (t : Int) : List UInt8 :=
  wordBytes w (t % (256 ^ w : Nat)).toNat

def timeValue (bytes : List UInt8) : Int :=
  Int.bmod (wordValue bytes) (256 ^ w)

/-- `dns_file_t` -/
structure DnsFile where
  qlen : Nat
  numRrs : Nat
  flags : Nat
  cNs : UInt8
  cSoa : UInt8

def DnsFile.bytes (x : DnsFile) : List UInt8 :=
  wordBytes 1 x.qlen ++ wordBytes 1 x.numRrs ++ wordBytes 2 x.flags ++ [x.cNs, x.cSoa]

def DnsFile.ofBytes (bytes : List UInt8) : DnsFile where
  qlen := wordValue (bytes.take 1)
  numRrs := wordValue ((bytes.drop 1).take 1)
  flags := wordValue ((bytes.drop 2).take 2)
  cNs := (bytes.drop 4).headD 0
  cSoa := (bytes.drop 5).headD 0

/-- `rr_fset_t` -/
structure RrFset where
  tp : Nat
  numRr : Nat
  flags : Nat
  ttl : Int
  ts : Int

def RrFset.bytes (x : RrFset) : List UInt8 :=
  wordBytes 1 x.tp ++ wordBytes 1 x.numRr ++ wordBytes 2 x.flags ++
    (timeBytes w x.ttl ++ timeBytes w x.ts)

def RrFset.ofBytes (bytes : List UInt8) : RrFset where
  tp := wordValue (bytes.take 1)
  numRr := wordValue ((bytes.drop 1).take 1)
  flags := wordValue ((bytes.drop 2).take 2)
  ttl := timeValue w ((bytes.drop 4).take w)
  ts := timeValue w (bytes.drop (4 + w))

/-- `cachverid` -/
def cachverid : List UInt8 :=
  [112, 100, 49, 51]

end Structs

section Write

variable (w : Nat)

/-- `rr_fbucket_t` and the data behind it. -/
def recordBytes (rf : FileRr) : List UInt8 :=
  wordBytes 2 rf.data.length ++ rf.data

def setBytes (x : FileSet) : List UInt8 :=
  RrFset.bytes w ⟨x.tp, x.rrs.length, x.flags.word, x.ttl, x.ts⟩ ++ x.rrs.flatMap recordBytes

/-- `df.num_rrs` -/
def Cent.countWritten (c : Cent) : Nat :=
  (List.finRange (nrrmu + nrrext)).countP fun i => (c.rrset i).any fun r => !r.flags.isLocal

/-- `df.qlen`, an `unsigned char`. -/
def Cent.qlen (c : Cent) : Nat :=
  (rhnlen c.qname.wire - 1) % 256

def entryTimes (e : FileEntry) : List UInt8 :=
  if e.negative then timeBytes w e.ttl ++ timeBytes w e.ts else []

def entryBytes (c : Cent) : List UInt8 :=
  DnsFile.bytes ⟨c.qlen, c.countWritten, c.flags.word c.negative, c.cNs, c.cSoa⟩ ++
    (entryTimes w (writeEntry c) ++
      (c.qname.wire.take c.qlen ++ (writeEntry c).sets.flatMap (setBytes w)))

/-- The entries that `write_disk_cache` goes through twice, to count and to write them. -/
def Cache.written (s : Cache) : List Cent :=
  (s.table.entries.map Sigma.snd).filter Cent.toWrite

/-- The version identifier and the number of entries. -/
def headBytes (n : Nat) : List UInt8 :=
  cachverid ++ wordBytes w n

/-- `write_disk_cache`: the cache that is left, and the file. -/
def writeDiskFile (cfg : CacheConfig) (now : Int) (s : Cache) : Option (Cache × List UInt8) := do
  let s ← purgeCache cfg now s (cfg.permCache * 1024) false
  some (s, headBytes w s.written.length ++ s.written.flatMap (entryBytes w))

end Write

section Read

/-- How reading ends early: with a message, or with the process. -/
inductive ReadEnd where
  | stop (what : String)
  | exit

/-- The size of the buffer for data, and the number of calls so far that need memory. -/
structure ReadState where
  dtsz : Nat
  calls : Nat

abbrev DiskReader (α : Type) := Reader ReadState ReadEnd UInt8 α

variable (w : Nat) (memory : Nat → Bool)

/-- A call that needs memory, and where there is none the end of the process. -/
def allocate : DiskReader Unit := fun x =>
  if memory x.1.calls then .ok ((), { x.1 with calls := x.1.calls + 1 }, x.2) else .error .exit

/-- The buffer grows if the data does not fit in it. -/
def reserve (rdlen : Nat) : DiskReader Unit := fun x =>
  if x.1.dtsz < rdlen then
    allocate memory ({ x.1 with dtsz := rdlen }, x.2)
  else .ok ((), x)

/-- The `n` bytes of a field that is not read at all when it is empty. -/
def nextField (what : String) (n : Nat) : DiskReader (List UInt8) :=
  if n = 0 then pure [] else next (.stop what) n

def readRecord : DiskReader (List UInt8) := do
  let rr ← next (.stop "rr data length") 2
  reserve memory (wordValue rr)
  let data ← nextField "rr data" (wordValue rr)
  allocate memory
  pure data

/-- A record set, whose type is above that of the one before. -/
def readSet (prevtp : Nat) : DiskReader (Nat × DiskSet) := do
  let bytes ← next (.stop "rr header") (4 + (w + w))
  let sh := RrFset.ofBytes w bytes
  match slotOf sh.tp with
  | none => throw (.stop "Invalid rr type encountered while reading disk cache file.")
  | some i =>
      if sh.tp ≤ prevtp then
        throw (.stop "Unexpected rr type encountered (not in strict ascending order)")
      else do
        allocate memory
        let rrs ← many (readRecord memory) sh.numRr
        pure (sh.tp, ⟨i, sh.ttl, sh.ts, CFlags.ofWord sh.flags, rrs⟩)

def readDiskSets : Nat → Nat → DiskReader (List DiskSet)
  | 0, _ => pure []
  | n + 1, prevtp => do
      let x ← readSet w memory prevtp
      let xs ← readDiskSets n x.1
      pure (x.2 :: xs)

/-- The labels of a name without the null byte at its end, if they fill it. -/
def diskLabels : Nat → List UInt8 → Option (List Label)
  | _, [] => some []
  | 0, _ :: _ => none
  | n + 1, lb :: nb =>
      if h : 0 < lb.toNat ∧ lb.toNat ≤ 63 ∧ lb.toNat ≤ nb.length then
        (diskLabels n (nb.drop lb.toNat)).map fun ls =>
          ⟨nb.take lb.toNat, by rw [List.length_take_of_le h.2.2]; exact h.1, by
            rw [List.length_take_of_le h.2.2]
            exact Nat.le_trans h.2.1 (by decide)⟩ :: ls
      else none

/-- `fttlts`, which is zero if the entry is not negative. -/
def readTimes (negative : Bool) : DiskReader (Int × Int) :=
  if negative then do
    let fttlts ← next (.stop "cache TTL and timestamp") (w + w)
    pure (timeValue w (fttlts.take w), timeValue w (fttlts.drop w))
  else pure (0, 0)

/-- One turn of the loop of `read_disk_cache` up to `add_cache`. -/
def readDiskEntry : DiskReader DiskEntry := do
  let bytes ← next (.stop "cache entry header") 6
  let fe := DnsFile.ofBytes bytes
  let fttlts ← readTimes w (fe.flags.testBit 0)
  let nb ← nextField "domain name" fe.qlen
  match diskLabels fe.qlen nb with
  | none => throw (.stop "Invalid domain name encountered while reading disk cache file.")
  | some labels => do
      allocate memory
      let sets ← readDiskSets w memory fe.numRrs 0
      pure ⟨⟨labels⟩, fe.flags.testBit 0, DFlags.ofWord fe.flags, fttlts.1, fttlts.2, fe.cNs,
        fe.cSoa, sets⟩

/-- The number of entries. -/
def readFileHead : DiskReader Nat := do
  let buf ← next (.stop "cache version identifier") cachverid.length
  if buf ≠ cachverid then throw (.stop "incompatible version identifier")
  else do
    let cnt ← next (.stop "entry count") w
    pure (wordValue cnt)

/-- What becomes of the process: it goes on with a cache, or it has ended. -/
inductive ReadOutcome where
  | loaded (s : Cache)
  | exited

variable (cfg : CacheConfig) (clock : Nat → Int)

/-- The loop of `read_disk_cache`, for so many entries still to read, where `n` are done. -/
def readLoop : Nat → Nat → ReadState × List UInt8 → Cache → Option ReadOutcome
  | 0, _, _, s => some (.loaded s)
  | cnt + 1, n, x, s =>
      match readDiskEntry w memory x with
      | .error .exit => some .exited
      | .error (.stop _) => some (.loaded s)
      | .ok (e, x) => do
          let s ← readEntry cfg s (clock n, e)
          readLoop cnt (n + 1) x s

/-- What is done when nothing more is read. -/
def finishReading (s : Cache) : Option Cache :=
  if s.insertSort then some s
  else (sortRrl s).map fun s => { s with insertSort := true }

/-- `read_disk_cache` for a file that can be opened. It has no result if an assertion fails. -/
def readDiskFile (file : List UInt8) (s : Cache) : Option ReadOutcome :=
  if memory 0 then do
    let s : Cache := { s with insertSort := false }
    let r ← match readFileHead w (⟨512, 1⟩, file) with
      | .error .exit => some .exited
      | .error (.stop _) => some (.loaded s)
      | .ok (cnt, x) => readLoop w memory cfg clock cnt 0 x s
    match r with
    | .exited => some .exited
    | .loaded s => (finishReading s).map .loaded
  else some .exited

end Read

end TorAndroid.Dns
