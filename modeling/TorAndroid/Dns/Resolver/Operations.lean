import TorAndroid.Dns.LookupResult
import TorAndroid.Dns.QueryMessage
import TorAndroid.Lib.Procedures

/-!
What the resolver of `dns_query.c` asks of the rest of the program and of the system, and the
resources it holds: sockets, blocks of memory, and the lock of the server list. IPv6 is not
compiled in.
-/

namespace TorAndroid.Dns.Resolver

open TorAndroid.Lib.Interaction TorAndroid.Lib.Ownership

/-- The bytes of a `struct in_addr`. -/
abbrev InAddr := List UInt8

inductive SockType where
  | stream
  | dgram

inductive Errno where
  | ewouldblock
  | einprogress
  | econnrefused
  | econnreset
  | epipe
  | enetunreach
  | ehostunreach
  | enoprotoopt
  | enetdown
  | ehostdown
  | enonet
  | other
  deriving DecidableEq

/-- Whether an error says that the server can not be reached. -/
def Errno.unreachable : Errno → Bool
  | .enetunreach | .ehostunreach | .enoprotoopt | .econnrefused | .enetdown | .ehostdown
  | .enonet => true
  | _ => false

/-- An element of the array for `poll`: `POLLOUT` or `POLLIN` is waited for, or nothing. -/
structure PollFd where
  fd : Nat
  events : Option Bool

/-- `POLLIN`, `POLLOUT`, and the errors `POLLERR`, `POLLHUP` and `POLLNVAL`. -/
structure Revents where
  pollin : Bool
  pollout : Bool
  error : Bool

/-- An address of a server with its status (`atup_t`). -/
structure Atup where
  a : InAddr
  isUp : Bool

/-- The policies of a server for names (`C_INCLUDED`, ...). -/
inductive Policy where
  | included
  | excluded
  | simpleOnly
  | fqdnOnly
  deriving DecidableEq

/-- `slist_t`. -/
structure ListedDomain where
  domain : Name
  exact : Bool
  included : Bool

/-- What the resolver reads of a `servparm_t`. -/
structure ServParm where
  port : Nat
  timeout : Int
  interval : Int
  uptest : Bool
  scheme : Bool
  purgeCache : Bool
  nocache : Bool
  leanQuery : Bool
  ednsQuery : Bool
  isProxy : Bool
  rootserver : Nat
  randServers : Bool
  rejectrecursively : Bool
  rejectlist : Option RejectList
  policy : Policy
  alist : List ListedDomain
  atups : List Atup

/-- A copy of an entry, or of a record set, with the memory it is in. -/
structure Held (α : Type) where
  block : Nat
  val : α

abbrev Ent := Held Cent

inductive NetOp : Type → Type where
  | socket (tp : SockType) : NetOp (Option Nat)
  | bindSocket (sock : Nat) : NetOp Bool
  | setNonblock (sock : Nat) : NetOp Bool
  | connect (sock : Nat) (addr : InAddr) (port : Nat) : NetOp (Option Errno)
  | write (sock : Nat) (bytes : List UInt8) : NetOp (Except Errno Nat)
  /-- Nothing is read at the end of the stream. -/
  | read (sock : Nat) (count : Nat) : NetOp (Except Errno (List UInt8))
  /-- The two bytes of the length of a reply are read. There may be a buffer from before, which gets
  that length next. -/
  | readLength (sock : Nat) (recvAt : Option Nat) : NetOp (Except Errno (List UInt8))
  | send (sock : Nat) (bytes : List UInt8) : NetOp (Option Errno)
  | recv (sock : Nat) (count : Nat) : NetOp (Except Errno (List UInt8))
  | close (sock : Nat) : NetOp Unit
  | poll (fds : List PollFd) (timeout : Int) : NetOp (Option (Nat × List Revents))
  | malloc : NetOp (Option Nat)
  /-- A failure leaves the block as it is, but for no bytes at all the block is freed. -/
  | realloc (block : Option Nat) (size : Nat) : NetOp (Option Nat)
  /-- `da_grow1`, where a failure frees the array. -/
  | grow (block : Option Nat) : NetOp (Option Nat)
  /-- Whether there is memory for the entries that the sections of a reply are read into. -/
  | sections : NetOp Bool
  | free (block : Nat) : NetOp Unit
  | rand16 : NetOp Nat
  | random : NetOp Nat
  | time : NetOp Int
  | schedServerTest (addrs : List InAddr) (tto : Int) : NetOp Unit
  /-- What is read from the reply of a server goes into the cache. -/
  | addRecords (st : QueryStat) (cent : Cent) : NetOp Unit
  | addCache (cent : Cent) : NetOp Unit
  | lookupCache (name : Name) (wild : Bool) : NetOp (Option (Ent × Counted.WildCode))
  | lookupCacheLocalRrset (name : Name) (tp : Nat) : NetOp (Option (Held RrSet))
  | delRrset (block : Nat) : NetOp Unit
  | getlocalowner (name : Name) (tp : Nat) : NetOp (Option Name)
  | isLocalAddr (addr : InAddr) : NetOp Bool
  | testOnquery : NetOp Unit
  | lockServerData : NetOp (List ServParm)
  | unlockServerData : NetOp Unit
  /-- An assertion that does not hold, or a bound in the definitions that is not enough. -/
  | abort : NetOp Empty

inductive Handle where
  | sock (fd : Nat)
  | mem (block : Nat)
  /-- The copy of a record set. -/
  | rrset (block : Nat)
  | serverData
  deriving DecidableEq

/-- What belongs to a pointer that may be `NULL`. -/
def memOf (block : Option Nat) : Multiset Handle :=
  block.elim 0 fun b => {.mem b}

@[simp]
theorem memOf_none : memOf none = 0 := rfl

@[simp]
theorem memOf_some (b : Nat) : memOf (some b) = {.mem b} := rfl

def Held.own {α : Type} (x : Held α) : Multiset Handle :=
  {.mem x.block}

/-- What belongs to something that may be there. -/
def ownOpt {α : Type} (x : Option (Held α)) : Multiset Handle :=
  x.elim 0 Held.own

/-- What is known of the entries that come out of the cache, and what must hold of those that are
put there. -/
structure CachePolicy where
  good : Cent → Prop
  allowed : QueryStat → Cent → Prop

/-- No reply of no bytes at all is announced when there is a buffer from before. -/
def FillsBuffer (recvAt : Option Nat) (bytes : List UInt8) : Prop :=
  bytes.length = 2 → int16 bytes 0 = 0 → recvAt = none

/-- A socket is used and closed while it is open, a block is freed while it is allocated, and no
assertion fails. The copy of a record set may get lost where there is not enough memory for an
array. -/
def netLedger (pol : CachePolicy) (enough : Prop) : Ledger NetOp Handle where
  demand := fun {_} op =>
    match op with
    | .addRecords st cent => pol.good cent ∧ pol.allowed st cent
    | .addCache cent => pol.good cent
    | .abort => False
    | _ => True
  uses := fun {_} op =>
    match op with
    | .bindSocket sock | .setNonblock sock | .connect sock _ _ | .write sock _ | .read sock _
    | .readLength sock _ | .send sock _ | .recv sock _ => {.sock sock}
    | .poll fds _ => Multiset.ofList (fds.map fun p => .sock p.fd)
    | _ => 0
  takes := fun {_} op =>
    match op with
    | .close sock => {.sock sock}
    | .realloc block _ | .grow block => memOf block
    | .free block => {.mem block}
    | .delRrset block => {.rrset block}
    | .unlockServerData => {.serverData}
    | _ => 0
  gives := fun {_} op b =>
    match op, b with
    | .socket _, some sock => {.sock sock}
    | .malloc, block | .grow _, block | .realloc _ _, block@(some _) => memOf block
    | .realloc block size, none => if size = 0 then 0 else memOf block
    | .lookupCache _ _, some x => x.1.own
    | .lookupCacheLocalRrset _ _, some x => {.rrset x.block}
    | .lockServerData, _ => {.serverData}
    | _, _ => 0
  promise := fun {_} op b =>
    match op, b with
    | .grow _, none => ¬enough
    | .readLength _ recvAt, .ok bytes => FillsBuffer recvAt bytes
    | .lookupCache _ _, some x => pol.good x.1.val
    | _, _ => True
  lossy := fun h => ¬enough ∧ ∃ block, h = .rrset block

end TorAndroid.Dns.Resolver
