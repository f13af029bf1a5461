import TorAndroid.Dns.Records

/-!
`p_exec_query` with an entry asked for (`dns_query.c`): what is done with the reply
of a name server.

The socket state machine `p_query_sm` is outside; what it hands over is the input
here.  Memory never runs out, and `RFC2181_ME_HARDER` is not defined.
-/

namespace TorAndroid.Dns

/-- `RC_*`. -/
def rcOk : Nat := 0
def rcFormat : Nat := 1
def rcServfail : Nat := 2
def rcNameerr : Nat := 3
def rcNotsupp : Nat := 4
def rcRefused : Nat := 5

/-- The type that asks for all records (`QT_ALL`). -/
def qtAll : Nat := 255

/-- An address and a mask of `n` bytes (`addr4maskpair_t`, `addr6maskpair_t`). -/
structure AddrMaskPair (n : Nat) where
  a : Vector UInt8 n
  mask : Vector UInt8 n
  deriving DecidableEq

/-- `ADDR4MASK_EQUIV` and `ADDR6MASK_EQUIV` on the bytes of the address. -/
def AddrMaskPair.equiv {n : Nat} (am : AddrMaskPair n) (data : List UInt8) : Bool :=
  decide (∀ i : Fin n, (data.getD i 0 ^^^ am.a.get i) &&& am.mask.get i = 0)

/-- The policies of a reject list. -/
inductive RejectPolicy where
  | fail
  | negate
  deriving DecidableEq

structure RejectList where
  policy : RejectPolicy
  a4 : List (AddrMaskPair 4)
  a6 : List (AddrMaskPair 16)
  deriving DecidableEq

/-- The policies for negative caching. -/
inductive NegPolicy where
  | on
  | off
  | auth
  | byDefault
  deriving DecidableEq

/-- The global settings that decide what becomes of a reply. -/
structure QueryConfig where
  sizes : Sizes
  negDomainPol : NegPolicy
  negRrsPol : NegPolicy
  negTtl : Int
  delegOnlyZones : List Name

/-- `query_stat_t`, with the `rd` bit and the `OPT` record of the query in `msg`. -/
structure QueryStat where
  flags : CFlags
  nocache : Bool
  authServ : Nat
  leanQuery : Bool
  ednsQuery : Bool
  trusted : Bool
  aa : Bool
  tc : Bool
  ra : Bool
  failed : Nat
  nsdomain : Option Name
  rejectlist : Option RejectList
  myrid : Nat
  rd : Bool
  opt : Bool
  recvbuf : List UInt8

/-- An item of the list `*ns`.  Without an owner it has the one of the item before,
which the code marks with the byte `0xff`. -/
structure NsItem where
  owner : Option Name
  server : List UInt8

/-- What `p_exec_query` leaves behind: its return value, `**entp`, `*ns`, the entries
it handed to `add_cache`, `*c_soa` if it was set, and the state. -/
structure Answer where
  rv : Nat
  ent : Option Cent
  ns : List NsItem
  added : List Cent
  cSoa : Option UInt8
  st : QueryStat

inductive Turn where
  | tryagain (st : QueryStat)
  | returned (answer : Answer)

/-- A return before anything was added. -/
def fail (st : QueryStat) (ns : List NsItem) (rv : Nat) : Answer :=
  ⟨rv, none, ns, [], none, st⟩

/-- The type that was asked for. -/
def QueryStat.qtype (st : QueryStat) (thint : Nat) : Nat :=
  if st.leanQuery then thint else qtAll

section Header

variable (msg : List UInt8)

def hdrId : Nat := int16 msg 0
def hdrQr : Bool := (byteAt msg 2).toNat.testBit 7
def hdrOpcode : Nat := (byteAt msg 2).toNat / 8 % 16
def hdrAa : Bool := (byteAt msg 2).toNat.testBit 2
def hdrTc : Bool := (byteAt msg 2).toNat.testBit 1
def hdrRa : Bool := (byteAt msg 3).toNat.testBit 7
def hdrZ : Bool := (byteAt msg 3).toNat.testBit 6
def hdrQdcount : Nat := int16 msg 4
def hdrAncount : Nat := int16 msg 6
def hdrNscount : Nat := int16 msg 8
def hdrArcount : Nat := int16 msg 10

end Header

/-- The sanity checks before the `rcode` is looked at. -/
def sane (st : QueryStat) : Bool :=
  12 ≤ st.recvbuf.length && hdrId st.recvbuf == st.myrid && hdrQr st.recvbuf &&
    hdrOpcode st.recvbuf == 0 && !hdrZ st.recvbuf

/-- What the `rcode` of a reply leads to. -/
inductive Verdict where
  | use (st : QueryStat)
  | requery (st : QueryStat)
  | discard

def judgeRcode (st : QueryStat) (rid : Nat) : Verdict :=
  let rcode := hdrRcode st.recvbuf
  -- `try_withoutedns`: the `OPT` record is the last one of the query, so that it can
  -- always be removed
  let withoutEdns := Verdict.requery { st with opt := false, ednsQuery := false, myrid := rid }
  if rcode = rcOk ∨ rcode = rcNameerr then .use st
  else if rcode = rcServfail ∨ rcode = rcNotsupp ∨ rcode = rcRefused then
    if st.rd ∧ !hdrRa st.recvbuf then .requery { st with rd := false, myrid := rid }
    else if rcode ≠ rcServfail ∧ st.ednsQuery ∧ st.opt then withoutEdns
    else if hdrAncount st.recvbuf ≠ 0 ∧ st.authServ = 2 then .use { st with failed := 3 }
    else .discard
  else if rcode = rcFormat ∧ st.ednsQuery ∧ st.opt then withoutEdns
  else .discard

/-- The check of the question: where the records start if it is the one that was
asked. -/
def checkQuestion (msg : List UInt8) (name : Name) (qtype : Nat) : Option Nat :=
  if hdrQdcount msg ≠ 1 then none
  else
    match decompressName msg 12 (msg.length - 12) with
    | .error _ => none
    | .ok (nbuf, lcnt) =>
        if !rhnicmp nbuf name.wire then none
        else if lcnt < 4 then none
        else
          let rrp := msg.length - lcnt
          if int16 msg rrp ≠ qtype then none
          else some (rrp + 4)

/-- The entries made of the three sections, and the return code in the `OPT` record
of the additional section. -/
structure Sections where
  ans : List Cent
  auth : List Cent
  add : List Cent
  edns : Option Nat

/-- `secs`. -/
def Sections.all (secs : Sections) : List Cent :=
  secs.ans ++ secs.auth ++ secs.add

/-- The three sections are read one after the other, as long as there is no error. -/
def readSections (sz : Sizes) (msg : List UInt8) (pos : Nat) (flags : CFlags) (queryts : Int)
    (first : Cent) : Sections × Except NameError Nat :=
  let additional := { flags with additional := true }
  let (ans, rv) := rrs2cent sz msg pos (hdrAncount msg) flags queryts [first]
  match rv with
  | .error e => (⟨ans, [], [], none⟩, .error e)
  | .ok pos =>
      let (auth, rv) := rrs2cent sz msg pos (hdrNscount msg) additional queryts []
      match rv with
      | .error e => (⟨ans, auth, [], none⟩, .error e)
      | .ok pos =>
          let (add, rv) := rrs2cent sz msg pos (hdrArcount msg) additional queryts []
          (⟨ans, auth, add, ednsRcode (readItems msg (hdrArcount msg) pos).1⟩, rv)

/-- `domain_match` on names in memory.  They have at most 256 bytes, so that its
assertion on the number of segments holds. -/
def matchNames (a b : Name) : Nat × Nat × Nat :=
  (domainMatch a.wire b.wire).getD (0, labelsLen a.labels, labelsLen b.labels)

/-- `c_ns` or `c_soa` after a record set of a domain with `ml` segments was found. -/
def raiseRef (ref : UInt8) (ml : Nat) : UInt8 :=
  if ref = cundef ∨ ref.toNat < ml then UInt8.ofNat ml else ref

/-- Remember what an entry of the authority section says about an entry. -/
def refAuth (authServ : Nat) (cent ce : Cent) : Cent :=
  let (ml, rem, _) := matchNames ce.qname cent.qname
  if rem = 0 ∧ (ml ≠ 0 ∨ authServ ≠ 2) then
    { cent with
      cNs := if (ce.rrset slotNS).isSome then raiseRef cent.cNs ml else cent.cNs
      cSoa := if (ce.rrset slotSOA).isSome then raiseRef cent.cSoa ml else cent.cSoa }
  else cent

/-- Remember the references of an entry of the answer section to `NS` and `SOA`
records. -/
def refCent (authServ qtype n : Nat) (auth : List Cent) (cent : Cent) : Cent :=
  let scnt := UInt8.ofNat cent.qname.labels.length
  let cent := { cent with
    cNs := if (cent.rrset slotNS).isSome then scnt else cent.cNs
    cSoa := if (cent.rrset slotSOA).isSome then scnt else cent.cSoa }
  if (251 ≤ qtype ∧ qtype ≤ 255) ∨ (cent.getrrset qtype).isSome ∨ (n = 1 ∧ cent.numRrs = 0) then
    auth.foldl (refAuth authServ) cent
  else cent

/-- Whether an entry holds an address of the reject list. -/
def RejectList.rejects (rl : RejectList) (cent : Cent) : Bool :=
  ((cent.getrrset 1).any fun r => r.rrs.any fun data => rl.a4.any fun am => am.equiv data) ||
    ((cent.getrrset 28).any fun r => r.rrs.any fun data => rl.a6.any fun am => am.equiv data)

def lookupCentArray (ca : List Cent) (nm : Name) : Option Cent :=
  ca.find? fun ce => rhnicmp ce.qname.wire nm.wire

def soaMinimum (data : List UInt8) : Nat :=
  let p := data.drop (rhnlen data)
  int32 (p.drop (rhnlen p)) 16

/-- The time to live that a `SOA` record set gives to a negative entry. -/
def soaTtl (r : RrSet) : Option Int :=
  r.rrs.head?.map fun data => min r.ttl (soaMinimum data)

/-- The first entry of the answer section, which is always there. -/
def Sections.ent (secs : Sections) (first : Cent) : Cent :=
  secs.ans.headD first

/-- The entry in place of the first one of the answer section. -/
def Sections.withEnt (secs : Sections) (ent : Cent) : Sections :=
  { secs with ans := ent :: secs.ans.tail }

/-- The label `name_error` up to the choice of the policy: the entry for the name, made
negative, or nothing if the policy is not to cache it. -/
def nameErrorEntry (cfg : QueryConfig) (st : QueryStat) (name : Name) (queryts : Int)
    (auth : List Cent)
    (ent : Cent) : Option Cent :=
  if cfg.negDomainPol = .on ∨ (cfg.negDomainPol = .auth ∧ st.aa) then
    let soa := if ent.cSoa ≠ cundef ∧ ent.cSoa.toNat < name.labels.length then
        (lookupCentArray auth (name.suffix ent.cSoa.toNat)).bind fun cent =>
          (cent.rrset slotSOA).bind soaTtl
      else none
    let neg := ent.build cfg.sizes (.negate (soa.getD cfg.negTtl) queryts)
    some { neg with flags := { neg.flags with nocache := neg.flags.nocache || st.nocache } }
  else none

/-- The test that keeps records of other domains out of the cache, which stands in both
loops over the entries of a reply. -/
def QueryStat.accepts (st : QueryStat) (cent : Cent) : Bool :=
  (!cent.qname.labels.isEmpty || st.authServ ≠ 2) &&
    (st.trusted || st.nsdomain.all fun nsdomain => (matchNames nsdomain cent.qname).2.1 == 0)

/-- The label `add_additional`: the entries that are handed to `add_cache`. -/
def addAdditional (st : QueryStat) (rejectAns negAns : Bool) (secs : Sections) : List Cent :=
  if st.failed = 0 ∧ !rejectAns then
    ((if negAns then [] else secs.ans.tail) ++ secs.auth ++ secs.add).filter st.accepts
  else []

/-- The label `cleanup_return_OK` and what follows it. -/
def cleanupReturnOk (st : QueryStat) (ns : List NsItem) (rejectAns negAns : Bool) (numNs : Nat)
    (secs : Sections) (ent : Cent) : Answer :=
  if st.failed ≠ 0 ∧ negAns ∧ numNs = 0 then fail st [] rcServfail
  else ⟨rcOk, some ent, ns, addAdditional st rejectAns negAns secs, none, st⟩

/-- The label `name_error`. -/
def nameErrorAnswer (cfg : QueryConfig) (st : QueryStat) (ns : List NsItem) (name : Name)
    (queryts : Int) (rejectAns : Bool) (secs : Sections) (ent : Cent) : Answer :=
  match nameErrorEntry cfg st name queryts secs.auth ent with
  | some neg => cleanupReturnOk st ns rejectAns true 0 secs neg
  | none => ⟨rcNameerr, none, ns, addAdditional st rejectAns true secs, some ent.cSoa, st⟩

/-- How many segments' bytes of a name stand before the first of the zones it is in. -/
def zoneRem (zones : List Name) (name : Name) : Option Nat :=
  zones.findSome? fun zone =>
    let (ml, rem, zrem) := matchNames name zone
    if ml ≠ 0 ∧ zrem = 0 then some rem else none

/-- Whether a name below a delegation-only zone comes without a delegation, and if so
how many entries with authority information there are. -/
def missingDelegation (zones : List Name) (name : Name) (secs : Sections) : Option Nat :=
  if (zoneRem zones name).any (· ≠ 0) then
    let auths := (secs.ans ++ secs.auth).filter fun ce =>
      (ce.rrset slotNS).isSome || (ce.rrset slotSOA).isSome
    if auths.any fun ce => zoneRem zones ce.qname ≠ some 0 then none else some auths.length
  else none

/-- Negative caching of a record set: the entry for the name, with a negative record
set of the type that was asked for if the policy is so. -/
def negativeRrset (cfg : QueryConfig) (st : QueryStat) (name : Name) (thint : Nat) (flags : CFlags)
    (aa : Bool) (queryts : Int) (auth : List Cent) (ent : Cent) : Cent :=
  if 1 ≤ thint ∧ thint ≤ 51 ∧ (ent.getrrset thint).isNone ∧ !st.tc ∧ st.failed ≤ 1 ∧
      (cfg.negRrsPol = .on ∨ (cfg.negRrsPol = .auth ∧ aa) ∨
        (cfg.negRrsPol = .byDefault ∧ (aa ∨ st.ra))) then
    let above := if ent.cSoa ≠ cundef ∧ ent.cSoa.toNat < name.labels.length then
        name.suffix ent.cSoa.toNat
      else name
    let soa := ((ent.rrset slotSOA).bind soaTtl).or
      ((lookupCentArray auth above).bind fun cent => (cent.rrset slotSOA).bind soaTtl)
    (slotOf thint).elim ent fun i =>
      ent.build cfg.sizes (.rrset i (soa.getD cfg.negTtl) queryts { flags with negative := true })
  else ent

/-- One name server for the list, unless it is on it.  Only the first one of a record
set comes with the owner. -/
def addServer (owner : Name) (x : Bool × List NsItem) (data : List UInt8) : Bool × List NsItem :=
  if x.2.any fun item => rhnicmp item.server data then x
  else (false, x.2 ++ [⟨if x.1 then some owner else none, data.take (rhnlen data)⟩])

def addServers (owner : Name) (ns : List NsItem) (r : RrSet) : List NsItem :=
  (r.rrs.foldl (addServer owner) (true, ns)).2

/-- The name servers that an entry names. -/
def addNsCent (st : QueryStat) (ns : List NsItem) (cent : Cent) : List NsItem :=
  if st.accepts cent ∧ cent.qname.wire.head? ≠ some 0xff then
    [slotNS, slotSOA].foldl (fun ns i => (cent.rrset i).elim ns (addServers cent.qname ns)) ns
  else ns

/-- The body of `p_exec_query` after the sections were read. -/
def useSections (cfg : QueryConfig) (st : QueryStat) (ns : List NsItem) (name : Name)
    (thint : Nat) (flags : CFlags) (aa : Bool) (queryts : Int) (rcode : Nat) (first : Cent)
    (secs : Sections) : Answer :=
  let secs := { secs with
    ans := secs.ans.map (refCent st.authServ (st.qtype thint) secs.ans.length secs.auth) }
  let ent := secs.ent first
  let rejectAns := st.rejectlist.any fun rl => secs.all.any rl.rejects
  let nameError := nameErrorAnswer cfg st ns name queryts rejectAns secs ent
  if rcode = rcNameerr then nameError
  else if rejectAns then
    if (st.rejectlist.any fun rl => rl.policy = .negate) ∧ st.failed ≤ 1 then nameError
    else fail st ns rcServfail
  else
    let missing := if st.authServ < 3 then missingDelegation cfg.delegOnlyZones name secs else none
    if missing.any (· ≠ 0) ∧ st.failed ≤ 1 then nameError
    else if missing.isSome ∧ st.authServ < 2 then fail st ns rcServfail
    else
      let negAns := decide (ent.numRrs = 0)
      let ent := negativeRrset cfg st name thint flags aa queryts secs.auth ent
      let secs := secs.withEnt ent
      let ns' := if st.failed ≤ 1 then (secs.ans ++ secs.auth).foldl (addNsCent st) ns else ns
      cleanupReturnOk st ns' rejectAns negAns (ns'.length - ns.length) secs ent

/-- What `p_exec_query` does with a reply that passed the first checks. -/
def useReply (cfg : QueryConfig) (st : QueryStat) (ns : List NsItem) (name : Name) (thint : Nat)
    (queryts : Int) : Answer :=
  let msg := st.recvbuf
  match checkQuestion msg name (st.qtype thint) with
  | none => fail st ns rcServfail
  | some pos =>
      let st := { st with
        aa := hdrAa msg && st.failed == 0
        tc := hdrTc msg
        ra := st.rd && hdrRa msg }
      -- entries from a truncated reply are not authoritative
      let aa := st.aa && !st.tc
      let flags := { st.flags with auth := st.flags.auth || aa }
      let first := initCent cfg.sizes name false 0 0
        ⟨false, aa && st.qtype thint == qtAll, false, false⟩
      let (secs, rv) := readSections cfg.sizes msg pos flags queryts first
      let unexpected := secs.edns.any (· ≠ hdrRcode msg)
      let st := { st with failed := if unexpected ∧ st.failed = 0 then 1 else st.failed }
      let rcode := secs.edns.getD (hdrRcode msg)
      match rv with
      | .ok _ => useSections cfg st ns name thint flags aa queryts rcode first secs
      | .error .trunc =>
          if st.tc then useSections cfg st ns name thint flags aa queryts rcode first secs
          else fail st ns rcServfail
      | .error .format => fail st ns rcServfail

/-- One reply, from the sanity checks on. -/
def processReply (cfg : QueryConfig) (st : QueryStat) (ns : List NsItem) (name : Name) (thint : Nat)
    (queryts : Int) (rid : Nat) : Turn :=
  if sane st then
    match judgeRcode st rid with
    | .use st => .returned (useReply cfg st ns name thint queryts)
    | .requery st => .tryagain st
    | .discard => .returned (fail st ns (hdrRcode st.recvbuf))
  else .returned (fail st ns rcServfail)

/-- The query methods. -/
inductive QMethod where
  | udpOnly
  | tcpOnly
  | tcpUdp
  | udpTcp
  deriving DecidableEq

/-- What `p_query_sm` ends with: an error, or a reply. -/
inductive SmResult where
  | failed (rv : Nat)
  | received (recvbuf : List UInt8)

/-- A query that was sent: what came of it, the time then, and the next random id. -/
structure Attempt where
  sm : SmResult
  queryts : Int
  rid : Nat

/-- `p_exec_query` from the first call to the one that does not return -1. -/
def pExecQuery (cfg : QueryConfig) (ns : List NsItem) (name : Name) (thint : Nat) :
    QueryStat → List Attempt → Option Answer
  | _, [] => none
  | st, attempt :: attempts =>
      match attempt.sm with
      | .failed rv => some (fail { st with recvbuf := [] } ns rv)
      | .received recvbuf =>
          match processReply cfg { st with recvbuf := recvbuf } ns name thint attempt.queryts
              attempt.rid with
          | .tryagain st => pExecQuery cfg ns name thint st attempts
          | .returned answer => some answer

/-- The state `QS_INITIAL`. -/
def QueryStat.initial (st : QueryStat) (rid : Nat) : QueryStat :=
  { st with myrid := rid, rd := st.trusted, opt := st.ednsQuery, recvbuf := [] }

end TorAndroid.Dns
