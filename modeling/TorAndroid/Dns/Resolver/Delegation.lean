import TorAndroid.Dns.Resolver.RecursiveQuery

namespace TorAndroid.Dns.Resolver

open TorAndroid.Lib.Interaction TorAndroid.Lib.Ownership

/-- The arguments of `p_dns_cached_resolve`. Names are looked up with the servers in `q`, or
with the configured ones. -/
structure ResolveArgs where
  q : Option (List QueryServ)
  name : Name
  thint : Nat
  hops : Nat
  qslist : List (List QueryServ)
  qhlist : List (Name × Nat)
  queryts : Int
  cSoa : Option UInt8

/-- The entry is there if the return code is `RC_OK`, `RC_CACHED` or `RC_STALE`. -/
structure ResolveResult where
  rv : Rv
  ent : Option Ent
  cSoa : Option UInt8

/-- The operations of the resolver, which calls itself. -/
abbrev Resolving := Prog (Calling NetOp ResolveArgs ResolveResult)

def recurse (args : ResolveArgs) : Resolving ResolveResult :=
  .ask (.inr (.call args))

def op {α : Type} (op : NetOp α) : Resolving α :=
  .ask (.inl op)

/-- `r_dns_cached_resolve` after `p_dns_cached_resolve`: a negative entry becomes `RC_NAMEERR`. -/
def positiveEntry (r : ResolveResult) : Prog NetOp ResolveResult :=
  match r.ent with
  | none => pure r
  | some ent =>
      if ent.val.negative then do
        .ask (.free ent.block)
        pure ⟨.rc rcNameerr, none, r.cSoa.map fun _ => ent.val.cSoa⟩
      else pure { r with rv := .rc rcOk }

/-- `MAXNAMESERVIPS`. -/
def maxNameServIps : Nat := 3

/-- The addresses of a server. -/
def serverAddresses (cent : Cent) : List InAddr :=
  ((cent.getrrset tA).elim [] RrSet.rrs).take maxNameServIps

/-- `domain_match` reports that all of a domain is matched. -/
def belongsTo (domain name : Name) : Bool :=
  (matchNames domain name).2.1 = 0

/-- Flags without those in `CFF_NOINHERIT`. -/
def inheritedFlags (flags : CFlags) : CFlags :=
  { flags with isLocal := false, auth := false, additional := false, rootserv := false }

/-- The parameters of `add_qserv`. -/
structure ServSpec where
  addr : InAddr
  port : Nat
  timeout : Int
  flags : CFlags
  nocache : Bool
  leanQuery : Bool
  ednsQuery : Bool
  authServ : Nat
  needsTesting : Nat
  trusted : Bool
  nsdomain : Option Name
  rejectlist : Option RejectList
  inheritReject : Bool

/-- The new element of the array. -/
def newQserv (qm : QMethod) (spec : ServSpec) : QueryServ where
  flags := spec.flags
  nocache := spec.nocache
  authServ := spec.authServ
  leanQuery := spec.leanQuery
  ednsQuery := spec.ednsQuery
  trusted := spec.trusted
  aa := false
  tc := false
  ra := false
  failed := 0
  nsdomain := spec.nsdomain
  rejectlist := spec.rejectlist
  myrid := 0
  rd := false
  opt := false
  recvbuf := []
  addr := spec.addr
  port := spec.port
  timeout := spec.timeout
  inheritReject := spec.inheritReject
  state := .initial
  qm := qm
  needsTesting := spec.needsTesting
  sock := 0
  recvl := 0
  iolen := 0
  msg := none
  recvAt := none
  sErrno := none

/-- `add_qserv`. -/
def addQserv (serv : ServArray) (qm : QMethod) (spec : ServSpec) : Prog NetOp (Option ServArray) :=
  serv.push (newQserv qm spec)

/-- Whether `name` with the type `thint` is what is looked up for the server `nsname`. -/
def sameLookup (nsname : Name) (p : Name × Nat) : Bool :=
  rhnicmp p.1.wire nsname.wire && p.2 = tA

/-- `aa_needed`. -/
def aaNeeded (thint : Nat) (ent : Cent) : Bool :=
  (251 ≤ thint && thint ≤ 255) ||
    (1 ≤ thint && thint ≤ 51 && !ent.haveRr thint && !ent.haveRr tCNAME)

/-- The domains of a list of name servers. -/
def nsDomains (ns : List NsItem) : List Name :=
  ns.filterMap NsItem.owner

/-- A server that claims to be authoritative delegates the name to domains below its own. -/
def delegates (st : QueryStat) (ns : List NsItem) (name : Name) : Bool :=
  st.nsdomain.any fun own =>
    !(nsDomains ns).isEmpty &&
      (nsDomains ns).all fun domain =>
        let (_, rem, crem) := matchNames domain own
        rem > 0 && crem = 0 && belongsTo domain name

section AuthOk

variable (cfg : ResolverConfig) (args : ResolveArgs) (q : List QueryServ) (st : QueryServ)

/-- A server that is named in an answer. -/
def delegatedServ (nsdomain : Option Name) (addr : InAddr) : ServSpec where
  addr := addr
  port := 53
  timeout := st.timeout
  flags := inheritedFlags st.flags
  nocache := false
  leanQuery := st.leanQuery
  ednsQuery := st.ednsQuery
  authServ := 2
  needsTesting := 0
  trusted := !cfg.paranoid
  nsdomain := nsdomain
  rejectlist := if st.inheritReject then st.rejectlist else none
  inheritReject := st.inheritReject

/-- One address of a name server. Without memory there is no array. -/
def addAddress (nsdomain : Option Name) (n : Nat) (serv : ServArray) (addr : InAddr) :
    Prog NetOp (Option ServArray) := do
  let isLocal ← .ask (.isLocalAddr addr)
  if isLocal then pure (some serv)
  else if (serv.items.take n).any fun qs => qs.addr = addr then pure (some serv)
  else if (q :: args.qslist).any fun qa => qa.any fun qs => qs.state = .done && qs.addr = addr then
    pure (some serv)
  else addQserv serv cfg.queryMethod (delegatedServ cfg st nsdomain addr)

def addAddresses (nsdomain : Option Name) (n : Nat) :
    List InAddr → ServArray → Prog NetOp (Option ServArray)
  | [], serv => pure (some serv)
  | addr :: addrs, serv => do
      match ← addAddress cfg args q st nsdomain n serv addr with
      | none => pure none
      | some serv => addAddresses nsdomain n addrs serv

/-- One name server, whose address is looked up. Names that are looked up already are left out. -/
def addNameServer (hops : Nat) (nsdomain : Option Name) (nsname : Name) (serv : ServArray) :
    Resolving (Option ServArray) := do
  if ((args.name, args.thint) :: args.qhlist).any (sameLookup nsname) then pure (some serv)
  else
    let now ← op .time
    let r ← recurse
      { q := none
        name := nsname
        thint := tA
        hops := hops
        qslist := []
        qhlist := (args.name, args.thint) :: args.qhlist
        queryts := now
        cSoa := none }
    let r ← (positiveEntry r).beside
    match r.ent with
    | none => pure (some serv)
    | some ent => do
        op (.free ent.block)
        (addAddresses cfg args q st nsdomain serv.items.length (serverAddresses ent.val)
          serv).beside

/-- The name servers of a record set that is defined locally. -/
def addLocalServers (hops : Nat) (nsdomain : Name) :
    List (List UInt8) → ServArray → Resolving (Option ServArray)
  | [], serv => pure (some serv)
  | data :: rrs, serv => do
      match ← addNameServer cfg args q st hops (some nsdomain) (Name.ofWire data) serv with
      | none => pure none
      | some serv => addLocalServers hops nsdomain rrs serv

/-- The loop over the list of name servers. The items of a domain that is not responsible, or for
which there are local records, are skipped. -/
def addServers (hops : Nat) (nsdomain : Option Name) (skip : Bool) :
    List NsItem → ServArray → Resolving (Option ServArray)
  | [], serv => pure (some serv)
  | item :: items, serv =>
      match item.owner with
      | none =>
          if skip then addServers hops nsdomain skip items serv
          else do
            match ← addNameServer cfg args q st hops nsdomain (Name.ofWire item.server) serv with
            | none => pure none
            | some serv => addServers hops nsdomain false items serv
      | some domain =>
          if cfg.paranoid && !belongsTo domain args.name then
            addServers hops (some domain) true items serv
          else do
            match ← op (.lookupCacheLocalRrset domain tNS) with
            | some rrset => do
                match ← addLocalServers cfg args q st hops domain rrset.val.rrs serv with
                -- the record set is not freed
                | none => pure none
                | some serv => do
                    op (.delRrset rrset.block)
                    addServers hops (some domain) true items serv
            | none => do
                match ← addNameServer cfg args q st hops (some domain)
                  (Name.ofWire item.server) serv with
                | none => pure none
                | some serv => addServers hops (some domain) false items serv

/-- `auth_ok`. -/
def authOk (ent : Cent) (ns : NsList) : Resolving AuthResult := do
  if 1 < st.failed then pure (.verdict false noServ)
  else if !(st.authServ ≠ 0 && !ent.negative && aaNeeded args.thint ent) then
    pure (.verdict true noServ)
  else if st.aa && !delegates st.toQueryStat ns.items args.name then pure (.verdict true noServ)
  else
    match args.hops with
    | 0 => pure (.verdict false noServ)
    | hops + 1 => do
        match ← addServers cfg args q st hops none false ns.items noServ with
        | none => pure .failed
        | some serv => pure (.verdict (!serv.items.isEmpty) serv)

end AuthOk

section RecursiveQuery

variable (cfg : ResolverConfig) (rounds : Nat) (args : ResolveArgs)

/-- The calls in the loops of `p_recursive_query`, as they are made. -/
def askWith : ∀ {α : Type}, Joined NetOp AskOp α → Resolving α
  | _, .inl op => .ask (.inl op)
  | _, .inr (.exec st cSoa) => (pExecQuery cfg args.name args.thint cSoa st).beside
  | _, .inr (.authOk q ent st ns) => authOk cfg args q st ent ns

/-- A larger reference to `NS` or `SOA` records is taken over. -/
def raiseRefs (ent : Cent) (saveNs saveSoa : UInt8) : Cent :=
  { ent with cNs := mergeRef ent.cNs saveNs, cSoa := mergeRef ent.cSoa saveSoa }

def freeEnt (ent : Option Ent) : Prog NetOp Unit :=
  ent.elim (pure ()) fun ent => .ask (.free ent.block)

/-- What is made of the answer of the servers in the authority records. -/
def afterAuthority (entsave : Option Ent) (saveNs saveSoa : UInt8) (r : ResolveResult) :
    Resolving ResolveResult := do
  let code := match r.rv with | .again => none | .rc code => some code
  if code = some rcOk ∨ code = some rcCached ∨ (code = some rcStale ∧ entsave.isNone) then do
    (freeEnt entsave).beside
    pure { r with ent := r.ent.map fun ent => { ent with val := raiseRefs ent.val saveNs saveSoa } }
  else if code = some rcNameerr then do
    (freeEnt entsave).beside
    pure { r with cSoa := r.cSoa.map fun old => mergeRef old saveSoa }
  else
    match entsave with
    | some ent => do
        (freeEnt r.ent).beside
        pure ⟨.rc rcOk, some ent, r.cSoa⟩
    | none => pure r

/-- The servers in the authority records are asked. The answer is used if they do not tell, and
if its server claims to be authoritative or to have recursion available. -/
def askAuthority (q : List QueryServ) (found : Found) (qse : QueryServ) (cSoa : Option UInt8) :
    Resolving ResolveResult := do
  let saveNs := found.ent.val.cNs
  let saveSoa := found.ent.val.cSoa
  let entsave ← if qse.aa || qse.ra then pure (some found.ent) else do
    op (.free found.ent.block)
    pure none
  let now ← op .time
  let r ← recurse { args with
    q := some found.serv.items
    hops := args.hops - 1
    qslist := q :: args.qslist
    queryts := now
    cSoa := cSoa }
  afterAuthority entsave saveNs saveSoa r

/-- `p_recursive_query`, with `*nocache`. -/
def pRecursiveQuery (q : List QueryServ) : Resolving (ResolveResult × Bool) := do
  let asked ← (askServers cfg rounds q args.cSoa).inline (askWith cfg args)
  match asked.outcome with
  | .error rv =>
      pure (⟨if rv = .rc rcFatalerr then .rc rcServfail else rv, none, asked.cSoa⟩, false)
  | .ok (found, i) =>
      match asked.q[i]? with
      | none => unreachable.beside
      | some qse => do
          let r ← if found.serv.items.isEmpty then pure ⟨.rc rcOk, some found.ent, asked.cSoa⟩
            else askAuthority args asked.q found qse asked.cSoa
          (freeBlock found.serv.block).beside
          (freeBlock found.ns.block).beside
          pure (r, qse.nocache)

end RecursiveQuery

end TorAndroid.Dns.Resolver
