import TorAndroid.Dns.Resolver.Delegation

namespace TorAndroid.Dns.Resolver

open TorAndroid.Lib.Interaction TorAndroid.Lib.Ownership

/-- The types of the record sets that answer a question, besides `CNAME`. -/
def mailTypes (thint : Nat) : List Nat :=
  if 1 ≤ thint ∧ thint ≤ 51 then [thint]
  else if thint = qtMailB then [7, 8, 9]
  else if thint = qtMailA then [3, 4]
  else []

section Status

def orFlags (a b : CFlags) : CFlags where
  negative := a.negative || b.negative
  isLocal := a.isLocal || b.isLocal
  auth := a.auth || b.auth
  nocache := a.nocache || b.nocache
  additional := a.additional || b.additional
  nopurge := a.nopurge || b.nopurge
  rootserv := a.rootserv || b.rootserv

/-- When a record set times out. -/
def expires (r : RrSet) : Int :=
  r.ts + max r.ttl cacheLat

/-- One turn of `set_all_flags_ttl`, and `set_flags_ttl` for a record set that is there. -/
def addFlagsTtl (x : CFlags × Int) (r : RrSet) : CFlags × Int :=
  (orFlags x.1 r.flags, if x.2 = 0 ∨ expires r < x.2 then expires r else x.2)

/-- The record sets whose flags and times decide about an entry, and whether the entry says that
there are no records of the type. -/
def decisiveSets (thint : Nat) (cached : Cent) : List RrSet × Bool :=
  if thint = qtAll then ((List.finRange _).filterMap cached.rrset, false)
  else
    match (cached.getrrset tCNAME).filter fun r => !r.flags.negative with
    | some r => ([r], false)
    | none =>
        ((mailTypes thint).filterMap cached.getrrset,
          1 ≤ thint && thint ≤ 51 && (cached.getrrset thint).any fun r => r.flags.negative)

/-- Whether an entry that is not locally defined must be asked for again, with the flags of its
record sets. -/
def requeryDecision (thint : Nat) (queryts : Int) (cached : Cent) : Bool × CFlags :=
  match cached.arm with
  | .neg _ ttl ts => (ts + max ttl cacheLat < queryts, noFlags)
  | .rr _ =>
      let (sets, negative) := decisiveSets thint cached
      let (flags, ttl) := sets.foldl addFlagsTtl (noFlags, 0)
      let neg := negative && queryts ≤ ttl
      let needReq :=
        if thint = qtAll then !cached.flags.auth
        else 251 ≤ thint && thint ≤ 255 && !(flags.auth && !flags.additional)
      (!neg && !flags.isLocal && (needReq || ttl < queryts), flags)

/-- What `lookup_cache_status` returns, with `*cachedp`, `*flagsp` and `*c_soa`. -/
structure CacheStatus where
  rc : Nat
  cached : Option Ent
  flags : CFlags
  cSoa : Option UInt8

/-- `*c_soa` for a name that is locally denied. -/
def localSoa (cached : Cent) (cSoa : Option UInt8) : Prog NetOp (Option UInt8) :=
  if cSoa.isNone then pure cSoa
  else if cached.cSoa ≠ cundef then pure (some cached.cSoa)
  else if cached.haveRr tSOA then pure (some (UInt8.ofNat cached.qname.labels.length))
  else do
    let owner ← .ask (.getlocalowner cached.qname tSOA)
    pure (setSoa cSoa (owner.map fun owner => UInt8.ofNat owner.labels.length))

/-- `lookup_cache_status`. -/
def lookupCacheStatus (name : Name) (thint : Nat) (queryts : Int) (cSoa : Option UInt8) :
    Prog NetOp CacheStatus := do
  match ← .ask (.lookupCache name true) with
  | none => pure ⟨rcNotcached, none, noFlags, cSoa⟩
  | some (ent, wildCode) =>
      if ent.val.flags.isLocal then
        if ent.val.negative || wildCode = .locnerr then do
          let cSoa ← localSoa ent.val cSoa
          .ask (.free ent.block)
          pure ⟨rcNameerr, none, noFlags, cSoa⟩
        else pure ⟨rcOk, some ent, noFlags, cSoa⟩
      else
        let (requery, flags) := requeryDecision thint queryts ent.val
        pure ⟨if requery then rcStale else rcCached, some ent, flags, cSoa⟩

end Status

section Servers

/-- `use_server`. -/
def useServer (s : ServParm) (name : Name) : Bool :=
  match s.alist.find? fun sl =>
      let (_, nrem, lrem) := matchNames name sl.domain
      lrem = 0 && (!sl.exact || nrem = 0) with
  | some sl => sl.included
  | none =>
      if s.policy = .simpleOnly ∨ s.policy = .fqdnOnly then
        if name.labels.length ≤ 1 then s.policy = .simpleOnly else s.policy = .fqdnOnly
      else s.policy = .included

/-- `mk_flag_val`. -/
def mkFlagVal (s : ServParm) : CFlags :=
  { noFlags with nopurge := !s.purgeCache, nocache := s.nocache, rootserv := s.rootserver ≠ 0 }

/-- `needs_testing`. -/
def needsTesting (s : ServParm) : Bool :=
  (0 < s.interval || s.interval = -2) && (s.uptest || s.scheme)

/-- The elements of an array from one on, and then those before it. -/
def rotated {α : Type} (rand : Bool) (xs : List α) : Prog NetOp (List α) :=
  if rand && !xs.isEmpty then do
    let n ← .ask .random
    let k := n % xs.length
    pure (xs.drop k ++ xs.take k)
  else pure xs

abbrev AddrArray := DArray InAddr

/-- Addresses are put into an array, without those that are in it already. -/
def pushAddresses (n : Nat) : List InAddr → AddrArray → Prog NetOp (Option AddrArray)
  | [], res => pure (some res)
  | addr :: addrs, res =>
      if (res.items.take n).contains addr then pushAddresses n addrs res
      else do
        match ← res.push addr with
        | none => pure none
        | some res => pushAddresses n addrs res

/-- Whether the records of a set may still be used. -/
def fresh (rrset : RrSet) : Prog NetOp Bool := do
  let now ← .ask .time
  pure !(timedout now rrset.ts rrset.ttl)

/-- The addresses of a server in the cache. -/
def cachedAddresses (nsname : Name) : Prog NetOp (List InAddr) := do
  match ← .ask (.lookupCache nsname false) with
  | none => pure []
  | some (servent, _) => do
      let ok ← (servent.val.getrrset tA).elim (pure false) fresh
      .ask (.free servent.block)
      pure (if ok then serverAddresses servent.val else [])

/-- The loop over the `NS` records. If the addresses of one server are not known there are none. -/
def collectAddresses : List (List UInt8) → AddrArray → Prog NetOp AddrArray
  | [], res => pure res
  | data :: rrs, res => do
      let addrs ← cachedAddresses (Name.ofWire data)
      if addrs.isEmpty then do
        freeBlock res.block
        pure ⟨[], none⟩
      else
        match ← pushAddresses res.items.length addrs res with
        | none => pure ⟨[], none⟩
        | some res => collectAddresses rrs res

/-- `lookup_ns`. -/
def lookupNs (domain : Name) : Prog NetOp AddrArray := do
  match ← .ask (.lookupCache domain false) with
  | none => pure ⟨[], none⟩
  | some (cent, _) => do
      let rrset := (cent.val.getrrset tNS).filter fun r => r.flags.rootserv
      let ok ← rrset.elim (pure false) fresh
      let res ← if ok then collectAddresses (rrset.elim [] RrSet.rrs) ⟨[], none⟩
        else pure ⟨[], none⟩
      .ask (.free cent.block)
      pure res

/-- The name `arpa`. -/
def arpa : Name :=
  Name.ofWire [4, 97, 114, 112, 97, 0]

/-- How many segments the domains have at most whose servers are looked up in the cache before a
root server is asked. -/
def topSegments (name : Name) : Nat :=
  let nseg := name.labels.length
  let mseg := if 2 ≤ nseg ∧ belongsTo arpa name then 3 else 1
  if nseg ≤ mseg then nseg - 1 else mseg

/-- The domain of so many segments that a name is in, with the addresses of its servers. -/
def lookupTop (name : Name) : Nat → Prog NetOp (Option (Name × AddrArray))
  | 0 => pure none
  | mseg + 1 => do
      let topdomain := name.suffix (mseg + 1)
      let adrs ← lookupNs topdomain
      if adrs.items.isEmpty then do
        freeBlock adrs.block
        lookupTop name mseg
      else pure (some (topdomain, adrs))

/-- The servers that are chosen for a name. The value of `root` is that of `seenrootserv`, and
`rejects` is the memory of the reject lists. -/
structure Choice where
  serv : ServArray
  root : Nat
  rejects : List Nat

/-- How the loops go on: with the choice, or without memory. -/
abbrev Choosing := Prog NetOp (Choice × Bool)

variable (cfg : ResolverConfig) (name : Name)

/-- `add_qserv`, and the choice without the array if that fails. -/
def chooseServ (c : Choice) (spec : ServSpec) : Choosing := do
  match ← addQserv c.serv cfg.queryMethod spec with
  | none => pure ({ c with serv := noServ }, false)
  | some serv => pure ({ c with serv := serv }, true)

/-- `add_rejectlist`, unless there is none or it was made already. -/
def chooseReject (sp : ServParm) (wanted : Bool) (c : Choice) (rjl : Bool) : Choosing := do
  if sp.rejectlist.isSome && wanted && !rjl then
    match ← .ask .malloc with
    | none => pure (c, false)
    | some block => pure ({ c with rejects := block :: c.rejects }, true)
  else pure (c, true)

/-- A server of the configuration. -/
def configuredServ (sp : ServParm) (addr : InAddr) : ServSpec where
  addr := addr
  port := sp.port
  timeout := sp.timeout
  flags := mkFlagVal sp
  nocache := sp.nocache
  leanQuery := sp.leanQuery
  ednsQuery := sp.ednsQuery
  authServ := if sp.rootserver ≠ 0 then 3 else (!sp.isProxy).toNat
  needsTesting := (needsTesting sp).toNat
  trusted := true
  nsdomain := none
  rejectlist := sp.rejectlist
  inheritReject := sp.rejectrecursively

/-- A server of a top level domain, in place of a root server. -/
def cachedServ (sp : ServParm) (topdomain : Name) (addr : InAddr) : ServSpec where
  addr := addr
  port := 53
  timeout := sp.timeout
  flags := inheritedFlags (mkFlagVal sp)
  nocache := sp.nocache
  leanQuery := sp.leanQuery
  ednsQuery := sp.ednsQuery
  authServ := 2
  needsTesting := 0
  trusted := !cfg.paranoid
  nsdomain := some topdomain
  rejectlist := if sp.rejectrecursively then sp.rejectlist else none
  inheritReject := sp.rejectrecursively

def chooseCached (sp : ServParm) (topdomain : Name) : List InAddr → Choice → Choosing
  | [], c => pure (c, true)
  | addr :: addrs, c => do
      let (c, ok) ← chooseServ cfg c (cachedServ cfg sp topdomain addr)
      if ok then chooseCached sp topdomain addrs c else pure (c, false)

/-- The server itself is chosen. -/
def chooseItself (sp : ServParm) (at' : Atup) (c : Choice) (rjl : Bool) : Choosing := do
  let (c, ok) ← chooseReject sp true c rjl
  if ok then chooseServ cfg c (configuredServ sp at'.a) else pure (c, false)

/-- The loop over the addresses of a server, where `rjl` says whether there is a reject list. -/
def chooseAddresses (sp : ServParm) : List Atup → Choice → Bool → Choosing
  | [], c, _ => pure (c, true)
  | at' :: atups, c, rjl =>
      if !at'.isUp then chooseAddresses sp atups c rjl
      else if sp.rootserver ≠ 0 ∧ c.root = 2 then pure (c, true)
      else do
        let top ← if sp.rootserver ≠ 0 ∧ c.root = 0 then lookupTop name (topSegments name)
          else pure none
        let c := if sp.rootserver ≠ 0 ∧ c.root = 0 then { c with root := 1 } else c
        match top with
        | some (topdomain, adrs) => do
            let addrs ← rotated sp.randServers adrs.items
            let (c, ok) ← chooseReject sp sp.rejectrecursively c rjl
            let (c, ok) ← if ok then chooseCached cfg sp topdomain addrs c else pure (c, false)
            freeBlock adrs.block
            -- this information is used instead of the root server
            pure (if ok then { c with root := 2 } else c, ok)
        | none => do
            let (c, ok) ← chooseItself cfg sp at' c rjl
            if ok then chooseAddresses sp atups c sp.rejectlist.isSome else pure (c, false)

/-- The loop over the servers, in the order of their definition. -/
def chooseServers : List ServParm → Choice → Choosing
  | [], c => pure (c, true)
  | sp :: sps, c =>
      if sp.rootserver ≤ 1 && useServer sp name then do
        let atups ← rotated sp.randServers sp.atups
        let (c, ok) ← chooseAddresses cfg name sp atups c false
        if ok then chooseServers sps c else pure (c, false)
      else chooseServers sps c

def freeBlocks : List Nat → Prog NetOp Unit
  | [] => pure ()
  | block :: blocks => do
      .ask (.free block)
      freeBlocks blocks

end Servers

section Resolve

variable (cfg : ResolverConfig) (rounds : Nat)

/-- A record that was resolved is put into the cache, and what the cache has then is used. -/
def mergeWithCache (name : Name) (ent : Ent) : Prog NetOp Ent := do
  .ask (.addCache ent.val)
  match ← .ask (.lookupCache name false) with
  | some (tc, _) => do
      .ask (.free ent.block)
      pure tc
  | none => pure ent

/-- `p_dns_resolve`. -/
def pDnsResolve (args : ResolveArgs) : Resolving ResolveResult := do
  let servers ← op .lockServerData
  let (c, ok) ← (chooseServers cfg args.name servers ⟨noServ, 0, []⟩).beside
  op .unlockServerData
  let r ← if ok && !c.serv.items.isEmpty then do
      let (r, nocache) ← pRecursiveQuery cfg rounds { args with qslist := [] } c.serv.items
      if r.rv = .rc rcOk && !nocache then
        r.ent.elim (pure r) fun ent => do
          let ent ← (mergeWithCache args.name ent).beside
          pure { r with ent := some ent }
      else pure r
    else pure ⟨.rc rcServfail, none, args.cSoa⟩
  (freeBlock c.serv.block).beside
  (freeBlocks c.rejects).beside
  pure r

/-- No server is marked up. -/
def allDown (servers : List ServParm) : Bool :=
  servers.all fun sp => 1 < sp.rootserver || sp.atups.all fun at' => !at'.isUp

/-- The test with `lndown_kluge`. -/
def linkDown (flags : CFlags) : Prog NetOp Bool :=
  if cfg.lndownKluge && !flags.isLocal then do
    let servers ← .ask .lockServerData
    .ask .unlockServerData
    pure (allDown servers)
  else pure false

/-- What is returned when the servers were asked. An entry that has timed out is better than
nothing. -/
def afterAsking (cached : Option Ent) (flags : CFlags) (r : ResolveResult) :
    Resolving ResolveResult := do
  if r.ent.isSome then do
    (freeEnt cached).beside
    pure r
  else if r.rv = .rc rcServfail ∧ cached.isSome ∧ flags.nopurge then
    pure ⟨.rc rcStale, cached, r.cSoa⟩
  else do
    (freeEnt cached).beside
    pure r

/-- What the cache has is used, or the servers are asked. -/
def resolveAnew (args : ResolveArgs) (status : CacheStatus) : Resolving ResolveResult := do
  if ← (linkDown cfg status.flags).beside then do
    (freeEnt status.cached).beside
    pure ⟨.rc rcServfail, none, status.cSoa⟩
  else if status.rc = rcCached then pure ⟨.rc rcCached, status.cached, status.cSoa⟩
  else
    match args.q with
    | some q => do
        let (r, _) ← pRecursiveQuery cfg rounds args q
        afterAsking status.cached status.flags r
    | none => do
        let r ← pDnsResolve cfg rounds args
        afterAsking status.cached status.flags r

/-- `p_dns_cached_resolve`. -/
def pDnsCachedResolve (args : ResolveArgs) : Resolving ResolveResult := do
  let status ← (lookupCacheStatus args.name args.thint args.queryts args.cSoa).beside
  let args := { args with cSoa := status.cSoa }
  if status.rc = rcOk then pure ⟨.rc rcCached, status.cached, status.cSoa⟩
  else if status.rc = rcNameerr then pure ⟨.rc rcNameerr, none, status.cSoa⟩
  else if cfg.onquery then do
    op .testOnquery
    resolveAnew cfg rounds args status
  else resolveAnew cfg rounds args status

/-- `p_dns_cached_resolve` with its recursion. There are no more calls than `hops`. -/
def resolve (args : ResolveArgs) : Prog NetOp ResolveResult :=
  unroll (pDnsCachedResolve cfg rounds) ⟨.again, none, none⟩ (args.hops + 1) args

/-- `r_dns_cached_resolve`. -/
def rDnsCachedResolve (name : Name) (thint hops : Nat) (queryts : Int) (cSoa : Option UInt8) :
    Prog NetOp ResolveResult := do
  let r ← resolve cfg rounds
    { q := none
      name := name
      thint := thint
      hops := hops
      qslist := []
      qhlist := []
      queryts := queryts
      cSoa := cSoa }
  positiveEntry r

end Resolve

end TorAndroid.Dns.Resolver
