import TorAndroid.Dns.Resolver.DelegationCustody

namespace TorAndroid.Dns.Resolver

open TorAndroid.Lib.Interaction TorAndroid.Lib.Ownership

section Choice

variable {cfg : ResolverConfig} {pol : ResolverPolicy cfg} {enough : Prop} {name : Name}

theorem name_within_suffix (name : Name) (k : Nat) : name.Within (name.suffix k) := by
  rw [Name.Within, Name.fold, Name.fold]
  exact (List.drop_suffix _ _).map _

/-- The time is asked for, and the records of a set may still be used or not. -/
theorem fresh_accounts {α : Type} {X : Multiset Handle} {rrset : Option RrSet}
    {f : Bool → Prog NetOp α} {own : α → Multiset Handle} {P : α → Prop}
    (hf : ∀ ok, Accounts (netLedger pol.toCachePolicy enough) X (f ok) own P) :
    Accounts (netLedger pol.toCachePolicy enough) X
      (rrset.elim (pure false) fresh >>= f) own P := by
  cases rrset with
  | none => exact hf false
  | some rrset => exact accounts_time fun now => hf _

/-- The cache is asked for an entry. -/
theorem accounts_lookup {α : Type} {X : Multiset Handle} {wild : Bool}
    {f : Option (Ent × Counted.WildCode) → Prog NetOp α} {own : α → Multiset Handle} {P : α → Prop}
    (hnone : Accounts (netLedger pol.toCachePolicy enough) X (f none) own P)
    (hsome : ∀ ent code, pol.good ent.val →
      Accounts (netLedger pol.toCachePolicy enough) (ent.own + X) (f (some (ent, code))) own P) :
    Accounts (netLedger pol.toCachePolicy enough) X
      (Prog.ask (.lookupCache name wild) >>= f) own P := by
  refine accounts_ask_bind trivial (Multiset.zero_subset _) (zero_add _).symm ?_
  rintro (_ | ⟨ent, code⟩) hgood
  · change Accounts _ (0 + X) _ _ _
    rwa [zero_add]
  · exact hsome ent code hgood

theorem cachedAddresses_accounts {nsname : Name} :
    Accounts (netLedger pol.toCachePolicy enough) 0 (cachedAddresses nsname) (fun _ => 0)
      fun _ => True := by
  rw [cachedAddresses]
  refine accounts_lookup (accounts_pure rfl trivial) fun ent code _ => ?_
  exact fresh_accounts fun ok => accounts_free rfl (accounts_pure rfl trivial)

theorem pushAddresses_accounts {n : Nat} {addrs : List InAddr} {res : AddrArray} :
    Accounts (netLedger pol.toCachePolicy enough) (memOf res.block) (pushAddresses n addrs res)
      arrayOwn
      fun _ => True := by
  induction addrs generalizing res with
  | nil => exact accounts_pure rfl trivial
  | cons addr addrs ih =>
      rw [pushAddresses]
      split_ifs
      · exact ih
      · refine push_accounts.bind ?_
        rintro (_ | res') -
        · exact accounts_pure rfl trivial
        · exact ih

theorem collectAddresses_accounts {rrs : List (List UInt8)} {res : AddrArray} :
    Accounts (netLedger pol.toCachePolicy enough) (memOf res.block) (collectAddresses rrs res)
      (fun res => memOf res.block) fun _ => True := by
  induction rrs generalizing res with
  | nil => exact accounts_pure rfl trivial
  | cons data rrs ih =>
      rw [collectAddresses]
      refine cachedAddresses_accounts.bind_part (zero_add _).symm fun addrs _ => ?_
      rw [zero_add]
      split_ifs
      · exact accounts_freeBlock (F := 0) (add_zero _).symm (accounts_pure rfl trivial)
      · refine pushAddresses_accounts.bind ?_
        rintro (_ | res') -
        · exact accounts_pure rfl trivial
        · exact ih

theorem lookupNs_accounts {domain : Name} :
    Accounts (netLedger pol.toCachePolicy enough) 0 (lookupNs domain) (fun res => memOf res.block)
      fun _ => True := by
  rw [lookupNs]
  refine accounts_lookup (accounts_pure rfl trivial) fun ent code _ => ?_
  refine fresh_accounts fun ok => ?_
  split_ifs
  · refine collectAddresses_accounts.bind_part (zero_add _).symm fun res _ => ?_
    exact accounts_free (by rw [add_zero, add_comm]; rfl) (accounts_pure rfl trivial)
  · exact accounts_free rfl (accounts_pure rfl trivial)

/-- What belongs to the servers of a domain. -/
def topOwn (top : Option (Name × AddrArray)) : Multiset Handle :=
  top.elim 0 fun x => memOf x.2.block

theorem lookupTop_accounts {mseg : Nat} :
    Accounts (netLedger pol.toCachePolicy enough) 0 (lookupTop name mseg) topOwn fun top =>
      ∀ x, top = some x → name.Within x.1 := by
  induction mseg with
  | zero =>
      refine accounts_pure rfl ?_
      rintro x ⟨⟩
  | succ mseg ih =>
      rw [lookupTop]
      refine lookupNs_accounts.bind fun adrs _ => ?_
      split_ifs
      · exact accounts_freeBlock (F := 0) (add_zero _).symm ih
      · refine accounts_pure rfl ?_
        rintro _ ⟨⟩
        exact name_within_suffix name (mseg + 1)

theorem rotated_accounts {α : Type} {β : Type} {rand : Bool} {xs : List α} {X : Multiset Handle}
    {f : List α → Prog NetOp β} {own : β → Multiset Handle} {P : β → Prop}
    (hf : ∀ ys, Accounts (netLedger pol.toCachePolicy enough) X (f ys) own P) :
    Accounts (netLedger pol.toCachePolicy enough) X (rotated rand xs >>= f) own P := by
  rw [rotated]
  split_ifs
  · exact accounts_touch trivial (Multiset.zero_subset _) rfl (fun _ => rfl) fun _ _ => hf _
  · exact hf xs

/-- What belongs to a choice of servers. -/
def Choice.own (c : Choice) : Multiset Handle :=
  memOf c.serv.block + Multiset.ofList (c.rejects.map Handle.mem)

def chosenOwn (r : Choice × Bool) : Multiset Handle :=
  r.1.own

/-- The servers that are chosen can be asked. -/
def ChoiceOk (pol : ResolverPolicy cfg) (name : Name) (c : Choice) : Prop :=
  Askable pol name c.serv.items

theorem chooseServ_accounts {c : Choice} {spec : ServSpec} (hc : ChoiceOk pol name c)
    (hspec : pol.fine name (newQserv cfg.queryMethod spec).toQueryStat) :
    Accounts (netLedger pol.toCachePolicy enough) c.own (chooseServ cfg c spec) chosenOwn
      fun r => ChoiceOk pol name r.1 := by
  rw [chooseServ]
  refine push_accounts.bind_part rfl ?_
  rintro (_ | serv) hserv
  · refine accounts_pure rfl ?_
    intro st h
    cases h
  · refine accounts_pure rfl ?_
    have hitems : serv.items = c.serv.items ++ [newQserv cfg.queryMethod spec] := hserv
    intro st hst
    change st ∈ serv.items at hst
    rw [hitems, List.mem_append, List.mem_singleton] at hst
    rcases hst with hst | rfl
    · exact hc st hst
    · exact ⟨rfl, hspec⟩

theorem chooseReject_accounts {sp : ServParm} {wanted : Bool} {c : Choice} {rjl : Bool}
    (hc : ChoiceOk pol name c) :
    Accounts (netLedger pol.toCachePolicy enough) c.own (chooseReject sp wanted c rjl) chosenOwn
      fun r => ChoiceOk pol name r.1 := by
  rw [chooseReject]
  split_ifs
  · refine accounts_malloc ?_
    rintro (_ | block)
    · exact accounts_pure (zero_add _) hc
    · refine accounts_pure ?_ hc
      rw [chosenOwn, Choice.own, Choice.own, List.map_cons, ← Multiset.cons_coe,
        ← Multiset.singleton_add, memOf_some, add_left_comm]
  · exact accounts_pure rfl hc

theorem chooseCached_accounts {sp : ServParm} {topdomain : Name} {addrs : List InAddr} {c : Choice}
    (hc : ChoiceOk pol name c) (hwithin : name.Within topdomain) :
    Accounts (netLedger pol.toCachePolicy enough) c.own (chooseCached cfg sp topdomain addrs c)
      chosenOwn
      fun r => ChoiceOk pol name r.1 := by
  induction addrs generalizing c with
  | nil => exact accounts_pure rfl hc
  | cons addr addrs ih =>
      rw [chooseCached]
      refine (chooseServ_accounts hc (pol.cached name sp topdomain addr hwithin)).bind ?_
      rintro ⟨c', ok⟩ hc'
      dsimp only
      split_ifs
      · exact ih hc'
      · exact accounts_pure rfl hc'

theorem chooseItself_accounts {sp : ServParm} {at' : Atup} {c : Choice} {rjl : Bool}
    (hc : ChoiceOk pol name c) :
    Accounts (netLedger pol.toCachePolicy enough) c.own (chooseItself cfg sp at' c rjl) chosenOwn
      fun r => ChoiceOk pol name r.1 := by
  rw [chooseItself]
  refine (chooseReject_accounts hc).bind ?_
  rintro ⟨c', ok⟩ hc'
  dsimp only
  split_ifs
  · exact chooseServ_accounts hc' (pol.configured name sp at'.a)
  · exact accounts_pure rfl hc'

/-- The address of a server, and after it the others. -/
theorem chooseItself_then {sp : ServParm} {at' : Atup} {c : Choice} {rjl : Bool}
    {next : Choice → Choosing} (hc : ChoiceOk pol name c)
    (hnext : ∀ c', ChoiceOk pol name c' → Accounts (netLedger pol.toCachePolicy enough) c'.own
      (next c') chosenOwn fun r => ChoiceOk pol name r.1) :
    Accounts (netLedger pol.toCachePolicy enough) c.own
      (do
        let (c, ok) ← chooseItself cfg sp at' c rjl
        if ok then next c else pure (c, false)) chosenOwn fun r => ChoiceOk pol name r.1 := by
  refine (chooseItself_accounts hc).bind ?_
  rintro ⟨c', ok⟩ hc'
  dsimp only
  split_ifs
  · exact hnext c' hc'
  · exact accounts_pure rfl hc'

theorem chooseAddresses_accounts {sp : ServParm} {atups : List Atup} {c : Choice} {rjl : Bool}
    (hc : ChoiceOk pol name c) :
    Accounts (netLedger pol.toCachePolicy enough) c.own (chooseAddresses cfg name sp atups c rjl)
      chosenOwn fun r => ChoiceOk pol name r.1 := by
  induction atups generalizing c rjl with
  | nil => exact accounts_pure rfl hc
  | cons at' atups ih =>
      rw [chooseAddresses]
      split_ifs with hup hroot hask
      · exact ih hc
      · exact accounts_pure rfl hc
      · refine lookupTop_accounts.bind_part (zero_add _).symm ?_
        rintro (_ | ⟨topdomain, adrs⟩) htop
        · rw [show topOwn none + c.own = c.own from zero_add _]
          exact chooseItself_then (c := { c with root := 1 }) hc fun _ hc' => ih hc'
        · refine rotated_accounts fun addrs => ?_
          refine (chooseReject_accounts (c := { c with root := 1 }) hc).bind_part (add_comm _ _) ?_
          rintro ⟨c', ok⟩ hc'
          have hend : ∀ r : Choice × Bool, ChoiceOk pol name r.1 →
              Accounts (netLedger pol.toCachePolicy enough) (chosenOwn r + memOf adrs.block)
                (do
                  freeBlock adrs.block
                  pure (if r.2 then { r.1 with root := 2 } else r.1, r.2)) chosenOwn
                fun r => ChoiceOk pol name r.1 := by
            intro r hr
            refine accounts_freeBlock (add_comm _ _) (accounts_pure ?_ ?_)
            · split_ifs <;> rfl
            · split_ifs <;> exact hr
          dsimp only
          split_ifs
          · exact (chooseCached_accounts hc' (htop _ rfl)).bind_part rfl fun r hr => hend r hr
          · exact hend (c', false) hc'
      · exact chooseItself_then hc fun _ hc' => ih hc'

end Choice

section Resolve

variable {cfg : ResolverConfig} {pol : ResolverPolicy cfg} {enough : Prop} {name : Name}
  {args : ResolveArgs} {rounds : Nat}

theorem chooseServers_accounts {sps : List ServParm} {c : Choice} (hc : ChoiceOk pol name c) :
    Accounts (netLedger pol.toCachePolicy enough) c.own (chooseServers cfg name sps c) chosenOwn
      fun r => ChoiceOk pol name r.1 := by
  induction sps generalizing c with
  | nil => exact accounts_pure rfl hc
  | cons sp sps ih =>
      rw [chooseServers]
      split_ifs
      · refine rotated_accounts fun atups => ?_
        refine (chooseAddresses_accounts hc).bind ?_
        rintro ⟨c', ok⟩ hc'
        dsimp only
        split_ifs
        · exact ih hc'
        · exact accounts_pure rfl hc'
      · exact ih hc

theorem freeBlocks_accounts {blocks : List Nat} :
    Accounts (netLedger pol.toCachePolicy enough) (Multiset.ofList (blocks.map Handle.mem))
      (freeBlocks blocks) (fun _ => 0) fun _ => True := by
  induction blocks with
  | nil => exact accounts_pure rfl trivial
  | cons block blocks ih =>
      rw [freeBlocks, List.map_cons, ← Multiset.cons_coe, ← Multiset.singleton_add]
      exact accounts_free rfl ih

/-- The entry that comes from the cache takes the place of the one that was resolved. -/
theorem mergeWithCache_accounts {ent : Ent} (hgood : pol.good ent.val) :
    Accounts (netLedger pol.toCachePolicy enough) ent.own (mergeWithCache name ent) Held.own
      fun ent => pol.good ent.val := by
  rw [mergeWithCache]
  refine accounts_touch hgood (Multiset.zero_subset _) rfl (fun _ => rfl) fun _ _ => ?_
  refine accounts_lookup (accounts_pure rfl hgood) fun tc code htc => ?_
  exact accounts_free (add_comm _ _) (accounts_pure rfl htc)

theorem localSoa_accounts {α : Type} {X : Multiset Handle} {cached : Cent} {cSoa : Option UInt8}
    {f : Option UInt8 → Prog NetOp α} {own : α → Multiset Handle} {P : α → Prop}
    (hf : ∀ soa, Accounts (netLedger pol.toCachePolicy enough) X (f soa) own P) :
    Accounts (netLedger pol.toCachePolicy enough) X (localSoa cached cSoa >>= f) own P := by
  rw [localSoa]
  split_ifs
  · exact hf _
  · exact hf _
  · exact hf _
  · exact accounts_touch trivial (Multiset.zero_subset _) rfl (fun _ => rfl) fun _ _ => hf _

/-- There is an entry with the return codes that promise one. -/
structure StatusOk (pol : ResolverPolicy cfg) (status : CacheStatus) : Prop where
  good : ∀ ent, status.cached = some ent → pol.good ent.val
  cached : status.rc = rcOk ∨ status.rc = rcCached → status.cached.isSome
  denied : status.rc = rcNameerr → status.cached = none

def statusOwn (status : CacheStatus) : Multiset Handle :=
  ownOpt status.cached

theorem lookupCacheStatus_accounts {thint : Nat} {queryts : Int} {cSoa : Option UInt8} :
    Accounts (netLedger pol.toCachePolicy enough) 0 (lookupCacheStatus name thint queryts cSoa)
      statusOwn
      (StatusOk pol) := by
  rw [lookupCacheStatus]
  refine accounts_lookup ?_ fun ent code hgood => ?_
  · refine accounts_pure rfl ⟨?_, ?_, fun _ => rfl⟩
    · rintro ent ⟨⟩
    · rintro (h | h) <;> cases h
  · have hheld : ∀ ent', some ent = some ent' → pol.good ent'.val := by
      rintro _ ⟨⟩
      exact hgood
    dsimp only
    split_ifs
    · refine localSoa_accounts fun soa =>
        accounts_free rfl (accounts_pure rfl ⟨?_, ?_, fun _ => rfl⟩)
      · rintro ent ⟨⟩
      · rintro (h | h) <;> cases h
    · exact accounts_pure (add_zero _) ⟨hheld, fun _ => rfl, fun h => (by cases h)⟩
    · exact accounts_pure (add_zero _) ⟨hheld, fun _ => rfl, fun h => (by cases h)⟩
    · exact accounts_pure (add_zero _) ⟨hheld, fun _ => rfl, fun h => (by cases h)⟩

theorem linkDown_accounts {flags : CFlags} :
    Accounts (netLedger pol.toCachePolicy enough) 0 (linkDown cfg flags) (fun _ => 0)
      fun _ => True := by
  rw [linkDown]
  split_ifs
  · refine accounts_ask_bind trivial (Multiset.zero_subset _) (zero_add _).symm fun servers _ => ?_
    refine accounts_ask_bind (F := 0) trivial (Multiset.zero_subset _) rfl fun _ _ => ?_
    exact accounts_pure rfl trivial
  · exact accounts_pure rfl trivial

/-- The servers that were chosen are given back. -/
theorem freeChoice_accounts {c : Choice} {r : ResolveResult} (hr : ResolveOk pol r) :
    Accounts (callLedger pol enough args.hops) (resolveOwn r + c.own)
      (do
        (freeBlock c.serv.block).beside
        (freeBlocks c.rejects).beside
        pure r) resolveOwn (ResolveOk pol) := by
  refine (accounts_apart freeBlock_accounts).bind_part
    (F := resolveOwn r + Multiset.ofList (c.rejects.map Handle.mem)) ?_ fun _ _ => ?_
  · rw [Choice.own, add_left_comm]
  · refine (accounts_apart freeBlocks_accounts).bind_part (F := resolveOwn r) ?_ fun _ _ => ?_
    · rw [zero_add, add_comm]
    · exact accounts_pure (zero_add _) hr

theorem pDnsResolve_accounts :
    Accounts (callLedger pol enough args.hops) 0 (pDnsResolve cfg rounds args) resolveOwn
      (ResolveOk pol) := by
  have hnone : ChoiceOk pol args.name ⟨noServ, 0, []⟩ := by
    intro st h
    cases h
  rw [pDnsResolve]
  refine accounts_ask_bind trivial (Multiset.zero_subset _) (zero_add _).symm fun servers _ => ?_
  refine (accounts_apart (chooseServers_accounts hnone)).bind_part (F := {Handle.serverData}) rfl ?_
  rintro ⟨c, ok⟩ hc
  refine accounts_ask_bind (F := c.own) trivial (Multiset.zero_subset _) (add_comm _ _)
    fun _ _ => ?_
  change Accounts _ (0 + c.own) _ _ _
  dsimp only
  split_ifs
  · have hask := @pRecursiveQuery_accounts cfg pol enough { args with qslist := [] }
      rounds c.serv.items hc
    refine hask.bind_part rfl ?_
    rintro ⟨r, nocache⟩ hr
    have hr : ResolveOk pol r := hr
    dsimp only
    split_ifs
    · have hmerge : Accounts (callLedger pol enough args.hops) (resolveOwn r)
          (r.ent.elim (pure r) fun ent => do
            let ent ← (mergeWithCache args.name ent).beside
            pure { r with ent := some ent }) resolveOwn (ResolveOk pol) := by
        obtain ⟨rv, ent, soa⟩ := r
        cases ent with
        | none => exact accounts_pure rfl hr
        | some ent =>
            refine (accounts_apart (mergeWithCache_accounts (hr.good ent rfl))).bind
              fun ent' hent' => ?_
            refine accounts_pure rfl ⟨hr.ent, ?_⟩
            rintro _ ⟨⟩
            exact hent'
      exact hmerge.bind_part rfl fun r' hr' => freeChoice_accounts hr'
    · exact freeChoice_accounts hr
  · exact freeChoice_accounts ⟨rfl, fun _ h => (by cases h)⟩

theorem ownOpt_none : ownOpt (none : Option Ent) = 0 := rfl

/-- An entry that was found before is not used when there is a new one. -/
theorem afterAsking_accounts {cached : Option Ent} {flags : CFlags} {r : ResolveResult}
    (hr : ResolveOk pol r) (hcached : ∀ ent, cached = some ent → pol.good ent.val) :
    Accounts (callLedger pol enough args.hops) (resolveOwn r + ownOpt cached)
      (afterAsking cached flags r) resolveOwn (ResolveOk pol) := by
  have hfree : Accounts (callLedger pol enough args.hops) (resolveOwn r + ownOpt cached)
      (do
        (freeEnt cached).beside
        pure r) resolveOwn (ResolveOk pol) := by
    refine (accounts_apart freeEnt_accounts).bind_part (add_comm _ _) fun _ _ => ?_
    exact accounts_pure (zero_add _) hr
  rw [afterAsking]
  split_ifs with hnew hstale
  · exact hfree
  · have hnone : r.ent = none := by
      rw [Option.not_isSome_iff_eq_none] at hnew
      exact hnew
    refine accounts_pure ?_ ⟨hstale.2.1, hcached⟩
    rw [resolveOwn, hnone, ownOpt_none, zero_add]
    rfl
  · exact hfree

theorem resolveAnew_accounts {status : CacheStatus} (hargs : ArgsOk pol args)
    (hstatus : StatusOk pol status) :
    Accounts (callLedger pol enough args.hops) (statusOwn status)
      (resolveAnew cfg rounds args status)
      resolveOwn (ResolveOk pol) := by
  rw [resolveAnew]
  refine (accounts_apart linkDown_accounts).bind_part (zero_add _).symm fun down _ => ?_
  rw [zero_add]
  split_ifs with hdown hrc
  · refine (accounts_apart freeEnt_accounts).bind fun _ _ => accounts_pure rfl ⟨rfl, ?_⟩
    rintro ent ⟨⟩
  · exact accounts_pure rfl ⟨hstatus.cached (.inr hrc), hstatus.good⟩
  · cases hq : args.q with
    | none =>
        refine pDnsResolve_accounts.bind_part (zero_add _).symm fun r hr => ?_
        exact afterAsking_accounts hr hstatus.good
    | some q =>
        refine (pRecursiveQuery_accounts (hargs q hq)).bind_part (zero_add _).symm ?_
        rintro ⟨r, nocache⟩ hr
        exact afterAsking_accounts hr hstatus.good

theorem pDnsCachedResolve_accounts (hargs : ArgsOk pol args) :
    Accounts (callLedger pol enough args.hops) 0 (pDnsCachedResolve cfg rounds args) resolveOwn
      (ResolveOk pol) := by
  rw [pDnsCachedResolve]
  refine (accounts_apart lookupCacheStatus_accounts).bind fun status hstatus => ?_
  have hanew := @resolveAnew_accounts cfg pol enough { args with cSoa := status.cSoa } rounds status
    hargs hstatus
  dsimp only
  split_ifs with hok hdenied
  · exact accounts_pure rfl ⟨hstatus.cached (.inl hok), hstatus.good⟩
  · refine accounts_pure ?_ ⟨rfl, ?_⟩
    · rw [statusOwn, hstatus.denied hdenied]
      rfl
    · rintro ent ⟨⟩
  · exact accounts_touch trivial (Multiset.zero_subset _) rfl (fun _ => rfl) fun _ _ => hanew
  · exact hanew

/-- The measure of the recursion is what is left of the hops. -/
theorem resolve_accounts (hargs : ArgsOk pol args) :
    Accounts (netLedger pol.toCachePolicy enough) 0 (resolve cfg rounds args) resolveOwn
      (ResolveOk pol) :=
  accounts_unroll (m := ResolveArgs.hops) (fun _ h => pDnsCachedResolve_accounts h)
    (Nat.lt_succ_self _) hargs

theorem rDnsCachedResolve_accounts {thint hops : Nat} {queryts : Int} {cSoa : Option UInt8} :
    Accounts (netLedger pol.toCachePolicy enough) 0
      (rDnsCachedResolve cfg rounds name thint hops queryts cSoa) resolveOwn (ResolveOk pol) := by
  rw [rDnsCachedResolve]
  refine (resolve_accounts ?_).bind fun r hr => positiveEntry_accounts hr
  intro q h
  cases h

end Resolve

end TorAndroid.Dns.Resolver
