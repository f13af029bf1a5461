import TorAndroid.Dns.Resolver.ResolveCustody

namespace TorAndroid.Dns.Resolver

open TorAndroid.Lib.Interaction TorAndroid.Lib.Ownership

/-- What may go into the cache on behalf of a server that is not from the configuration. -/
def InBailiwick (cfg : ResolverConfig) (st : QueryStat) (cent : Cent) : Prop :=
  st.authServ = 2 → cent.qname.labels ≠ [] ∧
    (cfg.paranoid = true → ∃ domain, st.nsdomain = some domain ∧ cent.qname.Within domain)

/-- A server that is not from the configuration is asked for names of its domain. -/
def AskedInDomain (cfg : ResolverConfig) (name : Name) (st : QueryStat) : Prop :=
  st.authServ = 2 → cfg.paranoid = true →
    st.trusted = false ∧ ∃ domain, st.nsdomain = some domain ∧ name.Within domain

variable {cfg : ResolverConfig} {name : Name} {st : QueryStat} {cent : Cent}

theorem inBailiwick_of_accepts (hfine : AskedInDomain cfg name st) (h : st.accepts cent = true) :
    InBailiwick cfg st cent := by
  intro hauth
  rw [QueryStat.accepts, Bool.and_eq_true] at h
  constructor
  · intro hroot
    have hlabels := h.1
    simp [hroot, hauth] at hlabels
  · intro hparanoid
    obtain ⟨htrusted, domain, hdomain, -⟩ := hfine hauth hparanoid
    refine ⟨domain, hdomain, within_of_matchNames ?_⟩
    simpa [htrusted, hdomain] using h.2

/-- The servers that are named by others, and those of the top level domains in the cache, are
asked and believed only about their own domain. -/
def bailiwickPolicy (cfg : ResolverConfig) : ResolverPolicy cfg where
  good := fun _ => True
  allowed := InBailiwick cfg
  fine := AskedInDomain cfg
  same := by
    intro name st st' hsame hfine hauth hparanoid
    rw [hsame.authServ] at hauth
    rw [hsame.trusted, hsame.nsdomain]
    exact hfine hauth hparanoid
  added := by
    intro name thint st queryts cent hfine hmem
    refine ⟨trivial, ?_⟩
    rcases (useReply_used cfg.toQueryConfig st [] name thint queryts).barred
      with ⟨hadded, -⟩ | ⟨hbarred, -⟩
    · rw [hadded] at hmem
      cases hmem
    · exact inBailiwick_of_accepts hfine (hbarred.added cent hmem)
  answer := fun _ _ => trivial
  nocache := fun _ => trivial
  refs := fun _ _ _ => trivial
  configured := by
    intro name sp addr hauth
    have hnot : (configuredServ sp addr).authServ ≠ 2 := by
      change (if sp.rootserver ≠ 0 then 3 else (!sp.isProxy).toNat) ≠ 2
      split_ifs
      · exact Nat.succ_ne_self 2
      · cases sp.isProxy <;> decide
    exact absurd hauth hnot
  cached := by
    intro name sp topdomain addr hwithin _ hparanoid
    exact ⟨congrArg not hparanoid, topdomain, rfl, hwithin⟩
  delegated := by
    intro name st nsdomain addr hwithin _ hparanoid
    exact ⟨congrArg not hparanoid, nsdomain, rfl, hwithin hparanoid⟩

/-- Whatever the system and the servers answer, what the code that reads a reply puts into the cache
is in the bailiwick of the server that the reply is from. -/
def bailiwick (cfg : ResolverConfig) : Contract NetOp Unit where
  pre := fun {_} op _ =>
    match op with
    | .addRecords st cent => InBailiwick cfg st cent
    | _ => True
  post := fun {_} op b =>
    match op, b with
    | .readLength _ recvAt, .ok bytes => FillsBuffer recvAt bytes
    | _, _ => True
  next := fun {_} _ _ x => x

theorem bailiwick_of_accounts {α : Type} {p : Prog NetOp α} {own : α → Multiset Handle}
    {P : α → Prop}
    (hp : Accounts (netLedger (bailiwickPolicy cfg).toCachePolicy False) 0 p own P) :
    Ensures (bailiwick cfg) (fun a _ => P a) p () := by
  refine ((hp 0).forget ?_ ?_ ()).weaken ?_
  · rintro β op x - ⟨hdemand, -, -⟩
    cases op with
    | addRecords st cent => exact hdemand.2
    | _ => trivial
  · rintro β op b hpost
    cases op with
    | readLength sock recvAt =>
        cases b with
        | error errno => trivial
        | ok bytes => exact hpost
    | grow block =>
        cases b with
        | none => exact not_false
        | some block => trivial
    | lookupCache name wild =>
        cases b with
        | none => trivial
        | some x => trivial
    | _ => trivial
  · rintro a _ ⟨x, lost, -, -, hP⟩
    exact hP

/-- What comes along with the answer of a server that another one named, or that the cache has for a
top level domain, never adds the root domain. In paranoid mode it adds only names of the server's
own domain, and this is so in all that a resolution does, with all the names that are resolved on
the way. -/
theorem rDnsCachedResolve_bailiwick (cfg : ResolverConfig) (rounds : Nat) (name : Name)
    (thint hops : Nat) (queryts : Int) (cSoa : Option UInt8) :
    Ensures (bailiwick cfg) (fun r _ => r.ent.isSome = r.rv.answered)
      (rDnsCachedResolve cfg rounds name thint hops queryts cSoa) () :=
  bailiwick_of_accounts (rDnsCachedResolve_accounts.weaken fun _ hr => ⟨rfl, hr.ent⟩)

end TorAndroid.Dns.Resolver
