import TorAndroid.Dns.Resolver.ServersCustody

namespace TorAndroid.Dns.Resolver

open TorAndroid.Lib.Interaction TorAndroid.Lib.Ownership

section Arrays

variable {pol : CachePolicy} {enough : Prop} {α : Type}

/-- What belongs to an array that may be gone. -/
def arrayOwn (a : Option (DArray α)) : Multiset Handle :=
  a.elim 0 fun a => memOf a.block

/-- An array that is gone was too big, and one that is there has the new element. -/
def Pushed (enough : Prop) (a : DArray α) (x : α) : Option (DArray α) → Prop
  | none => ¬enough
  | some a' => a'.items = a.items ++ [x]

theorem push_accounts {a : DArray α} {x : α} :
    Accounts (netLedger pol enough) (memOf a.block) (a.push x) arrayOwn (Pushed enough a x) := by
  rw [DArray.push]
  split_ifs with hfull
  · refine accounts_ask_bind trivial (Multiset.zero_subset _) (add_zero _).symm ?_
    rintro (_ | block) hgrow
    · exact accounts_pure (add_zero _) hgrow
    · exact accounts_pure (add_zero _) rfl
  · cases hblock : a.block with
    | none =>
        rw [hblock] at hfull
        exact absurd rfl hfull
    | some block => exact accounts_pure rfl rfl

end Arrays

section Calls

variable {cfg : ResolverConfig}

/-- Servers that can be asked for a name. -/
def Askable (pol : ResolverPolicy cfg) (name : Name) (servers : List QueryServ) : Prop :=
  ∀ st ∈ servers, st.state = .initial ∧ pol.fine name st.toQueryStat

/-- The servers that a call is to ask can be asked. -/
def ArgsOk (pol : ResolverPolicy cfg) (args : ResolveArgs) : Prop :=
  ∀ q, args.q = some q → Askable pol args.name q

/-- There is an entry exactly if the return code says so. -/
structure ResolveOk (pol : ResolverPolicy cfg) (r : ResolveResult) : Prop where
  ent : r.ent.isSome = r.rv.answered
  good : ∀ ent, r.ent = some ent → pol.good ent.val

def resolveOwn (r : ResolveResult) : Multiset Handle :=
  ownOpt r.ent

/-- The ledger of the operations of the resolver, where calls are left fewer hops. -/
def callLedger (pol : ResolverPolicy cfg) (enough : Prop) (hops : Nat) :
    Ledger (Calling NetOp ResolveArgs ResolveResult) Handle :=
  (netLedger pol.toCachePolicy enough).calling (fun args => ArgsOk pol args ∧ args.hops < hops)
    resolveOwn fun _ => ResolveOk pol

variable {pol : ResolverPolicy cfg} {enough : Prop} {args : ResolveArgs} {hops : Nat} {α β : Type}
  {X F : Multiset Handle}

/-- A program that does not call. -/
theorem accounts_apart {p : Prog NetOp α} {own : α → Multiset Handle} {P : α → Prop}
    (hp : Accounts (netLedger pol.toCachePolicy enough) X p own P) :
    Accounts (callLedger pol enough hops) X p.beside own P :=
  hp.beside (fun _ h => h) fun _ => implements_ask (fun h => h) rfl rfl (fun _ => rfl) fun _ h => h

theorem accounts_op_time {f : Int → Resolving β} {own : β → Multiset Handle} {P : β → Prop}
    (hf : ∀ now, Accounts (callLedger pol enough hops) X (f now) own P) :
    Accounts (callLedger pol enough hops) X (op .time >>= f) own P :=
  accounts_touch trivial (Multiset.zero_subset _) rfl (fun _ => rfl) fun now _ => hf now

theorem accounts_op_free {block : Nat} {f : Unit → Resolving β} {own : β → Multiset Handle}
    {P : β → Prop} (hX : X = {.mem block} + F)
    (hf : Accounts (callLedger pol enough hops) F (f ()) own P) :
    Accounts (callLedger pol enough hops) X (op (.free block) >>= f) own P := by
  refine accounts_ask_bind trivial (Multiset.zero_subset _) hX fun _ _ => ?_
  rwa [show (callLedger pol enough hops).gives (.inl (.free block)) () + F = F from zero_add F]

/-- A call brings what belongs to its result. -/
theorem accounts_recurse {f : ResolveResult → Resolving β} {own : β → Multiset Handle}
    {P : β → Prop}
    (hargs : ArgsOk pol args) (hhops : args.hops < hops)
    (hf : ∀ r, ResolveOk pol r →
      Accounts (callLedger pol enough hops) (resolveOwn r + X) (f r) own P) :
    Accounts (callLedger pol enough hops) X (recurse args >>= f) own P :=
  accounts_ask_bind ⟨hargs, hhops⟩ (Multiset.zero_subset _) (zero_add X).symm fun r hr => hf r hr

theorem positiveEntry_accounts {r : ResolveResult} (hr : ResolveOk pol r) :
    Accounts (netLedger pol.toCachePolicy enough) (resolveOwn r) (positiveEntry r) resolveOwn
      (ResolveOk pol) := by
  obtain ⟨rv, ent, soa⟩ := r
  rw [positiveEntry]
  cases ent with
  | none => exact accounts_pure rfl hr
  | some ent =>
      dsimp only
      split_ifs
      · refine accounts_free (F := 0) (add_zero _).symm (accounts_pure rfl ⟨rfl, ?_⟩)
        intro ent h
        cases h
      · exact accounts_pure rfl ⟨rfl, hr.good⟩

end Calls

section AuthOk

variable {cfg : ResolverConfig} {pol : ResolverPolicy cfg} {enough : Prop} {args : ResolveArgs}
  {q : List QueryServ} {st : QueryServ} {n hops : Nat} {nsdomain : Option Name} {serv : ServArray}

/-- A domain whose servers are put into the list. -/
def Responsible (cfg : ResolverConfig) (name : Name) (nsdomain : Option Name) : Prop :=
  ∃ domain, nsdomain = some domain ∧ (cfg.paranoid = true → name.Within domain)

/-- The list is gone where there was not enough memory, or else its servers can be asked. -/
def ListOk (pol : ResolverPolicy cfg) (enough : Prop) (name : Name) : Option ServArray → Prop
  | none => ¬enough
  | some serv => Askable pol name serv.items

theorem addAddress_accounts {addr : InAddr} (hdomain : Responsible cfg args.name nsdomain)
    (hserv : Askable pol args.name serv.items) :
    Accounts (netLedger pol.toCachePolicy enough) (memOf serv.block)
      (addAddress cfg args q st nsdomain n serv addr) arrayOwn (ListOk pol enough args.name) := by
  obtain ⟨domain, rfl, hwithin⟩ := hdomain
  rw [addAddress]
  refine accounts_touch trivial (Multiset.zero_subset _) rfl (fun _ => rfl) fun isLocal _ => ?_
  split_ifs
  · exact accounts_pure rfl hserv
  · exact accounts_pure rfl hserv
  · exact accounts_pure rfl hserv
  · refine push_accounts.weaken fun r hr => ⟨rfl, ?_⟩
    cases r with
    | none => exact hr
    | some serv' =>
        have hitems : serv'.items = serv.items ++ [_] := hr
        intro st' hst'
        rw [hitems, List.mem_append, List.mem_singleton] at hst'
        rcases hst' with hst' | rfl
        · exact hserv st' hst'
        · exact ⟨rfl, pol.delegated args.name st domain addr hwithin⟩

theorem addAddresses_accounts {addrs : List InAddr} (hdomain : Responsible cfg args.name nsdomain)
    (hserv : Askable pol args.name serv.items) :
    Accounts (netLedger pol.toCachePolicy enough) (memOf serv.block)
      (addAddresses cfg args q st nsdomain n addrs serv) arrayOwn
        (ListOk pol enough args.name) := by
  induction addrs generalizing serv with
  | nil => exact accounts_pure rfl hserv
  | cons addr addrs ih =>
      rw [addAddresses]
      refine (addAddress_accounts hdomain hserv).bind ?_
      rintro (_ | serv') hserv'
      · exact accounts_pure rfl hserv'
      · exact ih hserv'

theorem addNameServer_accounts {nsname : Name} (hhops : hops < args.hops)
    (hdomain : Responsible cfg args.name nsdomain) (hserv : Askable pol args.name serv.items) :
    Accounts (callLedger pol enough args.hops) (memOf serv.block)
      (addNameServer cfg args q st hops nsdomain nsname serv) arrayOwn
      (ListOk pol enough args.name) := by
  rw [addNameServer]
  split_ifs
  · exact accounts_pure rfl hserv
  · refine accounts_op_time fun now => ?_
    refine accounts_recurse ?_ hhops fun r hr => ?_
    · intro q' h
      cases h
    · refine (accounts_apart (positiveEntry_accounts hr)).bind_part rfl fun r' hr' => ?_
      obtain ⟨rv, ent, soa⟩ := r'
      cases ent with
      | none => exact accounts_pure (zero_add _) hserv
      | some ent =>
          exact accounts_op_free rfl (accounts_apart (addAddresses_accounts hdomain hserv))

theorem addLocalServers_accounts {domain : Name} {rrs : List (List UInt8)}
    (hhops : hops < args.hops)
    (hdomain : Responsible cfg args.name (some domain)) (hserv : Askable pol args.name serv.items) :
    Accounts (callLedger pol enough args.hops) (memOf serv.block)
      (addLocalServers cfg args q st hops domain rrs serv) arrayOwn
        (ListOk pol enough args.name) := by
  induction rrs generalizing serv with
  | nil => exact accounts_pure rfl hserv
  | cons data rrs ih =>
      rw [addLocalServers]
      refine (addNameServer_accounts hhops hdomain hserv).bind ?_
      rintro (_ | serv') hserv'
      · exact accounts_pure rfl hserv'
      · exact ih hserv'

/-- An item without a domain belongs to the one before. -/
theorem addServers_accounts {skip : Bool} {items : List NsItem} (hhops : hops < args.hops)
    (hdomain : skip = true ∨ Responsible cfg args.name nsdomain ∨
      ∀ item, items.head? = some item → item.owner.isSome)
    (hserv : Askable pol args.name serv.items) :
    Accounts (callLedger pol enough args.hops) (memOf serv.block)
      (addServers cfg args q st hops nsdomain skip items serv) arrayOwn
      (ListOk pol enough args.name) := by
  induction items generalizing serv skip nsdomain with
  | nil => exact accounts_pure rfl hserv
  | cons item items ih =>
      rw [addServers]
      cases howner : item.owner with
      | none =>
          dsimp only
          split_ifs with hskip
          · exact ih (.inl hskip) hserv
          · have hdomain' : Responsible cfg args.name nsdomain := by
              rcases hdomain with h | h | h
              · exact absurd h hskip
              · exact h
              · have hsome := h item rfl
                rw [howner] at hsome
                cases hsome
            refine (addNameServer_accounts hhops hdomain' hserv).bind ?_
            rintro (_ | serv') hserv'
            · exact accounts_pure rfl hserv'
            · exact ih (.inr (.inl hdomain')) hserv'
      | some domain =>
          dsimp only
          split_ifs with hother
          · exact ih (.inl rfl) hserv
          · have hdomain' : Responsible cfg args.name (some domain) := by
              refine ⟨domain, rfl, fun hparanoid => within_of_matchNames ?_⟩
              rw [hparanoid, Bool.true_and, Bool.not_eq_true, Bool.not_eq_false', belongsTo,
                decide_eq_true_iff] at hother
              exact hother
            refine accounts_ask_bind trivial (Multiset.zero_subset _) (zero_add _).symm ?_
            rintro (_ | rrset) -
            · change Accounts _ (0 + _) _ _ _
              rw [zero_add]
              refine (addNameServer_accounts hhops hdomain' hserv).bind ?_
              rintro (_ | serv') hserv'
              · exact accounts_pure rfl hserv'
              · exact ih (.inr (.inl hdomain')) hserv'
            · change Accounts _ ({Handle.rrset rrset.block} + _) _ _ _
              refine (addLocalServers_accounts hhops hdomain' hserv).bind_part (add_comm _ _) ?_
              rintro (_ | serv') hserv'
              · have hlost : (callLedger pol enough args.hops).Lost {Handle.rrset rrset.block} := by
                  intro h hmem
                  exact ⟨hserv', rrset.block, Multiset.mem_singleton.mp hmem⟩
                exact accounts_lose hlost (add_comm _ _) hserv'
              · refine accounts_ask_bind (F := memOf serv'.block) trivial (Multiset.zero_subset _)
                  (add_comm _ _) fun _ _ => ?_
                change Accounts _ (0 + _) _ _ _
                rw [zero_add]
                exact ih (.inl rfl) hserv'

def authOwn : AuthResult → Multiset Handle
  | .failed => 0
  | .verdict _ serv => memOf serv.block

/-- What is true of the result of `auth_ok`. -/
def AuthPost (pol : ResolverPolicy cfg) (enough : Prop) (name : Name) (hops : Nat) :
    AuthResult → Prop
  | .failed => ¬enough
  | .verdict _ serv => ServsOk pol name hops serv

theorem noServ_ok {name : Name} : ServsOk pol name hops noServ where
  initial := fun _ h => by cases h
  fine := fun _ h => by cases h
  hops := fun h => absurd rfl h

theorem authOk_accounts {ent : Cent} {ns : NsList}
    (howner : ∀ item, ns.items.head? = some item → item.owner.isSome) :
    Accounts (callLedger pol enough args.hops) 0 (authOk cfg args q st ent ns) authOwn
      (AuthPost pol enough args.name args.hops) := by
  rw [authOk]
  split_ifs
  · exact accounts_pure rfl noServ_ok
  · exact accounts_pure rfl noServ_ok
  · exact accounts_pure rfl noServ_ok
  · cases hhops : args.hops with
    | zero => exact accounts_pure rfl noServ_ok
    | succ hops =>
        dsimp only
        rw [← hhops]
        have hempty : Askable pol args.name noServ.items := by
          intro st h
          cases h
        refine (addServers_accounts (by omega) (.inr (.inr howner)) hempty).bind ?_
        rintro (_ | serv) hserv
        · exact accounts_pure rfl hserv
        · refine accounts_pure rfl ⟨fun st hst => (hserv st hst).1,
            fun st hst => (hserv st hst).2, ?_⟩
          exact fun _ => by omega

end AuthOk

section RecursiveQuery

variable {cfg : ResolverConfig} {pol : ResolverPolicy cfg} {enough : Prop} {args : ResolveArgs}
  {rounds : Nat} {q : List QueryServ}

/-- The calls in the loops do what their ledger says. -/
theorem askWith_implements {α : Type} (op : Joined NetOp AskOp α) :
    Implements (askLedger pol enough args.name args.hops) (callLedger pol enough args.hops) op
      (askWith cfg args op) := by
  rcases op with op | op
  · exact implements_ask (fun h => h) rfl rfl (fun _ => rfl) fun _ h => h
  · cases op with
    | exec st cSoa =>
        exact implements_of_accounts fun h => accounts_apart (pExecQuery_accounts h.1 h.2)
    | authOk q ent st ns =>
        refine implements_of_accounts fun h => (authOk_accounts h.2).weaken fun r hr => ?_
        cases r with
        | failed => exact ⟨rfl, hr⟩
        | verdict ok serv => exact ⟨rfl, hr⟩

theorem freeEnt_accounts {ent : Option Ent} :
    Accounts (netLedger pol.toCachePolicy enough) (ownOpt ent) (freeEnt ent) (fun _ => 0)
      fun _ => True := by
  cases ent with
  | none => exact accounts_pure rfl trivial
  | some ent => exact accounts_free (F := 0) (add_zero _).symm (accounts_pure rfl trivial)

theorem afterAuthority_accounts {entsave : Option Ent} {saveNs saveSoa : UInt8} {r : ResolveResult}
    (hr : ResolveOk pol r) (hsave : ∀ ent, entsave = some ent → pol.good ent.val) :
    Accounts (callLedger pol enough args.hops) (resolveOwn r + ownOpt entsave)
      (afterAuthority entsave saveNs saveSoa r) resolveOwn (ResolveOk pol) := by
  unfold afterAuthority
  dsimp only
  split_ifs
  · refine (accounts_apart freeEnt_accounts).bind_part (add_comm _ _) fun _ _ => ?_
    refine accounts_pure ?_ ⟨?_, ?_⟩
    · rw [zero_add, resolveOwn, resolveOwn]
      cases r.ent <;> rfl
    · rw [Option.isSome_map]
      exact hr.ent
    · rintro _ h
      obtain ⟨ent, hent, rfl⟩ := Option.map_eq_some_iff.mp h
      exact pol.refs saveNs saveSoa (hr.good ent hent)
  · refine (accounts_apart freeEnt_accounts).bind_part (add_comm _ _) fun _ _ => ?_
    exact accounts_pure (zero_add _) ⟨hr.ent, hr.good⟩
  · cases entsave with
    | none => exact accounts_pure (add_zero _) hr
    | some ent =>
        refine (accounts_apart freeEnt_accounts).bind_part rfl fun _ _ => ?_
        refine accounts_pure (zero_add _) ⟨rfl, ?_⟩
        rintro _ ⟨⟩
        exact hsave ent rfl

theorem askAuthority_accounts {found : Found} {qse : QueryServ} {cSoa : Option UInt8}
    (hfound : FoundOk pol args.name args.hops found) (hserv : found.serv.items ≠ []) :
    Accounts (callLedger pol enough args.hops) found.ent.own (askAuthority args q found qse cSoa)
      resolveOwn (ResolveOk pol) := by
  have hhops := hfound.serv.hops hserv
  have hargs : ArgsOk pol { args with
      q := some found.serv.items
      hops := args.hops - 1
      qslist := q :: args.qslist } := by
    rintro _ ⟨⟩ st hst
    exact ⟨hfound.serv.initial st hst, hfound.serv.fine st hst⟩
  rw [askAuthority]
  dsimp only
  split_ifs
  · refine accounts_op_time fun now => ?_
    refine accounts_recurse hargs (Nat.sub_lt hhops Nat.one_pos) fun r hr => ?_
    refine afterAuthority_accounts hr ?_
    rintro _ ⟨⟩
    exact hfound.good
  · refine accounts_op_free (F := 0) (add_zero _).symm ?_
    refine accounts_op_time fun now => ?_
    refine accounts_recurse hargs (Nat.sub_lt hhops Nat.one_pos) fun r hr => ?_
    refine afterAuthority_accounts hr ?_
    rintro _ ⟨⟩

/-- After the servers were asked nothing is left but the entry. -/
theorem pRecursiveQuery_accounts (hq : Askable pol args.name q) :
    Accounts (callLedger pol enough args.hops) 0 (pRecursiveQuery cfg rounds args q)
      (fun r => resolveOwn r.1) (fun r => ResolveOk pol r.1) := by
  have hask : Accounts (callLedger pol enough args.hops) 0
      ((askServers cfg rounds q args.cSoa).inline (askWith cfg args)) askedOwn
      (AskedOk pol args.name args.hops) :=
    Accounts.inline (fun _ h => h) (fun op => askWith_implements op)
      (askServers_accounts (fun st hst => (hq st hst).1) fun st hst => (hq st hst).2)
  rw [pRecursiveQuery]
  refine hask.bind ?_
  rintro ⟨q', soa, outcome⟩ hasked
  cases outcome with
  | error rv =>
      refine accounts_pure rfl ⟨?_, ?_⟩
      · have hrv : rv.answered = false := hasked
        change false = _
        split_ifs
        · rfl
        · exact hrv.symm
      · intro ent h
        cases h
  | ok found =>
      obtain ⟨found, i⟩ := found
      obtain ⟨hfound, hi⟩ : FoundOk pol args.name args.hops found ∧ i < q'.length := hasked
      dsimp only
      rw [List.getElem?_eq_getElem hi]
      dsimp only
      have hown : askedOwn ⟨q', soa, .ok (found, i)⟩ =
          found.ent.own + (memOf found.serv.block + memOf found.ns.block) := by
        change found.own = _
        rw [Found.own, add_assoc]
      rw [hown]
      have hrest : ∀ r : ResolveResult, ResolveOk pol r → ∀ nocache : Bool,
          Accounts (callLedger pol enough args.hops)
            (resolveOwn r + (memOf found.serv.block + memOf found.ns.block))
            (do
              (freeBlock found.serv.block).beside
              (freeBlock found.ns.block).beside
              pure (r, nocache)) (fun r => resolveOwn r.1) (fun r => ResolveOk pol r.1) := by
        intro r hr nocache
        refine (accounts_apart freeBlock_accounts).bind_part
          (F := resolveOwn r + memOf found.ns.block)
          (by abel) fun _ _ => ?_
        refine (accounts_apart freeBlock_accounts).bind_part (F := resolveOwn r)
          (by abel) fun _ _ => ?_
        exact accounts_pure (zero_add _) hr
      split_ifs with hempty
      · refine hrest ⟨.rc rcOk, some found.ent, soa⟩ ⟨rfl, ?_⟩ _
        rintro _ ⟨⟩
        exact hfound.good
      · refine (askAuthority_accounts hfound ?_).bind_part rfl fun r hr => hrest r hr _
        rintro h
        rw [h] at hempty
        exact hempty rfl

end RecursiveQuery

end TorAndroid.Dns.Resolver
