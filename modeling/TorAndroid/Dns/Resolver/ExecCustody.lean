import TorAndroid.Dns.Resolver.CachedResolve
import TorAndroid.Dns.Resolver.QueryCustody

namespace TorAndroid.Dns.Resolver

open TorAndroid.Lib.Interaction TorAndroid.Lib.Ownership

/-- An answer has an entry exactly if it is a success, and name servers only then. -/
structure Consistent (a : Answer) : Prop where
  ent : a.ent.isSome ↔ a.rv = rcOk
  ns : a.ent = none → a.ns = []
  rv : a.rv = rcOk ∨ a.rv = rcServfail ∨ a.rv = rcNameerr

section Replies

variable {cfg : QueryConfig} {st : QueryStat} {name : Name} {thint : Nat} {queryts : Int}

theorem consistent_servfail : Consistent (fail st [] rcServfail) := by
  refine ⟨⟨?_, ?_⟩, fun _ => rfl, .inr (.inl rfl)⟩
  · intro h
    cases h
  · intro h
    cases h

theorem consistent_cleanupReturnOk (ns : List NsItem) (rejectAns negAns : Bool) (numNs : Nat)
    (secs : Sections) (ent : Cent) :
    Consistent (cleanupReturnOk st ns rejectAns negAns numNs secs ent) := by
  rw [cleanupReturnOk]
  split_ifs
  · exact consistent_servfail
  · exact ⟨⟨fun _ => rfl, fun _ => rfl⟩, fun h => (Option.some_ne_none _ h).elim, .inl rfl⟩

theorem consistent_nameErrorAnswer (rejectAns : Bool) (secs : Sections) (ent : Cent) :
    Consistent (nameErrorAnswer cfg st [] name queryts rejectAns secs ent) := by
  rw [nameErrorAnswer]
  cases nameErrorEntry cfg st name queryts secs.auth ent with
  | none =>
      refine ⟨⟨?_, ?_⟩, fun _ => rfl, .inr (.inr rfl)⟩
      · intro h
        cases h
      · intro h
        cases h
  | some neg => exact consistent_cleanupReturnOk ..

theorem consistent_useSections (flags : CFlags) (aa : Bool) (rcode : Nat) (first : Cent)
    (secs : Sections) :
    Consistent (useSections cfg st [] name thint flags aa queryts rcode first secs) := by
  simp only [useSections]
  split_ifs
  all_goals
    first
    | exact consistent_nameErrorAnswer ..
    | exact consistent_cleanupReturnOk ..
    | exact consistent_servfail

theorem consistent_useReply : Consistent (useReply cfg st [] name thint queryts) := by
  rw [useReply]
  cases checkQuestion st.recvbuf name (st.qtype thint) with
  | none => exact consistent_servfail
  | some pos =>
      simp only
      rcases readSections cfg.sizes st.recvbuf pos _ queryts _ with ⟨secs, e | pos'⟩
      · cases e with
        | format => exact consistent_servfail
        | trunc =>
            simp only
            by_cases htc : hdrTc st.recvbuf = true
            · rw [if_pos htc]
              exact consistent_useSections ..
            · rw [if_neg htc]
              exact consistent_servfail
      · exact consistent_useSections ..

theorem sameServer_useReply : SameServer st (useReply cfg st [] name thint queryts).st := by
  have hused := useReply_used cfg st [] name thint queryts
  generalize useReply cfg st [] name thint queryts = answer at hused
  cases hused with
  | failed hst => exact hst
  | sections hst =>
      rw [useSections_st]
      exact hst

/-- The first name server of an answer comes with its domain. -/
theorem useReply_owner {item : NsItem}
    (h : (useReply cfg st [] name thint queryts).ns.head? = some item) : item.owner.isSome := by
  rcases (useReply_used cfg st [] name thint queryts).barred with ⟨-, hns⟩ | ⟨hbarred, -⟩
  · rw [hns] at h
    cases h
  · rcases hbarred.servers with hns | hns
    · rw [hns] at h
      cases h
    · obtain ⟨more, howners, hmore⟩ := hns.owners
      generalize (useReply cfg st [] name thint queryts).ns = items at h howners
      cases items with
      | nil => cases h
      | cons first items =>
          obtain rfl : first = item := by simpa using h
          have hfold : ∀ (l : List NsItem) (owners : List (Option Name)),
              owners <+: l.foldl (fun owners item =>
                owners ++ [item.owner.or owners.getLast?.join]) owners := by
            intro l
            induction l with
            | nil => exact fun owners => List.prefix_refl _
            | cons x l ih => exact fun owners => (List.prefix_append _ _).trans (ih _)
          have hfirst : first.owner ∈ more := by
            have hpre := hfold items [first.owner]
            have hall : nsOwners (first :: items) = items.foldl (fun owners item =>
                owners ++ [item.owner.or owners.getLast?.join]) [first.owner] := by
              simp [nsOwners]
            rw [← hall, howners] at hpre
            exact hpre.subset (List.mem_singleton_self _)
          obtain ⟨cent, -, hcent⟩ := hmore _ hfirst
          rw [hcent]
          rfl

end Replies

/-- What is claimed of the entries that the resolver gets and hands on. The servers that a name is
asked from are `fine` for it. -/
structure ResolverPolicy (cfg : ResolverConfig) extends CachePolicy where
  fine : Name → QueryStat → Prop
  same : ∀ {name : Name} {st st' : QueryStat}, SameServer st st' → fine name st → fine name st'
  added : ∀ {name : Name} {thint : Nat} {st : QueryStat} {queryts : Int} {cent : Cent},
    fine name st → cent ∈ (useReply cfg.toQueryConfig st [] name thint queryts).added →
      good cent ∧ allowed st cent
  answer : ∀ {name : Name} {thint : Nat} {st : QueryStat} {queryts : Int} {cent : Cent},
    fine name st → (useReply cfg.toQueryConfig st [] name thint queryts).ent = some cent → good cent
  nocache : ∀ {cent : Cent}, good cent → good (markNocache cent)
  refs : ∀ {cent : Cent} (saveNs saveSoa : UInt8), good cent → good (raiseRefs cent saveNs saveSoa)
  configured : ∀ (name : Name) (sp : ServParm) (addr : InAddr),
    fine name (newQserv cfg.queryMethod (configuredServ sp addr)).toQueryStat
  cached : ∀ (name : Name) (sp : ServParm) (topdomain : Name) (addr : InAddr),
    name.Within topdomain →
      fine name (newQserv cfg.queryMethod (cachedServ cfg sp topdomain addr)).toQueryStat
  delegated : ∀ (name : Name) (st : QueryServ) (nsdomain : Name) (addr : InAddr),
    (cfg.paranoid = true → name.Within nsdomain) →
      fine name (newQserv cfg.queryMethod (delegatedServ cfg st (some nsdomain) addr)).toQueryStat

section Exec

variable {cfg : ResolverConfig} {pol : ResolverPolicy cfg} {enough : Prop} {name : Name}
  {thint : Nat} {cSoa : Option UInt8} {st : QueryServ}

/-- What a call of `p_exec_query` holds in the end. -/
def execOwn (r : ExecResult) : Multiset Handle :=
  r.st.own + ownOpt r.ent + memOf r.ns.block

/-- What a call of `p_exec_query` leaves behind. -/
structure ExecPost (pol : ResolverPolicy cfg) (st : QueryServ) (r : ExecResult) : Prop where
  follows : Follows st r.st
  waiting : r.rv = .again → r.st.state.waiting = true
  done : ∀ code, r.rv = .rc code → r.st.state = .done
  ent : r.ent.isSome ↔ r.rv = .rc rcOk
  code : r.rv ≠ .rc rcCached ∧ r.rv ≠ .rc rcStale
  ns : r.ent = none → r.ns.block = none
  good : ∀ ent, r.ent = some ent → pol.good ent.val
  owner : ∀ item, r.ns.items.head? = some item → item.owner.isSome

theorem ExecPost.of_follows {st' : QueryServ} {r : ExecResult} (hpost : ExecPost pol st' r)
    (h : Follows st st') : ExecPost pol st r :=
  { hpost with follows := h.trans hpost.follows }

/-- A failed call. -/
theorem execPost_failed {code : Nat} {st' : QueryServ} (h : Follows st st')
    (hdone : st'.state = .done) (hok : code ≠ rcOk) (hcached : code ≠ rcCached)
    (hstale : code ≠ rcStale) : ExecPost pol st (execFailed cSoa (.rc code) st') where
  follows := h
  waiting := fun h => by cases h
  done := fun _ _ => hdone
  ent := by
    constructor
    · intro h
      cases h
    · intro h
      exact absurd (Rv.rc.inj h) hok
  code := ⟨fun h => hcached (Rv.rc.inj h), fun h => hstale (Rv.rc.inj h)⟩
  ns := fun _ => rfl
  good := fun _ h => by cases h
  owner := fun _ h => by cases h

theorem execOwn_failed {rv : Rv} {st' : QueryServ} (hdone : st'.state = .done) :
    execOwn (execFailed cSoa rv st') = 0 := by
  simp [execOwn, execFailed, QueryServ.own, hdone, ownOpt, noNs]

theorem hdrRcode_lt (msg : List UInt8) : hdrRcode msg < 16 := by
  rw [hdrRcode]
  exact Nat.mod_lt _ (by decide)

theorem discardReply_accounts {code : Nat} (hok : code ≠ rcOk) (hcode : code < 16) :
    Accounts (netLedger pol.toCachePolicy enough) st.buffers (discardReply cSoa st code) execOwn
      (ExecPost pol st) := by
  refine accounts_freeBlock rfl (accounts_freeBlock (F := 0) (add_zero _).symm ?_)
  refine accounts_pure (execOwn_failed rfl).symm ?_
  refine execPost_failed ⟨.refl _, .inl rfl, rfl⟩ rfl hok ?_ ?_ <;>
    simp only [rcCached, rcStale] <;> omega

theorem queryFailed_accounts {code : Nat} (hcode : code = rcServfail ∨ code = rcFatalerr) :
    Accounts (netLedger pol.toCachePolicy enough) st.buffers (queryFailed cSoa st code) execOwn
      (ExecPost pol st) := by
  have hpost : ∀ st' : QueryServ, Follows st st' → st'.state = .done →
      ExecPost pol st (execFailed cSoa (.rc code) st') := by
    intro st' hst hdone
    apply execPost_failed hst hdone <;> rcases hcode with rfl | rfl <;> decide
  refine accounts_freeBlock rfl (accounts_freeBlock (F := 0) (add_zero _).symm ?_)
  dsimp only
  split_ifs
  · exact accounts_sched (accounts_pure (execOwn_failed rfl).symm
      (hpost _ ⟨.refl _, .inl rfl, rfl⟩ rfl))
  · exact accounts_pure (execOwn_failed rfl).symm (hpost _ ⟨.refl _, .inl rfl, rfl⟩ rfl)

theorem addAll_accounts {β : Type} {stat : QueryStat} {cents : List Cent} {X : Multiset Handle}
    {f : Unit → Prog NetOp β} {own : β → Multiset Handle} {P : β → Prop}
    (hcents : ∀ cent ∈ cents, pol.good cent ∧ pol.allowed stat cent)
    (hf : Accounts (netLedger pol.toCachePolicy enough) X (f ()) own P) :
    Accounts (netLedger pol.toCachePolicy enough) X (addAll stat cents >>= f) own P := by
  induction cents with
  | nil => exact hf
  | cons cent cents ih =>
      rw [List.forall_mem_cons] at hcents
      rw [addAll, Prog.bind_assoc]
      exact accounts_touch hcents.1 (Multiset.zero_subset _) rfl (fun _ => rfl) fun _ _ =>
        ih hcents.2

/-- The name servers of an answer are put into memory. -/
theorem accounts_keepNs {β : Type} {ns : List NsItem} {X : Multiset Handle}
    {f : Option NsList → Prog NetOp β} {own : β → Multiset Handle} {P : β → Prop}
    (hnone : Accounts (netLedger pol.toCachePolicy enough) X (f none) own P)
    (hf : ∀ list : NsList, list.items = ns → (ns = [] → list.block = none) →
      Accounts (netLedger pol.toCachePolicy enough) (memOf list.block + X) (f (some list)) own P) :
    Accounts (netLedger pol.toCachePolicy enough) X
      (keepNs ns >>= f) own P := by
  cases ns with
  | nil =>
      have h := hf noNs rfl fun _ => rfl
      rw [show memOf noNs.block = 0 from rfl, zero_add] at h
      exact h
  | cons item ns =>
      refine accounts_malloc fun block => ?_
      cases block with
      | none => rwa [memOf_none, zero_add]
      | some block => exact hf ⟨item :: ns, some block⟩ rfl (by simp)

/-- The entry of an answer is put into memory. -/
theorem accounts_keepEnt {β : Type} {ent : Option Cent} {X : Multiset Handle}
    {f : Option (Option Ent) → Prog NetOp β} {own : β → Multiset Handle} {P : β → Prop}
    (hnone : Accounts (netLedger pol.toCachePolicy enough) X (f none) own P)
    (hf : ∀ held : Option Ent, held.map Held.val = ent →
      Accounts (netLedger pol.toCachePolicy enough) (ownOpt held + X) (f (some held)) own P) :
    Accounts (netLedger pol.toCachePolicy enough) X (keepEnt ent >>= f) own P := by
  cases ent with
  | none =>
      have h := hf none rfl
      rw [show ownOpt (none : Option Ent) = 0 from rfl, zero_add] at h
      exact h
  | some cent =>
      refine accounts_malloc fun block => ?_
      cases block with
      | none => rwa [memOf_none, zero_add]
      | some block => exact hf (some ⟨block, cent⟩) rfl

/-- Without memory for what is read from a reply nothing is left of it. -/
theorem outOfMemory_accounts {st' : QueryServ} (h : Follows st st') :
    Accounts (netLedger pol.toCachePolicy enough) (memOf st'.recvAt) (outOfMemory cSoa st') execOwn
      (ExecPost pol st) := by
  refine accounts_freeBlock (F := 0) (add_zero _).symm (accounts_pure (execOwn_failed rfl).symm ?_)
  exact execPost_failed ⟨h.server, h.qm, h.addr⟩ rfl (by decide) (by decide) (by decide)

theorem keepAnswer_accounts {answer : Answer} (hcons : Consistent answer)
    (hsame : SameServer st.toQueryStat answer.st)
    (howner : ∀ item, answer.ns.head? = some item → item.owner.isSome)
    (hadded : ∀ cent ∈ answer.added, pol.good cent ∧ pol.allowed st.toQueryStat cent)
    (hanswer : ∀ cent, answer.ent = some cent → pol.good cent) :
    Accounts (netLedger pol.toCachePolicy enough) (memOf st.recvAt) (keepAnswer cSoa st answer)
      execOwn
      (ExecPost pol st) := by
  have hout : Accounts (netLedger pol.toCachePolicy enough) (memOf st.recvAt)
      (outOfMemory cSoa { st with toQueryStat := answer.st }) execOwn (ExecPost pol st) :=
    outOfMemory_accounts ⟨hsame, .inl rfl, rfl⟩
  refine accounts_keepNs hout fun ns hns hblock => ?_
  refine accounts_keepEnt (accounts_freeBlock rfl hout) fun ent hent => ?_
  refine addAll_accounts hadded ?_
  refine accounts_freeBlock (F := ownOpt ent + memOf ns.block) (by abel) ?_
  refine accounts_pure (by simp [execOwn, QueryServ.own]) ?_
  have hsome : ent.isSome = answer.ent.isSome := by rw [← hent, Option.isSome_map]
  constructor
  · exact ⟨hsame, .inl rfl, rfl⟩
  · intro h
    cases h
  · intro _ _
    rfl
  · rw [hsome, hcons.ent]
    exact ⟨fun h => by rw [h], fun h => Rv.rc.inj h⟩
  · have hrv : answer.rv ≠ rcCached ∧ answer.rv ≠ rcStale := by
      rcases hcons.rv with h | h | h <;> rw [h] <;> decide
    exact ⟨fun h => hrv.1 (Rv.rc.inj h), fun h => hrv.2 (Rv.rc.inj h)⟩
  · intro h
    have hnone : ent = none := h
    refine hblock (hcons.ns ?_)
    rw [← hent, hnone]
    rfl
  · rintro held rfl
    exact hanswer held.val (by rw [← hent]; rfl)
  · rintro item hitem
    exact howner item (hns ▸ hitem)

theorem useAnswer_accounts (hfine : pol.fine name st.toQueryStat) :
    Accounts (netLedger pol.toCachePolicy enough) st.buffers (useAnswer cfg name thint cSoa st)
      execOwn
      (ExecPost pol st) := by
  refine accounts_freeBlock rfl (accounts_time fun queryts => ?_)
  have hkeep : Accounts (netLedger pol.toCachePolicy enough) (memOf st.recvAt)
      (keepAnswer cSoa st (useReply cfg.toQueryConfig st.toQueryStat [] name thint queryts)) execOwn
      (ExecPost pol st) :=
    keepAnswer_accounts consistent_useReply sameServer_useReply (fun _ h => useReply_owner h)
      (fun _ hmem => pol.added hfine hmem) fun _ h => pol.answer hfine h
  dsimp only
  split_ifs
  · exact hkeep
  · refine accounts_touch trivial (Multiset.zero_subset _) rfl (fun _ => rfl) fun memory _ => ?_
    cases memory with
    | true => exact hkeep
    | false => exact outOfMemory_accounts ⟨⟨rfl, rfl, rfl, rfl, rfl⟩, .inl rfl, rfl⟩

/-- A reply is handled, and the query is sent again if there is reason to. -/
theorem execReply_accounts {sendAgain : QueryServ → Prog NetOp ExecResult}
    (hfine : pol.fine name st.toQueryStat)
    (hagain : ∀ st', Follows st st' → st'.retries < st.retries → st'.state.active = true →
      pol.fine name st'.toQueryStat → st'.own = st.buffers →
        Accounts (netLedger pol.toCachePolicy enough) st'.own (sendAgain st') execOwn
          (ExecPost pol st')) :
    Accounts (netLedger pol.toCachePolicy enough) st.buffers
      (execReply cfg name thint cSoa sendAgain st) execOwn (ExecPost pol st) := by
  have hjudged : ∀ st' : QueryServ, st'.toQueryStat = st.toQueryStat → st'.qm = st.qm →
      st'.addr = st.addr → st'.buffers = st.buffers →
      Accounts (netLedger pol.toCachePolicy enough) st.buffers
        (useRcode cfg name thint cSoa sendAgain st') execOwn (ExecPost pol st) := by
    intro st' hstat hqm haddr hbuf
    rw [useRcode]
    have hfollows : Follows st st' := ⟨hstat ▸ .refl _, .inl hqm, haddr⟩
    have hjudge := judgeRcode_same st'.toQueryStat 0
    cases hverdict : judgeRcode st'.toQueryStat 0 with
    | use stat =>
        rw [hverdict] at hjudge
        have hserver : SameServer st.toQueryStat stat := hstat ▸ hjudge.1
        have huse := @useAnswer_accounts cfg pol enough name thint cSoa
          { st' with toQueryStat := stat } (pol.same hserver hfine)
        rw [← hbuf]
        exact huse.weaken fun r hr => ⟨rfl, hr.of_follows ⟨hserver, .inl hqm, haddr⟩⟩
    | discard =>
        rw [hverdict] at hjudge
        rw [← hbuf]
        exact (discardReply_accounts hjudge (hdrRcode_lt _)).weaken fun r hr =>
          ⟨rfl, hr.of_follows hfollows⟩
    | requery stat =>
        rw [hverdict] at hjudge
        have hretries := judgeRcode_retries hverdict
        refine accounts_rand fun rid => ?_
        have hserver : SameServer st.toQueryStat { stat with myrid := rid } :=
          (hstat ▸ hjudge).trans (sameServer_of_eq rfl)
        have hfollows' : ∀ state, Follows st
            { st' with toQueryStat := { stat with myrid := rid }, state := state } :=
          fun state => ⟨hserver, .inl hqm, haddr⟩
        have hless : ({ stat with myrid := rid } : QueryStat).retries < st.retries := by
          have heq : ({ stat with myrid := rid } : QueryStat).retries = stat.retries := rfl
          rw [heq, ← hstat]
          exact Nat.lt_of_succ_le (le_of_eq hretries)
        have hfine' := pol.same hserver hfine
        simp only [QueryServ.firstState]
        split_ifs
        · have h := hagain _ (hfollows' .udpInitial) hless rfl hfine' hbuf
          rw [← hbuf]
          exact h.weaken fun r hr => ⟨rfl, hr.of_follows (hfollows' .udpInitial)⟩
        · have h := hagain _ (hfollows' .tcpInitial) hless rfl hfine' hbuf
          rw [← hbuf]
          exact h.weaken fun r hr => ⟨rfl, hr.of_follows (hfollows' .tcpInitial)⟩
  rw [execReply]
  split_ifs
  · exact hjudged st rfl rfl rfl rfl
  · exact accounts_sched (hjudged _ rfl rfl rfl rfl)
  · exact discardReply_accounts (by decide) (by decide)

/-- A call after which the query waits. -/
theorem execPost_again {st' : QueryServ} (h : Follows st st')
    (hwaiting : st'.state.waiting = true) :
    ExecPost pol st (execFailed cSoa .again st') where
  follows := h
  waiting := fun _ => hwaiting
  done := fun _ h => by cases h
  ent := by
    constructor <;> intro h <;> cases h
  code := ⟨fun h => (by cases h), fun h => (by cases h)⟩
  ns := fun _ => rfl
  good := fun _ h => by cases h
  owner := fun _ h => by cases h

/-- What is done with the result of `p_query_sm`. -/
theorem afterSm_accounts {sendAgain : QueryServ → Prog NetOp ExecResult} {r : Rv × QueryServ}
    (hpost : SmPost st r) (hfine : pol.fine name st.toQueryStat)
    (hagain : ∀ st', st'.retries < st.retries → st'.state.active = true →
      pol.fine name st'.toQueryStat →
        Accounts (netLedger pol.toCachePolicy enough) st'.own (sendAgain st') execOwn
          (ExecPost pol st')) :
    Accounts (netLedger pol.toCachePolicy enough) (smOwn r)
      (match r.1 with
      | .again => pure (execFailed cSoa .again r.2)
      | .rc code =>
          if code = rcOk then execReply cfg name thint cSoa sendAgain r.2
          else queryFailed cSoa r.2 code)
      execOwn (ExecPost pol st) := by
  obtain ⟨rv, st'⟩ := r
  cases rv with
  | again =>
      refine accounts_pure ?_ (execPost_again hpost.follows (hpost.waiting rfl))
      simp [smOwn, execOwn, execFailed, ownOpt, noNs]
  | rc code =>
      dsimp only
      have hfine' := pol.same hpost.follows.server hfine
      split_ifs with hok
      · have hreply := @execReply_accounts cfg pol enough name thint cSoa st' sendAgain hfine'
          fun st'' _ hless hactive hfine'' _ => hagain st'' (hpost.retries ▸ hless) hactive hfine''
        exact hreply.weaken fun r hr => ⟨rfl, hr.of_follows hpost.follows⟩
      · have hcode : code = rcServfail ∨ code = rcFatalerr :=
          (hpost.code code rfl).resolve_left hok
        exact (queryFailed_accounts hcode).weaken fun r hr => ⟨rfl, hr.of_follows hpost.follows⟩

theorem execLoop_accounts {retries : Nat} (hactive : st.state.active = true)
    (hretries : st.retries ≤ retries) (hfine : pol.fine name st.toQueryStat) :
    Accounts (netLedger pol.toCachePolicy enough) st.own
      (execLoop cfg name thint cSoa retries st) execOwn (ExecPost pol st) := by
  induction retries generalizing st with
  | zero =>
      rw [execLoop]
      refine (pQuerySm_accounts hactive).bind ?_
      rintro ⟨rv, st'⟩ hpost
      exact afterSm_accounts hpost hfine fun st'' hless => absurd hless (by omega)
  | succ retries ih =>
      rw [execLoop]
      refine (pQuerySm_accounts hactive).bind ?_
      rintro ⟨rv, st'⟩ hpost
      exact afterSm_accounts hpost hfine fun st'' hless hactive' hfine' =>
        ih hactive' (by omega) hfine'

/-- The states in which `p_exec_query` is called. -/
def QState.callable : QState → Bool
  | .canceled => false
  | _ => true

theorem pExecQuery_accounts (hcall : st.state.callable = true)
    (hfine : pol.fine name st.toQueryStat) :
    Accounts (netLedger pol.toCachePolicy enough) st.own (pExecQuery cfg name thint cSoa st) execOwn
      (ExecPost pol st) := by
  have hsame : SameServer st.toQueryStat st.toQueryStat := .refl _
  rw [pExecQuery]
  cases hstate : st.state with
  | initial =>
      rw [QueryServ.own, hstate]
      refine accounts_malloc fun block => ?_
      cases block with
      | none =>
          exact accounts_pure (by rw [execOwn_failed rfl]; rfl)
            (execPost_failed ⟨hsame, .inl rfl, rfl⟩ rfl (by decide) (by decide) (by decide))
      | some block =>
          refine accounts_rand fun rid => ?_
          have hinitial : SameServer st.toQueryStat (st.toQueryStat.initial rid) :=
            ⟨rfl, rfl, rfl, rfl, rfl⟩
          have hloop : ∀ state : QState, state = .udpInitial ∨ state = .tcpInitial →
              Accounts (netLedger pol.toCachePolicy enough) (memOf (some block) + 0)
                (execLoop cfg name thint cSoa (st.toQueryStat.initial rid).retries
                  { st with
                    toQueryStat := st.toQueryStat.initial rid
                    msg := some block
                    recvAt := none
                    state := state }) execOwn (ExecPost pol st) := by
            intro state hfirst
            have h := @execLoop_accounts cfg pol enough name thint cSoa
              { st with
                toQueryStat := st.toQueryStat.initial rid
                msg := some block
                recvAt := none
                state := state } (st.toQueryStat.initial rid).retries
              (by rcases hfirst with rfl | rfl <;> rfl) le_rfl (pol.same hinitial hfine)
            rw [show memOf (some block) + 0 = QueryServ.own { st with
              toQueryStat := st.toQueryStat.initial rid
              msg := some block
              recvAt := none
              state := state } by rcases hfirst with rfl | rfl <;> rfl]
            exact h.weaken fun r hr => ⟨rfl, hr.of_follows ⟨hinitial, .inl rfl, rfl⟩⟩
          dsimp only [QueryServ.firstState]
          split_ifs
          · exact hloop _ (.inl rfl)
          · exact hloop _ (.inr rfl)
  | done =>
      rw [QueryServ.own, hstate]
      exact accounts_pure (execOwn_failed rfl).symm
        (execPost_failed ⟨hsame, .inl rfl, rfl⟩ rfl (by decide) (by decide) (by decide))
  | canceled =>
      rw [hstate] at hcall
      cases hcall
  | tcpInitial | tcpWrite | tcpRead | udpInitial | udpReceive =>
      exact execLoop_accounts (by rw [hstate]; rfl) le_rfl hfine

/-- After `p_cancel_query` a query holds nothing. -/
theorem pCancelQuery_accounts :
    Accounts (netLedger pol.toCachePolicy enough) st.own (pCancelQuery st) (fun _ => 0)
      (fun st' => st'.own = 0 ∧ st'.addr = st.addr) := by
  rw [pCancelQuery, QueryServ.own]
  cases hstate : st.state with
  | initial | done => exact accounts_pure rfl ⟨by rw [QueryServ.own, hstate], rfl⟩
  | canceled => exact accounts_pure rfl ⟨rfl, rfl⟩
  | tcpInitial | udpInitial =>
      exact accounts_freeBlock (add_comm _ _) (accounts_freeBlock (F := 0) (add_zero _).symm
        (accounts_pure rfl ⟨rfl, rfl⟩))
  | tcpWrite | tcpRead | udpReceive =>
      exact accounts_close rfl (accounts_freeBlock (add_comm _ _) (accounts_freeBlock (F := 0)
        (add_zero _).symm (accounts_pure rfl ⟨rfl, rfl⟩)))

end Exec

end TorAndroid.Dns.Resolver
