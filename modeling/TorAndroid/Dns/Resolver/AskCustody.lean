import TorAndroid.Dns.Resolver.ExecCustody

namespace TorAndroid.Dns.Resolver

open TorAndroid.Lib.Interaction TorAndroid.Lib.Ownership

theorem exists_sum_set {q : List QueryServ} {i : Nat} {st : QueryServ} (h : q[i]? = some st) :
    ∃ R : Multiset Handle, (q.map QueryServ.own).sum = st.own + R ∧
      ∀ st', ((q.set i st').map QueryServ.own).sum = QueryServ.own st' + R := by
  induction q generalizing i with
  | nil => cases h
  | cons x q ih =>
      cases i with
      | zero =>
          obtain rfl : x = st := by simpa using h
          exact ⟨(q.map QueryServ.own).sum, by simp, fun st' => by simp⟩
      | succ i =>
          obtain ⟨R, hsum, hset⟩ := ih (by simpa using h)
          refine ⟨x.own + R, ?_, fun st' => ?_⟩
          · rw [List.map_cons, List.sum_cons, hsum, add_left_comm]
          · rw [List.set_cons_succ, List.map_cons, List.sum_cons, hset, add_left_comm]

def Found.own (found : Found) : Multiset Handle :=
  found.ent.own + memOf found.serv.block + memOf found.ns.block

def savedOwn (saved : Option Saved) : Multiset Handle :=
  saved.elim 0 fun saved => saved.found.own

/-- What the loops hold. -/
def Sched.own (s : Sched) : Multiset Handle :=
  (s.q.map QueryServ.own).sum + savedOwn s.saved

def Stop.own : Stop → Multiset Handle
  | .answer _ found => found.own
  | .code _ => 0
  | .noMemory ent ns => ent.own + memOf ns.block

/-- What is held after a part of the loops that may leave them. -/
def turnOwn (r : Sched × Option Stop) : Multiset Handle :=
  r.1.own + r.2.elim 0 Stop.own

section Asking

variable {cfg : ResolverConfig}

/-- The servers that an answer names can be asked. -/
structure ServsOk (pol : ResolverPolicy cfg) (name : Name) (hops : Nat)
    (serv : ServArray) : Prop where
  initial : ∀ st ∈ serv.items, st.state = .initial
  fine : ∀ st ∈ serv.items, pol.fine name st.toQueryStat
  hops : serv.items ≠ [] → 0 < hops

structure FoundOk (pol : ResolverPolicy cfg) (name : Name) (hops : Nat) (found : Found) : Prop where
  serv : ServsOk pol name hops found.serv
  good : pol.good found.ent.val

/-- The ledger of the operations in the loops, with `p_exec_query` and `auth_ok` among them. -/
def askLedger (pol : ResolverPolicy cfg) (enough : Prop) (name : Name) (hops : Nat) :
    Ledger (Joined NetOp AskOp) Handle where
  demand := fun {_} op =>
    match op with
    | .inl op => (netLedger pol.toCachePolicy enough).demand op
    | .inr (.exec st _) => st.state.callable = true ∧ pol.fine name st.toQueryStat
    | .inr (.authOk _ _ st ns) =>
        pol.fine name st.toQueryStat ∧ ∀ item, ns.items.head? = some item → item.owner.isSome
  uses := fun {_} op =>
    match op with
    | .inl op => (netLedger pol.toCachePolicy enough).uses op
    | .inr _ => 0
  takes := fun {_} op =>
    match op with
    | .inl op => (netLedger pol.toCachePolicy enough).takes op
    | .inr (.exec st _) => st.own
    | .inr (.authOk ..) => 0
  gives := fun {_} op b =>
    match op, b with
    | .inl op, b => (netLedger pol.toCachePolicy enough).gives op b
    | .inr (.exec _ _), r => execOwn r
    | .inr (.authOk ..), .verdict _ serv => memOf serv.block
    | .inr (.authOk ..), .failed => 0
  promise := fun {_} op b =>
    match op, b with
    | .inl op, b => (netLedger pol.toCachePolicy enough).promise op b
    | .inr (.exec st _), r => ExecPost pol st r
    | .inr (.authOk ..), .verdict _ serv => ServsOk pol name hops serv
    | .inr (.authOk ..), .failed => ¬enough
  lossy := (netLedger pol.toCachePolicy enough).lossy

variable {pol : ResolverPolicy cfg} {enough : Prop} {name : Name} {hops : Nat}

theorem accounts_beside {α : Type} {X : Multiset Handle} {p : Prog NetOp α}
    {own : α → Multiset Handle} {P : α → Prop}
    (hp : Accounts (netLedger pol.toCachePolicy enough) X p own P) :
    Accounts (askLedger pol enough name hops) X p.beside own P :=
  hp.beside (fun _ h => h) fun _ => implements_ask (fun h => h) rfl rfl (fun _ => rfl) fun _ h => h

theorem accounts_net_time {α : Type} {X : Multiset Handle} {f : Int → Asking α}
    {own : α → Multiset Handle} {P : α → Prop}
    (hf : ∀ now, Accounts (askLedger pol enough name hops) X (f now) own P) :
    Accounts (askLedger pol enough name hops) X (net .time >>= f) own P :=
  accounts_touch trivial (Multiset.zero_subset _) rfl (fun _ => rfl) fun now _ => hf now

theorem found_free_accounts {found : Found} :
    Accounts (netLedger pol.toCachePolicy enough) found.own found.free (fun _ => 0)
      fun _ => True := by
  refine accounts_free (F := memOf found.serv.block + memOf found.ns.block) ?_ ?_
  · rw [Found.own, Held.own, add_assoc]
  · refine accounts_freeBlock rfl ?_
    cases found.ns.block with
    | none => exact accounts_pure rfl trivial
    | some block => exact accounts_free (F := 0) (add_zero _).symm (accounts_pure rfl trivial)

/-- What is said of the answer that is saved after another one was found. -/
def SavedFrom (s : Sched) (i : Nat) (found : Found) (s' : Sched) : Prop :=
  ∃ saved, s' = { s with saved := some saved } ∧ (s.saved = some saved ∨
    (saved.found.ent = found.ent ∧ saved.found.serv = found.serv ∧ saved.qse = i))

/-- A better answer takes the place of the saved one. -/
theorem replaceSaved_accounts {s : Sched} {i qval : Nat} {found : Found} {X : Multiset Handle}
    (hX : X = found.own + (s.q.map QueryServ.own).sum) :
    Accounts (netLedger pol.toCachePolicy enough) X
      (if found.serv.items.isEmpty then do
        freeBlock found.ns.block
        pure { s with saved := some ⟨{ found with ns := noNs }, qval, i⟩ }
      else pure { s with saved := some ⟨found, qval, i⟩ }) Sched.own (SavedFrom s i found) := by
  split_ifs
  · refine accounts_freeBlock (F := found.ent.own + memOf found.serv.block +
      (s.q.map QueryServ.own).sum) (by rw [hX, Found.own]; abel) ?_
    refine accounts_pure ?_ ⟨_, rfl, .inr ⟨rfl, rfl, rfl⟩⟩
    simp only [Sched.own, savedOwn, Option.elim_some, Found.own, noNs, memOf_none]
    abel
  · refine accounts_pure ?_ ⟨_, rfl, .inr ⟨rfl, rfl, rfl⟩⟩
    rw [hX, Sched.own, add_comm]
    rfl

/-- An answer is saved if it is better than the one that was saved before. -/
theorem saveQueryResult_accounts {s : Sched} {i : Nat} {st : QueryServ} {found : Found}
    {authok : Bool} :
    Accounts (netLedger pol.toCachePolicy enough) (found.own + s.own)
      (saveQueryResult s i st found authok) Sched.own (SavedFrom s i found) := by
  have hown : s.own = (s.q.map QueryServ.own).sum + savedOwn s.saved := rfl
  rw [saveQueryResult, hown]
  cases hsaved : s.saved with
  | none => exact replaceSaved_accounts (congrArg _ (add_zero _))
  | some old =>
      dsimp only [Option.any_some, Option.elim_some]
      split
      · refine found_free_accounts.bind_part rfl fun _ _ => ?_
        refine accounts_pure ?_ ⟨old, by rw [← hsaved], .inl hsaved⟩
        rw [zero_add, hown, hsaved]
      · refine found_free_accounts.bind_part (F := found.own + (s.q.map QueryServ.own).sum)
          (by rw [savedOwn, Option.elim_some]; abel) fun _ _ => ?_
        rw [zero_add]
        exact replaceSaved_accounts rfl

/-- A return code with which there is an entry. -/
def Rv.answered : Rv → Bool
  | .again => false
  | .rc code => code = rcOk || code = rcCached || code = rcStale

/-- What is true of the saved answer. -/
def SavedOk (pol : ResolverPolicy cfg) (name : Name) (hops : Nat) (s : Sched) : Prop :=
  ∀ saved, s.saved = some saved → FoundOk pol name hops saved.found ∧ saved.qse < s.q.length

/-- The state of a query that was sent. -/
def QState.sent (state : QState) : Bool :=
  state.waiting || state = .done

/-- The loops are left with something of use. -/
def StopOk (pol : ResolverPolicy cfg) (name : Name) (hops n : Nat) : Stop → Prop
  | .answer i found => i < n ∧ FoundOk pol name hops found
  | .code code => (Rv.rc code).answered = false
  | .noMemory _ _ => True

/-- The query `i` was sent, and nothing was done to the others. -/
structure Tried (pol : ResolverPolicy cfg) (name : Name) (hops i : Nat) (s : Sched)
    (r : Sched × Option Stop) : Prop where
  length : r.1.q.length = s.q.length
  dc : r.1.dc = s.dc
  others : ∀ k, k ≠ i → r.1.q[k]? = s.q[k]?
  query : ∃ st, r.1.q[i]? = some st ∧ pol.fine name st.toQueryStat ∧ st.state.sent = true ∧
    (r.2.isSome → st.state = .done)
  saved : SavedOk pol name hops r.1
  rv : r.2 = none → r.1.saved = none → r.1.rv.answered = false
  stop : ∀ stop, r.2 = some stop → StopOk pol name hops s.q.length stop

/-- The query that is sent is replaced by what becomes of it. -/
theorem tried_of_set {s s' : Sched} {i : Nat} {st : QueryServ} {stop : Option Stop}
    (hi : i < s.q.length) (hq : s'.q = s.q.set i st) (hdc : s'.dc = s.dc)
    (hfine : pol.fine name st.toQueryStat) (hsent : st.state.sent = true)
    (hdone : stop.isSome → st.state = .done) (hsaved : SavedOk pol name hops s')
    (hrv : stop = none → s'.saved = none → s'.rv.answered = false)
    (hstop : ∀ t, stop = some t → StopOk pol name hops s.q.length t) :
    Tried pol name hops i s (s', stop) where
  length := by rw [hq, List.length_set]
  dc := hdc
  others := fun k hk => by rw [hq, List.getElem?_set_ne (Ne.symm hk)]
  query := ⟨st, by rw [hq, List.getElem?_set_self hi], hfine, hsent, hdone⟩
  saved := hsaved
  rv := hrv
  stop := hstop

theorem Tried.of_setQuery {s s' : Sched} {i : Nat} {st : QueryServ} {r : Sched × Option Stop}
    (h : Tried pol name hops i s' r) (hq : s'.q = s.q.set i st) (hdc : s'.dc = s.dc) :
    Tried pol name hops i s r where
  length := by rw [h.length, hq, List.length_set]
  dc := h.dc.trans hdc
  others := fun k hk => by rw [h.others k hk, hq, List.getElem?_set_ne (Ne.symm hk)]
  query := h.query
  saved := h.saved
  rv := h.rv
  stop := fun t ht => by
    have hok := h.stop t ht
    rwa [hq, List.length_set] at hok

theorem switchToTcp_fine {st : QueryServ} (h : pol.fine name st.toQueryStat) :
    pol.fine name (switchToTcp st).toQueryStat := by
  have hsame : SameServer st.toQueryStat (switchToTcp st).toQueryStat := ⟨rfl, rfl, rfl, rfl, rfl⟩
  exact pol.same hsame h

/-- A call without an answer leaves nothing but the query. -/
theorem ExecPost.without {st : QueryServ} {r : ExecResult} (h : ExecPost pol st r)
    (hent : r.ent = none) : execOwn r = r.st.own ∧ r.rv.answered = false := by
  refine ⟨by rw [execOwn, hent, h.ns hent]; simp [ownOpt], ?_⟩
  have hok : r.rv ≠ .rc rcOk := fun hrv => by
    have hsome := h.ent.mpr hrv
    rw [hent] at hsome
    cases hsome
  cases hrv : r.rv with
  | again => rfl
  | rc code =>
      rw [hrv] at hok
      have hcode := h.code
      rw [hrv] at hcode
      have h₁ : code ≠ rcOk := fun h => hok (by rw [h])
      have h₂ : code ≠ rcCached := fun h => hcode.1 (by rw [h])
      have h₃ : code ≠ rcStale := fun h => hcode.2 (by rw [h])
      simp [Rv.answered, h₁, h₂, h₃]

theorem SavedOk.set {s : Sched} {i : Nat} {st : QueryServ} {rv : Rv} {soa : Option UInt8}
    (h : SavedOk pol name hops s) :
    SavedOk pol name hops { s with q := s.q.set i st, rv := rv, cSoa := soa } := by
  intro saved hsaved
  rw [List.length_set]
  exact h saved hsaved

/-- What is saved once an answer of query `i` was judged. -/
theorem SavedOk.judged {s : Sched} {i : Nat} {found : Found} {saved : Saved}
    (h : SavedOk pol name hops s) (hi : i < s.q.length) (hfound : FoundOk pol name hops found)
    (hfrom : s.saved = some saved ∨
      (saved.found.ent = found.ent ∧ saved.found.serv = found.serv ∧ saved.qse = i)) :
    SavedOk pol name hops { s with saved := some saved } := by
  rintro _ ⟨⟩
  rcases hfrom with hold | ⟨hent, hserv, hqse⟩
  · exact h saved hold
  · exact ⟨⟨hserv ▸ hfound.1, hent ▸ hfound.2⟩, hqse ▸ hi⟩

/-- The switch to TCP of a query that is done neither takes nor leaves a socket. -/
theorem own_switchToTcp {s : Sched} {i : Nat} {st : QueryServ} (hq : s.q[i]? = some st)
    (hdone : st.state = .done) : (s.setQuery i (switchToTcp st)).own = s.own := by
  obtain ⟨R, hsum, hset⟩ := exists_sum_set hq
  rw [Sched.own, Sched.own, Sched.setQuery, hset, hsum, QueryServ.own, QueryServ.own, hdone]
  rfl

/-- UDP is left for TCP only if that was the method when the query was sent. -/
theorem ExecPost.udpTcp {st : QueryServ} {r : ExecResult} (h : ExecPost pol st r)
    (hqm : r.st.qm = .udpTcp) : st.qm = .udpTcp := by
  rcases h.follows.qm with hsame | ⟨-, hudp⟩
  · rw [← hsame, hqm]
  · rw [hqm] at hudp
    cases hudp

theorem tryServer_accounts {times i : Nat} {s : Sched} {st : QueryServ} (hq : s.q[i]? = some st)
    (hcall : st.state.callable = true) (hfine : pol.fine name st.toQueryStat) (htimes : 0 < times)
    (htwice : st.qm = .udpTcp → 1 < times)
    (hsaved : SavedOk pol name hops s) :
    Accounts (askLedger pol enough name hops) s.own (tryServer i times s) turnOwn
      (Tried pol name hops i s) := by
  induction times generalizing s st with
  | zero => exact absurd htimes (Nat.lt_irrefl 0)
  | succ times ih =>
      obtain ⟨R, hsum, hset⟩ := exists_sum_set hq
      have hi : i < s.q.length := (List.getElem?_eq_some_iff.mp hq).1
      have hown : s.own = st.own + (R + savedOwn s.saved) := by
        rw [Sched.own, hsum, add_assoc]
      have hown' : ∀ (st' : QueryServ) (rv : Rv) (soa : Option UInt8),
          Sched.own { s with q := s.q.set i st', rv := rv, cSoa := soa } =
            st'.own + (R + savedOwn s.saved) := by
        intro st' rv soa
        rw [Sched.own, hset, add_assoc]
      rw [tryServer, hq]
      refine accounts_ask_bind ⟨hcall, hfine⟩ (Multiset.zero_subset _) hown fun r hr => ?_
      change Accounts _ (execOwn r + _) _ _ _
      have hr : ExecPost pol st r := hr
      have hfine' := pol.same hr.follows.server hfine
      dsimp only
      cases hent : r.ent with
      | none =>
          obtain ⟨hexec, hrv⟩ := hr.without hent
          rw [hexec]
          cases hcode : r.rv with
          | again =>
              refine accounts_pure ((hown' _ _ _).symm.trans (add_zero _).symm) ?_
              refine tried_of_set hi rfl rfl hfine' ?_ (fun h => (by cases h)) hsaved.set
                (fun _ _ => rfl) (fun _ h => by cases h)
              rw [QState.sent, hr.waiting hcode]
              rfl
          | rc code =>
              have hdone := hr.done code hcode
              have hsent : r.st.state.sent = true := by rw [hdone]; rfl
              rw [hcode] at hrv
              dsimp only
              split_ifs
              · refine accounts_pure ((hown' _ _ _).symm.trans (add_zero _).symm) ?_
                refine tried_of_set hi rfl rfl hfine' hsent (fun _ => hdone) hsaved.set
                  (fun _ _ => hrv) ?_
                rintro _ ⟨⟩
                exact hrv
              · refine accounts_pure ((hown' _ _ _).symm.trans (add_zero _).symm) ?_
                exact tried_of_set hi rfl rfl hfine' hsent (fun _ => hdone) hsaved.set
                  (fun _ _ => hrv) (fun _ h => by cases h)
      | some ent =>
          have hok : r.rv = .rc rcOk := hr.ent.mp (by rw [hent]; rfl)
          have hdone := hr.done _ hok
          have hsent : r.st.state.sent = true := by rw [hdone]; rfl
          have hgood := hr.good ent hent
          have hexec : execOwn r = r.st.own + ent.own + memOf r.ns.block := by
            rw [execOwn, hent]
            rfl
          rw [hexec, hok]
          dsimp only
          refine accounts_ask_bind ⟨hfine', hr.owner⟩ (Multiset.zero_subset _) (zero_add _).symm ?_
          rintro (_ | ⟨authok, serv⟩) hserv
          · change Accounts _ (0 + _) _ _ _
            refine accounts_pure ?_ (tried_of_set hi rfl rfl hfine' hsent (fun _ => hdone)
              hsaved.set (fun h => (by cases h)) ?_)
            · rw [turnOwn, hown', Option.elim_some, Stop.own]
              abel
            · rintro _ ⟨⟩
              trivial
          · change Accounts _ (memOf serv.block + _) _ _ _
            have hfound : FoundOk pol name hops ⟨ent, serv, r.ns⟩ := ⟨hserv, hgood⟩
            dsimp only
            split
            · refine accounts_pure ?_ (tried_of_set hi rfl rfl hfine' hsent (fun _ => hdone)
                hsaved.set (fun h => (by cases h)) ?_)
              · rw [turnOwn, hown', Option.elim_some, Stop.own, Found.own]
                abel
              · rintro _ ⟨⟩
                exact ⟨hi, hfound⟩
            · refine (accounts_beside saveQueryResult_accounts).bind_part (F := 0) ?_ ?_
              · rw [hown', Found.own]
                abel
              · rintro _ ⟨saved, rfl, hfrom⟩
                rw [add_zero]
                have hlen : i < (s.q.set i r.st).length := by rwa [List.length_set]
                have hjudged := hsaved.set.judged hlen hfound hfrom
                split
                · rename_i htrunc
                  have hqm : r.st.qm = .udpTcp := by
                    rw [Bool.and_eq_true, decide_eq_true_iff] at htrunc
                    exact htrunc.1
                  have htwo : 1 < times + 1 := htwice (hr.udpTcp hqm)
                  have hset : (s.q.set i r.st)[i]? = some r.st := List.getElem?_set_self hi
                  rw [← own_switchToTcp hset hdone]
                  refine (ih ?_ rfl (switchToTcp_fine hfine') (by omega)
                    (fun h => (by cases h)) ?_).weaken
                    fun r' hr' => ⟨rfl, hr'.of_setQuery (List.set_set ..) rfl⟩
                  · rw [Sched.setQuery, List.getElem?_set_self hlen]
                  · exact hjudged.set
                · refine accounts_pure (add_zero _).symm (tried_of_set hi rfl rfl hfine' hsent
                    (fun _ => hdone) hjudged (fun _ h => (by cases h)) (fun _ h => by cases h))

end Asking

end TorAndroid.Dns.Resolver
