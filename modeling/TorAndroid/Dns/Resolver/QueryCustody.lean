import TorAndroid.Dns.Resolver.RecursiveQuery
import Mathlib.Tactic.Abel

namespace TorAndroid.Dns.Resolver

open TorAndroid.Lib.Interaction TorAndroid.Lib.Ownership

section Operations

variable {pol : CachePolicy} {enough : Prop} {α : Type} {X F : Multiset Handle}
  {own : α → Multiset Handle} {P : α → Prop}

theorem accounts_close {sock : Nat} {f : Unit → Prog NetOp α} (hX : X = {.sock sock} + F)
    (hf : Accounts (netLedger pol enough) F (f ()) own P) :
    Accounts (netLedger pol enough) X (Prog.ask (.close sock) >>= f) own P := by
  refine accounts_ask_bind trivial (Multiset.zero_subset _) hX fun _ _ => ?_
  rwa [show (netLedger pol enough).gives (.close sock) () + F = F from zero_add F]

theorem accounts_free {block : Nat} {f : Unit → Prog NetOp α} (hX : X = {.mem block} + F)
    (hf : Accounts (netLedger pol enough) F (f ()) own P) :
    Accounts (netLedger pol enough) X (Prog.ask (.free block) >>= f) own P := by
  refine accounts_ask_bind trivial (Multiset.zero_subset _) hX fun _ _ => ?_
  rwa [show (netLedger pol enough).gives (.free block) () + F = F from zero_add F]

theorem accounts_freeBlock {block : Option Nat} {f : Unit → Prog NetOp α} (hX : X = memOf block + F)
    (hf : Accounts (netLedger pol enough) F (f ()) own P) :
    Accounts (netLedger pol enough) X (freeBlock block >>= f) own P := by
  cases block with
  | none =>
      rw [memOf_none, zero_add] at hX
      rwa [hX]
  | some b => exact accounts_free hX hf

theorem accounts_socket {tp : SockType} {f : Option Nat → Prog NetOp α}
    (hnone : Accounts (netLedger pol enough) X (f none) own P)
    (hsome : ∀ sock, Accounts (netLedger pol enough) ({.sock sock} + X) (f (some sock)) own P) :
    Accounts (netLedger pol enough) X (Prog.ask (.socket tp) >>= f) own P := by
  refine accounts_ask_bind trivial (Multiset.zero_subset _) (zero_add X).symm ?_
  rintro (_ | sock) _
  · rwa [show (netLedger pol enough).gives (.socket tp) none + X = X from zero_add X]
  · exact hsome sock

theorem accounts_malloc {f : Option Nat → Prog NetOp α}
    (hf : ∀ block, Accounts (netLedger pol enough) (memOf block + X) (f block) own P) :
    Accounts (netLedger pol enough) X (Prog.ask .malloc >>= f) own P :=
  accounts_ask_bind trivial (Multiset.zero_subset _) (zero_add X).symm fun block _ => hf block

/-- A block gets another size, or it is freed. -/
theorem accounts_reallocOrCleanup {block : Option Nat} {size : Nat} {f : Option Nat → Prog NetOp α}
    (hX : X = memOf block + F) (hsize : size = 0 → block = none)
    (hf : ∀ block, Accounts (netLedger pol enough) (memOf block + F) (f block) own P) :
    Accounts (netLedger pol enough) X (reallocOrCleanup block size >>= f) own P := by
  rw [reallocOrCleanup, Prog.bind_assoc]
  refine accounts_ask_bind trivial (Multiset.zero_subset _) hX ?_
  rintro (_ | retval) _
  · have hkept : (netLedger pol enough).gives (.realloc block size) none = memOf block := by
      change (if size = 0 then 0 else memOf block) = memOf block
      split_ifs with hzero
      · rw [hsize hzero, memOf_none]
      · rfl
    have hfreed := hf none
    rw [memOf_none, zero_add] at hfreed
    rw [hkept]
    change Accounts _ _ ((freeBlock block >>= fun _ => pure none) >>= f) _ _
    rw [Prog.bind_assoc]
    exact accounts_freeBlock rfl hfreed
  · exact hf (some retval)

/-- For no bytes at all, `realloc_or_cleanup` frees a block twice. -/
theorem reallocOrCleanup_frees_twice (block : Nat) :
    ¬Ensures (netLedger pol enough).contract (fun _ _ => True) (reallocOrCleanup (some block) 0)
      {.mem block} := by
  rintro ⟨-, h⟩
  obtain ⟨⟨-, -, hheld⟩, -⟩ := h none trivial
  have hfreed : (netLedger pol enough).contract.next (.realloc (some block) 0) none
    {.mem block} = 0 := by
    change ({.mem block} : Multiset Handle) - {.mem block} + 0 = 0
    rw [tsub_self, add_zero]
  rw [hfreed] at hheld
  exact Multiset.singleton_ne_zero _ (le_bot_iff.mp hheld)

/-- A result that no operation has to be asked for. -/
theorem accounts_rand {f : Nat → Prog NetOp α}
    (hf : ∀ rid, Accounts (netLedger pol enough) X (f rid) own P) :
    Accounts (netLedger pol enough) X (Prog.ask .rand16 >>= f) own P :=
  accounts_touch trivial (Multiset.zero_subset _) rfl (fun _ => rfl) fun rid _ => hf rid

theorem accounts_time {f : Int → Prog NetOp α}
    (hf : ∀ now, Accounts (netLedger pol enough) X (f now) own P) :
    Accounts (netLedger pol enough) X (Prog.ask .time >>= f) own P :=
  accounts_touch trivial (Multiset.zero_subset _) rfl (fun _ => rfl) fun now _ => hf now

theorem accounts_sched {addrs : List InAddr} {tto : Int} {f : Unit → Prog NetOp α}
    (hf : Accounts (netLedger pol enough) X (f ()) own P) :
    Accounts (netLedger pol enough) X (Prog.ask (.schedServerTest addrs tto) >>= f) own P :=
  accounts_touch trivial (Multiset.zero_subset _) rfl (fun _ => rfl) fun _ _ => hf

end Operations

/-- A query goes on with the same server. -/
structure Follows (st st' : QueryServ) : Prop where
  server : SameServer st.toQueryStat st'.toQueryStat
  qm : st'.qm = st.qm ∨ (st.qm = .tcpUdp ∧ st'.qm = .udpOnly)
  addr : st'.addr = st.addr

theorem Follows.refl (st : QueryServ) : Follows st st :=
  ⟨.refl _, .inl rfl, rfl⟩

theorem Follows.trans {st st' st'' : QueryServ} (h : Follows st st') (h' : Follows st' st'') :
    Follows st st'' := by
  refine ⟨h.server.trans h'.server, ?_, h'.addr.trans h.addr⟩
  rcases h.qm with hqm | ⟨htcp, hudp⟩
  · rw [← hqm]
    exact h'.qm
  · rcases h'.qm with hqm | ⟨htcp', -⟩
    · exact .inr ⟨htcp, hqm.trans hudp⟩
    · rw [hudp] at htcp'
      cases htcp'

/-- The memory of a query that was sent. -/
def QueryServ.buffers (st : QueryServ) : Multiset Handle :=
  memOf st.msg + memOf st.recvAt

/-- What a query holds in its state. -/
def QueryServ.own (st : QueryServ) : Multiset Handle :=
  match st.state with
  | .tcpWrite | .tcpRead | .udpReceive => {.sock st.sock} + st.buffers
  | .tcpInitial | .udpInitial => st.buffers
  | .initial | .canceled | .done => 0

/-- The states of a query between two calls of `p_exec_query`. -/
def QState.waiting : QState → Bool
  | .tcpWrite | .tcpRead | .udpReceive => true
  | _ => false

theorem own_waiting {st : QueryServ} (h : st.state.waiting = true) :
    st.own = {.sock st.sock} + st.buffers := by
  rw [QueryServ.own]
  cases hstate : st.state <;> rw [hstate] at h <;> first | rfl | cases h

section Machine

variable {pol : CachePolicy} {enough : Prop} {cfg : ResolverConfig} {name : Name} {thint : Nat}
  {st : QueryServ}

/-- What a query holds after `p_query_sm`: with a return code the socket is closed. -/
def smOwn (r : Rv × QueryServ) : Multiset Handle :=
  match r.1 with
  | .again => r.2.own
  | .rc _ => r.2.buffers

/-- What `p_query_sm` leaves behind. -/
structure SmPost (st : QueryServ) (r : Rv × QueryServ) : Prop where
  follows : Follows st r.2
  retries : r.2.retries = st.retries
  waiting : r.1 = .again → r.2.state.waiting = true
  code : ∀ code, r.1 = .rc code → code = rcOk ∨ code = rcServfail ∨ code = rcFatalerr

/-- The state in which `p_query_sm` goes on differs in what it does not look at again. -/
theorem SmPost.of_same {st' : QueryServ} {r : Rv × QueryServ} (hpost : SmPost st' r)
    (hserver : SameServer st.toQueryStat st'.toQueryStat) (hqm : st'.qm = st.qm)
    (haddr : st'.addr = st.addr) (hretries : st'.retries = st.retries) : SmPost st r :=
  ⟨.trans ⟨hserver, .inl hqm, haddr⟩ hpost.follows, hpost.retries.trans hretries,
    hpost.waiting, hpost.code⟩

theorem sameServer_of_eq {st st' : QueryStat} (h : st' = { st with
    myrid := st'.myrid, recvbuf := st'.recvbuf }) : SameServer st st' := by
  rw [h]
  exact ⟨rfl, rfl, rfl, rfl, rfl⟩

theorem broken_accounts {code : Nat} (hcode : code = rcServfail ∨ code = rcFatalerr) :
    Accounts (netLedger pol enough) st.buffers (broken st code) smOwn (SmPost st) := by
  refine accounts_pure rfl ⟨⟨.refl _, .inl rfl, rfl⟩, rfl, fun h => (by cases h), ?_⟩
  intro code' h
  rw [← Rv.rc.inj h]
  exact .inr hcode

/-- The post for a query that goes on. -/
theorem smPost_again {st' : QueryServ} (hserver : SameServer st.toQueryStat st'.toQueryStat)
    (hqm : st'.qm = st.qm) (haddr : st'.addr = st.addr) (hretries : st'.retries = st.retries)
    (hwaiting : st'.state.waiting = true) : SmPost st (.again, st') :=
  ⟨⟨hserver, .inl hqm, haddr⟩, hretries, fun _ => hwaiting, fun _ h => by cases h⟩

/-- The post for a reply. -/
theorem smPost_ok {st' : QueryServ} (hserver : SameServer st.toQueryStat st'.toQueryStat)
    (hqm : st'.qm = st.qm) (haddr : st'.addr = st.addr) (hretries : st'.retries = st.retries) :
    SmPost st (.rc rcOk, st') :=
  ⟨⟨hserver, .inl hqm, haddr⟩, hretries, fun h => (by cases h), fun _ h => .inl (Rv.rc.inj h).symm⟩

theorem closeBroken_accounts {code : Nat} (hcode : code = rcServfail ∨ code = rcFatalerr) :
    Accounts (netLedger pol enough) ({.sock st.sock} + st.buffers) (closeBroken st code) smOwn
      (SmPost st) :=
  accounts_close rfl (broken_accounts hcode)

/-- A socket that is used is held. -/
theorem sock_held {sock : Nat} {F : Multiset Handle} :
    ({.sock sock} : Multiset Handle) ⊆ {.sock sock} + F :=
  Multiset.subset_of_le (Multiset.le_add_right _ _)

theorem accounts_onSocket {α β : Type} {op : NetOp α} {sock : Nat} {F : Multiset Handle}
    {f : α → Prog NetOp β} {own : β → Multiset Handle} {P : β → Prop}
    (hdemand : (netLedger pol enough).demand op)
    (huses : (netLedger pol enough).uses op = {.sock sock})
    (htakes : (netLedger pol enough).takes op = 0)
    (hgives : ∀ a, (netLedger pol enough).gives op a = 0)
    (hf : ∀ a, (netLedger pol enough).promise op a →
      Accounts (netLedger pol enough) ({.sock sock} + F) (f a) own P) :
    Accounts (netLedger pol enough) ({.sock sock} + F) (Prog.ask op >>= f) own P :=
  accounts_touch hdemand (by rw [huses]; exact sock_held) htakes hgives hf

theorem udpInitial_accounts :
    Accounts (netLedger pol enough) st.buffers (udpInitial cfg name thint st) smOwn
      (SmPost st) := by
  refine accounts_socket (broken_accounts (.inl rfl)) fun sock => ?_
  refine accounts_onSocket trivial rfl rfl (fun _ => rfl) fun bound _ => ?_
  cases bound with
  | false => exact (closeBroken_accounts (.inl rfl)).weaken fun r hr =>
        ⟨rfl, hr.of_same (.refl _) rfl rfl rfl⟩
  | true =>
      refine accounts_onSocket trivial rfl rfl (fun _ => rfl) fun connected _ => ?_
      cases connected with
      | some errno =>
          exact (closeBroken_accounts (.inl rfl)).weaken fun r hr =>
            ⟨rfl, hr.of_same (.refl _) rfl rfl rfl⟩
      | none =>
          refine accounts_onSocket trivial rfl rfl (fun _ => rfl) fun sent _ => ?_
          cases sent with
          | some errno =>
              exact (closeBroken_accounts (.inl rfl)).weaken fun r hr =>
                ⟨rfl, hr.of_same (.refl _) rfl rfl rfl⟩
          | none => exact accounts_pure rfl (smPost_again (.refl _) rfl rfl rfl rfl)

theorem udpReceive_accounts :
    Accounts (netLedger pol enough) ({.sock st.sock} + st.buffers) (udpReceive cfg st) smOwn
      (SmPost st) := by
  have hsize : (if st.ednsQuery then cfg.udpbufsize else udpBufsize) = 0 → st.recvAt = none := by
    have hlarge := cfg.udpbufsize_ge
    intro hzero
    split_ifs at hzero
    · omega
    · cases hzero
  refine accounts_reallocOrCleanup (F := {.sock st.sock} + memOf st.msg)
    (by rw [QueryServ.buffers]; abel) hsize fun block => ?_
  cases block with
  | none =>
      rw [memOf_none, zero_add]
      have h := @closeBroken_accounts pol enough { st with recvAt := none } rcFatalerr
        (.inr rfl)
      rw [QueryServ.buffers, memOf_none, add_zero] at h
      exact h.weaken fun r hr => ⟨rfl, hr.of_same (.refl _) rfl rfl rfl⟩
  | some block =>
      rw [memOf_some, add_left_comm, add_comm ({.mem block} : Multiset Handle)]
      refine accounts_onSocket trivial rfl rfl (fun _ => rfl) fun received _ => ?_
      cases received with
      | error errno =>
          exact (closeBroken_accounts (.inl rfl)).weaken fun r hr =>
            ⟨rfl, hr.of_same (.refl _) rfl rfl rfl⟩
      | ok bytes =>
          have hserver := @sameServer_of_eq st.toQueryStat
            { st.toQueryStat with recvbuf := bytes } rfl
          dsimp only
          split_ifs
          · exact accounts_pure rfl (smPost_again hserver rfl rfl rfl rfl)
          · exact accounts_close rfl (accounts_pure rfl (smPost_ok hserver rfl rfl rfl))

theorem tcpFailed_accounts :
    Accounts (netLedger pol enough) st.buffers (tcpFailed cfg name thint st) smOwn (SmPost st) := by
  rw [tcpFailed]
  split_ifs with hqm
  · refine accounts_rand fun rid => ?_
    refine udpInitial_accounts.weaken fun r hr => ⟨rfl, ?_⟩
    have hswitch : Follows st
        { st with qm := .udpOnly, myrid := rid, state := .udpInitial } :=
      ⟨sameServer_of_eq rfl, .inr ⟨hqm, rfl⟩, rfl⟩
    exact ⟨hswitch.trans hr.follows, hr.retries, hr.waiting, hr.code⟩
  · exact broken_accounts (.inl rfl)

theorem closeFailed_accounts {errno : Option Errno} :
    Accounts (netLedger pol enough) ({.sock st.sock} + st.buffers)
      (closeFailed cfg name thint st errno) smOwn (SmPost st) :=
  accounts_close rfl
    (tcpFailed_accounts.weaken fun _ hr => ⟨rfl, hr.of_same (.refl _) rfl rfl rfl⟩)

theorem readMessage_accounts (hstate : st.state = .tcpRead) :
    Accounts (netLedger pol enough) ({.sock st.sock} + st.buffers) (readMessage cfg name thint st)
      smOwn (SmPost st) := by
  have hagain : Accounts (netLedger pol enough) ({.sock st.sock} + st.buffers)
      (pure (.again, st) : Prog NetOp (Rv × QueryServ)) smOwn (SmPost st) := by
    refine accounts_pure ?_ (smPost_again (.refl _) rfl rfl rfl (by rw [hstate]; rfl))
    rw [smOwn, own_waiting (by rw [hstate]; rfl)]
  rw [readMessage]
  dsimp only
  split_ifs
  · refine accounts_onSocket trivial rfl rfl (fun _ => rfl) fun result _ => ?_
    cases result with
    | error errno =>
        dsimp only
        split_ifs
        · exact hagain
        · exact closeFailed_accounts
    | ok bytes =>
        cases bytes with
        | nil => exact closeFailed_accounts
        | cons b bytes =>
            dsimp only
            have hserver := @sameServer_of_eq st.toQueryStat
              { st.toQueryStat with
                recvbuf := st.recvbuf.take (st.iolen - 2) ++ b :: bytes } rfl
            split_ifs
            · refine accounts_pure ?_ (smPost_again hserver rfl rfl rfl (by
                dsimp only; rw [hstate]; rfl))
              rw [smOwn, own_waiting (by dsimp only; rw [hstate]; rfl)]
              rfl
            · exact accounts_close rfl (accounts_pure rfl (smPost_ok hserver rfl rfl rfl))
  · exact accounts_close rfl (accounts_pure rfl (smPost_ok (.refl _) rfl rfl rfl))

theorem tcpRead_accounts (hstate : st.state = .tcpRead) :
    Accounts (netLedger pol enough) ({.sock st.sock} + st.buffers) (tcpRead cfg name thint st)
      smOwn (SmPost st) := by
  rw [tcpRead]
  split_ifs
  · refine accounts_onSocket trivial rfl rfl (fun _ => rfl) fun result hpromise => ?_
    cases result with
    | error errno =>
        dsimp only
        split_ifs
        · refine accounts_pure ?_ (smPost_again (.refl _) rfl rfl rfl (by rw [hstate]; rfl))
          rw [smOwn, own_waiting (by rw [hstate]; rfl)]
        · exact closeFailed_accounts
    | ok bytes =>
        dsimp only
        split_ifs with hlen
        · refine accounts_reallocOrCleanup (F := {.sock st.sock} + memOf st.msg)
            (by rw [QueryServ.buffers]; abel) (hpromise hlen) fun block => ?_
          cases block with
          | none =>
              rw [memOf_none, zero_add]
              have h := @closeBroken_accounts pol enough { st with iolen := 2, recvAt := none }
                rcFatalerr (.inr rfl)
              rw [QueryServ.buffers, memOf_none, add_zero] at h
              exact h.weaken fun r hr => ⟨rfl, hr.of_same (.refl _) rfl rfl rfl⟩
          | some block =>
              rw [memOf_some, add_left_comm, add_comm ({.mem block} : Multiset Handle)]
              have h := @readMessage_accounts pol enough cfg name thint
                { st with iolen := 2, recvl := int16 bytes 0, recvbuf := [], recvAt := some block }
                hstate
              exact h.weaken fun r hr => ⟨rfl, hr.of_same (sameServer_of_eq rfl) rfl rfl rfl⟩
        · exact closeFailed_accounts
  · exact readMessage_accounts hstate

theorem tcpWrite_accounts (hstate : st.state = .tcpWrite) :
    Accounts (netLedger pol enough) ({.sock st.sock} + st.buffers) (tcpWrite cfg name thint st)
      smOwn (SmPost st) := by
  have hread : Accounts (netLedger pol enough) ({.sock st.sock} + st.buffers)
      (tcpRead cfg name thint { st with state := .tcpRead, iolen := 0 }) smOwn (SmPost st) :=
    (tcpRead_accounts rfl).weaken fun _ hr => ⟨rfl, hr.of_same (.refl _) rfl rfl rfl⟩
  rw [tcpWrite]
  split_ifs
  · exact hread
  · refine accounts_onSocket trivial rfl rfl (fun _ => rfl) fun result _ => ?_
    cases result with
    | error errno =>
        dsimp only
        split_ifs
        · refine accounts_pure ?_ (smPost_again (.refl _) rfl rfl rfl (by rw [hstate]; rfl))
          rw [smOwn, own_waiting (by rw [hstate]; rfl)]
        · exact closeFailed_accounts
        · exact (closeBroken_accounts (.inl rfl)).weaken fun r hr =>
            ⟨rfl, hr.of_same (.refl _) rfl rfl rfl⟩
    | ok n =>
        dsimp only
        split_ifs
        · refine accounts_pure ?_ (smPost_again (.refl _) rfl rfl rfl (by
            dsimp only; rw [hstate]; rfl))
          rw [smOwn, own_waiting (by dsimp only; rw [hstate]; rfl)]
          rfl
        · exact hread

theorem tcpInitial_accounts :
    Accounts (netLedger pol enough) st.buffers (tcpInitial cfg name thint st) smOwn
      (SmPost st) := by
  refine accounts_socket (broken_accounts (.inl rfl)) fun sock => ?_
  refine accounts_onSocket trivial rfl rfl (fun _ => rfl) fun bound _ => ?_
  cases bound with
  | false => exact (closeBroken_accounts (.inl rfl)).weaken fun r hr =>
        ⟨rfl, hr.of_same (.refl _) rfl rfl rfl⟩
  | true =>
      refine accounts_onSocket trivial rfl rfl (fun _ => rfl) fun nonblock _ => ?_
      cases nonblock with
      | false =>
          exact (closeBroken_accounts (.inl rfl)).weaken fun r hr =>
            ⟨rfl, hr.of_same (.refl _) rfl rfl rfl⟩
      | true =>
          refine accounts_onSocket trivial rfl rfl (fun _ => rfl) fun connected _ => ?_
          cases connected with
          | none =>
              exact (tcpWrite_accounts rfl).weaken fun r hr =>
                ⟨rfl, hr.of_same (.refl _) rfl rfl rfl⟩
          | some errno =>
              dsimp only
              split_ifs
              · exact accounts_pure rfl (smPost_again (.refl _) rfl rfl rfl rfl)
              · exact closeFailed_accounts.weaken fun r hr =>
                  ⟨rfl, hr.of_same (.refl _) rfl rfl rfl⟩
              · exact (closeBroken_accounts (.inl rfl)).weaken fun r hr =>
                  ⟨rfl, hr.of_same (.refl _) rfl rfl rfl⟩

/-- The states in which `p_query_sm` is called. -/
def QState.active : QState → Bool
  | .tcpInitial | .tcpWrite | .tcpRead | .udpInitial | .udpReceive => true
  | _ => false

theorem pQuerySm_accounts (hactive : st.state.active = true) :
    Accounts (netLedger pol enough) st.own (pQuerySm cfg name thint st) smOwn (SmPost st) := by
  rw [pQuerySm, QueryServ.own]
  cases hstate : st.state with
  | tcpInitial => exact tcpInitial_accounts
  | tcpWrite => exact tcpWrite_accounts hstate
  | tcpRead => exact tcpRead_accounts hstate
  | udpInitial => exact udpInitial_accounts
  | udpReceive => exact udpReceive_accounts
  | initial | canceled | done =>
      rw [hstate] at hactive
      cases hactive

end Machine

end TorAndroid.Dns.Resolver
