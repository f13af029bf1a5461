import TorAndroid.Dns.Resolver.QueryMachine

namespace TorAndroid.Dns.Resolver

open TorAndroid.Lib.Interaction TorAndroid.Lib.Ownership

/-- A dynamic array, with the memory it is in. -/
structure DArray (α : Type) where
  items : List α
  block : Option Nat

/-- `DA_GROW1`, and the new element is set. Without memory the array is gone. -/
def DArray.push {α : Type} (a : DArray α) (x : α) : Prog NetOp (Option (DArray α)) := do
  let block ← if a.block.isNone || (a.items.length ≠ 0 && a.items.length % 8 = 0) then
      .ask (.grow a.block)
    else pure a.block
  pure (block.map fun block => ⟨a.items ++ [x], some block⟩)

/-- A `query_stat_array`. -/
abbrev ServArray := DArray QueryServ

def noServ : ServArray := ⟨[], none⟩

/-- What `auth_ok` returns, with `*serv`: -1, or whether the answer is satisfactory. -/
inductive AuthResult where
  | failed
  | verdict (ok : Bool) (serv : ServArray)

/-- The calls in the loops of `p_recursive_query`. -/
inductive AskOp : Type → Type where
  | exec (st : QueryServ) (cSoa : Option UInt8) : AskOp ExecResult
  | authOk (q : List QueryServ) (ent : Cent) (st : QueryServ) (ns : NsList) : AskOp AuthResult

abbrev Asking := Prog (Joined NetOp AskOp)

def net {α : Type} (op : NetOp α) : Asking α :=
  .ask (.inl op)

/-- An answer: `ent`, `serv` and `ns`. -/
structure Found where
  ent : Ent
  serv : ServArray
  ns : NsList

/-- `entsave`, `servsave` and `nssave`, with the index of `qse`. -/
structure Saved where
  found : Found
  qualval : Nat
  qse : Nat

structure Sched where
  q : List QueryServ
  dc : Nat
  saved : Option Saved
  rv : Rv
  cSoa : Option UInt8

/-- How the loops are left: with an answer to the query `i`, with a return code, or at the label
`free_ent_return_failed`. -/
inductive Stop where
  | answer (i : Nat) (found : Found)
  | code (code : Nat)
  | noMemory (ent : Ent) (ns : NsList)

/-- `tentative_tcp_query`. -/
def QueryServ.tentative (st : QueryServ) : Bool :=
  st.qm = .tcpUdp && (st.state = .tcpWrite || (st.state = .tcpRead && st.iolen = 0))

/-- The quality of an answer. -/
def QueryServ.quality (st : QueryServ) (authok : Bool) : Nat :=
  authok.toNat * 8 + (3 - st.failed) * 2 + (!st.tc).toNat

def goodQual : Nat := 14

def Found.free (found : Found) : Prog NetOp Unit := do
  .ask (.free found.ent.block)
  freeBlock found.serv.block
  freeBlock found.ns.block

/-- `save_query_result`. -/
def saveQueryResult (s : Sched) (i : Nat) (st : QueryServ) (found : Found) (authok : Bool) :
    Prog NetOp Sched := do
  let qval := st.quality authok
  if s.saved.any fun old => qval ≤ old.qualval then do
    found.free
    pure s
  else do
    s.saved.elim (pure ()) fun old => old.found.free
    if found.serv.items.isEmpty then do
      freeBlock found.ns.block
      pure { s with saved := some ⟨{ found with ns := noNs }, qval, i⟩ }
    else pure { s with saved := some ⟨found, qval, i⟩ }

def Sched.setQuery (s : Sched) (i : Nat) (st : QueryServ) : Sched :=
  { s with q := s.q.set i st }

section Loops

variable (cfg : ResolverConfig)

/-- A call of `p_exec_query` and what is done with the answer. It stands in the loop that sends
the queries, in the one over the events, and in the one after a timeout, where the method is
`UDP_ONLY` and nothing is asked again by TCP. A query is asked again once at most, as its method is
`TCP_ONLY` then. -/
def tryServer (i : Nat) : Nat → Sched → Asking (Sched × Option Stop)
  | 0, _ => unreachable.beside
  | times + 1, s =>
      match s.q[i]? with
      | none => unreachable.beside
      | some st => do
          let r ← .ask (.inr (.exec st s.cSoa))
          let s := { s with q := s.q.set i r.st, rv := r.rv, cSoa := r.cSoa }
          match r.rv, r.ent with
          | .again, _ => pure (s, none)
          | .rc code, none =>
              if code = rcNameerr ∨ code = rcFatalerr then pure (s, some (.code code))
              else pure (s, none)
          | .rc _, some ent =>
              match ← .ask (.inr (.authOk s.q ent.val r.st r.ns)) with
              | .failed => pure (s, some (.noMemory ent r.ns))
              | .verdict authok serv =>
                  let found := ⟨ent, serv, r.ns⟩
                  let truncated := r.st.qm = .udpTcp && r.st.tc
                  if authok && r.st.failed = 0 && !truncated then
                    pure (s, some (.answer i found))
                  else do
                    let s ← (saveQueryResult s i r.st found authok).beside
                    if truncated then tryServer i times (s.setQuery i (switchToTcp r.st))
                    else pure (s, none)

/-- The queries before `dc` are done. -/
def noteDone (i : Nat) (s : Sched) : Sched :=
  if s.q[i]?.any (fun st => st.state = .done) ∧ i = s.dc then { s with dc := s.dc + 1 } else s

/-- One turn of the loop that sends the queries from `j` on. -/
def sendTurn (j i : Nat) (s : Sched) : Asking (Sched × Option (Nat × Stop)) := do
  if j ≤ i then
    let (s, stop) ← tryServer i 2 s
    match stop with
    | some stop => pure (s, some (i, stop))
    | none => pure (noteDone i s, none)
  else pure (noteDone i s, none)

/-- The queries under way. -/
def Sched.active (s : Sched) (mc : Nat) : List (Nat × QueryServ) :=
  (List.range' s.dc (mc - s.dc)).filterMap fun i =>
    (s.q[i]?.filter fun st => st.state ≠ .done).map fun st => (i, st)

def QueryServ.pollFd (st : QueryServ) : PollFd where
  fd := st.sock
  events :=
    match st.state with
    | .tcpRead | .udpReceive => some false
    | .tcpWrite => some true
    | _ => none

/-- Whether something has happened that the query waits for. -/
def QueryServ.srvEvent (st : QueryServ) (revents : Revents) : Bool :=
  match st.state with
  | .tcpRead | .udpReceive => revents.pollin || revents.error
  | .tcpWrite => revents.pollout || revents.error
  | _ => false

/-- `maxto`: how long is waited. -/
def Sched.maxto (s : Sched) (j mc : Nat) (ts0 ts now : Int) : Int :=
  let maxto := ((s.active mc).filter fun p => j ≤ p.1).foldl (fun m p => max m p.2.timeout) 0 -
    (now - ts)
  -- the global timeout is not used if there are queries that can be retried by UDP
  if mc = s.q.length ∧ !((s.q.take mc).drop j).any QueryServ.tentative then
    max maxto (cfg.globalTimeout - (now - ts0))
  else maxto

/-- One turn of the loop after a timeout. -/
def timeoutTurn (i : Nat) (x : Sched × Nat) : Asking ((Sched × Nat) × Option Stop) := do
  match x.1.q[i]? with
  | none => unreachable.beside
  | some st =>
      let st := if st.state ≠ .done ∧ st.needsTesting ≠ 0 then { st with needsTesting := 2 } else st
      if st.tentative then do
        net (.close st.sock)
        let st ← (switchToUdp st).beside
        let (s, stop) ← tryServer i 2 (x.1.setQuery i st)
        pure ((s, x.2 + 1), stop)
      else pure ((x.1.setQuery i st, x.2), none)

/-- What `poll` said of each socket. -/
abbrev Polls := List (Nat × Revents)

/-- One turn of the loop over the events. -/
def eventTurn (i : Nat) (x : Sched × Polls × Int) :
    Asking ((Sched × Polls × Int) × Option Stop) := do
  let (s, polls, nevents) := x
  match s.q[i]? with
  | none => unreachable.beside
  | some st =>
      if st.state = .done then pure ((noteDone i s, polls, nevents), none)
      else
        match polls.dropWhile fun p => p.1 ≠ st.sock with
        -- the descriptor is not found in the array
        | [] => unreachable.beside
        | (_, revents) :: polls =>
            if st.srvEvent revents then do
              let (s, stop) ← tryServer i 2 s
              match stop with
              | some stop => pure ((s, polls, nevents - 1), some stop)
              | none => pure ((noteDone i s, polls, nevents - 1), none)
            else pure ((noteDone i s, polls, nevents), none)

/-- How a turn of the loop around `poll` ends. -/
inductive PollEnd where
  | again
  | leave
  | stop (stop : Stop)

/-- One turn of the loop around `poll`. -/
def pollTurn (j mc : Nat) (ts0 ts : Int) (s : Sched) : Asking (Sched × PollEnd) := do
  let active := s.active mc
  let s := { s with rv := .rc rcServfail }
  if active.isEmpty then pure ({ s with dc := mc }, .leave)
  else
    let now ← net .time
    let maxto := s.maxto cfg j mc ts0 ts now
    match ← net (.poll (active.map fun p => p.2.pollFd)
        (if 0 < maxto then maxto * 1000 else 0)) with
    | none => pure (s, .stop (.code rcServfail))
    | some (0, _) => do
        let ((s, nevents), stop) ← untilStop timeoutTurn (List.range' j (mc - j)) (s, 0)
        match stop with
        | some stop => pure (s, .stop stop)
        | none =>
            if mc = s.q.length ∧ nevents ≠ 0 then do
              let now ← net .time
              pure (s, if now - ts0 < cfg.globalTimeout then .again else .leave)
            else pure (s, .leave)
    | some (nevents, revents) => do
        let polls := (active.map fun p => p.2.sock).zipIdx.map fun p =>
          (p.1, revents.getD p.2 ⟨false, false, false⟩)
        let ((s, _, nevents), stop) ← untilStop eventTurn (List.range' s.dc (mc - s.dc))
          (s, polls, (nevents : Int))
        match stop with
        | some stop => pure (s, .stop stop)
        | none =>
            -- events that could not be handled
            if 0 < nevents then pure ({ s with rv := .rc rcServfail }, .stop (.code rcServfail))
            else pure (s, .again)

/-- The loop around `poll`. The call after the given number of them fails. -/
def pollLoop (j mc : Nat) (ts0 ts : Int) : Nat → Sched → Asking (Sched × Option (Nat × Stop))
  | 0, s => pure ({ s with rv := .rc rcServfail }, some (mc, .code rcServfail))
  | rounds + 1, s => do
      let (s, turn) ← pollTurn cfg j mc ts0 ts s
      match turn with
      | .stop stop => pure (s, some (mc, stop))
      | .leave => pure (s, none)
      | .again => if s.dc < mc then pollLoop j mc ts0 ts rounds s else pure (s, none)

/-- The queries of one group are sent, and then all that are under way are waited for. -/
def askGroup (rounds : Nat) (ts0 : Int) (j : Nat) (s : Sched) :
    Asking (Sched × Option (Nat × Stop)) := do
  let mc := min (j + cfg.parQueries) s.q.length
  let (s, stop) ← untilStop (sendTurn j) (List.range' s.dc (mc - s.dc)) s
  match stop with
  | some stop => pure (s, some stop)
  | none =>
      if s.dc < mc then do
        let ts ← net .time
        pollLoop cfg j mc ts0 ts rounds s
      else pure (s, none)

/-- `p_cancel_query` for all queries that may be under way. -/
def cancelQueries (mc : Nat) (s : Sched) : Prog NetOp Sched :=
  (List.range' s.dc (mc - s.dc)).foldlM (fun s i =>
    match s.q[i]? with
    | none => unreachable
    | some st => do
        let st ← pCancelQuery st
        pure (s.setQuery i st)) s

/-- The servers that did not reply are tested. -/
def retest (mc : Nat) (q : List QueryServ) : Prog NetOp Unit :=
  let addrs := ((q.take mc).filter fun st => 1 < st.needsTesting).map QueryServ.addr
  if addrs.isEmpty then pure () else .ask (.schedServerTest addrs (-1))

def freeSaved (s : Sched) : Prog NetOp Unit :=
  s.saved.elim (pure ()) fun saved => saved.found.free

/-- The labels `done` and `cancel_queries`. -/
def stopQueries (mc : Nat) (s : Sched) : Prog NetOp Sched := do
  let s ← cancelQueries mc s
  retest mc s.q
  pure s

/-- An answer that was saved is used, but not again if it is not good. -/
def markNocache (c : Cent) : Cent :=
  match c.arm with
  | .rr a => { c with arm := .rr (a.modifyAll fun r =>
      { r with flags := { r.flags with nocache := true } }) }
  | .neg .. => { c with flags := { c.flags with nocache := true } }

def Saved.use (saved : Saved) : Found :=
  if saved.qualval < goodQual then
    { saved.found with ent := { saved.found.ent with val := markNocache saved.found.ent.val } }
  else saved.found

/-- What the loops end with: the answer and the index of the query it is from, or a return code. -/
structure Asked where
  q : List QueryServ
  cSoa : Option UInt8
  outcome : Except Rv (Found × Nat)

/-- The servers are asked. -/
def askServers (rounds : Nat) (q : List QueryServ) (cSoa : Option UInt8) : Asking Asked := do
  let ts0 ← net .time
  let (s, stop) ← untilStop (askGroup cfg rounds ts0)
    (List.range' 0 ((q.length + cfg.parQueries - 1) / cfg.parQueries) cfg.parQueries)
    ⟨q, 0, none, .rc rcServfail, cSoa⟩
  match stop with
  | none => do
      let s ← (stopQueries q.length s).beside
      pure ⟨s.q, s.cSoa, s.saved.elim (.error s.rv) fun saved => .ok (saved.use, saved.qse)⟩
  | some (mc, .answer i found) => do
      (freeSaved s).beside
      let s ← (stopQueries mc s).beside
      pure ⟨s.q, s.cSoa, .ok (found, i)⟩
  | some (mc, .code code) => do
      (freeSaved s).beside
      let s ← (stopQueries mc s).beside
      pure ⟨s.q, s.cSoa, .error (.rc code)⟩
  | some (mc, .noMemory ent ns) => do
      net (.free ent.block)
      (freeSaved s).beside
      let s ← (stopQueries mc s).beside
      (freeBlock ns.block).beside
      pure ⟨s.q, s.cSoa, .error (.rc rcFatalerr)⟩

end Loops

end TorAndroid.Dns.Resolver
