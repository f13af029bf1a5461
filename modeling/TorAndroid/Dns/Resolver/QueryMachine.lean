import TorAndroid.Dns.Resolver.Operations

namespace TorAndroid.Dns.Resolver

open TorAndroid.Lib.Interaction TorAndroid.Lib.Ownership

/-- `RC_FATALERR`. -/
def rcFatalerr : Nat := 0xffff

/-- `RC_NOTCACHED`, `RC_CACHED` and `RC_STALE`. -/
def rcNotcached : Nat := 0xfffa
def rcCached : Nat := 0xfffb
def rcStale : Nat := 0xfffc

/-- The states of a query (`QS_*`). -/
inductive QState where
  | initial
  | tcpInitial
  | tcpWrite
  | tcpRead
  | udpInitial
  | udpReceive
  | canceled
  | done
  deriving DecidableEq

/-- What `p_query_sm` and `p_exec_query` return: -1, or a return code. -/
inductive Rv where
  | again
  | rc (code : Nat)
  deriving DecidableEq

/-- An element of a `query_stat_array`. The bytes that were read are in `recvbuf`, and `recvAt`
is the memory they are in. -/
structure QueryServ extends QueryStat where
  addr : InAddr
  port : Nat
  timeout : Int
  inheritReject : Bool
  state : QState
  qm : QMethod
  needsTesting : Nat
  sock : Nat
  recvl : Nat
  iolen : Nat
  msg : Option Nat
  recvAt : Option Nat
  sErrno : Option Errno

/-- What the resolver reads of `global`. -/
structure ResolverConfig extends QueryConfig where
  queryMethod : QMethod
  /-- The configuration is refused if it is smaller. -/
  udpbufsize : Nat
  udpbufsize_ge : 512 ≤ udpbufsize
  /-- The configuration has at least one. -/
  parQueries : Nat
  parQueries_pos : 0 < parQueries
  globalTimeout : Int
  paranoid : Bool
  onquery : Bool
  lndownKluge : Bool

def QueryServ.useUdp (st : QueryServ) : Bool :=
  st.qm = .udpOnly || st.qm = .udpTcp

/-- The state in which a query is sent. -/
def QueryServ.firstState (st : QueryServ) : QState :=
  if st.useUdp then .udpInitial else .tcpInitial

def unreachable {α : Type} : Prog NetOp α :=
  .ask .abort >>= Empty.elim

def freeBlock (block : Option Nat) : Prog NetOp Unit :=
  block.elim (pure ()) fun b => .ask (.free b)

/-- `realloc_or_cleanup`. -/
def reallocOrCleanup (block : Option Nat) (size : Nat) : Prog NetOp (Option Nat) := do
  match ← .ask (.realloc block size) with
  | some retval => pure (some retval)
  | none => do
      freeBlock block
      pure none

section Machine

variable (cfg : ResolverConfig) (name : Name) (thint : Nat)

/-- The query with its length before it, as it is written to a stream. -/
def QueryServ.message (st : QueryServ) : List UInt8 :=
  let query := st.query cfg.udpbufsize name thint
  putInt16 query.length ++ query

/-- The end of `p_query_sm` after something has gone wrong. -/
def broken (st : QueryServ) (code : Nat) : Prog NetOp (Rv × QueryServ) :=
  pure (.rc code, { st with state := .done })

/-- The same when there is a socket to close. -/
def closeBroken (st : QueryServ) (code : Nat) : Prog NetOp (Rv × QueryServ) := do
  .ask (.close st.sock)
  broken st code

/-- The state `QS_UDPINITIAL`. -/
def udpInitial (st : QueryServ) : Prog NetOp (Rv × QueryServ) := do
  match ← .ask (.socket .dgram) with
  | none => broken st rcServfail
  | some sock =>
      let st := { st with sock := sock }
      if ← .ask (.bindSocket sock) then
        match ← .ask (.connect sock st.addr st.port) with
        | some errno =>
            closeBroken
              { st with sErrno := if errno = .econnrefused then some errno else st.sErrno }
                rcServfail
        | none =>
            match ← .ask (.send sock (st.query cfg.udpbufsize name thint)) with
            | some errno => closeBroken { st with sErrno := some errno } rcServfail
            | none => pure (.again, { st with state := .udpReceive })
      else closeBroken st rcServfail

/-- The state `QS_UDPRECEIVE`. -/
def udpReceive (st : QueryServ) : Prog NetOp (Rv × QueryServ) := do
  let udpbufsize := if st.ednsQuery then cfg.udpbufsize else udpBufsize
  match ← reallocOrCleanup st.recvAt udpbufsize with
  | none => closeBroken { st with recvAt := none } rcFatalerr
  | some block =>
      let st := { st with recvAt := some block }
      match ← .ask (.recv st.sock udpbufsize) with
      | .error errno => closeBroken { st with sErrno := some errno } rcServfail
      | .ok bytes =>
          let st := { st with recvbuf := bytes, recvl := bytes.length }
          if bytes.length < 12 ∨ hdrId bytes ≠ st.myrid then
            pure (.again, { st with state := .udpReceive })
          else do
            .ask (.close st.sock)
            pure (.rc rcOk, { st with state := .done })

/-- `switch_to_udp`. -/
def switchToUdp (st : QueryServ) : Prog NetOp QueryServ := do
  let rid ← .ask .rand16
  pure { st with qm := .udpOnly, myrid := rid, state := .udpInitial }

/-- `switch_to_tcp`. -/
def switchToTcp (st : QueryServ) : QueryServ :=
  { st with qm := .tcpOnly, state := .initial, failed := 0 }

/-- The label `tcp_failed`. -/
def tcpFailed (st : QueryServ) : Prog NetOp (Rv × QueryServ) :=
  if st.qm = .tcpUdp then switchToUdp st >>= udpInitial cfg name thint
  else broken st rcServfail

/-- The socket is closed before the label `tcp_failed`. -/
def closeFailed (st : QueryServ) (errno : Option Errno) : Prog NetOp (Rv × QueryServ) := do
  .ask (.close st.sock)
  tcpFailed cfg name thint { st with sErrno := errno.or st.sErrno }

/-- The second part of `QS_TCPREAD`, which reads the message. -/
def readMessage (st : QueryServ) : Prog NetOp (Rv × QueryServ) := do
  let offset := st.iolen - 2
  let rem := st.recvl - offset
  if 0 < rem then
    match ← .ask (.read st.sock rem) with
    | .error errno =>
        if errno = .ewouldblock then pure (.again, st)
        else closeFailed cfg name thint st (some errno)
    | .ok [] => closeFailed cfg name thint st none
    | .ok bytes =>
        let st := { st with
          recvbuf := st.recvbuf.take offset ++ bytes
          iolen := st.iolen + bytes.length }
        if bytes.length < rem then pure (.again, st)
        else do
          .ask (.close st.sock)
          pure (.rc rcOk, { st with state := .done })
  else do
    .ask (.close st.sock)
    pure (.rc rcOk, { st with state := .done })

/-- The state `QS_TCPREAD`. -/
def tcpRead (st : QueryServ) : Prog NetOp (Rv × QueryServ) := do
  if st.iolen = 0 then
    match ← .ask (.readLength st.sock st.recvAt) with
    | .error errno =>
        if errno = .ewouldblock then pure (.again, st)
        else closeFailed cfg name thint st (some errno)
    | .ok bytes =>
        if bytes.length = 2 then
          match ← reallocOrCleanup st.recvAt (int16 bytes 0) with
          | none => closeBroken { st with iolen := 2, recvAt := none } rcFatalerr
          | some block =>
              readMessage cfg name thint { st with
                iolen := 2
                recvl := int16 bytes 0
                recvbuf := []
                recvAt := some block }
        else closeFailed cfg name thint st none
  else readMessage cfg name thint st

/-- The state `QS_TCPWRITE`. -/
def tcpWrite (st : QueryServ) : Prog NetOp (Rv × QueryServ) := do
  let left := (st.message cfg name thint).drop st.iolen
  if left = [] then tcpRead cfg name thint { st with state := .tcpRead, iolen := 0 }
  else
    match ← .ask (.write st.sock left) with
    | .error errno =>
        if errno = .ewouldblock then pure (.again, st)
        else if st.iolen = 0 ∧ (errno = .econnrefused ∨ errno = .econnreset ∨ errno = .epipe) then
          -- this error may be delayed from `connect`
          closeFailed cfg name thint st (some errno)
        else closeBroken { st with sErrno := some errno } rcServfail
    | .ok n =>
        if n < left.length then pure (.again, { st with iolen := st.iolen + n })
        else tcpRead cfg name thint { st with state := .tcpRead, iolen := 0 }

/-- The state `QS_TCPINITIAL`. -/
def tcpInitial (st : QueryServ) : Prog NetOp (Rv × QueryServ) := do
  match ← .ask (.socket .stream) with
  | none => broken st rcServfail
  | some sock =>
      let st := { st with sock := sock }
      if ← .ask (.bindSocket sock) then
        if ← .ask (.setNonblock sock) then
          let st := { st with iolen := 0 }
          match ← .ask (.connect sock st.addr st.port) with
          | none => tcpWrite cfg name thint { st with state := .tcpWrite }
          | some errno =>
              if errno = .einprogress ∨ errno = .epipe then
                pure (.again, { st with state := .tcpWrite })
              else if errno = .econnrefused then closeFailed cfg name thint st (some errno)
              else closeBroken st rcServfail
        else closeBroken st rcServfail
      else closeBroken st rcServfail

/-- `p_query_sm`. -/
def pQuerySm (st : QueryServ) : Prog NetOp (Rv × QueryServ) :=
  match st.state with
  | .tcpInitial => tcpInitial cfg name thint st
  | .tcpWrite => tcpWrite cfg name thint st
  | .tcpRead => tcpRead cfg name thint st
  | .udpInitial => udpInitial cfg name thint st
  | .udpReceive => udpReceive cfg st
  | _ => broken st rcServfail

end Machine

/-- The list `*ns`, with the memory it is in. -/
structure NsList where
  items : List NsItem
  block : Option Nat

/-- What a call of `p_exec_query` leaves behind. -/
structure ExecResult where
  rv : Rv
  ent : Option Ent
  ns : NsList
  cSoa : Option UInt8
  st : QueryServ

def noNs : NsList := ⟨[], none⟩

/-- `*c_soa` is set where the caller asks for it. -/
def setSoa (cSoa value : Option UInt8) : Option UInt8 :=
  cSoa.bind fun old => some (value.getD old)

section Exec

variable (cfg : ResolverConfig) (name : Name) (thint : Nat) (cSoa : Option UInt8)

/-- A return without an answer. -/
def execFailed (rv : Rv) (st : QueryServ) : ExecResult :=
  ⟨rv, none, noNs, cSoa, st⟩

/-- The label `discard_reply`. -/
def discardReply (st : QueryServ) (code : Nat) : Prog NetOp ExecResult := do
  freeBlock st.msg
  freeBlock st.recvAt
  pure (execFailed cSoa (.rc code) { st with state := .done })

/-- An error of `p_query_sm`. -/
def queryFailed (st : QueryServ) (code : Nat) : Prog NetOp ExecResult := do
  freeBlock st.msg
  freeBlock st.recvAt
  let st := { st with state := .done }
  if st.needsTesting ≠ 0 ∧ st.sErrno.any Errno.unreachable then do
    .ask (.schedServerTest [st.addr] 0)
    pure (execFailed cSoa (.rc code) { st with needsTesting := 0 })
  else pure (execFailed cSoa (.rc code) st)

/-- The entries that go into the cache. -/
def addAll (st : QueryStat) : List Cent → Prog NetOp Unit
  | [] => pure ()
  | cent :: cents => do
      .ask (.addRecords st cent)
      addAll st cents

/-- The name servers of an answer are put into a list, if there is memory for it. -/
def keepNs (ns : List NsItem) : Prog NetOp (Option NsList) :=
  if ns.isEmpty then pure (some noNs) else do
    let block ← .ask .malloc
    pure (block.map fun b => ⟨ns, some b⟩)

/-- The entry of an answer is put into memory, if there is any. -/
def keepEnt (ent : Option Cent) : Prog NetOp (Option (Option Ent)) :=
  ent.elim (pure (some none)) fun cent => do
    let block ← .ask .malloc
    pure (block.map fun b => some ⟨b, cent⟩)

/-- There is no memory for what is read from a reply. -/
def outOfMemory (st : QueryServ) : Prog NetOp ExecResult := do
  freeBlock st.recvAt
  pure (execFailed cSoa (.rc rcFatalerr) { st with state := .done })

/-- What is found in a reply is put into memory and into the cache. -/
def keepAnswer (st : QueryServ) (answer : Answer) : Prog NetOp ExecResult := do
  match ← keepNs answer.ns with
  | none => outOfMemory cSoa { st with toQueryStat := answer.st }
  | some ns =>
      match ← keepEnt answer.ent with
      | none => do
          freeBlock ns.block
          outOfMemory cSoa { st with toQueryStat := answer.st }
      | some ent => do
          addAll st.toQueryStat answer.added
          freeBlock st.recvAt
          pure ⟨.rc answer.rv, ent, ns, setSoa cSoa answer.cSoa,
            { st with toQueryStat := answer.st, state := .done }⟩

/-- The reply is used. Memory for its sections is needed if the question is the one that was
asked. -/
def useAnswer (st : QueryServ) : Prog NetOp ExecResult := do
  freeBlock st.msg
  let queryts ← .ask .time
  let answer := useReply cfg.toQueryConfig st.toQueryStat [] name thint queryts
  if (checkQuestion st.recvbuf name (st.qtype thint)).isNone then keepAnswer cSoa st answer
  else if ← .ask .sections then keepAnswer cSoa st answer
  else
    outOfMemory cSoa { st with
      aa := hdrAa st.recvbuf && st.failed == 0
      tc := hdrTc st.recvbuf
      ra := st.rd && hdrRa st.recvbuf }

/-- What is done with a reply, as its return code says. -/
def useRcode (sendAgain : QueryServ → Prog NetOp ExecResult) (st : QueryServ) :
    Prog NetOp ExecResult :=
  match judgeRcode st.toQueryStat 0 with
  | .use stat => useAnswer cfg name thint cSoa { st with toQueryStat := stat }
  | .discard => discardReply cSoa st (hdrRcode st.recvbuf)
  | .requery stat => do
      let rid ← .ask .rand16
      let st := { st with toQueryStat := { stat with myrid := rid } }
      sendAgain { st with state := st.firstState }

/-- What is done when `p_query_sm` has a reply. The query is sent again so many times at most, as
a bit of it is cleared each time. -/
def execReply (sendAgain : QueryServ → Prog NetOp ExecResult) (st : QueryServ) :
    Prog NetOp ExecResult := do
  if sane st.toQueryStat then
    if st.needsTesting = 0 then useRcode cfg name thint cSoa sendAgain st else do
      .ask (.schedServerTest [st.addr] 1)
      useRcode cfg name thint cSoa sendAgain { st with needsTesting := 0 }
  else discardReply cSoa st rcServfail

/-- The label `tryagain`. -/
def execLoop : Nat → QueryServ → Prog NetOp ExecResult
  | retries, st => do
      let (rv, st) ← pQuerySm cfg name thint st
      match rv with
      | .again => pure (execFailed cSoa .again st)
      | .rc code =>
          if code = rcOk then
            match retries with
            | 0 => execReply cfg name thint cSoa (fun _ => unreachable) st
            | retries + 1 => execReply cfg name thint cSoa (execLoop retries) st
          else queryFailed cSoa st code

/-- `p_exec_query` with an entry asked for. -/
def pExecQuery (st : QueryServ) : Prog NetOp ExecResult :=
  match st.state with
  | .initial => do
      match ← .ask .malloc with
      | none => pure (execFailed cSoa (.rc rcFatalerr) { st with state := .done })
      | some block => do
          let rid ← .ask .rand16
          let st := { st with
            toQueryStat := st.initial rid
            msg := some block
            recvAt := none
            state := st.firstState }
          execLoop cfg name thint cSoa st.retries st
  | .canceled | .done => pure (execFailed cSoa (.rc rcServfail) { st with state := .done })
  | _ => execLoop cfg name thint cSoa st.retries st

end Exec

/-- `p_cancel_query`. -/
def pCancelQuery (st : QueryServ) : Prog NetOp QueryServ :=
  match st.state with
  | .initial | .done => pure st
  | .canceled => pure { st with state := .canceled }
  | .tcpInitial | .udpInitial => do
      freeBlock st.recvAt
      freeBlock st.msg
      pure { st with state := .canceled }
  | _ => do
      .ask (.close st.sock)
      freeBlock st.recvAt
      freeBlock st.msg
      pure { st with state := .canceled }

end TorAndroid.Dns.Resolver
