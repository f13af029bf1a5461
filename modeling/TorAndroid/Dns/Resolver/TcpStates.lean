import TorAndroid.Dns.Resolver.QueryMachine
import TorAndroid.Dns.TcpQuery

namespace TorAndroid.Dns.Resolver

open TorAndroid.Lib.ByteBuffer TorAndroid.Lib.Interaction
open TcpQuery (Conn ReadResult ReturnCode WriteResult)

/-- The errors that these states tell apart. -/
def connErrno : TcpQuery.Errno → Errno
  | .econnrefused => .econnrefused
  | .econnreset => .econnreset
  | .epipe => .epipe
  | .other => .other

def readResult : ReadResult → Except Errno (List UInt8)
  | .wouldblock => .error .ewouldblock
  | .data bytes => .ok bytes
  | .eof => .ok []
  | .error errno => .error (connErrno errno)

def writeResult : WriteResult → Except Errno Nat
  | .wouldblock => .error .ewouldblock
  | .taken rv => .ok rv
  | .error errno => .error (connErrno errno)

def returnCode : ReturnCode → Nat
  | .ok => rcOk
  | .servFail => rcServfail
  | .fatalErr => rcFatalerr

/-- The result of a call, with the connection after it. -/
abbrev TcpResult := TcpQuery.Outcome × TcpQuery.QueryStat × Conn

/-- A machine with one TCP connection, and without UDP. The buffer for a reply may be allocated. -/
structure TcpMachine where
  conn : Conn
  live : Bool
  closed : Bool

def TcpMachine.read (m : TcpMachine) (count : Nat) : Except Errno (List UInt8) × TcpMachine :=
  (readResult (m.conn.read count).1, { m with conn := (m.conn.read count).2 })

/-- What the machine does, with memory for these sizes. A buffer that is not allocated is not
freed. -/
def TcpMachine.serve (memory : Nat → Bool) {β : Type} (op : NetOp β) (m : TcpMachine) :
    Option (β × TcpMachine) :=
  match op with
  | .read _ count => some (m.read count)
  | .readLength _ _ => some (m.read 2)
  | .write _ bytes =>
      some (writeResult (m.conn.write bytes).1, { m with conn := (m.conn.write bytes).2 })
  | .realloc block size =>
      if block.isSome ∧ size = 0 then some (none, { m with live := false })
      else if memory size then some (some 0, { m with live := true })
      else some (none, m)
  | .free _ => if m.live then some ((), { m with live := false }) else none
  | .close _ => some ((), { m with closed := true })
  | .rand16 => some (0, m)
  | .socket _ => some (none, m)
  | _ => none

/-- The states of the two models. -/
def queryState : TcpQuery.QState → QState
  | .tcpWrite => .tcpWrite
  | .tcpRead => .tcpRead
  | .udpInitial => .udpInitial
  | .done => .done

section Tracking

variable (cfg : ResolverConfig) (name : Name) (thint : Nat)

/-- The two models are in the same state. In the buffer, `QueryServ` has only what was read. -/
structure Tracks (st : TcpQuery.QueryStat) (q : QueryServ) (m : TcpMachine) : Prop where
  state : q.state = queryState st.state
  qm : q.qm = st.qm
  iolen : q.iolen = st.iolen
  sErrno : q.sErrno = st.s_errno.map connErrno
  message : q.message cfg name thint = st.msg.take (2 + st.transl)
  fits : 2 + st.transl ≤ st.msg.length
  recvAt : q.recvAt.isSome = st.recvbuf.isSome
  live : m.live = st.recvbuf.isSome
  closed : m.closed = st.closed

/-- A part of the reply is read. -/
structure Holds (st : TcpQuery.QueryStat) (q : QueryServ) : Prop where
  recvl : q.recvl = st.recvl
  iolen : st.iolen = 2 + q.recvbuf.length
  recvbuf : ∃ junk, st.recvbuf = some (q.recvbuf ++ junk) ∧
    q.recvbuf.length + junk.length = st.recvl

/-- The state between two calls. -/
structure Waits (st : TcpQuery.QueryStat) (q : QueryServ) (m : TcpMachine) : Prop where
  tracks : Tracks cfg name thint st q m
  state : st.state = .tcpWrite ∨ st.state = .tcpRead
  holds : st.state = .tcpRead → st.iolen ≠ 0 → Holds st q

/-- A call ends in the same way. Where the query goes on by UDP, it fails on this machine. -/
structure Meets (result : TcpResult) (x : (Rv × QueryServ) × TcpMachine) :
    Prop where
  conn : x.2.conn = result.2.2
  again : result.1 = .again → x.1.1 = .again ∧ Waits cfg name thint result.2.1 x.1.2 x.2
  rc : ∀ code, result.1 = .rc code → x.1.1 = .rc (returnCode code) ∧
    x.1.2.sErrno = result.2.1.s_errno.map connErrno ∧ x.2.closed = result.2.1.closed
  ok : result.1 = .rc .ok → x.1.2.recvl = result.2.1.recvl ∧
    result.2.1.recvbuf = some x.1.2.recvbuf
  udp : result.1 = .udp → x.1.1 = .rc rcServfail ∧ x.1.2.qm = .udpOnly

/-- A call has no result exactly if the machine gets stuck. -/
def Agrees (result : Option TcpResult)
    (run : Option ((Rv × QueryServ) × TcpMachine)) : Prop :=
  match result with
  | none => run = none
  | some result => ∃ x, run = some x ∧ Meets cfg name thint result x

end Tracking

section Calls

variable {memory : Nat → Bool} {cfg : ResolverConfig} {name : Name} {thint : Nat}
  {st : TcpQuery.QueryStat} {q : QueryServ} {m : TcpMachine}

/-- A program of the resolver on the machine. -/
def TcpMachine.run {α : Type} (memory : Nat → Bool) (p : Prog NetOp α) (m : TcpMachine) :
    Option (α × TcpMachine) :=
  p.run (fun op m => m.serve memory op) m

theorem run_ask_bind {α β : Type} (op : NetOp α) (f : α → Prog NetOp β) (m : TcpMachine) :
    m.run memory (Prog.ask op >>= f) = (m.serve memory op).bind fun x => x.2.run memory (f x.1) :=
  rfl

theorem run_pure {α : Type} (a : α) (m : TcpMachine) :
    m.run memory (pure a : Prog NetOp α) = some (a, m) := rfl

theorem run_bind {α β : Type} (p : Prog NetOp α) (f : α → Prog NetOp β) (m : TcpMachine) :
    m.run memory (p >>= f) = (m.run memory p).bind fun x => x.2.run memory (f x.1) :=
  Prog.run_bind p f m

theorem run_reallocOrCleanup {block : Option Nat} {size : Nat} (hlive : m.live = block.isSome) :
    m.run memory (reallocOrCleanup block size) =
      if block.isSome ∧ size = 0 then none
      else if memory size then some (some 0, { m with live := true })
      else some (none, { m with live := false }) := by
  obtain ⟨conn, live, closed⟩ := m
  cases hlive
  rw [reallocOrCleanup, run_ask_bind, TcpMachine.serve]
  split_ifs with hfreed hroom
  · obtain ⟨b, rfl⟩ := Option.isSome_iff_exists.mp hfreed.1
    rfl
  · rfl
  · cases block <;> rfl

theorem agrees_some {result : TcpResult} {x : (Rv × QueryServ) × TcpMachine}
    (h : Meets cfg name thint result x) : Agrees cfg name thint (some result) (some x) :=
  ⟨x, rfl, h⟩

theorem meets_again (h : Waits cfg name thint st q m) :
    Meets cfg name thint (.again, st, m.conn) ((.again, q), m) where
  conn := rfl
  again := fun _ => ⟨rfl, h⟩
  rc := fun _ h => by cases h
  ok := fun h => by cases h
  udp := fun h => by cases h

theorem meets_ended {code : ReturnCode} (herrno : q.sErrno = st.s_errno.map connErrno)
    (hclosed : m.closed = st.closed)
    (hok : code = .ok → q.recvl = st.recvl ∧ st.recvbuf = some q.recvbuf) :
    Meets cfg name thint (.rc code, st, m.conn) ((.rc (returnCode code), q), m) where
  conn := rfl
  again := fun h => by cases h
  rc := by
    rintro _ ⟨⟩
    exact ⟨rfl, herrno, hclosed⟩
  ok := by
    intro h
    cases h
    exact hok rfl
  udp := fun h => by cases h

theorem meets_udp (hqm : q.qm = .udpOnly) :
    Meets cfg name thint (.udp, st, m.conn) ((.rc rcServfail, q), m) where
  conn := rfl
  again := fun h => by cases h
  rc := fun _ h => by cases h
  ok := fun h => by cases h
  udp := fun _ => ⟨rfl, hqm⟩

/-- The label `tcp_failed`. -/
theorem tcpFailed_agrees (hqm : q.qm = st.qm) (herrno : q.sErrno = st.s_errno.map connErrno)
    (hclosed : m.closed = st.closed) :
    Agrees cfg name thint (some ((TcpQuery.tcpFailed st).1, (TcpQuery.tcpFailed st).2, m.conn))
      (m.run memory (tcpFailed cfg name thint q)) := by
  rw [TcpQuery.tcpFailed, tcpFailed, hqm]
  split_ifs
  · exact agrees_some (meets_udp rfl)
  · exact agrees_some (@meets_ended _ _ _ _ _ _ .servFail herrno hclosed fun h => by cases h)

/-- The label `error_receiv_data`. -/
theorem closeFailed_agrees (h : Tracks cfg name thint st q m) (errno : Option TcpQuery.Errno) :
    Agrees cfg name thint
      (some ((TcpQuery.errorReceivData st errno).1, (TcpQuery.errorReceivData st errno).2, m.conn))
      (m.run memory (closeFailed cfg name thint q (errno.map connErrno))) := by
  rw [closeFailed, run_ask_bind]
  refine tcpFailed_agrees (m := { m with closed := true }) h.qm ?_ rfl
  rw [h.sErrno]
  cases errno <;> rfl

theorem connErrno_ne_ewouldblock (errno : TcpQuery.Errno) : connErrno errno ≠ .ewouldblock := by
  cases errno <;> decide

theorem serve_read {count : Nat} {result : ReadResult} {conn : Conn}
    (h : m.conn.read count = (result, conn)) :
    m.read count = (readResult result, { m with conn }) := by
  rw [TcpMachine.read, h]

/-- A read that brings something brings at least one byte. -/
theorem read_data {conn conn' : Conn} {count : Nat} {bytes : List UInt8} (hcount : 0 < count)
    (h : conn.read count = (.data bytes, conn')) : bytes ≠ [] ∧ bytes.length ≤ count := by
  have htake : ∀ conn : Conn, conn.take count = (.data bytes, conn') →
      bytes ≠ [] ∧ bytes.length ≤ count := by
    intro conn h
    rw [Conn.take] at h
    split_ifs at h with hempty
    · cases h
    · cases h
      refine ⟨fun hnil => ?_, List.length_take_le count _⟩
      rcases List.take_eq_nil_iff.mp hnil with hzero | hnil
      · exact hcount.ne' hzero
      · exact hempty hnil
  obtain ⟨sent, rooms, buffered, wire, arrivals⟩ := conn
  rcases arrivals with _ | ⟨_ | _ | _, arrivals⟩
  · exact htake _ h
  · exact htake _ h
  · cases h
  · cases h

/-- Some more of the reply is stored. -/
theorem Tracks.stored (h : Tracks cfg name thint st q m) (hheld : st.recvbuf.isSome = true)
    (buf bytes : List UInt8) (n : Nat) :
    Tracks cfg name thint { st with recvbuf := some buf, iolen := st.iolen + n }
      { q with recvbuf := bytes, iolen := q.iolen + n } m where
  state := h.state
  qm := h.qm
  iolen := congrArg (· + n) h.iolen
  sErrno := h.sErrno
  message := h.message
  fits := h.fits
  recvAt := h.recvAt.trans hheld
  live := h.live.trans hheld
  closed := h.closed

/-- Bytes of the reply are stored behind those that are there. -/
theorem Holds.stored {junk bytes : List UInt8} (h : Holds st q)
    (hlen : q.recvbuf.length + junk.length = st.recvl) (hle : bytes.length ≤ junk.length) :
    Holds
      { st with
        recvbuf := some (q.recvbuf ++ bytes ++ junk.drop bytes.length)
        iolen := st.iolen + bytes.length }
      { q with
        recvbuf := q.recvbuf ++ bytes
        iolen := q.iolen + bytes.length } where
  recvl := h.recvl
  iolen := by
    rw [List.length_append, ← Nat.add_assoc, ← h.iolen]
  recvbuf := by
    refine ⟨_, rfl, ?_⟩
    change (q.recvbuf ++ bytes).length + (junk.drop _).length = st.recvl
    rw [List.length_append, List.length_drop]
    omega

/-- The whole reply is there. -/
theorem complete_agrees (hheld : Holds st q) (herrno : q.sErrno = st.s_errno.map connErrno)
    (hfull : st.recvl ≤ q.recvbuf.length) :
    Agrees cfg name thint
      (some (.rc .ok, { st with closed := true, state := .done }, m.conn))
      (some ((.rc rcOk, { q with state := .done }), { m with closed := true })) := by
  obtain ⟨junk, hbuf, hlen⟩ := hheld.recvbuf
  have hnil : junk = [] := List.length_eq_zero_iff.mp (by omega)
  rw [hnil, List.append_nil] at hbuf
  exact agrees_some (@meets_ended _ _ _ { st with closed := true, state := .done }
    { q with state := .done } { m with closed := true } .ok herrno rfl
      fun _ => ⟨hheld.recvl, hbuf⟩)

/-- The second part of `QS_TCPREAD`. -/
theorem readMessage_agrees (h : Tracks cfg name thint st q m) (hstate : st.state = .tcpRead)
    (hheld : Holds st q) :
    Agrees cfg name thint (TcpQuery.readMessage st m.conn)
      (m.run memory (readMessage cfg name thint q)) := by
  obtain ⟨junk, hbuf, hlen⟩ := hheld.recvbuf
  have hoffset : st.iolen - 2 = q.recvbuf.length := by
    rw [hheld.iolen]
    exact Nat.add_sub_cancel_left 2 _
  have hoffset' : q.iolen - 2 = q.recvbuf.length := by rw [h.iolen, hoffset]
  have hrem : ((st.recvl : Int) - (q.recvbuf.length : Nat)).toNat = junk.length := by omega
  have hrem' : q.recvl - q.recvbuf.length = junk.length := by
    rw [hheld.recvl]
    omega
  simp only [TcpQuery.readMessage, hoffset]
  rw [readMessage]
  simp only [hoffset', hrem']
  by_cases hmore : 0 < junk.length
  · rw [if_pos (by omega), if_pos hmore, hrem, run_ask_bind]
    change Agrees _ _ _ _ ((some (m.read junk.length)).bind _)
    rw [Option.bind_some]
    rcases hread : m.conn.read junk.length with ⟨result, conn⟩
    have htracks : Tracks cfg name thint st q { m with conn } := { h with }
    rw [serve_read hread]
    cases result with
    | wouldblock => exact agrees_some (meets_again ⟨htracks, .inr hstate, fun _ _ => hheld⟩)
    | error errno =>
        dsimp only [readResult]
        rw [if_neg (connErrno_ne_ewouldblock errno)]
        exact closeFailed_agrees htracks (some errno)
    | eof => exact closeFailed_agrees htracks none
    | data bytes =>
        obtain ⟨hne, hle⟩ := read_data hmore hread
        obtain ⟨b, bytes, rfl⟩ := List.exists_cons_of_ne_nil hne
        have hstore : store (q.recvbuf ++ junk) q.recvbuf.length (b :: bytes) =
            some (q.recvbuf ++ b :: bytes ++ junk.drop (b :: bytes).length) := by
          have htake : (b :: bytes).length = (junk.take (b :: bytes).length).length := by
            rw [List.length_take, Nat.min_eq_left hle]
          rw [← store_append htake, List.append_assoc, List.take_append_drop]
        have hheld' := hheld.stored hlen hle
        dsimp only [readResult]
        simp only [hbuf, Option.bind_eq_bind, Option.bind_some, hstore, List.take_length]
        by_cases hshort : (b :: bytes).length < junk.length
        · rw [if_pos (by omega), if_pos hshort]
          exact agrees_some (meets_again
            ⟨htracks.stored (by rw [hbuf]; rfl) _ _ _, .inr hstate, fun _ _ => hheld'⟩)
        · rw [if_neg (by omega), if_neg hshort]
          have hfull : st.recvl ≤ (q.recvbuf ++ b :: bytes).length := by
            rw [List.length_append]
            omega
          have hdone := @complete_agrees cfg name thint _ _ { m with conn } hheld' h.sErrno hfull
          exact hdone
  · rw [if_neg (by omega), if_neg hmore]
    exact complete_agrees hheld h.sErrno (by omega)

theorem ntohs_eq {bytes : List UInt8} (h : bytes.length = 2) :
    TcpQuery.ntohs bytes = int16 bytes 0 := by
  match bytes, h with
  | [high, low], _ =>
      change 256 * high.toNat + low.toNat = high.toNat * 256 + low.toNat
      rw [Nat.mul_comm]

variable {realloc : Option (List UInt8) → Nat → Option (List UInt8)}

/-- `realloc` finds memory for the sizes that the machine has memory for. -/
def Supplies (memory : Nat → Bool) (realloc : Option (List UInt8) → Nat → Option (List UInt8)) :
    Prop :=
  ∀ ptr size, ¬(ptr.isSome ∧ size = 0) →
    if memory size then ∃ block, realloc ptr size = some block ∧ block.length = size
    else realloc ptr size = none

/-- The reply is read into a new buffer. -/
theorem allocated_agrees (h : Tracks cfg name thint st q m) (hstate : st.state = .tcpRead)
    {size : Nat} {block : List UInt8} (hlen : block.length = size) :
    Agrees cfg name thint
      (TcpQuery.readMessage { st with iolen := 2, recvl := size, recvbuf := some block } m.conn)
      ({ m with live := true }.run memory (readMessage cfg name thint
        { q with iolen := 2, recvl := size, recvbuf := [], recvAt := some 0 })) := by
  refine @readMessage_agrees _ _ _ _
    { st with iolen := 2, recvl := size, recvbuf := some block }
    { q with iolen := 2, recvl := size, recvbuf := [], recvAt := some 0 }
    { m with live := true } { h with iolen := rfl, recvAt := rfl, live := rfl } hstate
    ⟨rfl, rfl, block, rfl, ?_⟩
  rw [hlen]
  exact Nat.zero_add size

/-- There is no memory for the reply. -/
theorem noMemory_agrees (herrno : q.sErrno = st.s_errno.map connErrno) (size : Nat) :
    Agrees cfg name thint
      (some (.rc .fatalErr,
        { st with iolen := 2, recvl := size, recvbuf := none, closed := true, state := .done },
        m.conn))
      (some ((.rc rcFatalerr, { q with iolen := 2, recvAt := none, state := .done }),
        { m with live := false, closed := true })) :=
  agrees_some (@meets_ended _ _ _
    { st with iolen := 2, recvl := size, recvbuf := none, closed := true, state := .done }
    { q with iolen := 2, recvAt := none, state := .done }
    { m with live := false, closed := true } .fatalErr herrno rfl
    fun h => by cases h)

/-- `QS_TCPREAD`. -/
theorem tcpRead_agrees (hmemory : Supplies memory realloc) (h : Waits cfg name thint st q m)
    (hstate : st.state = .tcpRead) :
    Agrees cfg name thint (TcpQuery.tcpRead realloc st m.conn)
      (m.run memory (tcpRead cfg name thint q)) := by
  obtain ⟨htracks, -, hheld⟩ := h
  rw [TcpQuery.tcpRead, tcpRead, htracks.iolen]
  by_cases hiolen : st.iolen = 0
  · rw [if_pos hiolen, if_pos hiolen, run_ask_bind]
    change Agrees _ _ _ _ ((some (m.read 2)).bind _)
    rw [Option.bind_some]
    rcases hread : m.conn.read 2 with ⟨result, conn⟩
    have htracks' : Tracks cfg name thint st q { m with conn } := { htracks with }
    rw [serve_read hread]
    cases result with
    | wouldblock =>
        exact agrees_some (meets_again ⟨htracks', .inr hstate, fun _ h => absurd hiolen h⟩)
    | error errno =>
        dsimp only [readResult]
        rw [if_neg (connErrno_ne_ewouldblock errno)]
        exact closeFailed_agrees htracks' (some errno)
    | eof => exact closeFailed_agrees htracks' none
    | data bytes =>
        dsimp only [readResult]
        by_cases htwo : bytes.length = 2
        · rw [if_neg (not_not.mpr htwo), if_pos htwo, ntohs_eq htwo]
          have hlive : m.live = q.recvAt.isSome := htracks.live.trans htracks.recvAt.symm
          rw [run_bind, @run_reallocOrCleanup memory { m with conn } q.recvAt _ hlive,
            htracks.recvAt, TcpQuery.reallocOrCleanup]
          by_cases hfreed : st.recvbuf.isSome ∧ int16 bytes 0 = 0
          · rw [if_pos hfreed, if_pos hfreed]
            rfl
          · have hsupply := hmemory st.recvbuf (int16 bytes 0) hfreed
            rw [if_neg hfreed, if_neg hfreed]
            by_cases hroom : memory (int16 bytes 0) = true
            · rw [if_pos hroom] at hsupply
              obtain ⟨block, hblock, hlen⟩ := hsupply
              rw [if_pos hroom, hblock, Option.bind_some]
              exact allocated_agrees htracks' hstate hlen
            · rw [if_neg hroom] at hsupply
              rw [if_neg hroom, hsupply, Option.bind_some]
              exact noMemory_agrees (m := { m with conn }) htracks.sErrno _
        · rw [if_pos htwo, if_neg htwo]
          exact closeFailed_agrees htracks' none
  · rw [if_neg hiolen, if_neg hiolen]
    exact readMessage_agrees htracks hstate (hheld hstate hiolen)

/-- The query is written, and the reply is read next. -/
theorem Tracks.written (h : Tracks cfg name thint st q m) :
    Waits cfg name thint { st with state := .tcpRead, iolen := 0 }
      { q with state := .tcpRead, iolen := 0 } m where
  tracks := { h with state := rfl, iolen := rfl }
  state := .inr rfl
  holds := fun _ hiolen => absurd rfl hiolen

theorem Tracks.unsent_eq (h : Tracks cfg name thint st q m) :
    (q.message cfg name thint).drop q.iolen = TcpQuery.unsent st := by
  rw [h.message, h.iolen, TcpQuery.unsent, List.drop_take]

/-- The errors of a first write that come from the connection that was asked for before. -/
theorem Tracks.delayed_iff (h : Tracks cfg name thint st q m) (errno : TcpQuery.Errno) :
    (q.iolen = 0 ∧ (connErrno errno = .econnrefused ∨ connErrno errno = .econnreset ∨
      connErrno errno = .epipe)) ↔ st.iolen = 0 ∧ errno ≠ .other := by
  rw [h.iolen]
  cases errno <;> simp [connErrno]

/-- The write fails. -/
theorem writeFailed_agrees (errno : TcpQuery.Errno) :
    Agrees cfg name thint
      (some (.rc .servFail, { st with s_errno := some errno, closed := true, state := .done },
        m.conn))
      (some ((.rc rcServfail, { q with sErrno := some (connErrno errno), state := .done }),
        { m with closed := true })) :=
  agrees_some (@meets_ended _ _ _
    { st with s_errno := some errno, closed := true, state := .done }
    { q with sErrno := some (connErrno errno), state := .done }
    { m with closed := true } .servFail rfl rfl fun h => by cases h)

/-- `QS_TCPWRITE`. -/
theorem tcpWrite_agrees (hmemory : Supplies memory realloc) (h : Waits cfg name thint st q m)
    (hstate : st.state = .tcpWrite) :
    Agrees cfg name thint (TcpQuery.tcpWrite realloc st m.conn)
      (m.run memory (tcpWrite cfg name thint q)) := by
  have htracks := h.tracks
  have hlen := TcpQuery.unsent_length htracks.fits
  have hread := tcpRead_agrees hmemory htracks.written rfl
  have hrem : ((TcpQuery.dnsmsghdroffset : Nat) + st.transl - st.iolen : Int).toNat =
      2 + st.transl - st.iolen := by
    rw [TcpQuery.dnsmsghdroffset]
    omega
  rw [TcpQuery.tcpWrite, tcpWrite, htracks.unsent_eq]
  by_cases hdone : TcpQuery.unsent st = []
  · have hzero : 2 + st.transl - st.iolen = 0 := by rw [← hlen, hdone, List.length_nil]
    dsimp only
    rw [if_pos hdone, if_neg (by rw [TcpQuery.dnsmsghdroffset]; omega)]
    exact hread
  · have hpos : 0 < (TcpQuery.unsent st).length := List.length_pos_iff.mpr hdone
    have hload : load st.msg st.iolen (2 + st.transl - st.iolen) = some (TcpQuery.unsent st) :=
      if_pos (by have := htracks.fits; omega)
    dsimp only
    rw [if_neg hdone, if_pos (by rw [TcpQuery.dnsmsghdroffset]; omega), hrem, hload, run_ask_bind]
    rcases hwrite : m.conn.write (TcpQuery.unsent st) with ⟨result, conn⟩
    have hserve : m.serve memory (.write q.sock (TcpQuery.unsent st)) =
        some (writeResult result, { m with conn }) := by
      rw [TcpMachine.serve, hwrite]
    have htracks' : Tracks cfg name thint st q { m with conn } := { htracks with }
    simp only [Option.bind_eq_bind, Option.bind_some, hwrite, hserve]
    cases result with
    | wouldblock =>
        exact agrees_some (meets_again ⟨htracks', .inl hstate, fun hread => by
          rw [hstate] at hread; cases hread⟩)
    | error errno =>
        dsimp only [writeResult]
        rw [if_neg (connErrno_ne_ewouldblock errno)]
        by_cases hfirst : st.iolen = 0 ∧ errno ≠ .other
        · rw [if_pos hfirst, if_pos ((htracks.delayed_iff errno).mpr hfirst)]
          exact closeFailed_agrees htracks' (some errno)
        · rw [if_neg hfirst, if_neg fun h => hfirst ((htracks.delayed_iff errno).mp h)]
          exact writeFailed_agrees (m := { m with conn }) errno
    | taken rv =>
        dsimp only [writeResult]
        by_cases hshort : rv < (TcpQuery.unsent st).length
        · rw [if_pos (by rw [TcpQuery.dnsmsghdroffset]; omega), if_pos hshort]
          have hnext : Waits cfg name thint { st with iolen := st.iolen + rv }
              { q with iolen := q.iolen + rv } { m with conn } := by
            refine ⟨{ htracks' with iolen := congrArg (· + rv) htracks.iolen }, .inl hstate, ?_⟩
            intro hread
            rw [show st.state = .tcpRead from hread] at hstate
            cases hstate
          exact agrees_some (meets_again hnext)
        · rw [if_neg (by rw [TcpQuery.dnsmsghdroffset]; omega), if_neg hshort]
          exact tcpRead_agrees hmemory htracks'.written rfl

/-- The models are in the same state when the connection has just been made. -/
theorem waits_tcpWrite (conn : Conn) (hstate : q.state = .tcpWrite) (herrno : q.sErrno = none) :
    Waits cfg name thint
      { state := .tcpWrite
        qm := q.qm
        transl := (q.message cfg name thint).length - 2
        recvl := q.recvl
        iolen := q.iolen
        msg := q.message cfg name thint
        recvbuf := q.recvAt.map fun _ => []
        s_errno := none
        closed := false } q ⟨conn, q.recvAt.isSome, false⟩ := by
  have htwo : 2 + ((q.message cfg name thint).length - 2) = (q.message cfg name thint).length := by
    have hlong : 2 ≤ (q.message cfg name thint).length := by
      rw [QueryServ.message, List.length_append]
      exact Nat.le_add_right 2 _
    omega
  refine ⟨⟨hstate, rfl, rfl, herrno, ?_, htwo.le, ?_, ?_, rfl⟩, .inl rfl, fun h => by cases h⟩
  · rw [htwo, List.take_length]
  · exact Option.isSome_map.symm
  · exact Option.isSome_map.symm

/-- One call of `p_query_sm`. -/
theorem pQuerySm_agrees (hmemory : Supplies memory realloc) (h : Waits cfg name thint st q m) :
    Agrees cfg name thint (TcpQuery.pQuerySm realloc st m.conn)
      (m.run memory (pQuerySm cfg name thint q)) := by
  rw [TcpQuery.pQuerySm, pQuerySm, h.tracks.state]
  rcases h.state with hstate | hstate
  · rw [hstate]
    exact tcpWrite_agrees hmemory h hstate
  · rw [hstate]
    exact tcpRead_agrees hmemory h hstate

/-- At most so many calls of the resolver, until one does not return -1. -/
def driveServ (memory : Nat → Bool) (cfg : ResolverConfig) (name : Name) (thint : Nat) :
    Nat → QueryServ → TcpMachine → Option ((Rv × QueryServ) × TcpMachine)
  | 0, q, m => some ((.again, q), m)
  | n + 1, q, m =>
      (m.run memory (pQuerySm cfg name thint q)).bind fun x =>
        if x.1.1 = .again then driveServ memory cfg name thint n x.1.2 x.2 else some x

/-- However often `p_query_sm` is called, the two models end in the same way. -/
theorem drive_agrees (hmemory : Supplies memory realloc) (h : Waits cfg name thint st q m)
    (calls : Nat) :
    Agrees cfg name thint (TcpQuery.drive realloc calls st m.conn)
      (driveServ memory cfg name thint calls q m) := by
  induction calls generalizing st q m with
  | zero => exact agrees_some (meets_again h)
  | succ n ih =>
      have hcall := pQuerySm_agrees hmemory h
      rw [driveServ]
      cases hresult : TcpQuery.pQuerySm realloc st m.conn with
      | none =>
          rw [hresult] at hcall
          have hstuck : m.run memory (pQuerySm cfg name thint q) = none := hcall
          rw [TcpQuery.drive, hresult, hstuck]
          rfl
      | some result =>
          rw [hresult] at hcall
          obtain ⟨x, hx, hmeets⟩ := hcall
          rw [hx, Option.bind_some]
          by_cases hagain : result.1 = .again
          · obtain ⟨outcome, st', conn'⟩ := result
            cases hagain
            obtain ⟨hrv, hwaits⟩ := hmeets.again rfl
            have hconn : x.2.conn = conn' := hmeets.conn
            rw [TcpQuery.drive_of_again hresult, if_pos hrv, ← hconn]
            exact ih hwaits
          · rw [TcpQuery.drive_of_result hresult hagain, if_neg ?_]
            · exact agrees_some hmeets
            · intro hrv
              obtain ⟨outcome, st', conn'⟩ := result
              cases outcome with
              | again => exact hagain rfl
              | rc code =>
                  rw [(hmeets.rc code rfl).1] at hrv
                  cases hrv
              | udp =>
                  rw [(hmeets.udp rfl).1] at hrv
                  cases hrv

end Calls

end TorAndroid.Dns.Resolver
