import TorAndroid.Dns.Reply
import TorAndroid.Lib.ByteBuffer
import Mathlib.Algebra.GroupWithZero.Nat

/-!
The states of `p_query_sm` (`dns_query.c`) in which a query is written to a TCP connection and
the reply is read from it. The function is called again as long as it returns -1, and goes on
where it was. The connection is outside: what it takes of each write, and what has arrived
before each read.
-/

namespace TorAndroid.Dns.TcpQuery

open TorAndroid.Lib.ByteBuffer

/-- The values of `errno` that are told apart, besides `EWOULDBLOCK`. -/
inductive Errno
  | econnrefused
  | econnreset
  | epipe
  | other
  deriving DecidableEq

/-- How `write` ends: with room for so many bytes, or with an error. -/
inductive Room
  | bytes (n : Nat)
  | error (errno : Errno)

/-- What happens before a `read`: so many bytes arrive, the server closes the connection, or
the connection fails. -/
inductive Arrival
  | bytes (n : Nat)
  | eof
  | error (errno : Errno)

/-- The connection: what was sent on it, what has arrived and is not read, and what the server
has sent and has not arrived. The lists say what the following calls meet. Behind their ends
nothing more is taken, and nothing more arrives. -/
structure Conn where
  sent : List UInt8
  rooms : List Room
  buffered : List UInt8
  wire : List UInt8
  arrivals : List Arrival

inductive WriteResult
  | wouldblock
  | taken (rv : Nat)
  | error (errno : Errno)

inductive ReadResult
  | wouldblock
  | data (bytes : List UInt8)
  | eof
  | error (errno : Errno)

def Conn.write (conn : Conn) (bytes : List UInt8) : WriteResult × Conn :=
  match conn.rooms with
  | [] => (.wouldblock, conn)
  | .error errno :: rooms => (.error errno, { conn with rooms })
  | .bytes n :: rooms =>
      if n = 0 then (.wouldblock, { conn with rooms })
      else (.taken (bytes.take n).length, { conn with sent := conn.sent ++ bytes.take n, rooms })

/-- A read of at most `count` bytes of what has arrived. -/
def Conn.take (conn : Conn) (count : Nat) : ReadResult × Conn :=
  if conn.buffered = [] then (.wouldblock, conn)
  else (.data (conn.buffered.take count), { conn with buffered := conn.buffered.drop count })

def Conn.read (conn : Conn) (count : Nat) : ReadResult × Conn :=
  match conn.arrivals with
  | [] => conn.take count
  | .eof :: arrivals => (.eof, { conn with arrivals })
  | .error errno :: arrivals => (.error errno, { conn with arrivals })
  | .bytes n :: arrivals =>
      { conn with
        buffered := conn.buffered ++ conn.wire.take n
        wire := conn.wire.drop n
        arrivals }.take count

inductive QState
  | tcpWrite
  | tcpRead
  | udpInitial
  | done
  deriving DecidableEq

structure QueryStat where
  state : QState
  qm : QMethod
  transl : Nat
  recvl : Nat
  iolen : Nat
  msg : List UInt8
  recvbuf : Option (List UInt8)
  s_errno : Option Errno
  closed : Bool

inductive ReturnCode
  | ok
  | servFail
  | fatalErr
  deriving DecidableEq

/-- What a call ends with: -1, a return code, or the code that asks by UDP. -/
inductive Outcome
  | again
  | rc (code : ReturnCode)
  | udp
  deriving DecidableEq

def dnsmsghdroffset : Nat := 2

def ntohs : List UInt8 → Nat
  | [high, low] => 256 * high.toNat + low.toNat
  | _ => 0

section Code

-- `realloc` of the C library, for calls that do not come to a `free`
variable (realloc : Option (List UInt8) → Nat → Option (List UInt8))

/-- `realloc_or_cleanup` frees the block when `realloc` gives none. For no bytes at all `realloc`
itself has freed it, and there is no result because it is freed twice. -/
def reallocOrCleanup (ptr : Option (List UInt8)) (size : Nat) : Option (Option (List UInt8)) :=
  if ptr.isSome ∧ size = 0 then none else some (realloc ptr size)

/-- The label `tcp_failed`. -/
def tcpFailed (st : QueryStat) : Outcome × QueryStat :=
  if st.qm = .tcpUdp then (.udp, { st with qm := .udpOnly, state := .udpInitial })
  else (.rc .servFail, { st with state := .done })

/-- The label `error_receiv_data`. -/
def errorReceivData (st : QueryStat) (errno : Option Errno) : Outcome × QueryStat :=
  tcpFailed { st with s_errno := errno <|> st.s_errno, closed := true }

/-- The second part of `QS_TCPREAD`, which reads the message. It has no result when it stores
beyond the buffer. -/
def readMessage (st : QueryStat) (conn : Conn) : Option (Outcome × QueryStat × Conn) :=
  let offset := st.iolen - 2
  let rem : Int := st.recvl - offset
  if 0 < rem then
    match conn.read rem.toNat with
    | (.wouldblock, conn) => some (.again, st, conn)
    | (.error errno, conn) =>
        let (outcome, st) := errorReceivData st (some errno)
        some (outcome, st, conn)
    | (.eof, conn) =>
        let (outcome, st) := errorReceivData st none
        some (outcome, st, conn)
    | (.data bytes, conn) => do
        let recvbuf ← store (← st.recvbuf) offset bytes
        let st := { st with recvbuf := some recvbuf, iolen := st.iolen + bytes.length }
        if bytes.length < rem then some (.again, st, conn)
        else some (.rc .ok, { st with closed := true, state := .done }, conn)
  else some (.rc .ok, { st with closed := true, state := .done }, conn)

/-- `QS_TCPREAD`. It has no result when a block is freed twice, either. -/
def tcpRead (st : QueryStat) (conn : Conn) : Option (Outcome × QueryStat × Conn) :=
  if st.iolen = 0 then
    match conn.read 2 with
    | (.wouldblock, conn) => some (.again, st, conn)
    | (.error errno, conn) =>
        let (outcome, st) := errorReceivData st (some errno)
        some (outcome, st, conn)
    | (.eof, conn) =>
        let (outcome, st) := errorReceivData st none
        some (outcome, st, conn)
    | (.data bytes, conn) =>
        if bytes.length ≠ 2 then
          let (outcome, st) := errorReceivData st none
          some (outcome, st, conn)
        else
          let st := { st with iolen := 2, recvl := ntohs bytes }
          match reallocOrCleanup realloc st.recvbuf st.recvl with
          | none => none
          | some none => some (.rc .fatalErr,
              { st with recvbuf := none, closed := true, state := .done }, conn)
          | some (some block) => readMessage { st with recvbuf := some block } conn
  else readMessage st conn

/-- `QS_TCPWRITE`. It has no result when it reads beyond the message. -/
def tcpWrite (st : QueryStat) (conn : Conn) : Option (Outcome × QueryStat × Conn) :=
  let rem : Int := dnsmsghdroffset + st.transl - st.iolen
  if 0 < rem then do
    match conn.write (← load st.msg st.iolen rem.toNat) with
    | (.wouldblock, conn) => some (.again, st, conn)
    | (.error errno, conn) =>
        let st := { st with s_errno := some errno, closed := true }
        if st.iolen = 0 ∧ errno ≠ .other then
          let (outcome, st) := tcpFailed st
          some (outcome, st, conn)
        else some (.rc .servFail, { st with state := .done }, conn)
    | (.taken rv, conn) =>
        let st := { st with iolen := st.iolen + rv }
        if rv < rem then some (.again, st, conn)
        else tcpRead realloc { st with state := .tcpRead, iolen := 0 } conn
  else tcpRead realloc { st with state := .tcpRead, iolen := 0 } conn

/-- `p_query_sm` in the states of a TCP query. -/
def pQuerySm (st : QueryStat) (conn : Conn) : Option (Outcome × QueryStat × Conn) :=
  match st.state with
  | .tcpWrite => tcpWrite realloc st conn
  | .tcpRead => tcpRead realloc st conn
  | .udpInitial => some (.udp, st, conn)
  | .done => some (.rc .servFail, st, conn)

/-- At most so many calls, until one does not return -1. -/
def drive : Nat → QueryStat → Conn → Option (Outcome × QueryStat × Conn)
  | 0, st, conn => some (.again, st, conn)
  | n + 1, st, conn => do
      match ← pQuerySm realloc st conn with
      | (.again, st, conn) => drive n st conn
      | result => some result

/-- Calls of `p_query_sm` come to an end, sooner or later: with a result, or without one. -/
def Halts (st : QueryStat) (conn : Conn) (end' : Option (Outcome × QueryStat × Conn)) : Prop :=
  (∀ result, end' = some result → result.1 ≠ .again) ∧ ∃ calls, drive realloc calls st conn = end'

/-- Calls of `p_query_sm` end with this result, sooner or later. -/
def Ends (st : QueryStat) (conn : Conn) (result : Outcome × QueryStat × Conn) : Prop :=
  Halts realloc st conn (some result)

end Code

/-- What the server sends. -/
def frame (reply : List UInt8) : List UInt8 :=
  UInt8.ofNat (reply.length / 256) :: UInt8.ofNat reply.length :: reply

/-- A connection without errors, on which the server sends a reply. -/
def Conn.start (rooms arrivals : List Nat) (reply : List UInt8) : Conn :=
  ⟨[], rooms.map .bytes, [], frame reply, arrivals.map .bytes⟩

section Calls

variable {realloc : Option (List UInt8) → Nat → Option (List UInt8)}
  {st st' : QueryStat} {conn conn' : Conn} {x : Outcome × QueryStat × Conn}
  {y z : Option (Outcome × QueryStat × Conn)}

theorem drive_of_again (h : pQuerySm realloc st conn = some (.again, st', conn')) (n : Nat) :
    drive realloc (n + 1) st conn = drive realloc n st' conn' := by
  rw [drive, h]
  rfl

theorem drive_of_result (h : pQuerySm realloc st conn = some x) (hx : x.1 ≠ .again) (n : Nat) :
    drive realloc (n + 1) st conn = some x := by
  obtain ⟨outcome, st', conn'⟩ := x
  rw [drive, h]
  cases outcome with
  | again => exact absurd rfl hx
  | rc code => rfl
  | udp => rfl

theorem Halts.of_again (h : pQuerySm realloc st conn = some (.again, st', conn'))
    (hy : Halts realloc st' conn' y) : Halts realloc st conn y := by
  obtain ⟨hy, calls, hcalls⟩ := hy
  exact ⟨hy, calls + 1, (drive_of_again h calls).trans hcalls⟩

theorem Ends.of_result (h : pQuerySm realloc st conn = some x) (hx : x.1 ≠ .again) :
    Ends realloc st conn x := by
  refine ⟨?_, 1, drive_of_result h hx 0⟩
  rintro _ ⟨⟩
  exact hx

theorem Halts.of_none (h : pQuerySm realloc st conn = none) : Halts realloc st conn none := by
  refine ⟨fun _ hresult => ?_, 1, ?_⟩
  · cases hresult
  · rw [drive, h]
    rfl

theorem Halts.of_eq (h : pQuerySm realloc st conn = pQuerySm realloc st' conn')
    (hy : Halts realloc st' conn' y) : Halts realloc st conn y := by
  obtain ⟨hy, calls, hcalls⟩ := hy
  cases calls with
  | zero => exact absurd rfl (hy _ hcalls.symm)
  | succ n =>
      refine ⟨hy, n + 1, ?_⟩
      rw [drive, h]
      exact hcalls

theorem Halts.unique (hy : Halts realloc st conn y) (hz : Halts realloc st conn z) : y = z := by
  obtain ⟨hy, n, hn⟩ := hy
  obtain ⟨hz, m, hm⟩ := hz
  induction n generalizing st conn m with
  | zero => exact absurd rfl (hy _ hn.symm)
  | succ n ih =>
      cases m with
      | zero => exact absurd rfl (hz _ hm.symm)
      | succ m =>
          cases hcall : pQuerySm realloc st conn with
          | none =>
              rw [drive, hcall] at hn hm
              exact hn.symm.trans hm
          | some x =>
              by_cases hx : x.1 = .again
              · obtain ⟨outcome, st', conn'⟩ := x
                cases hx
                rw [drive_of_again hcall] at hn hm
                exact ih hn m hm
              · rw [drive_of_result hcall hx] at hn hm
                exact hn.symm.trans hm

end Calls

section Phases

variable {realloc : Option (List UInt8) → Nat → Option (List UInt8)}

variable {st : QueryStat} {conn : Conn} {reply front rest : List UInt8}

/-- What is left of the query. -/
def unsent (st : QueryStat) : List UInt8 :=
  (st.msg.drop st.iolen).take (2 + st.transl - st.iolen)

theorem unsent_length (hmsg : 2 + st.transl ≤ st.msg.length) :
    (unsent st).length = 2 + st.transl - st.iolen := by
  rw [unsent, List.length_take, List.length_drop]
  omega

theorem unsent_advance (st : QueryStat) (n : Nat) :
    (unsent st).take n ++ unsent { st with iolen := st.iolen + n } = unsent st := by
  have hdrop : unsent { st with iolen := st.iolen + n } = (unsent st).drop n := by
    rw [unsent, unsent, List.drop_take, List.drop_drop, Nat.sub_add_eq]
  rw [hdrop, List.take_append_drop]

theorem tcpWrite_finished (hstate : st.state = .tcpWrite) (h : 2 + st.transl ≤ st.iolen) :
    pQuerySm realloc st conn =
      pQuerySm realloc { st with state := .tcpRead, iolen := 0 } conn := by
  rw [pQuerySm, hstate, pQuerySm]
  simp only [tcpWrite, dnsmsghdroffset]
  rw [if_neg (by omega)]

theorem tcpWrite_unfinished (hstate : st.state = .tcpWrite)
    (hmsg : 2 + st.transl ≤ st.msg.length) (h : st.iolen < 2 + st.transl) {n : Nat}
    {rooms : List Room} (hconn : conn.rooms = .bytes n :: rooms) :
    pQuerySm realloc st conn =
      if n = 0 then some (.again, st, { conn with rooms })
      else
        let conn := { conn with sent := conn.sent ++ (unsent st).take n, rooms }
        if n < 2 + st.transl - st.iolen then some (.again, { st with iolen := st.iolen + n }, conn)
        else pQuerySm realloc { st with state := .tcpRead, iolen := 0 } conn := by
  have hrem : ((dnsmsghdroffset : Nat) + st.transl - st.iolen : Int).toNat =
      2 + st.transl - st.iolen := by
    simp only [dnsmsghdroffset]
    omega
  have hload : load st.msg st.iolen (2 + st.transl - st.iolen) = some (unsent st) :=
    if_pos (by omega)
  have hlen := unsent_length hmsg
  rw [pQuerySm, hstate]
  simp only [tcpWrite]
  rw [if_pos (by simp only [dnsmsghdroffset]; omega), hrem, hload]
  simp only [Option.bind_eq_bind, Option.bind_some, Conn.write, hconn]
  by_cases hn : n = 0
  · simp only [hn, if_true]
  · simp only [hn, if_false, List.length_take, hlen]
    by_cases hshort : n < 2 + st.transl - st.iolen
    · rw [if_pos hshort, Nat.min_eq_left (Nat.le_of_lt hshort),
        if_pos (by simp only [dnsmsghdroffset]; omega), hstate]
    · rw [if_neg hshort, Nat.min_eq_right (Nat.le_of_not_lt hshort),
        if_neg (by simp only [dnsmsghdroffset]; omega), pQuerySm]

/-- The rest of the query is written, whatever the sizes of the writes are. -/
theorem write_halts (hstate : st.state = .tcpWrite) (hmsg : 2 + st.transl ≤ st.msg.length)
    {rooms : List Nat} (hconn : conn.rooms = rooms.map .bytes)
    (hrooms : 2 + st.transl - st.iolen ≤ rooms.sum) :
    ∃ left, ∀ y, Halts realloc { st with state := .tcpRead, iolen := 0 }
        { conn with sent := conn.sent ++ unsent st, rooms := left } y →
      Halts realloc st conn y := by
  by_cases hfinished : 2 + st.transl ≤ st.iolen
  · have hnone : unsent st = [] := by
      rw [← List.length_eq_zero_iff, unsent_length hmsg]
      omega
    refine ⟨conn.rooms, fun x hx => .of_eq (tcpWrite_finished hstate hfinished) ?_⟩
    simpa only [hnone, List.append_nil] using hx
  rw [Nat.not_le] at hfinished
  induction rooms generalizing st conn with
  | nil =>
      rw [List.sum_nil] at hrooms
      omega
  | cons n rooms ih =>
      have hcall : pQuerySm realloc st conn = _ :=
        tcpWrite_unfinished hstate hmsg hfinished hconn
      have hlen := unsent_length hmsg
      rw [List.sum_cons] at hrooms
      by_cases hn : n = 0
      · rw [if_pos hn] at hcall
        obtain ⟨left, hleft⟩ := @ih st { conn with rooms := rooms.map .bytes } hstate hmsg rfl
          (by omega) hfinished
        exact ⟨left, fun x hx => .of_again hcall (hleft x hx)⟩
      · rw [if_neg hn] at hcall
        by_cases hshort : n < 2 + st.transl - st.iolen
        · rw [if_pos hshort] at hcall
          obtain ⟨left, hleft⟩ := @ih { st with iolen := st.iolen + n }
            { conn with sent := conn.sent ++ (unsent st).take n, rooms := rooms.map .bytes }
            hstate hmsg rfl (show 2 + st.transl - (st.iolen + n) ≤ rooms.sum by omega)
            (show st.iolen + n < 2 + st.transl by omega)
          refine ⟨left, fun x hx => .of_again hcall (hleft x ?_)⟩
          rw [← unsent_advance st n, ← List.append_assoc] at hx
          exact hx
        · rw [if_neg hshort] at hcall
          refine ⟨rooms.map .bytes, fun x hx => .of_eq hcall ?_⟩
          rwa [List.take_of_length_le (by omega)]

/-- Enough of the reply is there for its length to be known, and so much of it is stored. -/
structure Reading (st : QueryStat) (conn : Conn) (reply front rest : List UInt8) : Prop where
  state : st.state = .tcpRead
  iolen : st.iolen = 2 + front.length
  recvl : st.recvl = reply.length
  recvbuf : ∃ junk, st.recvbuf = some (front ++ junk) ∧ junk.length = rest.length
  stored : front ++ rest = reply
  arriving : conn.buffered ++ conn.wire = rest

/-- The query was successful. -/
def Received (reply sent : List UInt8) (result : Outcome × QueryStat × Conn) : Prop :=
  result.1 = .rc .ok ∧ result.2.1.state = .done ∧ result.2.1.recvl = reply.length ∧
    result.2.1.recvbuf = some reply ∧ result.2.2.sent = sent

theorem Reading.call (h : Reading st conn reply front rest) :
    pQuerySm realloc st conn = readMessage st conn := by
  rw [pQuerySm, h.state]
  simp only [tcpRead]
  rw [if_neg (by rw [h.iolen]; omega)]

theorem Reading.rem (h : Reading st conn reply front rest) :
    (st.recvl - (st.iolen - 2 : Nat) : Int) = rest.length := by
  have hlen := congrArg List.length h.stored
  rw [List.length_append] at hlen
  rw [h.recvl, h.iolen]
  omega

theorem Reading.finished (h : Reading st conn reply front rest) (hrest : rest = []) :
    ∃ result, Ends realloc st conn result ∧ Received reply conn.sent result := by
  subst hrest
  obtain ⟨junk, hbuf, hjunk⟩ := h.recvbuf
  have hcall : pQuerySm realloc st conn =
      some (.rc .ok, { st with closed := true, state := .done }, conn) := by
    rw [h.call]
    simp only [readMessage, h.rem]
    exact if_neg (by simp)
  refine ⟨_, .of_result hcall nofun, rfl, rfl, h.recvl, ?_, rfl⟩
  rw [← h.stored, hbuf, List.length_eq_zero_iff.mp hjunk]

/-- A read, after which `conn` is what is there to be read. -/
theorem Reading.turn {conn₀ : Conn} (h : Reading st conn reply front rest) (hrest : rest ≠ [])
    (hread : conn₀.read rest.length = conn.take rest.length)
    (hcall : pQuerySm realloc st conn₀ = readMessage st conn₀) :
    conn.buffered = [] ∧ pQuerySm realloc st conn₀ = some (.again, st, conn) ∨
      (∃ st', pQuerySm realloc st conn₀ = some (.again, st', { conn with buffered := [] }) ∧
        Reading st' { conn with buffered := [] } reply (front ++ conn.buffered) conn.wire) ∨
      ∃ result, pQuerySm realloc st conn₀ = some result ∧ result.1 ≠ .again ∧
        Received reply conn.sent result := by
  obtain ⟨junk, hbuf, hjunk⟩ := h.recvbuf
  have hpos : (0 : Int) < rest.length := by
    rw [Int.natCast_pos]
    exact List.length_pos_iff.mpr hrest
  have hlen := congrArg List.length h.arriving
  rw [List.length_append] at hlen
  rw [hcall]
  simp only [readMessage, h.rem]
  rw [if_pos hpos, Int.toNat_natCast, hread, Conn.take]
  by_cases hempty : conn.buffered = []
  · rw [if_pos hempty]
    exact .inl ⟨hempty, rfl⟩
  · rw [if_neg hempty, List.take_of_length_le (by omega), List.drop_eq_nil_of_le (by omega)]
    have hoffset : st.iolen - 2 = front.length := by rw [h.iolen, Nat.add_sub_cancel_left]
    have hstore : store (front ++ junk) front.length conn.buffered =
        some (front ++ conn.buffered ++ junk.drop conn.buffered.length) := by
      have hwindow := @store_append _ (junk.take conn.buffered.length) conn.buffered
        (by rw [List.length_take]; omega) front (junk.drop conn.buffered.length)
      rwa [List.append_assoc, List.take_append_drop] at hwindow
    simp only [hbuf, hoffset, Option.bind_eq_bind, Option.bind_some, hstore]
    refine .inr ?_
    by_cases hshort : conn.buffered.length < rest.length
    · rw [if_pos (by omega)]
      refine .inl ⟨_, rfl, ⟨h.state, ?_, h.recvl, ⟨_, rfl, ?_⟩, ?_, rfl⟩⟩
      · change st.iolen + conn.buffered.length = _
        rw [h.iolen, List.length_append, Nat.add_assoc]
      · rw [List.length_drop]
        omega
      · rw [List.append_assoc, h.arriving, h.stored]
    · rw [if_neg (by omega)]
      -- all that was missing has arrived
      have hwire : conn.wire = [] := List.length_eq_zero_iff.mp (by omega)
      refine .inr ⟨_, rfl, nofun, rfl, rfl, h.recvl, ?_, rfl⟩
      rw [List.drop_eq_nil_of_le (by omega), List.append_nil, ← h.stored, ← h.arriving, hwire,
        List.append_nil]

/-- The rest of the reply is read, whatever the sizes of the reads are. -/
theorem Reading.ends (h : Reading st conn reply front rest)
    {arrivals : List Nat} (hconn : conn.arrivals = arrivals.map .bytes)
    (harrivals : conn.wire.length ≤ arrivals.sum) :
    ∃ result, Ends realloc st conn result ∧ Received reply conn.sent result := by
  induction arrivals generalizing st conn front rest with
  | nil =>
      by_cases hrest : rest = []
      · exact h.finished hrest
      have hwire : conn.wire = [] := List.length_eq_zero_iff.mp (Nat.le_zero.mp harrivals)
      have hread : conn.read rest.length = conn.take rest.length := by
        rw [Conn.read, hconn]
        rfl
      have harriving := h.arriving
      rw [hwire, List.append_nil] at harriving
      rcases h.turn hrest hread h.call with
        ⟨hempty, -⟩ | ⟨st', hagain, hreading⟩ | ⟨result, hcall, hnot, hreceived⟩
      · exact absurd (harriving.symm.trans hempty) hrest
      · obtain ⟨result, hends, hreceived⟩ := hreading.finished hwire
        exact ⟨result, .of_again hagain hends, hreceived⟩
      · exact ⟨result, .of_result hcall hnot, hreceived⟩
  | cons n arrivals ih =>
      by_cases hrest : rest = []
      · exact h.finished hrest
      have harrived : Reading st { conn with
          buffered := conn.buffered ++ conn.wire.take n
          wire := conn.wire.drop n
          arrivals := arrivals.map .bytes } reply front rest :=
        ⟨h.state, h.iolen, h.recvl, h.recvbuf, h.stored, by
          rw [List.append_assoc, List.take_append_drop, h.arriving]⟩
      have hread : conn.read rest.length = Conn.take { conn with
          buffered := conn.buffered ++ conn.wire.take n
          wire := conn.wire.drop n
          arrivals := arrivals.map .bytes } rest.length := by
        rw [Conn.read, hconn]
        rfl
      have hleft : (conn.wire.drop n).length ≤ arrivals.sum := by
        rw [List.sum_cons] at harrivals
        rw [List.length_drop]
        omega
      rcases harrived.turn hrest hread h.call with
        ⟨-, hagain⟩ | ⟨st', hagain, hreading⟩ | ⟨result, hcall, hnot, hreceived⟩
      · obtain ⟨result, hends, hreceived⟩ := ih harrived rfl hleft
        exact ⟨result, .of_again hagain hends, hreceived⟩
      · obtain ⟨result, hends, hreceived⟩ := ih hreading rfl hleft
        exact ⟨result, .of_again hagain hends, hreceived⟩
      · exact ⟨result, .of_result hcall hnot, hreceived⟩

theorem ntohs_frame (hreply : reply.length < 65536) :
    ntohs ((frame reply).take 2) = reply.length := by
  change 256 * (UInt8.ofNat (reply.length / 256)).toNat + (UInt8.ofNat reply.length).toNat = _
  rw [UInt8.toNat_ofNat', UInt8.toNat_ofNat']
  omega

theorem tcpRead_waits (hstate : st.state = .tcpRead) (hiolen : st.iolen = 0)
    {arrivals : List Arrival} (hconn : conn.arrivals = .bytes 0 :: arrivals)
    (hbuf : conn.buffered = []) :
    pQuerySm realloc st conn = some (.again, st, { conn with arrivals }) := by
  rw [pQuerySm, hstate]
  simp only [tcpRead]
  rw [if_pos hiolen]
  simp only [Conn.read, hconn, hbuf, List.take_zero, List.drop_zero, List.append_nil]
  rfl

/-- The read for the length brings one byte of it. -/
theorem tcpRead_split (hstate : st.state = .tcpRead) (hiolen : st.iolen = 0)
    {arrivals : List Arrival} (hconn : conn.arrivals = .bytes 1 :: arrivals)
    (hbuf : conn.buffered = []) (hwire : conn.wire = frame reply) :
    ∃ result, pQuerySm realloc st conn = some result ∧ result.1 ≠ .again ∧ result.1 ≠ .rc .ok := by
  have hcall : ∃ conn', pQuerySm realloc st conn =
      some ((errorReceivData st none).1, (errorReceivData st none).2, conn') := by
    rw [pQuerySm, hstate]
    simp only [tcpRead]
    rw [if_pos hiolen]
    simp only [Conn.read, hconn, hbuf, hwire]
    exact ⟨_, rfl⟩
  obtain ⟨conn', hcall⟩ := hcall
  refine ⟨_, hcall, ?_⟩
  simp only [errorReceivData, tcpFailed]
  split_ifs <;> exact ⟨nofun, nofun⟩

/-- The read for the length brings both bytes of it, and perhaps more has arrived. -/
theorem tcpRead_whole (hstate : st.state = .tcpRead) (hiolen : st.iolen = 0)
    (hreply : reply.length < 65536) {block : List UInt8}
    (hheld : reply ≠ [] ∨ st.recvbuf = none)
    (halloc : realloc st.recvbuf reply.length = some block) (hblock : block.length = reply.length)
    {n : Nat} (hn : 2 ≤ n) {arrivals : List Arrival} (hconn : conn.arrivals = .bytes n :: arrivals)
    (hbuf : conn.buffered = []) (hwire : conn.wire = frame reply) :
    ∃ st' conn', pQuerySm realloc st conn = pQuerySm realloc st' conn' ∧
      Reading st' conn' reply [] reply ∧ conn'.sent = conn.sent ∧ conn'.arrivals = arrivals ∧
      conn'.wire = reply.drop (n - 2) := by
  obtain ⟨m, rfl⟩ := Nat.exists_eq_add_of_le' hn
  have hreading : Reading { st with iolen := 2, recvl := reply.length, recvbuf := some block }
      { conn with buffered := reply.take m, wire := reply.drop m, arrivals } reply [] reply :=
    ⟨hstate, rfl, rfl, ⟨block, rfl, hblock⟩, rfl, List.take_append_drop m reply⟩
  refine ⟨_, _, ?_, hreading, rfl, rfl, rfl⟩
  rw [hreading.call, pQuerySm, hstate]
  simp only [tcpRead]
  rw [if_pos hiolen]
  have hlength := ntohs_frame hreply
  simp only [frame, List.take_succ_cons, List.take_zero] at hlength
  have hcleanup : reallocOrCleanup realloc st.recvbuf reply.length = some (some block) := by
    rw [reallocOrCleanup, halloc, if_neg]
    rintro ⟨hsome, hlen⟩
    rcases hheld with hne | hnone
    · exact hne (List.length_eq_zero_iff.mp hlen)
    · rw [hnone] at hsome
      cases hsome
  simp only [Conn.read, hconn, hbuf, hwire, Conn.take, frame, List.nil_append, List.take_succ_cons,
    List.drop_succ_cons, List.take_zero, List.drop_zero, reduceCtorEq, if_false, List.length_cons,
    List.length_nil, hlength, hcleanup]
  rw [if_neg (by decide), hstate]

/-- The length of an empty reply comes, but there is a buffer from before. -/
theorem tcpRead_freed (hstate : st.state = .tcpRead) (hiolen : st.iolen = 0)
    (hheld : st.recvbuf.isSome) {n : Nat} (hn : 2 ≤ n) {arrivals : List Arrival}
    (hconn : conn.arrivals = .bytes n :: arrivals) (hbuf : conn.buffered = [])
    (hwire : conn.wire = frame []) : pQuerySm realloc st conn = none := by
  obtain ⟨m, rfl⟩ := Nat.exists_eq_add_of_le' hn
  have hcleanup : reallocOrCleanup realloc st.recvbuf 0 = none := if_pos ⟨hheld, rfl⟩
  have hlength : ntohs [UInt8.ofNat (0 / 256), UInt8.ofNat 0] = 0 := rfl
  rw [pQuerySm, hstate]
  simp only [tcpRead]
  rw [if_pos hiolen]
  simp only [Conn.read, hconn, hbuf, hwire, Conn.take, frame, List.nil_append, List.take_succ_cons,
    List.drop_succ_cons, List.take_zero, List.drop_zero, reduceCtorEq, if_false, List.length_cons,
    List.length_nil, hlength, hcleanup]
  rfl

/-- The length comes in one read, and then the reply. -/
theorem prefix_ends (hstate : st.state = .tcpRead) (hiolen : st.iolen = 0)
    (hreply : reply.length < 65536) (hheld : reply ≠ [] ∨ st.recvbuf = none)
    (halloc : ∃ block, realloc st.recvbuf reply.length = some block ∧ block.length = reply.length)
    {arrivals : List Nat} (hconn : conn.arrivals = arrivals.map .bytes) (hbuf : conn.buffered = [])
    (hwire : conn.wire = frame reply) (harrivals : reply.length + 2 ≤ arrivals.sum)
    (hfirst : arrivals.find? (0 < ·) ≠ some 1) :
    ∃ result, Ends realloc st conn result ∧ Received reply conn.sent result := by
  induction arrivals generalizing conn with
  | nil => exact absurd harrivals (by simp)
  | cons n arrivals ih =>
      rw [List.sum_cons] at harrivals
      by_cases hn : n = 0
      · subst hn
        obtain ⟨result, hends, hreceived⟩ := @ih { conn with arrivals := arrivals.map .bytes } rfl
          hbuf hwire (by omega) hfirst
        exact ⟨result, .of_again (tcpRead_waits hstate hiolen hconn hbuf) hends, hreceived⟩
      · rw [List.find?_cons_of_pos (by simpa using Nat.pos_of_ne_zero hn), ne_eq,
          Option.some.injEq] at hfirst
        obtain ⟨block, hblock, hlen⟩ := halloc
        obtain ⟨st', conn', hcall, hreading, hsent, hleft, hrest⟩ :=
          tcpRead_whole hstate hiolen hreply hheld hblock hlen (by omega) hconn hbuf hwire
        obtain ⟨result, hends, hreceived⟩ := hreading.ends hleft
          (by rw [hrest, List.length_drop]; omega)
        exact ⟨result, .of_eq hcall hends, hsent ▸ hreceived⟩

/-- The length of the reply comes in one read, and the buffer from before is freed twice. -/
theorem prefix_freed (hstate : st.state = .tcpRead) (hiolen : st.iolen = 0)
    (hheld : st.recvbuf.isSome) {arrivals : List Nat} (hconn : conn.arrivals = arrivals.map .bytes)
    (hbuf : conn.buffered = []) (hwire : conn.wire = frame []) (harrivals : 2 ≤ arrivals.sum)
    (hfirst : arrivals.find? (0 < ·) ≠ some 1) : Halts realloc st conn none := by
  induction arrivals generalizing conn with
  | nil => exact absurd harrivals (by simp)
  | cons n arrivals ih =>
      rw [List.sum_cons] at harrivals
      by_cases hn : n = 0
      · subst hn
        have hhalts :=
          @ih { conn with arrivals := arrivals.map .bytes } rfl hbuf hwire (by omega) hfirst
        exact hhalts.of_again (tcpRead_waits hstate hiolen hconn hbuf)
      · rw [List.find?_cons_of_pos (by simpa using Nat.pos_of_ne_zero hn), ne_eq,
          Option.some.injEq] at hfirst
        exact .of_none (tcpRead_freed hstate hiolen hheld (by omega) hconn hbuf hwire)

theorem prefix_split (hstate : st.state = .tcpRead) (hiolen : st.iolen = 0)
    {arrivals : List Nat} (hconn : conn.arrivals = arrivals.map .bytes) (hbuf : conn.buffered = [])
    (hwire : conn.wire = frame reply) (hfirst : arrivals.find? (0 < ·) = some 1) :
    ∃ result, Ends realloc st conn result ∧ result.1 ≠ .rc .ok := by
  induction arrivals generalizing conn with
  | nil => cases hfirst
  | cons n arrivals ih =>
      by_cases hn : n = 0
      · subst hn
        obtain ⟨result, hends, hnot⟩ := @ih { conn with arrivals := arrivals.map .bytes } rfl
          hbuf hwire hfirst
        exact ⟨result, .of_again (tcpRead_waits hstate hiolen hconn hbuf) hends, hnot⟩
      · rw [List.find?_cons_of_pos (by simpa using Nat.pos_of_ne_zero hn),
          Option.some.injEq] at hfirst
        subst hfirst
        obtain ⟨result, hcall, hnot, hfailed⟩ := tcpRead_split hstate hiolen hconn hbuf hwire
        exact ⟨result, .of_result hcall hnot, hfailed⟩

end Phases

/-- The query is sent once and the reply is received exactly if the first read that brings
something of it brings more than one byte, and it is not an empty reply for which there is a buffer
from before. -/
theorem tcpQuery_iff (realloc : Option (List UInt8) → Nat → Option (List UInt8)) (st : QueryStat)
    (hstate : st.state = .tcpWrite) (hiolen : st.iolen = 0)
    (hmsg : dnsmsghdroffset + st.transl ≤ st.msg.length) (reply : List UInt8)
    (hreply : reply.length ≤ 65535)
    (halloc : reply ≠ [] ∨ st.recvbuf = none →
      ∃ block, realloc st.recvbuf reply.length = some block ∧ block.length = reply.length)
    (rooms arrivals : List Nat) (hrooms : dnsmsghdroffset + st.transl ≤ rooms.sum)
    (harrivals : reply.length + 2 ≤ arrivals.sum) :
    (∃ result, Ends realloc st (Conn.start rooms arrivals reply) result ∧
        Received reply (st.msg.take (dnsmsghdroffset + st.transl)) result) ↔
      arrivals.find? (0 < ·) ≠ some 1 ∧ (reply ≠ [] ∨ st.recvbuf = none) := by
  have hunsent : unsent st = st.msg.take (dnsmsghdroffset + st.transl) := by
    rw [unsent, hiolen, List.drop_zero, Nat.sub_zero]
    rfl
  obtain ⟨left, hleft⟩ := @write_halts realloc st (Conn.start rooms arrivals reply) hstate
    hmsg rooms rfl (by rw [hiolen]; exact hrooms)
  constructor
  · rintro ⟨result, hends, hreceived⟩
    have hwhole : arrivals.find? (0 < ·) ≠ some 1 := by
      intro hfirst
      obtain ⟨other, hother, hnot⟩ :=
        @prefix_split realloc { st with state := .tcpRead, iolen := 0 }
        ⟨unsent st, left, [], frame reply, arrivals.map .bytes⟩ reply rfl rfl arrivals rfl rfl rfl
        hfirst
      cases (hleft _ hother).unique hends
      exact hnot hreceived.1
    refine ⟨hwhole, ?_⟩
    by_contra hheld
    rw [not_or, not_not] at hheld
    obtain ⟨rfl, hheld⟩ := hheld
    have hfreed := @prefix_freed realloc { st with state := .tcpRead, iolen := 0 }
      ⟨unsent st, left, [], frame [], arrivals.map .bytes⟩ rfl rfl
      (Option.isSome_iff_ne_none.mpr hheld) arrivals rfl rfl rfl (by simpa using harrivals) hwhole
    cases (hleft _ hfreed).unique hends
  · rintro ⟨hfirst, hheld⟩
    obtain ⟨result, hends, hreceived⟩ := @prefix_ends realloc
      { st with state := .tcpRead, iolen := 0 }
      ⟨unsent st, left, [], frame reply, arrivals.map .bytes⟩ reply rfl rfl (by omega) hheld
      (halloc hheld) arrivals rfl rfl rfl harrivals hfirst
    exact ⟨result, hleft _ hends, hunsent ▸ hreceived⟩

section Example

/-- `realloc` that always finds memory, which it clears. -/
def clearing (_ : Option (List UInt8)) (size : Nat) : Option (List UInt8) :=
  some (List.replicate size 0)

/-- A query of three bytes that is about to be written. -/
def shortQuery (qm : QMethod) : QueryStat :=
  ⟨.tcpWrite, qm, 3, 0, 0, [0, 3, 1, 2, 3], none, none, false⟩

/-- The query takes two writes. The length of the reply comes together with its first byte. -/
theorem tcpQuery_shortQuery :
    ∃ result, Ends clearing (shortQuery .tcpOnly)
      (Conn.start [2, 0, 9] [0, 3, 0, 1] [7, 8]) result ∧
      Received [7, 8] [0, 3, 1, 2, 3] result :=
  (tcpQuery_iff clearing (shortQuery .tcpOnly) rfl rfl (by decide) [7, 8] (by decide)
    (fun _ => ⟨_, rfl, rfl⟩) [2, 0, 9] [0, 3, 0, 1] (by decide) (by decide)).mpr (by decide)

/-- The length of the reply comes in two reads. -/
theorem tcpQuery_splitLength :
    ¬∃ result, Ends clearing (shortQuery .tcpOnly) (Conn.start [5] [1, 1, 2] [7, 8]) result ∧
      Received [7, 8] [0, 3, 1, 2, 3] result := by
  rintro ⟨result, hends, hreceived⟩
  have hfailed : Ends clearing (shortQuery .tcpOnly) (Conn.start [5] [1, 1, 2] [7, 8])
      (.rc .servFail, { shortQuery .tcpOnly with state := .done, closed := true },
        ⟨[0, 3, 1, 2, 3], [], [], [2, 7, 8], [.bytes 1, .bytes 2]⟩) :=
    .of_result rfl nofun
  cases hfailed.unique hends
  cases hreceived.1

end Example

end TorAndroid.Dns.TcpQuery
