import TorAndroid.Lib.GuardedRun

/-!
A BIND session once its accept thread is started. The main thread reads the
client's bytes and drops them while `mode` is `ACCEPT_MODE`; the accept thread
sends the second reply, then sets `mode` to `PIPE_MODE`, then interrupts the main
thread. The client sends only after the second reply. Every test and write of
`mode` and every operation on a socket is a step of its own; no socket fails
unless the session itself closed it.
-/

namespace TorAndroid.Socks.Bind

open TorAndroid.Lib.GuardedRun

inductive Mode
  | accept
  | pipe
  | abort
deriving DecidableEq, Repr

/-- The main thread in `onBind`, in `pipe(in, remote_out)` and in `abort`. -/
inductive MainPoint
  | read
  | testAccept (eof : UInt8)
  | testPipe (eof : UInt8)
  | write (eof : UInt8)
  | caught
  | pipeRead
  | pipeWrite (buf : List UInt8)
  | abort
  | close
  | ended
deriving DecidableEq, Repr

/-- The accept thread in `doAccept`, `run`, `pipe(remote_in, out)` and
`abort`. -/
inductive AcceptPoint
  | accept
  | reply
  | setMode
  | interrupt
  | pipe
  | abort
  | close
  | ended
deriving DecidableEq, Repr

structure State where
  mode : Mode
  main : MainPoint
  acceptor : AcceptPoint
  -- The client has been sent the second reply.
  replied : Bool
  -- The bytes the client sent, and those of them still to be read.
  sent : List UInt8
  input : List UInt8
  -- The client has closed its side.
  clientClosed : Bool
  -- The session has not closed its sockets.
  socketsOpen : Bool
  -- The interrupt flag of the main thread.
  interrupted : Bool
  remote_out : List UInt8
deriving DecidableEq, Repr

def State.init : State where
  mode := .accept
  main := .read
  acceptor := .accept
  replied := false
  sent := []
  input := []
  clientClosed := false
  socketsOpen := true
  interrupted := false
  remote_out := []

inductive Outcome
  | ok
  -- An array read returns this many bytes.
  | data (len : Nat)
  | eof
  -- An `InterruptedIOException`, with the value of `timeSinceRead`.
  | interruptedRead (timeSinceRead : Nat)
  -- Another exception: the socket is closed, or nothing was accepted.
  | failed
deriving DecidableEq, Repr

inductive Action
  | clientSend (b : UInt8)
  | clientClose
  | main (outcome : Outcome)
  | acceptor (outcome : Outcome)
deriving DecidableEq, Repr

def BUF_SIZE : Nat := 8192

/-- `pipe` gives up on an interrupt when there is no idle timeout, or when the
last read was long ago. -/
def pipeReturns (iddleTimeout timeSinceRead : Nat) : Bool :=
  iddleTimeout = 0 || iddleTimeout ≤ timeSinceRead + 1000

/-- The start of `abort`: one thread at a time, and only the first one goes
on. -/
def canAbort (s : State) : Bool := s.main ≠ .close && s.acceptor ≠ .close

def mainStep (iddleTimeout : Nat) (s : State) (outcome : Outcome) : Option State :=
  match s.main with
  | .read =>
      match outcome with
      | .ok =>
          match s.input with
          | b :: input =>
              if s.socketsOpen then some { s with main := .testAccept b, input } else none
          | [] => none
      | .eof =>
          if s.socketsOpen && s.clientClosed && s.input = [] then some { s with main := .abort }
          else none
      | .interruptedRead _ =>
          if s.interrupted then some { s with main := .caught, interrupted := false } else none
      | .failed => if s.socketsOpen then none else some { s with main := .abort }
      | .data _ => none
  | .testAccept b =>
      match outcome with
      | .ok =>
          if s.mode = .accept then some { s with main := .read }
          else some { s with main := .testPipe b }
      | _ => none
  | .testPipe b =>
      match outcome with
      | .ok =>
          if s.mode = .pipe then some { s with main := .write b }
          else some { s with main := .abort }
      | _ => none
  | .write b =>
      match outcome with
      | .ok =>
          if s.socketsOpen then
            some { s with main := .pipeRead, remote_out := s.remote_out ++ [b] }
          else none
      | .failed => if s.socketsOpen then none else some { s with main := .abort }
      | _ => none
  | .caught =>
      match outcome with
      | .ok =>
          if s.mode = .pipe then some { s with main := .pipeRead }
          else some { s with main := .abort }
      | _ => none
  | .pipeRead =>
      match outcome with
      | .data len =>
          if s.socketsOpen && 0 < len && len ≤ min BUF_SIZE s.input.length then
            some { s with main := .pipeWrite (s.input.take len), input := s.input.drop len }
          else none
      | .eof =>
          if s.socketsOpen && s.clientClosed && s.input = [] then some { s with main := .abort }
          else none
      | .interruptedRead timeSinceRead =>
          if s.interrupted then
            if pipeReturns iddleTimeout timeSinceRead then
              some { s with main := .abort, interrupted := false }
            else some { s with interrupted := false }
          else none
      | .failed => if s.socketsOpen then none else some { s with main := .abort }
      | .ok => none
  | .pipeWrite buf =>
      match outcome with
      | .ok =>
          if s.socketsOpen then
            some { s with main := .pipeRead, remote_out := s.remote_out ++ buf }
          else none
      | .failed => if s.socketsOpen then none else some { s with main := .abort }
      | _ => none
  | .abort =>
      match outcome with
      | .ok =>
          if canAbort s then
            if s.mode = .abort then some { s with main := .ended }
            else some { s with main := .close, mode := .abort }
          else none
      | _ => none
  | .close =>
      match outcome with
      | .ok => some { s with main := .ended, socketsOpen := false, interrupted := true }
      | _ => none
  | .ended => none

/-- The connection of another host is dropped, and the wait goes on. -/
def acceptorStep (iddleTimeout : Nat) (s : State) (outcome : Outcome) : Option State :=
  match s.acceptor, outcome with
  | .accept, .ok => some { s with acceptor := .reply }
  | .accept, .data _ => some s
  | .accept, .failed => some { s with acceptor := .abort }
  | .reply, .ok =>
      if s.socketsOpen then some { s with acceptor := .setMode, replied := true } else none
  | .reply, .failed => if s.socketsOpen then none else some { s with acceptor := .abort }
  | .setMode, .ok => some { s with acceptor := .interrupt, mode := .pipe }
  | .interrupt, .ok => some { s with acceptor := .pipe, interrupted := true }
  | .pipe, .data _ => some s
  | .pipe, .eof => some { s with acceptor := .abort }
  | .pipe, .interruptedRead timeSinceRead =>
      if pipeReturns iddleTimeout timeSinceRead then some { s with acceptor := .abort } else some s
  | .pipe, .failed => if s.socketsOpen then none else some { s with acceptor := .abort }
  | .abort, .ok =>
      if canAbort s then
        if s.mode = .abort then some { s with acceptor := .ended }
        else some { s with acceptor := .close, mode := .abort }
      else none
  | .close, .ok => some { s with acceptor := .ended, socketsOpen := false, interrupted := true }
  | _, _ => none

def step (iddleTimeout : Nat) (s : State) (a : Action) : Option State :=
  match a with
  | .clientSend b =>
      if s.replied && !s.clientClosed && s.socketsOpen then
        some { s with sent := s.sent ++ [b], input := s.input ++ [b] }
      else none
  | .clientClose => some { s with clientClosed := true }
  | .main outcome => mainStep iddleTimeout s outcome
  | .acceptor outcome => acceptorStep iddleTimeout s outcome

/-- The bytes the main thread has read and not yet written. -/
def MainPoint.inHand : MainPoint → List UInt8
  | .testAccept b | .testPipe b | .write b => [b]
  | .pipeWrite buf => buf
  | _ => []

/-- The main thread waits for bytes that are not there, or has ended. -/
def Settled (s : State) : Prop :=
  (s.main = .read ∨ s.main = .pipeRead) ∧ s.input = [] ∨ s.main = .ended

/-- What was written to the remote host is what the client sent, in order and
once, up to what is still under way; and nothing is under way when the main
thread waits or has ended. -/
def Delivered (s : State) : Prop :=
  s.remote_out <+: s.sent ∧ (Settled s → s.remote_out = s.sent)

/-- The main thread finds `mode` at `PIPE_MODE` whenever it tests it with a byte
in hand, and the sockets are closed only when no byte of the client is unread
or in hand. -/
def keepsBytes (s : State) (a : Action) : Bool :=
  match a with
  | .main .ok =>
      match s.main with
      | .testAccept _ => s.mode ≠ .accept
      | .testPipe _ => s.mode = .pipe
      | .close => s.input = []
      | _ => true
  | .acceptor .ok =>
      match s.acceptor with
      | .close => s.input = [] && s.main.inHand = []
      | _ => true
  | _ => true

structure Inv (s : State) : Prop where
  conserved : s.sent = s.remote_out ++ s.main.inHand ++ s.input
  drained : s.socketsOpen = false → s.input = [] ∧ s.main.inHand = []
  aborted : s.mode = .abort → s.socketsOpen = false ∨ s.main = .close ∨ s.acceptor = .close
  ended : s.main = .ended → s.socketsOpen = false

theorem Inv.delivered {s : State} (h : Inv s) : Delivered s := by
  have hconserved := h.conserved
  constructor
  · rw [hconserved, List.append_assoc]
    exact List.prefix_append _ _
  · rintro (⟨hwait, hinput⟩ | hended)
    · have hhand : s.main.inHand = [] := by
        rcases hwait with hmain | hmain <;> rw [hmain] <;> rfl
      simp [hconserved, hhand, hinput]
    · obtain ⟨hinput, hhand⟩ := h.drained (h.ended hended)
      simp [hconserved, hhand, hinput]

theorem inv_init : Inv State.init := by
  constructor <;> simp [State.init, MainPoint.inHand]

theorem Inv.goto {s : State} {p : MainPoint} {interrupted : Bool} (h : Inv s)
    (hhand : p.inHand = s.main.inHand) (hclose : s.main ≠ .close) (hended : p ≠ .ended) :
    Inv { s with main := p, interrupted } where
  conserved := by
    simp only [hhand]
    exact h.conserved
  drained := by
    simp only [hhand]
    exact h.drained
  aborted := by
    intro hmode
    rcases h.aborted hmode with hopen | hmain | hacceptor
    · exact .inl hopen
    · contradiction
    · exact .inr (.inr hacceptor)
  ended := by
    intro hp
    contradiction

theorem Inv.take {s : State} {p : MainPoint} {input : List UInt8} (h : Inv s)
    (hopen : s.socketsOpen = true) (hnone : s.main.inHand = [])
    (hinput : s.input = p.inHand ++ input) (hclose : s.main ≠ .close) (hended : p ≠ .ended) :
    Inv { s with main := p, input } where
  conserved := by
    simp only
    rw [h.conserved, hnone, hinput]
    simp
  drained := by
    simp [hopen]
  aborted := by
    intro hmode
    rcases h.aborted hmode with hclosed | hmain | hacceptor
    · simp [hopen] at hclosed
    · contradiction
    · exact .inr (.inr hacceptor)
  ended := by
    intro hp
    contradiction

theorem Inv.forward {s : State} (h : Inv s) (hopen : s.socketsOpen = true)
    (hclose : s.main ≠ .close) :
    Inv { s with main := .pipeRead, remote_out := s.remote_out ++ s.main.inHand } where
  conserved := by
    simp only [MainPoint.inHand, List.append_nil]
    exact h.conserved
  drained := by
    simp [hopen]
  aborted := by
    intro hmode
    rcases h.aborted hmode with hclosed | hmain | hacceptor
    · simp [hopen] at hclosed
    · contradiction
    · exact .inr (.inr hacceptor)
  ended := by
    intro hp
    cases hp

theorem Inv.endMain {s : State} (h : Inv s) (hnone : s.main.inHand = [])
    (hclosed : s.socketsOpen = false) : Inv { s with main := .ended } where
  conserved := by
    simp only [MainPoint.inHand]
    rw [h.conserved, hnone]
  drained := by
    intro _
    exact ⟨(h.drained hclosed).1, rfl⟩
  aborted := fun _ => .inl hclosed
  ended := fun _ => hclosed

theorem Inv.startClose {s : State} (h : Inv s) (hnone : s.main.inHand = []) :
    Inv { s with main := .close, mode := .abort } where
  conserved := by
    simp only [MainPoint.inHand]
    rw [h.conserved, hnone]
  drained := by
    intro hclosed
    exact ⟨(h.drained hclosed).1, rfl⟩
  aborted := fun _ => .inr (.inl rfl)
  ended := by
    intro hmain
    cases hmain

theorem Inv.endClose {s : State} (h : Inv s) (hnone : s.main.inHand = [])
    (hinput : s.input = []) :
    Inv { s with main := .ended, socketsOpen := false, interrupted := true } where
  conserved := by
    simp only [MainPoint.inHand]
    rw [h.conserved, hnone]
  drained := fun _ => ⟨hinput, rfl⟩
  aborted := fun _ => .inl rfl
  ended := fun _ => rfl

theorem Inv.inHand_of_closed {s : State} (h : Inv s) (hopen : ¬ s.socketsOpen = true) :
    s.main.inHand = [] :=
  (h.drained (by simpa using hopen)).2

theorem mainRead_inv {iddleTimeout : Nat} {s s' : State} {outcome : Outcome} (h : Inv s)
    (hmain : s.main = .read) (hstep : mainStep iddleTimeout s outcome = some s') : Inv s' := by
  have hnone : s.main.inHand = [] := by rw [hmain]; rfl
  have hclose : s.main ≠ .close := by simp [hmain]
  cases outcome with
  | ok =>
      simp only [mainStep, hmain] at hstep
      split at hstep
      · rename_i b input hinput
        split at hstep
        · rename_i hopen
          cases hstep
          exact h.take hopen hnone hinput hclose (by simp)
        · cases hstep
      · cases hstep
  | eof =>
      simp only [mainStep, hmain] at hstep
      split at hstep
      · cases hstep
        exact h.goto hnone.symm hclose (by simp)
      · cases hstep
  | interruptedRead timeSinceRead =>
      simp only [mainStep, hmain] at hstep
      split at hstep
      · cases hstep
        exact h.goto hnone.symm hclose (by simp)
      · cases hstep
  | failed =>
      simp only [mainStep, hmain] at hstep
      split at hstep
      · cases hstep
      · cases hstep
        exact h.goto hnone.symm hclose (by simp)
  | data len => simp [mainStep, hmain] at hstep

/-- The tests of `mode` in `onBind`; the condition lets both find `PIPE_MODE`. -/
theorem mainTest_inv {iddleTimeout : Nat} {s s' : State} {b : UInt8} {outcome : Outcome}
    (h : Inv s) (hmain : s.main = .testAccept b ∨ s.main = .testPipe b)
    (hok : keepsBytes s (.main outcome) = true)
    (hstep : mainStep iddleTimeout s outcome = some s') : Inv s' := by
  rcases hmain with hmain | hmain
  · cases outcome with
    | ok =>
        simp only [mainStep, hmain] at hstep
        split at hstep
        · rename_i hmode
          simp [keepsBytes, hmain, hmode] at hok
        · cases hstep
          exact h.goto (by rw [hmain]; rfl) (by simp [hmain]) (by simp)
    | data | eof | interruptedRead | failed => simp [mainStep, hmain] at hstep
  · cases outcome with
    | ok =>
        simp only [mainStep, hmain] at hstep
        split at hstep
        · cases hstep
          exact h.goto (by rw [hmain]; rfl) (by simp [hmain]) (by simp)
        · rename_i hmode
          simp [keepsBytes, hmain, hmode] at hok
    | data | eof | interruptedRead | failed => simp [mainStep, hmain] at hstep

/-- The main thread writes what it has in hand, or finds the sockets closed. -/
theorem mainWrite_inv {iddleTimeout : Nat} {s s' : State} {outcome : Outcome} (h : Inv s)
    (hmain : (∃ b, s.main = .write b) ∨ ∃ buf, s.main = .pipeWrite buf)
    (hstep : mainStep iddleTimeout s outcome = some s') : Inv s' := by
  have hclose : s.main ≠ .close := by
    rcases hmain with ⟨b, hmain⟩ | ⟨buf, hmain⟩ <;> simp [hmain]
  have hwrites : s.socketsOpen = true ∧
        s' = { s with main := .pipeRead, remote_out := s.remote_out ++ s.main.inHand } ∨
      ¬ s.socketsOpen = true ∧ s' = { s with main := .abort } := by
    rcases hmain with ⟨b, hmain⟩ | ⟨buf, hmain⟩ <;> cases outcome <;>
      simp [mainStep, hmain, MainPoint.inHand] at hstep ⊢ <;> tauto
  rcases hwrites with ⟨hopen, rfl⟩ | ⟨hopen, rfl⟩
  · exact h.forward hopen hclose
  · exact h.goto (by rw [h.inHand_of_closed hopen]; rfl) hclose (by simp)

theorem mainCaught_inv {iddleTimeout : Nat} {s s' : State} {outcome : Outcome} (h : Inv s)
    (hmain : s.main = .caught) (hstep : mainStep iddleTimeout s outcome = some s') : Inv s' := by
  cases outcome with
  | ok =>
      simp only [mainStep, hmain] at hstep
      split at hstep <;> cases hstep <;>
        exact h.goto (by rw [hmain]; rfl) (by simp [hmain]) (by simp)
  | data | eof | interruptedRead | failed => simp [mainStep, hmain] at hstep

theorem mainPipeRead_inv {iddleTimeout : Nat} {s s' : State} {outcome : Outcome} (h : Inv s)
    (hmain : s.main = .pipeRead) (hstep : mainStep iddleTimeout s outcome = some s') :
    Inv s' := by
  have hnone : s.main.inHand = [] := by rw [hmain]; rfl
  have hclose : s.main ≠ .close := by simp [hmain]
  cases outcome with
  | ok => simp [mainStep, hmain] at hstep
  | data len =>
      simp only [mainStep, hmain] at hstep
      split at hstep
      · rename_i hread
        simp only [Bool.and_eq_true, decide_eq_true_eq] at hread
        cases hstep
        apply h.take hread.1.1 hnone _ hclose (by simp)
        exact (List.take_append_drop len s.input).symm
      · cases hstep
  | eof =>
      simp only [mainStep, hmain] at hstep
      split at hstep
      · cases hstep
        exact h.goto hnone.symm hclose (by simp)
      · cases hstep
  | interruptedRead timeSinceRead =>
      simp only [mainStep, hmain] at hstep
      split at hstep
      · split at hstep
        · cases hstep
          exact h.goto hnone.symm hclose (by simp)
        · cases hstep
          rw [← hmain]
          exact h.goto rfl hclose (by simp [hmain])
      · cases hstep
  | failed =>
      simp only [mainStep, hmain] at hstep
      split at hstep
      · cases hstep
      · cases hstep
        exact h.goto hnone.symm hclose (by simp)

/-- `abort`: only the first thread closes the sockets. -/
theorem mainAbort_inv {iddleTimeout : Nat} {s s' : State} {outcome : Outcome} (h : Inv s)
    (hmain : s.main = .abort ∨ s.main = .close) (hok : keepsBytes s (.main outcome) = true)
    (hstep : mainStep iddleTimeout s outcome = some s') : Inv s' := by
  have hnone : s.main.inHand = [] := by rcases hmain with hmain | hmain <;> rw [hmain] <;> rfl
  rcases hmain with hmain | hmain
  · cases outcome with
    | ok =>
        simp only [mainStep, hmain] at hstep
        split at hstep
        · rename_i hcan
          simp only [canAbort, Bool.and_eq_true, decide_eq_true_eq, ne_eq] at hcan
          split at hstep
          · rename_i hmode
            cases hstep
            have hclosed : s.socketsOpen = false := by
              rcases h.aborted hmode with hopen | hclose | hclose
              · exact hopen
              · exact absurd hclose hcan.1
              · exact absurd hclose hcan.2
            exact h.endMain hnone hclosed
          · cases hstep
            exact h.startClose hnone
        · cases hstep
    | data | eof | interruptedRead | failed => simp [mainStep, hmain] at hstep
  · cases outcome with
    | ok =>
        simp only [mainStep, hmain] at hstep
        cases hstep
        have hinput : s.input = [] := by simpa [keepsBytes, hmain] using hok
        exact h.endClose hnone hinput
    | data | eof | interruptedRead | failed => simp [mainStep, hmain] at hstep

theorem mainStep_inv {iddleTimeout : Nat} {s s' : State} {outcome : Outcome} (h : Inv s)
    (hok : keepsBytes s (.main outcome) = true)
    (hstep : mainStep iddleTimeout s outcome = some s') : Inv s' := by
  cases hmain : s.main with
  | read => exact mainRead_inv h hmain hstep
  | testAccept b => exact mainTest_inv h (.inl hmain) hok hstep
  | testPipe b => exact mainTest_inv h (.inr hmain) hok hstep
  | write b => exact mainWrite_inv h (.inl ⟨b, hmain⟩) hstep
  | pipeWrite buf => exact mainWrite_inv h (.inr ⟨buf, hmain⟩) hstep
  | caught => exact mainCaught_inv h hmain hstep
  | pipeRead => exact mainPipeRead_inv h hmain hstep
  | abort => exact mainAbort_inv h (.inl hmain) hok hstep
  | close => exact mainAbort_inv h (.inr hmain) hok hstep
  | ended => simp [mainStep, hmain] at hstep

theorem Inv.gotoAcceptor {s : State} {p : AcceptPoint} {mode : Mode} {replied interrupted : Bool}
    (h : Inv s)
    (haborted : mode = .abort → s.socketsOpen = false ∨ s.main = .close ∨ p = .close) :
    Inv { s with acceptor := p, mode, replied, interrupted } where
  conserved := h.conserved
  drained := h.drained
  aborted := haborted
  ended := h.ended

theorem acceptorStep_inv {iddleTimeout : Nat} {s s' : State} {outcome : Outcome} (h : Inv s)
    (hok : keepsBytes s (.acceptor outcome) = true)
    (hstep : acceptorStep iddleTimeout s outcome = some s') : Inv s' := by
  have hkeep (hacceptor : s.acceptor ≠ .close) (p : AcceptPoint) :
      s.mode = .abort → s.socketsOpen = false ∨ s.main = .close ∨ p = .close := by
    intro hmode
    rcases h.aborted hmode with hopen | hmain | hclose
    · exact .inl hopen
    · exact .inr (.inl hmain)
    · contradiction
  unfold acceptorStep at hstep
  split at hstep
  · rename_i hacceptor
    cases hstep
    exact h.gotoAcceptor (hkeep (by simp [hacceptor]) _)
  · cases hstep
    exact h
  · rename_i hacceptor
    cases hstep
    exact h.gotoAcceptor (hkeep (by simp [hacceptor]) _)
  · rename_i hacceptor
    split at hstep
    · cases hstep
      exact h.gotoAcceptor (hkeep (by simp [hacceptor]) _)
    · cases hstep
  · rename_i hacceptor
    split at hstep
    · cases hstep
    · cases hstep
      exact h.gotoAcceptor (hkeep (by simp [hacceptor]) _)
  · -- `mode = PIPE_MODE`
    cases hstep
    exact h.gotoAcceptor (by simp)
  · rename_i hacceptor
    cases hstep
    exact h.gotoAcceptor (hkeep (by simp [hacceptor]) _)
  · cases hstep
    exact h
  · rename_i hacceptor
    cases hstep
    exact h.gotoAcceptor (hkeep (by simp [hacceptor]) _)
  · rename_i hacceptor
    split at hstep
    · cases hstep
      exact h.gotoAcceptor (hkeep (by simp [hacceptor]) _)
    · cases hstep
      exact h
  · rename_i hacceptor
    split at hstep
    · cases hstep
    · cases hstep
      exact h.gotoAcceptor (hkeep (by simp [hacceptor]) _)
  · rename_i hacceptor
    split at hstep
    · split at hstep
      · cases hstep
        exact h.gotoAcceptor (hkeep (by simp [hacceptor]) _)
      · cases hstep
        exact h.gotoAcceptor fun _ => .inr (.inr rfl)
    · cases hstep
  · rename_i hacceptor
    cases hstep
    have hnone : s.input = [] ∧ s.main.inHand = [] := by
      simpa [keepsBytes, hacceptor] using hok
    exact ⟨h.conserved, fun _ => hnone, fun _ => .inl rfl, fun _ => rfl⟩
  · cases hstep

theorem step_inv {iddleTimeout : Nat} {s s' : State} {a : Action} (h : Inv s)
    (hok : keepsBytes s a = true) (hstep : step iddleTimeout s a = some s') : Inv s' := by
  cases a with
  | clientSend b =>
      simp only [step] at hstep
      split at hstep
      · rename_i hcan
        simp only [Bool.and_eq_true] at hcan
        cases hstep
        refine ⟨?_, ?_, h.aborted, h.ended⟩
        · simp only
          rw [h.conserved, List.append_assoc _ _ [b]]
        · intro hclosed
          simp only [hcan.2] at hclosed
          cases hclosed
      · cases hstep
  | clientClose =>
      cases hstep
      exact ⟨h.conserved, h.drained, h.aborted, h.ended⟩
  | main outcome => exact mainStep_inv h hok hstep
  | acceptor outcome => exact acceptorStep_inv h hok hstep

end TorAndroid.Socks.Bind
