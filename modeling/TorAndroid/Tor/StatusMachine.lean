import TorAndroid.Lib.GuardedRun
import TorAndroid.Lib.ThreadPool

/-!
The status of the Tor process as `TorService` and `TorEventHandler` keep it.
The status cell and the onion proxy manager are outside the repository: the
cell holds one of four values, `start` starts the process or throws leaving it
stopped, `stop` stops it or throws leaving it as it was. Every read or write of
the cell and every call of the manager is a step of its own.
-/

namespace TorAndroid.Tor.StatusMachine

inductive Status
  | off
  | starting
  | on
  | stopping
deriving DecidableEq, Repr

/-- The body of `startTor`; a `synchronized` method, so at most one body is in
progress. -/
inductive StartPoint
  | isStopping
  | isOn
  | getTorPid
  | updateTorrcConfig
  | starting
  | announce
  | start
  | complete
  | caught
deriving DecidableEq, Repr

inductive StopPoint
  | stopping
  | stop
  | off
  | ended
deriving DecidableEq, Repr

inductive CircuitPoint
  | isStarting (circuitStatus : String)
  | on
  | ended
deriving DecidableEq, Repr

inductive NotifyPoint
  | isRunning
  | getSocksPort
  | on
  | ended
deriving DecidableEq, Repr

structure State where
  status : Status
  running : Bool
  -- Calls of `startTor` that wait for the monitor.
  waiting : Nat
  startTor : Option StartPoint
  stops : List StopPoint
  circuits : List CircuitPoint
  notifies : List NotifyPoint
deriving DecidableEq, Repr

def State.init : State where
  status := .off
  running := false
  waiting := 0
  startTor := none
  stops := []
  circuits := []
  notifies := []

inductive Action
  | callStartTor
  | enterStartTor
  | startTor (throws : Bool)
  | stopTorAsync
  | stopTor (i : Nat) (throws : Bool)
  | circuitStatus (circuitStatus : String)
  | circuit (i : Nat)
  | notifyIfConnectedToTorNetwork
  | notify (i : Nat) (throws : Bool)
deriving DecidableEq, Repr

/-- One step of the `startTor` body that holds the monitor. `getTorPid` is -1
when no process runs. Every call after the tests may throw into the catch
block. -/
def startTorStep (s : State) (throws : Bool) : Option State :=
  match s.startTor, throws with
  | some .isStopping, false =>
      some { s with startTor := if s.status = .stopping then none else some .isOn }
  | some .isOn, false =>
      some { s with startTor := some (if s.status = .on then .getTorPid else .updateTorrcConfig) }
  | some .getTorPid, false =>
      some { s with startTor := if s.running then none else some .updateTorrcConfig }
  | some .updateTorrcConfig, false => some { s with startTor := some .starting }
  | some .starting, false =>
      some { s with status := .starting, startTor := some .announce }
  | some .announce, false => some { s with startTor := some .start }
  | some .start, false => some { s with running := true, startTor := some .complete }
  | some .complete, false => some { s with startTor := none }
  | some .caught, false => some { s with status := .off, startTor := none }
  | some .start, true => some { s with running := false, startTor := some .caught }
  | some .updateTorrcConfig, true | some .announce, true | some .complete, true =>
      some { s with startTor := some .caught }
  | _, _ => none

def stopTorStep (s : State) (i : Nat) (throws : Bool) : Option State :=
  match s.stops[i]?, throws with
  | some .stopping, false =>
      some { s with status := .stopping, stops := s.stops.set i .stop }
  | some .stop, false => some { s with running := false, stops := s.stops.set i .off }
  | some .stop, true => some { s with stops := s.stops.set i .off }
  | some .off, false => some { s with status := .off, stops := s.stops.set i .ended }
  | _, _ => none

def circuitStep (s : State) (i : Nat) : Option State :=
  match s.circuits[i]? with
  | some (.isStarting circuitStatus) =>
      let next :=
        if s.status = .starting ∧ circuitStatus = "BUILT" then CircuitPoint.on else .ended
      some { s with circuits := s.circuits.set i next }
  | some .on => some { s with status := .on, circuits := s.circuits.set i .ended }
  | some .ended | none => none

def notifyStep (s : State) (i : Nat) (throws : Bool) : Option State :=
  match s.notifies[i]?, throws with
  | some .isRunning, false =>
      let next := if s.running then NotifyPoint.getSocksPort else .ended
      some { s with notifies := s.notifies.set i next }
  | some .getSocksPort, false => some { s with notifies := s.notifies.set i .on }
  | some .getSocksPort, true => some { s with notifies := s.notifies.set i .ended }
  | some .on, false => some { s with status := .on, notifies := s.notifies.set i .ended }
  | _, _ => none

def step (s : State) : Action → Option State
  | .callStartTor => some { s with waiting := s.waiting + 1 }
  | .enterStartTor =>
      match s.startTor, s.waiting with
      | none, n + 1 => some { s with waiting := n, startTor := some .isStopping }
      | _, _ => none
  | .startTor throws => startTorStep s throws
  | .stopTorAsync => some { s with stops := s.stops ++ [.stopping] }
  | .stopTor i throws => stopTorStep s i throws
  | .circuitStatus circuitStatus =>
      some { s with circuits := s.circuits ++ [.isStarting circuitStatus] }
  | .circuit i => circuitStep s i
  | .notifyIfConnectedToTorNetwork => some { s with notifies := s.notifies ++ [.isRunning] }
  | .notify i throws => notifyStep s i throws

structure Quiescent (s : State) : Prop where
  waiting : s.waiting = 0
  startTor : s.startTor = none
  stops : ∀ p ∈ s.stops, p = .ended
  circuits : ∀ p ∈ s.circuits, p = .ended
  notifies : ∀ p ∈ s.notifies, p = .ended

/-- The status agrees with the process whenever no operation is in progress. -/
def StatusAgrees (s : State) : Prop :=
  Quiescent s →
    (s.status = .off → s.running = false) ∧ (s.status = .on → s.running = true)

/-- A stop has announced itself and not yet written its final status. -/
def StopPoint.active : StopPoint → Bool
  | .stop | .off => true
  | _ => false

/-- A circuit event has seen the starting status and is about to write `on`. -/
def CircuitPoint.pending : CircuitPoint → Bool
  | .on => true
  | _ => false

/-- A notification has seen the process running and is about to write `on`. -/
def NotifyPoint.pending : NotifyPoint → Bool
  | .getSocksPort | .on => true
  | _ => false

def stopInProgress (s : State) : Bool := s.stops.any StopPoint.active

def onPending (s : State) : Bool :=
  s.circuits.any CircuitPoint.pending || s.notifies.any NotifyPoint.pending

/-- The body of `startTor` has passed its stopping test. -/
def startInProgress (s : State) : Bool :=
  match s.startTor with
  | none | some .isStopping => false
  | some _ => true

/-- The condition under which the status agrees with the process. A stop
announces itself only when no start has passed its stopping test and no write
of `on` is pending; a start passes that test, and a notification sees the
process running, only when no stop is in progress; the manager's `stop` and the
calls of `startTor` other than `start` throw only when no process runs; and the
catch block runs only when no write of `on` is pending. -/
def orderly (s : State) : Action → Bool
  | .startTor throws =>
      match s.startTor with
      | some .isStopping => s.status = .stopping || !stopInProgress s
      | some .caught => !onPending s
      | some .start => true
      | _ => !throws || !s.running
  | .stopTor i throws =>
      match s.stops[i]? with
      | some .stopping => !startInProgress s && !onPending s
      | some .stop => !throws || !s.running
      | _ => true
  | .notify i _ =>
      match s.notifies[i]? with
      | some .isRunning => !s.running || !stopInProgress s
      | _ => true
  | _ => true

end TorAndroid.Tor.StatusMachine
