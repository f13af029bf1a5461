import TorAndroid.Lib.GuardedRun
import TorAndroid.Socks.Authenticator

/-!
The sockets of one session of `ProxyServer`. The main thread runs `startSession`
and the handler of the request; CONNECT and BIND start a second thread on the same
object, UDP ASSOCIATE the two threads of `UDPRelayServer`. Each of the first two
ends in `abort`, which closes what the fields name. A socket is opened some
steps before it is stored in its field; every operation in between may throw.
-/

namespace TorAndroid.Socks.Session

open TorAndroid.Lib.GuardedRun
open TorAndroid.Socks.Authenticator

/-- The sockets a session opens. `proxySocket` is the connection of a BIND or
UDP ASSOCIATE request to the proxy next in line; a CONNECT request through that
proxy has it as its outbound socket. -/
inductive Socket
  | client
  | connect
  | listen
  | proxySocket
  | accepted (n : Nat)
  | relayClient
  | relayRemote
deriving DecidableEq, Repr

inductive Mode
  | start
  | accept
  | pipe
  | abort
deriving DecidableEq, Repr

/-- How the request's host is reached: `proxy == null`, or `proxy.isDirect(ip)`,
or through the proxy. -/
inductive Route
  | noProxy
  | direct
  | proxied
deriving DecidableEq, Repr

/-- The statements of `abort`, in order. A thread is past `enter` while it holds
the monitor. -/
inductive AbortPoint
  | enter
  | remote
  | sock
  | relay
  | server
deriving DecidableEq, Repr

/-- Where the main thread is. At the points of a constructor or a handler that
has opened a socket, the next operation may still throw. -/
inductive MainPoint
  | begin
  | connectOpen
  -- `s.connect`, or the rest of the constructor of `SocksSocket`.
  | connectDial
  -- `response.write(out)` in `onConnect`.
  | connectReply
  -- The first two assignments of `startPipe`.
  | connectRecord
  | connectStreams
  | bindOpen
  -- In the constructor of `SocksServerSocket`, after `super(0)`.
  | bindListening
  -- In `proxy.bind`, connected.
  | bindSession
  | bindReply
  | udpOpenClient
  -- In the constructor of `UDPRelayServer`, before `remote_sock` is created.
  | udpOpenRemote
  -- In the constructor of `Socks5DatagramSocket`, after `super(port, ip)`.
  | udpAssociate
  -- In `proxy.udpAssociate`, connected.
  | udpSession
  -- `response.write(out)` and the start of `relayServer.start()`.
  | udpReply
  -- `pipe_thread2.start()` in `relayServer.start()`.
  | udpStartPipe2
  -- The rest of the handler.
  | serving
  | abort (p : AbortPoint)
  | ended
deriving DecidableEq, Repr

/-- Where the thread started by `onBind` or `startPipe` is. -/
inductive SecondPoint
  | unstarted
  -- `switch (mode)` in `run`.
  | dispatch
  | accept
  -- The connection came from the right host; `ss.close()` is next.
  | heldRight (s : Socket)
  -- The connection came from another host; `s.close()` is still to come.
  | heldForeign (s : Socket)
  -- `remote_sock = s`.
  | record (s : Socket)
  -- The rest of `doAccept`.
  | reply (s : Socket)
  -- `mode = PIPE_MODE`.
  | setMode (s : Socket)
  | pipe
  | abort (p : AbortPoint)
  | ended
deriving DecidableEq, Repr

inductive RelayThread
  | unstarted
  | running
  | ended
deriving DecidableEq, Repr

/-- The listening socket in `ss`. A `SocksServerSocket` in use closes its
session with the proxy unless its field `proxy` has been cleared. -/
inductive ServerSocket
  | plain
  | direct
  | proxied (session : Bool)
deriving DecidableEq, Repr

/-- The field `relayServer`; `started` while its `pipe_thread1` is not null. -/
inductive RelayServer
  | none
  | created
  | started
  | stopped
deriving DecidableEq, Repr

structure State where
  mode : Mode
  main : MainPoint
  second : SecondPoint
  pipe1 : RelayThread
  pipe2 : RelayThread
  remote_sock : Option Socket
  ss : Option ServerSocket
  relayServer : RelayServer
  -- The open sockets.
  sockets : List Socket
  -- The number of connections accepted so far.
  accepted : Nat
deriving DecidableEq, Repr

def State.init : State where
  mode := .start
  main := .begin
  second := .unstarted
  pipe1 := .unstarted
  pipe2 := .unstarted
  remote_sock := none
  ss := none
  relayServer := .none
  sockets := [.client]
  accepted := 0

inductive Outcome
  | ok
  | request (command : Command)
  -- A connection from another host.
  | foreign
  -- It throws.
  | failed
  -- It throws, after closing the socket it was about.
  | closedFailed
deriving DecidableEq, Repr

inductive Action
  | main (outcome : Outcome)
  | second (outcome : Outcome)
  | pipe1 (outcome : Outcome)
  | pipe2 (outcome : Outcome)
deriving DecidableEq, Repr

def State.open (s : State) (x : Socket) : State := { s with sockets := x :: s.sockets }

def State.close (s : State) (xs : List Socket) : State :=
  { s with sockets := s.sockets.filter (· ∉ xs) }

def State.serverSockets (s : State) : List Socket :=
  match s.ss with
  | none => []
  | some (.proxied true) => [.listen, .proxySocket]
  | some _ => [.listen]

def ServerSocket.closed : ServerSocket → ServerSocket
  | .proxied _ => .proxied false
  | ss => ss

def State.closeServer (s : State) : State :=
  { s.close s.serverSockets with ss := s.ss.map ServerSocket.closed }

/-- What `UDPRelayServer.abort` closes of its own: nothing unless it is
running. Closing the proxied datagram socket ends its session. -/
def State.relaySockets (s : State) : List Socket :=
  match s.relayServer with
  | .started => [.relayRemote, .proxySocket, .relayClient]
  | _ => []

/-- `UDPRelayServer.abort`, where `control` is what it closes besides. -/
def State.abortRelay (s : State) (control : List Socket) : State :=
  match s.relayServer with
  | .started => { s.close (s.relaySockets ++ control) with relayServer := .stopped }
  | _ => s

/-- `SocksSocket.close` ends the session with the proxy, which does not
throw. -/
def closeThrows (route : Route) : Socket → Bool
  | .connect => route = .noProxy
  | .proxySocket => false
  | _ => true

/-- One statement of `abort`, with the point the thread is at afterwards, if it
has not left. Another thread in the monitor keeps it at `enter`. -/
def abortStep (route : Route) (s : State) (busy : Bool) (p : AbortPoint) (outcome : Outcome) :
    Option (State × Option AbortPoint) :=
  match p, outcome with
  | .enter, .ok =>
      if busy then none
      else if s.mode = .abort then some (s, none)
      else some ({ s with mode := .abort }, some .remote)
  | .remote, .ok => some (s.close s.remote_sock.toList, some .sock)
  | .remote, .failed =>
      match s.remote_sock with
      | some x => some (s, if closeThrows route x then none else some .sock)
      | none => none
  | .sock, .ok => some (s.close [.client], some .relay)
  | .sock, .failed => some (s, none)
  | .relay, .ok => some (s.abortRelay [], some .server)
  | .server, .ok => some (s.closeServer, none)
  | .server, .failed => if s.ss = none then none else some (s, none)
  | _, _ => none

def AbortPoint.inside (p : AbortPoint) : Bool := p ≠ .enter

def MainPoint.inAbort : MainPoint → Bool
  | .abort p => p.inside
  | _ => false

def SecondPoint.inAbort : SecondPoint → Bool
  | .abort p => p.inside
  | _ => false

def MainPoint.resume : Option AbortPoint → MainPoint
  | some p => .abort p
  | none => .ended

def SecondPoint.resume : Option AbortPoint → SecondPoint
  | some p => .abort p
  | none => .ended

def MainPoint.ofCommand : Command → MainPoint
  | .connect => .connectOpen
  | .bind => .bindOpen
  | .udpAssociate => .udpOpenClient

/-- What the main thread does when the operation at its point succeeds. -/
def mainProceeds (route : Route) (s : State) : MainPoint → Option State
  | .connectOpen => some { s.open .connect with main := .connectDial }
  | .connectDial => some { s with main := .connectReply }
  | .connectReply => some { s with main := .connectRecord }
  | .connectRecord =>
      some { s with mode := .pipe, remote_sock := some .connect, main := .connectStreams }
  | .connectStreams => some { s with second := .dispatch, main := .serving }
  | .bindOpen =>
      match route with
      | .noProxy => some { s.open .listen with ss := some .plain, main := .bindReply }
      | _ => some { s.open .listen with main := .bindListening }
  | .bindListening =>
      match route with
      | .proxied => some { s.open .proxySocket with main := .bindSession }
      | _ => some { s with ss := some .direct, main := .bindReply }
  | .bindSession => some { s with ss := some (.proxied true), main := .bindReply }
  | .bindReply => some { s with mode := .accept, second := .dispatch, main := .serving }
  | .udpOpenClient => some { s.open .relayClient with main := .udpOpenRemote }
  | .udpOpenRemote =>
      match route with
      | .noProxy => some { s.open .relayRemote with relayServer := .created, main := .udpReply }
      | _ => some { s.open .relayRemote with main := .udpAssociate }
  | .udpAssociate => some { s.open .proxySocket with main := .udpSession }
  | .udpSession => some { s with relayServer := .created, main := .udpReply }
  | .udpReply =>
      some { s with relayServer := .started, pipe1 := .running, main := .udpStartPipe2 }
  | .udpStartPipe2 => some { s with pipe2 := .running, main := .serving }
  | .serving => some { s with main := .abort .enter }
  | .begin | .abort _ | .ended => none

/-- The operations that may throw; `run` then goes on with `abort`. That the
rest of a handler throws makes no difference. -/
def MainPoint.mayThrow : MainPoint → Bool
  | .connectRecord | .udpStartPipe2 | .serving | .abort _ | .ended => false
  | _ => true

/-- What an operation closes itself before it throws: a failed connect closes
its channel, and the session with a proxy is ended on a `SocksException`. -/
def MainPoint.closesFirst : MainPoint → List Socket
  | .connectDial => [.connect]
  | .bindSession | .udpSession => [.proxySocket]
  | _ => []

def mainStep (route : Route) (s : State) (outcome : Outcome) : Option State :=
  match s.main, outcome with
  | .abort p, outcome =>
      (abortStep route s s.second.inAbort p outcome).map fun next =>
        { next.1 with main := .resume next.2 }
  | .begin, .request command => some { s with main := .ofCommand command }
  | p, .ok => mainProceeds route s p
  | p, .failed => if p.mayThrow then some { s with main := .abort .enter } else none
  | p, .closedFailed =>
      if p.closesFirst = [] then none
      else some { s.close p.closesFirst with main := .abort .enter }
  | _, _ => none

/-- What `ss.accept()` returns. Through the proxy it is the session itself,
and `ss` gives it up; another thread may have closed it by then. -/
def State.acceptFrom (s : State) : Option (State × Socket) :=
  match s.ss with
  | some (.proxied _) => some ({ s with ss := some (.proxied false) }, .proxySocket)
  | some _ =>
      if .listen ∈ s.sockets then
        some ({ s.open (.accepted s.accepted) with accepted := s.accepted + 1 },
          .accepted s.accepted)
      else none
  | none => none

def State.isProxied (s : State) : Bool :=
  match s.ss with
  | some (.proxied _) => true
  | _ => false

/-- `switch (mode)` in `run`. -/
def dispatchOn : Mode → SecondPoint
  | .accept => .accept
  | .pipe => .pipe
  | .start | .abort => .ended

def secondStep (route : Route) (s : State) (outcome : Outcome) : Option State :=
  match s.second, outcome with
  | .dispatch, .ok => some { s with second := dispatchOn s.mode }
  | .accept, .ok => s.acceptFrom.map fun next => { next.1 with second := .heldRight next.2 }
  | .accept, .foreign =>
      s.acceptFrom.map fun next => { next.1 with second := .heldForeign next.2 }
  | .accept, .closedFailed =>
      if s.isProxied then some { s.close [.proxySocket] with second := .abort .enter } else none
  | .heldRight x, .ok => some { s.closeServer with second := .record x }
  | .heldForeign x, .ok =>
      -- a `SocksServerSocket` accepts only once
      if s.isProxied then some { (s.close [x]).closeServer with second := .abort .enter }
      else some { s.close [x] with second := .accept }
  | .heldForeign x, .closedFailed => some { s.close [x] with second := .abort .enter }
  | .record x, .ok => some { s with remote_sock := some x, second := .reply x }
  | .reply x, .ok => some { s with second := .setMode x }
  | .setMode _, .ok => some { s with mode := .pipe, second := .pipe }
  | .pipe, .ok => some { s with second := .abort .enter }
  | .accept, .failed | .heldRight _, .failed | .heldForeign _, .failed | .reply _, .failed =>
      some { s with second := .abort .enter }
  | .abort p, outcome =>
      (abortStep route s s.main.inAbort p outcome).map fun next =>
        { next.1 with second := .resume next.2 }
  | _, _ => none

/-- A relay thread leaves `pipe` and runs `abort`. That its control connection
cannot be closed is caught there. -/
def relayAbort (s : State) : Outcome → Option State
  | .ok => some (s.abortRelay [.client])
  | .failed => some (s.abortRelay [])
  | _ => none

def step (route : Route) (s : State) : Action → Option State
  | .main outcome => mainStep route s outcome
  | .second outcome => secondStep route s outcome
  | .pipe1 outcome =>
      if s.pipe1 = .running then (relayAbort s outcome).map ({ · with pipe1 := .ended }) else none
  | .pipe2 outcome =>
      if s.pipe2 = .running then (relayAbort s outcome).map ({ · with pipe2 := .ended }) else none

def State.allEnded (s : State) : Prop :=
  s.main = .ended ∧ (s.second = .unstarted ∨ s.second = .ended) ∧
    s.pipe1 ≠ .running ∧ s.pipe2 ≠ .running

/-- The sockets the main thread has opened and not yet stored where `abort`
finds them. -/
def MainPoint.held : MainPoint → List Socket
  | .connectDial | .connectReply | .connectRecord => [.connect]
  | .bindListening => [.listen]
  | .bindSession => [.listen, .proxySocket]
  | .udpOpenRemote => [.relayClient]
  | .udpAssociate => [.relayClient, .relayRemote]
  | .udpSession | .udpReply => [.relayClient, .relayRemote, .proxySocket]
  | _ => []

/-- No operation throws while its thread holds a socket that is not in a field,
no connection is stored in `remote_sock` behind the back of `abort` by a
`doAccept` that then throws, and no `close` in `abort` throws. -/
def storesFirst (s : State) : Action → Bool
  | .main .failed =>
      match s.main with
      | .abort _ => false
      | p => p.held = []
  | .main .closedFailed => s.main = .connectDial
  | .second .failed =>
      match s.second with
      | .abort _ => false
      | .heldRight x | .heldForeign x => x ∉ s.sockets
      | .reply x => x ∉ s.sockets || s.mode ≠ .abort || s.main = .abort .remote
      | _ => true
  | _ => true

end TorAndroid.Socks.Session
