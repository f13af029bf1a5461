import TorAndroid.Lib.Effects
import TorAndroid.Socks.Message
import TorAndroid.Socks.Range

/-!
The client side of jsocks: the sockets that `SocksSocket`, `SocksServerSocket`
and `Socks5DatagramSocket` open through a chain of proxies. Every operation on
the network can throw; the record says which sockets were opened, connected,
protected and closed, and in which order.
-/

namespace TorAndroid.Socks.Client

open TorAndroid.Lib.Effects
open TorAndroid.Socks.Basic
open TorAndroid.Socks.Range

inductive SocketKind
  | stream
  | server
  | datagram
deriving DecidableEq, Repr

inductive Dest
  | ip (ip : InetAddress)
  | nullHost
deriving DecidableEq

def Dest.address : Dest → Option InetAddress
  | .ip a => some a
  | .nullHost => none

inductive Event
  | opened (s : Nat) (kind : SocketKind)
  | protect (s : Nat)
  | connect (s : Nat) (ip : InetAddress) (port : Int)
  | request (s : Nat) (command : Nat) (dest : Dest) (port : Int)
  | send (s : Nat)
  | close (s : Nat)
deriving DecidableEq

abbrev Net (α : Type) := Prog Throwable Event α

/-- What `copy` keeps of a proxy: not its `proxyHost`, so a hop without an
address has no name either. -/
structure Hop where
  socks5 : Bool
  resolveAddrLocally : Bool
  proxyIP : Option InetAddress
  proxyPort : Int
  directHosts : InetRange
deriving DecidableEq

section Sockets

variable (platform : Platform)

def openSocket (kind : SocketKind) : Net Nat := do
  Prog.attempt
  let s ← fresh
  Prog.emit (.opened s kind)
  return s

/-- Close a socket; an `IOException` is swallowed and leaves it open. -/
def closeQuietly (s : Nat) : Net Unit :=
  Prog.handle
    (do
      Prog.attempt
      Prog.emit (.close s))
    fun e =>
      match e with
      | .io _ => pure ()
      | .unchecked kind => Prog.fail (.unchecked kind)

/-- `new InetSocketAddress(ip, port)` refuses a port that is out of range. -/
def checkPort (port : Int) : Java Unit :=
  if ValidPort port then .ok () else .error (.unchecked .illegalArgument)

/-- `new Socket(ip, port)`: it is closed again when it cannot be connected. -/
def newSocket (ip : Option InetAddress) (port : Int) : Net Nat :=
  match ip with
  | none => Prog.fail (.unchecked .nullPointer)
  | some ip => do
      Prog.lift (checkPort port)
      let s ← openSocket .stream
      Prog.handle
        (do
          Prog.emit (.connect s ip port)
          Prog.attempt)
        fun e => do
          Prog.emit (.close s)
          Prog.fail e
      return s

/-- `throw new SocksException(errCode, text)` for an `IOException` that is not
one already. -/
def asSocks {α : Type} (errCode : Nat) (text : IOKind → String) (x : Net α) : Net α :=
  x.handle fun e =>
    match e with
    | .io (.socks code errString) => Prog.fail (.io (.socks code errString))
    | .io kind => Prog.fail (.io (.socks errCode (text kind)))
    | .unchecked kind => Prog.fail (.unchecked kind)

/-- Run `x` and, when it throws a `SocksException`, end the session on `s`. -/
def endSessionOnError {α : Type} (s : Nat) (x : Net α) : Net α :=
  x.handle fun e =>
    match e with
    | .io (.socks code errString) => do
        closeQuietly s
        Prog.fail (.io (.socks code errString))
    | e => Prog.fail e

def Hop.isDirect (p : Hop) : Dest → Java Bool
  | .ip ip => p.directHosts.contains platform ip
  | .nullHost => p.directHosts.containsHost platform none

/-- `formMessage` for a CONNECT, BIND or UDP_ASSOCIATE request; a null host is
resolved to the loopback address unless the proxy is to resolve it. -/
def Hop.formMessage (p : Hop) : Dest → Java Dest
  | .ip ip => .ok (.ip ip)
  | .nullHost =>
      if p.socks5 = true ∧ p.resolveAddrLocally = false then .error (.unchecked .nullPointer)
      else .ok (.ip .loopback)

/-- The greeting and authentication of `Socks5Proxy.startSession`. -/
def Hop.greet (p : Hop) : Net Unit :=
  if p.socks5 then Prog.handle Prog.attempt fun e => Prog.lift (rethrow e) else pure ()

def exchange (s : Nat) (command : Nat) (dest : Dest) (port : Int) : Net Unit :=
  asSocks SOCKS_PROXY_IO_ERROR platform.describe do
    Prog.emit (.request s command dest port)
    Prog.attempt

/-- `connect`, `bind` and `udpAssociate` of `SocksProxyBase`, on the socket that
`session` opens. -/
def establish (p : Hop) (session : Net Nat) (command : Nat) (dest : Dest) (port : Int) :
    Net Nat := do
  let s ← session
  endSessionOnError s do
    p.greet
    let dest ← Prog.lift (p.formMessage dest)
    exchange platform s command dest port
  return s

def doDirect (dest : Dest) (port : Int) : Net Nat :=
  asSocks SOCKS_DIRECT_FAILED (fun _ => "Direct connect failed:") do
    let s ← newSocket dest.address port
    Prog.attempt
    return s

/-- `processReply`: an address in the reply that has no text form is a null
pointer. -/
def processReply : Net Unit :=
  Prog.handle Prog.attempt fun e =>
    match e with
    | .io _ => pure ()
    | .unchecked kind => Prog.fail (.unchecked kind)

/-- `new SocksSocket(p, dest, port)` on the socket that `session` opens. -/
def socksSocketOn (p : Hop) (session : Net Nat) (dest : Dest) (port : Int) : Net Nat := do
  let direct ← Prog.lift (p.isDirect platform dest)
  if direct then doDirect dest port
  else
    let s ← establish platform p session SOCKS_CMD_CONNECT dest port
    processReply
    return s

def Hop.dest (p : Hop) : Dest :=
  match p.proxyIP with
  | some ip => .ip ip
  | none => .nullHost

/-- `SocksProxyBase.startSession`: the socket to proxy `p`, opened through its
chain of proxies. -/
def startSession : Hop → List Hop → Net Nat
  | p, [] => asSocks SOCKS_PROXY_IO_ERROR platform.describe (newSocket p.proxyIP p.proxyPort)
  | p, q :: chain =>
      asSocks SOCKS_PROXY_IO_ERROR platform.describe
        (socksSocketOn platform q (startSession q chain) p.dest p.proxyPort)

def socksSocket (p : Hop) (chain : List Hop) (ip : InetAddress) (port : Int) : Net Nat :=
  socksSocketOn platform p (startSession platform p chain) (.ip ip) port

/-- `new SocksServerSocket(p, ip, port)`: the local server socket, and the
connection to the proxy unless the host is a direct one. -/
def socksServerSocket (p : Hop) (chain : List Hop) (ip : InetAddress) (port : Int) :
    Net (Nat × Option Nat) := do
  let server ← openSocket .server
  let direct ← Prog.lift (p.isDirect platform (.ip ip))
  if direct then return (server, none)
  else
    let s ← establish platform p (startSession platform p chain) SOCKS_CMD_BIND (.ip ip) port
    processReply
    return (server, some s)

/-- `new Socks5DatagramSocket(p, 0, null)`: the datagram socket and the
connection to the proxy. -/
def socks5DatagramSocket (p : Hop) (chain : List Hop) (localIP : InetAddress)
    (localPort : Int) : Net (Nat × Nat) := do
  let socket ← openSocket .datagram
  if p.socks5 = false then
    Prog.lift (throwSocksText (-1) "Datagram Socket needs Proxy version 5")
  else if chain ≠ [] then
    Prog.lift (throwSocksText SOCKS_JUST_ERROR
      "Datagram Sockets do not support proxy chaining.")
  else
    let s ← establish platform p (startSession platform p chain) SOCKS_CMD_UDP_ASSOCIATE
      (.ip localIP) localPort
    processReply
    return (socket, s)

end Sockets

/-- A socket to the proxy can be made. -/
def Hop.Addressed (p : Hop) : Prop := p.proxyIP ≠ none ∧ ValidPort p.proxyPort

/-- The walk through the chain ends in a connection: to the outermost proxy,
or to a proxy that the next one counts as a direct host. -/
def Dialable (platform : Platform) : Hop → List Hop → Prop
  | p, [] => p.Addressed
  | p, q :: chain =>
      match q.isDirect platform p.dest with
      | .ok true => p.Addressed
      | .ok false => Dialable platform q chain
      | .error _ => False

/-- Predicates that hold of every event but connections, datagrams and
`protect`. -/
structure Benign (Q : Event → Prop) : Prop where
  opened : ∀ s kind, Q (.opened s kind)
  request : ∀ s command dest port, Q (.request s command dest port)
  close : ∀ s, Q (.close s)

section Emits

variable {platform : Platform} {Q : Event → Prop} {α : Type}

theorem emits_openSocket (hQ : Benign Q) (kind : SocketKind) : Emits Q (openSocket kind) := by
  apply emits_bind emits_attempt
  intro _
  apply emits_bind emits_fresh
  intro s
  apply emits_bind (emits_emit (hQ.opened s kind))
  intro _
  apply emits_pure

theorem emits_closeQuietly (hQ : Benign Q) (s : Nat) : Emits Q (closeQuietly s) := by
  apply emits_handle
  · apply emits_bind emits_attempt
    intro _
    exact emits_emit (hQ.close s)
  · intro e
    cases e with
    | io kind => apply emits_pure
    | unchecked kind => apply emits_fail

theorem checkPort_ok {port : Int} {u : Unit} : checkPort port = .ok u ↔ ValidPort port := by
  rw [checkPort]
  split_ifs with hport
  · exact iff_of_true rfl hport
  · exact iff_of_false nofun hport

theorem emits_newSocket (hQ : Benign Q) {ip : Option InetAddress} {port : Int}
    (hconnect : ∀ s a, ip = some a → ValidPort port → Q (.connect s a port)) :
    Emits Q (newSocket ip port) := by
  cases ip with
  | none => apply emits_fail
  | some a =>
      apply emits_lift_bind
      intro _ hport
      apply emits_bind (emits_openSocket hQ .stream)
      intro s
      apply emits_bind
      · apply emits_handle
        · apply emits_bind (emits_emit (hconnect s a rfl (checkPort_ok.mp hport)))
          intro _
          exact emits_attempt
        · intro e
          apply emits_bind (emits_emit (hQ.close s))
          intro _
          apply emits_fail
      · intro _
        apply emits_pure

theorem emits_asSocks {errCode : Nat} {text : IOKind → String} {x : Net α} (hx : Emits Q x) :
    Emits Q (asSocks errCode text x) := by
  apply emits_handle hx
  intro e
  split <;> apply emits_fail

theorem emits_endSessionOnError (hQ : Benign Q) {s : Nat} {x : Net α} (hx : Emits Q x) :
    Emits Q (endSessionOnError s x) := by
  apply emits_handle hx
  intro e
  split
  · apply emits_bind (emits_closeQuietly hQ s)
    intro _
    apply emits_fail
  · apply emits_fail

theorem emits_greet (p : Hop) : Emits Q p.greet := by
  unfold Hop.greet
  split
  · apply emits_handle emits_attempt
    intro e
    apply emits_lift
  · apply emits_pure

theorem emits_exchange (hQ : Benign Q) (s command : Nat) (dest : Dest) (port : Int) :
    Emits Q (exchange platform s command dest port) := by
  apply emits_asSocks
  apply emits_bind (emits_emit (hQ.request s command dest port))
  intro _
  exact emits_attempt

theorem emits_establish (hQ : Benign Q) {p : Hop} {session : Net Nat} (hsession : Emits Q session)
    (command : Nat) (dest : Dest) (port : Int) :
    Emits Q (establish platform p session command dest port) := by
  apply emits_bind hsession
  intro s
  apply emits_bind
  · apply emits_endSessionOnError hQ
    apply emits_bind (emits_greet p)
    intro _
    apply emits_bind (emits_lift _)
    intro dest
    exact emits_exchange hQ s command dest port
  · intro _
    apply emits_pure

theorem emits_processReply : Emits Q processReply := by
  apply emits_handle emits_attempt
  intro e
  cases e with
  | io kind => apply emits_pure
  | unchecked kind => apply emits_fail

theorem emits_doDirect (hQ : Benign Q) {dest : Dest} {port : Int}
    (hconnect : ∀ s ip, dest.address = some ip → ValidPort port → Q (.connect s ip port)) :
    Emits Q (doDirect dest port) := by
  apply emits_asSocks
  apply emits_bind (emits_newSocket hQ hconnect)
  intro s
  apply emits_bind emits_attempt
  intro _
  apply emits_pure

theorem emits_socksSocketOn (hQ : Benign Q) {p : Hop} {session : Net Nat} {dest : Dest}
    {port : Int}
    (hdirect : p.isDirect platform dest = .ok true →
      ∀ s ip, dest.address = some ip → ValidPort port → Q (.connect s ip port))
    (hsession : p.isDirect platform dest = .ok false → Emits Q session) :
    Emits Q (socksSocketOn platform p session dest port) := by
  apply emits_lift_bind
  intro direct hcontains
  cases direct with
  | true => exact emits_doDirect hQ (hdirect hcontains)
  | false =>
      apply emits_bind (emits_establish hQ (hsession hcontains) _ _ _)
      intro s
      apply emits_bind emits_processReply
      intro _
      apply emits_pure

theorem emits_startSession (hQ : Benign Q) (hconnect : ∀ s ip port, Q (.connect s ip port))
    (p : Hop) (chain : List Hop) : Emits Q (startSession platform p chain) := by
  induction chain generalizing p with
  | nil =>
      apply emits_asSocks
      apply emits_newSocket hQ
      intro s ip _ _
      exact hconnect s ip p.proxyPort
  | cons q chain ih =>
      apply emits_asSocks
      apply emits_socksSocketOn hQ
      · intro _ s ip _ _
        exact hconnect s ip p.proxyPort
      · intro _
        exact ih q

theorem Hop.dest_address (p : Hop) : p.dest.address = p.proxyIP := by
  unfold Hop.dest
  cases p.proxyIP <;> rfl

/-- A chain that cannot be walked throws before any connection. -/
theorem emits_startSession_of_not_dialable (hQ : Benign Q) (p : Hop) (chain : List Hop)
    (h : ¬ Dialable platform p chain) : Emits Q (startSession platform p chain) := by
  induction chain generalizing p with
  | nil =>
      apply emits_asSocks
      apply emits_newSocket hQ
      intro s ip hip hport
      exact absurd ⟨by simp [hip], hport⟩ h
  | cons q chain ih =>
      apply emits_asSocks
      apply emits_socksSocketOn hQ
      · intro hdirect s ip hip hport
        rw [Hop.dest_address] at hip
        simp only [Dialable, hdirect] at h
        exact absurd ⟨by simp [hip], hport⟩ h
      · intro hdirect
        simp only [Dialable, hdirect] at h
        exact ih q h

theorem fails_newSocket {ip : Option InetAddress} {port : Int} (h : ¬(ip ≠ none ∧ ValidPort port)) :
    Fails (newSocket ip port) := by
  cases ip with
  | none => apply fails_fail
  | some a =>
      have hport : ¬ValidPort port := fun hport => h ⟨nofun, hport⟩
      apply fails_bind_left
      rw [checkPort, if_neg hport]
      apply fails_fail

theorem fails_startSession {p : Hop} (h : ¬p.Addressed) : Fails (startSession platform p []) := by
  apply fails_handle
  · exact fails_newSocket h
  · intro e
    split <;> apply fails_fail

end Emits

section Reaches

variable {platform : Platform}

def IsConnect (event : Event) : Prop := ∃ s ip port, event = .connect s ip port

theorem benign_true : Benign fun _ => True := ⟨fun _ _ => trivial, fun _ _ _ _ => trivial,
  fun _ => trivial⟩

theorem succeeds_openSocket (kind : SocketKind) : Succeeds (openSocket kind) := by
  apply succeeds_bind succeeds_attempt
  intro _
  apply succeeds_bind succeeds_fresh
  intro s
  apply succeeds_bind (succeeds_emit _)
  intro _
  apply succeeds_pure

theorem reaches_newSocket (ip : InetAddress) {port : Int} (hport : ValidPort port) :
    Reaches IsConnect (newSocket (some ip) port) := by
  apply reaches_lift_bind (checkPort_ok.mpr hport : checkPort port = .ok ())
  apply reaches_bind_right (succeeds_openSocket .stream) (emits_openSocket benign_true _)
  intro s
  apply reaches_bind_left
  · apply reaches_handle
    · apply reaches_bind_left (reaches_emit ⟨s, ip, port, rfl⟩)
      intro _
      exact emits_attempt
    · intro e
      apply emits_bind (emits_emit trivial)
      intro _
      apply emits_fail
  · intro _
    apply emits_pure

theorem reaches_asSocks {α : Type} {errCode : Nat} {text : IOKind → String} {x : Net α}
    {Q : Event → Prop} (hx : Reaches Q x) : Reaches Q (asSocks errCode text x) := by
  apply reaches_handle hx
  intro e
  split <;> apply emits_fail

theorem reaches_doDirect {dest : Dest} {ip : InetAddress} (h : dest.address = some ip)
    {port : Int} (hport : ValidPort port) : Reaches IsConnect (doDirect dest port) := by
  apply reaches_asSocks
  rw [h]
  apply reaches_bind_left (reaches_newSocket ip hport)
  intro s
  apply emits_bind emits_attempt
  intro _
  apply emits_pure

theorem reaches_establish {p : Hop} {session : Net Nat} {Q : Event → Prop}
    (hsession : Reaches Q session) (command : Nat) (dest : Dest) (port : Int) :
    Reaches Q (establish platform p session command dest port) := by
  apply reaches_bind_left hsession
  intro s
  apply emits_bind
  · apply emits_endSessionOnError benign_true
    apply emits_bind (emits_greet p)
    intro _
    apply emits_bind (emits_lift _)
    intro dest
    exact emits_exchange benign_true s command dest port
  · intro _
    apply emits_pure

theorem reaches_socksSocketOn_direct {p : Hop} {session : Net Nat} {dest : Dest} {ip : InetAddress}
    (hdirect : p.isDirect platform dest = .ok true) (hip : dest.address = some ip)
    {port : Int} (hport : ValidPort port) :
    Reaches IsConnect (socksSocketOn platform p session dest port) := by
  apply reaches_lift_bind hdirect
  exact reaches_doDirect hip hport

theorem reaches_socksSocketOn {p : Hop} {session : Net Nat} {dest : Dest}
    (hdirect : p.isDirect platform dest = .ok false) (hsession : Reaches IsConnect session)
    (port : Int) : Reaches IsConnect (socksSocketOn platform p session dest port) := by
  apply reaches_lift_bind hdirect
  apply reaches_bind_left (reaches_establish hsession _ _ _)
  intro s
  apply emits_bind emits_processReply
  intro _
  apply emits_pure

/-- A chain that can be walked leads to a connection. -/
theorem reaches_startSession (p : Hop) (chain : List Hop) (h : Dialable platform p chain) :
    Reaches IsConnect (startSession platform p chain) := by
  induction chain generalizing p with
  | nil =>
      obtain ⟨hip, hport⟩ := h
      obtain ⟨ip, hip⟩ := Option.ne_none_iff_exists'.mp hip
      apply reaches_asSocks
      rw [hip]
      exact reaches_newSocket ip hport
  | cons q chain ih =>
      apply reaches_asSocks
      unfold Dialable at h
      split at h
      · rename_i hdirect
        obtain ⟨hip, hport⟩ := h
        obtain ⟨ip, hip⟩ := Option.ne_none_iff_exists'.mp hip
        exact reaches_socksSocketOn_direct hdirect (by rw [Hop.dest_address, hip]) hport
      · rename_i hdirect
        exact reaches_socksSocketOn hdirect (ih q h) _
      · contradiction

end Reaches

end TorAndroid.Socks.Client
