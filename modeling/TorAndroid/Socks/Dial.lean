import TorAndroid.Lib.Stateful
import TorAndroid.Socks.Negotiation
import TorAndroid.Socks.Range
import TorAndroid.Socks.Requests

/-!
The client side of jsocks byte by byte: proxies as their constructors build
them, `copy`, and `SocksSocket`, which dials a chain of proxies through one TCP
connection. Every object keeps its socket in `proxySocket`; an object is named
by its level, the number of proxies behind it.
-/

namespace TorAndroid.Socks.Dial

open TorAndroid.Lib.Fragments
open TorAndroid.Lib.Stateful
open TorAndroid.Socks.Basic
open TorAndroid.Socks.Message
open TorAndroid.Socks.Negotiation
open TorAndroid.Socks.Range
open TorAndroid.Socks.Requests

/-- The classes that implement `Authentication`. -/
inductive Authentication
  | none
  | userPassword (userName password : String)
deriving DecidableEq, Repr

/-- The class of a proxy and what only that class has. -/
inductive Kind
  | socks4 (user : String)
  | socks5 (methods : Socks5Proxy Authentication) (resolveAddrLocally : Bool)

/-- A `Socks4Proxy` or `Socks5Proxy`; its `chainProxy` is the next proxy of the
list it stands in. -/
structure Proxy where
  kind : Kind
  proxyIP : Option InetAddress
  proxyHost : Option String
  proxyPort : Int
  directHosts : InetRange

/-- `new Socks4Proxy(proxyIP, proxyPort, user)` and `new Socks5Proxy(proxyIP, proxyPort)` with
the fields copied afterwards; `proxyHost` is not among them. -/
def Proxy.copy (p : Proxy) : Proxy := { p with proxyHost := none }

/-- What is to be reached through a proxy: an address, or a host name that may
be null. -/
inductive Dest
  | ip (ip : InetAddress)
  | host (host : Option String)
deriving DecidableEq

/-- What `startSession` dials through the chain. -/
def Proxy.dest (p : Proxy) : Dest :=
  match p.proxyIP with
  | some ip => .ip ip
  | none => .host p.proxyHost

inductive Sent
  | greeting (bytes : List UInt8)
  | authentication (bytes : List UInt8)
  | request (bytes : List UInt8)
deriving DecidableEq

inductive Event
  | opened (s : Nat)
  | connect (s : Nat) (ip : InetAddress) (port : Int)
  | sent (s : Nat) (message : Sent)
  | closed (s : Nat)
deriving DecidableEq

/-- The operations on a socket that can fail. -/
inductive Point
  | connect
  | streams
  | greeting
  | selection
  | authStreams
  | authRequest
  | authReply
  | request
  | reply
deriving DecidableEq

/-- The outside: the platform, the static flag of `Socks5Message`, the bytes
that come back on the TCP connection before it ends, and which operations of
the object at a level fail. -/
structure Env where
  platform : ClientPlatform
  doResolveIP : Bool
  input : ByteStream
  fault : Nat → Point → Option IOKind

/-- A socket in `proxySocket`: a TCP socket, or the `SocksSocket` whose proxy is
the object one level below. -/
inductive SessionSocket
  | tcp (s : Nat)
  | socks
deriving DecidableEq

structure World where
  next : Nat
  trace : List Event
  proxySocket : Nat → Option SessionSocket

def World.start : World := ⟨0, [], fun _ => none⟩

def World.emit (event : Event) (w : World) : World := { w with trace := w.trace ++ [event] }

def World.setProxySocket (level : Nat) (socket : Option SessionSocket) (w : World) : World :=
  { w with proxySocket := Function.update w.proxySocket level socket }

/-- `endSession`, with `SocksSocket.close` on the way down. -/
def endSession : Nat → World → World
  | level, w =>
      match level, w.proxySocket level with
      | _, none => w
      | level, some (.tcp s) => (w.emit (.closed s)).setProxySocket level none
      | 0, some .socks => w.setProxySocket 0 none
      | level + 1, some .socks => (endSession level w).setProxySocket (level + 1) none

/-- `close` on the socket that the object at a level holds. -/
def closeSocket (level : Nat) (w : World) : World :=
  match level, w.proxySocket level with
  | _, none => w
  | _, some (.tcp s) => w.emit (.closed s)
  | 0, some .socks => w
  | level + 1, some .socks => endSession level w

abbrev Net (α : Type) := Act World Throwable α

def emit (event : Event) : Net Unit := Act.modify (World.emit event)

def fresh : Net Nat := fun w => (.ok w.next, { w with next := w.next + 1 })

/-- An open TCP connection and what can still be read from it. -/
structure Session where
  socket : Nat
  input : ByteStream

/-- `SOCKS_PROXY_IO_ERROR` for an `IOException` that is no `SocksException`. -/
def asSocks {α : Type} (text : IOKind → String) (x : Net α) : Net α :=
  x.handle fun e =>
    match e with
    | .io (.socks code errString) => Act.fail (.io (.socks code errString))
    | .io kind => Act.fail (.io (.socks SOCKS_PROXY_IO_ERROR (text kind)))
    | .unchecked kind => Act.fail (.unchecked kind)

/-- Run `x` and, when it throws a `SocksException`, end the session. -/
def endSessionOnError {α : Type} (level : Nat) (x : Net α) : Net α :=
  x.handle fun e =>
    match e with
    | .io (.socks code errString) => do
        Act.modify (endSession level)
        Act.fail (.io (.socks code errString))
    | e => Act.fail e

section Client

variable (env : Env)

def attempt (level : Nat) (point : Point) : Net Unit :=
  match env.fault level point with
  | none => pure ()
  | some kind => Act.fail (.io kind)

/-- `new Socket(ip, port)`: it is closed again when it cannot be connected. -/
def newSocket (level : Nat) (ip : Option InetAddress) (port : Int) : Net Nat :=
  match ip with
  | none => Act.fail (.unchecked .nullPointer)
  | some ip =>
      if ValidPort port then do
        let s ← fresh
        emit (.opened s)
        emit (.connect s ip port)
        Act.handle (attempt env level .connect) fun e => do
          emit (.closed s)
          Act.fail e
        return s
      else Act.fail (.unchecked .illegalArgument)

def send (level : Nat) (point : Point) (s : Nat) (message : Sent) : Net Unit := do
  attempt env level point
  emit (.sent s message)

/-- The bytes that `UserPasswordAuthentication.formRequest` puts together. -/
def formRequest (userName password : String) : List UInt8 :=
  let user := env.platform.getBytes userName
  let password := env.platform.getBytes password
  [1, UInt8.ofNat user.length] ++ user ++ [UInt8.ofNat password.length] ++ password

/-- The version and the status that answer a user name and password; `none` when
the status is not 0 or the stream has ended. -/
def readStatus (input : ByteStream) : Option ByteStream :=
  match input.read with
  | (none, _) => none
  | (some _, input) =>
      match input.read with
      | (none, _) => none
      | (some status, input) => if status = 0 then some input else none

/-- `doSocksAuthentication`; `none` stands for the null of a failed
authentication. -/
def doSocksAuthentication (level : Nat) (auth : Authentication) (methodId : Nat)
    (session : Session) : Net (Option ByteStream) :=
  match auth with
  | .none =>
      if methodId ≠ 0 then return none
      else do
        attempt env level .authStreams
        return some session.input
  | .userPassword userName password =>
      if methodId ≠ 2 then return none
      else do
        attempt env level .authStreams
        send env level .authRequest session.socket
          (.authentication (formRequest env userName password))
        attempt env level .authReply
        return readStatus session.input

/-- The version and the method that answer the greeting; `none` at the end of
the stream. -/
def readSelection (input : ByteStream) : Option (UInt8 × ByteStream) :=
  let (versionNumber, input) := input.read
  let (selectedMethod, input) := input.read
  match versionNumber, selectedMethod with
  | some _, some selectedMethod => some (selectedMethod, input)
  | _, _ => none

/-- The `try` block of `Socks5Proxy.startSession`. -/
def negotiate (level : Nat) (methods : Socks5Proxy Authentication) (session : Session) :
    Net Session := do
  let buf ← Act.lift (greeting methods.authMethods.keys)
  send env level .greeting session.socket (.greeting buf)
  attempt env level .selection
  match readSelection session.input with
  | none => do
      Act.modify (endSession level)
      Act.lift (throwSocksText SOCKS_PROXY_IO_ERROR "Connection to proxy lost.")
  | some (selectedMethod, input) =>
      if selectedMethod = 255 then do
        Act.modify (closeSocket level)
        Act.lift (throwSocks SOCKS_AUTH_NOT_SUPPORTED)
      else
        match methods.getAuthenticationMethod selectedMethod.toNat with
        | none =>
            Act.lift (throwSocksText SOCKS_JUST_ERROR "Specified Authentication not found!")
        | some auth => do
            let in_out ← doSocksAuthentication env level auth selectedMethod.toNat
              ⟨session.socket, input⟩
            match in_out with
            | none => Act.lift (throwSocks SOCKS_AUTH_FAILURE)
            | some input => return ⟨session.socket, input⟩

/-- `Socks5Proxy.startSession` once the proxy is connected. -/
def greet (level : Nat) (methods : Socks5Proxy Authentication) (session : Session) :
    Net Session :=
  (negotiate env level methods session).handle fun e => Act.lift (rethrow e)

def Proxy.greet (level : Nat) (p : Proxy) (session : Session) : Net Session :=
  match p.kind with
  | .socks4 _ => pure session
  | .socks5 methods _ => Dial.greet env level methods session

def getByName (host : Option String) : Java InetAddress :=
  match env.platform.getByName host with
  | some ip => .ok ip
  | none => .error (.io .unknownHost)

/-- `formMessage(cmd, ip, port)` and `formMessage(cmd, host, port)`; `none`
stands for the null that `Socks4Proxy` returns for `UDP_ASSOCIATE`. -/
def Proxy.formMessage (p : Proxy) (command : Nat) (dest : Dest) (port : Int) :
    Java (Option (List UInt8)) :=
  match p.kind, dest with
  | .socks4 user, .ip ip =>
      if command = SOCKS_CMD_CONNECT ∨ command = SOCKS_CMD_BIND then
        some <$> Socks4Message.ofAddress env.platform command ip port user
      else .ok none
  | .socks4 user, .host host => do
      let ip ← getByName env host
      if command = SOCKS_CMD_CONNECT ∨ command = SOCKS_CMD_BIND then
        some <$> Socks4Message.ofAddress env.platform command ip port user
      else .ok none
  | .socks5 _ _, .ip ip => .ok (some (Socks5Message.ofAddress command ip port))
  | .socks5 _ true, .host host => do
      let ip ← getByName env host
      return some (Socks5Message.ofAddress command ip port)
  | .socks5 _ false, .host (some host) =>
      .ok (some (Socks5Message.ofName command (env.platform.getBytes host) port))
  | .socks5 _ false, .host none => .error (.unchecked .nullPointer)

/-- `formMessage(in)`. -/
def Proxy.readReply (p : Proxy) (input : ByteStream) : Java (ProxyMessage × ByteStream) :=
  match p.kind with
  | .socks4 _ => Socks4Message.read env.platform.toPlatform true input
  | .socks5 _ _ => Socks5Message.read env.platform.toPlatform env.doResolveIP true input

/-- The `try` block of `exchange`. -/
def Proxy.converse (level : Nat) (p : Proxy) (request : List UInt8) (session : Session) :
    Net (ProxyMessage × Session) := do
  send env level .request session.socket (.request request)
  attempt env level .reply
  let (reply, input) ← Act.lift (p.readReply env session.input)
  return (reply, ⟨session.socket, input⟩)

def Proxy.exchange (level : Nat) (p : Proxy) (request : List UInt8) (session : Session) :
    Net (ProxyMessage × Session) :=
  asSocks env.platform.describe (p.converse env level request session)

/-- The `try` block of `connect`, `bind` and `udpAssociate` once the proxy is
connected. -/
def Proxy.converseOn (level : Nat) (p : Proxy) (command : Nat) (dest : Dest) (port : Int)
    (session : Session) : Net (Option (ProxyMessage × Session)) := do
  let session ← p.greet env level session
  let request ← Act.lift (p.formMessage env command dest port)
  match request with
  | some request => do
      let reply ← p.exchange env level request session
      return some reply
  | none => return none

/-- `connect`, `bind` and `udpAssociate` of `SocksProxyBase`; `session` is what
`SocksProxyBase.startSession` does. A null message is answered after the `try`
block, and only `udpAssociate` meets one. -/
def Proxy.call (level : Nat) (p : Proxy) (session : Net Session) (command : Nat) (dest : Dest)
    (port : Int) : Net (ProxyMessage × Session) := do
  let reply ← endSessionOnError level do
    let session ← session
    p.converseOn env level command dest port session
  match reply with
  | some reply => return reply
  | none => do
      Act.modify (endSession level)
      Act.lift (throwSocksText SOCKS_METHOD_NOTSUPPORTED
        "This version of proxy does not support UDP associate, use version 5")

def Proxy.isDirect (p : Proxy) : Dest → Java Bool
  | .ip ip => p.directHosts.contains env.platform.toPlatform ip
  | .host host => p.directHosts.containsHost env.platform.toPlatform host

/-- `SocksSocket.processReply`. -/
def Proxy.processReply (p : Proxy) (reply : ProxyMessage) : Java Unit :=
  match reply.host with
  | none => .error (.unchecked .nullPointer)
  | some host =>
      if host = "0.0.0.0" ∧ p.proxyIP = none then .error (.unchecked .nullPointer) else .ok ()

/-- The `try` block of `doDirect`. -/
def openDirect (level : Nat) (ip : InetAddress) (port : Int) : Net Session := do
  let s ← newSocket env level (some ip) port
  attempt env level .streams
  Act.modify (World.setProxySocket level (some (.tcp s)))
  return ⟨s, env.input⟩

/-- `SocksSocket.doDirect`. -/
def doDirect (level : Nat) (ip : InetAddress) (port : Int) : Net Session :=
  (openDirect env level ip port).handle fun e =>
    match e with
    | .io _ => Act.lift (throwSocksText SOCKS_DIRECT_FAILED "Direct connect failed:")
    | .unchecked kind => Act.fail (.unchecked kind)

/-- The `remoteIP` of a direct connection. -/
def remoteIP : Dest → Java InetAddress
  | .ip ip => .ok ip
  | .host host => getByName env host

/-- `new SocksSocket(p, dest, port)` after `p` is copied. -/
def socksSocketOn (level : Nat) (p : Proxy) (session : Net Session) (dest : Dest) (port : Int) :
    Net Session := do
  let direct ← Act.lift (p.isDirect env dest)
  if direct then do
    let remoteIP ← Act.lift (remoteIP env dest)
    doDirect env level remoteIP port
  else do
    let (reply, session) ← p.call env level session SOCKS_CMD_CONNECT dest port
    Act.lift (p.processReply reply)
    return session

/-- `SocksProxyBase.startSession` of the first proxy of a chain. -/
def startSession : Proxy → List Proxy → Net Session
  | p, [] =>
      asSocks env.platform.describe do
        let s ← newSocket env 0 p.proxyIP p.proxyPort
        Act.modify (World.setProxySocket 0 (some (.tcp s)))
        attempt env 0 .streams
        return ⟨s, env.input⟩
  | p, q :: chain =>
      asSocks env.platform.describe do
        let session ← socksSocketOn env chain.length q.copy (startSession q.copy chain) p.dest
          p.proxyPort
        Act.modify (World.setProxySocket (chain.length + 1) (some .socks))
        return session

/-- `connect`, `bind` or `udpAssociate` called on a proxy. -/
def callProxy (p : Proxy) (chain : List Proxy) (command : Nat) (dest : Dest) (port : Int) :
    Net (ProxyMessage × Session) :=
  p.call env chain.length (startSession env p chain) command dest port

/-- `new SocksSocket(p, dest, port)`. -/
def socksSocket (p : Proxy) (chain : List Proxy) (dest : Dest) (port : Int) : Net Session :=
  socksSocketOn env chain.length p.copy (startSession env p.copy chain) dest port

end Client

end TorAndroid.Socks.Dial
