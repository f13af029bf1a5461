import TorAndroid.Socks.MessageRoundTrip
import TorAndroid.Socks.Range

/-!
`Socks5DatagramSocket`: the datagrams it sends to the relay and what it makes of
those it receives. Packets have offset 0. An encapsulation may transform the bytes
in the array it is given or return another array.
-/

namespace TorAndroid.Socks.Datagram

open TorAndroid.Lib.Fragments
open TorAndroid.Lib.Throwing
open TorAndroid.Socks.Basic
open TorAndroid.Socks.Message
open TorAndroid.Socks.MessageRoundTrip
open TorAndroid.Socks.Range
open TorAndroid.Socks.Requests

/-- A `DatagramPacket`: its buffer, the length of its data, and how many bytes of the
buffer the next datagram may fill. -/
structure DatagramPacket where
  data : List UInt8
  length : Nat
  room : Nat
  address : Option InetAddress
  port : Nat
  length_le : length ≤ data.length
  room_le : room ≤ data.length
deriving DecidableEq

/-- What a packet carries. -/
def DatagramPacket.payload (dp : DatagramPacket) : List UInt8 := dp.data.take dp.length

/-- The array after `bytes` have been stored at its start. -/
def overwrite (data bytes : List UInt8) : List UInt8 :=
  (bytes ++ data.drop bytes.length).take data.length

@[simp] theorem length_overwrite (data bytes : List UInt8) :
    (overwrite data bytes).length = data.length := by
  rw [overwrite, List.length_take, List.length_append, List.length_drop]
  omega

/-- A datagram that reaches the socket. `late` says that the timeout of the socket has
passed if it is one to be dropped. -/
structure Arrival where
  address : InetAddress
  port : Nat
  bytes : List UInt8
  late : Bool
deriving DecidableEq

/-- `DatagramSocket.receive`: what does not fit is lost. -/
def DatagramPacket.fill (dp : DatagramPacket) (a : Arrival) : DatagramPacket where
  data := overwrite dp.data (a.bytes.take dp.room)
  length := min a.bytes.length dp.room
  room := dp.room
  address := some a.address
  port := a.port
  length_le := by
    have h := dp.room_le
    rw [length_overwrite]
    omega
  room_le := by
    rw [length_overwrite]
    exact dp.room_le

/-- `DatagramPacket.setLength`: it also limits what the next datagram may fill. -/
def DatagramPacket.setLength (dp : DatagramPacket) (length : Nat) : Java DatagramPacket :=
  if h : length ≤ dp.data.length then
    .ok { dp with length := length, room := length, length_le := h, room_le := h }
  else .error (.unchecked .illegalArgument)

/-- The array `udpEncapsulate` returns: the one it was given, or a new one. -/
inductive Transformed (data : List UInt8)
  | inPlace (result : List UInt8) (h : result.length = data.length)
  | fresh (result : List UInt8)

def Transformed.bytes {data : List UInt8} : Transformed data → List UInt8
  | .inPlace result _ => result
  | .fresh result => result

structure UDPEncapsulation where
  udpEncapsulate (data : List UInt8) (out : Bool) : Java (Transformed data)

/-- The settings of the proxy that datagrams go through. -/
structure Socks5Proxy where
  directHosts : InetRange
  resolveAddrLocally : Bool

/-- A socket in server mode has no proxy. -/
structure Socket where
  proxy : Option Socks5Proxy
  relayIP : InetAddress
  relayPort : Nat
  encapsulation : Option UDPEncapsulation

def Socket.server_mode (socket : Socket) : Bool := socket.proxy.isNone

inductive Sent
  | direct (dp : DatagramPacket)
  | relayed (bytes : List UInt8)

section Sending

variable (platform : ClientPlatform)

/-- `formHeader(ip, port)`; no address is `0.0.0.0`. -/
def formHeader (ip : Option InetAddress) (port : Nat) : List UInt8 :=
  (Socks5Message.ofAddress 0 (ip.getD (.v4 0 0 0 0)) port).set 0 0

/-- `formHeader(host, port)`. -/
def formHeaderHost (host : String) (port : Nat) : List UInt8 :=
  (Socks5Message.ofName 0 (platform.getBytes host) port).set 0 0

def isDirect (proxy : Socks5Proxy) (ip : Option InetAddress) : Java Bool :=
  match ip with
  | some ip => proxy.directHosts.contains platform.toPlatform ip
  | none => .error (.unchecked .nullPointer)

/-- The header and the data, encapsulated if there is an encapsulation. -/
def Socket.encapsulate (socket : Socket) (buf : List UInt8) : Java (List UInt8) :=
  match socket.encapsulation with
  | none => .ok buf
  | some e => do
      let buf ← e.udpEncapsulate buf true
      return buf.bytes

def Socket.send (socket : Socket) (dp : DatagramPacket) : Java Sent := do
  let direct ←
    match socket.proxy with
    | none => .ok false
    | some proxy => isDirect platform proxy dp.address
  if direct then return .direct dp
  else
    let buf ← socket.encapsulate (formHeader dp.address dp.port ++ dp.payload)
    return .relayed buf

/-- `InetAddress.getByName`, with its exception. -/
def lookUp (host : String) : Java InetAddress :=
  match platform.getByName (some host) with
  | some ip => .ok ip
  | none => .error (.io .unknownHost)

/-- `send(dp, host)`: also a host that is resolved locally is sent by its name. In
server mode there is no proxy to ask. -/
def Socket.sendTo (socket : Socket) (dp : DatagramPacket) (host : String) : Java Sent :=
  match socket.proxy with
  | none => .error (.unchecked .nullPointer)
  | some proxy => do
      let direct ← proxy.directHosts.containsHost platform.toPlatform (some host)
      if direct then
        let ip ← lookUp platform host
        return .direct { dp with address := some ip }
      else
        if proxy.resolveAddrLocally then
          let _ ← lookUp platform host
        let buf ← socket.encapsulate (formHeaderHost platform host dp.port ++ dp.payload)
        return .relayed buf

end Sending

section Receiving

variable (platform : Platform) (doResolveIP : Bool)

def Socket.fromRelay (socket : Socket) (dp : DatagramPacket) : Bool :=
  dp.address = some socket.relayIP ∧ dp.port = socket.relayPort

/-- The loop that drops datagrams from other hosts. The length it restores was taken
after the first datagram had come. When nothing more arrives the call times out. -/
def Socket.dropOthers (socket : Socket) (init_length : Nat) :
    DatagramPacket → List Arrival → Bool → Java DatagramPacket
  | dp, arrivals, late =>
      if socket.fromRelay dp then .ok dp
      else
        match arrivals with
        | [] => .error (.io .interrupted)
        | a :: rest => do
            let dp ← dp.setLength init_length
            if late then .error (.io .interrupted)
            else Socket.dropOthers socket init_length (dp.fill a) rest a.late

/-- The array that the message is read from, and the packet whose buffer it may be. -/
def Socket.decapsulate (socket : Socket) (dp : DatagramPacket) : Java (Transformed dp.data) :=
  match socket.encapsulation with
  | none => .ok (.inPlace dp.data rfl)
  | some e => e.udpEncapsulate dp.data false

/-- The packet after the data have been shifted to the start of the array. -/
def DatagramPacket.shift (dp : DatagramPacket) (data : Transformed dp.data) (data_length : Nat) :
    DatagramPacket :=
  match data with
  | .fresh _ => dp
  | .inPlace result h =>
      { dp with
        data := overwrite result ((result.drop (dp.length - data_length)).take data_length)
        length_le := by
          rw [length_overwrite, h]
          exact dp.length_le
        room_le := by
          rw [length_overwrite, h]
          exact dp.room_le }

/-- What `receive` does with a datagram from the relay. -/
def Socket.unwrap (socket : Socket) (dp : DatagramPacket) : Java DatagramPacket := do
  let data ← socket.decapsulate dp
  let bIn := ByteStream.ofBytes (data.bytes.take dp.length) []
  let (msg, bIn) ← Socks5Message.read platform doResolveIP true bIn
  let ip ← getInetAddress platform msg
  let data_length := bIn.content.length
  if data.bytes.length < dp.length then .error (.unchecked .indexOutOfBounds)
  else
    DatagramPacket.setLength { dp.shift data data_length with address := some ip, port := msg.port }
      data_length

/-- `receive`, for the datagrams that arrive. -/
def Socket.receive (socket : Socket) (dp : DatagramPacket) (arrivals : List Arrival) :
    Java DatagramPacket :=
  match arrivals with
  | [] => .error (.io .interrupted)
  | a :: rest => do
      let dp := dp.fill a
      if socket.server_mode then
        let dp ← socket.dropOthers dp.length dp rest a.late
        socket.unwrap platform doResolveIP dp
      else if socket.fromRelay dp then socket.unwrap platform doResolveIP dp
      else return dp

end Receiving

end TorAndroid.Socks.Datagram
