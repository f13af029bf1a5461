import TorAndroid.Socks.Message
import Mathlib.Algebra.GroupWithZero.Nat

namespace TorAndroid.Socks.Requests

open TorAndroid.Socks.Basic

/-- A platform that can also encode texts in its default charset. -/
structure ClientPlatform extends Platform where
  getBytes : String → List UInt8

def ClientPlatform.latin1 : ClientPlatform where
  toPlatform := Platform.latin1
  getBytes text := text.toList.map fun c => UInt8.ofNat c.toNat

/-- `String.length`: the number of UTF-16 units. -/
def utf16Length (text : String) : Nat :=
  (text.toList.map fun c => if c.toNat < 65536 then 1 else 2).sum

/-- `(byte) n`. -/
def toByte (n : Int) : UInt8 := UInt8.ofNat (n % 256).toNat

def portBytes (port : Int) : List UInt8 := [toByte (port / 256), toByte port]

/-- `new Socks5Message(cmd, ip, port)`. -/
def Socks5Message.ofAddress (command : Nat) (ip : InetAddress) (port : Int) : List UInt8 :=
  [5, UInt8.ofNat command, 0, if ip.octets.length = 4 then 1 else 4] ++ ip.octets ++
    portBytes port

/-- `new Socks5Message(cmd, hostName, port)`: the length of the name is cut to
one byte. -/
def Socks5Message.ofName (command : Nat) (addr : List UInt8) (port : Int) : List UInt8 :=
  [5, UInt8.ofNat command, 0, 3, UInt8.ofNat addr.length] ++ addr ++ portBytes port

/-- `new Socks4Message(cmd, ip, port, user)`. The array has room for as many
bytes as the user name has UTF-16 units, and for the zero byte after it. -/
def Socks4Message.ofAddress (platform : ClientPlatform) (command : Nat) (ip : InetAddress)
    (port : Int) (user : String) : Java (List UInt8) :=
  let buf := platform.getBytes user
  if utf16Length user + 1 < buf.length then .error (.unchecked .indexOutOfBounds)
  else
    .ok ([4, UInt8.ofNat command] ++ portBytes port ++ ip.octets.take 4 ++
      (buf ++ List.replicate (utf16Length user + 1 - buf.length) 0).take (utf16Length user) ++ [0])

inductive Address
  | ip (octets : List UInt8)
  | name (bytes : List UInt8)
deriving DecidableEq, Repr

structure Request where
  version : Nat
  command : Nat
  address : Address
  port : Int
deriving DecidableEq, Repr

def portOf (high low : UInt8) : Int := high.toNat * 256 + low.toNat

/-- The last two bytes are the port, the bytes before them the address. -/
def withPort (address : List UInt8 → Address) (command : UInt8) (rest : List UInt8) (len : Nat) :
    Option Request :=
  match rest.drop len with
  | [high, low] => some ⟨5, command.toNat, address (rest.take len), portOf high low⟩
  | _ => none

/-- What a server reads from the bytes of one request. -/
def readRequest : List UInt8 → Option Request
  | 5 :: command :: _ :: 1 :: rest => withPort .ip command rest 4
  | 5 :: command :: _ :: 4 :: rest => withPort .ip command rest 16
  | 5 :: command :: _ :: 3 :: len :: rest => withPort .name command rest len.toNat
  | 4 :: command :: high :: low :: a :: b :: c :: d :: user =>
      if user.getLast? = some 0 then
        some ⟨4, command.toNat, .ip [a, b, c, d], portOf high low⟩
      else none
  | _ => none

section Reading

variable {command : Nat} {port : Int}

theorem portOf_portBytes (h : 0 ≤ port ∧ port < 65536) :
    portOf (toByte (port / 256)) (toByte port) = port := by
  have hhigh : (toByte (port / 256)).toNat = (port / 256 % 256).toNat := by
    rw [toByte, UInt8.toNat_ofNat']
    omega
  have hlow : (toByte port).toNat = (port % 256).toNat := by
    rw [toByte, UInt8.toNat_ofNat']
    omega
  rw [portOf, hhigh, hlow]
  omega

theorem portOf_bounds (high low : UInt8) : 0 ≤ portOf high low ∧ portOf high low < 65536 := by
  have hhigh := high.toNat_lt
  have hlow := low.toNat_lt
  unfold portOf
  omega

theorem toNat_command (h : command < 256) : (UInt8.ofNat command).toNat = command := by
  rw [UInt8.toNat_ofNat']
  omega

theorem withPort_append (address : List UInt8 → Address) (command : UInt8) (addr : List UInt8)
    (port : Int) :
    withPort address command (addr ++ portBytes port) addr.length =
      some ⟨5, command.toNat, address addr, portOf (toByte (port / 256)) (toByte port)⟩ := by
  simp [withPort, portBytes]

theorem readRequest_ofAddress (ip : InetAddress) (port : Int) (hcommand : command < 256) :
    readRequest (Socks5Message.ofAddress command ip port) =
      some ⟨5, command, .ip ip.octets, portOf (toByte (port / 256)) (toByte port)⟩ := by
  have hport := withPort_append .ip (UInt8.ofNat command) ip.octets port
  rw [toNat_command hcommand] at hport
  rcases ip.valid with hlen | hlen
  · rw [hlen] at hport
    simpa [Socks5Message.ofAddress, hlen, readRequest] using hport
  · rw [hlen] at hport
    simpa [Socks5Message.ofAddress, hlen, readRequest] using hport

theorem readRequest_ofName {addr : List UInt8} (port : Int) (hcommand : command < 256)
    (h : addr.length ≤ 255) :
    readRequest (Socks5Message.ofName command addr port) =
      some ⟨5, command, .name addr, portOf (toByte (port / 256)) (toByte port)⟩ := by
  have hport := withPort_append .name (UInt8.ofNat command) addr port
  rw [toNat_command hcommand] at hport
  have hlen : (UInt8.ofNat addr.length).toNat = addr.length := toNat_command (by omega)
  simpa [Socks5Message.ofName, readRequest, hlen] using hport

theorem readRequest_ofName_long (command : Nat) {addr : List UInt8} (port : Int)
    (h : 255 < addr.length) :
    readRequest (Socks5Message.ofName command addr port) = none := by
  have hlen : (UInt8.ofNat addr.length).toNat < addr.length := by
    have := (UInt8.ofNat addr.length).toNat_lt
    omega
  have hdrop : ((addr ++ portBytes port).drop (UInt8.ofNat addr.length).toNat).length ≠ 2 := by
    rw [List.length_drop, List.length_append]
    simp only [portBytes, List.length_cons, List.length_nil]
    omega
  simp only [Socks5Message.ofName, List.cons_append, List.nil_append, readRequest, withPort]
  split
  · rename_i heq
    rw [heq] at hdrop
    exact absurd rfl hdrop
  · rfl

theorem take_four (ip : InetAddress) : ∃ a b c d, ip.octets.take 4 = [a, b, c, d] := by
  obtain ⟨octets, hvalid⟩ := ip
  rcases octets with _ | ⟨a, _ | ⟨b, _ | ⟨c, _ | ⟨d, rest⟩⟩⟩⟩ <;> simp at hvalid
  exact ⟨a, b, c, d, rfl⟩

theorem readRequest_socks4 {platform : ClientPlatform} {ip : InetAddress} {user : String}
    {bytes : List UInt8} (hcommand : command < 256)
    (h : Socks4Message.ofAddress platform command ip port user = .ok bytes) :
    readRequest bytes = some ⟨4, command, .ip (ip.octets.take 4),
      portOf (toByte (port / 256)) (toByte port)⟩ := by
  obtain ⟨a, b, c, d, hfour⟩ := take_four ip
  simp only [Socks4Message.ofAddress] at h
  split at h
  · cases h
  · cases h
    simp [hfour, readRequest, portBytes, toNat_command hcommand]

end Reading

end TorAndroid.Socks.Requests
