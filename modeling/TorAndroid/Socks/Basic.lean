import Mathlib.Data.List.Basic
import TorAndroid.Lib.Throwing

/-!
What the jsocks classes use of their platform: exceptions, the error codes and
texts of `SocksException`, addresses, and the name service. `getByName` follows
its documentation (no name or an empty one is the loopback address, a dotted
quad is checked for its format only); every other name goes to the name service.
-/

namespace TorAndroid.Socks.Basic

open TorAndroid.Lib.Throwing

/-- Exceptions that are `IOException`s. -/
inductive IOKind
  | eof
  | interrupted
  | unknownHost
  | socket
  | socks (errCode : Int) (errString : String)
  | other
deriving DecidableEq, Repr

/-- Exceptions that are not `IOException`s and that no session catches. -/
inductive UncheckedKind
  | indexOutOfBounds
  | negativeArraySize
  | nullPointer
  | illegalArgument
deriving DecidableEq, Repr

inductive Throwable
  | io (kind : IOKind)
  | unchecked (kind : UncheckedKind)
deriving DecidableEq, Repr

def Throwable.IsIO : Throwable → Prop
  | .io _ => True
  | .unchecked _ => False

instance : DecidablePred Throwable.IsIO
  | .io _ => .isTrue trivial
  | .unchecked _ => .isFalse id

abbrev Java (α : Type) := Except Throwable α

/-- The computation ends normally or with an `IOException`. -/
def Checked {α : Type} (x : Java α) : Prop := Throws Throwable.IsIO x

/-- The ports that `InetSocketAddress` accepts. -/
def ValidPort (port : Int) : Prop := 0 ≤ port ∧ port < 65536

instance (port : Int) : Decidable (ValidPort port) := inferInstanceAs (Decidable (_ ∧ _))

def SOCKS_SUCCESS : Nat := 0
def SOCKS_FAILURE : Nat := 1
def SOCKS_HOST_UNREACHABLE : Nat := 4
def SOCKS_CONNECTION_REFUSED : Nat := 5
def SOCKS_TTL_EXPIRE : Nat := 6
def SOCKS_CMD_NOT_SUPPORTED : Nat := 7
def SOCKS_ADDR_NOT_SUPPORTED : Nat := 8
def SOCKS_PROXY_NO_CONNECT : Nat := 2 * 65536
def SOCKS_PROXY_IO_ERROR : Nat := 3 * 65536
def SOCKS_AUTH_NOT_SUPPORTED : Nat := 4 * 65536
def SOCKS_AUTH_FAILURE : Nat := 5 * 65536
def SOCKS_JUST_ERROR : Nat := 6 * 65536
def SOCKS_DIRECT_FAILED : Nat := 7 * 65536
def SOCKS_METHOD_NOTSUPPORTED : Nat := 8 * 65536

def SOCKS_CMD_CONNECT : Nat := 1
def SOCKS_CMD_BIND : Nat := 2
def SOCKS_CMD_UDP_ASSOCIATE : Nat := 3

def serverReplyMessage : List String :=
  ["Succeeded", "General SOCKS server failure", "Connection not allowed by ruleset",
    "Network unreachable", "Host unreachable", "Connection refused", "TTL expired",
    "Command not supported", "Address type not supported"]

def localErrorMessage : List String :=
  ["SOCKS server not specified", "Unable to contact SOCKS server", "IO error",
    "None of Authentication methods are supported", "Authentication failed",
    "General SOCKS fault"]

/-- Look up an error text. The bound is tested with `<=`, so the code just past
the table is out of bounds. -/
def lookupMessage (table : List String) (errCode : Nat) : Java String :=
  if errCode ≤ table.length then
    match table[errCode]? with
    | some text => .ok text
    | none => .error (.unchecked .indexOutOfBounds)
  else .ok "Unknown error message"

def lookupErrorString (errCode : Nat) : Java String :=
  if errCode / 65536 = 0 then lookupMessage serverReplyMessage errCode
  else lookupMessage localErrorMessage (errCode / 65536 - 1)

/-- `throw new SocksException(errCode)`: the constructor looks the text up. -/
def throwSocks {α : Type} (errCode : Nat) : Java α :=
  match lookupErrorString errCode with
  | .ok errString => .error (.io (.socks errCode errString))
  | .error e => .error e

/-- `throw new SocksException(errCode, errString)`. -/
def throwSocksText {α : Type} (errCode : Int) (errString : String) : Java α :=
  .error (.io (.socks errCode errString))

/-- What the catch clauses of `Socks5Proxy.startSession` make of an exception. -/
def rethrow {α : Type} (e : Throwable) : Java α :=
  match e with
  | .io (.socks errCode errString) => throwSocksText errCode errString
  | .io .unknownHost => throwSocks SOCKS_PROXY_NO_CONNECT
  | .io .socket => throwSocks SOCKS_PROXY_NO_CONNECT
  | .io _ => throwSocks SOCKS_PROXY_IO_ERROR
  | .unchecked kind => .error (.unchecked kind)

/-- The address octets: four of them or sixteen. -/
structure InetAddress where
  octets : List UInt8
  valid : octets.length = 4 ∨ octets.length = 16
deriving DecidableEq

def InetAddress.v4 (a b c d : UInt8) : InetAddress := ⟨[a, b, c, d], .inl rfl⟩

def InetAddress.loopback : InetAddress := .v4 127 0 0 1

def decimal (b : UInt8) : List Char := Nat.toDigits 10 b.toNat

def bytes2IPV4 (addr : List UInt8) : String :=
  String.ofList (List.intercalate ['.'] ((addr.take 4).map decimal))

/-- IPv6 addresses have no text form here. -/
def bytes2IPV6 (_addr : List UInt8) : Option String := none

def parseOctet (part : List Char) : Option UInt8 :=
  if part ≠ [] ∧ part.all Char.isDigit then
    let n := part.foldl (fun n c => 10 * n + (c.toNat - 48)) 0
    if n < 256 then some (UInt8.ofNat n) else none
  else none

def parseQuad (text : String) : Option InetAddress :=
  match (text.toList.splitOn '.').map parseOctet with
  | [some a, some b, some c, some d] => some (.v4 a b c d)
  | _ => none

/-- What the session learns from outside through names and texts. -/
structure Platform where
  -- The name service.
  resolve : String → Option InetAddress
  -- The reverse look-up behind `getHostName`.
  getHostName : InetAddress → String
  -- Decoding in the platform's default charset.
  newString : List UInt8 → String
  -- The text of an exception.
  describe : IOKind → String

namespace Platform

variable (platform : Platform)

/-- `InetAddress.getByName`; `none` stands for `UnknownHostException`. -/
def getByName (host : Option String) : Option InetAddress :=
  match host with
  | none => some .loopback
  | some name =>
      if name = "" then some .loopback
      else
        match parseQuad name with
        | some ip => some ip
        | none => platform.resolve name

/-- A platform without a name service, with the Latin-1 charset. -/
def latin1 : Platform where
  resolve _ := none
  getHostName ip := bytes2IPV4 ip.octets
  newString bytes := String.ofList (bytes.map fun b => Char.ofNat b.toNat)
  describe
    | .socks _ errString => errString
    | _ => "java.io.IOException"

end Platform

theorem parseOctet_decimal (b : UInt8) : parseOctet (decimal b) = some b := by
  have h : ∀ n : Fin 256, parseOctet (Nat.toDigits 10 n.val) = some (UInt8.ofNat n.val) := by
    decide +kernel
  have hb := h ⟨b.toNat, b.toNat_lt⟩
  simpa [decimal] using hb

theorem dot_notMem_decimal (b : UInt8) : '.' ∉ decimal b := by
  have h : ∀ n : Fin 256, '.' ∉ Nat.toDigits 10 n.val := by
    decide +kernel
  exact h ⟨b.toNat, b.toNat_lt⟩

theorem parseQuad_bytes2IPV4 (a b c d : UInt8) :
    parseQuad (bytes2IPV4 [a, b, c, d]) = some (.v4 a b c d) := by
  have hsplit : (bytes2IPV4 [a, b, c, d]).toList.splitOn '.' =
      [decimal a, decimal b, decimal c, decimal d] := by
    simp only [bytes2IPV4, List.take, List.map, String.toList_ofList]
    apply List.splitOn_intercalate
    · simp [dot_notMem_decimal]
    · simp
  simp [parseQuad, hsplit, parseOctet_decimal]

theorem bytes2IPV4_ne_empty (a b c d : UInt8) : bytes2IPV4 [a, b, c, d] ≠ "" := by
  intro h
  have hparse := parseQuad_bytes2IPV4 a b c d
  rw [h] at hparse
  have hempty : parseQuad "" = none := by
    decide
  rw [hempty] at hparse
  cases hparse

/-- A dotted quad is never sent to the name service. -/
theorem getByName_bytes2IPV4 (platform : Platform) (a b c d : UInt8) :
    platform.getByName (some (bytes2IPV4 [a, b, c, d])) = some (.v4 a b c d) := by
  simp [Platform.getByName, bytes2IPV4_ne_empty, parseQuad_bytes2IPV4]

theorem checked_throwSocks {α : Type} {errCode : Nat}
    (h : (lookupErrorString errCode).toBool = true) : Checked (throwSocks errCode : Java α) := by
  unfold throwSocks
  split
  · exact throws_error trivial
  · rename_i e he
    simp [he, Except.toBool] at h

end TorAndroid.Socks.Basic
