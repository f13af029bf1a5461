import TorAndroid.Socks.Basic
import Mathlib.Algebra.Group.Nat.Defs
import Mathlib.Algebra.Group.Int.Defs

namespace TorAndroid.Socks.Range

open TorAndroid.Lib.Throwing
open TorAndroid.Socks.Basic

/-- An entry of `all`: its text and the ends of its interval. The resolver sets
`fromIp` before `toIp`. -/
structure Entry where
  name : String
  fromIp : Option Nat
  toIp : Option Nat
deriving DecidableEq, Repr

structure InetRange where
  host_names : List String
  all : List Entry
  end_names : List String
deriving DecidableEq, Repr

/-- The number of an IPv4 address; IPv6 addresses are all 0. -/
def ip2long (ip : InetAddress) : Nat :=
  match ip.octets with
  | [a, b, c, d] => a.toNat * 2 ^ 24 + b.toNat * 2 ^ 16 + c.toNat * 2 ^ 8 + d.toNat
  | _ => 0

def containsLong : List Entry → Nat → Java Bool
  | [], _ => .ok false
  | entry :: rest, ip =>
      match entry.fromIp with
      | none => containsLong rest ip
      | some low =>
          if low ≤ ip then
            match entry.toIp with
            | none => .error (.unchecked .nullPointer)
            | some high => if ip ≤ high then .ok true else containsLong rest ip
          else containsLong rest ip

/-- `String.trim`. -/
def trim (text : String) : String :=
  String.ofList
    (((text.toList.dropWhile (· ≤ ' ')).reverse.dropWhile (· ≤ ' ')).reverse)

/-- `Integer.parseInt` for ASCII digits; `none` stands for
`NumberFormatException`. -/
def parseInt (token : List Char) : Option Int :=
  let (negative, digits) :=
    match token with
    | '-' :: digits => (true, digits)
    | '+' :: digits => (false, digits)
    | digits => (false, digits)
  if digits ≠ [] ∧ digits.all Char.isDigit then
    let value : Nat := digits.foldl (fun n c => 10 * n + (c.toNat - 48)) 0
    let n : Int := if negative then -value else value
    if -2 ^ 31 ≤ n ∧ n < 2 ^ 31 then some n else none
  else none

/-- The tokens of a dotted number, each cut to a byte. -/
def ip2intarray (host : String) : Option (List Nat) :=
  let tokens := (host.toList.splitOn '.').filter (· ≠ [])
  if 4 < tokens.length then none
  else tokens.mapM fun token => (parseInt token).map fun n => (n % 256).toNat

/-- `none` stands for -1; missing parts of the number are 0. -/
def host2long (host : String) : Option Nat :=
  match host.toList with
  | c :: _ =>
      if c.isDigit then
        (ip2intarray host).map fun addr =>
          (addr ++ List.replicate (4 - addr.length) 0).foldl (fun ip n => 256 * ip + n) 0
      else none
  | [] => none

namespace InetRange

variable (range : InetRange)

def checkHost (host : String) : Bool := host ∈ range.host_names

def checkHostEnding (host : String) : Bool := range.end_names.any fun ending =>
  ending.toList.isSuffixOf host.toList

def contains (platform : Platform) (ip : InetAddress) : Java Bool :=
  if range.checkHostEnding (platform.getHostName ip) then .ok true
  else if range.checkHost (platform.getHostName ip) then .ok true
  else containsLong range.all (ip2long ip)

/-- `contains(String, boolean)` for a text: the name is looked up as it is, as a dotted number,
and at last through the name service. -/
def containsText (platform : Platform) (host : String) (attemptResolve : Bool) : Java Bool :=
  if range.all = [] then .ok false
  else
    let host := trim host
    if host = "" then .ok false
    else if range.checkHost host then .ok true
    else if range.checkHostEnding host then .ok true
    else
      match host2long host with
      | some ip => containsLong range.all ip
      | none =>
          if attemptResolve then
            match platform.getByName (some host) with
            | some ip => range.contains platform ip
            | none => .ok false
          else .ok false

/-- `contains(String)`, where the host may be null. -/
def containsHost (platform : Platform) : Option String → Java Bool
  | some host => range.containsText platform host true
  | none => if range.all = [] then .ok false else .error (.unchecked .nullPointer)

end InetRange

end TorAndroid.Socks.Range
