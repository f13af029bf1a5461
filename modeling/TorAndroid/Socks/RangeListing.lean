import TorAndroid.Socks.Range
import TorAndroid.Lib.GuardedRun
import Mathlib.Data.List.DropRight
import Mathlib.Data.List.Forall2

namespace TorAndroid.Socks.Range

open TorAndroid.Lib.Throwing TorAndroid.Lib.GuardedRun
open TorAndroid.Socks.Basic

/-- What an entry was added as: the texts `1.2.3.`, `.name`, `from:to` and `name`, one
address, or two of them. -/
inductive Kind where
  | network
  | ending
  | pair
  | host
  | address
  | addresses
deriving DecidableEq, Repr

/-- An entry, whose interval a thread of the resolver may set at any time. -/
structure Listed where
  kind : Kind
  entry : Entry
deriving DecidableEq, Repr

/-- An `InetRange` that knows what its entries are. -/
structure Listing where
  host_names : List String
  all : List Listed
  end_names : List String
deriving DecidableEq, Repr

/-- The sum of 255 in each of the last `n` parts. -/
def lastParts : Nat → Nat
  | 0 => 0
  | n + 1 => 255 * 2 ^ (8 * n) + lastParts n

/-- The loop over the parts of `1.2.3.`, of which `n` are still to come. `to` is set
where the first part is missing. -/
def networkLoop : Nat → List Nat → Nat → Nat × Nat
  | 0, _, low => (low, 0)
  | n + 1, [], low => (low, low + lastParts (n + 1))
  | n + 1, part :: addr, low => networkLoop n addr (low + part * 2 ^ (8 * n))

def delimiter (c : Char) : Bool := c ∈ [' ', '\t', '\r', '\n', '\x0c', ':']

/-- The tokens of `StringTokenizer`. -/
def tokens (text : String) : List String :=
  ((text.toList.splitOnP delimiter).filter (· ≠ [])).map String.ofList

/-- The ends of an interval as far as no name service is needed for them. -/
def pairEnds (low high : String) : Option Nat × Option Nat :=
  match host2long low, host2long high with
  | some f, some t => (some f, some t)
  | _, _ => (none, none)

namespace Listing

def empty : Listing := ⟨[], [], []⟩

/-- What the look-ups see. -/
def range (l : Listing) : InetRange :=
  ⟨l.host_names, l.all.map Listed.entry, l.end_names⟩

def append (l : Listing) (kind : Kind) (entry : Entry) : Listing :=
  { l with all := l.all ++ [⟨kind, entry⟩] }

/-- `add(String)`, with what it returns. -/
def addString (l : Listing) (s₀ : Option String) : Listing × Bool :=
  match s₀ with
  | none => (l, false)
  | some s₀ =>
      let s := trim s₀
      if s = "" then (l, false)
      else if s.toList.getLast? = some '.' then
        match ip2intarray s with
        | none => (l, false)
        | some addr =>
            let (low, high) := networkLoop 4 addr 0
            (l.append .network ⟨s, some low, some high⟩, true)
      else if s.toList.head? = some '.' then
        ({ l.append .ending ⟨s, none, none⟩ with end_names := l.end_names ++ [s] }, true)
      else
        match tokens s with
        | low :: high :: _ =>
            let (f, t) := pairEnds low high
            (l.append .pair ⟨s, f, t⟩, true)
        | _ =>
            let ip := host2long s
            ({ l.append .host ⟨s, ip, ip⟩ with host_names := l.host_names.insert s }, true)

/-- `remove`: the first entry with the text, and the text among the endings and hosts. -/
def remove (l : Listing) (s : String) : Listing × Bool :=
  if l.all.any fun x => x.entry.name = s then
    ({ host_names := l.host_names.filter (· ≠ s)
       all := l.all.eraseP fun x => x.entry.name = s
       end_names := l.end_names.erase s }, true)
  else (l, false)

variable (platform : Platform) (getHostAddress : InetAddress → String)

/-- `add(InetAddress)`. -/
def addAddress (l : Listing) (ip : InetAddress) : Listing :=
  l.append .address ⟨platform.getHostName ip, some (ip2long ip), some (ip2long ip)⟩

/-- `add(InetAddress, InetAddress)`. -/
def addAddresses (l : Listing) (low high : InetAddress) : Listing :=
  l.append .addresses
    ⟨getHostAddress low ++ ":" ++ getHostAddress high, some (ip2long low), some (ip2long high)⟩

end Listing

/-- The calls, and the results of the resolver's threads. -/
inductive Call where
  | addString (s : Option String)
  | addAddress (ip : InetAddress)
  | addAddresses (low high : InetAddress)
  | remove (s : String)
  | resolver (index : Nat) (low high : Option Nat)

section Steps

variable (platform : Platform) (getHostAddress : InetAddress → String)

def apply (l : Listing) : Call → Listing
  | .addString s => (l.addString s).1
  | .addAddress ip => l.addAddress platform ip
  | .addAddresses low high => l.addAddresses getHostAddress low high
  | .remove s => (l.remove s).1
  | .resolver index low high =>
      { l with all := l.all.modify index fun x => { x with
          entry := { x.entry with fromIp := low, toIp := high } } }

def call (l : Listing) (a : Call) : Option Listing :=
  some (apply platform getHostAddress l a)

/-- After the calls, the newest of which comes first. -/
def after : List Call → Listing
  | [] => .empty
  | a :: hist => apply platform getHostAddress (after hist) a

end Steps

section Covers

variable {α : Type} {covers : α → Prop} {ip : Nat}

/-- An interval that an entry of another list says the meaning of. -/
def Entry.Stands (ip : Nat) (covers : α → Prop) (entry : Entry) (a : α) : Prop :=
  ∃ low high, entry.fromIp = some low ∧ entry.toIp = some high ∧
    (low ≤ ip ∧ ip ≤ high ↔ covers a)

theorem containsLong_of_stands {all : List Entry} {as : List α}
    (h : List.Forall₂ (Entry.Stands ip covers) all as) :
    ∃ b, containsLong all ip = .ok b ∧ (b = true ↔ ∃ a ∈ as, covers a) := by
  induction h with
  | nil => exact ⟨false, rfl, by simp⟩
  | @cons entry a all as hentry _ ih =>
      obtain ⟨b, hb, hiff⟩ := ih
      obtain ⟨low, high, hlow, hhigh, hcovers⟩ := hentry
      rw [containsLong, hlow, hhigh]
      by_cases hin : low ≤ ip ∧ ip ≤ high
      · refine ⟨true, ?_, ?_⟩
        · simp [hin]
        · simp [hcovers.mp hin]
      · refine ⟨b, ?_, ?_⟩
        · simp only [hb]
          split_ifs with h1 h2
          · exact absurd ⟨h1, h2⟩ hin
          · rfl
          · rfl
        · simp [hiff, mt hcovers.mpr hin]

end Covers

section Trim

variable {p : Char → Bool}

theorem dropWhile_rdropWhile (cs : List Char) :
    ((cs.dropWhile p).rdropWhile p).dropWhile p = (cs.dropWhile p).rdropWhile p := by
  rw [List.dropWhile_eq_self_iff]
  intro hpos
  have hinit := List.rdropWhile_prefix p (cs.dropWhile p)
  have hlen := hpos.trans_le hinit.length_le
  rw [hinit.getElem hpos]
  have hidem : (cs.dropWhile p).dropWhile p = cs.dropWhile p := List.dropWhile_idempotent p cs
  exact List.dropWhile_eq_self_iff.mp hidem hlen

theorem toList_trim (s : String) :
    (trim s).toList = (s.toList.dropWhile (· ≤ ' ')).rdropWhile (· ≤ ' ') := by
  rw [trim, String.toList_ofList, List.rdropWhile]

theorem trim_trim (s : String) : trim (trim s) = trim s := by
  have hlist : (trim (trim s)).toList = (trim s).toList := by
    rw [toList_trim (trim s), toList_trim s, dropWhile_rdropWhile, List.rdropWhile_idempotent]
  exact String.toList_inj.mp hlist

end Trim

end TorAndroid.Socks.Range
