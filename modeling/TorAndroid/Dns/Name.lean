import Mathlib.Data.List.Basic
import Mathlib.Data.List.Flatten
import Mathlib.Tactic.SplitIfs

/-!
Domain names in the length-byte notation of pdnsd.

A name is kept in memory as a string of segments, each a length byte followed
by that many bytes, closed by a null byte.  The functions of `helpers.h` read
such a string byte by byte; here they walk a list of bytes with the number of
bytes that are left of the current segment.
-/

namespace TorAndroid.Dns

def tolower (c : UInt8) : UInt8 :=
  if 65 ≤ c ∧ c ≤ 90 then c + 32 else c

def toupper (c : UInt8) : UInt8 :=
  if 97 ≤ c ∧ c ≤ 122 then c - 32 else c

theorem toupper_tolower (c : UInt8) : toupper (tolower c) = toupper c := by
  unfold toupper tolower
  split_ifs <;> grind

theorem toupper_eq_of_tolower_eq {a b : UInt8} (h : tolower a = tolower b) :
    toupper a = toupper b := by
  rw [← toupper_tolower a, h, toupper_tolower]

/-- One segment of a name: its length fits a non-null length byte. -/
structure Label where
  bytes : List UInt8
  nonempty : 0 < bytes.length
  short : bytes.length ≤ 255
  deriving DecidableEq

namespace Label

def wire (l : Label) : List UInt8 :=
  UInt8.ofNat l.bytes.length :: l.bytes

/-- The segment with the case of its letters forgotten. -/
def fold (l : Label) : List UInt8 :=
  l.bytes.map tolower

theorem lengthByte (l : Label) : (UInt8.ofNat l.bytes.length).toNat = l.bytes.length := by
  have := l.short
  simp only [UInt8.toNat_ofNat']
  omega

theorem lengthByte_ne_zero (l : Label) : UInt8.ofNat l.bytes.length ≠ 0 := by
  intro h
  have hlen := l.lengthByte
  rw [h] at hlen
  have := l.nonempty
  simp at hlen
  omega

end Label

/-- A domain name, the segments from the leftmost on. -/
structure Name where
  labels : List Label
  deriving DecidableEq

namespace Name

/-- The bytes of the name as they stand in memory. -/
def wire (n : Name) : List UInt8 :=
  n.labels.flatMap Label.wire ++ [0]

/-- What is left of a name when the case of letters is ignored. -/
def fold (n : Name) : List (List UInt8) :=
  n.labels.map Label.fold

theorem wire_nil : wire ⟨[]⟩ = [0] := rfl

theorem wire_cons (l : Label) (ls : List Label) :
    wire ⟨l :: ls⟩ = UInt8.ofNat l.bytes.length :: (l.bytes ++ wire ⟨ls⟩) := by
  simp [wire, Label.wire]

end Name

def rhnlenLoop : Nat → List UInt8 → Nat
  | _, [] => 0
  | 0, lb :: rhn => if lb = 0 then 1 else rhnlenLoop lb.toNat rhn + 1
  | skip + 1, _ :: rhn => rhnlenLoop skip rhn + 1

def rhnlen (rhn : List UInt8) : Nat :=
  rhnlenLoop 0 rhn

theorem rhnlenLoop_append (bs rest : List UInt8) :
    rhnlenLoop bs.length (bs ++ rest) = bs.length + rhnlenLoop 0 rest := by
  induction bs with
  | nil => simp
  | cons b bs ih =>
      simp only [List.length_cons, List.cons_append, rhnlenLoop, ih]
      omega

theorem rhnlen_wire_append (n : Name) (rest : List UInt8) :
    rhnlen (n.wire ++ rest) = n.wire.length := by
  obtain ⟨ls⟩ := n
  induction ls with
  | nil => rfl
  | cons l ls ih =>
      rw [Name.wire_cons, List.cons_append, rhnlen, rhnlenLoop, if_neg l.lengthByte_ne_zero,
        l.lengthByte, List.append_assoc, rhnlenLoop_append]
      change _ + rhnlen _ + 1 = _
      rw [ih]
      simp

@[simp]
theorem rhnlen_wire (n : Name) : rhnlen n.wire = n.wire.length := by
  simpa using rhnlen_wire_append n []

def rhnicmpLoop : Nat → List UInt8 → List UInt8 → Bool
  | 0, x :: a, y :: b =>
      if x ≠ y then false
      else if x = 0 then true
      else rhnicmpLoop x.toNat a b
  | lb + 1, x :: a, y :: b =>
      if tolower x ≠ tolower y then false
      else rhnicmpLoop lb a b
  | _, _, _ => false

/-- Compare two names, ignoring the case of letters. -/
def rhnicmp (a b : List UInt8) : Bool :=
  rhnicmpLoop 0 a b

theorem rhnicmpLoop_segment (x y a b : List UInt8) (h : x.length = y.length) :
    rhnicmpLoop x.length (x ++ a) (y ++ b) =
      (decide (x.map tolower = y.map tolower) && rhnicmpLoop 0 a b) := by
  induction x generalizing y with
  | nil =>
      obtain rfl : y = [] := List.length_eq_zero_iff.mp h.symm
      simp
  | cons c x ih =>
      obtain _ | ⟨d, y⟩ := y
      · simp at h
      · have hlen : x.length = y.length := by simpa using h
        by_cases hcd : tolower c = tolower d
        · simp [rhnicmpLoop, hcd, ih y hlen]
        · simp [rhnicmpLoop, hcd]

theorem rhnicmp_wire (a b : Name) : rhnicmp a.wire b.wire = true ↔ a.fold = b.fold := by
  obtain ⟨ls⟩ := a
  obtain ⟨ms⟩ := b
  induction ls generalizing ms with
  | nil =>
      cases ms with
      | nil => simp [Name.wire_nil, rhnicmp, rhnicmpLoop]
      | cons m ms =>
          simp [Name.wire_nil, Name.wire_cons, rhnicmp, rhnicmpLoop, Name.fold,
            m.lengthByte_ne_zero.symm]
  | cons l ls ih =>
      cases ms with
      | nil =>
          simp [Name.wire_nil, Name.wire_cons, rhnicmp, rhnicmpLoop, Name.fold,
            l.lengthByte_ne_zero]
      | cons m ms =>
          rw [Name.wire_cons, Name.wire_cons, rhnicmp, rhnicmpLoop]
          by_cases hlen : l.bytes.length = m.bytes.length
          · rw [if_neg (by simp [hlen]), if_neg l.lengthByte_ne_zero, l.lengthByte,
              rhnicmpLoop_segment _ _ _ _ hlen]
            change (_ && rhnicmp _ _) = true ↔ _
            rw [Bool.and_eq_true, ih ms]
            simp [Name.fold, Label.fold]
          · have hne : UInt8.ofNat l.bytes.length ≠ UInt8.ofNat m.bytes.length := by
              intro h
              exact hlen (by rw [← l.lengthByte, h, m.lengthByte])
            have hfold : l.fold ≠ m.fold := by
              intro h
              exact hlen (by simpa [Label.fold] using congrArg List.length h)
            simp [hne, Name.fold, hfold]

end TorAndroid.Dns
