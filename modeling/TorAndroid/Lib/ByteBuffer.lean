import Mathlib.Data.List.Basic
import Mathlib.Algebra.Group.Nat.Defs

namespace TorAndroid.Lib.ByteBuffer

section Windows

universe u

variable {α : Type u}

/-- The `n` elements from an offset on. -/
def load (buf : List α) (off n : Nat) : Option (List α) :=
  if off + n ≤ buf.length then some ((buf.drop off).take n) else none

/-- The buffer with new elements from an offset on. -/
def store (buf : List α) (off : Nat) (xs : List α) : Option (List α) :=
  if off + xs.length ≤ buf.length then some (buf.take off ++ xs ++ buf.drop (off + xs.length))
  else none

theorem load_append (front window back : List α) :
    load (front ++ window ++ back) front.length window.length = some window := by
  rw [load, if_pos (by simp), List.append_assoc, List.drop_left, List.take_left]

theorem store_append {window xs : List α} (h : xs.length = window.length) (front back : List α) :
    store (front ++ window ++ back) front.length xs = some (front ++ xs ++ back) := by
  have hlen : front.length + window.length = (front ++ window).length :=
    List.length_append.symm
  rw [store, h, if_pos (by simp), hlen, List.drop_left, List.append_assoc front window,
    List.take_left]

theorem length_store {buf xs out : List α} {off : Nat} (h : store buf off xs = some out) :
    out.length = buf.length := by
  rw [store] at h
  split_ifs at h with hfit
  cases h
  simp only [List.length_append, List.length_take, List.length_drop]
  omega

end Windows

section Words

/-- A number in `n` bytes, cut to what fits in them. -/
def wordBytes : Nat → Nat → List UInt8
  | 0, _ => []
  | n + 1, v => UInt8.ofNat v :: wordBytes n (v / 256)

/-- The number that the bytes stand for. -/
def wordValue (bytes : List UInt8) : Nat :=
  bytes.foldr (fun b v => b.toNat + 256 * v) 0

@[simp]
theorem length_wordBytes (n v : Nat) : (wordBytes n v).length = n := by
  induction n generalizing v with
  | zero => rfl
  | succ n ih => rw [wordBytes, List.length_cons, ih]

theorem wordValue_wordBytes {n v : Nat} (h : v < 256 ^ n) : wordValue (wordBytes n v) = v := by
  induction n generalizing v with
  | zero =>
      rw [Nat.pow_zero] at h
      exact (Nat.lt_one_iff.mp h).symm
  | succ n ih =>
      have hrest : wordValue (wordBytes n (v / 256)) = v / 256 := by
        refine ih (Nat.div_lt_of_lt_mul ?_)
        rwa [Nat.pow_succ, Nat.mul_comm] at h
      have hlow : (UInt8.ofNat v).toNat = v % 256 := UInt8.toNat_ofNat'
      change (UInt8.ofNat v).toNat + 256 * wordValue (wordBytes n (v / 256)) = v
      rw [hrest, hlow]
      exact Nat.mod_add_div v 256

end Words

section Alignment

variable {w k : Nat}

/-- The size rounded up to a multiple of `2 ^ k`, where the mask is `2 ^ k - 1`. -/
def alignUp (mask x : BitVec w) : BitVec w :=
  (x + mask) &&& ~~~mask

theorem toNat_and_not_mask (hk : k ≤ w) (x : BitVec w) :
    (x &&& ~~~BitVec.ofNat w (2 ^ k - 1)).toNat = x.toNat / 2 ^ k * 2 ^ k := by
  have hmask : (BitVec.ofNat w (2 ^ k - 1)).toNat = 2 ^ k - 1 := by
    rw [BitVec.toNat_ofNat]
    refine Nat.mod_eq_of_lt (Nat.lt_of_lt_of_le ?_ (Nat.pow_le_pow_right (by decide) hk))
    exact Nat.sub_lt (Nat.two_pow_pos k) Nat.one_pos
  have hlow : (x &&& BitVec.ofNat w (2 ^ k - 1)).toNat = x.toNat % 2 ^ k := by
    rw [BitVec.toNat_and, hmask, Nat.and_two_pow_sub_one_eq_mod]
  -- the two parts of `x` share no bit
  have hdisjoint : (x &&& BitVec.ofNat w (2 ^ k - 1)) &&&
      (x &&& ~~~BitVec.ofNat w (2 ^ k - 1)) = 0 := by
    ext i
    cases hbit : (BitVec.ofNat w (2 ^ k - 1))[i] <;> simp [hbit]
  have hsplit : (x &&& BitVec.ofNat w (2 ^ k - 1)) + (x &&& ~~~BitVec.ofNat w (2 ^ k - 1)) = x := by
    rw [BitVec.add_eq_or_of_and_eq_zero _ _ hdisjoint, ← BitVec.and_or_distrib_left]
    ext i
    simp
  have hsum := BitVec.toNat_add_of_and_eq_zero hdisjoint
  rw [hsplit, hlow] at hsum
  have hdiv := Nat.mod_add_div x.toNat (2 ^ k)
  rw [Nat.mul_comm] at hdiv
  omega

theorem dvd_toNat_alignUp (hk : k ≤ w) (x : BitVec w) :
    2 ^ k ∣ (alignUp (BitVec.ofNat w (2 ^ k - 1)) x).toNat := by
  rw [alignUp, toNat_and_not_mask hk]
  exact Nat.dvd_mul_left _ _

theorem toNat_alignUp (hk : k ≤ w) {x : BitVec w} (h : x.toNat + (2 ^ k - 1) < 2 ^ w) :
    (alignUp (BitVec.ofNat w (2 ^ k - 1)) x).toNat = (x.toNat + (2 ^ k - 1)) / 2 ^ k * 2 ^ k := by
  have hmask : (BitVec.ofNat w (2 ^ k - 1)).toNat = 2 ^ k - 1 := by
    rw [BitVec.toNat_ofNat, Nat.mod_eq_of_lt (by omega)]
  rw [alignUp, toNat_and_not_mask hk, BitVec.toNat_add_of_lt (by rwa [hmask]), hmask]

end Alignment

end TorAndroid.Lib.ByteBuffer
