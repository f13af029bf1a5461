import Mathlib.Data.List.Basic
import Mathlib.Data.List.Pairwise

namespace TorAndroid.Lib.BinarySearch

variable {α : Type} (cmp : α → Int) (a : List α)

/-- The search between the indices `low` and `high`, the latter not included. A missing
key is answered by `-(low + 1)`, where `low` is its place. -/
def search : Nat → Nat → Nat → Int
  | 0, low, _ => -(low + 1)
  | fuel + 1, low, high =>
      if high ≤ low then -(low + 1)
      else
        let mid := (low + high - 1) / 2
        match a[mid]? with
        | none => -(low + 1)
        | some x =>
            if cmp x < 0 then search fuel (mid + 1) high
            else if 0 < cmp x then search fuel low mid
            else mid

def binarySearch : Int := search cmp a a.length 0 a.length

/-- Later elements are on the same side of the key or further right. -/
def Ascending : Prop :=
  a.Pairwise fun x y => (cmp y < 0 → cmp x < 0) ∧ (0 < cmp x → 0 < cmp y)

variable {cmp a}

theorem search_found {fuel low high : Nat} (h : 0 ≤ search cmp a fuel low high) :
    ∃ x ∈ a, cmp x = 0 := by
  induction fuel generalizing low high with
  | zero =>
      rw [search] at h
      omega
  | succ fuel ih =>
      rw [search] at h
      split_ifs at h with hempty
      · omega
      · cases hx : a[(low + high - 1) / 2]? with
        | none =>
            simp only [hx] at h
            omega
        | some x =>
            simp only [hx] at h
            split_ifs at h with hlt hgt
            · exact ih h
            · exact ih h
            · exact ⟨x, List.mem_of_getElem? hx, by omega⟩

theorem search_complete (hasc : Ascending cmp a) {fuel low high i : Nat} {x : α}
    (hx : a[i]? = some x) (hkey : cmp x = 0) (hlow : low ≤ i) (hhigh : i < high)
    (hbound : high ≤ a.length) (hfuel : high - low ≤ fuel) : 0 ≤ search cmp a fuel low high := by
  induction fuel generalizing low high with
  | zero => omega
  | succ fuel ih =>
      rw [search, if_neg (by omega)]
      have hmid : (low + high - 1) / 2 < a.length := by omega
      obtain ⟨hi, hxi⟩ := List.getElem?_eq_some_iff.mp hx
      have hpair := List.pairwise_iff_getElem.mp hasc
      simp only [List.getElem?_eq_getElem hmid]
      split_ifs with hlt hgt
      · -- the element in the middle is too small, and so is everything before it
        refine ih (Nat.succ_le_of_lt ?_) hhigh hbound (by omega)
        by_contra hle
        rcases Nat.lt_or_eq_of_le (Nat.not_lt.mp hle) with hlt' | heq
        · have := (hpair i _ hi hmid hlt').1 hlt
          rw [hxi] at this
          omega
        · subst heq
          rw [hxi] at hlt
          omega
      · refine ih hlow ?_ (by omega) (by omega)
        by_contra hle
        rcases Nat.lt_or_eq_of_le (Nat.not_lt.mp hle) with hlt' | heq
        · have := (hpair _ i hmid hi hlt').2 hgt
          rw [hxi] at this
          omega
        · subst heq
          rw [hxi] at hgt
          omega
      · omega

theorem binarySearch_nonneg_iff (hasc : Ascending cmp a) :
    0 ≤ binarySearch cmp a ↔ ∃ x ∈ a, cmp x = 0 := by
  refine ⟨search_found, ?_⟩
  rintro ⟨x, hmem, hkey⟩
  obtain ⟨i, hi⟩ := List.mem_iff_getElem?.mp hmem
  have hlt := (List.getElem?_eq_some_iff.mp hi).1
  exact search_complete hasc hi hkey (Nat.zero_le i) hlt (Nat.le_refl _) (by omega)

end TorAndroid.Lib.BinarySearch
