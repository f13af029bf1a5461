import Mathlib.Data.List.Basic

namespace TorAndroid.Lib.ThreadPool

variable {P : Type*}

theorem getElem?_set_inv {pool : List P} {i k : Nat} {moved p : P}
    (h : (pool.set i moved)[k]? = some p) :
    (k = i ∧ p = moved) ∨ (k ≠ i ∧ pool[k]? = some p) := by
  rw [List.getElem?_set] at h
  by_cases hik : i = k
  · subst hik
    rw [if_pos rfl] at h
    split at h
    · exact .inl ⟨rfl, (Option.some.inj h).symm⟩
    · cases h
  · rw [if_neg hik] at h
    exact .inr ⟨fun heq => hik heq.symm, h⟩

theorem getElem?_concat_inv {pool : List P} {k : Nat} {created p : P}
    (h : (pool ++ [created])[k]? = some p) :
    pool[k]? = some p ∨ (k = pool.length ∧ p = created) := by
  rw [List.getElem?_append] at h
  split at h
  · exact .inl h
  · rename_i hlen
    have hzero : k - pool.length = 0 := by
      by_contra hpos
      rw [List.getElem?_eq_none] at h
      · cases h
      · simp only [List.length_cons, List.length_nil]
        omega
    refine .inr ⟨by omega, ?_⟩
    rw [hzero] at h
    exact (Option.some.inj h).symm

theorem getElem?_map_inv {pool : List P} {f : P → P} {k : Nat} {p : P}
    (h : (pool.map f)[k]? = some p) : ∃ q, pool[k]? = some q ∧ f q = p := by
  simpa [List.getElem?_map, Option.map_eq_some_iff] using h

theorem getElem?_set_other {pool : List P} {i k : Nat} {moved p : P}
    (hne : k ≠ i) (h : pool[k]? = some p) : (pool.set i moved)[k]? = some p := by
  rw [List.getElem?_set_ne fun heq => hne heq.symm]
  exact h

theorem getElem?_set_moved {pool : List P} {i : Nat} {moved p : P}
    (h : pool[i]? = some p) : (pool.set i moved)[i]? = some moved := by
  obtain ⟨hlt, -⟩ := List.getElem?_eq_some_iff.mp h
  rw [List.getElem?_set_self hlt]

theorem getElem?_concat_old {pool : List P} {k : Nat} {created p : P}
    (h : pool[k]? = some p) : (pool ++ [created])[k]? = some p := by
  obtain ⟨hlt, -⟩ := List.getElem?_eq_some_iff.mp h
  rw [List.getElem?_append_left hlt]
  exact h

theorem any_of_getElem? {pool : List P} {f : P → Bool} {i : Nat} {p : P}
    (h : pool[i]? = some p) (hp : f p = true) : pool.any f = true :=
  List.any_eq_true.mpr ⟨p, List.mem_of_getElem? h, hp⟩

theorem any_set_inv {pool : List P} {f : P → Bool} {i : Nat} {moved : P}
    (h : (pool.set i moved).any f = true) : f moved = true ∨ pool.any f = true := by
  obtain ⟨p, hp, hf⟩ := List.any_eq_true.mp h
  rcases List.mem_or_eq_of_mem_set hp with hp | rfl
  · exact .inr (List.any_eq_true.mpr ⟨p, hp, hf⟩)
  · exact .inl hf

theorem any_concat_of_false {pool : List P} {f : P → Bool} {created : P}
    (hf : f created = false) : (pool ++ [created]).any f = pool.any f := by
  simp [hf]

theorem countP_pos_of_getElem? {pool : List P} {f : P → Bool} {i : Nat} {p : P}
    (h : pool[i]? = some p) (hp : f p = true) : 0 < pool.countP f :=
  List.countP_pos_iff.mpr ⟨p, List.mem_of_getElem? h, hp⟩

/-- One thread moves: it is counted where it goes and no longer where it was. -/
theorem countP_set_add {pool : List P} {i : Nat} {moved p : P} (f : P → Bool)
    (h : pool[i]? = some p) :
    (pool.set i moved).countP f + (f p).toNat = pool.countP f + (f moved).toNat := by
  obtain ⟨hlt, hp⟩ := List.getElem?_eq_some_iff.mp h
  rw [List.countP_set hlt, hp]
  cases hf : f p with
  | false => cases f moved <;> simp
  | true =>
      have hpos := countP_pos_of_getElem? h hf
      cases f moved <;> simp <;> omega

theorem countP_split {f g h : P → Bool}
    (hsplit : ∀ p, (f p).toNat = (g p).toNat + (h p).toNat) (pool : List P) :
    pool.countP f = pool.countP g + pool.countP h := by
  induction pool with
  | nil => rfl
  | cons p rest ih =>
      have hp := hsplit p
      simp only [List.countP_cons, ih]
      cases hf : f p <;> cases hg : g p <;> cases hh : h p <;>
        simp [hf, hg, hh] at hp ⊢ <;> omega

end TorAndroid.Lib.ThreadPool
