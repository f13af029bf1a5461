import Mathlib.Data.List.Basic

namespace TorAndroid.Lib.TornInput

variable {σ ε β α γ : Type}

/-- A computation that takes elements from an input, with a state beside it. -/
abbrev Reader (σ ε β α : Type) := StateT (σ × List β) (Except ε) α

/-- The next elements, if there are so many. -/
def next (e : ε) (n : Nat) : Reader σ ε β (List β) := fun x =>
  if n ≤ x.2.length then .ok (x.2.take n, x.1, x.2.drop n) else .error e

/-- A reader as often as asked for. -/
def many (p : Reader σ ε β α) : Nat → Reader σ ε β (List α)
  | 0 => pure []
  | n + 1 => do
      let a ← p
      let as ← many p n
      pure (a :: as)

theorem bind_apply (p : Reader σ ε β α) (f : α → Reader σ ε β γ) (x : σ × List β) :
    (p >>= f) x = (p x).bind fun y => f y.1 y.2 := rfl

/-- The reader takes exactly the code of `a`, whatever is behind it, and ends with an error in
`S` when a part of the code is all there is. -/
structure Takes (S : ε → Prop) (p : Reader σ ε β α) (code : List β) (a : α) : Prop where
  whole : ∀ x rest, ∃ y, p (x, code ++ rest) = .ok (a, y, rest)
  torn : ∀ x k, k < code.length → ∃ e, S e ∧ p (x, code.take k) = .error e

variable {S : ε → Prop} {p : Reader σ ε β α} {f : α → Reader σ ε β γ} {front back code : List β}
  {a : α} {c : γ}

theorem Takes.silent (h : ∀ x rest, ∃ y, p (x, rest) = .ok (a, y, rest)) : Takes S p [] a where
  whole := h
  torn _ _ hk := absurd hk (Nat.not_lt_zero _)

theorem Takes.pure (a : α) : Takes S (pure a : Reader σ ε β α) [] a :=
  .silent fun x _ => ⟨x, rfl⟩

theorem Takes.next {e : ε} (he : S e) (code : List β) :
    Takes S (next e code.length : Reader σ ε β (List β)) code code where
  whole x rest := ⟨x, by
    rw [TornInput.next, if_pos (by rw [List.length_append]; exact Nat.le_add_right _ _),
      List.take_left, List.drop_left]⟩
  torn x k hk := ⟨e, he, if_neg (by
    rw [List.length_take, Nat.min_eq_left (Nat.le_of_lt hk)]
    exact Nat.not_le_of_lt hk)⟩

theorem Takes.bind (hp : Takes S p front a) (hf : Takes S (f a) back c) :
    Takes S (p >>= f) (front ++ back) c where
  whole x rest := by
    obtain ⟨y, hy⟩ := hp.whole x (back ++ rest)
    obtain ⟨z, hz⟩ := hf.whole y rest
    refine ⟨z, ?_⟩
    rw [bind_apply, List.append_assoc, hy]
    exact hz
  torn x k hk := by
    rw [List.length_append] at hk
    rw [List.take_append]
    obtain hshort | hlong := Nat.lt_or_ge k front.length
    · -- the first code is cut
      obtain ⟨e, he, hrun⟩ := hp.torn x k hshort
      refine ⟨e, he, ?_⟩
      rw [Nat.sub_eq_zero_of_le (Nat.le_of_lt hshort), List.take_zero, List.append_nil,
        bind_apply, hrun]
      rfl
    · obtain ⟨y, hy⟩ := hp.whole x (back.take (k - front.length))
      obtain ⟨e, he, hrun⟩ := hf.torn y (k - front.length) (by omega)
      refine ⟨e, he, ?_⟩
      rw [List.take_of_length_le hlong, bind_apply, hy]
      exact hrun

/-- A step that takes nothing comes before the code. -/
theorem Takes.after (hp : Takes S p [] a) (hf : Takes S (f a) code c) :
    Takes S (p >>= f) code c :=
  hp.bind hf

/-- A step that takes nothing comes behind the code. -/
theorem Takes.before (hp : Takes S p code a) (hf : Takes S (f a) [] c) :
    Takes S (p >>= f) code c :=
  List.append_nil code ▸ hp.bind hf

theorem Takes.many {δ : Type*} {codeOf : δ → List β} {value : δ → α} {as : List δ}
    (h : ∀ a ∈ as, Takes S p (codeOf a) (value a)) :
    Takes S (many p as.length) (as.flatMap codeOf) (as.map value) := by
  induction as with
  | nil => exact .pure []
  | cons a as ih =>
      rw [List.forall_mem_cons] at h
      rw [List.flatMap_cons]
      refine h.1.bind ?_
      exact (ih h.2).before (.pure (value a :: as.map value))

end TorAndroid.Lib.TornInput
