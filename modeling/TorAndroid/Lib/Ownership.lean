import TorAndroid.Lib.Interaction
import Mathlib.Algebra.Order.Sub.Basic
import Mathlib.Algebra.Order.Group.Multiset

/-!
Programs that hold resources. An operation may need some of them, take some away and hand out
others. A program that keeps to the ledger never uses or gives back what it does not hold, and
what it holds in the end is known, whatever else is held beside it. The ledger says which
resources may get lost on the way.
-/

namespace TorAndroid.Lib.Ownership

open TorAndroid.Lib.Interaction

/-- What operations do to the resources, what must be true of their arguments, and what is true
of their results. -/
structure Ledger (Op : Type → Type) (H : Type) where
  demand : {β : Type} → Op β → Prop
  uses : {β : Type} → Op β → Multiset H
  takes : {β : Type} → Op β → Multiset H
  gives : {β : Type} → Op β → β → Multiset H
  promise : {β : Type} → Op β → β → Prop
  lossy : H → Prop

variable {Op : Type → Type} {H α β : Type} [DecidableEq H]

def Ledger.contract (L : Ledger Op H) : Contract Op (Multiset H) where
  pre := fun {_} op x => L.demand op ∧ L.uses op ⊆ x ∧ L.takes op ≤ x
  post := L.promise
  next := fun {_} op b x => x - L.takes op + L.gives op b

/-- Resources that may get lost. -/
def Ledger.Lost (L : Ledger Op H) (lost : Multiset H) : Prop :=
  ∀ h ∈ lost, L.lossy h

/-- With `A` in hand the program keeps to the ledger, and it ends with a result that satisfies
`P` and with what belongs to it. Everything else that is held stays as it is. -/
def Accounts (L : Ledger Op H) (A : Multiset H) (p : Prog Op α) (own : α → Multiset H)
    (P : α → Prop) : Prop :=
  ∀ F, Ensures L.contract (fun a x => ∃ lost, L.Lost lost ∧ x = F + lost + own a ∧ P a) p (F + A)

section Rules

variable {L : Ledger Op H} {A X : Multiset H} {p : Prog Op α} {own : α → Multiset H}
  {P : α → Prop} {own' : β → Multiset H} {P' : β → Prop}

omit [DecidableEq H] in
theorem lost_zero : L.Lost 0 := by
  intro h hmem
  cases Multiset.notMem_zero h hmem

omit [DecidableEq H] in
theorem Ledger.Lost.add {lost lost' : Multiset H} (h : L.Lost lost) (h' : L.Lost lost') :
    L.Lost (lost + lost') := by
  intro x hmem
  rcases Multiset.mem_add.mp hmem with hmem | hmem
  · exact h x hmem
  · exact h' x hmem

/-- A part of what is held gets lost. -/
theorem accounts_lose {a : α} {lost : Multiset H} (hlost : L.Lost lost) (hown : A = lost + own a)
    (hP : P a) : Accounts L A (pure a) own P := by
  intro F
  exact ⟨lost, hlost, by rw [hown, add_assoc], hP⟩

theorem accounts_pure {a : α} (hown : A = own a) (hP : P a) : Accounts L A (pure a) own P :=
  accounts_lose lost_zero (by rw [hown, zero_add]) hP

theorem Accounts.weaken {own₂ : α → Multiset H} {P₂ : α → Prop} (hp : Accounts L A p own P)
    (h : ∀ a, P a → own a = own₂ a ∧ P₂ a) : Accounts L A p own₂ P₂ := by
  intro F
  refine (hp F).weaken ?_
  rintro a _ ⟨lost, hlost, rfl, hP⟩
  exact ⟨lost, hlost, by rw [(h a hP).1], (h a hP).2⟩

theorem Accounts.frame (hp : Accounts L A p own P) (F : Multiset H) :
    Accounts L (A + F) p (fun a => own a + F) P := by
  intro G
  have hG := hp (G + F)
  rw [add_right_comm] at hG
  rw [← add_assoc]
  refine hG.weaken ?_
  rintro a _ ⟨lost, hlost, rfl, hP⟩
  refine ⟨lost, hlost, ?_, hP⟩
  rw [add_right_comm G, add_right_comm (G + lost), add_assoc]

theorem Accounts.bind {f : α → Prog Op β} (hp : Accounts L A p own P)
    (hf : ∀ a, P a → Accounts L (own a) (f a) own' P') : Accounts L A (p >>= f) own' P' := by
  intro F
  refine (hp F).bind ?_
  rintro a _ ⟨lost, hlost, rfl, hP⟩
  refine (hf a hP (F + lost)).weaken ?_
  rintro b _ ⟨lost', hlost', rfl, hP'⟩
  exact ⟨lost + lost', hlost.add hlost', by rw [add_assoc F], hP'⟩

/-- A part of what is held is handed to a program. -/
theorem Accounts.bind_part {f : α → Prog Op β} {F : Multiset H} (hp : Accounts L A p own P)
    (hX : X = A + F) (hf : ∀ a, P a → Accounts L (own a + F) (f a) own' P') :
    Accounts L X (p >>= f) own' P' := by
  rw [hX]
  exact (hp.frame F).bind hf

theorem accounts_ask {op : Op α} {F : Multiset H} (hdemand : L.demand op) (huses : L.uses op ⊆ X)
    (hX : X = L.takes op + F) (hP : ∀ a, L.promise op a → own a = L.gives op a + F ∧ P a) :
    Accounts L X (Prog.ask op) own P := by
  intro G
  refine ⟨⟨hdemand, fun h hmem => Multiset.mem_add.mpr (.inr (huses hmem)), ?_⟩, fun a ha => ?_⟩
  · rw [hX, add_left_comm]
    exact Multiset.le_add_right _ _
  · obtain ⟨hown, hPa⟩ := hP a ha
    refine ⟨0, lost_zero, ?_, hPa⟩
    change G + X - L.takes op + L.gives op a = G + 0 + own a
    rw [hX, hown, add_left_comm, add_tsub_cancel_left, add_assoc, add_comm F, add_zero]

theorem accounts_ask_bind {op : Op α} {f : α → Prog Op β} {F : Multiset H} (hdemand : L.demand op)
    (huses : L.uses op ⊆ X) (hX : X = L.takes op + F)
    (hf : ∀ a, L.promise op a → Accounts L (L.gives op a + F) (f a) own' P') :
    Accounts L X (Prog.ask op >>= f) own' P' := by
  have hask : Accounts L X (Prog.ask op) (fun a => L.gives op a + F) (L.promise op) :=
    accounts_ask hdemand huses hX fun _ ha => ⟨rfl, ha⟩
  exact hask.bind hf

/-- An operation that leaves everything where it is. -/
theorem accounts_touch {op : Op α} {f : α → Prog Op β} (hdemand : L.demand op)
    (huses : L.uses op ⊆ X)
    (htakes : L.takes op = 0) (hgives : ∀ a, L.gives op a = 0)
    (hf : ∀ a, L.promise op a → Accounts L X (f a) own' P') :
    Accounts L X (Prog.ask op >>= f) own' P' := by
  refine accounts_ask_bind (F := X) hdemand huses (by rw [htakes, zero_add]) fun a ha => ?_
  rw [hgives, zero_add]
  exact hf a ha

/-- The rule for a loop over a list. -/
theorem accounts_foldlM {δ : Type} {L : Ledger Op H} {own : α → Multiset H} {I : List δ → α → Prop}
    {f : α → δ → Prog Op α}
    (hstep : ∀ y ys a, I (y :: ys) a → Accounts L (own a) (f a y) own (I ys)) {ys : List δ} {a : α}
    (hstart : I ys a) : Accounts L (own a) (ys.foldlM f a) own (I []) := by
  induction ys generalizing a with
  | nil => exact accounts_pure rfl hstart
  | cons y ys ih =>
      rw [List.foldlM_cons]
      exact (hstep y ys a hstart).bind fun _ h => ih h

end Rules

end TorAndroid.Lib.Ownership
