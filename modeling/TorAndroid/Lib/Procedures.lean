import TorAndroid.Lib.Ownership

namespace TorAndroid.Lib.Interaction

variable {Op Op' : Type → Type} {A ρ α β γ γ' : Type}

/-- Every operation is replaced by a program. -/
def Prog.inline (f : ∀ {β : Type}, Op β → Prog Op' β) : Prog Op α → Prog Op' α
  | .done a => .done a
  | .call op k => f op >>= fun b => (k b).inline f

/-- When the programs keep to the contract of the operations that they stand for, what a program
ensures holds of the program that they are put into. -/
theorem Ensures.inline {c : Contract Op γ} {c' : Contract Op' γ'} {R : γ → γ' → Prop}
    {f : ∀ {β : Type}, Op β → Prog Op' β} {Q : α → γ → Prop} {p : Prog Op α} {x : γ} {y : γ'}
    (hop : ∀ {β : Type} (op : Op β) (x : γ) (y : γ'), R x y → c.pre op x →
      Ensures c' (fun b y' => c.post op b ∧ R (c.next op b x) y') (f op) y)
    (hp : Ensures c Q p x) (hR : R x y) :
    Ensures c' (fun a y' => ∃ x', R x' y' ∧ Q a x') (p.inline f) y := by
  induction p generalizing x y with
  | done a => exact ⟨x, hR, hp⟩
  | call op k ih =>
      refine (hop op x y hR hp.1).bind ?_
      rintro b y' ⟨hpost, hR'⟩
      exact ih b (hp.2 b hpost) hR'

/-- The operations of two kinds. -/
abbrev Joined (Op Op' : Type → Type) (β : Type) : Type :=
  Op β ⊕ Op' β

/-- The call of a procedure with an argument in `A` and a result in `ρ`. -/
inductive CallOp (A ρ : Type) : Type → Type where
  | call (a : A) : CallOp A ρ ρ

/-- The operations, and calls of a procedure. -/
abbrev Calling (Op : Type → Type) (A ρ : Type) : Type → Type :=
  Joined Op (CallOp A ρ)

/-- What becomes of the operations when the procedure is known. -/
def callWith (f : A → Prog Op ρ) : ∀ {β : Type}, Calling Op A ρ β → Prog Op β
  | _, .inl op => .ask op
  | _, .inr (.call a) => f a

/-- A procedure, with its calls unfolded so many times. Deeper calls have the result `stuck`. -/
def unroll (body : A → Prog (Calling Op A ρ) ρ) (stuck : ρ) : Nat → A → Prog Op ρ
  | 0, _ => pure stuck
  | n + 1, a => (body a).inline (callWith (unroll body stuck n))

/-- The same program beside other operations. -/
def Prog.beside (p : Prog Op α) : Prog (Joined Op Op') α :=
  p.inline fun {_} op => .ask (.inl op)

/-- A loop over a list that may be left. -/
def untilStop {ι σ τ : Type} (f : ι → σ → Prog Op (σ × Option τ)) :
    List ι → σ → Prog Op (σ × Option τ)
  | [], s => pure (s, none)
  | i :: is, s => do
      let (s, stop) ← f i s
      match stop with
      | some t => pure (s, some t)
      | none => untilStop f is s

/-- What is true of the result of a program whatever its operations bring. -/
def Prog.Yields (R : α → Prop) : Prog Op α → Prop
  | .done a => R a
  | .call _ k => ∀ b, (k b).Yields R

theorem yields_pure {R : α → Prop} {a : α} (h : R a) : (pure a : Prog Op α).Yields R :=
  h

theorem yields_trivial (p : Prog Op α) : p.Yields fun _ => True := by
  induction p with
  | done a => trivial
  | call op k ih => exact ih

theorem Prog.Yields.bind {R : α → Prop} {R' : β → Prop} {p : Prog Op α} {f : α → Prog Op β}
    (hp : p.Yields R) (hf : ∀ a, R a → (f a).Yields R') : (p >>= f).Yields R' := by
  induction p with
  | done a => exact hf a hp
  | call op k ih => exact fun b => ih b (hp b)

theorem Prog.Yields.foldlM {δ : Type} {R : α → Prop} {f : α → δ → Prog Op α}
    (hf : ∀ y a, R a → (f a y).Yields R) {ys : List δ} {a : α} (ha : R a) :
    (ys.foldlM f a).Yields R := by
  induction ys generalizing a with
  | nil => exact ha
  | cons y ys ih =>
      rw [List.foldlM_cons]
      exact (hf y a ha).bind fun _ h => ih h

/-- A program that asks for nothing that the ghost state is about. -/
theorem Prog.Yields.beside {c : Contract (Joined Op Op') γ} {R : α → Prop} {p : Prog Op α} {x : γ}
    (hpre : ∀ {β : Type} (op : Op β), c.pre (.inl op) x)
    (hnext : ∀ {β : Type} (op : Op β) (b : β), c.next (.inl op) b x = x) (hp : p.Yields R) :
    Ensures c (fun a y => y = x ∧ R a) (p.beside : Prog (Joined Op Op') α) x := by
  induction p with
  | done a => exact ⟨rfl, hp⟩
  | call op k ih =>
      refine ⟨hpre op, fun b _ => ?_⟩
      rw [hnext op b]
      exact ih b (hp b)

/-- The rule for a loop that may be left. -/
theorem ensures_untilStop {ι σ τ : Type} {c : Contract Op γ} {f : ι → σ → Prog Op (σ × Option τ)}
    {I : σ → γ → Prop} {T : τ → γ → Prop}
    (hstep : ∀ i s x, I s x → Ensures c (fun r y => r.2.elim (I r.1 y) fun t => T t y) (f i s) x)
    {is : List ι} {s : σ} {x : γ} (hstart : I s x) :
    Ensures c (fun r y => r.2.elim (I r.1 y) fun t => T t y) (untilStop f is s) x := by
  induction is generalizing s x with
  | nil => exact hstart
  | cons i is ih =>
      refine (hstep i s x hstart).bind ?_
      rintro ⟨s', stop⟩ y hs'
      cases stop with
      | none => exact ih hs'
      | some t => exact hs'

end TorAndroid.Lib.Interaction

namespace TorAndroid.Lib.Ownership

open TorAndroid.Lib.Interaction

variable {Op Op' : Type → Type} {A ρ α β H : Type} [DecidableEq H]

/-- The program does what the ledger says of the operation. -/
def Implements (L : Ledger Op H) (L' : Ledger Op' H) (op : Op β) (p : Prog Op' β) : Prop :=
  ∀ x, L.demand op → L.uses op ⊆ x → L.takes op ≤ x →
    Ensures L'.contract (fun b y => ∃ lost, L'.Lost lost ∧
      y = x - L.takes op + L.gives op b + lost ∧ L.promise op b) p x

section Rules

variable {L : Ledger Op H} {L' : Ledger Op' H} {op : Op β} {p : Prog Op' β}

theorem implements_of_accounts
    (h : L.demand op → Accounts L' (L.takes op) p (L.gives op) (L.promise op)) :
    Implements L L' op p := by
  intro x hdemand _ htakes
  have hx := h hdemand (x - L.takes op)
  rw [tsub_add_cancel_of_le htakes] at hx
  refine hx.weaken ?_
  rintro b _ ⟨lost, hlost, rfl, hb⟩
  exact ⟨lost, hlost, add_right_comm _ _ _, hb⟩

/-- An operation stands for itself when both ledgers say the same of it. -/
theorem implements_ask {op' : Op' β} (hdemand : L.demand op → L'.demand op')
    (huses : L'.uses op' = L.uses op) (htakes : L'.takes op' = L.takes op)
    (hgives : ∀ b, L'.gives op' b = L.gives op b)
    (hpromise : ∀ b, L'.promise op' b → L.promise op b) : Implements L L' op (Prog.ask op') := by
  intro x hd hu ht
  refine ⟨⟨hdemand hd, by rwa [huses], by rwa [htakes]⟩,
    fun b hb => ⟨0, lost_zero, ?_, hpromise b hb⟩⟩
  change x - L'.takes op' + L'.gives op' b = _
  rw [htakes, hgives, add_zero]

/-- Programs may be put in the place of operations. -/
theorem Accounts.inline {X : Multiset H} {f : ∀ {β : Type}, Op β → Prog Op' β} {q : Prog Op α}
    {own : α → Multiset H} {P : α → Prop} (hlossy : ∀ h, L.lossy h → L'.lossy h)
    (hop : ∀ {β : Type} (op : Op β), Implements L L' op (f op)) (hq : Accounts L X q own P) :
    Accounts L' X (q.inline f) own P := by
  intro F
  refine ((hq F).inline (f := f) (R := fun x y => ∃ lost, L'.Lost lost ∧ y = x + lost) ?_
    ⟨0, lost_zero, (add_zero _).symm⟩).weaken ?_
  rotate_left
  · rintro b _ ⟨_, ⟨lost, hlost, rfl⟩, lost', hlost', rfl, hb⟩
    refine ⟨lost' + lost, Ledger.Lost.add (fun h hmem => hlossy h (hlost' h hmem)) hlost, ?_, hb⟩
    rw [add_right_comm, add_assoc F]
  · rintro β op x _ ⟨lost, hlost, rfl⟩ ⟨hdemand, huses, htakes⟩
    refine (hop op (x + lost) hdemand (fun h hmem => Multiset.mem_add.mpr (.inl (huses hmem)))
      (htakes.trans (Multiset.le_add_right _ _))).weaken ?_
    rintro b _ ⟨lost', hlost', rfl, hb⟩
    refine ⟨hb, lost + lost', Ledger.Lost.add hlost hlost', ?_⟩
    change x + lost - L.takes op + L.gives op b + lost' =
      x - L.takes op + L.gives op b + (lost + lost')
    rw [← tsub_add_eq_add_tsub htakes, add_right_comm (x - L.takes op), add_assoc _ lost]

end Rules

/-- The ledger of operations with calls, where a call needs nothing and brings what belongs to
its result. -/
def Ledger.calling (L : Ledger Op H) (Pre : A → Prop) (own : ρ → Multiset H)
    (Post : A → ρ → Prop) : Ledger (Calling Op A ρ) H where
  demand := fun {_} op =>
    match op with
    | .inl op => L.demand op
    | .inr (.call a) => Pre a
  uses := fun {_} op =>
    match op with
    | .inl op => L.uses op
    | .inr (.call _) => 0
  takes := fun {_} op =>
    match op with
    | .inl op => L.takes op
    | .inr (.call _) => 0
  gives := fun {_} op b =>
    match op with
    | .inl op => L.gives op b
    | .inr (.call _) => own b
  promise := fun {_} op b =>
    match op with
    | .inl op => L.promise op b
    | .inr (.call a) => Post a b
  lossy := L.lossy

/-- A program that does not call. -/
theorem Accounts.beside {L : Ledger Op H} {L' : Ledger (Joined Op Op') H} {X : Multiset H}
    {q : Prog Op α} {own : α → Multiset H} {P : α → Prop} (hlossy : ∀ h, L.lossy h → L'.lossy h)
    (hop : ∀ {β : Type} (op : Op β), Implements L L' op (Prog.ask (.inl op)))
    (hq : Accounts L X q own P) :
    Accounts L' X (q.beside : Prog (Joined Op Op') α) own P :=
  hq.inline hlossy hop

/-- The rule for a loop that may be left: an invariant that may depend on what is left of the
list, and what is true where the loop is left. -/
theorem accounts_untilStop {ι σ τ : Type} {L : Ledger Op H} {f : ι → σ → Prog Op (σ × Option τ)}
    {own : σ × Option τ → Multiset H} {I : List ι → σ → Prop} {T : σ → τ → Prop}
    (hstep : ∀ i is s, I (i :: is) s → Accounts L (own (s, none)) (f i s) own fun r =>
      r.2.elim (I is r.1) (T r.1))
    {is : List ι} {s : σ} (hstart : I is s) :
    Accounts L (own (s, none)) (untilStop f is s) own fun r => r.2.elim (I [] r.1) (T r.1) := by
  induction is generalizing s with
  | nil => exact accounts_pure rfl hstart
  | cons i is ih =>
      refine (hstep i is s hstart).bind ?_
      rintro ⟨s', stop⟩ hs'
      cases stop with
      | none => exact ih hs'
      | some t => exact accounts_pure rfl hs'

/-- The rule for a loop over the numbers from one on. -/
theorem accounts_untilStop_range' {σ τ : Type} {L : Ledger Op H}
    {f : Nat → σ → Prog Op (σ × Option τ)}
    {own : σ × Option τ → Multiset H} {I : Nat → σ → Prop} {T : σ → τ → Prop} {a n step : Nat}
    (hstep : ∀ k s, k < n → I k s → Accounts L (own (s, none)) (f (a + step * k) s) own fun r =>
      r.2.elim (I (k + 1) r.1) (T r.1))
    {s : σ} (hstart : I 0 s) :
    Accounts L (own (s, none)) (untilStop f (List.range' a n step) s) own fun r =>
      r.2.elim (I n r.1) (T r.1) := by
  refine (accounts_untilStop (T := T)
    (I := fun is s => ∃ k ≤ n, is = List.range' (a + step * k) (n - k) step ∧ I k s) ?_
    ⟨0, Nat.zero_le _, rfl, hstart⟩).weaken ?_
  rotate_left
  · rintro ⟨s', stop⟩ hs'
    refine ⟨rfl, ?_⟩
    cases stop with
    | some t => exact hs'
    | none =>
        obtain ⟨k, hk, hnil, hI⟩ := hs'
        have hn : n - k = 0 := by
          have hlen := congrArg List.length hnil
          rw [List.length_range'] at hlen
          exact hlen.symm
        rwa [show k = n by omega] at hI
  · rintro i is s ⟨k, hk, hlist, hI⟩
    obtain ⟨m, hm⟩ : ∃ m, n - k = m + 1 := by
      cases hnk : n - k with
      | zero =>
          rw [hnk] at hlist
          cases hlist
      | succ m => exact ⟨m, rfl⟩
    rw [hm, List.range'_succ] at hlist
    obtain ⟨rfl, rfl⟩ := List.cons.inj hlist
    refine (hstep k s (by omega) hI).weaken ?_
    rintro ⟨s', stop⟩ hs'
    refine ⟨rfl, ?_⟩
    cases stop with
    | some t => exact hs'
    | none =>
      exact ⟨k + 1, by omega, by rw [show n - (k + 1) = m by omega, Nat.mul_succ, ← add_assoc], hs'⟩

theorem accounts_untilStop_range {σ τ : Type} {L : Ledger Op H}
    {f : Nat → σ → Prog Op (σ × Option τ)}
    {own : σ × Option τ → Multiset H} {I : Nat → σ → Prop} {T : σ → τ → Prop} {a b : Nat}
    (hab : a ≤ b)
    (hstep : ∀ i s, a ≤ i → i < b → I i s → Accounts L (own (s, none)) (f i s) own fun r =>
      r.2.elim (I (i + 1) r.1) (T r.1))
    {s : σ} (hstart : I a s) :
    Accounts L (own (s, none)) (untilStop f (List.range' a (b - a)) s) own fun r =>
      r.2.elim (I b r.1) (T r.1) := by
  have hloop : Accounts L (own (s, none)) (untilStop f (List.range' a (b - a)) s) own fun r =>
      r.2.elim (I (a + (b - a)) r.1) (T r.1) := by
    refine accounts_untilStop_range' (I := fun k s => I (a + k) s) (fun k s hk hI => ?_) hstart
    rw [one_mul]
    exact hstep (a + k) s (by omega) (by omega) hI
  rwa [show a + (b - a) = b by omega] at hloop

/-- The rule for a recursive procedure: its body may rely on what is claimed for calls with a
smaller measure. -/
theorem accounts_unroll {L : Ledger Op H} {Pre : A → Prop} {own : ρ → Multiset H}
    {Post : A → ρ → Prop} {m : A → Nat} {body : A → Prog (Calling Op A ρ) ρ} {stuck : ρ}
    (hbody : ∀ a, Pre a → Accounts (L.calling (fun a' => Pre a' ∧ m a' < m a) own Post) 0
      (body a) own (Post a))
    {n : Nat} {a : A} (hn : m a < n) (ha : Pre a) :
    Accounts L 0 (unroll body stuck n a) own (Post a) := by
  induction n generalizing a with
  | zero => exact absurd hn (Nat.not_lt_zero _)
  | succ n ih =>
      refine (hbody a ha).inline (fun _ h => h) fun op => ?_
      cases op with
      | inl op => exact implements_ask (fun h => h) rfl rfl (fun _ => rfl) fun _ h => h
      | inr c =>
          cases c with
          | call a' => exact implements_of_accounts fun h => ih (lt_of_lt_of_le h.2 (by omega)) h.1

end TorAndroid.Lib.Ownership
