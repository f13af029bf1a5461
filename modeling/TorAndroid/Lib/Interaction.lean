import Mathlib.Logic.Basic

/-!
Programs as trees of the operations they ask for. What the operations do is left to a
handler, so that one program can be run on a machine and on a model of it, and what holds of
the program is said without either.
-/

namespace TorAndroid.Lib.Interaction

/-- A program that is done, or that asks for an operation and goes on with its result. -/
inductive Prog (Op : Type → Type) (α : Type) : Type 1 where
  | done (a : α)
  | call {β : Type} (op : Op β) (k : β → Prog Op α)

variable {Op : Type → Type} {α β γ σ τ : Type}

namespace Prog

def andThen (p : Prog Op α) (f : α → Prog Op β) : Prog Op β :=
  match p with
  | .done a => f a
  | .call op k => .call op fun b => (k b).andThen f

instance : Monad (Prog Op) where
  pure := .done
  bind := andThen

def ask (op : Op α) : Prog Op α :=
  .call op .done

/-- The program on a machine, which may get stuck. -/
def run (h : ∀ {β : Type}, Op β → σ → Option (β × σ)) : Prog Op α → σ → Option (α × σ)
  | .done a, s => some (a, s)
  | .call op k, s => (h op s).bind fun x => (k x.1).run h x.2

/-- The program on a model, which does not. -/
def eval (g : ∀ {β : Type}, Op β → τ → β × τ) : Prog Op α → τ → α × τ
  | .done a, t => (a, t)
  | .call op k, t => (k (g op t).1).eval g (g op t).2

@[simp]
theorem done_bind (a : α) (f : α → Prog Op β) : (Prog.done a >>= f) = f a := rfl

@[simp]
theorem pure_bind (a : α) (f : α → Prog Op β) : ((pure a : Prog Op α) >>= f) = f a := rfl

@[simp]
theorem call_bind {δ : Type} (op : Op δ) (k : δ → Prog Op α) (f : α → Prog Op β) :
    (Prog.call op k >>= f) = .call op fun b => k b >>= f := rfl

@[simp]
theorem ask_bind (op : Op α) (f : α → Prog Op β) : (ask op >>= f) = .call op f := rfl

theorem bind_assoc (p : Prog Op α) (f : α → Prog Op β) (q : β → Prog Op γ) :
    ((p >>= f) >>= q) = p >>= fun a => f a >>= q := by
  induction p with
  | done a => rfl
  | call op k ih =>
      simp only [call_bind]
      congr 1
      funext b
      exact ih b

section Runs

variable {h : ∀ {β : Type}, Op β → σ → Option (β × σ)} {g : ∀ {β : Type}, Op β → τ → β × τ}

theorem run_bind (p : Prog Op α) (f : α → Prog Op β) (s : σ) :
    (p >>= f).run h s = (p.run h s).bind fun x => (f x.1).run h x.2 := by
  induction p generalizing s with
  | done a => rfl
  | call op k ih =>
      rw [call_bind, run, run, Option.bind_assoc]
      congr 1
      funext x
      exact ih x.1 x.2

theorem eval_bind (p : Prog Op α) (f : α → Prog Op β) (t : τ) :
    (p >>= f).eval g t = (f (p.eval g t).1).eval g (p.eval g t).2 := by
  induction p generalizing t with
  | done a => rfl
  | call op k ih => exact ih (g op t).1 (g op t).2

end Runs

end Prog

/-- What a program may ask for, and what it may rely on then. Both can depend on a ghost
state that follows the operations. -/
structure Contract (Op : Type → Type) (γ : Type) where
  pre : {β : Type} → Op β → γ → Prop
  post : {β : Type} → Op β → β → Prop
  next : {β : Type} → Op β → β → γ → γ

/-- The program keeps to the contract, and ends with `Q`. -/
def Ensures (c : Contract Op γ) (Q : α → γ → Prop) : Prog Op α → γ → Prop
  | .done a, x => Q a x
  | .call op k, x => c.pre op x ∧ ∀ b, c.post op b → Ensures c Q (k b) (c.next op b x)

section Rules

variable {c : Contract Op γ} {Q : α → γ → Prop} {Q' : β → γ → Prop} {p : Prog Op α} {x : γ}

theorem ensures_pure {a : α} (h : Q a x) : Ensures c Q (pure a) x := h

theorem ensures_ask_bind {op : Op α} {f : α → Prog Op β} (hpre : c.pre op x)
    (hpost : ∀ a, c.post op a → Ensures c Q' (f a) (c.next op a x)) :
    Ensures c Q' (Prog.ask op >>= f) x :=
  ⟨hpre, hpost⟩

theorem Ensures.bind {f : α → Prog Op β} (hp : Ensures c Q p x)
    (hf : ∀ a y, Q a y → Ensures c Q' (f a) y) : Ensures c Q' (p >>= f) x := by
  induction p generalizing x with
  | done a => exact hf a x hp
  | call op k ih => exact ⟨hp.1, fun b hb => ih b (hp.2 b hb)⟩

theorem Ensures.weaken {R : α → γ → Prop} (hp : Ensures c Q p x) (h : ∀ a y, Q a y → R a y) :
    Ensures c R p x := by
  induction p generalizing x with
  | done a => exact h a x hp
  | call op k ih => exact ⟨hp.1, fun b hb => ih b (hp.2 b hb)⟩

/-- A program that keeps to a contract keeps to one that asks for less and promises more, whatever
that follows. -/
theorem Ensures.forget {δ : Type} {d : Contract Op δ}
    (hpre : ∀ {β : Type} (op : Op β) (x : γ) (y : δ), c.pre op x → d.pre op y)
    (hpost : ∀ {β : Type} (op : Op β) (b : β), d.post op b → c.post op b) (hp : Ensures c Q p x)
    (y : δ) : Ensures d (fun a _ => ∃ x, Q a x) p y := by
  induction p generalizing x y with
  | done a => exact ⟨x, hp⟩
  | call op k ih => exact ⟨hpre op x y hp.1, fun b hb => ih b (hp.2 b (hpost op b hb)) _⟩

/-- The loop over a list. -/
theorem ensures_foldlM {δ : Type} {I : List δ → α → γ → Prop} {f : α → δ → Prog Op α}
    (hstep : ∀ y ys a x, I (y :: ys) a x → Ensures c (I ys) (f a y) x) {ys : List δ} {a : α}
    (hstart : I ys a x) : Ensures c (I []) (ys.foldlM f a) x := by
  induction ys generalizing a x with
  | nil => exact hstart
  | cons y ys ih =>
      rw [List.foldlM_cons]
      exact (hstep y ys a x hstart).bind fun _ _ h => ih h

variable {h : ∀ {β : Type}, Op β → σ → Option (β × σ)} {I : σ → γ → Prop}

/-- On a machine that keeps to its side of the contract, what the program ensures holds in
the end. -/
theorem Ensures.run (hop : ∀ {β : Type} (op : Op β) (s : σ) (x : γ) (b : β) (s' : σ), I s x →
      c.pre op x → h op s = some (b, s') → c.post op b ∧ I s' (c.next op b x))
    (hp : Ensures c Q p x) {s s' : σ} {a : α} (hI : I s x) (hrun : p.run h s = some (a, s')) :
    ∃ x', Q a x' ∧ I s' x' := by
  induction p generalizing x s with
  | done b =>
      cases hrun
      exact ⟨x, hp, hI⟩
  | call op k ih =>
      obtain ⟨⟨b, s₁⟩, hb, hrest⟩ := Option.bind_eq_some_iff.mp hrun
      obtain ⟨hpost, hI'⟩ := hop op s x b s₁ hI hp.1 hb
      exact ih b (hp.2 b hpost) hI' hrest

variable {g : ∀ {β : Type}, Op β → τ → β × τ} {J : σ → τ → γ → Prop}

/-- On a model that keeps to its side of the contract, what the program ensures holds in the
end. -/
theorem Ensures.eval {I : τ → γ → Prop}
    (hop : ∀ {β : Type} (op : Op β) (t : τ) (x : γ), I t x → c.pre op x →
      c.post op (g op t).1 ∧ I (g op t).2 (c.next op (g op t).1 x))
    (hp : Ensures c Q p x) {t : τ} (hI : I t x) :
    ∃ x', Q (p.eval g t).1 x' ∧ I (p.eval g t).2 x' := by
  induction p generalizing x t with
  | done a => exact ⟨x, hp, hI⟩
  | call op k ih =>
      obtain ⟨hpost, hI'⟩ := hop op t x hI hp.1
      exact ih _ (hp.2 _ hpost) hI'

/-- The machine follows the model: where it does not get stuck it ends with the same result in
a related state. -/
theorem Ensures.follows
    (hop : ∀ {β : Type} (op : Op β) (s : σ) (t : τ) (x : γ) (b : β) (s' : σ), J s t x →
      c.pre op x → h op s = some (b, s') →
        (g op t).1 = b ∧ c.post op b ∧ J s' (g op t).2 (c.next op b x))
    (hp : Ensures c Q p x) {s s' : σ} {t : τ} {a : α} (hJ : J s t x)
    (hrun : p.run h s = some (a, s')) :
    (p.eval g t).1 = a ∧ ∃ x', Q a x' ∧ J s' (p.eval g t).2 x' := by
  induction p generalizing x s t with
  | done b =>
      cases hrun
      exact ⟨rfl, x, hp, hJ⟩
  | call op k ih =>
      obtain ⟨⟨b, s₁⟩, hb, hrest⟩ := Option.bind_eq_some_iff.mp hrun
      obtain ⟨hsame, hpost, hJ'⟩ := hop op s t x b s₁ hJ hp.1 hb
      have hend := ih b (hp.2 b hpost) hJ' hrest
      rw [Prog.eval, hsame]
      exact hend

theorem eval_keeps {L : τ → Prop} (hop : ∀ {β : Type} (op : Op β) (t : τ), L t → L (g op t).2)
    (p : Prog Op α) {t : τ} (ht : L t) : L (p.eval g t).2 := by
  induction p generalizing t with
  | done a => exact ht
  | call op k ih => exact ih (g op t).1 (hop op t ht)

/-- The machine gets stuck only where the model ends in `L`. -/
theorem Ensures.stuck {L : τ → Prop}
    (hop : ∀ {β : Type} (op : Op β) (s : σ) (t : τ) (x : γ) (b : β) (s' : σ), J s t x →
      c.pre op x → h op s = some (b, s') →
        (g op t).1 = b ∧ c.post op b ∧ J s' (g op t).2 (c.next op b x))
    (hnone : ∀ {β : Type} (op : Op β) (s : σ) (t : τ) (x : γ), J s t x → c.pre op x →
      h op s = none → L (g op t).2)
    (hkeep : ∀ {β : Type} (op : Op β) (t : τ), L t → L (g op t).2)
    (hp : Ensures c Q p x) {s : σ} {t : τ} (hJ : J s t x) (hrun : p.run h s = none) :
    L (p.eval g t).2 := by
  induction p generalizing x s t with
  | done b => cases hrun
  | call op k ih =>
      cases hb : h op s with
      | none => exact eval_keeps hkeep (k _) (hnone op s t x hJ hp.1 hb)
      | some y =>
          obtain ⟨hsame, hpost, hJ'⟩ := hop op s t x y.1 y.2 hJ hp.1 hb
          rw [Prog.run, hb] at hrun
          have hend := ih y.1 (hp.2 y.1 hpost) hJ' hrun
          rw [Prog.eval, hsame]
          exact hend

end Rules

end TorAndroid.Lib.Interaction
