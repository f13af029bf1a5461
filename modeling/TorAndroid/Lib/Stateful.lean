import Mathlib.Logic.Basic

namespace TorAndroid.Lib.Stateful

universe u

def Act (σ ε α : Type u) : Type u := σ → Except ε α × σ

variable {σ ε α β : Type u}

instance : Monad (Act σ ε) where
  pure a := fun s => (.ok a, s)
  bind x f := fun s =>
    match x s with
    | (.ok a, s') => f a s'
    | (.error e, s') => (.error e, s')

namespace Act

def fail (e : ε) : Act σ ε α := fun s => (.error e, s)

def lift (x : Except ε α) : Act σ ε α := fun s => (x, s)

def modify (f : σ → σ) : Act σ ε PUnit := fun s => (.ok ⟨⟩, f s)

/-- Run `x`; if it throws, run the handler. -/
def handle (x : Act σ ε α) (handler : ε → Act σ ε α) : Act σ ε α := fun s =>
  match x s with
  | (.ok a, s') => (.ok a, s')
  | (.error e, s') => handler e s'

section Runs

variable {x : Act σ ε α} {f : α → Act σ ε β} {handler : ε → Act σ ε α} {s s' : σ} {a : α} {e : ε}

@[simp] theorem pure_run (a : α) (s : σ) : (pure a : Act σ ε α) s = (.ok a, s) := rfl

@[simp] theorem fail_run (e : ε) (s : σ) : (fail e : Act σ ε α) s = (.error e, s) := rfl

@[simp] theorem lift_run (r : Except ε α) (s : σ) : lift r s = (r, s) := rfl

@[simp] theorem modify_run (f : σ → σ) (s : σ) : (modify f : Act σ ε PUnit) s = (.ok ⟨⟩, f s) :=
  rfl

theorem bind_ok (h : x s = (.ok a, s')) : (x >>= f) s = f a s' := by
  change (match x s with
    | (.ok a, s') => f a s'
    | (.error e, s') => (.error e, s')) = f a s'
  rw [h]

theorem bind_error (h : x s = (.error e, s')) : (x >>= f) s = (.error e, s') := by
  change (match x s with
    | (.ok a, s') => f a s'
    | (.error e, s') => (.error e, s')) = (.error e, s')
  rw [h]

theorem handle_ok (h : x s = (.ok a, s')) : x.handle handler s = (.ok a, s') := by
  unfold handle
  rw [h]

theorem handle_error (h : x s = (.error e, s')) : x.handle handler s = handler e s' := by
  unfold handle
  rw [h]

@[simp] theorem pure_bind_run (a : α) (f : α → Act σ ε β) (s : σ) :
    ((pure a : Act σ ε α) >>= f) s = f a s := rfl

@[simp] theorem fail_bind_run (e : ε) (f : α → Act σ ε β) (s : σ) :
    ((fail e : Act σ ε α) >>= f) s = (.error e, s) := rfl

@[simp] theorem lift_ok_bind_run (a : α) (f : α → Act σ ε β) (s : σ) :
    (lift (.ok a) >>= f) s = f a s := rfl

@[simp] theorem lift_error_bind_run (e : ε) (f : α → Act σ ε β) (s : σ) :
    (lift (.error e) >>= f) s = (.error e, s) := rfl

@[simp] theorem modify_bind_run (g : σ → σ) (f : PUnit → Act σ ε β) (s : σ) :
    (modify g >>= f) s = f ⟨⟩ (g s) := rfl

end Runs

end Act

end TorAndroid.Lib.Stateful
