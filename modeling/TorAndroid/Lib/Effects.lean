import Mathlib.Data.List.Basic

namespace TorAndroid.Lib.Effects

universe u

/-- The number of the next resource, the events so far, and the outcomes of
the coming operations: `none` is success, and past the end of the list every
operation succeeds. -/
structure World (ε ν : Type u) where
  next : Nat
  trace : List ν
  script : List (Option ε)

def World.start {ε ν : Type u} (script : List (Option ε)) : World ε ν := ⟨0, [], script⟩

def Prog (ε ν α : Type u) : Type u := World ε ν → Except ε α × World ε ν

variable {ε ν α β : Type u}

instance : Monad (Prog ε ν) where
  pure a := fun w => (.ok a, w)
  bind x f := fun w =>
    match x w with
    | (.ok a, w') => f a w'
    | (.error e, w') => (.error e, w')

namespace Prog

def fail (e : ε) : Prog ε ν α := fun w => (.error e, w)

def lift (x : Except ε α) : Prog ε ν α := fun w => (x, w)

def emit (event : ν) : Prog ε ν PUnit := fun w =>
  (.ok ⟨⟩, { w with trace := w.trace ++ [event] })

/-- An operation whose outcome the environment decides. -/
def attempt : Prog ε ν PUnit := fun w =>
  match w.script with
  | [] => (.ok ⟨⟩, w)
  | none :: script => (.ok ⟨⟩, { w with script })
  | some e :: script => (.error e, { w with script })

/-- Run `x`; if it throws, run the handler. -/
def handle (x : Prog ε ν α) (handler : ε → Prog ε ν α) : Prog ε ν α := fun w =>
  match x w with
  | (.ok a, w') => (.ok a, w')
  | (.error e, w') => handler e w'

end Prog

def fresh {ε ν : Type} : Prog ε ν Nat := fun w => (.ok w.next, { w with next := w.next + 1 })

/-- Every event that `x` adds satisfies `Q`. -/
def Emits (Q : ν → Prop) (x : Prog ε ν α) : Prop :=
  ∀ w, ∃ events, (x w).2.trace = w.trace ++ events ∧ ∀ event ∈ events, Q event

/-- When every operation succeeds, `x` adds an event that satisfies `Q`. -/
def Reaches (Q : ν → Prop) (x : Prog ε ν α) : Prop :=
  ∀ w, w.script = [] → ∃ events, (x w).2.trace = w.trace ++ events ∧ ∃ event ∈ events, Q event

def Succeeds (x : Prog ε ν α) : Prop :=
  ∀ w, w.script = [] → ∃ a w', x w = (.ok a, w') ∧ w'.script = []

def Fails (x : Prog ε ν α) : Prop := ∀ w, ∃ e w', x w = (.error e, w')

section Rules

variable {Q R : ν → Prop}

theorem bind_ok {x : Prog ε ν α} {f : α → Prog ε ν β} {w w' : World ε ν} {a : α}
    (h : x w = (.ok a, w')) : (x >>= f) w = f a w' := by
  change (match x w with
    | (.ok a, w') => f a w'
    | (.error e, w') => (.error e, w')) = f a w'
  rw [h]

theorem bind_error {x : Prog ε ν α} {f : α → Prog ε ν β} {w w' : World ε ν} {e : ε}
    (h : x w = (.error e, w')) : (x >>= f) w = (.error e, w') := by
  change (match x w with
    | (.ok a, w') => f a w'
    | (.error e, w') => (.error e, w')) = (.error e, w')
  rw [h]

theorem appended_trans {t₁ t₂ t₃ : List ν}
    (h : ∃ events, t₂ = t₁ ++ events ∧ ∀ event ∈ events, Q event)
    (h' : ∃ events, t₃ = t₂ ++ events ∧ ∀ event ∈ events, Q event) :
    ∃ events, t₃ = t₁ ++ events ∧ ∀ event ∈ events, Q event := by
  obtain ⟨events, rfl, hevents⟩ := h
  obtain ⟨events', rfl, hevents'⟩ := h'
  refine ⟨events ++ events', List.append_assoc _ _ _, ?_⟩
  intro event hmem
  rcases List.mem_append.mp hmem with hmem | hmem
  · exact hevents event hmem
  · exact hevents' event hmem

theorem reached_append {t₁ t₂ t₃ : List ν}
    (h : ∃ events, t₂ = t₁ ++ events ∧ ∃ event ∈ events, Q event)
    (h' : ∃ events, t₃ = t₂ ++ events ∧ ∀ event ∈ events, True) :
    ∃ events, t₃ = t₁ ++ events ∧ ∃ event ∈ events, Q event := by
  obtain ⟨events, rfl, event, hmem, hevent⟩ := h
  obtain ⟨events', rfl, -⟩ := h'
  exact ⟨events ++ events', List.append_assoc _ _ _, event, List.mem_append_left _ hmem, hevent⟩

theorem emits_of_trace_eq {x : Prog ε ν α} (h : ∀ w, (x w).2.trace = w.trace) : Emits Q x := by
  intro w
  exact ⟨[], by simp [h w], by simp⟩

theorem emits_pure (a : α) : Emits Q (pure a : Prog ε ν α) := emits_of_trace_eq fun _ => rfl

theorem emits_fail (e : ε) : Emits Q (Prog.fail e : Prog ε ν α) := emits_of_trace_eq fun _ => rfl

theorem emits_lift (x : Except ε α) : Emits Q (Prog.lift x : Prog ε ν α) :=
  emits_of_trace_eq fun _ => rfl

theorem emits_fresh {ε ν : Type} {Q : ν → Prop} : Emits Q (fresh : Prog ε ν Nat) :=
  emits_of_trace_eq fun _ => rfl

theorem emits_attempt : Emits Q (Prog.attempt : Prog ε ν PUnit) := by
  apply emits_of_trace_eq
  intro w
  unfold Prog.attempt
  split <;> rfl

theorem emits_emit {event : ν} (h : Q event) : Emits Q (Prog.emit event : Prog ε ν PUnit) := by
  intro w
  exact ⟨[event], rfl, by simpa using h⟩

theorem emits_bind {x : Prog ε ν α} {f : α → Prog ε ν β} (hx : Emits Q x)
    (hf : ∀ a, Emits Q (f a)) : Emits Q (x >>= f) := by
  intro w
  have hemits := hx w
  rcases hrun : x w with ⟨_ | a, w'⟩
  · rw [bind_error hrun]
    rwa [hrun] at hemits
  · rw [bind_ok hrun]
    rw [hrun] at hemits
    exact appended_trans hemits (hf a w')

theorem emits_lift_bind {x : Except ε α} {f : α → Prog ε ν β}
    (hf : ∀ a, x = .ok a → Emits Q (f a)) : Emits Q (Prog.lift x >>= f) := by
  cases x with
  | error e => exact emits_fail e
  | ok a => exact hf a rfl

theorem emits_handle {x : Prog ε ν α} {handler : ε → Prog ε ν α} (hx : Emits Q x)
    (hhandler : ∀ e, Emits Q (handler e)) : Emits Q (x.handle handler) := by
  intro w
  have hemits := hx w
  unfold Prog.handle
  rcases hrun : x w with ⟨e | a, w'⟩
  · rw [hrun] at hemits
    exact appended_trans hemits (hhandler e w')
  · rwa [hrun] at hemits

theorem fails_fail (e : ε) : Fails (Prog.fail e : Prog ε ν α) := fun w => ⟨e, w, rfl⟩

theorem fails_bind_left {x : Prog ε ν α} {f : α → Prog ε ν β} (hx : Fails x) :
    Fails (x >>= f) := by
  intro w
  obtain ⟨e, w', hrun⟩ := hx w
  exact ⟨e, w', bind_error hrun⟩

theorem fails_bind_right {x : Prog ε ν α} {f : α → Prog ε ν β} (hf : ∀ a, Fails (f a)) :
    Fails (x >>= f) := by
  intro w
  rcases hrun : x w with ⟨e | a, w'⟩
  · exact ⟨e, w', bind_error hrun⟩
  · rw [bind_ok hrun]
    exact hf a w'

theorem fails_handle {x : Prog ε ν α} {handler : ε → Prog ε ν α} (hx : Fails x)
    (hhandler : ∀ e, Fails (handler e)) : Fails (x.handle handler) := by
  intro w
  obtain ⟨e, w', hrun⟩ := hx w
  unfold Prog.handle
  rw [hrun]
  exact hhandler e w'

theorem emits_bind_of_fails {x : Prog ε ν α} {f : α → Prog ε ν β} (hx : Emits Q x)
    (hfails : Fails x) : Emits Q (x >>= f) := by
  intro w
  obtain ⟨e, w', hrun⟩ := hfails w
  have hemits := hx w
  rw [bind_error hrun]
  rwa [hrun] at hemits

theorem succeeds_attempt : Succeeds (Prog.attempt : Prog ε ν PUnit) := by
  intro w hscript
  refine ⟨⟨⟩, w, ?_, hscript⟩
  simp [Prog.attempt, hscript]

theorem succeeds_emit (event : ν) : Succeeds (Prog.emit event : Prog ε ν PUnit) := by
  intro w hscript
  exact ⟨⟨⟩, _, rfl, hscript⟩

theorem succeeds_fresh {ε ν : Type} : Succeeds (fresh : Prog ε ν Nat) := by
  intro w hscript
  exact ⟨_, _, rfl, hscript⟩

theorem succeeds_pure (a : α) : Succeeds (pure a : Prog ε ν α) := by
  intro w hscript
  exact ⟨a, w, rfl, hscript⟩

theorem succeeds_bind {x : Prog ε ν α} {f : α → Prog ε ν β} (hx : Succeeds x)
    (hf : ∀ a, Succeeds (f a)) : Succeeds (x >>= f) := by
  intro w hscript
  obtain ⟨a, w', hrun, hscript'⟩ := hx w hscript
  rw [bind_ok hrun]
  exact hf a w' hscript'

theorem reaches_emit {event : ν} (h : Q event) : Reaches Q (Prog.emit event : Prog ε ν PUnit) := by
  intro w _
  exact ⟨[event], rfl, event, by simp, h⟩

theorem reaches_mono {x : Prog ε ν α} (h : Reaches Q x) (hQR : ∀ event, Q event → R event) :
    Reaches R x := by
  intro w hscript
  obtain ⟨events, htrace, event, hmem, hevent⟩ := h w hscript
  exact ⟨events, htrace, event, hmem, hQR event hevent⟩

/-- The first part reaches the event; the rest only adds to the record. -/
theorem reaches_bind_left {x : Prog ε ν α} {f : α → Prog ε ν β} (hx : Reaches Q x)
    (hf : ∀ a, Emits (fun _ => True) (f a)) : Reaches Q (x >>= f) := by
  intro w hscript
  have hreaches := hx w hscript
  rcases hrun : x w with ⟨_ | a, w'⟩
  · rw [bind_error hrun]
    rwa [hrun] at hreaches
  · rw [bind_ok hrun]
    rw [hrun] at hreaches
    exact reached_append hreaches (hf a w')

theorem reaches_bind_right {x : Prog ε ν α} {f : α → Prog ε ν β} (hx : Succeeds x)
    (hemits : Emits (fun _ => True) x) (hf : ∀ a, Reaches Q (f a)) : Reaches Q (x >>= f) := by
  intro w hscript
  obtain ⟨a, w', hrun, hscript'⟩ := hx w hscript
  obtain ⟨events, htrace, -⟩ := hemits w
  rw [hrun] at htrace
  rw [bind_ok hrun]
  obtain ⟨events', htrace', event, hmem, hevent⟩ := hf a w' hscript'
  refine ⟨events ++ events', ?_, event, List.mem_append_right _ hmem, hevent⟩
  rw [htrace', htrace, List.append_assoc]

theorem reaches_lift_bind {x : Except ε α} {f : α → Prog ε ν β} {a : α} (hx : x = .ok a)
    (hf : Reaches Q (f a)) : Reaches Q (Prog.lift x >>= f) := by
  subst hx
  exact hf

theorem reaches_handle {x : Prog ε ν α} {handler : ε → Prog ε ν α} (hx : Reaches Q x)
    (hhandler : ∀ e, Emits (fun _ => True) (handler e)) : Reaches Q (x.handle handler) := by
  intro w hscript
  have hreaches := hx w hscript
  unfold Prog.handle
  rcases hrun : x w with ⟨e | a, w'⟩
  · rw [hrun] at hreaches
    exact reached_append hreaches (hhandler e w')
  · rwa [hrun] at hreaches

end Rules

end TorAndroid.Lib.Effects
