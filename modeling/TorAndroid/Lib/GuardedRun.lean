import Mathlib.Data.List.Basic

namespace TorAndroid.Lib.GuardedRun

variable {σ α : Type*}

/-- The histories of a system started in `init`, all of whose steps meet
`ok`. -/
inductive Run (step : σ → α → Option σ) (ok : σ → α → Prop) (init : σ) :
    List α → σ → Prop
  | start : Run step ok init [] init
  | next {hist : List α} {s s' : σ} {a : α} :
      Run step ok init hist s → ok s a → step s a = some s' →
        Run step ok init (a :: hist) s'

def Always (_ : σ) (_ : α) : Prop := True

instance (s : σ) (a : α) : Decidable (Always s a) := inferInstanceAs (Decidable True)

variable {step : σ → α → Option σ} {ok : σ → α → Prop} {init : σ}

/-- What holds initially and is kept by every step that meets the condition
holds after every run. -/
theorem Run.invariant {I : List α → σ → Prop} (hinit : I [] init)
    (hstep : ∀ hist s a s', I hist s → ok s a → step s a = some s' →
      I (a :: hist) s')
    {hist : List α} {s : σ} (hrun : Run step ok init hist s) : I hist s := by
  induction hrun with
  | start => exact hinit
  | next _ hok hs ih => exact hstep _ _ _ _ ih hok hs

theorem Run.weaken {ok' : σ → α → Prop} (hle : ∀ s a, ok s a → ok' s a)
    {hist : List α} {s : σ} (hrun : Run step ok init hist s) :
    Run step ok' init hist s := by
  induction hrun with
  | start => exact .start
  | next _ hok hs ih => exact .next ih (hle _ _ hok) hs

theorem Run.unguarded {hist : List α} {s : σ} (hrun : Run step ok init hist s) :
    Run step Always init hist s :=
  hrun.weaken fun _ _ _ => trivial

/-- Steps are functions of the action, so a history determines its state. -/
theorem Run.state_unique {ok' : σ → α → Prop} {hist : List α} {s t : σ}
    (hs : Run step ok init hist s) (ht : Run step ok' init hist t) : s = t := by
  induction hs generalizing t with
  | start =>
      cases ht
      rfl
  | next _ _ hstep ih =>
      cases ht with
      | next hprev _ hstep' =>
          have heq := ih hprev
          subst heq
          exact Option.some.inj (hstep.symm.trans hstep')

/-- When a step violates the condition exactly if it leads from a good state to a bad
one, the runs that only visit good states are the runs that meet the condition. -/
theorem Run.visits_iff_guarded {good : σ → Prop} (hinit : good init)
    (hkeep : ∀ hist s a s', Run step ok init hist s → ok s a →
      step s a = some s' → good s')
    (hbreak : ∀ s a s', good s → step s a = some s' → ¬ ok s a → ¬ good s')
    {hist : List α} {s : σ} (hrun : Run step Always init hist s) :
    (∀ older s', older <:+ hist → Run step Always init older s' → good s') ↔
      Run step ok init hist s := by
  constructor
  · intro hgood
    induction hrun with
    | start => exact .start
    | @next hist s s' a hprev _ hs ih =>
        have hguarded := ih fun older t hsuffix ht =>
          hgood older t (hsuffix.trans (List.suffix_cons a hist)) ht
        have hok : ok s a := by
          by_contra hnot
          exact hbreak s a s' (hgood hist s (List.suffix_cons a hist) hprev) hs hnot
            (hgood (a :: hist) s' (List.suffix_refl _) (.next hprev trivial hs))
        exact .next hguarded hok hs
  · intro hguarded
    clear hrun
    induction hguarded with
    | start =>
        intro older t hsuffix ht
        have hnil : older = [] := List.suffix_nil.mp hsuffix
        subst hnil
        cases ht
        exact hinit
    | @next hist s s' a hprev hok hs ih =>
        intro older t hsuffix ht
        rcases List.suffix_cons_iff.mp hsuffix with rfl | hsuffix
        · have heq := ht.state_unique (Run.next hprev hok hs)
          subst heq
          exact hkeep hist s a _ hprev hok hs
        · exact ih older t hsuffix ht

/-- Execute actions in the order given, stopping at the first one that is not
enabled or does not meet the condition. -/
def execute (step : σ → α → Option σ) (ok : σ → α → Prop)
    [∀ s a, Decidable (ok s a)] : σ → List α → Option σ
  | s, [] => some s
  | s, a :: rest =>
      if ok s a then
        match step s a with
        | some s' => execute step ok s' rest
        | none => none
      else none

theorem Run.append_execute [∀ s a, Decidable (ok s a)] {hist : List α} {s : σ}
    (hrun : Run step ok init hist s) {acts : List α} {t : σ}
    (hexec : execute step ok s acts = some t) :
    Run step ok init (acts.reverse ++ hist) t := by
  induction acts generalizing hist s with
  | nil =>
      have heq : s = t := by simpa [execute] using hexec
      subst heq
      simpa using hrun
  | cons a rest ih =>
      rw [execute] at hexec
      split at hexec
      · rename_i hok
        split at hexec
        · rename_i s' hs
          have htail := ih (.next hrun hok hs) hexec
          simpa using htail
        · cases hexec
      · cases hexec

theorem run_of_execute [∀ s a, Decidable (ok s a)] {acts : List α} {t : σ}
    (hexec : execute step ok init acts = some t) :
    Run step ok init acts.reverse t := by
  simpa using Run.append_execute (.start : Run step ok init [] init) hexec

end TorAndroid.Lib.GuardedRun
