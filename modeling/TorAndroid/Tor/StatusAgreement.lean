import TorAndroid.Tor.StatusMachine

namespace TorAndroid.Tor.StatusAgreement

open TorAndroid.Lib.GuardedRun
open TorAndroid.Lib.ThreadPool
open TorAndroid.Tor.StatusMachine

def unresolved (s : State) : Bool :=
  match s.startTor with
  | some .announce | some .start | some .caught => true
  | _ => false

def announced (s : State) : Bool :=
  match s.startTor with
  | some .announce | some .start | some .complete => true
  | _ => false

/-- What holds between status, process and operations along an orderly run. -/
structure StatusInv (s : State) : Prop where
  stopping : stopInProgress s = true → startInProgress s = false ∧ onPending s = false ∧
    (s.status = .stopping ∨ s.status = .off)
  stopped : .off ∈ s.stops → s.running = false
  idle : stopInProgress s = false → s.status ≠ .stopping
  off : s.status = .off → s.running = false
  on : s.status = .on → s.running = true ∨ unresolved s = true
  starting : s.status = .starting → s.running = true ∨ unresolved s = true
  pending : onPending s = true → s.running = true ∨ unresolved s = true
  announced : announced s = true → s.status = .starting ∨ s.status = .on
  complete : s.startTor = some .complete → s.running = true
  caught : s.startTor = some .caught → s.running = false

theorem statusInv_init : StatusInv State.init := by
  constructor <;>
    simp [State.init, stopInProgress, onPending, StatusAgreement.announced]

theorem StatusInv.statusAgrees {s : State} (h : StatusInv s) : StatusAgrees s := by
  intro hquiet
  refine ⟨h.off, fun hon => ?_⟩
  rcases h.on hon with hrunning | hunresolved
  · exact hrunning
  · simp [unresolved, hquiet.startTor] at hunresolved

theorem startInProgress_of_ne {s : State} {p : StartPoint} (hp : s.startTor = some p)
    (hne : p ≠ .isStopping) : startInProgress s = true := by
  unfold startInProgress
  rw [hp]
  cases p <;> first | rfl | exact absurd rfl hne

theorem StatusInv.no_stop {s : State} (h : StatusInv s) (hstart : startInProgress s = true) :
    stopInProgress s = false := by
  cases hstop : stopInProgress s with
  | false => rfl
  | true =>
      rw [(h.stopping hstop).1] at hstart
      cases hstart

theorem StatusInv.not_off {s : State} (hstop : stopInProgress s = false) :
    StopPoint.off ∉ s.stops := by
  intro hmem
  have hactive : stopInProgress s = true := List.any_eq_true.mpr ⟨.off, hmem, rfl⟩
  rw [hstop] at hactive
  cases hactive

/-- The steps of `startTor` up to the announcement touch neither the status nor
the process. -/
theorem StatusInv.goto_start {s : State} (h : StatusInv s) (next : Option StartPoint)
    (hstop : stopInProgress s = true →
      startInProgress { s with startTor := next } = false)
    (hnext : ∀ p, next = some p →
      p = .isStopping ∨ p = .isOn ∨ p = .getTorPid ∨ p = .updateTorrcConfig ∨ p = .starting)
    (hunresolved : unresolved s = false) : StatusInv { s with startTor := next } := by
  have hplain : StatusAgreement.announced { s with startTor := next } = false := by
    unfold StatusAgreement.announced
    cases next with
    | none => rfl
    | some p => rcases hnext p rfl with rfl | rfl | rfl | rfl | rfl <;> rfl
  have hkeep : ∀ {P : Prop}, (P → s.running = true ∨ unresolved s = true) →
      P → s.running = true ∨ unresolved { s with startTor := next } = true := by
    intro P hP hp
    rcases hP hp with hrunning | hun
    · exact .inl hrunning
    · rw [hunresolved] at hun
      cases hun
  constructor
  · exact fun hs => ⟨hstop hs, (h.stopping hs).2⟩
  · exact h.stopped
  · exact h.idle
  · exact h.off
  · exact hkeep h.on
  · exact hkeep h.starting
  · exact hkeep h.pending
  · intro hann
    rw [hplain] at hann
    cases hann
  · rintro rfl
    rcases hnext _ rfl with hp | hp | hp | hp | hp <;> cases hp
  · rintro rfl
    rcases hnext _ rfl with hp | hp | hp | hp | hp <;> cases hp

theorem StatusInv.goto_caught {s : State} {running : Bool} (h : StatusInv s)
    (hstart : startInProgress s = true) (hdead : running = false) : StatusInv
      { s with running := running, startTor := some .caught } := by
  have hstop := h.no_stop hstart
  refine ⟨fun hs => ?_, fun _ => hdead, h.idle, fun _ => hdead, fun _ => .inr rfl,
    fun _ => .inr rfl, fun _ => .inr rfl, nofun, nofun, fun _ => hdead⟩
  change stopInProgress s = true at hs
  rw [hstop] at hs
  cases hs

theorem startTorStep_inv {s s' : State} {throws : Bool} (h : StatusInv s)
    (hok : orderly s (.startTor throws) = true)
    (hstep : startTorStep s throws = some s') : StatusInv s' := by
  -- past the stopping test no stop is in progress, before it nothing is unresolved
  have hpast : ∀ {p : StartPoint}, s.startTor = some p → p ≠ .isStopping →
      startInProgress s = true := startInProgress_of_ne
  have hfree : ∀ {p : StartPoint}, s.startTor = some p → p ≠ .isStopping →
      ∀ {P : Prop}, stopInProgress s = true → P := by
    intro p hp hne P hs
    rw [h.no_stop (hpast hp hne)] at hs
    cases hs
  unfold startTorStep at hstep
  split at hstep
  · rename_i hp
    cases hstep
    have hun : unresolved s = false := by simp [unresolved, hp]
    refine h.goto_start _ (fun hs => ?_) (fun p hnext => ?_) hun
    · split
      · rfl
      · rename_i hstatus
        simp [orderly, hp, hstatus, hs] at hok
    · split at hnext <;> cases hnext
      exact .inr (.inl rfl)
  · rename_i hp
    cases hstep
    have hun : unresolved s = false := by simp [unresolved, hp]
    refine h.goto_start _ (hfree hp nofun) (fun p hnext => ?_) hun
    cases hnext
    split
    · exact .inr (.inr (.inl rfl))
    · exact .inr (.inr (.inr (.inl rfl)))
  · rename_i hp
    cases hstep
    have hun : unresolved s = false := by simp [unresolved, hp]
    refine h.goto_start _ (hfree hp nofun) (fun p hnext => ?_) hun
    split at hnext <;> cases hnext
    exact .inr (.inr (.inr (.inl rfl)))
  · rename_i hp
    cases hstep
    have hun : unresolved s = false := by simp [unresolved, hp]
    refine h.goto_start _ (hfree hp nofun) (fun p hnext => ?_) hun
    cases hnext
    exact .inr (.inr (.inr (.inr rfl)))
  · rename_i hp
    cases hstep
    exact ⟨hfree hp nofun, h.stopped, nofun, nofun, nofun, fun _ => .inr rfl,
      fun _ => .inr rfl, fun _ => .inl rfl, nofun, nofun⟩
  · rename_i hp
    cases hstep
    have hann : s.status = .starting ∨ s.status = .on :=
      h.announced (by simp [StatusAgreement.announced, hp])
    exact ⟨hfree hp nofun, h.stopped, h.idle, h.off, fun _ => .inr rfl,
      fun _ => .inr rfl, fun _ => .inr rfl, fun _ => hann, nofun, nofun⟩
  · rename_i hp
    cases hstep
    have hann : s.status = .starting ∨ s.status = .on :=
      h.announced (by simp [StatusAgreement.announced, hp])
    refine ⟨hfree hp nofun, fun hmem => ?_, h.idle, fun hoff => ?_, fun _ => .inl rfl,
      fun _ => .inl rfl, fun _ => .inl rfl, fun _ => hann, fun _ => rfl, nofun⟩
    · exact absurd hmem (StatusInv.not_off (h.no_stop (hpast hp nofun)))
    · change s.status = .off at hoff
      rw [hoff] at hann
      rcases hann with hann | hann <;> cases hann
  · rename_i hp
    cases hstep
    have hrunning := h.complete hp
    exact ⟨hfree hp nofun, h.stopped, h.idle, h.off, fun _ => .inl hrunning,
      fun _ => .inl hrunning, fun _ => .inl hrunning, nofun, nofun, nofun⟩
  · rename_i hp
    cases hstep
    have hdead := h.caught hp
    have hnone : onPending s = false := by simpa [orderly, hp] using hok
    refine ⟨hfree hp nofun, h.stopped, nofun, fun _ => hdead, nofun, nofun,
      fun hpending => ?_, nofun, nofun, nofun⟩
    change onPending s = true at hpending
    rw [hnone] at hpending
    cases hpending
  · rename_i hp
    cases hstep
    exact h.goto_caught (hpast hp nofun) rfl
  · rename_i hp
    cases hstep
    exact h.goto_caught (hpast hp nofun) (by simpa [orderly, hp] using hok)
  · rename_i hp
    cases hstep
    exact h.goto_caught (hpast hp nofun) (by simpa [orderly, hp] using hok)
  · rename_i hp
    cases hstep
    exact h.goto_caught (hpast hp nofun) (by simpa [orderly, hp] using hok)
  · cases hstep

theorem stop_not_idle {stops : List StopPoint} {i : Nat} {p q : StopPoint} {P : Prop}
    (hp : stops[i]? = some p) (hq : q.active = true)
    (hidle : (stops.set i q).any StopPoint.active = false) : P := by
  rw [any_of_getElem? (getElem?_set_moved hp) hq] at hidle
  cases hidle

theorem stopTorStep_inv {s s' : State} {i : Nat} {throws : Bool} (h : StatusInv s)
    (hok : orderly s (.stopTor i throws) = true)
    (hstep : stopTorStep s i throws = some s') : StatusInv s' := by
  -- a stop in progress has the status to itself: nothing else is under way
  have hquiet : ∀ {p : StopPoint}, s.stops[i]? = some p → p.active = true →
      startInProgress s = false ∧ onPending s = false ∧
        (s.status = .stopping ∨ s.status = .off) :=
    fun hp hactive => h.stopping (any_of_getElem? hp hactive)
  have hother : ∀ {q : StopPoint}, q ≠ .off → .off ∈ s.stops.set i q → .off ∈ s.stops := by
    intro q hq hmem
    exact (List.mem_or_eq_of_mem_set hmem).resolve_right fun heq => hq heq.symm
  have hon : ∀ {p : StartPoint}, startInProgress s = false → s.startTor = some p →
      p = .isStopping := by
    intro p hstart hp
    by_contra hne
    rw [startInProgress_of_ne hp hne] at hstart
    cases hstart
  have hann : startInProgress s = false → StatusAgreement.announced s = true → False := by
    intro hstart hann
    unfold StatusAgreement.announced at hann
    split at hann
    · rename_i hp
      cases hon hstart hp
    · rename_i hp
      cases hon hstart hp
    · rename_i hp
      cases hon hstart hp
    · cases hann
  unfold stopTorStep at hstep
  split at hstep
  · rename_i hp
    cases hstep
    have hfree : startInProgress s = false ∧ onPending s = false := by
      simpa [orderly, hp] using hok
    refine ⟨fun _ => ⟨hfree.1, hfree.2, .inl rfl⟩,
      fun hmem => h.stopped (hother (q := .stop) nofun hmem),
      stop_not_idle hp rfl, nofun, nofun, nofun, fun hpending => ?_,
      fun ha => (hann hfree.1 ha).elim, fun hc => absurd (hon hfree.1 hc) nofun,
      fun hc => absurd (hon hfree.1 hc) nofun⟩
    change onPending s = true at hpending
    rw [hfree.2] at hpending
    cases hpending
  · rename_i hp
    cases hstep
    obtain ⟨hstart, hnone, hstatus⟩ := hquiet hp rfl
    refine ⟨fun _ => ⟨hstart, hnone, hstatus⟩, fun _ => rfl, stop_not_idle hp rfl,
      fun _ => rfl, fun hon' => ?_, fun hst => ?_, fun hpending => ?_,
      fun ha => (hann hstart ha).elim, fun hc => absurd (hon hstart hc) nofun, fun _ => rfl⟩
    · change s.status = .on at hon'
      rw [hon'] at hstatus
      rcases hstatus with hs | hs <;> cases hs
    · change s.status = .starting at hst
      rw [hst] at hstatus
      rcases hstatus with hs | hs <;> cases hs
    · change onPending s = true at hpending
      rw [hnone] at hpending
      cases hpending
  · rename_i hp
    cases hstep
    have hdead : s.running = false := by simpa [orderly, hp] using hok
    obtain ⟨hstart, hnone, hstatus⟩ := hquiet hp rfl
    exact ⟨fun _ => ⟨hstart, hnone, hstatus⟩, fun _ => hdead, stop_not_idle hp rfl, h.off,
      h.on, h.starting, h.pending, h.announced, h.complete, h.caught⟩
  · rename_i hp
    cases hstep
    obtain ⟨hstart, hnone, -⟩ := hquiet hp rfl
    have hdead := h.stopped (List.mem_of_getElem? hp)
    refine ⟨fun _ => ⟨hstart, hnone, .inr rfl⟩, fun _ => hdead, fun _ => nofun,
      fun _ => hdead, nofun, nofun, h.pending, fun ha => (hann hstart ha).elim,
      h.complete, h.caught⟩
  · cases hstep

/-- A pending write of `on` is carried out or dropped, or a new one is noted;
nothing else changes. -/
theorem StatusInv.listeners {s : State} (h : StatusInv s) (circuits : List CircuitPoint)
    (notifies : List NotifyPoint)
    (hpending : onPending { s with circuits := circuits, notifies := notifies } = true →
      (s.running = true ∨ unresolved s = true) ∧ stopInProgress s = false) :
    StatusInv { s with circuits := circuits, notifies := notifies } := by
  refine ⟨fun hs => ⟨(h.stopping hs).1, ?_, (h.stopping hs).2.2⟩, h.stopped, h.idle, h.off,
    h.on, h.starting, fun hp => (hpending hp).1, h.announced, h.complete, h.caught⟩
  by_contra hp
  have hstop := (hpending (by simpa using hp)).2
  rw [show stopInProgress s = true from hs] at hstop
  cases hstop

theorem StatusInv.write_on {s : State} (h : StatusInv s) (hpending : onPending s = true) :
    StatusInv { s with status := .on } := by
  have hstop : stopInProgress s = true → False := by
    intro hs
    rw [(h.stopping hs).2.1] at hpending
    cases hpending
  exact ⟨fun hs => (hstop hs).elim, h.stopped, nofun, nofun, fun _ => h.pending hpending,
    nofun, h.pending, fun _ => .inr rfl, h.complete, h.caught⟩

theorem StatusInv.of_pending {s : State} (h : StatusInv s) (hpending : onPending s = true) :
    (s.running = true ∨ unresolved s = true) ∧ stopInProgress s = false := by
  refine ⟨h.pending hpending, ?_⟩
  cases hs : stopInProgress s with
  | false => rfl
  | true =>
      rw [(h.stopping hs).2.1] at hpending
      cases hpending

theorem onPending_circuits {s : State} {i : Nat} {p : CircuitPoint}
    (h : onPending { s with circuits := s.circuits.set i p } = true) :
    p.pending = true ∨ onPending s = true := by
  simp only [onPending, Bool.or_eq_true] at h ⊢
  rcases h with hc | hn
  · rcases any_set_inv hc with hp | hc
    · exact .inl hp
    · exact .inr (.inl hc)
  · exact .inr (.inr hn)

theorem onPending_notifies {s : State} {i : Nat} {p : NotifyPoint}
    (h : onPending { s with notifies := s.notifies.set i p } = true) :
    p.pending = true ∨ onPending s = true := by
  simp only [onPending, Bool.or_eq_true] at h ⊢
  rcases h with hc | hn
  · exact .inr (.inl hc)
  · rcases any_set_inv hn with hp | hn
    · exact .inl hp
    · exact .inr (.inr hn)

theorem circuitStep_inv {s s' : State} {i : Nat} (h : StatusInv s)
    (hstep : circuitStep s i = some s') : StatusInv s' := by
  unfold circuitStep at hstep
  split at hstep
  · rename_i circuitStatus hp
    cases hstep
    refine h.listeners _ s.notifies fun hpending => ?_
    rcases onPending_circuits hpending with hnew | hold
    · split at hnew
      · rename_i hstarting
        refine ⟨h.starting hstarting.1, ?_⟩
        cases hs : stopInProgress s with
        | false => rfl
        | true =>
            have hstatus := (h.stopping hs).2.2
            rw [hstarting.1] at hstatus
            rcases hstatus with hst | hst <;> cases hst
      · cases hnew
    · exact h.of_pending hold
  · rename_i hp
    cases hstep
    have hpending : onPending s = true := by
      simp [onPending, any_of_getElem? (f := CircuitPoint.pending) hp rfl]
    have hon := h.write_on hpending
    refine hon.listeners _ s.notifies fun hleft => ?_
    rcases onPending_circuits hleft with hnew | hold
    · cases hnew
    · exact hon.of_pending hold
  · cases hstep
  · cases hstep

theorem notifyStep_inv {s s' : State} {i : Nat} {throws : Bool} (h : StatusInv s)
    (hok : orderly s (.notify i throws) = true)
    (hstep : notifyStep s i throws = some s') : StatusInv s' := by
  unfold notifyStep at hstep
  split at hstep
  · rename_i hp
    cases hstep
    refine h.listeners s.circuits _ fun hpending => ?_
    rcases onPending_notifies hpending with hnew | hold
    · split at hnew
      · rename_i hrunning
        exact ⟨.inl hrunning, by simpa [orderly, hp, hrunning] using hok⟩
      · cases hnew
    · exact h.of_pending hold
  · rename_i hp
    cases hstep
    refine h.listeners s.circuits _ fun _ => h.of_pending ?_
    simp [onPending, any_of_getElem? (f := NotifyPoint.pending) hp rfl]
  · rename_i hp
    cases hstep
    refine h.listeners s.circuits _ fun _ => h.of_pending ?_
    simp [onPending, any_of_getElem? (f := NotifyPoint.pending) hp rfl]
  · rename_i hp
    cases hstep
    have hpending : onPending s = true := by
      simp [onPending, any_of_getElem? (f := NotifyPoint.pending) hp rfl]
    have hon := h.write_on hpending
    refine hon.listeners s.circuits _ fun hleft => ?_
    rcases onPending_notifies hleft with hnew | hold
    · cases hnew
    · exact hon.of_pending hold
  · cases hstep

theorem step_statusInv {s s' : State} {a : Action} (h : StatusInv s)
    (hok : orderly s a = true) (hstep : step s a = some s') : StatusInv s' := by
  cases a with
  | callStartTor =>
      cases hstep
      exact ⟨h.stopping, h.stopped, h.idle, h.off, h.on, h.starting, h.pending,
        h.announced, h.complete, h.caught⟩
  | enterStartTor =>
      simp only [step] at hstep
      split at hstep
      · rename_i n hnone _
        cases hstep
        have hun : unresolved s = false := by simp [unresolved, hnone]
        have hentered := h.goto_start (some .isStopping) (fun _ => rfl)
          (fun p hp => .inl (Option.some.inj hp).symm) hun
        exact ⟨hentered.stopping, hentered.stopped, hentered.idle, hentered.off,
          hentered.on, hentered.starting, hentered.pending, hentered.announced,
          hentered.complete, hentered.caught⟩
      · cases hstep
  | startTor throws => exact startTorStep_inv h hok hstep
  | stopTorAsync =>
      cases hstep
      have hsame : stopInProgress { s with stops := s.stops ++ [.stopping] } =
          stopInProgress s := any_concat_of_false rfl
      refine ⟨fun hs => h.stopping (hsame ▸ hs), fun hmem => h.stopped ?_,
        fun hs => h.idle (hsame ▸ hs), h.off, h.on, h.starting, h.pending, h.announced,
        h.complete, h.caught⟩
      simpa using hmem
  | stopTor i throws => exact stopTorStep_inv h hok hstep
  | circuitStatus circuitStatus =>
      cases hstep
      refine h.listeners _ s.notifies fun hpending => h.of_pending ?_
      simpa [onPending, CircuitPoint.pending] using hpending
  | circuit i => exact circuitStep_inv h hstep
  | notifyIfConnectedToTorNetwork =>
      cases hstep
      refine h.listeners s.circuits _ fun hpending => h.of_pending ?_
      simpa [onPending, NotifyPoint.pending] using hpending
  | notify i throws => exact notifyStep_inv h hok hstep

/-- In every orderly run the status agrees with the process in every quiescent
state. -/
theorem status_agrees {hist : List Action} {s : State}
    (hrun : Run step (fun s a => orderly s a = true) State.init hist s) : StatusAgrees s :=
  (Run.invariant (I := fun _ s => StatusInv s) statusInv_init
    (fun _ _ _ _ h hok hs => step_statusInv h hok hs) hrun).statusAgrees

/-- Tor is started, a circuit is built, and Tor is stopped. -/
def startedAndStopped : List Action :=
  [.callStartTor, .enterStartTor, .startTor false, .startTor false, .startTor false,
    .startTor false, .startTor false, .startTor false, .circuitStatus "BUILT", .circuit 0,
    .circuit 0, .startTor false, .stopTorAsync, .stopTor 0 false, .stopTor 0 false,
    .stopTor 0 false]

theorem status_agrees_startedAndStopped :
    ∃ s, Quiescent s ∧ s.status = .off ∧ StatusAgrees s := by
  let final : State :=
    { State.init with stops := [.ended], circuits := [.ended] }
  have hrun : Run step (fun s a => orderly s a = true) State.init
      startedAndStopped.reverse final := run_of_execute (by decide)
  exact ⟨final, ⟨rfl, rfl, by simp [final], by simp [final], by simp [final, State.init]⟩,
    rfl, status_agrees hrun⟩

/-- The manager's `stop` throws, yet the status is set to off. -/
def stopThrows : List Action :=
  [.callStartTor, .enterStartTor, .startTor false, .startTor false, .startTor false,
    .startTor false, .startTor false, .startTor false, .startTor false, .stopTorAsync,
    .stopTor 0 false, .stopTor 0 true, .stopTor 0 false]

/-- A circuit event passes its test, Tor is stopped, then the event sets the
status to on. -/
def stoppedBeforeOn : List Action :=
  [.callStartTor, .enterStartTor, .startTor false, .startTor false, .startTor false,
    .startTor false, .startTor false, .startTor false, .startTor false,
    .circuitStatus "BUILT", .circuit 0, .stopTorAsync, .stopTor 0 false, .stopTor 0 false,
    .stopTor 0 false, .circuit 0]

theorem status_disagrees :
    (∃ s, Run step Always State.init stopThrows.reverse s ∧ Quiescent s ∧
      s.status = .off ∧ s.running = true ∧ ¬ StatusAgrees s) ∧
    ∃ s, Run step Always State.init stoppedBeforeOn.reverse s ∧ Quiescent s ∧
      s.status = .on ∧ s.running = false ∧ ¬ StatusAgrees s := by
  constructor
  · let final : State := { State.init with running := true, stops := [.ended] }
    have hquiet : Quiescent final :=
      ⟨rfl, rfl, by simp [final], by simp [final, State.init], by simp [final, State.init]⟩
    exact ⟨final, run_of_execute (by decide), hquiet, rfl, rfl, fun h =>
      absurd ((h hquiet).1 rfl) (by decide)⟩
  · let final : State :=
      { State.init with status := .on, stops := [.ended], circuits := [.ended] }
    have hquiet : Quiescent final :=
      ⟨rfl, rfl, by simp [final], by simp [final], by simp [final, State.init]⟩
    exact ⟨final, run_of_execute (by decide), hquiet, rfl, rfl, fun h =>
      absurd ((h hquiet).2 rfl) (by decide)⟩

end TorAndroid.Tor.StatusAgreement
