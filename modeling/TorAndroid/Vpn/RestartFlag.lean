import TorAndroid.Vpn.Moves

namespace TorAndroid.Vpn.RestartFlag

open TorAndroid.Lib.GuardedRun
open TorAndroid.Lib.ThreadPool
open TorAndroid.Vpn.Manager
open TorAndroid.Vpn.Moves

def HasLiveThread (s : State) : Prop :=
  ∃ (i : Nat) (p : VpnPoint), s.threads[i]? = some p ∧ p ≠ .ended

/-- The step ends a thread at `p` by an exception: its external call throws,
the interface it closes is gone, or `detachFd` rejects the descriptor. -/
def endsByException (s : State) (p : VpnPoint) : Outcome → Bool
  | .throws => p.mayThrow
  | .ok =>
      match p with
      | .closeOld _ => s.mInterface.isNone
      | .enterStart (some j) => s.interfaces[j]? != some .held
      | _ => false
  | .null => false

/-- No thread but the `i`-th is alive. -/
def onlyLive (s : State) (i : Nat) : Bool :=
  (List.range s.threads.length).all fun k => k == i || !s.isAlive k

/-- The step does not end the only live VPN thread by an exception while
`isRestart` is set. -/
def keepsFlag (s : State) : Action → Bool
  | .vpn i o =>
      match s.threads[i]? with
      | some p => !(s.isRestart && onlyLive s i && endsByException s p o)
      | none => true
  | _ => true

/-- With no live VPN thread the flag is clear, so a refresh sets up a session
and a revocation stops the VPN. -/
def FlagCleared (mIsLollipop : Bool) (s : State) : Prop :=
  ¬ HasLiveThread s →
    s.isRestart = false ∧
    handleRefresh mIsLollipop s =
      setupTun2Socks (if mIsLollipop then s else startSocksBypass s) ∧
    ∀ closeThrows, onRevoke mIsLollipop s closeThrows =
      { stopVPN mIsLollipop s closeThrows with isRestart := false }

theorem flagCleared_iff (mIsLollipop : Bool) (s : State) :
    FlagCleared mIsLollipop s ↔ (s.isRestart = true → HasLiveThread s) := by
  constructor
  · intro h hset
    by_contra hnone
    have hclear := (h hnone).1
    rw [hset] at hclear
    cases hclear
  · intro h hnone
    have hclear : s.isRestart = false := by
      cases hflag : s.isRestart with
      | false => rfl
      | true => exact absurd (h hflag) hnone
    refine ⟨hclear, ?_, ?_⟩
    · rw [handleRefresh_eq]
      simp [setsUp, hclear, beforeSetup]
    · intro closeThrows
      simp [onRevoke, hclear]

theorem isAlive_iff (s : State) (i : Nat) :
    s.isAlive i = true ↔ ∃ p, s.threads[i]? = some p ∧ p ≠ .ended := by
  unfold State.isAlive
  cases hp : s.threads[i]? with
  | none => simp
  | some p => cases p <;> simp

theorem onlyLive_iff (s : State) (i : Nat) :
    onlyLive s i = true ↔
      ∀ k p, s.threads[k]? = some p → p ≠ .ended → k = i := by
  simp only [onlyLive, List.all_eq_true, List.mem_range, Bool.or_eq_true, beq_iff_eq]
  constructor
  · intro h k p hp hlive
    rcases h k (List.getElem?_eq_some_iff.mp hp).1 with heq | hdead
    · exact heq
    · have halive := (isAlive_iff s k).mpr ⟨p, hp, hlive⟩
      simp [halive] at hdead
  · intro h k _
    by_cases halive : s.isAlive k = true
    · obtain ⟨p, hp, hlive⟩ := (isAlive_iff s k).mp halive
      exact .inl (h k p hp hlive)
    · exact .inr (by simpa using halive)

theorem hasLiveThread_terminate {s s' : State}
    (hthreads : s'.threads = s.threads.map VpnPoint.terminate) (h : HasLiveThread s) :
    HasLiveThread s' := by
  obtain ⟨i, p, hp, hlive⟩ := h
  refine ⟨i, p.terminate, ?_, fun hended => hlive ((terminate_eq_ended_iff p).mp hended)⟩
  rw [hthreads, List.getElem?_map, hp]
  rfl

theorem hasLiveThread_setup (s : State) : HasLiveThread (setupTun2Socks s) := by
  refine ⟨(stopPrevious s).threads.length, .begin, ?_, nofun⟩
  simp [setupTun2Socks]

theorem hasLiveThread_goto {s : State} {i : Nat} {p q : VpnPoint}
    (hp : s.threads[i]? = some p) (hq : q ≠ .ended) : HasLiveThread (s.goto i q) :=
  ⟨i, q, getElem?_set_moved hp, hq⟩

theorem localStep_ended {s : State} {o : Outcome} {p q : VpnPoint}
    (h : LocalStep s o p q) : q ≠ .ended ∨ endsByException s p o = true := by
  cases h with
  | begin => split <;> exact .inl nofun
  | wake => exact .inl nofun
  | dnsStarted => exact .inl nofun
  | configured => exact .inl nofun
  | notPrepared => exact .inl nofun
  | checked new => split <;> exact .inl nofun
  | oldVanished new hm => exact .inr (by simp [endsByException, hm])
  | called => exact .inl nofun
  | nothingToRun => exact .inl nofun
  | rejected j hj => exact .inr (by simpa [endsByException] using hj)
  | thrown hp => exact .inr hp

/-- One step that meets the condition keeps the flag tied to a live thread. -/
theorem step_keeps {mIsLollipop : Bool} {s s' : State} {a : Action}
    (hinv : s.isRestart = true → HasLiveThread s) (hok : keepsFlag s a = true)
    (hstep : step mIsLollipop s a = some s') :
    s'.isRestart = true → HasLiveThread s' := by
  intro hset
  cases a with
  | start =>
      cases hstep
      rw [handleStart_eq] at hset ⊢
      split
      · exact hasLiveThread_setup _
      · rename_i hidle
        rw [if_neg hidle] at hset
        exact hinv hset
  | stop closeThrows =>
      cases hstep
      rw [stopVPN_isRestart] at hset
      exact hasLiveThread_terminate (stopVPN_threads mIsLollipop s closeThrows) (hinv hset)
  | refresh =>
      cases hstep
      rw [handleRefresh_eq] at hset ⊢
      split
      · exact hasLiveThread_setup _
      · rename_i hidle
        rw [if_neg hidle, (sameTunnel_beforeSetup mIsLollipop s).isRestart] at hset
        unfold HasLiveThread
        rw [(sameTunnel_beforeSetup mIsLollipop s).threads]
        exact hinv hset
  | onRevoke closeThrows =>
      cases hstep
      cases hset
  | bypass i random o =>
      have hsame := sameTunnel_bypassStep hstep
      rw [hsame.isRestart] at hset
      unfold HasLiveThread
      rw [hsame.threads]
      exact hinv hset
  | vpn i o =>
      have hmove := vpnStep_move hstep
      cases hmove with
      | opened hp => exact hasLiveThread_goto (s := { s with interfaces := _ }) hp nofun
      | closedOld hp _ =>
          rw [← closeInterface_threads s _] at hp
          exact hasLiveThread_goto hp nofun
      | cleared hp => exact hasLiveThread_goto (s := { s with mInterface := _ }) hp nofun
      | assigned hp => exact hasLiveThread_goto (s := { s with mInterface := _ }) hp nofun
      | entered hp _ => exact hasLiveThread_goto (s := { s with interfaces := _ }) hp nofun
      | finished hp => cases hset
      | stay hp hq =>
          rcases localStep_ended hq with hlive | hends
          · exact hasLiveThread_goto hp hlive
          · -- the exception is allowed only when another thread is alive
            simp only [keepsFlag, hp, hends, Bool.and_true, Bool.not_eq_true',
              Bool.and_eq_false_iff] at hok
            have hother : onlyLive s i = false := hok.resolve_left (by
              change s.isRestart = true at hset
              simp [hset])
            have hsome : ¬ ∀ k p, s.threads[k]? = some p → p ≠ .ended → k = i := by
              intro hall
              rw [(onlyLive_iff s i).mpr hall] at hother
              cases hother
            push Not at hsome
            obtain ⟨k, r, hr, hlive, hne⟩ := hsome
            exact ⟨k, r, getElem?_set_other hne hr, hlive⟩

/-- One step that violates the condition leaves the flag set with no live
thread. -/
theorem step_breaks {mIsLollipop : Bool} {s s' : State} {a : Action}
    (hstep : step mIsLollipop s a = some s') (hbad : ¬ keepsFlag s a = true) :
    s'.isRestart = true ∧ ¬ HasLiveThread s' := by
  cases a with
  | start | stop _ | refresh | onRevoke _ | bypass _ _ _ =>
      exact absurd rfl hbad
  | vpn i o =>
      have hmove := vpnStep_move hstep
      cases hmove with
      | opened hp | cleared hp | assigned hp | finished hp =>
          simp [keepsFlag, hp, endsByException] at hbad
      | closedOld hp hm => simp [keepsFlag, hp, endsByException, hm] at hbad
      | entered hp hj => simp [keepsFlag, hp, endsByException, hj] at hbad
      | @stay _ p q hp hq =>
          simp only [keepsFlag, hp, Bool.not_eq_true', Bool.not_eq_false,
            Bool.and_eq_true] at hbad
          obtain ⟨⟨hset, honly⟩, hends⟩ := hbad
          have hended : q = .ended := by
            cases hq with
            | thrown _ => rfl
            | oldVanished _ _ => rfl
            | rejected _ _ => rfl
            | _ => simp [endsByException] at hends
          subst hended
          refine ⟨hset, ?_⟩
          rintro ⟨k, r, hr, hlive⟩
          rcases getElem?_set_inv hr with ⟨-, rfl⟩ | ⟨hne, hr⟩
          · exact hlive rfl
          · exact hne ((onlyLive_iff s i).mp honly k r hr hlive)

/-- Every state a run visits has its flag cleared with no live VPN thread if
and only if no step of the run ends the only live VPN thread by an exception
while the flag is set. -/
theorem flag_cleared_iff (mIsLollipop : Bool) {hist : List Action} {s : State}
    (hrun : Run (step mIsLollipop) Always State.init hist s) :
    (∀ older t, older <:+ hist → Run (step mIsLollipop) Always State.init older t →
        FlagCleared mIsLollipop t) ↔
      Run (step mIsLollipop) (fun s a => keepsFlag s a = true) State.init hist s := by
  have hinit : State.init.isRestart = true → HasLiveThread State.init := nofun
  refine Run.visits_iff_guarded ((flagCleared_iff _ _).mpr hinit) ?_ ?_ hrun
  · intro older t a t' hguarded hok hstep
    have hinv := Run.invariant (I := fun _ s => s.isRestart = true → HasLiveThread s)
      hinit (fun _ _ _ _ hkeep hok hs => step_keeps hkeep hok hs) hguarded
    exact (flagCleared_iff _ _).mpr (step_keeps hinv hok hstep)
  · intro t a t' _ hstep hbad hcleared
    obtain ⟨hset, hnone⟩ := step_breaks hstep hbad
    exact hnone ((flagCleared_iff _ _).mp hcleared hset)

/-- A first session whose `startDNS` throws before any interface exists. -/
def failedFirstSession : List Action :=
  [.start, .vpn 0 .ok, .vpn 0 .throws]

theorem flag_cleared_after_failed_first_session :
    ∃ s, Run (step true) Always State.init failedFirstSession.reverse s ∧
      FlagCleared true s := by
  obtain ⟨s, hs⟩ : ∃ s, execute (step true) (fun s a => keepsFlag s a = true)
      State.init failedFirstSession = some s := by
    simp only [← Option.isSome_iff_exists]
    decide
  have hguarded := run_of_execute hs
  have hrun := hguarded.unguarded
  exact ⟨s, hrun, (flag_cleared_iff true hrun).mpr hguarded _ s (List.suffix_refl _) hrun⟩

/-- `Tun2Socks.Start` throws once the interface is recorded, the next start is
therefore a restart, and its own `startDNS` throws. -/
def failedRestart : List Action :=
  [.start, .vpn 0 .ok, .vpn 0 .ok, .vpn 0 .ok, .vpn 0 .ok, .vpn 0 .ok, .vpn 0 .ok,
    .vpn 0 .ok, .vpn 0 .throws, .start, .vpn 1 .ok, .vpn 1 .ok, .vpn 1 .throws]

theorem flag_left_set_after_failed_restart :
    ∃ s, Run (step true) Always State.init failedRestart.reverse s ∧
      ¬ HasLiveThread s ∧ s.isRestart = true ∧ handleRefresh true s = s ∧
      ¬ FlagCleared true s := by
  let final : State :=
    { State.init with
      mInterface := some 0
      isRestart := true
      mThreadVPN := some 1
      threads := [.ended, .ended]
      interfaces := [.held] }
  have hrun : Run (step true) Always State.init failedRestart.reverse final :=
    run_of_execute (by decide)
  have hdead : ¬ HasLiveThread final := by
    rintro ⟨i, p, hp, hlive⟩
    have hmem : p ∈ final.threads := List.mem_of_getElem? hp
    simp [final] at hmem
    exact hlive hmem
  exact ⟨final, hrun, hdead, rfl, rfl, fun hcleared =>
    hdead ((flagCleared_iff true final).mp hcleared rfl)⟩

end TorAndroid.Vpn.RestartFlag
