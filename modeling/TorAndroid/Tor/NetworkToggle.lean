import TorAndroid.Lib.GuardedRun

/-!
How `TorService` lets Tor follow the connectivity of the device. Each broadcast, and
each `startTor` on a running Tor, starts a thread of its own that calls
`disableNetwork` once; the threads are not ordered.
-/

namespace TorAndroid.Tor.NetworkToggle

open TorAndroid.Lib.GuardedRun

inductive Source
  | broadcast
  | startTor
deriving DecidableEq, Repr

/-- What `onReceive` finds when a broadcast comes: whether the status is off, the
active network if there is a `ConnectivityManager` (connected or not, if there is a
network), the preference, and the status as it is read again. -/
structure Broadcast where
  isOff : Bool
  cm : Option (Option Bool)
  disableNetwork : Bool
  isOffAgain : Bool
deriving DecidableEq, Repr

structure State where
  mConnectivity : Bool
  -- The value each thread passes, in the order the threads were started.
  requested : List Bool
  -- The threads that have called `disableNetwork`, in the order of their calls.
  calls : List Nat
  -- The last event that started a thread.
  lastEvent : Option Source
deriving DecidableEq, Repr

def State.init : State := ⟨true, [], [], none⟩

def setTorNetworkEnabledAsync (s : State) (source : Source) (isEnabled : Bool) : State :=
  { s with requested := s.requested ++ [isEnabled], lastEvent := some source }

/-- `mNetworkStateReceiver.onReceive`. -/
def onReceive (s : State) (b : Broadcast) : State :=
  if b.isOff then s
  else
    match b.cm with
    | none => s
    | some netInfo =>
        let s := { s with mConnectivity := netInfo = some true }
        if b.disableNetwork = true ∧ b.isOffAgain = false then
          setTorNetworkEnabledAsync s .broadcast s.mConnectivity
        else s

/-- `startTor`, as far as it concerns the network of a running Tor. -/
def startTor (s : State) (isStopping isOn hasPid : Bool) : State :=
  if isStopping then s
  else if isOn ∧ hasPid then setTorNetworkEnabledAsync s .startTor true
  else s

inductive Action
  | broadcast (b : Broadcast)
  | startTor (isStopping isOn hasPid : Bool)
  -- The thread calls `disableNetwork` and ends.
  | run (thread : Nat)
deriving DecidableEq, Repr

def step (s : State) : Action → Option State
  | .broadcast b => some (onReceive s b)
  | .startTor isStopping isOn hasPid => some (startTor s isStopping isOn hasPid)
  | .run thread =>
      if thread < s.requested.length ∧ thread ∉ s.calls then
        some { s with calls := s.calls ++ [thread] }
      else none

/-- The events are broadcasts while Tor is not off, with the preference set, and
`startTor` on a running Tor. -/
def Concerned (_ : State) : Action → Prop
  | .broadcast b => b.isOff = false ∧ b.disableNetwork = true ∧ b.isOffAgain = false
  | .startTor isStopping isOn hasPid => isStopping = false ∧ isOn = true ∧ hasPid = true
  | .run _ => True

instance (s : State) (a : Action) : Decidable (Concerned s a) := by
  cases a <;> unfold Concerned <;> infer_instance

/-- A thread does not call after the thread of a later event that asked for another
value. -/
def NotOvertaken (s : State) : Action → Prop
  | .run thread => ∀ later ∈ s.calls, thread < later → s.requested[later]? = s.requested[thread]?
  | _ => True

instance (s : State) (a : Action) : Decidable (NotOvertaken s a) := by
  cases a <;> unfold NotOvertaken <;> infer_instance

/-- The last value passed to `disableNetwork` is the one the last event asked for,
and the connectivity if that event was a broadcast. -/
def FollowsLastEvent (s : State) : Prop :=
  (s.calls.getLast?.bind fun thread => s.requested[thread]?) = s.requested.getLast? ∧
    (s.lastEvent = some .broadcast → s.requested.getLast? = some s.mConnectivity)

def AllFinished (s : State) : Prop := ∀ thread < s.requested.length, thread ∈ s.calls

/-- The threads that have called exist, the last one to call was not overtaken, and
the last broadcast asked for the connectivity it found. -/
structure Inv (s : State) : Prop where
  started : ∀ thread ∈ s.calls, thread < s.requested.length
  last : ∀ thread ∈ s.calls.getLast?, ∀ later ∈ s.calls, thread < later →
    s.requested[later]? = s.requested[thread]?
  connectivity : s.lastEvent = some .broadcast → s.requested.getLast? = some s.mConnectivity

theorem Inv.init : Inv State.init := by
  constructor <;> simp [State.init]

theorem Inv.setTorNetworkEnabledAsync {s : State} (h : Inv s) (source : Source) (isEnabled : Bool)
    (hsource : source = .broadcast → isEnabled = s.mConnectivity) :
    Inv (setTorNetworkEnabledAsync s source isEnabled) := by
  have hold : ∀ thread ∈ s.calls, (s.requested ++ [isEnabled])[thread]? = s.requested[thread]? := by
    intro thread hthread
    exact List.getElem?_append_left (h.started thread hthread)
  refine ⟨?_, ?_, ?_⟩
  · intro thread hthread
    have hlt := h.started thread hthread
    simp only [NetworkToggle.setTorNetworkEnabledAsync, List.length_append, List.length_cons,
      List.length_nil]
    omega
  · intro thread hthread later hlater hlt
    have hmem : thread ∈ s.calls := List.mem_of_getLast? hthread
    simp only [NetworkToggle.setTorNetworkEnabledAsync]
    rw [hold later hlater, hold thread hmem]
    exact h.last thread hthread later hlater hlt
  · intro hbroadcast
    simp only [NetworkToggle.setTorNetworkEnabledAsync, Option.some.injEq] at hbroadcast
    simp [NetworkToggle.setTorNetworkEnabledAsync, hsource hbroadcast]

theorem Inv.onReceive {s : State} (h : Inv s) {b : Broadcast}
    (hb : b.isOff = false ∧ b.disableNetwork = true ∧ b.isOffAgain = false) :
    Inv (onReceive s b) := by
  obtain ⟨hoff, hpref, hagain⟩ := hb
  unfold NetworkToggle.onReceive
  simp only [hoff, Bool.false_eq_true, if_false, hpref, hagain, and_self, if_true]
  split
  · exact h
  · -- the request is for the value just stored, whatever was stored before
    rename_i netInfo hcm
    have hstored : Inv { s with mConnectivity := netInfo = some true, lastEvent := none } :=
      ⟨h.started, h.last, fun hlast => by cases hlast⟩
    exact hstored.setTorNetworkEnabledAsync .broadcast _ fun _ => rfl

theorem Inv.startTor {s : State} (h : Inv s) (isStopping isOn hasPid : Bool) :
    Inv (startTor s isStopping isOn hasPid) := by
  unfold NetworkToggle.startTor
  split
  · exact h
  · split
    · apply h.setTorNetworkEnabledAsync
      intro hsource
      cases hsource
    · exact h

theorem Inv.run {s : State} (h : Inv s) {thread : Nat} (hstarted : thread < s.requested.length)
    (hturn : NotOvertaken s (.run thread)) : Inv { s with calls := s.calls ++ [thread] } := by
  refine ⟨?_, ?_, h.connectivity⟩
  · intro other hother
    rcases List.mem_append.mp hother with hother | hother
    · exact h.started other hother
    · rw [List.mem_singleton.mp hother]
      exact hstarted
  · intro last hlast later hlater hlt
    simp only [List.getLast?_append, List.getLast?_singleton, Option.some_or,
      Option.mem_some_iff] at hlast
    subst hlast
    rcases List.mem_append.mp hlater with hlater | hlater
    · exact hturn later hlater hlt
    · rw [List.mem_singleton.mp hlater] at hlt
      omega

theorem Inv.step {s s' : State} {a : Action} (h : Inv s) (hconcerned : Concerned s a)
    (hturn : NotOvertaken s a) (hstep : step s a = some s') : Inv s' := by
  cases a with
  | broadcast b =>
      cases hstep
      exact h.onReceive hconcerned
  | startTor isStopping isOn hasPid =>
      cases hstep
      exact h.startTor isStopping isOn hasPid
  | run thread =>
      simp only [NetworkToggle.step] at hstep
      split at hstep
      · rename_i hready
        cases hstep
        exact h.run hready.1 hturn
      · cases hstep

/-- Once all threads have called, the last call passes what the last event asked
for. -/
theorem Inv.followsLastEvent {s : State} (h : Inv s) (hfinished : AllFinished s) :
    FollowsLastEvent s := by
  refine ⟨?_, h.connectivity⟩
  rcases hrequested : s.requested.length with _ | n
  · have hnone : s.requested = [] := List.eq_nil_of_length_eq_zero hrequested
    have hcalls : s.calls = [] := by
      apply List.eq_nil_iff_forall_not_mem.mpr
      intro thread hthread
      have hlt := h.started thread hthread
      omega
    simp [hnone, hcalls]
  · have hn : n ∈ s.calls := hfinished n (by omega)
    obtain ⟨last, hlast⟩ : ∃ last, s.calls.getLast? = some last := by
      rcases hget : s.calls.getLast? with _ | last
      · rw [List.getLast?_eq_none_iff.mp hget] at hn
        cases hn
      · exact ⟨last, rfl⟩
    have hstarted := h.started last (List.mem_of_getLast? hlast)
    have hlastValue : s.requested.getLast? = s.requested[n]? := by
      rw [List.getLast?_eq_getElem?, hrequested]
      rfl
    rw [hlast, hlastValue]
    rcases Nat.lt_or_ge last n with hlt | hge
    · exact (h.last last hlast n hn hlt).symm
    · have heq : last = n := by omega
      rw [heq]
      rfl

/-- The network follows the last event in every run in which no thread calls after
the thread of a later event that asked for another value. -/
theorem network_follows_last_event {hist : List Action} {s : State}
    (hrun : Run step (fun s a => Concerned s a ∧ NotOvertaken s a) .init hist s)
    (hfinished : AllFinished s) : FollowsLastEvent s := by
  have hinv : Inv s := by
    refine hrun.invariant (I := fun _ s => Inv s) Inv.init ?_
    intro hist s a s' hinv hok hstep
    exact hinv.step hok.1 hok.2 hstep
  exact hinv.followsLastEvent hfinished

/-- A broadcast that finds the network connected or not, while Tor runs. -/
def found (connected : Bool) : Broadcast := ⟨false, some (some connected), true, false⟩

theorem network_follows_two_broadcasts :
    FollowsLastEvent ⟨true, [false, true], [0, 1], some .broadcast⟩ :=
  network_follows_last_event
    (run_of_execute
      (show execute step (fun s a => Concerned s a ∧ NotOvertaken s a) .init
        [.broadcast (found false), .run 0, .broadcast (found true), .run 1] =
          some ⟨true, [false, true], [0, 1], some .broadcast⟩ by decide))
    (by unfold AllFinished; decide)

theorem network_overtaken :
    ∃ hist s, Run step Concerned .init hist s ∧ AllFinished s ∧ ¬ FollowsLastEvent s := by
  refine ⟨_, ⟨true, [false, true], [1, 0], some .broadcast⟩, run_of_execute
    (show execute step Concerned .init
      [.broadcast (found false), .broadcast (found true), .run 1, .run 0] =
        some ⟨true, [false, true], [1, 0], some .broadcast⟩ by decide), ?_, ?_⟩
  · unfold AllFinished
    decide
  · unfold FollowsLastEvent
    decide

end TorAndroid.Tor.NetworkToggle
