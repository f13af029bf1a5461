import TorAndroid.Vpn.Manager

namespace TorAndroid.Vpn.Moves

open TorAndroid.Lib.ThreadPool
open TorAndroid.Vpn.Manager

/-- The steps of a VPN thread at `p` that change no shared field, with the
point it moves to. -/
inductive LocalStep (s : State) : Outcome → VpnPoint → VpnPoint → Prop
  | begin : LocalStep s .ok .begin (if s.isRestart then .sleeping else .startDNS)
  | wake : LocalStep s .ok .sleeping .startDNS
  | dnsStarted : LocalStep s .ok .startDNS .configure
  | configured : LocalStep s .ok .configure .establish
  | notPrepared : LocalStep s .null .establish (.checkOld none)
  | checked (new : Option Nat) :
      LocalStep s .ok (.checkOld new)
        (if s.mInterface.isSome then .closeOld new else .assign new)
  | oldVanished (new : Option Nat) (hm : s.mInterface = none) :
      LocalStep s .ok (.closeOld new) .ended
  | called : LocalStep s .ok .callStart (.enterStart s.mInterface)
  | nothingToRun : LocalStep s .ok (.enterStart none) .reset
  | rejected (j : Nat) (hj : s.interfaces[j]? ≠ some .held) :
      LocalStep s .ok (.enterStart (some j)) .ended
  | thrown {p : VpnPoint} (hp : p.mayThrow = true) : LocalStep s .throws p .ended

/-- Everything a step of the `i`-th VPN thread can do. -/
inductive VpnMove (s : State) (i : Nat) : Outcome → State → Prop
  | stay {o : Outcome} {p q : VpnPoint} (hp : s.threads[i]? = some p)
      (hq : LocalStep s o p q) : VpnMove s i o (s.goto i q)
  | opened (hp : s.threads[i]? = some .establish) :
      VpnMove s i .ok ({ s with interfaces := s.interfaces ++ [Descriptor.held] }.goto i
        (.checkOld (some s.interfaces.length)))
  | closedOld {new : Option Nat} {j : Nat} (hp : s.threads[i]? = some (.closeOld new))
      (hm : s.mInterface = some j) :
      VpnMove s i .ok ((s.closeInterface j).goto i (.clearOld new))
  | cleared {new : Option Nat} (hp : s.threads[i]? = some (.clearOld new)) :
      VpnMove s i .ok ({ s with mInterface := none }.goto i (.assign new))
  | assigned {new : Option Nat} (hp : s.threads[i]? = some (.assign new)) :
      VpnMove s i .ok ({ s with mInterface := new }.goto i .callStart)
  | entered {j : Nat} (hp : s.threads[i]? = some (.enterStart (some j)))
      (hj : s.interfaces[j]? = some .held) :
      VpnMove s i .ok ({ s with interfaces := s.interfaces.set j .detached }.goto i
        (.inStart j))
  | finished (hp : s.threads[i]? = some .reset) :
      VpnMove s i .ok ({ s with isRestart := false }.goto i .ended)

theorem vpnStep_move {s s' : State} {i : Nat} {o : Outcome}
    (h : vpnStep s i o = some s') : VpnMove s i o s' := by
  cases o with
  | throws =>
      simp only [vpnStep] at h
      split at h
      · rename_i p hp
        split at h
        · rename_i hthrow
          cases h
          exact .stay hp (.thrown hthrow)
        · cases h
      · cases h
  | null =>
      simp only [vpnStep] at h
      split at h
      · rename_i hp
        cases h
        exact .stay hp .notPrepared
      · cases h
  | ok =>
      simp only [vpnStep] at h
      split at h
      · rename_i hp
        cases h
        exact .stay hp .begin
      · rename_i hp
        cases h
        exact .stay hp .wake
      · rename_i hp
        cases h
        exact .stay hp .dnsStarted
      · rename_i hp
        cases h
        exact .stay hp .configured
      · rename_i hp
        cases h
        exact .opened hp
      · rename_i new hp
        cases h
        exact .stay hp (.checked new)
      · rename_i new hp
        split at h
        · rename_i j hm
          cases h
          exact .closedOld hp hm
        · rename_i hm
          cases h
          exact .stay hp (.oldVanished new hm)
      · rename_i new hp
        cases h
        exact .cleared hp
      · rename_i new hp
        cases h
        exact .assigned hp
      · rename_i hp
        cases h
        exact .stay hp .called
      · rename_i hp
        cases h
        exact .stay hp .nothingToRun
      · rename_i j hp
        split at h
        · rename_i hj
          cases h
          exact .entered hp hj
        · rename_i hj
          cases h
          exact .stay hp (.rejected j hj)
      · rename_i hp
        cases h
        exact .finished hp
      · cases h
      · cases h
      · cases h

/-- The fields of the tunnel: all but those of the SOCKS bypass. -/
structure SameTunnel (s s' : State) : Prop where
  mInterface : s'.mInterface = s.mInterface
  isRestart : s'.isRestart = s.isRestart
  mThreadVPN : s'.mThreadVPN = s.mThreadVPN
  threads : s'.threads = s.threads
  interfaces : s'.interfaces = s.interfaces

theorem SameTunnel.refl (s : State) : SameTunnel s s := ⟨rfl, rfl, rfl, rfl, rfl⟩

theorem SameTunnel.trans {s t u : State} (hst : SameTunnel s t)
    (htu : SameTunnel t u) : SameTunnel s u where
  mInterface := htu.mInterface.trans hst.mInterface
  isRestart := htu.isRestart.trans hst.isRestart
  mThreadVPN := htu.mThreadVPN.trans hst.mThreadVPN
  threads := htu.threads.trans hst.threads
  interfaces := htu.interfaces.trans hst.interfaces

theorem sameTunnel_stopSocksBypass (s : State) : SameTunnel s (stopSocksBypass s) := by
  unfold stopSocksBypass
  split
  · unfold State.stopServer
    split <;> exact ⟨rfl, rfl, rfl, rfl, rfl⟩
  · exact .refl s

theorem sameTunnel_startSocksBypass (s : State) : SameTunnel s (startSocksBypass s) :=
  ⟨rfl, rfl, rfl, rfl, rfl⟩

theorem sameTunnel_bypassStep {s s' : State} {i : Nat} {random : Fin 1000} {o : Outcome}
    (h : bypassStep s i random o = some s') : SameTunnel s s' := by
  cases o with
  | ok =>
      simp only [bypassStep] at h
      split at h
      · cases h
        exact ⟨rfl, rfl, rfl, rfl, rfl⟩
      · cases h
        exact (sameTunnel_stopSocksBypass s).trans ⟨rfl, rfl, rfl, rfl, rfl⟩
      · cases h
        exact ⟨rfl, rfl, rfl, rfl, rfl⟩
      · split at h <;> cases h <;> exact ⟨rfl, rfl, rfl, rfl, rfl⟩
      · cases h
        exact ⟨rfl, rfl, rfl, rfl, rfl⟩
      · cases h
        exact .refl s
      · cases h
      · cases h
  | null => cases h
  | throws =>
      simp only [bypassStep] at h
      split at h <;> cases h <;> exact ⟨rfl, rfl, rfl, rfl, rfl⟩

theorem SameTunnel.tun2SocksStop {s t : State} (h : SameTunnel s t) :
    SameTunnel (tun2SocksStop s) (tun2SocksStop t) where
  mInterface := h.mInterface
  isRestart := h.isRestart
  mThreadVPN := h.mThreadVPN
  threads := congrArg (List.map VpnPoint.terminate) h.threads
  interfaces := congrArg (List.map Descriptor.terminate) h.interfaces

theorem SameTunnel.closeInterface {s t : State} (h : SameTunnel s t) (j : Nat) :
    SameTunnel (s.closeInterface j) (t.closeInterface j) := by
  unfold State.closeInterface
  rw [h.interfaces]
  split
  · exact ⟨h.mInterface, h.isRestart, h.mThreadVPN, h.threads, rfl⟩
  · exact h

theorem SameTunnel.destroyInterface {s t : State} (h : SameTunnel s t)
    (closeThrows : Bool) :
    SameTunnel (destroyInterface s closeThrows) (destroyInterface t closeThrows) := by
  unfold Manager.destroyInterface
  rw [h.mInterface]
  split
  · split
    · exact h
    · rename_i j _ _
      have hclosed := h.closeInterface j
      exact ⟨rfl, hclosed.isRestart, hclosed.mThreadVPN, hclosed.threads,
        hclosed.interfaces⟩
  · exact h

/-- What `stopVPN` does to the tunnel, whatever the platform. -/
theorem stopVPN_tunnel (mIsLollipop : Bool) (s : State) (closeThrows : Bool) :
    SameTunnel
      { tun2SocksStop (destroyInterface s closeThrows) with mThreadVPN := none }
      (stopVPN mIsLollipop s closeThrows) := by
  have hbypass : SameTunnel s (if mIsLollipop then stopSocksBypass s else s) := by
    split
    · exact sameTunnel_stopSocksBypass s
    · exact .refl s
  have hstopped := (hbypass.destroyInterface closeThrows).tun2SocksStop
  exact ⟨hstopped.mInterface, hstopped.isRestart, rfl, hstopped.threads,
    hstopped.interfaces⟩

theorem closeInterface_threads (s : State) (j : Nat) :
    (s.closeInterface j).threads = s.threads := by
  unfold State.closeInterface
  split <;> rfl

theorem closeInterface_eq (s : State) (j : Nat) :
    s.closeInterface j = { s with interfaces := (s.closeInterface j).interfaces } := by
  unfold State.closeInterface
  split <;> rfl

theorem held_of_closeInterface {s : State} {j k : Nat}
    (h : (s.closeInterface j).interfaces[k]? = some .held) :
    k ≠ j ∧ s.interfaces[k]? = some .held := by
  unfold State.closeInterface at h
  split at h
  · rcases getElem?_set_inv h with ⟨-, hclosed⟩ | hother
    · cases hclosed
    · exact hother
  · rename_i hnot
    refine ⟨?_, h⟩
    rintro rfl
    exact hnot h

theorem detached_closeInterface_iff (s : State) (j k : Nat) :
    (s.closeInterface j).interfaces[k]? = some .detached ↔
      s.interfaces[k]? = some .detached := by
  unfold State.closeInterface
  split
  · rename_i hj
    constructor
    · intro h
      rcases getElem?_set_inv h with ⟨-, hclosed⟩ | ⟨-, h⟩
      · cases hclosed
      · exact h
    · intro h
      have hne : k ≠ j := by
        rintro rfl
        rw [hj] at h
        cases h
      exact getElem?_set_other hne h
  · rfl

theorem destroyInterface_threads (s : State) (closeThrows : Bool) :
    (destroyInterface s closeThrows).threads = s.threads := by
  unfold destroyInterface
  split
  · split
    · rfl
    · exact closeInterface_threads s _
  · rfl

theorem destroyInterface_isRestart (s : State) (closeThrows : Bool) :
    (destroyInterface s closeThrows).isRestart = s.isRestart := by
  unfold destroyInterface
  split
  · split
    · rfl
    · unfold State.closeInterface
      split <;> rfl
  · rfl

/-- A descriptor still held after `stopVPN` was held before, and the recorded
interface is still held only if closing it threw. -/
theorem held_of_destroyInterface {s : State} {closeThrows : Bool} {j : Nat}
    (h : (destroyInterface s closeThrows).interfaces[j]? = some .held) :
    s.interfaces[j]? = some .held ∧
      (s.mInterface = some j → (destroyInterface s closeThrows).mInterface = some j) := by
  cases hm : s.mInterface with
  | none =>
      simp only [destroyInterface, hm] at h
      exact ⟨h, nofun⟩
  | some k =>
      cases closeThrows with
      | true =>
          simp only [destroyInterface, hm, if_true] at h
          exact ⟨h, fun heq => by simpa [destroyInterface, hm] using heq⟩
      | false =>
          simp only [destroyInterface, hm] at h
          obtain ⟨hne, hheld⟩ := held_of_closeInterface h
          exact ⟨hheld, fun heq => absurd (Option.some.inj heq).symm hne⟩

theorem stopVPN_threads (mIsLollipop : Bool) (s : State) (closeThrows : Bool) :
    (stopVPN mIsLollipop s closeThrows).threads = s.threads.map VpnPoint.terminate := by
  rw [(stopVPN_tunnel mIsLollipop s closeThrows).threads]
  simp only [tun2SocksStop, destroyInterface_threads]

theorem stopVPN_isRestart (mIsLollipop : Bool) (s : State) (closeThrows : Bool) :
    (stopVPN mIsLollipop s closeThrows).isRestart = s.isRestart := by
  rw [(stopVPN_tunnel mIsLollipop s closeThrows).isRestart]
  exact destroyInterface_isRestart s closeThrows

def beforeSetup (mIsLollipop : Bool) (s : State) : State :=
  if mIsLollipop then s else startSocksBypass s

theorem sameTunnel_beforeSetup (mIsLollipop : Bool) (s : State) :
    SameTunnel s (beforeSetup mIsLollipop s) := by
  unfold beforeSetup
  split
  · exact .refl s
  · exact sameTunnel_startSocksBypass s

def setsUp (s : State) : Action → Bool
  | .start => !hasLiveSession s
  | .refresh => !s.isRestart
  | _ => false

def runsStopVPN (s : State) : Action → Bool
  | .stop _ => true
  | .onRevoke _ => !s.isRestart
  | _ => false

theorem handleStart_eq (mIsLollipop : Bool) (s : State) :
    handleStart mIsLollipop s =
      if setsUp s .start then setupTun2Socks (beforeSetup mIsLollipop s) else s := by
  unfold handleStart setsUp beforeSetup
  cases hasLiveSession s <;> simp

theorem handleRefresh_eq (mIsLollipop : Bool) (s : State) :
    handleRefresh mIsLollipop s =
      if setsUp s .refresh then setupTun2Socks (beforeSetup mIsLollipop s)
      else beforeSetup mIsLollipop s := by
  have hflag : (beforeSetup mIsLollipop s).isRestart = s.isRestart :=
    (sameTunnel_beforeSetup mIsLollipop s).isRestart
  unfold handleRefresh setsUp
  change (if (beforeSetup mIsLollipop s).isRestart then _ else _) = _
  rw [hflag]
  cases s.isRestart <;> simp [beforeSetup]

theorem stopPrevious_servers (s : State) : (stopPrevious s).servers = s.servers := by
  unfold stopPrevious
  split <;> rfl

theorem beforeSetup_servers (mIsLollipop : Bool) (s : State) :
    (beforeSetup mIsLollipop s).servers = s.servers := by
  unfold beforeSetup
  split <;> rfl

theorem destroyInterface_servers (s : State) (closeThrows : Bool) :
    (destroyInterface s closeThrows).servers = s.servers := by
  unfold destroyInterface
  split
  · split
    · rfl
    · rw [closeInterface_eq]
  · rfl

theorem stopPrevious_threads (s : State) :
    (stopPrevious s).threads =
      if s.mInterface.isSome then s.threads.map VpnPoint.terminate else s.threads := by
  unfold stopPrevious
  cases s.mInterface <;> rfl

theorem terminate_eq_ended_iff (p : VpnPoint) : p.terminate = .ended ↔ p = .ended := by
  cases p <;> simp [VpnPoint.terminate]

end TorAndroid.Vpn.Moves
