import TorAndroid.Vpn.Moves

namespace TorAndroid.Vpn.SingleStart

open TorAndroid.Lib.GuardedRun
open TorAndroid.Lib.ThreadPool
open TorAndroid.Vpn.Manager
open TorAndroid.Vpn.Moves

def approachesStart : VpnPoint → Bool
  | .inStart _ | .reset | .ended => false
  | _ => true

def beforeReturn : VpnPoint → Bool
  | .reset | .ended => false
  | _ => true

/-- A session is set up only once every earlier VPN thread has reached
`Tun2Socks.Start` or ended. -/
def setsUpAlone (s : State) (a : Action) : Bool :=
  !setsUp s a || s.threads.all fun p => !approachesStart p

def AtMostOneStart (s : State) : Prop :=
  ∀ i k a b : Nat, s.threads[i]? = some (.inStart a) →
    s.threads[k]? = some (.inStart b) → i = k

structure SingleInv (s : State) : Prop where
  unique : ∀ (i k : Nat) (p q : VpnPoint), s.threads[i]? = some p → s.threads[k]? = some q →
    beforeReturn p = true → beforeReturn q = true → i = k
  recorded : ∀ i j : Nat, s.threads[i]? = some (.inStart j) → s.mInterface.isSome = true
  entering : ∀ i j : Nat, s.threads[i]? = some (.enterStart (some j)) →
    s.interfaces[j]? = some .held → s.mInterface = some j

theorem SingleInv.atMostOneStart {s : State} (h : SingleInv s) : AtMostOneStart s :=
  fun i k _ _ hi hk => h.unique i k _ _ hi hk rfl rfl

theorem singleInv_init : SingleInv State.init :=
  ⟨fun _ _ _ _ hi => by simp [State.init] at hi,
    fun _ _ hi => by simp [State.init] at hi,
    fun _ _ hi => by simp [State.init] at hi⟩

theorem SingleInv.sameTunnel {s t : State} (h : SingleInv s) (hsame : SameTunnel s t) :
    SingleInv t := by
  obtain ⟨hm, -, -, hth, hi⟩ := hsame
  exact ⟨by rw [hth]; exact h.unique, by rw [hth, hm]; exact h.recorded,
    by rw [hth, hm, hi]; exact h.entering⟩

theorem SingleInv.goto {s : State} {i : Nat} {p q : VpnPoint} (h : SingleInv s)
    (hp : s.threads[i]? = some p) (hactive : beforeReturn p = true)
    (m : Option Nat) (ifaces : List Descriptor)
    (hin : ∀ j, q = .inStart j → m.isSome = true)
    (henter : ∀ j : Nat, q = .enterStart (some j) → ifaces[j]? = some .held → m = some j) :
    SingleInv ({ s with mInterface := m, interfaces := ifaces }.goto i q) := by
  have hmoved : ∀ {k : Nat} {r : VpnPoint},
      (s.threads.set i q)[k]? = some r → beforeReturn r = true → k = i ∧ r = q := by
    intro k r hr hactive'
    rcases getElem?_set_inv hr with hmoved | ⟨hne, hr⟩
    · exact hmoved
    · exact absurd (h.unique k i r p hr hp hactive' hactive) hne
  refine ⟨?_, ?_, ?_⟩
  · intro k l r t hr ht hractive htactive
    rw [(hmoved hr hractive).1, (hmoved ht htactive).1]
  · intro k j hk
    exact hin j (hmoved hk rfl).2.symm
  · intro k j hk
    exact henter j (hmoved hk rfl).2.symm

/-- After `Tun2Socks.Stop` no call is running, whatever becomes of the
recorded interface. -/
theorem SingleInv.terminate {s s' : State} (h : SingleInv s)
    (hthreads : s'.threads = s.threads.map VpnPoint.terminate)
    (henter : ∀ j : Nat, s'.interfaces[j]? = some .held → s.mInterface = some j →
      s'.mInterface = some j)
    (hheld : ∀ j : Nat, s'.interfaces[j]? = some .held → s.interfaces[j]? = some .held) :
    SingleInv s' := by
  have hback : ∀ {k : Nat} {r : VpnPoint}, s'.threads[k]? = some r →
      ∃ p, s.threads[k]? = some p ∧ p.terminate = r := by
    intro k r hr
    rw [hthreads] at hr
    exact getElem?_map_inv hr
  have hactive : ∀ p : VpnPoint, beforeReturn p.terminate = true → beforeReturn p = true := by
    intro p hp
    cases p <;> first | rfl | cases hp
  refine ⟨?_, ?_, ?_⟩
  · intro i k _ _ hi hk hia hka
    obtain ⟨p, hp, rfl⟩ := hback hi
    obtain ⟨q, hq, rfl⟩ := hback hk
    exact h.unique i k p q hp hq (hactive p hia) (hactive q hka)
  · intro i j hi
    obtain ⟨p, -, hp⟩ := hback hi
    cases p <;> cases hp
  · intro i j hi hj
    obtain ⟨p, hp, hterm⟩ := hback hi
    have hpoint : p = .enterStart (some j) := by
      cases p with
      | enterStart a => exact hterm
      | _ => cases hterm
    subst hpoint
    exact henter j hj (h.entering i j hp (hheld j hj))

theorem held_of_terminate {ds : List Descriptor} {j : Nat}
    (h : (ds.map Descriptor.terminate)[j]? = some .held) : ds[j]? = some .held := by
  obtain ⟨d, hd, hterm⟩ := getElem?_map_inv h
  cases d with
  | held => exact hd
  | detached => cases hterm
  | closed => cases hterm

theorem SingleInv.stopVPN {s : State} (h : SingleInv s) (mIsLollipop closeThrows : Bool) :
    SingleInv (stopVPN mIsLollipop s closeThrows) := by
  have htunnel := stopVPN_tunnel mIsLollipop s closeThrows
  refine h.terminate (stopVPN_threads mIsLollipop s closeThrows) ?_ ?_
  · intro j hj hm
    rw [htunnel.interfaces] at hj
    rw [htunnel.mInterface]
    exact (held_of_destroyInterface (held_of_terminate hj)).2 hm
  · intro j hj
    rw [htunnel.interfaces] at hj
    exact (held_of_destroyInterface (held_of_terminate hj)).1

/-- Setting up a session alone: the earlier calls, all of them on a recorded
interface, are stopped first. -/
theorem SingleInv.setup {s : State} (h : SingleInv s)
    (halone : ∀ p ∈ s.threads, approachesStart p = false) : SingleInv (setupTun2Socks s) := by
  have hidle : ∀ {k : Nat} {p : VpnPoint}, (stopPrevious s).threads[k]? = some p →
      beforeReturn p = false := by
    intro k p hp
    rw [stopPrevious_threads] at hp
    split at hp
    · obtain ⟨q, hq, rfl⟩ := getElem?_map_inv hp
      have happ := halone q (List.mem_of_getElem? hq)
      cases q <;> first | rfl | cases happ
    · rename_i hnone
      have happ := halone p (List.mem_of_getElem? hp)
      cases p with
      | inStart j => exact absurd (h.recorded k j hp) hnone
      | reset => rfl
      | ended => rfl
      | _ => cases happ
  have hnew : ∀ {k : Nat} {p : VpnPoint}, (setupTun2Socks s).threads[k]? = some p →
      beforeReturn p = true → k = (stopPrevious s).threads.length ∧ p = .begin := by
    intro k p hp hactive
    rcases getElem?_concat_inv hp with hp | hnew
    · rw [hidle hp] at hactive
      cases hactive
    · exact hnew
  refine ⟨?_, ?_, ?_⟩
  · intro i k p q hp hq hpa hqa
    rw [(hnew hp hpa).1, (hnew hq hqa).1]
  · intro i j hi
    cases (hnew hi rfl).2
  · intro i j hi
    cases (hnew hi rfl).2

theorem SingleInv.vpnMove {s s' : State} {i : Nat} {o : Outcome} (h : SingleInv s)
    (hmove : VpnMove s i o s') : SingleInv s' := by
  cases hmove with
  | opened hp => exact h.goto hp rfl s.mInterface _ nofun nofun
  | closedOld hp hm =>
      rw [closeInterface_eq]
      exact h.goto hp rfl s.mInterface _ nofun nofun
  | cleared hp => exact h.goto hp rfl none s.interfaces nofun nofun
  | assigned hp => exact h.goto hp rfl _ s.interfaces nofun nofun
  | @entered j hp hj =>
      refine h.goto hp rfl s.mInterface _ (fun k _ => ?_) nofun
      rw [h.entering i j hp hj]
      rfl
  | finished hp =>
      refine ⟨?_, ?_, ?_⟩
      · intro k l p q hk hl hpa hqa
        rcases getElem?_set_inv hk with ⟨-, rfl⟩ | ⟨-, hk⟩
        · cases hpa
        · rcases getElem?_set_inv hl with ⟨-, rfl⟩ | ⟨-, hl⟩
          · cases hqa
          · exact h.unique k l p q hk hl hpa hqa
      · intro k j hk
        rcases getElem?_set_inv hk with ⟨-, hended⟩ | ⟨-, hk⟩
        · cases hended
        · exact h.recorded k j hk
      · intro k j hk hj
        rcases getElem?_set_inv hk with ⟨-, hended⟩ | ⟨-, hk⟩
        · cases hended
        · exact h.entering k j hk hj
  | @stay _ p q hp hq =>
      have hactive : beforeReturn p = true := by
        cases hq with
        | thrown hthrow => cases p <;> first | rfl | cases hthrow
        | _ => rfl
      refine h.goto hp hactive s.mInterface s.interfaces (fun j hj => ?_) (fun j hj _ => ?_)
      · cases hq with
        | begin | checked _ => split at hj <;> cases hj
        | _ => cases hj
      · cases hq with
        | begin | checked _ => split at hj <;> cases hj
        | called => simpa using hj
        | _ => cases hj

theorem step_singleInv {mIsLollipop : Bool} {s s' : State} {a : Action}
    (h : SingleInv s) (hok : setsUpAlone s a = true)
    (hstep : step mIsLollipop s a = some s') : SingleInv s' := by
  have hsetup : setsUp s a = true → SingleInv (setupTun2Socks (beforeSetup mIsLollipop s)) := by
    intro hsets
    have hsame := sameTunnel_beforeSetup mIsLollipop s
    refine (h.sameTunnel hsame).setup ?_
    rw [hsame.threads]
    simpa [setsUpAlone, hsets, List.all_eq_true] using hok
  cases a with
  | start =>
      cases hstep
      rw [handleStart_eq]
      split
      · rename_i hsets
        exact hsetup hsets
      · exact h
  | refresh =>
      cases hstep
      rw [handleRefresh_eq]
      split
      · rename_i hsets
        exact hsetup hsets
      · exact h.sameTunnel (sameTunnel_beforeSetup mIsLollipop s)
  | stop closeThrows =>
      cases hstep
      exact h.stopVPN mIsLollipop closeThrows
  | onRevoke closeThrows =>
      cases hstep
      have hstopped : SingleInv
          (if s.isRestart then s else Manager.stopVPN mIsLollipop s closeThrows) := by
        split
        · exact h
        · exact h.stopVPN mIsLollipop closeThrows
      exact ⟨hstopped.unique, hstopped.recorded, hstopped.entering⟩
  | vpn i o => exact h.vpnMove (vpnStep_move hstep)
  | bypass i random o => exact h.sameTunnel (sameTunnel_bypassStep hstep)

/-- In every run that sets up its sessions alone, at most one call of
`Tun2Socks.Start` is running in every state reached. -/
theorem at_most_one_start (mIsLollipop : Bool) {hist : List Action} {s : State}
    (hrun : Run (step mIsLollipop) (fun s a => setsUpAlone s a = true) State.init hist s) :
    AtMostOneStart s :=
  (Run.invariant (I := fun _ s => SingleInv s) singleInv_init
    (fun _ _ _ _ h hok hs => step_singleInv h hok hs) hrun).atMostOneStart

/-- A session that reaches `Tun2Socks.Start` and is then refreshed. -/
def refreshedSession : List Action :=
  [.start, .vpn 0 .ok, .vpn 0 .ok, .vpn 0 .ok, .vpn 0 .ok, .vpn 0 .ok, .vpn 0 .ok,
    .vpn 0 .ok, .vpn 0 .ok, .refresh, .vpn 1 .ok, .vpn 0 .ok, .vpn 1 .ok, .vpn 1 .ok,
    .vpn 1 .ok, .vpn 1 .ok, .vpn 1 .ok, .vpn 1 .ok, .vpn 1 .ok, .vpn 1 .ok, .vpn 1 .ok,
    .vpn 1 .ok]

theorem at_most_one_start_refreshed :
    ∃ s, s.threads = [.ended, .inStart 1] ∧ AtMostOneStart s := by
  obtain ⟨s, hs, hthreads⟩ : ∃ s,
      execute (step true) (fun s a => setsUpAlone s a = true) State.init
        refreshedSession = some s ∧ s.threads = [.ended, .inStart 1] :=
    ⟨_, rfl, rfl⟩
  exact ⟨s, hthreads, at_most_one_start true (run_of_execute hs)⟩

/-- A refresh that arrives before the first session has an interface. -/
def refreshedTooEarly : List Action :=
  [.start, .refresh, .vpn 0 .ok, .vpn 0 .ok, .vpn 0 .ok, .vpn 0 .ok, .vpn 0 .ok,
    .vpn 0 .ok, .vpn 0 .ok, .vpn 0 .ok, .vpn 1 .ok, .vpn 1 .ok, .vpn 1 .ok, .vpn 1 .ok,
    .vpn 1 .ok, .vpn 1 .ok, .vpn 1 .ok, .vpn 1 .ok, .vpn 1 .ok, .vpn 1 .ok]

theorem two_starts_after_early_refresh :
    ∃ s, Run (step true) Always State.init refreshedTooEarly.reverse s ∧
      s.threads = [.inStart 0, .inStart 1] ∧ ¬ AtMostOneStart s := by
  obtain ⟨s, hs, hthreads⟩ : ∃ s, execute (step true) Always State.init
      refreshedTooEarly = some s ∧ s.threads = [.inStart 0, .inStart 1] :=
    ⟨_, rfl, rfl⟩
  refine ⟨s, run_of_execute hs, hthreads, fun hone => ?_⟩
  have heq := hone 0 1 0 1 (by rw [hthreads]; rfl) (by rw [hthreads]; rfl)
  cases heq

end TorAndroid.Vpn.SingleStart
