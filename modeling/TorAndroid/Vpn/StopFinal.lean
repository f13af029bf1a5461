import TorAndroid.Vpn.Moves

namespace TorAndroid.Vpn.StopFinal

open TorAndroid.Lib.GuardedRun
open TorAndroid.Lib.ThreadPool
open TorAndroid.Vpn.Manager
open TorAndroid.Vpn.Moves

/-- A stop has been handled and no start or refresh after it; the newest action
comes first. -/
def stopStands : List Action → Bool
  | [] => false
  | .stop _ :: _ => true
  | .start :: _ | .refresh :: _ => false
  | _ :: older => stopStands older

/-- No thread has a step left but one that is blocked. -/
structure Settled (s : State) : Prop where
  vpn : ∀ p ∈ s.threads, p = .ended ∨ ∃ j, p = .inStart j
  bypass : ∀ p ∈ s.bypassThreads, p = .ended ∨ ∃ k, p = .serving k

def beforeCall : VpnPoint → Bool
  | .callStart | .enterStart _ | .inStart _ | .reset | .ended => false
  | _ => true

def replacing : VpnPoint → Bool
  | .checkOld _ | .closeOld _ | .clearOld _ | .assign _ => true
  | _ => false

/-- The interface only the thread's local variable names. -/
def carries : VpnPoint → Option Nat
  | .checkOld new | .closeOld new | .clearOld new | .assign new => new
  | _ => none

/-- The `mInterface.close()` of the `stopVPN` that the action runs does not
throw. -/
def closesCleanly (s : State) : Action → Bool
  | .stop closeThrows | .onRevoke closeThrows => !closeThrows || s.mInterface.isNone
  | _ => true

/-- The condition under which stops are final. A step of `stopVPN` finds no
thread that is before its `Tun2Socks.Start` call and closes the interface; no
two threads replace the interface at a time, and closing the old one does not
throw; no bypass thread gets its server socket. -/
def stopsInTime (s : State) : Action → Bool
  | .vpn i outcome =>
      match s.threads[i]?, outcome with
      | some .establish, .ok | some .establish, .null => s.threads.all fun p => !replacing p
      | some (.closeOld _), .throws => false
      | _, _ => true
  | .bypass i _ .ok =>
      match s.bypassThreads[i]? with
      | some (.listen _) => false
      | _ => true
  | a =>
      !runsStopVPN s a || (closesCleanly s a && s.threads.all fun p => !beforeCall p)

/-- Every open interface is named by the field, by the local variable of the
one thread that replaces it, or by a running call. -/
structure OwnedInv (s : State) : Prop where
  oneReplacing : ∀ (i k : Nat) (p q : VpnPoint), s.threads[i]? = some p →
    s.threads[k]? = some q → replacing p = true → replacing q = true → i = k
  held : ∀ j : Nat, s.interfaces[j]? = some .held → s.mInterface = some j ∨
    ∃ (i : Nat) (p : VpnPoint), s.threads[i]? = some p ∧ carries p = some j
  detached : ∀ j : Nat, s.interfaces[j]? = some .detached →
    ∃ i : Nat, s.threads[i]? = some (.inStart j)
  running : ∀ i j : Nat, s.threads[i]? = some (.inStart j) →
    s.interfaces[j]? = some .detached
  closing : ∀ (i : Nat) (new : Option Nat), s.threads[i]? = some (.closeOld new) →
    s.mInterface.isSome = true
  clearing : ∀ (i : Nat) (new : Option Nat) (j : Nat),
    s.threads[i]? = some (.clearOld new) → s.mInterface = some j →
    s.interfaces[j]? ≠ some .held
  assigning : ∀ (i : Nat) (new : Option Nat), s.threads[i]? = some (.assign new) →
    s.mInterface = none

theorem OwnedInv.of_eq {s t : State} (h : OwnedInv s) (hm : t.mInterface = s.mInterface)
    (hth : t.threads = s.threads) (hi : t.interfaces = s.interfaces) : OwnedInv t := by
  constructor
  · rw [hth]; exact h.oneReplacing
  · rw [hth, hm, hi]; exact h.held
  · rw [hth, hi]; exact h.detached
  · rw [hth, hi]; exact h.running
  · rw [hth, hm]; exact h.closing
  · rw [hth, hm, hi]; exact h.clearing
  · rw [hth, hm]; exact h.assigning

theorem replacing_of_carries {p : VpnPoint} {j : Nat} (h : carries p = some j) :
    replacing p = true := by
  cases p <;> first | rfl | cases h

theorem descriptor_terminate_inv {ds : List Descriptor} {j : Nat} {d : Descriptor}
    (h : (ds.map Descriptor.terminate)[j]? = some d) :
    d ≠ .detached ∧ (d = .held → ds[j]? = some .held) := by
  obtain ⟨e, he, rfl⟩ := getElem?_map_inv h
  cases e with
  | held => exact ⟨nofun, fun _ => he⟩
  | detached => exact ⟨nofun, nofun⟩
  | closed => exact ⟨nofun, nofun⟩

theorem terminate_inv {pool : List VpnPoint} {i : Nat} {p : VpnPoint}
    (h : (pool.map VpnPoint.terminate)[i]? = some p) :
    p = .reset ∨ (pool[i]? = some p ∧ ∀ j, p ≠ .inStart j) := by
  obtain ⟨q, hq, rfl⟩ := getElem?_map_inv h
  cases q <;> first | exact .inl rfl | exact .inr ⟨hq, nofun⟩

theorem terminate_carries {pool : List VpnPoint} {i j : Nat} {p : VpnPoint}
    (h : pool[i]? = some p) (hp : carries p = some j) :
    (pool.map VpnPoint.terminate)[i]? = some p := by
  rw [List.getElem?_map, h]
  cases p <;> first | rfl | cases hp

theorem OwnedInv.tun2SocksStop {s : State} (h : OwnedInv s) : OwnedInv (tun2SocksStop s) where
  oneReplacing i k p q hp hq hrp hrq := by
    rcases terminate_inv hp with rfl | ⟨hp, -⟩
    · cases hrp
    · rcases terminate_inv hq with rfl | ⟨hq, -⟩
      · cases hrq
      · exact h.oneReplacing i k p q hp hq hrp hrq
  held j hj := by
    rcases h.held j ((descriptor_terminate_inv hj).2 rfl) with hm | ⟨i, p, hp, hc⟩
    · exact .inl hm
    · exact .inr ⟨i, p, terminate_carries hp hc, hc⟩
  detached j hj := absurd rfl (descriptor_terminate_inv hj).1
  running i j hi := by
    rcases terminate_inv hi with hreset | ⟨-, hnot⟩
    · cases hreset
    · exact absurd rfl (hnot j)
  closing i new hi := by
    rcases terminate_inv hi with hreset | ⟨hi, -⟩
    · cases hreset
    · exact h.closing i new hi
  clearing i new j hi hm hj := by
    rcases terminate_inv hi with hreset | ⟨hi, -⟩
    · cases hreset
    · exact h.clearing i new j hi hm ((descriptor_terminate_inv hj).2 rfl)
  assigning i new hi := by
    rcases terminate_inv hi with hreset | ⟨hi, -⟩
    · cases hreset
    · exact h.assigning i new hi

theorem OwnedInv.setup {s : State} (h : OwnedInv s) : OwnedInv (setupTun2Socks s) := by
  have hprev : OwnedInv (stopPrevious s) := by
    unfold stopPrevious
    split
    · exact (h.of_eq (t := { s with isRestart := true }) rfl rfl rfl).tun2SocksStop
    · exact h
  have hold : ∀ {k : Nat} {p : VpnPoint}, (setupTun2Socks s).threads[k]? = some p →
      p = .begin ∨ (stopPrevious s).threads[k]? = some p := by
    intro k p hp
    rcases getElem?_concat_inv hp with hp | ⟨-, rfl⟩
    · exact .inr hp
    · exact .inl rfl
  constructor
  · intro i k p q hp hq hrp hrq
    rcases hold hp with rfl | hp
    · cases hrp
    · rcases hold hq with rfl | hq
      · cases hrq
      · exact hprev.oneReplacing i k p q hp hq hrp hrq
  · intro j hj
    rcases hprev.held j hj with hm | ⟨i, p, hp, hc⟩
    · exact .inl hm
    · exact .inr ⟨i, p, getElem?_concat_old hp, hc⟩
  · intro j hj
    obtain ⟨i, hi⟩ := hprev.detached j hj
    exact ⟨i, getElem?_concat_old hi⟩
  · intro i j hi
    exact hprev.running i j ((hold hi).resolve_left nofun)
  · intro i new hi
    exact hprev.closing i new ((hold hi).resolve_left nofun)
  · intro i new j hi
    exact hprev.clearing i new j ((hold hi).resolve_left nofun)
  · intro i new hi
    exact hprev.assigning i new ((hold hi).resolve_left nofun)

theorem OwnedInv.held_replacing {s : State} {i : Nat} {p : VpnPoint} (h : OwnedInv s)
    (hp : s.threads[i]? = some p) (hreplacing : replacing p = true) {j : Nat}
    (hj : s.interfaces[j]? = some .held) : s.mInterface = some j ∨ carries p = some j := by
  rcases h.held j hj with hm | ⟨k, r, hr, hc⟩
  · exact .inl hm
  · have hki := h.oneReplacing k i r p hr hp (replacing_of_carries hc) hreplacing
    subst hki
    rw [Option.some.inj (hp.symm.trans hr)]
    exact .inr hc

theorem OwnedInv.held_recorded {s : State} (h : OwnedInv s)
    (hnone : ∀ p ∈ s.threads, replacing p = false) {j : Nat}
    (hj : s.interfaces[j]? = some .held) : s.mInterface = some j := by
  rcases h.held j hj with hm | ⟨k, r, hr, hc⟩
  · exact hm
  · have hreplacing := replacing_of_carries hc
    rw [hnone r (List.mem_of_getElem? hr)] at hreplacing
    cases hreplacing

theorem OwnedInv.goto_replacing {s : State} {i : Nat} {p q : VpnPoint} {m : Option Nat}
    {d : List Descriptor} (h : OwnedInv s) (hp : s.threads[i]? = some p)
    (hothers : ∀ (k : Nat) (r : VpnPoint), s.threads[k]? = some r → replacing r = true → k = i)
    (hpq : (∀ j, p ≠ .inStart j) ∧ ∀ j, q ≠ .inStart j)
    (hheld : ∀ j : Nat, d[j]? = some .held → m = some j ∨ carries q = some j)
    (hdetached : ∀ j : Nat, d[j]? = some .detached ↔ s.interfaces[j]? = some .detached)
    (hclosing : ∀ new, q = .closeOld new → m.isSome = true)
    (hclearing : ∀ (new : Option Nat) (j : Nat), q = .clearOld new → m = some j →
      d[j]? ≠ some .held)
    (hassigning : ∀ new, q = .assign new → m = none) :
    OwnedInv ({ s with mInterface := m, interfaces := d }.goto i q) := by
  have hmoved : ∀ {k : Nat} {r : VpnPoint}, (s.threads.set i q)[k]? = some r →
      replacing r = true → k = i ∧ r = q := by
    intro k r hr hreplacing
    rcases getElem?_set_inv hr with hmoved | ⟨hne, hr⟩
    · exact hmoved
    · exact absurd (hothers k r hr hreplacing) hne
  constructor
  · intro k l r t hr ht hrr hrt
    rw [(hmoved hr hrr).1, (hmoved ht hrt).1]
  · intro j hj
    rcases hheld j hj with hm | hc
    · exact .inl hm
    · exact .inr ⟨i, q, getElem?_set_moved hp, hc⟩
  · intro j hj
    obtain ⟨k, hk⟩ := h.detached j ((hdetached j).mp hj)
    have hne : k ≠ i := by
      rintro rfl
      exact hpq.1 j (Option.some.inj (hp.symm.trans hk))
    exact ⟨k, getElem?_set_other hne hk⟩
  · intro k j hk
    rcases getElem?_set_inv hk with ⟨-, hq⟩ | ⟨-, hk⟩
    · exact absurd hq.symm (hpq.2 j)
    · exact (hdetached j).mpr (h.running k j hk)
  · intro k new hk
    exact hclosing new (hmoved hk rfl).2.symm
  · intro k new j hk
    exact hclearing new j (hmoved hk rfl).2.symm
  · intro k new hk
    exact hassigning new (hmoved hk rfl).2.symm

theorem OwnedInv.goto_outside {s : State} {i : Nat} {p q : VpnPoint}
    {d : List Descriptor} (h : OwnedInv s) (hp : s.threads[i]? = some p)
    (hout : replacing p = false ∧ replacing q = false) (hin : ∀ j, p ≠ .inStart j)
    (hheld : ∀ j : Nat, d[j]? = some .held → s.interfaces[j]? = some .held)
    (hdetached : ∀ j : Nat, d[j]? = some .detached →
      q = .inStart j ∨ s.interfaces[j]? = some .detached)
    (hkeep : ∀ j : Nat, s.interfaces[j]? = some .detached → d[j]? = some .detached)
    (henter : ∀ j : Nat, q = .inStart j → d[j]? = some .detached) :
    OwnedInv ({ s with interfaces := d }.goto i q) := by
  have hold : ∀ {k : Nat} {r : VpnPoint}, (s.threads.set i q)[k]? = some r →
      replacing r = true → s.threads[k]? = some r := by
    intro k r hr hreplacing
    rcases getElem?_set_inv hr with ⟨-, rfl⟩ | ⟨-, hr⟩
    · rw [hout.2] at hreplacing
      cases hreplacing
    · exact hr
  constructor
  · intro k l r t hr ht hrr hrt
    exact h.oneReplacing k l r t (hold hr hrr) (hold ht hrt) hrr hrt
  · intro j hj
    rcases h.held j (hheld j hj) with hm | ⟨k, r, hr, hc⟩
    · exact .inl hm
    · have hne : k ≠ i := by
        rintro rfl
        have hpr : p = r := Option.some.inj (hp.symm.trans hr)
        rw [← hpr] at hc
        rw [replacing_of_carries hc] at hout
        cases hout.1
      exact .inr ⟨k, r, getElem?_set_other hne hr, hc⟩
  · intro j hj
    rcases hdetached j hj with rfl | hj
    · exact ⟨i, getElem?_set_moved hp⟩
    · obtain ⟨k, hk⟩ := h.detached j hj
      have hne : k ≠ i := by
        rintro rfl
        exact hin j (Option.some.inj (hp.symm.trans hk))
      exact ⟨k, getElem?_set_other hne hk⟩
  · intro k j hk
    rcases getElem?_set_inv hk with ⟨-, hq⟩ | ⟨-, hk⟩
    · exact henter j hq.symm
    · exact hkeep j (h.running k j hk)
  · intro k new hk
    exact h.closing k new (hold hk rfl)
  · intro k new j hk hm hj
    exact h.clearing k new j (hold hk rfl) hm (hheld j hj)
  · intro k new hk
    exact h.assigning k new (hold hk rfl)

theorem localStep_outside {s : State} {o : Outcome} {p q : VpnPoint}
    (h : LocalStep s o p q) (hp : replacing p = false) (hnull : o ≠ .null) :
    replacing q = false := by
  cases h with
  | begin => split <;> rfl
  | notPrepared => exact absurd rfl hnull
  | checked new | oldVanished new hm => cases hp
  | _ => rfl

theorem localStep_not_inStart {s : State} {o : Outcome} {p q : VpnPoint}
    (h : LocalStep s o p q) : (∀ j, p ≠ .inStart j) ∧ ∀ j, q ≠ .inStart j := by
  cases h with
  | begin | checked new => split <;> exact ⟨nofun, nofun⟩
  | thrown hp =>
      refine ⟨?_, nofun⟩
      rintro j rfl
      cases hp
  | _ => exact ⟨nofun, nofun⟩

theorem OwnedInv.localStep {s : State} {i : Nat} {o : Outcome} {p q : VpnPoint}
    (h : OwnedInv s) (hp : s.threads[i]? = some p) (hq : LocalStep s o p q)
    (hok : stopsInTime s (.vpn i o) = true) : OwnedInv (s.goto i q) := by
  have hin := localStep_not_inStart hq
  have hkeep : ∀ j : Nat, s.interfaces[j]? = some .detached ↔
      s.interfaces[j]? = some .detached := fun _ => .rfl
  by_cases hreplacing : replacing p = true
  · have hothers : ∀ (k : Nat) (r : VpnPoint), s.threads[k]? = some r →
        replacing r = true → k = i :=
      fun k r hr hrr => h.oneReplacing k i r p hr hp hrr hreplacing
    cases hq with
    | checked new =>
        refine h.goto_replacing (m := s.mInterface) (d := s.interfaces) hp hothers hin
          (fun j hj => ?_) hkeep (fun new' heq => ?_) (fun new' j heq => ?_)
          (fun new' heq => ?_)
        · rcases h.held_replacing hp rfl hj with hm | hc
          · exact .inl hm
          · refine .inr ?_
            split <;> exact hc
        · split at heq
          · assumption
          · cases heq
        · split at heq <;> cases heq
        · split at heq
          · cases heq
          · rename_i hnone
            simpa using hnone
    | oldVanished new hm =>
        have hsome := h.closing i new hp
        rw [hm] at hsome
        cases hsome
    | thrown hthrow =>
        cases p with
        | closeOld new => simp [stopsInTime, hp] at hok
        | checkOld _ | clearOld _ | assign _ => cases hthrow
        | _ => cases hreplacing
    | _ => cases hreplacing
  · have hpout : replacing p = false := by simpa using hreplacing
    by_cases hnull : o = .null
    · subst hnull
      cases hq with
      | notPrepared =>
          have hnone : ∀ r ∈ s.threads, replacing r = false := by
            simpa [stopsInTime, hp] using hok
          refine h.goto_replacing (m := s.mInterface) (d := s.interfaces) hp
            (fun k r hr hrr => ?_) hin (fun j hj => ?_) hkeep nofun nofun nofun
          · rw [hnone r (List.mem_of_getElem? hr)] at hrr
            cases hrr
          · exact .inl (h.held_recorded hnone hj)
    · exact h.goto_outside (d := s.interfaces) hp
        ⟨hpout, localStep_outside hq hpout hnull⟩ hin.1 (fun _ hj => hj)
        (fun _ hj => .inr hj) (fun _ hj => hj) (fun j hj => absurd hj (hin.2 j))

theorem OwnedInv.vpnMove {s s' : State} {i : Nat} {o : Outcome} (h : OwnedInv s)
    (hok : stopsInTime s (.vpn i o) = true) (hmove : VpnMove s i o s') : OwnedInv s' := by
  cases hmove with
  | stay hp hq => exact h.localStep hp hq hok
  | opened hp =>
      have hnone : ∀ r ∈ s.threads, replacing r = false := by
        simpa [stopsInTime, hp] using hok
      refine h.goto_replacing (m := s.mInterface) hp (fun k r hr hrr => ?_)
        ⟨nofun, nofun⟩ (fun j hj => ?_) (fun j => ?_) nofun nofun nofun
      · rw [hnone r (List.mem_of_getElem? hr)] at hrr
        cases hrr
      · rcases getElem?_concat_inv hj with hj | ⟨rfl, -⟩
        · exact .inl (h.held_recorded hnone hj)
        · exact .inr rfl
      · constructor
        · intro hj
          rcases getElem?_concat_inv hj with hj | ⟨-, hheld⟩
          · exact hj
          · cases hheld
        · exact getElem?_concat_old
  | @closedOld new j hp hm =>
      rw [closeInterface_eq]
      refine h.goto_replacing (m := s.mInterface) hp
        (fun k r hr hrr => h.oneReplacing k i r _ hr hp hrr rfl) ⟨nofun, nofun⟩
        (fun k hk => ?_) (detached_closeInterface_iff s j) nofun
        (fun _ k _ hmk hk => ?_) nofun
      · obtain ⟨hne, hheld⟩ := held_of_closeInterface hk
        rcases h.held_replacing hp rfl hheld with hmk | hc
        · exact absurd (Option.some.inj (hmk.symm.trans hm)) hne
        · exact .inr hc
      · exact (held_of_closeInterface hk).1 (Option.some.inj (hmk.symm.trans hm))
  | @cleared new hp =>
      refine h.goto_replacing hp
        (fun k r hr hrr => h.oneReplacing k i r _ hr hp hrr rfl) ⟨nofun, nofun⟩
        (fun j hj => ?_) (fun _ => .rfl) nofun nofun (fun _ _ => rfl)
      rcases h.held_replacing hp rfl hj with hm | hc
      · exact absurd hj (h.clearing i new j hp hm)
      · exact .inr hc
  | @assigned new hp =>
      refine h.goto_replacing hp
        (fun k r hr hrr => h.oneReplacing k i r _ hr hp hrr rfl) ⟨nofun, nofun⟩
        (fun j hj => ?_) (fun _ => .rfl) nofun nofun nofun
      rcases h.held_replacing hp rfl hj with hm | hc
      · rw [h.assigning i new hp] at hm
        cases hm
      · exact .inl hc
  | @entered j hp hj =>
      have hlt := (List.getElem?_eq_some_iff.mp hj).1
      refine h.goto_outside hp ⟨rfl, rfl⟩ nofun (fun k hk => ?_) (fun k hk => ?_)
        (fun k hk => ?_) (fun k hk => ?_)
      · rcases getElem?_set_inv hk with ⟨-, hdet⟩ | ⟨-, hk⟩
        · cases hdet
        · exact hk
      · rcases getElem?_set_inv hk with ⟨rfl, -⟩ | ⟨-, hk⟩
        · exact .inl rfl
        · exact .inr hk
      · refine getElem?_set_other ?_ hk
        rintro rfl
        rw [hj] at hk
        cases hk
      · cases hk
        exact List.getElem?_set_self hlt
  | finished hp =>
      have hmoved : OwnedInv ({ s with interfaces := s.interfaces }.goto i .ended) :=
        h.goto_outside hp ⟨rfl, rfl⟩ nofun (fun _ hj => hj) (fun _ hj => .inr hj)
          (fun _ hj => hj) nofun
      exact hmoved.of_eq rfl rfl rfl

/-- A stopped state: every interface is closed and every thread is past
recording its interface. -/
structure Stopped (s : State) : Prop where
  interfaces : ∀ d ∈ s.interfaces, d = .closed
  threads : ∀ p ∈ s.threads, beforeCall p = false

theorem beforeCall_of_replacing {p : VpnPoint} (h : replacing p = true) :
    beforeCall p = true := by
  cases p <;> first | rfl | cases h

theorem destroyInterface_mInterface {s : State} {closeThrows : Bool}
    (hclean : (!closeThrows || s.mInterface.isNone) = true) :
    (destroyInterface s closeThrows).mInterface = none := by
  cases hm : s.mInterface with
  | none => simp [destroyInterface, hm]
  | some j =>
      cases closeThrows with
      | true => simp [hm] at hclean
      | false => simp [destroyInterface, hm]

/-- A stop in time closes everything: what the field names, and what the
running calls were given. -/
theorem OwnedInv.stopped {s : State} (h : OwnedInv s) (mIsLollipop : Bool)
    {closeThrows : Bool} (hclean : (!closeThrows || s.mInterface.isNone) = true)
    (hpast : ∀ p ∈ s.threads, beforeCall p = false) :
    Stopped (stopVPN mIsLollipop s closeThrows) := by
  have hidle : ∀ p ∈ s.threads, replacing p = false := by
    intro p hp
    by_contra hreplacing
    have hbefore := beforeCall_of_replacing (by simpa using hreplacing)
    rw [hpast p hp] at hbefore
    cases hbefore
  constructor
  · intro d hd
    rw [(stopVPN_tunnel mIsLollipop s closeThrows).interfaces] at hd
    obtain ⟨j, hj⟩ := List.getElem?_of_mem hd
    have hinv := descriptor_terminate_inv hj
    cases d with
    | closed => rfl
    | detached => exact absurd rfl hinv.1
    | held =>
        obtain ⟨hheld, hrecorded⟩ := held_of_destroyInterface (hinv.2 rfl)
        have hm := hrecorded (h.held_recorded hidle hheld)
        rw [destroyInterface_mInterface hclean] at hm
        cases hm
  · intro p hp
    rw [stopVPN_threads] at hp
    obtain ⟨q, hq, rfl⟩ := List.mem_map.mp hp
    have hbefore := hpast q hq
    cases q <;> first | rfl | cases hbefore

theorem Stopped.ownedInv {s : State} (h : Stopped s)
    (hrunning : ∀ j, VpnPoint.inStart j ∉ s.threads) : OwnedInv s := by
  have hidle : ∀ {i : Nat} {p : VpnPoint}, s.threads[i]? = some p →
      replacing p = true → False := by
    intro i p hp hreplacing
    have hbefore := h.threads p (List.mem_of_getElem? hp)
    rw [beforeCall_of_replacing hreplacing] at hbefore
    cases hbefore
  constructor
  · exact fun i k p q hp _ hrp _ => (hidle hp hrp).elim
  · intro j hj
    cases h.interfaces _ (List.mem_of_getElem? hj)
  · intro j hj
    cases h.interfaces _ (List.mem_of_getElem? hj)
  · exact fun i j hi => absurd (List.mem_of_getElem? hi) (hrunning j)
  · exact fun i new hi => (hidle hi rfl).elim
  · exact fun i new j hi => (hidle hi rfl).elim
  · exact fun i new hi => (hidle hi rfl).elim

theorem stopVPN_not_running (mIsLollipop : Bool) (s : State) (closeThrows : Bool) (j : Nat) :
    VpnPoint.inStart j ∉ (stopVPN mIsLollipop s closeThrows).threads := by
  intro hj
  rw [stopVPN_threads] at hj
  obtain ⟨p, -, hp⟩ := List.mem_map.mp hj
  cases p <;> cases hp

/-- Once everything is closed no thread step reopens anything. -/
theorem Stopped.vpnMove {s s' : State} {i : Nat} {o : Outcome} (h : Stopped s)
    (hmove : VpnMove s i o s') : Stopped s' := by
  have hpast : ∀ {p : VpnPoint}, s.threads[i]? = some p → beforeCall p = false :=
    fun hp => h.threads _ (List.mem_of_getElem? hp)
  have hgoto : ∀ {q : VpnPoint}, beforeCall q = false →
      ∀ p ∈ s.threads.set i q, beforeCall p = false := by
    intro q hq p hp
    rcases List.mem_or_eq_of_mem_set hp with hp | rfl
    · exact h.threads p hp
    · exact hq
  cases hmove with
  | opened hp | closedOld hp _ | cleared hp | assigned hp => cases hpast hp
  | entered hp hj => cases h.interfaces _ (List.mem_of_getElem? hj)
  | finished hp => exact ⟨h.interfaces, hgoto rfl⟩
  | @stay _ p q hp hq =>
      refine ⟨h.interfaces, hgoto ?_⟩
      have hp := hpast hp
      cases hq with
      | called | nothingToRun | rejected _ _ | thrown _ => rfl
      | _ => cases hp

theorem stopSocksBypass_servers {s : State}
    (h : ServerSocketState.listening ∉ s.servers) :
    ServerSocketState.listening ∉ (stopSocksBypass s).servers := by
  unfold stopSocksBypass
  split
  · unfold State.stopServer
    split
    · rename_i hk
      exact absurd (List.mem_of_getElem? hk) h
    · exact h
  · exact h

theorem stopVPN_servers {s : State} (mIsLollipop closeThrows : Bool)
    (h : ServerSocketState.listening ∉ s.servers) :
    ServerSocketState.listening ∉ (stopVPN mIsLollipop s closeThrows).servers := by
  simp only [stopVPN, tun2SocksStop, destroyInterface_servers]
  split
  · exact stopSocksBypass_servers h
  · exact h

structure StopInv (hist : List Action) (s : State) : Prop where
  owned : OwnedInv s
  noServer : ServerSocketState.listening ∉ s.servers
  stopped : stopStands hist = true → Stopped s

/-- A `stopVPN` in time establishes the invariant afresh, whatever the history. -/
theorem StopInv.stopVPN {hist hist' : List Action} {s : State} (h : StopInv hist s)
    (mIsLollipop : Bool) {closeThrows : Bool}
    (hclean : (!closeThrows || s.mInterface.isNone) = true)
    (hpast : ∀ p ∈ s.threads, beforeCall p = false) :
    StopInv hist' (stopVPN mIsLollipop s closeThrows) := by
  have hstopped := h.owned.stopped mIsLollipop hclean hpast
  exact ⟨hstopped.ownedInv (stopVPN_not_running mIsLollipop s closeThrows),
    stopVPN_servers mIsLollipop closeThrows h.noServer, fun _ => hstopped⟩

theorem StopInv.setup {hist : List Action} {s : State} (h : StopInv hist s)
    (mIsLollipop : Bool) {a : Action} (ha : stopStands (a :: hist) = false) :
    StopInv (a :: hist) (setupTun2Socks (beforeSetup mIsLollipop s)) := by
  have hsame := sameTunnel_beforeSetup mIsLollipop s
  refine ⟨(h.owned.of_eq hsame.mInterface hsame.threads hsame.interfaces).setup, ?_, ?_⟩
  · change ServerSocketState.listening ∉ (stopPrevious _).servers
    rw [stopPrevious_servers, beforeSetup_servers]
    exact h.noServer
  · intro hstands
    rw [ha] at hstands
    cases hstands

theorem StopInv.sameTunnel {hist hist' : List Action} {s t : State} (h : StopInv hist s)
    (hsame : SameTunnel s t) (hservers : ServerSocketState.listening ∉ t.servers)
    (hstands : stopStands hist' = true → stopStands hist = true) : StopInv hist' t := by
  refine ⟨h.owned.of_eq hsame.mInterface hsame.threads hsame.interfaces, hservers, ?_⟩
  intro hs
  obtain ⟨hi, hth⟩ := h.stopped (hstands hs)
  exact ⟨by rw [hsame.interfaces]; exact hi, by rw [hsame.threads]; exact hth⟩

end TorAndroid.Vpn.StopFinal
