import TorAndroid.Dns.Resolver.LoopCustody

namespace TorAndroid.Dns.Resolver

open TorAndroid.Lib.Interaction TorAndroid.Lib.Ownership

section Loops

variable {cfg : ResolverConfig} {pol : ResolverPolicy cfg} {enough : Prop} {name : Name}
  {hops n mc : Nat} {s : Sched}

/-- The queries that still hold something are among those that are left to cancel. -/
structure Canceling (s₀ : Sched) (ks : List Nat) (s : Sched) : Prop where
  length : s.q.length = s₀.q.length
  saved : s.saved = s₀.saved
  rv : s.rv = s₀.rv
  left : ∀ (k : Nat) (st : QueryServ), s.q[k]? = some st → k ∉ ks → st.own = 0
  lt : ∀ k ∈ ks, k < s.q.length

theorem sum_own_zero {q : List QueryServ}
    (h : ∀ (k : Nat) (st : QueryServ), q[k]? = some st → st.own = 0) :
    (q.map QueryServ.own).sum = 0 := by
  refine List.sum_eq_zero ?_
  intro x hx
  obtain ⟨st, hst, rfl⟩ := List.mem_map.mp hx
  obtain ⟨k, hk⟩ := List.mem_iff_getElem?.mp hst
  exact h k st hk

/-- All queries that are under way are canceled. -/
theorem cancelQueries_accounts (hmc : mc ≤ s.q.length)
    (hrest : ∀ (k : Nat) (st : QueryServ), s.q[k]? = some st → k < s.dc ∨ mc ≤ k → st.own = 0) :
    Accounts (netLedger pol.toCachePolicy enough) (s.q.map QueryServ.own).sum (cancelQueries mc s)
      (fun s' => (s'.q.map QueryServ.own).sum) (Canceling s []) := by
  refine accounts_foldlM (I := Canceling s) ?_ ?_
  · intro k ks s' hs'
    obtain ⟨st, hst⟩ : ∃ st, s'.q[k]? = some st :=
      ⟨_, List.getElem?_eq_getElem (hs'.lt k (List.mem_cons_self ..))⟩
    obtain ⟨R, hsum, hset⟩ := exists_sum_set hst
    rw [hst]
    refine pCancelQuery_accounts.bind_part hsum ?_
    rintro st' ⟨hzero, -⟩
    refine accounts_pure ?_ ⟨?_, hs'.saved, hs'.rv, ?_, ?_⟩
    · rw [Sched.setQuery, hset, hzero]
    · rw [Sched.setQuery, List.length_set]
      exact hs'.length
    · intro l st₂ hst₂ hl
      by_cases hlk : l = k
      · subst hlk
        rw [Sched.setQuery, List.getElem?_set_self (List.getElem?_eq_some_iff.mp hst).1] at hst₂
        rw [← Option.some.inj hst₂]
        exact hzero
      · rw [Sched.setQuery, List.getElem?_set_ne (Ne.symm hlk)] at hst₂
        refine hs'.left l st₂ hst₂ ?_
        rw [List.mem_cons, not_or]
        exact ⟨hlk, hl⟩
    · intro l hl
      rw [Sched.setQuery, List.length_set]
      exact hs'.lt l (List.mem_cons_of_mem _ hl)
  · refine ⟨rfl, rfl, rfl, ?_, ?_⟩
    · intro k st hst hk
      refine hrest k st hst ?_
      rw [List.mem_range'_1] at hk
      omega
    · intro k hk
      have hrange := List.mem_range'_1.mp hk
      omega

theorem retest_accounts {α : Type} {X : Multiset Handle} {q : List QueryServ}
    {f : Unit → Prog NetOp α} {own : α → Multiset Handle} {P : α → Prop}
    (hf : Accounts (netLedger pol.toCachePolicy enough) X (f ()) own P) :
    Accounts (netLedger pol.toCachePolicy enough) X (retest mc q >>= f) own P := by
  rw [retest]
  split_ifs
  · exact hf
  · exact accounts_sched hf

theorem stopQueries_accounts (hmc : mc ≤ s.q.length)
    (hrest : ∀ (k : Nat) (st : QueryServ), s.q[k]? = some st → k < s.dc ∨ mc ≤ k → st.own = 0) :
    Accounts (netLedger pol.toCachePolicy enough) (s.q.map QueryServ.own).sum (stopQueries mc s)
      (fun _ => 0) (fun s' => s'.q.length = s.q.length ∧ s'.saved = s.saved ∧ s'.rv = s.rv) := by
  rw [stopQueries]
  refine (cancelQueries_accounts hmc hrest).bind ?_
  intro s' hs'
  rw [sum_own_zero fun k st hst => hs'.left k st hst List.not_mem_nil]
  exact retest_accounts (accounts_pure rfl ⟨hs'.length, hs'.saved, hs'.rv⟩)

theorem freeSaved_accounts :
    Accounts (netLedger pol.toCachePolicy enough) (savedOwn s.saved) (freeSaved s) (fun _ => 0)
      fun _ => True := by
  rw [freeSaved]
  cases s.saved with
  | none => exact accounts_pure rfl trivial
  | some saved => exact found_free_accounts

theorem freeBlock_accounts {block : Option Nat} :
    Accounts (netLedger pol.toCachePolicy enough) (memOf block) (freeBlock block) (fun _ => 0)
      fun _ => True := by
  cases block with
  | none => exact accounts_pure rfl trivial
  | some block => exact accounts_free (F := 0) (add_zero _).symm (accounts_pure rfl trivial)

/-- What is held when the servers were asked: the answer. -/
def askedOwn (a : Asked) : Multiset Handle :=
  match a.outcome with
  | .ok (found, _) => found.own
  | .error _ => 0

/-- What the answer is like. -/
def AskedOk (pol : ResolverPolicy cfg) (name : Name) (hops : Nat) (a : Asked) : Prop :=
  match a.outcome with
  | .ok (found, i) => FoundOk pol name hops found ∧ i < a.q.length
  | .error rv => rv.answered = false

theorem use_own (saved : Saved) : saved.use.own = saved.found.own := by
  rw [Saved.use]
  split_ifs <;> rfl

theorem use_ok {saved : Saved} (h : FoundOk pol name hops saved.found) :
    FoundOk pol name hops saved.use := by
  rw [Saved.use]
  split_ifs
  · exact ⟨h.serv, pol.nocache h.good⟩
  · exact h

theorem group_count {k : Nat} (par : Nat) (hpar : 0 < par) (hk : k < (n + par - 1) / par) :
    par * k < n := by
  have hle : (k + 1) * par ≤ n + par - 1 := (Nat.le_div_iff_mul_le hpar).mp hk
  rw [Nat.add_mul, Nat.one_mul] at hle
  rw [Nat.mul_comm]
  omega

theorem groups_all (par : Nat) (hpar : 0 < par) : n ≤ par * ((n + par - 1) / par) := by
  have hlt := Nat.lt_mul_div_succ (n + par - 1) hpar
  rw [Nat.mul_add, Nat.mul_one] at hlt
  omega

/-- The loop over the groups. -/
theorem groups_accounts {rounds : Nat} {ts0 : Int} (hs : SchedOk pol name hops n 0 s) :
    Accounts (askLedger pol enough name hops) s.own
      (untilStop (askGroup cfg rounds ts0)
        (List.range' 0 ((n + cfg.parQueries - 1) / cfg.parQueries) cfg.parQueries) s) groupOwn
      fun r => r.2.elim (SchedOk pol name hops n n r.1) fun p =>
        Stopped pol name hops n p.1 r.1 p.2 := by
  have hloop : Accounts (askLedger pol enough name hops) (groupOwn (s, none))
      (untilStop (askGroup cfg rounds ts0)
        (List.range' 0 ((n + cfg.parQueries - 1) / cfg.parQueries) cfg.parQueries) s) groupOwn
      fun r => r.2.elim (SchedOk pol name hops n
        (min (cfg.parQueries * ((n + cfg.parQueries - 1) / cfg.parQueries)) n) r.1) fun p =>
        Stopped pol name hops n p.1 r.1 p.2 := by
    refine accounts_untilStop_range' (I := fun k x =>
      SchedOk pol name hops n (min (cfg.parQueries * k) n) x)
      (T := fun x (p : Nat × Stop) => Stopped pol name hops n p.1 x p.2) ?_ (by simpa using hs)
    intro k x hk hx
    have hlt := group_count cfg.parQueries cfg.parQueries_pos hk
    rw [min_eq_left hlt.le] at hx
    rw [groupOwn_none, zero_add]
    exact askGroup_accounts hx hlt.le
  rwa [min_eq_right (groups_all _ cfg.parQueries_pos), groupOwn_none] at hloop

/-- Before the loops nothing was sent. -/
theorem schedOk_start {q : List QueryServ} {cSoa : Option UInt8}
    (hinitial : ∀ st ∈ q, st.state = .initial) (hfine : ∀ st ∈ q, pol.fine name st.toQueryStat) :
    SchedOk pol name hops q.length 0 ⟨q, 0, none, .rc rcServfail, cSoa⟩ := by
  constructor
  · rfl
  · exact le_rfl
  · exact fun k st hst => hfine st (List.mem_of_getElem? hst)
  · intro k st hst hk
    exact absurd hk (Nat.not_lt_zero k)
  · exact fun k st hst _ => hinitial st (List.mem_of_getElem? hst)
  · intro k st hst hk
    exact absurd hk (Nat.not_lt_zero k)
  · intro saved h
    cases h
  · exact fun _ => rfl

theorem askServers_accounts {rounds : Nat} {q : List QueryServ} {cSoa : Option UInt8}
    (hinitial : ∀ st ∈ q, st.state = .initial) (hfine : ∀ st ∈ q, pol.fine name st.toQueryStat) :
    Accounts (askLedger pol enough name hops) 0 (askServers cfg rounds q cSoa) askedOwn
      (AskedOk pol name hops) := by
  have hzero : Sched.own ⟨q, 0, none, .rc rcServfail, cSoa⟩ = 0 := by
    rw [Sched.own, sum_own_zero fun k st hst =>
      own_initial (hinitial st (List.mem_of_getElem? hst))]
    rfl
  rw [askServers]
  refine accounts_net_time fun ts0 => ?_
  rw [← hzero]
  refine (groups_accounts (schedOk_start hinitial hfine)).bind ?_
  rintro ⟨s, _ | ⟨mc, stop⟩⟩ hx
  · have hx : SchedOk pol name hops q.length q.length s := hx
    rw [groupOwn_none, Sched.own]
    refine (accounts_beside (stopQueries_accounts hx.length.ge ?_)).bind_part rfl ?_
    · intro k st hst hk
      rcases hk with hk | hk
      · exact own_done (hx.done k st hst hk)
      · exact own_initial (hx.initial k st hst hk)
    · rintro s' ⟨hlen, hsaved, hrv⟩
      refine accounts_pure ?_ ?_
      · rw [zero_add, askedOwn, hsaved]
        cases s.saved with
        | none => rfl
        | some saved => exact (use_own saved).symm
      · rw [AskedOk, hsaved, hrv]
        cases hsave : s.saved with
        | none => exact hx.rv hsave
        | some saved =>
            obtain ⟨hok, hqse⟩ := hx.saved saved hsave
            exact ⟨use_ok hok, hlen ▸ hqse⟩
  · have hx : Stopped pol name hops q.length mc s stop := hx
    have hcancel := @stopQueries_accounts cfg pol enough mc s (hx.length ▸ hx.le) hx.rest
    have hown : groupOwn (s, some (mc, stop)) =
        savedOwn s.saved + ((s.q.map QueryServ.own).sum + stop.own) := by
      rw [groupOwn, Sched.own, Option.elim_some]
      abel
    have hstop := hx.stop
    cases stop with
    | answer i found =>
        refine (accounts_beside freeSaved_accounts).bind_part hown fun _ _ => ?_
        rw [zero_add]
        refine (accounts_beside hcancel).bind_part rfl ?_
        rintro s' ⟨hlen, -, -⟩
        refine accounts_pure (zero_add _) ⟨hstop.2, ?_⟩
        change i < s'.q.length
        rw [hlen, hx.length]
        exact hstop.1
    | code code =>
        refine (accounts_beside freeSaved_accounts).bind_part hown fun _ _ => ?_
        rw [zero_add]
        refine (accounts_beside hcancel).bind_part rfl ?_
        rintro s' -
        exact accounts_pure (zero_add _) hstop
    | noMemory ent ns =>
        refine accounts_ask_bind
          (F := savedOwn s.saved + ((s.q.map QueryServ.own).sum + memOf ns.block))
          trivial (Multiset.zero_subset _) ?_ fun _ _ => ?_
        · rw [hown, Stop.own, Held.own]
          change _ = {Handle.mem ent.block} + _
          abel
        change Accounts _ (0 + _) _ _ _
        rw [zero_add]
        refine (accounts_beside freeSaved_accounts).bind_part rfl fun _ _ => ?_
        rw [zero_add]
        refine (accounts_beside hcancel).bind_part rfl ?_
        rintro s' -
        rw [zero_add]
        refine (accounts_beside freeBlock_accounts).bind fun _ _ => ?_
        exact accounts_pure rfl rfl

end Loops

end TorAndroid.Dns.Resolver
