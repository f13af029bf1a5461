import TorAndroid.Dns.Resolver.AskCustody

namespace TorAndroid.Dns.Resolver

open TorAndroid.Lib.Interaction TorAndroid.Lib.Ownership

section Loops

variable {cfg : ResolverConfig}

/-- The state of the `n` queries when those before `b` were sent. -/
structure SchedOk (pol : ResolverPolicy cfg) (name : Name) (hops n b : Nat) (s : Sched) : Prop where
  length : s.q.length = n
  dc : s.dc ≤ b
  fine : ∀ (k : Nat) (st : QueryServ), s.q[k]? = some st → pol.fine name st.toQueryStat
  sent : ∀ (k : Nat) (st : QueryServ), s.q[k]? = some st → k < b → st.state.sent = true
  initial : ∀ (k : Nat) (st : QueryServ), s.q[k]? = some st → b ≤ k → st.state = .initial
  done : ∀ (k : Nat) (st : QueryServ), s.q[k]? = some st → k < s.dc → st.state = .done
  saved : SavedOk pol name hops s
  rv : s.saved = none → s.rv.answered = false

/-- The state when the loops are left and the queries between `dc` and `mc` have to be
canceled. -/
structure Stopped (pol : ResolverPolicy cfg) (name : Name) (hops n mc : Nat) (s : Sched)
    (stop : Stop) : Prop where
  length : s.q.length = n
  le : mc ≤ n
  rest : ∀ (k : Nat) (st : QueryServ), s.q[k]? = some st → k < s.dc ∨ mc ≤ k → st.own = 0
  stop : StopOk pol name hops n stop

variable {pol : ResolverPolicy cfg} {enough : Prop} {name : Name} {hops n b mc i j : Nat}
  {s : Sched}

theorem own_done {st : QueryServ} (h : st.state = .done) : st.own = 0 := by
  rw [QueryServ.own, h]

theorem own_initial {st : QueryServ} (h : st.state = .initial) : st.own = 0 := by
  rw [QueryServ.own, h]

theorem Tried.schedOk {s' : Sched} (h : Tried pol name hops i s (s', none))
    (hs : SchedOk pol name hops n b s) (hdc : s.dc ≤ i) (hib : i ≤ b) :
    SchedOk pol name hops n (max b (i + 1)) s' := by
  obtain ⟨st', hst', hfine, hsent, -⟩ := h.query
  have hquery : ∀ k st, s'.q[k]? = some st → st = st' ∧ k = i ∨ k ≠ i ∧ s.q[k]? = some st := by
    intro k st hst
    by_cases hk : k = i
    · subst hk
      exact .inl ⟨Option.some.inj (hst.symm.trans hst'), rfl⟩
    · exact .inr ⟨hk, (h.others k hk).symm.trans hst⟩
  constructor
  · exact h.length.trans hs.length
  · rw [h.dc]
    omega
  · intro k st hst
    rcases hquery k st hst with ⟨rfl, -⟩ | ⟨-, hold⟩
    · exact hfine
    · exact hs.fine k st hold
  · intro k st hst hk
    rcases hquery k st hst with ⟨rfl, -⟩ | ⟨hki, hold⟩
    · exact hsent
    · exact hs.sent k st hold (by omega)
  · intro k st hst hk
    rcases hquery k st hst with ⟨-, rfl⟩ | ⟨-, hold⟩
    · omega
    · exact hs.initial k st hold (by omega)
  · intro k st hst hk
    rw [h.dc] at hk
    rcases hquery k st hst with ⟨-, rfl⟩ | ⟨-, hold⟩
    · omega
    · exact hs.done k st hold hk
  · exact h.saved
  · exact h.rv rfl

theorem Tried.stopped {s' : Sched} {stop : Stop} (h : Tried pol name hops i s (s', some stop))
    (hs : SchedOk pol name hops n b s) (hdc : s.dc ≤ i) (hb : b ≤ mc) (hmc : mc ≤ n) :
    Stopped pol name hops n mc s' stop := by
  obtain ⟨st', hst', -, -, hdone⟩ := h.query
  constructor
  · exact h.length.trans hs.length
  · exact hmc
  · intro k st hst hk
    rw [h.dc] at hk
    by_cases hki : k = i
    · subst hki
      obtain rfl : st = st' := Option.some.inj (hst.symm.trans hst')
      exact own_done (hdone rfl)
    · rw [h.others k hki] at hst
      rcases hk with hk | hk
      · exact own_done (hs.done k st hst hk)
      · exact own_initial (hs.initial k st hst (hb.trans hk))
  · rw [← hs.length]
    exact h.stop stop rfl

theorem noteDone_q : (noteDone i s).q = s.q := by
  rw [noteDone]
  split_ifs <;> rfl

theorem noteDone_own : (noteDone i s).own = s.own := by
  rw [noteDone]
  split_ifs <;> rfl

theorem SchedOk.noteDone (hs : SchedOk pol name hops n b s) (hi : i < b) :
    SchedOk pol name hops n b (noteDone i s) := by
  rw [Resolver.noteDone]
  split_ifs with hdone
  · refine { hs with dc := ?_, done := ?_ }
    · change s.dc + 1 ≤ b
      omega
    · intro k st hst hk
      rcases Nat.lt_succ_iff_lt_or_eq.mp hk with hk | rfl
      · exact hs.done k st hst hk
      · obtain ⟨hany, rfl⟩ := hdone
        rw [show s.q[s.dc]? = some st from hst] at hany
        simpa using hany
  · exact hs

theorem noteDone_dc (hdc : s.dc ≤ i) : (noteDone i s).dc ≤ i + 1 := by
  rw [noteDone]
  split_ifs with h
  · change s.dc + 1 ≤ i + 1
    omega
  · omega

/-- What is held after a part of the loops over the groups. -/
def groupOwn (r : Sched × Option (Nat × Stop)) : Multiset Handle :=
  r.1.own + r.2.elim 0 fun p => p.2.own

theorem groupOwn_none : groupOwn (s, none) = s.own :=
  add_zero _

theorem turnOwn_none : turnOwn (s, none) = s.own :=
  add_zero _

/-- The query is sent if it was not before. -/
theorem sendTurn_accounts (hs : SchedOk pol name hops n (max j i) s) (hdc : s.dc ≤ i) (hi : i < n) :
    Accounts (askLedger pol enough name hops) s.own (sendTurn j i s) groupOwn fun r =>
      r.2.elim (SchedOk pol name hops n (max j (i + 1)) r.1 ∧ r.1.dc ≤ i + 1) fun p =>
        Stopped pol name hops n p.1 r.1 p.2 := by
  rw [sendTurn]
  split_ifs with hji
  · obtain ⟨st, hst⟩ : ∃ st, s.q[i]? = some st :=
      ⟨_, List.getElem?_eq_getElem (hs.length ▸ hi)⟩
    have hinitial := hs.initial i st hst (by omega)
    refine (tryServer_accounts hst (by rw [hinitial]; rfl) (hs.fine i st hst) Nat.two_pos
      (fun _ => Nat.one_lt_two) hs.saved).bind ?_
    rintro ⟨s', stop⟩ htried
    cases stop with
    | some stop => exact accounts_pure rfl (htried.stopped hs hdc (by omega) (by omega))
    | none =>
        have hs' := htried.schedOk hs hdc (by omega)
        rw [show max (max j i) (i + 1) = max j (i + 1) by omega] at hs'
        refine accounts_pure (by rw [groupOwn_none, turnOwn_none, noteDone_own]) ⟨?_, ?_⟩
        · exact hs'.noteDone (by omega)
        · exact noteDone_dc (by rw [htried.dc]; exact hdc)
  · rw [show max j i = max j (i + 1) by omega] at hs
    refine accounts_pure (by rw [groupOwn_none, noteDone_own]) ⟨?_, noteDone_dc hdc⟩
    exact hs.noteDone (by omega)

/-- A query is changed, but not what it holds. -/
theorem setQuery_own {st st' : QueryServ} (hq : s.q[i]? = some st) (hown : st'.own = st.own) :
    (s.setQuery i st').own = s.own := by
  obtain ⟨R, hsum, hset⟩ := exists_sum_set hq
  rw [Sched.own, Sched.own, Sched.setQuery, hset, hsum, hown]

theorem SchedOk.setQuery {st st' : QueryServ} (hs : SchedOk pol name hops n b s)
    (hq : s.q[i]? = some st) (hstate : st'.state = st.state)
    (hstat : st'.toQueryStat = st.toQueryStat) : SchedOk pol name hops n b (s.setQuery i st') := by
  have hquery : ∀ (k : Nat) (st₂ : QueryServ), (s.q.set i st')[k]? = some st₂ →
      ∃ st₁, s.q[k]? = some st₁ ∧ st₂.state = st₁.state ∧ st₂.toQueryStat = st₁.toQueryStat := by
    intro k st₂ hst₂
    by_cases hk : k = i
    · subst hk
      rw [List.getElem?_set_self (List.getElem?_eq_some_iff.mp hq).1] at hst₂
      rw [← Option.some.inj hst₂]
      exact ⟨st, hq, hstate, hstat⟩
    · rw [List.getElem?_set_ne (Ne.symm hk)] at hst₂
      exact ⟨st₂, hst₂, rfl, rfl⟩
  constructor
  · rw [Sched.setQuery, List.length_set]
    exact hs.length
  · exact hs.dc
  · intro k st₂ hst₂
    obtain ⟨st₁, hst₁, -, hstat₁⟩ := hquery k st₂ hst₂
    rw [hstat₁]
    exact hs.fine k st₁ hst₁
  · intro k st₂ hst₂ hk
    obtain ⟨st₁, hst₁, hstate₁, -⟩ := hquery k st₂ hst₂
    rw [hstate₁]
    exact hs.sent k st₁ hst₁ hk
  · intro k st₂ hst₂ hk
    obtain ⟨st₁, hst₁, hstate₁, -⟩ := hquery k st₂ hst₂
    rw [hstate₁]
    exact hs.initial k st₁ hst₁ hk
  · intro k st₂ hst₂ hk
    obtain ⟨st₁, hst₁, hstate₁, -⟩ := hquery k st₂ hst₂
    rw [hstate₁]
    exact hs.done k st₁ hst₁ hk
  · intro saved hsaved
    rw [Sched.setQuery, List.length_set]
    exact hs.saved saved hsaved
  · exact hs.rv

theorem tentative_waiting {st : QueryServ} (h : st.tentative = true) : st.state.waiting = true := by
  rw [QueryServ.tentative] at h
  cases hstate : st.state <;> simp [hstate] at h <;> rfl

theorem switchToUdp_accounts {st : QueryServ} :
    Accounts (netLedger pol.toCachePolicy enough) 0 (switchToUdp st) (fun _ => 0) fun st' =>
      ∃ rid, st' = { st with qm := .udpOnly, myrid := rid, state := .udpInitial } :=
  accounts_rand fun rid => accounts_pure rfl ⟨rid, rfl⟩

/-- What is held after a part of the loop that follows a timeout. -/
def timeoutOwn (r : (Sched × Nat) × Option Stop) : Multiset Handle :=
  r.1.1.own + r.2.elim 0 Stop.own

/-- A query by TCP that was not answered goes on by UDP. -/
theorem retryByUdp_accounts {st st' : QueryServ} {count : Nat} (hs : SchedOk pol name hops n b s)
    (hb : b ≤ n) (hi : i < b) (hq : s.q[i]? = some st) (hown : st'.own = st.own)
    (hstate : st'.state = st.state) (hstat : st'.toQueryStat = st.toQueryStat)
    (htentative : st'.tentative = true) :
    Accounts (askLedger pol enough name hops) s.own
      (do
        net (.close st'.sock)
        let st ← (switchToUdp st').beside
        let (s, stop) ← tryServer i 2 (s.setQuery i st)
        pure ((s, count + 1), stop)) timeoutOwn fun r =>
      r.2.elim (SchedOk pol name hops n b r.1.1) (Stopped pol name hops n b r.1.1) := by
  obtain ⟨R, hsum, hset⟩ := exists_sum_set hq
  have hwaiting := tentative_waiting htentative
  have hdc : s.dc ≤ i := by
    by_contra hlt
    rw [hstate, hs.done i st hq (by omega)] at hwaiting
    cases hwaiting
  have hsown : s.own = {.sock st'.sock} + (st'.buffers + (R + savedOwn s.saved)) := by
    rw [Sched.own, hsum, ← hown, own_waiting hwaiting]
    abel
  refine accounts_ask_bind trivial (Multiset.zero_subset _) hsown fun _ _ => ?_
  change Accounts _ (0 + _) _ _ _
  refine (accounts_beside switchToUdp_accounts).bind_part rfl ?_
  rintro _ ⟨rid, rfl⟩
  generalize hudp :
    ({ st' with qm := .udpOnly, myrid := rid, state := .udpInitial } : QueryServ) = stu
  have hlen : i < s.q.length := (List.getElem?_eq_some_iff.mp hq).1
  have hown' : (s.setQuery i stu).own = 0 + (st'.buffers + (R + savedOwn s.saved)) := by
    rw [Sched.own, Sched.setQuery, hset, zero_add, ← hudp, add_assoc]
    rfl
  have hfine : pol.fine name stu.toQueryStat := by
    have hsame : SameServer st.toQueryStat stu.toQueryStat := by
      rw [← hudp, ← hstat]
      exact sameServer_of_eq rfl
    exact pol.same hsame (hs.fine i st hq)
  have hsaved : SavedOk pol name hops (s.setQuery i stu) := hs.saved.set
  rw [← hown']
  refine (tryServer_accounts (List.getElem?_set_self hlen) (by rw [← hudp]; rfl) hfine Nat.two_pos
    (fun _ => Nat.one_lt_two) hsaved).bind ?_
  rintro ⟨s', stop⟩ htried
  have htried := htried.of_setQuery (s := s) rfl rfl
  cases stop with
  | some stop => exact accounts_pure rfl (htried.stopped hs hdc le_rfl hb)
  | none =>
      have hs' := htried.schedOk hs hdc (by omega)
      rw [show max b (i + 1) = b by omega] at hs'
      exact accounts_pure rfl hs'

theorem timeoutTurn_accounts {x : Sched × Nat} (hs : SchedOk pol name hops n b x.1) (hb : b ≤ n)
    (hi : i < b) :
    Accounts (askLedger pol enough name hops) x.1.own (timeoutTurn i x) timeoutOwn fun r =>
      r.2.elim (SchedOk pol name hops n b r.1.1) (Stopped pol name hops n b r.1.1) := by
  obtain ⟨s, count⟩ := x
  have hlen : s.q.length = n := hs.length
  obtain ⟨st, hst⟩ : ∃ st, s.q[i]? = some st := ⟨_, List.getElem?_eq_getElem (by omega)⟩
  rw [timeoutTurn]
  dsimp only
  rw [hst]
  dsimp only
  have hmarked : ∀ st' : QueryServ, st'.own = st.own → st'.state = st.state →
      st'.toQueryStat = st.toQueryStat →
      Accounts (askLedger pol enough name hops) s.own (pure ((s.setQuery i st', count), none))
        timeoutOwn
        fun r => r.2.elim (SchedOk pol name hops n b r.1.1) (Stopped pol name hops n b r.1.1) :=
    fun st' hown hstate hstat =>
      accounts_pure ((setQuery_own hst hown).symm.trans (add_zero _).symm)
        (hs.setQuery hst hstate hstat)
  split_ifs with htested htentative htentative
  · exact retryByUdp_accounts hs hb hi hst rfl rfl rfl htentative
  · exact hmarked _ rfl rfl rfl
  · exact retryByUdp_accounts hs hb hi hst rfl rfl rfl htentative
  · exact hmarked _ rfl rfl rfl

/-- The sockets of the queries from `i` on that are under way. -/
def activeSocks (q : List QueryServ) (i mc : Nat) : List Nat :=
  (List.range' i (mc - i)).filterMap fun k =>
    (q[k]?.filter fun st => st.state ≠ .done).map QueryServ.sock

theorem activeSocks_succ {q : List QueryServ} {st : QueryServ} (hi : i < mc)
    (hq : q[i]? = some st) :
    activeSocks q i mc =
      (if st.state = .done then [] else [st.sock]) ++ activeSocks q (i + 1) mc := by
  rw [activeSocks, show mc - i = (mc - (i + 1)) + 1 by omega,
    List.range'_succ, List.filterMap_cons, hq]
  by_cases hdone : st.state = .done
  · rw [if_pos hdone, Option.filter_some_neg (by simpa using hdone)]
    rfl
  · rw [if_neg hdone, Option.filter_some_pos (by simpa using hdone)]
    rfl

theorem activeSocks_congr {q q' : List QueryServ} (h : ∀ k, i ≤ k → q'[k]? = q[k]?) :
    activeSocks q' i mc = activeSocks q i mc := by
  refine List.filterMap_congr fun k hk => ?_
  rw [h k (List.mem_range'_1.mp hk).1]

/-- What is held after a part of the loop over the events. -/
def eventOwn (r : (Sched × Polls × Int) × Option Stop) : Multiset Handle :=
  r.1.1.own + r.2.elim 0 Stop.own

theorem callable_of_waiting {state : QState} (h : state.waiting = true) :
    state.callable = true := by
  cases state <;> first | rfl | cases h

/-- What `poll` said of a query is found again, as only queries before it were dealt with. -/
theorem eventTurn_accounts {x : Sched × Polls × Int} (hs : SchedOk pol name hops n b x.1)
    (hb : b ≤ n)
    (hi : i < b) (hpolls : x.2.1.map Prod.fst = activeSocks x.1.q i b) :
    Accounts (askLedger pol enough name hops) x.1.own (eventTurn i x) eventOwn fun r =>
      r.2.elim (SchedOk pol name hops n b r.1.1 ∧
        r.1.2.1.map Prod.fst = activeSocks r.1.1.q (i + 1) b)
        (Stopped pol name hops n b r.1.1) := by
  obtain ⟨s, polls, nevents⟩ := x
  have hlen : s.q.length = n := hs.length
  obtain ⟨st, hst⟩ : ∃ st, s.q[i]? = some st := ⟨_, List.getElem?_eq_getElem (by omega)⟩
  rw [eventTurn]
  dsimp only at *
  rw [activeSocks_succ hi hst] at hpolls
  rw [hst]
  dsimp only
  split_ifs with hdone
  · rw [if_pos hdone, List.nil_append] at hpolls
    refine accounts_pure ?_ ⟨hs.noteDone hi, ?_⟩
    · rw [eventOwn, noteDone_own]
      exact (add_zero _).symm
    · rw [hpolls, noteDone_q]
  · have hwaiting : st.state.waiting = true := by
      have hsent := hs.sent i st hst hi
      rw [QState.sent, Bool.or_eq_true, decide_eq_true_iff] at hsent
      exact hsent.resolve_right hdone
    have hdc : s.dc ≤ i := by
      by_contra hlt
      exact hdone (hs.done i st hst (by omega))
    rw [if_neg hdone] at hpolls
    cases polls with
    | nil => cases hpolls
    | cons p polls =>
        obtain ⟨sock, revents⟩ := p
        obtain ⟨rfl, hrest⟩ : sock = st.sock ∧ polls.map Prod.fst = activeSocks s.q (i + 1) b := by
          simpa using hpolls
        rw [List.dropWhile_cons_of_neg (by simp)]
        dsimp only
        split_ifs
        · refine (tryServer_accounts hst (callable_of_waiting hwaiting) (hs.fine i st hst)
            Nat.two_pos
            (fun _ => Nat.one_lt_two) hs.saved).bind ?_
          rintro ⟨s', stop⟩ htried
          cases stop with
          | some stop => exact accounts_pure rfl (htried.stopped hs hdc le_rfl hb)
          | none =>
              have hs' := htried.schedOk hs hdc (by omega)
              rw [show max b (i + 1) = b by omega] at hs'
              refine accounts_pure ?_ ⟨hs'.noteDone hi, ?_⟩
              · rw [turnOwn_none, eventOwn, noteDone_own]
                exact (add_zero _).symm
              · rw [hrest]
                change _ = activeSocks (noteDone i s').q (i + 1) b
                rw [noteDone_q]
                exact (activeSocks_congr fun k hk => htried.others k (by omega)).symm
        · refine accounts_pure ?_ ⟨hs.noteDone hi, ?_⟩
          · rw [eventOwn, noteDone_own]
            exact (add_zero _).symm
          · rw [hrest, noteDone_q]

theorem SchedOk.stopped {stop : Stop} (hs : SchedOk pol name hops n b s) (hb : b ≤ mc)
    (hmc : mc ≤ n)
    (hstop : StopOk pol name hops n stop) : Stopped pol name hops n mc s stop where
  length := hs.length
  le := hmc
  rest := fun k st hst hk => by
    rcases hk with hk | hk
    · exact own_done (hs.done k st hst hk)
    · exact own_initial (hs.initial k st hst (hb.trans hk))
  stop := hstop

/-- A socket of a query that waits is held. -/
theorem sock_mem_own {st : QueryServ} (hst : st ∈ s.q) (hwaiting : st.state.waiting = true) :
    .sock st.sock ∈ s.own := by
  obtain ⟨k, hk⟩ := List.mem_iff_getElem?.mp hst
  obtain ⟨R, hsum, -⟩ := exists_sum_set hk
  rw [Sched.own, hsum, own_waiting hwaiting, add_assoc, add_assoc]
  exact Multiset.mem_add.mpr (.inl (Multiset.mem_singleton_self _))

theorem active_socks : (s.active mc).map (fun p => p.2.sock) = activeSocks s.q s.dc mc := by
  rw [Sched.active, activeSocks, List.map_filterMap]
  refine List.filterMap_congr fun k _ => ?_
  rw [Option.map_map]
  rfl

theorem mem_active {p : Nat × QueryServ} (h : p ∈ s.active mc) :
    s.dc ≤ p.1 ∧ p.1 < mc ∧ s.q[p.1]? = some p.2 ∧ p.2.state ≠ .done := by
  obtain ⟨k, hk, hp⟩ := List.mem_filterMap.mp h
  obtain ⟨st, hst, rfl⟩ := Option.map_eq_some_iff.mp hp
  obtain ⟨hq, hdone⟩ := Option.filter_eq_some_iff.mp hst
  have hrange := List.mem_range'_1.mp hk
  exact ⟨hrange.1, by omega, hq, by simpa using hdone⟩

/-- What is held after a turn of the loop around `poll`. -/
def pollOwn (r : Sched × PollEnd) : Multiset Handle :=
  r.1.own + match r.2 with
    | .stop stop => stop.own
    | _ => 0

/-- What is true after it. -/
def PollPost (pol : ResolverPolicy cfg) (name : Name) (hops n mc : Nat)
    (r : Sched × PollEnd) : Prop :=
  match r.2 with
  | .stop stop => Stopped pol name hops n mc r.1 stop
  | _ => SchedOk pol name hops n mc r.1

/-- All queries that were sent are done. -/
theorem SchedOk.allDone (hs : SchedOk pol name hops n mc s)
    (hempty : (s.active mc).isEmpty = true) :
    SchedOk pol name hops n mc { s with dc := mc } := by
  refine { hs with dc := le_rfl, saved := hs.saved, rv := hs.rv, done := ?_ }
  intro k st hst hk
  by_contra hdone
  have hlow : s.dc ≤ k := by
    by_contra hlt
    exact hdone (hs.done k st hst (by omega))
  have hmem : (k, st) ∈ s.active mc := by
    refine List.mem_filterMap.mpr ⟨k,
      List.mem_range'_1.mpr ⟨hlow, by change k < mc at hk; omega⟩, ?_⟩
    rw [show s.q[k]? = some st from hst, Option.filter_some_pos (by simpa using hdone)]
    rfl
  rw [List.isEmpty_iff.mp hempty] at hmem
  cases hmem

theorem servfail_answered : (Rv.rc rcServfail).answered = false := rfl

/-- The events that are waited for are those of sockets that are held. -/
theorem poll_uses (hs : SchedOk pol name hops n mc s) :
    Multiset.ofList (((s.active mc).map fun p => p.2.pollFd).map fun p => Handle.sock p.fd) ⊆
      s.own := by
  intro h hmem
  rw [Multiset.mem_coe, List.map_map] at hmem
  obtain ⟨p, hp, rfl⟩ := List.mem_map.mp hmem
  obtain ⟨-, hlt, hq, hdone⟩ := mem_active hp
  have hsent := hs.sent p.1 p.2 hq hlt
  rw [QState.sent, Bool.or_eq_true, decide_eq_true_iff] at hsent
  exact sock_mem_own (List.mem_of_getElem? hq) (hsent.resolve_right hdone)

/-- What `poll` said is kept in the order of the queries. -/
theorem polls_socks {socks : List Nat} {revents : List Revents} (d : Revents) :
    (socks.zipIdx.map fun p => (p.1, revents.getD p.2 d)).map Prod.fst = socks := by
  rw [List.map_map]
  exact List.zipIdx_map_fst 0 socks

theorem timeouts_accounts (hs : SchedOk pol name hops n mc s) (hmc : mc ≤ n) (hj : j ≤ mc) :
    Accounts (askLedger pol enough name hops) s.own
      (untilStop timeoutTurn (List.range' j (mc - j)) (s, 0)) timeoutOwn fun r =>
        r.2.elim (SchedOk pol name hops n mc r.1.1) (Stopped pol name hops n mc r.1.1) := by
  have hown : timeoutOwn ((s, 0), none) = s.own := add_zero _
  rw [← hown]
  refine accounts_untilStop_range (I := fun _ (x : Sched × Nat) => SchedOk pol name hops n mc x.1)
    (T := fun (x : Sched × Nat) => Stopped pol name hops n mc x.1) hj ?_ hs
  rintro i x - hi hx
  rw [show timeoutOwn (x, none) = x.1.own from add_zero _]
  exact timeoutTurn_accounts hx hmc hi

theorem events_accounts {polls : Polls} {nevents : Int} (hs : SchedOk pol name hops n mc s)
    (hmc : mc ≤ n) (hpolls : polls.map Prod.fst = activeSocks s.q s.dc mc) :
    Accounts (askLedger pol enough name hops) s.own
      (untilStop eventTurn (List.range' s.dc (mc - s.dc)) (s, polls, nevents)) eventOwn fun r =>
        r.2.elim (SchedOk pol name hops n mc r.1.1) (Stopped pol name hops n mc r.1.1) := by
  have hown : eventOwn ((s, polls, nevents), none) = s.own := add_zero _
  rw [← hown]
  refine (accounts_untilStop_range (I := fun i (x : Sched × Polls × Int) =>
    SchedOk pol name hops n mc x.1 ∧ x.2.1.map Prod.fst = activeSocks x.1.q i mc)
    (T := fun (x : Sched × Polls × Int) => Stopped pol name hops n mc x.1)
    hs.dc ?_ ⟨hs, hpolls⟩).weaken ?_
  · rintro i x - hi ⟨hx, hxpolls⟩
    rw [show eventOwn (x, none) = x.1.own from add_zero _]
    exact eventTurn_accounts hx hmc hi hxpolls
  · rintro ⟨x, stop⟩ hx
    refine ⟨rfl, ?_⟩
    cases stop with
    | none => exact hx.1
    | some stop => exact hx

theorem pollTurn_accounts {ts0 ts : Int} (hs : SchedOk pol name hops n mc s) (hmc : mc ≤ n)
    (hj : j ≤ mc) :
    Accounts (askLedger pol enough name hops) s.own (pollTurn cfg j mc ts0 ts s) pollOwn
      (PollPost pol name hops n mc) := by
  have hs' : SchedOk pol name hops n mc { s with rv := .rc rcServfail } :=
    { hs with saved := hs.saved, rv := fun _ => rfl }
  rw [pollTurn]
  dsimp only
  split_ifs with hempty
  · exact accounts_pure (add_zero _).symm (hs'.allDone hempty)
  · refine accounts_net_time fun now => ?_
    refine accounts_touch trivial (poll_uses hs) rfl (fun _ => rfl) ?_
    rintro (_ | ⟨nevents, revents⟩) _
    · exact accounts_pure (add_zero _).symm (hs'.stopped le_rfl hmc servfail_answered)
    · cases nevents with
      | zero =>
          refine (timeouts_accounts hs' hmc hj).bind ?_
          rintro ⟨⟨s', count⟩, stop⟩ hx
          cases stop with
          | some stop => exact accounts_pure rfl hx
          | none =>
              dsimp only
              split_ifs
              · refine accounts_net_time fun now => ?_
                refine accounts_pure ?_ ?_
                · split_ifs <;> rfl
                · split_ifs <;> exact hx
              · exact accounts_pure rfl hx
      | succ nevents =>
          refine (events_accounts hs' hmc ?_).bind ?_
          · rw [polls_socks]
            exact active_socks
          · rintro ⟨⟨s', polls, left⟩, stop⟩ hx
            cases stop with
            | some stop => exact accounts_pure rfl hx
            | none =>
                dsimp only
                split_ifs
                · refine accounts_pure rfl ?_
                  have hx' : SchedOk pol name hops n mc { s' with rv := .rc rcServfail } :=
                    { hx with saved := hx.saved, rv := fun _ => rfl }
                  exact hx'.stopped le_rfl hmc servfail_answered
                · exact accounts_pure rfl hx

/-- The loop around `poll`. -/
theorem pollLoop_accounts {ts0 ts : Int} {rounds : Nat} (hs : SchedOk pol name hops n mc s)
    (hmc : mc ≤ n) (hj : j ≤ mc) :
    Accounts (askLedger pol enough name hops) s.own (pollLoop cfg j mc ts0 ts rounds s) groupOwn
      fun r => r.2.elim (SchedOk pol name hops n mc r.1) fun p =>
        Stopped pol name hops n p.1 r.1 p.2 := by
  induction rounds generalizing s with
  | zero =>
      have hs' : SchedOk pol name hops n mc { s with rv := .rc rcServfail } :=
        { hs with saved := hs.saved, rv := fun _ => rfl }
      exact accounts_pure (add_zero _).symm (hs'.stopped le_rfl hmc servfail_answered)
  | succ rounds ih =>
      rw [pollLoop]
      refine (pollTurn_accounts hs hmc hj).bind ?_
      rintro ⟨s', turn⟩ hx
      cases turn with
      | stop stop => exact accounts_pure rfl hx
      | leave => exact accounts_pure rfl hx
      | again =>
          dsimp only
          rw [show pollOwn (s', .again) = s'.own from add_zero _]
          split_ifs
          · exact ih hx
          · exact accounts_pure groupOwn_none.symm hx

/-- One group: its queries are sent, and all that are under way are waited for. -/
theorem askGroup_accounts {rounds : Nat} {ts0 : Int} (hs : SchedOk pol name hops n j s)
    (hj : j ≤ n) :
    Accounts (askLedger pol enough name hops) s.own (askGroup cfg rounds ts0 j s) groupOwn
      fun r => r.2.elim (SchedOk pol name hops n (min (j + cfg.parQueries) n) r.1) fun p =>
        Stopped pol name hops n p.1 r.1 p.2 := by
  have hmc : j ≤ min (j + cfg.parQueries) n := by omega
  have hsend : Accounts (askLedger pol enough name hops) (groupOwn (s, none))
      (untilStop (sendTurn j) (List.range' s.dc (min (j + cfg.parQueries) n - s.dc)) s) groupOwn
      fun r => r.2.elim (SchedOk pol name hops n (max j (min (j + cfg.parQueries) n)) r.1 ∧
        r.1.dc ≤ min (j + cfg.parQueries) n) fun p => Stopped pol name hops n p.1 r.1 p.2 := by
    refine accounts_untilStop_range (I := fun i x => SchedOk pol name hops n (max j i) x ∧ x.dc ≤ i)
      (T := fun x (p : Nat × Stop) => Stopped pol name hops n p.1 x p.2) (hs.dc.trans hmc) ?_
        ⟨?_, le_rfl⟩
    · rintro i x - hi ⟨hx, hdc⟩
      rw [groupOwn_none]
      exact sendTurn_accounts hx hdc (by omega)
    · rw [max_eq_left hs.dc]
      exact hs
  rw [max_eq_right hmc, groupOwn_none] at hsend
  rw [askGroup]
  dsimp only
  rw [hs.length]
  refine hsend.bind ?_
  rintro ⟨s', stop⟩ hx
  cases stop with
  | some stop => exact accounts_pure rfl hx
  | none =>
      dsimp only
      rw [groupOwn_none]
      split_ifs
      · refine accounts_net_time fun ts => ?_
        exact pollLoop_accounts hx.1 (by omega) hmc
      · exact accounts_pure groupOwn_none.symm hx.1

end Loops

end TorAndroid.Dns.Resolver
