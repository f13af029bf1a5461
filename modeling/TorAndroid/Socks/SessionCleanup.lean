import TorAndroid.Socks.SessionCustody

namespace TorAndroid.Socks.Session

open TorAndroid.Lib.GuardedRun

/-- Once there is a second thread the main thread stores nothing more. -/
theorem Inv.mainAgrees_of_started {s : State} (h : Inv s) (hstarted : s.second ≠ .unstarted)
    (t : State) : t.MainAgrees s.main := by
  have hagrees := h.main
  revert hagrees
  cases s.main <;>
    simp only [State.MainAgrees, hstarted, false_and, false_implies, imp_self] <;>
    exact fun hb => absurd hb.second hstarted

/-- The second thread takes a step outside `abort`: what it held and what it
takes out of a field is kept, and what is new it holds. -/
theorem Inv.secondMoves {s t : State} (h : Inv s) (hstarted : s.second ≠ .unstarted)
    (habort : ∀ p, s.second ≠ .abort p) (hmain : t.main = s.main)
    (hmode : s.mode ≠ .abort → t.mode ≠ .abort)
    (hsockets : ∀ x ∈ t.sockets, x ∈ s.sockets ∨ x ∈ t.second.held)
    (hfields : ∀ x p, x ∈ s.fields p → x ∈ t.fields p ∨ x ∈ t.second.held)
    (hheld : ∀ x ∈ t.sockets, x ∈ s.second.held → t.Keeps x)
    (hagrees : t.SecondAgrees t.second)
    (hpending : t.second.beforeAbort = true ∨ t.mode = .abort) : Inv t where
  kept := by
    intro x hx
    rcases hsockets x hx with hold | hnew
    · cases h.kept x hold with
      | main held =>
          rw [← hmain] at held
          exact .main held
      | second held => exact hheld x hx held
      | field mode stored =>
          rcases hfields x _ stored with stored | held
          · exact .field (hmode mode) stored
          · exact .second held
      | mainAbort main stored =>
          rcases hfields x _ stored with stored | held
          · exact .mainAbort (hmain.trans main) stored
          · exact .second held
      | secondAbort second => exact absurd second (habort _)
    · exact .second hnew
  main := by
    rw [hmain]
    exact h.mainAgrees_of_started hstarted t
  second := hagrees
  pending := by
    rcases hpending with hbefore | hmode
    · exact .inr (.inr hbefore)
    · exact .inl hmode

theorem Inv.secondLeaves {s : State} (h : Inv s) (hstarted : s.second ≠ .unstarted)
    (habort : ∀ p, s.second ≠ .abort p)
    (hheld : ∀ x ∈ s.sockets, x ∈ s.second.held →
      State.Keeps { s with second := .abort .enter } x) :
    Inv { s with second := .abort .enter } :=
  h.secondMoves hstarted habort rfl id (fun _ hx => .inl hx)
    (fun _ p stored => .inl (by cases p <;> exact stored)) hheld trivial (.inl rfl)

theorem Inv.secondEnters {s : State} (h : Inv s) (hsecond : s.second = .abort .enter) :
    Inv { s with mode := .abort, second := .abort .remote } where
  kept := by
    intro x hx
    cases h.kept x hx with
    | main held => exact .main held
    | second held => simp [hsecond, SecondPoint.held] at held
    | field _ stored => exact .secondAbort rfl (by exact stored)
    | mainAbort main stored => exact .mainAbort main (by exact stored)
    | secondAbort second stored =>
        rw [hsecond] at second
        cases second
        cases stored
  main := h.mainAgrees_of_started (by simp [hsecond]) _
  second := trivial
  pending := .inl rfl

theorem Inv.secondPasses {s : State} {p : AbortPoint} {p' : Option AbortPoint} (h : Inv s)
    (hsecond : s.second = .abort p) (hbegun : p ≠ .enter ∨ s.mode = .abort)
    (hpass : ∀ x ∈ s.sockets, x ∈ s.fields p → ∃ q, p' = some q ∧ x ∈ s.fields q) :
    Inv { s with second := .resume p' } where
  kept := by
    intro x hx
    cases h.kept x hx with
    | main held => exact .main held
    | second held => simp [hsecond, SecondPoint.held] at held
    | field mode stored => exact .field mode (by exact stored)
    | mainAbort main stored => exact .mainAbort main (by exact stored)
    | secondAbort second stored =>
        rw [hsecond] at second
        cases second
        obtain ⟨q, rfl, stored⟩ := hpass x hx stored
        exact .secondAbort rfl (by exact stored)
  main := h.mainAgrees_of_started (by simp [hsecond]) _
  second := by cases p' <;> trivial
  pending := by
    rcases h.pending with hmode | hbefore | hbefore
    · exact .inl hmode
    · exact .inr (.inl hbefore)
    · rcases hbegun with hp | hmode
      · simp [hsecond, SecondPoint.beforeAbort, AbortPoint.inside, hp] at hbefore
      · exact .inl hmode

theorem secondAbort_inv {route : Route} {s t : State} {busy : Bool} {p : AbortPoint}
    {p' : Option AbortPoint} {outcome : Outcome} (h : Inv s) (hsecond : s.second = .abort p)
    (hok : outcome ≠ .failed) (hstep : abortStep route s busy p outcome = some (t, p')) :
    Inv { t with second := .resume p' } := by
  rcases abortStep_cases hok hstep with ⟨rfl, hmode, rfl, rfl⟩ | ⟨rfl, rfl, rfl⟩ |
    ⟨hp, hcloses, hpass⟩
  · exact h.secondPasses hsecond (.inr hmode) (by simp [State.fields])
  · exact h.secondEnters hsecond
  · exact (h.closes hcloses).secondPasses (hcloses.second.trans hsecond) (.inl hp) hpass

theorem Inv.secondAccepts {s t : State} {x : Socket} {q : SecondPoint} (h : Inv s)
    (hsecond : s.second = .accept) (hq : q = .heldRight x ∨ q = .heldForeign x)
    (hstep : s.acceptFrom = some (t, x)) : Inv { t with second := q } := by
  have hremote : s.remote_sock = none := by
    have hagrees := h.second
    rwa [hsecond] at hagrees
  have hheld : x ∈ q.held := by rcases hq with rfl | rfl <;> simp [SecondPoint.held]
  have hagrees {t : State} (ht : t.remote_sock = none) : t.SecondAgrees q := by
    rcases hq with rfl | rfl <;> exact ht
  have hbefore : q.beforeAbort = true := by rcases hq with rfl | rfl <;> rfl
  unfold State.acceptFrom at hstep
  split at hstep
  · rename_i session hss
    cases hstep
    refine h.secondMoves (by simp [hsecond]) (by simp [hsecond]) rfl id (fun _ hx => .inl hx) ?_
      (by simp [hsecond, SecondPoint.held]) (hagrees hremote) (.inl hbefore)
    intro y p stored
    by_cases hy : y = .proxySocket
    · subst hy
      exact .inr hheld
    · left
      refine mem_fields_of (s := s) ?_ ?_ ?_ p stored
      · rfl
      · exact id
      · cases session <;> simp [State.serverSockets, hss, hy]
  · split at hstep
    · cases hstep
      refine h.secondMoves (by simp [hsecond]) (by simp [hsecond]) rfl id ?_
        (fun _ p stored => .inl (by cases p <;> exact stored))
        (by simp [hsecond, SecondPoint.held]) (hagrees hremote) (.inl hbefore)
      intro y hy
      rcases List.mem_cons.mp hy with rfl | hy
      · exact .inr hheld
      · exact .inl hy
    · cases hstep
  · cases hstep

theorem Inv.secondHolds {s : State} {q : SecondPoint} (h : Inv s)
    (hstarted : s.second ≠ .unstarted) (habort : ∀ p, s.second ≠ .abort p)
    (hheld : ∀ x ∈ s.sockets, x ∈ s.second.held → x ∈ q.held) (hagrees : s.SecondAgrees q)
    (hbefore : q.beforeAbort = true ∨ s.mode = .abort) : Inv { s with second := q } :=
  h.secondMoves hstarted habort rfl id (fun _ hx => .inl hx)
    (fun _ p stored => .inl (by cases p <;> exact stored))
    (fun x hx held => .second (hheld x hx held)) (by cases q <;> exact hagrees) hbefore

theorem Inv.secondDispatches {s : State} (h : Inv s) (hsecond : s.second = .dispatch) :
    Inv { s with second := dispatchOn s.mode } := by
  have hagrees := h.second
  rw [hsecond] at hagrees
  obtain ⟨hstart, hremote⟩ := hagrees
  apply h.secondHolds (by simp [hsecond]) (by simp [hsecond]) (by simp [hsecond, SecondPoint.held])
  · cases hmode : s.mode with
    | accept => exact hremote hmode
    | start | pipe | abort => trivial
  · cases hmode : s.mode with
    | accept | pipe => exact .inl rfl
    | abort => exact .inr rfl
    | start => contradiction

theorem Inv.secondRecords {s : State} {x : Socket} (h : Inv s) (hsecond : s.second = .record x) :
    Inv { s with remote_sock := some x, second := .reply x } := by
  have hremote : s.remote_sock = none := by
    have hagrees := h.second
    rwa [hsecond] at hagrees
  refine h.secondMoves (by simp [hsecond]) (by simp [hsecond]) rfl id (fun _ hx => .inl hx) ?_ ?_
    rfl (.inl rfl)
  · intro y p stored
    left
    cases p with
    | remote =>
        have hrest : y ∈ s.fields .sock := by simpa [State.fields, hremote] using stored
        exact List.mem_append_right _ hrest
    | enter | sock | relay | server => exact stored
  · intro y _ held
    rw [hsecond] at held
    exact .second held

/-- `mode = PIPE_MODE` makes `abort` run once more, so that the accepted
connection is closed even if it was stored behind another thread's back. -/
theorem Inv.secondPipes {s : State} {x : Socket} (h : Inv s) (hsecond : s.second = .setMode x) :
    Inv { s with mode := .pipe, second := .pipe } := by
  have hremote : s.remote_sock = some x := by
    have hagrees := h.second
    rwa [hsecond] at hagrees
  refine h.secondMoves (by simp [hsecond]) (by simp [hsecond]) rfl (by simp)
    (fun _ hx => .inl hx) (fun _ p stored => .inl (by cases p <;> exact stored)) ?_ trivial
    (.inl rfl)
  intro y _ held
  have hy : y = x := by simpa [hsecond, SecondPoint.held] using held
  apply State.Keeps.field
  · simp
  · simp [State.fields, hremote, hy]

/-- When `doAccept` throws after `remote_sock = s`, the condition leaves `s` to
an `abort`. -/
theorem Inv.replyFails {s : State} {x : Socket} (h : Inv s) (hsecond : s.second = .reply x)
    (hok : storesFirst s (.second .failed) = true) :
    Inv { s with second := .abort .enter } := by
  have hremote : s.remote_sock = some x := by
    have hagrees := h.second
    rwa [hsecond] at hagrees
  apply h.secondLeaves (by simp [hsecond]) (by simp [hsecond])
  intro y hy held
  have hyx : y = x := by simpa [hsecond, SecondPoint.held] using held
  subst hyx
  simp only [storesFirst, hsecond, Bool.or_eq_true, decide_eq_true_eq, ne_eq] at hok
  rcases hok with (hclosed | hmode) | hmain
  · contradiction
  · refine .field hmode ?_
    simp [State.fields, hremote]
  · refine .mainAbort hmain ?_
    simp [State.fields, hremote]

theorem Inv.secondThrows {s t : State} {q : SecondPoint} (h : Inv s) (hcloses : Closes s t)
    (hsecond : s.second = q) (hheld : ∀ x ∈ t.sockets, x ∉ q.held)
    (hstarted : q ≠ .unstarted) (habort : ∀ p, q ≠ .abort p) :
    Inv { t with second := .abort .enter } := by
  have ht : t.second = q := hcloses.second.trans hsecond
  apply (h.closes hcloses).secondLeaves
  · rwa [ht]
  · rwa [ht]
  · intro x hx held
    rw [ht] at held
    exact absurd held (hheld x hx)

theorem not_mem_held_of_closed {s : State} {x : Socket} (hx : x ∉ s.sockets) :
    ∀ y ∈ s.sockets, y ∉ [x] := by
  rintro y hy hyx
  rw [List.mem_singleton] at hyx
  exact hx (hyx ▸ hy)

theorem secondStep_inv {route : Route} {s s' : State} {outcome : Outcome} (h : Inv s)
    (hok : storesFirst s (.second outcome) = true)
    (hstep : secondStep route s outcome = some s') : Inv s' := by
  have hagrees := h.second
  unfold secondStep at hstep
  split at hstep
  · rename_i hsecond
    cases hstep
    exact h.secondDispatches hsecond
  · rename_i hsecond
    simp only [Option.map_eq_some_iff, Prod.exists] at hstep
    obtain ⟨t, x, hstep, rfl⟩ := hstep
    exact h.secondAccepts hsecond (.inl rfl) hstep
  · rename_i hsecond
    simp only [Option.map_eq_some_iff, Prod.exists] at hstep
    obtain ⟨t, x, hstep, rfl⟩ := hstep
    exact h.secondAccepts hsecond (.inr rfl) hstep
  · rename_i hsecond
    split at hstep
    · cases hstep
      exact h.secondThrows (closes_close s _) hsecond (by simp [SecondPoint.held]) (by simp)
        (by simp)
    · cases hstep
  · -- the connection from the right host
    rename_i x hsecond
    cases hstep
    rw [hsecond] at hagrees
    have hclosed : s.closeServer.second = .heldRight x := hsecond
    exact (h.closes (closes_closeServer s)).secondHolds (by simp [hclosed]) (by simp [hclosed])
      (by simp [hclosed, SecondPoint.held]) hagrees (.inl rfl)
  · -- a connection from another host
    rename_i x hsecond
    rw [hsecond] at hagrees
    have hcloses := closes_close s [x]
    split at hstep
    · cases hstep
      have hx : x ∉ (s.close [x]).closeServer.sockets := by
        intro hx
        have hopen := (closes_closeServer _).sockets hx
        simp at hopen
      exact h.secondThrows (hcloses.trans (closes_closeServer _)) hsecond
        (not_mem_held_of_closed hx) (by simp) (by simp)
    · cases hstep
      have hclosed : (s.close [x]).second = .heldForeign x := hsecond
      exact (h.closes hcloses).secondHolds (by simp [hclosed]) (by simp [hclosed])
        (by simp [hclosed, SecondPoint.held]) hagrees (.inl rfl)
  · rename_i x hsecond
    cases hstep
    exact h.secondThrows (closes_close s [x]) hsecond (not_mem_held_of_closed (by simp))
      (by simp) (by simp)
  · rename_i x hsecond
    cases hstep
    exact h.secondRecords hsecond
  · rename_i x hsecond
    cases hstep
    rw [hsecond] at hagrees
    exact h.secondHolds (by simp [hsecond]) (by simp [hsecond])
      (by simp [hsecond, SecondPoint.held]) hagrees (.inl rfl)
  · rename_i x hsecond
    cases hstep
    exact h.secondPipes hsecond
  · rename_i hsecond
    cases hstep
    exact h.secondThrows (Closes.refl s) hsecond (by simp [SecondPoint.held]) (by simp) (by simp)
  · rename_i hsecond
    cases hstep
    exact h.secondThrows (Closes.refl s) hsecond (by simp [SecondPoint.held]) (by simp) (by simp)
  · rename_i x hsecond
    cases hstep
    have hx : x ∉ s.sockets := by simpa [storesFirst, hsecond] using hok
    exact h.secondThrows (Closes.refl s) hsecond (not_mem_held_of_closed hx) (by simp) (by simp)
  · rename_i x hsecond
    cases hstep
    have hx : x ∉ s.sockets := by simpa [storesFirst, hsecond] using hok
    exact h.secondThrows (Closes.refl s) hsecond (not_mem_held_of_closed hx) (by simp) (by simp)
  · rename_i hsecond
    cases hstep
    exact h.replyFails hsecond hok
  · rename_i p hsecond
    simp only [Option.map_eq_some_iff, Prod.exists] at hstep
    obtain ⟨t, p', hstep, rfl⟩ := hstep
    apply secondAbort_inv h hsecond _ hstep
    rintro rfl
    simp [storesFirst, hsecond] at hok
  · cases hstep

theorem relayAbort_inv {s s' : State} {outcome : Outcome} (h : Inv s)
    (hstep : relayAbort s outcome = some s') : Inv s' := by
  unfold relayAbort at hstep
  split at hstep
  · cases hstep
    exact h.closes (closes_abortRelay s _)
  · cases hstep
    exact h.closes (closes_abortRelay s _)
  · cases hstep

theorem Inv.relayEnds {s : State} {pipe1 pipe2 : RelayThread} (h : Inv s) :
    Inv { s with pipe1, pipe2 } :=
  h.closes ⟨rfl, rfl, rfl, rfl, List.Subset.refl _, id, id,
    fun _ _ p hp => by cases p <;> exact hp⟩

theorem step_inv {route : Route} {s s' : State} {a : Action} (h : Inv s)
    (hok : storesFirst s a = true) (hstep : step route s a = some s') : Inv s' := by
  cases a with
  | main outcome => exact mainStep_inv h hok hstep
  | second outcome => exact secondStep_inv h hok hstep
  | pipe1 outcome =>
      simp only [step] at hstep
      split at hstep
      · obtain ⟨t, ht, rfl⟩ := Option.map_eq_some_iff.mp hstep
        exact (relayAbort_inv h ht).relayEnds
      · cases hstep
  | pipe2 outcome =>
      simp only [step] at hstep
      split at hstep
      · obtain ⟨t, ht, rfl⟩ := Option.map_eq_some_iff.mp hstep
        exact (relayAbort_inv h ht).relayEnds
      · cases hstep

/-- In every session, whatever the interleaving of its threads, in which no
operation throws while its thread holds a socket that is not in a field, no
`doAccept` throws after storing a connection that `abort` has missed, and no
`close` in `abort` throws: once all threads have ended, every socket of the
session is closed. -/
theorem session_closes (route : Route) {hist : List Action} {s : State}
    (hrun : Run (step route) (fun s a => storesFirst s a = true) State.init hist s)
    (hended : s.allEnded) : s.sockets = [] :=
  (Run.invariant (I := fun _ s => Inv s) inv_init
    (fun _ _ _ _ h hok hs => step_inv h hok hs) hrun).sockets_nil hended

/-- A BIND session: a foreign host connects first, the right host second, and
the client hangs up while the accept thread sends the second reply. -/
def bindSession : List Action :=
  [.main (.request .bind), .main .ok, .main .ok, .second .ok, .second .foreign, .second .ok,
    .second .ok, .second .ok, .main .ok, .main .ok, .main .ok, .second .ok, .second .ok,
    .second .ok, .main .ok, .main .ok, .main .ok, .second .ok, .second .ok, .second .ok,
    .second .ok, .second .ok, .second .ok]

theorem session_closes_bindSession :
    ∃ s : State, s.accepted = 2 ∧ s.allEnded ∧ s.sockets = [] := by
  obtain ⟨s, hs, haccepted, hended⟩ : ∃ s,
      execute (step .noProxy) (fun s a => storesFirst s a = true) State.init bindSession =
        some s ∧ s.accepted = 2 ∧ s.allEnded :=
    ⟨_, rfl, rfl, rfl, .inr rfl, by decide, by decide⟩
  exact ⟨s, haccepted, hended, session_closes .noProxy (run_of_execute hs) hended⟩

/-- The client is gone when `onConnect` sends its reply. -/
def connectSession : List Action :=
  [.main (.request .connect), .main .ok, .main .ok, .main .failed, .main .ok, .main .ok,
    .main .ok, .main .ok, .main .ok]

/-- The outbound socket, connected but not yet in `remote_sock`, stays open. -/
theorem session_leaks_connect :
    ∃ s, Run (step .noProxy) Always State.init connectSession.reverse s ∧ s.allEnded ∧
      s.sockets = [.connect] := by
  obtain ⟨s, hs, hended, hsockets⟩ : ∃ s,
      execute (step .noProxy) Always State.init connectSession = some s ∧ s.allEnded ∧
        s.sockets = [.connect] :=
    ⟨_, rfl, ⟨rfl, .inl rfl, by decide, by decide⟩, rfl⟩
  exact ⟨s, run_of_execute hs, hended, hsockets⟩

end TorAndroid.Socks.Session
