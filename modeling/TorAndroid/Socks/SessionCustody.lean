import TorAndroid.Socks.Session

namespace TorAndroid.Socks.Session

/-- The sockets the second thread has accepted and `abort` may not find. -/
def SecondPoint.held : SecondPoint → List Socket
  | .heldRight x | .heldForeign x | .record x | .reply x | .setMode x => [x]
  | _ => []

/-- What a thread at a point of `abort` is still going to close. -/
def State.fields (s : State) : AbortPoint → List Socket
  | .enter => []
  | .remote => s.remote_sock.toList ++ .client :: (s.relaySockets ++ s.serverSockets)
  | .sock => .client :: (s.relaySockets ++ s.serverSockets)
  | .relay => s.relaySockets ++ s.serverSockets
  | .server => s.serverSockets

/-- Someone is going to close `x`: a thread holds it, or it is in a field and
`abort` is still to come, or a thread in `abort` has not passed that field. -/
inductive State.Keeps (s : State) (x : Socket) : Prop
  | main (held : x ∈ s.main.held)
  | second (held : x ∈ s.second.held)
  | field (mode : s.mode ≠ .abort) (stored : x ∈ s.fields .remote)
  | mainAbort {p : AbortPoint} (main : s.main = .abort p) (stored : x ∈ s.fields p)
  | secondAbort {p : AbortPoint} (second : s.second = .abort p) (stored : x ∈ s.fields p)

structure State.Blank (s : State) : Prop where
  mode : s.mode = .start
  second : s.second = .unstarted
  remote_sock : s.remote_sock = none
  ss : s.ss = none
  relayServer : s.relayServer = .none

def State.MainAgrees (s : State) : MainPoint → Prop
  | .connectStreams => s.second = .unstarted ∧ s.mode = .pipe
  | .bindReply => s.second = .unstarted ∧ s.mode = .start ∧ s.remote_sock = none
  | .udpReply | .udpStartPipe2 => s.second = .unstarted ∧ s.mode = .start
  | .serving | .abort _ | .ended => True
  | _ => s.Blank

def State.SecondAgrees (s : State) : SecondPoint → Prop
  | .dispatch => s.mode ≠ .start ∧ (s.mode = .accept → s.remote_sock = none)
  | .accept | .heldRight _ | .heldForeign _ | .record _ => s.remote_sock = none
  | .reply x | .setMode x => s.remote_sock = some x
  | .unstarted | .pipe | .abort _ | .ended => True

def MainPoint.beforeAbort : MainPoint → Bool
  | .abort p => !p.inside
  | .ended => false
  | _ => true

def SecondPoint.beforeAbort : SecondPoint → Bool
  | .abort p => !p.inside
  | .unstarted | .ended => false
  | _ => true

structure Inv (s : State) : Prop where
  kept : ∀ x ∈ s.sockets, s.Keeps x
  main : s.MainAgrees s.main
  second : s.SecondAgrees s.second
  -- Unless `abort` has begun, some thread is going to run it.
  pending : s.mode = .abort ∨ s.main.beforeAbort = true ∨ s.second.beforeAbort = true

theorem inv_init : Inv State.init where
  kept := by
    intro x hx
    apply State.Keeps.field
    · simp [State.init]
    · have hclient : x = .client := by simpa [State.init] using hx
      simp [hclient, State.fields]
  main := ⟨rfl, rfl, rfl, rfl, rfl⟩
  second := trivial
  pending := .inr (.inl rfl)

/-- When all threads have ended, `abort` has begun and nobody is going to close
a socket, so none is open. -/
theorem Inv.sockets_nil {s : State} (h : Inv s) (hended : s.allEnded) : s.sockets = [] := by
  obtain ⟨hmain, hsecond, -, -⟩ := hended
  have hmode : s.mode = .abort := by
    rcases h.pending with hmode | hbefore | hbefore
    · exact hmode
    · simp [hmain, MainPoint.beforeAbort] at hbefore
    · rcases hsecond with hsecond | hsecond <;>
        simp [hsecond, SecondPoint.beforeAbort] at hbefore
  apply List.eq_nil_iff_forall_not_mem.mpr
  intro x hx
  cases h.kept x hx with
  | main held => simp [hmain, MainPoint.held] at held
  | second held =>
      rcases hsecond with hsecond | hsecond <;> simp [hsecond, SecondPoint.held] at held
  | field mode => exact mode hmode
  | mainAbort main => simp [hmain] at main
  | secondAbort second => rcases hsecond with hsecond | hsecond <;> simp [hsecond] at second

/-- From `s` to `t` sockets are closed and, at most, fields cleared of closed
ones. -/
structure Closes (s t : State) : Prop where
  mode : t.mode = s.mode
  main : t.main = s.main
  second : t.second = s.second
  remote_sock : t.remote_sock = s.remote_sock
  sockets : t.sockets ⊆ s.sockets
  ss : s.ss = none → t.ss = none
  relayServer : s.relayServer = .none → t.relayServer = .none
  fields : ∀ x ∈ t.sockets, ∀ p, x ∈ s.fields p → x ∈ t.fields p

@[simp]
theorem mem_sockets_close {s : State} {xs : List Socket} {x : Socket} :
    x ∈ (s.close xs).sockets ↔ x ∈ s.sockets ∧ x ∉ xs := by
  simp [State.close]

theorem closes_close (s : State) (xs : List Socket) : Closes s (s.close xs) where
  mode := rfl
  main := rfl
  second := rfl
  remote_sock := rfl
  sockets := by
    intro x hx
    exact (mem_sockets_close.mp hx).1
  ss := id
  relayServer := id
  fields := by
    intro x _ p hp
    cases p <;> exact hp

theorem mem_fields_of {s t : State} {x : Socket} (hremote : t.remote_sock = s.remote_sock)
    (hrelay : x ∈ s.relaySockets → x ∈ t.relaySockets)
    (hserver : x ∈ s.serverSockets → x ∈ t.serverSockets) (p : AbortPoint)
    (hp : x ∈ s.fields p) : x ∈ t.fields p := by
  cases p <;> simp only [State.fields, hremote, List.mem_append, List.mem_cons] at hp ⊢ <;> tauto

theorem Closes.refl (s : State) : Closes s s :=
  ⟨rfl, rfl, rfl, rfl, List.Subset.refl _, id, id, fun _ _ _ hp => hp⟩

theorem Closes.trans {s t u : State} (hst : Closes s t) (htu : Closes t u) : Closes s u where
  mode := htu.mode.trans hst.mode
  main := htu.main.trans hst.main
  second := htu.second.trans hst.second
  remote_sock := htu.remote_sock.trans hst.remote_sock
  sockets := List.Subset.trans htu.sockets hst.sockets
  ss := htu.ss ∘ hst.ss
  relayServer := htu.relayServer ∘ hst.relayServer
  fields := by
    intro x hx p hp
    exact htu.fields x hx p (hst.fields x (htu.sockets hx) p hp)

theorem closes_closeServer (s : State) : Closes s s.closeServer where
  mode := rfl
  main := rfl
  second := rfl
  remote_sock := rfl
  sockets := (closes_close s s.serverSockets).sockets
  ss := by
    intro hss
    simp [State.closeServer, hss]
  relayServer := id
  fields := by
    intro x hx p hp
    have hnot : x ∉ s.serverSockets := (mem_sockets_close.mp hx).2
    refine mem_fields_of (s := s) ?_ ?_ ?_ p hp
    · rfl
    · exact id
    · exact fun hserver => absurd hserver hnot

theorem closes_abortRelay (s : State) (control : List Socket) :
    Closes s (s.abortRelay control) := by
  unfold State.abortRelay
  split
  · rename_i hstarted
    refine ⟨rfl, rfl, rfl, rfl, (closes_close s _).sockets, id, ?_, ?_⟩
    · intro hnone
      simp [hstarted] at hnone
    · intro x hx p hp
      have hnot : x ∉ s.relaySockets := by
        have hclosed := (mem_sockets_close.mp hx).2
        simp only [List.mem_append, not_or] at hclosed
        exact hclosed.1
      refine mem_fields_of (s := s) ?_ ?_ ?_ p hp
      · rfl
      · exact fun hrelay => absurd hrelay hnot
      · exact id
  · exact Closes.refl s

theorem relaySockets_abortRelay (s : State) (control : List Socket) :
    (s.abortRelay control).relaySockets = [] := by
  unfold State.abortRelay
  split
  · rfl
  · rename_i hnot
    unfold State.relaySockets
    split
    · contradiction
    · rfl

theorem serverSockets_closeServer (s : State) :
    s.closeServer.serverSockets ⊆ s.serverSockets := by
  intro x hx
  rcases hss : s.ss with _ | _ | _ | _ | _ <;>
    simp_all [State.closeServer, State.serverSockets, ServerSocket.closed]

theorem Inv.closes {s t : State} (h : Inv s) (hc : Closes s t) : Inv t where
  kept := by
    intro x hx
    cases h.kept x (hc.sockets hx) with
    | main held =>
        apply State.Keeps.main
        rw [hc.main]
        exact held
    | second held =>
        apply State.Keeps.second
        rw [hc.second]
        exact held
    | field mode stored =>
        apply State.Keeps.field
        · rw [hc.mode]
          exact mode
        · exact hc.fields x hx _ stored
    | mainAbort main stored =>
        exact .mainAbort (hc.main.trans main) (hc.fields x hx _ stored)
    | secondAbort second stored =>
        exact .secondAbort (hc.second.trans second) (hc.fields x hx _ stored)
  main := by
    have hmain := h.main
    have hblank : s.Blank → t.Blank := by
      rintro ⟨hmode, hsecond, hremote, hss, hrelay⟩
      exact ⟨hc.mode.trans hmode, hc.second.trans hsecond, hc.remote_sock.trans hremote,
        hc.ss hss, hc.relayServer hrelay⟩
    rw [hc.main]
    revert hmain
    cases s.main <;> simp only [State.MainAgrees, hc.mode, hc.second, hc.remote_sock, imp_self] <;>
      exact hblank
  second := by
    have hsecond := h.second
    rw [hc.second]
    revert hsecond
    cases s.second <;> simp only [State.SecondAgrees, hc.mode, hc.remote_sock, imp_self]
  pending := by
    rw [hc.mode, hc.main, hc.second]
    exact h.pending

theorem Inv.mainLeaves {s : State} (h : Inv s) (hheld : ∀ x ∈ s.main.held, x ∉ s.sockets)
    (habort : ∀ p, s.main ≠ .abort p) : Inv { s with main := .abort .enter } where
  kept := by
    intro x hx
    cases h.kept x hx with
    | main held => exact absurd hx (hheld x held)
    | second held => exact .second held
    | field mode stored => exact .field mode (by exact stored)
    | mainAbort main => exact absurd main (habort _)
    | secondAbort second stored => exact .secondAbort second (by exact stored)
  main := trivial
  second := by
    have hsecond := h.second
    revert hsecond
    cases s.second <;> exact id
  pending := .inr (.inl rfl)

theorem Inv.held_or_stored {s : State} (h : Inv s) (hsecond : s.second = .unstarted)
    (habort : ∀ p, s.main ≠ .abort p) {x : Socket} (hx : x ∈ s.sockets) :
    x ∈ s.main.held ∨ x ∈ s.fields .remote := by
  cases h.kept x hx with
  | main held => exact .inl held
  | second held => simp [hsecond, SecondPoint.held] at held
  | field _ stored => exact .inr stored
  | mainAbort main => exact absurd main (habort _)
  | secondAbort second => simp [hsecond] at second

theorem inv_of_early {t : State} (hmode : t.mode ≠ .abort) (hbefore : t.main.beforeAbort = true)
    (hmain : t.MainAgrees t.main) (hsecond : t.SecondAgrees t.second)
    (hkept : ∀ x ∈ t.sockets, x ∈ t.main.held ∨ x ∈ t.fields .remote) : Inv t where
  kept := by
    intro x hx
    rcases hkept x hx with held | stored
    · exact .main held
    · exact .field hmode stored
  main := hmain
  second := hsecond
  pending := .inr (.inl hbefore)

theorem State.Blank.fields {s : State} (hb : s.Blank) : s.fields .remote = [.client] := by
  simp [State.fields, State.relaySockets, State.serverSockets, hb.remote_sock, hb.ss,
    hb.relayServer]

/-- The points of the main thread before anything is stored. -/
def MainPoint.opening : MainPoint → Bool
  | .connectStreams | .bindReply | .udpReply | .udpStartPipe2 | .serving | .abort _ | .ended =>
      false
  | _ => true

theorem mainAgrees_of_opening {p : MainPoint} (hp : p.opening = true) (t : State) :
    t.MainAgrees p ↔ t.Blank := by
  cases p <;> simp_all [MainPoint.opening, State.MainAgrees]

theorem beforeAbort_of_opening {p : MainPoint} (hp : p.opening = true) :
    p.beforeAbort = true := by
  cases p <;> simp_all [MainPoint.opening, MainPoint.beforeAbort]

theorem Inv.blank {s : State} (h : Inv s) (hopening : s.main.opening = true) : s.Blank :=
  (mainAgrees_of_opening hopening s).mp h.main

/-- Before anything is stored, the main thread takes a step: what it opens and
what it held is now held or stored. -/
theorem Inv.fromBlank {s t : State} (new : List Socket) (h : Inv s)
    (hopening : s.main.opening = true) (hsockets : t.sockets = new ++ s.sockets)
    (hheld : ∀ x ∈ new ++ s.main.held, x ∈ t.main.held ∨ x ∈ t.fields .remote)
    (hmode : t.mode ≠ .abort) (hsecond : t.second = .unstarted)
    (hbefore : t.main.beforeAbort = true) (hmain : t.MainAgrees t.main) : Inv t := by
  have hb := h.blank hopening
  have habort (p : AbortPoint) : s.main ≠ .abort p := by
    intro hp
    simp [hp, MainPoint.opening] at hopening
  apply inv_of_early hmode hbefore hmain
  · simp [hsecond, State.SecondAgrees]
  · intro x hx
    rw [hsockets, List.mem_append] at hx
    rcases hx with hnew | hold
    · exact hheld x (List.mem_append_left _ hnew)
    · rcases h.held_or_stored hb.second habort hold with held | stored
      · exact hheld x (List.mem_append_right _ held)
      · rw [hb.fields, List.mem_singleton] at stored
        right
        simp [stored, State.fields]

theorem Inv.holdsMore {s : State} {p : MainPoint} (new : List Socket) (h : Inv s)
    (hopening : s.main.opening = true) (hp : p.opening = true)
    (hheld : new ++ s.main.held ⊆ p.held) :
    Inv { s with sockets := new ++ s.sockets, main := p } := by
  have hb := h.blank hopening
  refine h.fromBlank new hopening rfl (fun x hx => .inl (hheld hx)) ?_ hb.second
    (beforeAbort_of_opening hp) ?_
  · simp [hb.mode]
  · apply (mainAgrees_of_opening hp _).mpr
    exact ⟨hb.mode, hb.second, hb.remote_sock, hb.ss, hb.relayServer⟩

theorem mem_relaySockets {s t : State} {x : Socket} (hx : x ∈ s.relaySockets)
    (hstarted : t.relayServer = .started) : x ∈ t.relaySockets := by
  unfold State.relaySockets at hx ⊢
  split at hx
  · simpa [hstarted] using hx
  · cases hx

theorem mainProceeds_inv {route : Route} {s s' : State} (h : Inv s)
    (hstep : mainProceeds route s s.main = some s') : Inv s' := by
  have hagrees := h.main
  have hstored := @Inv.held_or_stored s h
  generalize hmain : s.main = p at hstep hagrees hstored
  cases p with
  | begin | abort | ended => cases hstep
  | connectOpen =>
      cases hstep
      exact h.holdsMore [.connect] (by rw [hmain]; rfl) rfl (by simp [hmain, MainPoint.held])
  | connectDial =>
      cases hstep
      exact h.holdsMore [] (by rw [hmain]; rfl) rfl (by simp [hmain, MainPoint.held])
  | connectReply =>
      cases hstep
      exact h.holdsMore [] (by rw [hmain]; rfl) rfl (by simp [hmain, MainPoint.held])
  | connectRecord =>
      cases hstep
      refine h.fromBlank [] (by rw [hmain]; rfl) rfl ?_ ?_ hagrees.second rfl
        ⟨hagrees.second, rfl⟩
      · simp [hmain, MainPoint.held, State.fields]
      · simp
  | connectStreams =>
      cases hstep
      obtain ⟨hsecond, hmode⟩ := hagrees
      refine inv_of_early ?_ rfl trivial ?_ fun x hx => hstored hsecond (by simp) hx
      · simp [hmode]
      · simp [State.SecondAgrees, hmode]
  | bindOpen =>
      simp only [mainProceeds] at hstep
      split at hstep
      · cases hstep
        refine h.fromBlank [.listen] (by rw [hmain]; rfl) rfl ?_ ?_ hagrees.second rfl
          ⟨hagrees.second, hagrees.mode, hagrees.remote_sock⟩
        · simp [hmain, MainPoint.held, State.fields, State.serverSockets]
        · simp [State.open, hagrees.mode]
      · cases hstep
        exact h.holdsMore [.listen] (by rw [hmain]; rfl) rfl (by simp [hmain, MainPoint.held])
  | bindListening =>
      simp only [mainProceeds] at hstep
      split at hstep
      · cases hstep
        exact h.holdsMore [.proxySocket] (by rw [hmain]; rfl) rfl
          (by simp [hmain, MainPoint.held])
      · cases hstep
        refine h.fromBlank [] (by rw [hmain]; rfl) rfl ?_ ?_ hagrees.second rfl
          ⟨hagrees.second, hagrees.mode, hagrees.remote_sock⟩
        · simp [hmain, MainPoint.held, State.fields, State.serverSockets]
        · simp [hagrees.mode]
  | bindSession =>
      cases hstep
      refine h.fromBlank [] (by rw [hmain]; rfl) rfl ?_ ?_ hagrees.second rfl
        ⟨hagrees.second, hagrees.mode, hagrees.remote_sock⟩
      · simp [hmain, MainPoint.held, State.fields, State.serverSockets]
      · simp [hagrees.mode]
  | bindReply =>
      cases hstep
      obtain ⟨hsecond, hmode, hremote⟩ := hagrees
      refine inv_of_early ?_ rfl trivial ?_ fun x hx => hstored hsecond (by simp) hx
      · simp
      · exact ⟨by simp, fun _ => hremote⟩
  | udpOpenClient =>
      cases hstep
      exact h.holdsMore [.relayClient] (by rw [hmain]; rfl) rfl (by simp [hmain, MainPoint.held])
  | udpOpenRemote =>
      simp only [mainProceeds] at hstep
      split at hstep
      · cases hstep
        refine h.fromBlank [.relayRemote] (by rw [hmain]; rfl) rfl ?_ ?_ hagrees.second rfl
          ⟨hagrees.second, hagrees.mode⟩
        · simp [hmain, MainPoint.held]
        · simp [State.open, hagrees.mode]
      · cases hstep
        exact h.holdsMore [.relayRemote] (by rw [hmain]; rfl) rfl
          (by simp [hmain, MainPoint.held])
  | udpAssociate =>
      cases hstep
      exact h.holdsMore [.proxySocket] (by rw [hmain]; rfl) rfl (by simp [hmain, MainPoint.held])
  | udpSession =>
      cases hstep
      refine h.fromBlank [] (by rw [hmain]; rfl) rfl ?_ ?_ hagrees.second rfl
        ⟨hagrees.second, hagrees.mode⟩
      · simp [hmain, MainPoint.held]
      · simp [hagrees.mode]
  | udpReply =>
      -- only now, with `pipe_thread1` set, does `relayServer.stop()` close the sockets
      cases hstep
      obtain ⟨hsecond, hmode⟩ := hagrees
      refine inv_of_early ?_ rfl ⟨hsecond, hmode⟩ ?_ ?_
      · simp [hmode]
      · simp [State.SecondAgrees, hsecond]
      · intro x hx
        right
        rcases hstored hsecond (by simp) hx with held | stored
        · simp only [MainPoint.held, List.mem_cons] at held
          simp only [State.fields, State.relaySockets, List.mem_append, List.mem_cons]
          tauto
        · refine mem_fields_of (s := s) ?_ ?_ ?_ _ stored
          · rfl
          · exact fun hrelay => mem_relaySockets hrelay rfl
          · exact id
  | udpStartPipe2 =>
      cases hstep
      obtain ⟨hsecond, hmode⟩ := hagrees
      refine inv_of_early ?_ rfl trivial ?_ fun x hx => hstored hsecond (by simp) hx
      · simp [hmode]
      · simp [State.SecondAgrees, hsecond]
  | serving =>
      cases hstep
      exact h.mainLeaves (by simp [hmain, MainPoint.held]) (by simp [hmain])

/-- A statement of `abort` either leaves at once, or begins, or closes the
sockets of one field and goes on to the next. -/
theorem abortStep_cases {route : Route} {s t : State} {busy : Bool} {p : AbortPoint}
    {p' : Option AbortPoint} {outcome : Outcome} (hok : outcome ≠ .failed)
    (hstep : abortStep route s busy p outcome = some (t, p')) :
    p = .enter ∧ s.mode = .abort ∧ t = s ∧ p' = none ∨
      p = .enter ∧ t = { s with mode := .abort } ∧ p' = some .remote ∨
      p ≠ .enter ∧ Closes s t ∧
        ∀ x ∈ t.sockets, x ∈ t.fields p → ∃ q, p' = some q ∧ x ∈ t.fields q := by
  unfold abortStep at hstep
  split at hstep
  · split at hstep
    · cases hstep
    · split at hstep
      · rename_i hmode
        cases hstep
        exact .inl ⟨rfl, hmode, rfl, rfl⟩
      · cases hstep
        exact .inr (.inl ⟨rfl, rfl, rfl⟩)
  · cases hstep
    refine .inr (.inr ⟨by simp, closes_close _ _, ?_⟩)
    intro x hx hp
    refine ⟨_, rfl, ?_⟩
    rcases List.mem_append.mp hp with hremote | hp
    · exact absurd hremote (mem_sockets_close.mp hx).2
    · exact hp
  · contradiction
  · cases hstep
    refine .inr (.inr ⟨by simp, closes_close _ _, ?_⟩)
    intro x hx hp
    refine ⟨_, rfl, ?_⟩
    rcases List.mem_cons.mp hp with hclient | hp
    · have hnot := (mem_sockets_close.mp hx).2
      simp [hclient] at hnot
    · exact hp
  · contradiction
  · cases hstep
    refine .inr (.inr ⟨by simp, closes_abortRelay _ _, ?_⟩)
    intro x _ hp
    refine ⟨_, rfl, ?_⟩
    rcases List.mem_append.mp hp with hrelay | hp
    · rw [relaySockets_abortRelay] at hrelay
      cases hrelay
    · exact hp
  · cases hstep
    refine .inr (.inr ⟨by simp, closes_closeServer _, ?_⟩)
    intro x hx hp
    exact absurd (serverSockets_closeServer s hp) (mem_sockets_close.mp hx).2
  · contradiction
  · cases hstep

theorem Inv.mainEnters {s : State} (h : Inv s) (hmain : s.main = .abort .enter) :
    Inv { s with mode := .abort, main := .abort .remote } where
  kept := by
    intro x hx
    cases h.kept x hx with
    | main held => simp [hmain, MainPoint.held] at held
    | second held => exact .second held
    | field _ stored => exact .mainAbort rfl (by exact stored)
    | mainAbort main stored =>
        rw [hmain] at main
        cases main
        cases stored
    | secondAbort second stored => exact .secondAbort second (by exact stored)
  main := trivial
  second := by
    have hsecond := h.second
    revert hsecond
    cases s.second <;> simp [State.SecondAgrees]
  pending := .inl rfl

theorem Inv.mainPasses {s : State} {p : AbortPoint} {p' : Option AbortPoint} (h : Inv s)
    (hmain : s.main = .abort p) (hbegun : p ≠ .enter ∨ s.mode = .abort)
    (hpass : ∀ x ∈ s.sockets, x ∈ s.fields p → ∃ q, p' = some q ∧ x ∈ s.fields q) :
    Inv { s with main := .resume p' } where
  kept := by
    intro x hx
    cases h.kept x hx with
    | main held => simp [hmain, MainPoint.held] at held
    | second held => exact .second held
    | field mode stored => exact .field mode (by exact stored)
    | mainAbort main stored =>
        rw [hmain] at main
        cases main
        obtain ⟨q, rfl, stored⟩ := hpass x hx stored
        exact .mainAbort rfl (by exact stored)
    | secondAbort second stored => exact .secondAbort second (by exact stored)
  main := by cases p' <;> trivial
  second := by
    have hsecond := h.second
    revert hsecond
    cases s.second <;> exact id
  pending := by
    rcases h.pending with hmode | hbefore | hbefore
    · exact .inl hmode
    · rcases hbegun with hp | hmode
      · simp [hmain, MainPoint.beforeAbort, AbortPoint.inside, hp] at hbefore
      · exact .inl hmode
    · exact .inr (.inr hbefore)

theorem mainAbort_inv {route : Route} {s t : State} {busy : Bool} {p : AbortPoint}
    {p' : Option AbortPoint} {outcome : Outcome} (h : Inv s) (hmain : s.main = .abort p)
    (hok : outcome ≠ .failed) (hstep : abortStep route s busy p outcome = some (t, p')) :
    Inv { t with main := .resume p' } := by
  rcases abortStep_cases hok hstep with ⟨rfl, hmode, rfl, rfl⟩ | ⟨rfl, rfl, rfl⟩ |
    ⟨hp, hcloses, hpass⟩
  · exact h.mainPasses hmain (.inr hmode) (by simp [State.fields])
  · exact h.mainEnters hmain
  · exact (h.closes hcloses).mainPasses (hcloses.main.trans hmain) (.inl hp) hpass

theorem mainStep_inv {route : Route} {s s' : State} {outcome : Outcome} (h : Inv s)
    (hok : storesFirst s (.main outcome) = true) (hstep : mainStep route s outcome = some s') :
    Inv s' := by
  unfold mainStep at hstep
  split at hstep
  · rename_i p hmain
    simp only [Option.map_eq_some_iff, Prod.exists] at hstep
    obtain ⟨t, p', hstep, rfl⟩ := hstep
    apply mainAbort_inv h hmain _ hstep
    rintro rfl
    simp [storesFirst, hmain] at hok
  · rename_i command hmain
    cases hstep
    exact h.holdsMore [] (by rw [hmain]; rfl) (by cases command <;> rfl)
      (by simp [hmain, MainPoint.held])
  · exact mainProceeds_inv h hstep
  · rename_i habort
    split at hstep
    · cases hstep
      have hheld : s.main.held = [] := by simpa [storesFirst] using hok
      exact h.mainLeaves (by simp [hheld]) habort
    · cases hstep
  · rename_i habort
    split at hstep
    · cases hstep
    · cases hstep
      have hdial : s.main = .connectDial := by simpa [storesFirst] using hok
      have hclosed := h.closes (closes_close s s.main.closesFirst)
      apply hclosed.mainLeaves
      · intro x hx
        have hconnect : x = .connect := by simpa [State.close, hdial, MainPoint.held] using hx
        simp [hconnect, hdial, MainPoint.closesFirst]
      · exact habort
  · cases hstep

end TorAndroid.Socks.Session
