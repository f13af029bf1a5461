import TorAndroid.Socks.Dialogue

namespace TorAndroid.Socks.Dial

open TorAndroid.Lib.Fragments
open TorAndroid.Lib.Stateful
open TorAndroid.Lib.Throwing
open TorAndroid.Socks.Basic
open TorAndroid.Socks.Message

section Sockets

/-- The TCP socket at the end of the sockets that the object at a level holds. -/
def Holds : Nat → Nat → World → Prop
  | level, s, w =>
      match level, w.proxySocket level with
      | _, some (.tcp t) => t = s
      | level + 1, some .socks => Holds level s w
      | _, _ => False

/-- Nothing changes in the objects above a level. -/
def Frame (level : Nat) (w w' : World) : Prop :=
  ∀ l, level < l → w'.proxySocket l = w.proxySocket l

/-- Events that open one socket and do not close it. -/
def OpensOne (s : Nat) (events : List Event) : Prop :=
  .opened s ∈ events ∧ .closed s ∉ events ∧ ∀ t, .opened t ∈ events → t = s

/-- Every socket that is opened is closed as well. -/
def AllClosed (events : List Event) : Prop :=
  ∀ s, .opened s ∈ events → .closed s ∈ events

variable {level s : Nat} {w w' : World} {events : List Event}

theorem Frame.refl (level : Nat) (w : World) : Frame level w w := fun _ _ => rfl

theorem Frame.trans {w₁ w₂ w₃ : World} (h : Frame level w₁ w₂) (h' : Frame level w₂ w₃) :
    Frame level w₁ w₃ := fun l hl => (h' l hl).trans (h l hl)

theorem Frame.mono {level' : Nat} (h : Frame level w w') (hle : level ≤ level') :
    Frame level' w w' := fun l hl => h l (by omega)

theorem frame_record (level : Nat) (events : List Event) (w : World) :
    Frame level w (w.record events) := fun _ _ => rfl

theorem frame_setProxySocket (level : Nat) (socket : Option SessionSocket) (w : World) :
    Frame level w (w.setProxySocket level socket) := by
  intro l hl
  simp [World.setProxySocket, Function.update, Nat.ne_of_gt hl]

@[simp] theorem proxySocket_setProxySocket (socket : Option SessionSocket) :
    (w.setProxySocket level socket).proxySocket level = socket := by
  simp [World.setProxySocket]

@[simp] theorem trace_setProxySocket (socket : Option SessionSocket) :
    (w.setProxySocket level socket).trace = w.trace := rfl

theorem holds_congr (h : ∀ l ≤ level, w'.proxySocket l = w.proxySocket l) :
    Holds level s w' ↔ Holds level s w := by
  induction level with
  | zero =>
      unfold Holds
      rw [h 0 le_rfl]
      rcases w.proxySocket 0 with _ | (t | _) <;> rfl
  | succ level ih =>
      unfold Holds
      rw [h (level + 1) le_rfl]
      rcases w.proxySocket (level + 1) with _ | (t | _)
      · rfl
      · rfl
      · exact ih fun l hl => h l (by omega)

theorem holds_record : Holds level s (w.record events) ↔ Holds level s w :=
  holds_congr fun _ _ => rfl

theorem endSession_none (h : w.proxySocket level = none) : endSession level w = w := by
  unfold endSession
  rw [h]

theorem endSession_holds (h : Holds level s w) :
    (endSession level w).trace = w.trace ++ [.closed s] ∧
      (endSession level w).proxySocket level = none ∧ Frame level w (endSession level w) := by
  induction level generalizing w with
  | zero =>
      unfold Holds at h
      unfold endSession
      rcases hsocket : w.proxySocket 0 with _ | (t | _) <;> rw [hsocket] at h
      · exact h.elim
      · subst h
        refine ⟨rfl, by simp, ?_⟩
        exact (frame_record 0 [.closed t] w).trans (frame_setProxySocket 0 none _)
      · exact h.elim
  | succ level ih =>
      unfold Holds at h
      unfold endSession
      rcases hsocket : w.proxySocket (level + 1) with _ | (t | _) <;> rw [hsocket] at h
      · exact h.elim
      · subst h
        refine ⟨rfl, by simp, ?_⟩
        exact (frame_record _ [.closed t] w).trans (frame_setProxySocket _ none _)
      · obtain ⟨htrace, -, hframe⟩ := ih h
        refine ⟨htrace, by simp, ?_⟩
        exact (hframe.mono (by omega)).trans (frame_setProxySocket _ none _)

theorem not_holds_none (h : w.proxySocket level = none) : ¬ Holds level s w := by
  unfold Holds
  cases level <;> simp [h]

theorem holds_tcp {t : Nat} (h : w.proxySocket level = some (.tcp t)) :
    Holds level s w ↔ t = s := by
  unfold Holds
  cases level <;> simp [h]

theorem closeSocket_tcp {t : Nat} (h : w.proxySocket level = some (.tcp t)) :
    closeSocket level w = w.record [.closed t] := by
  unfold closeSocket
  rw [h]
  cases level <;> rfl

theorem closeSocket_socks (h : w.proxySocket (level + 1) = some .socks) :
    closeSocket (level + 1) w = endSession level w := by
  unfold closeSocket
  rw [h]

theorem endSession_socks (h : w.proxySocket (level + 1) = some .socks) :
    endSession (level + 1) w = (endSession level w).setProxySocket (level + 1) none := by
  conv_lhs => unfold endSession
  rw [h]

/-- Ending a session whose socket may be closed already. -/
theorem endSession_maybeClosed (h : Holds level s w) (hclosed : MaybeClosed level w w') :
    ∃ events, (endSession level w').trace = w.trace ++ events ∧ .closed s ∈ events ∧
      (∀ event ∈ events, event = .closed s) ∧ (endSession level w').proxySocket level = none ∧
      Frame level w (endSession level w') := by
  rcases hclosed with rfl | rfl | rfl
  · obtain ⟨htrace, hnone, hframe⟩ := endSession_holds h
    exact ⟨_, htrace, by simp, by simp, hnone, hframe⟩
  · rcases hsocket : w.proxySocket level with _ | (t | _)
    · exact (not_holds_none hsocket h).elim
    · obtain rfl := (holds_tcp hsocket).mp h
      rw [closeSocket_tcp hsocket]
      have hholds : Holds level t (w.record [.closed t]) := holds_record.mpr h
      obtain ⟨htrace, hnone, hframe⟩ := endSession_holds hholds
      refine ⟨[.closed t, .closed t], ?_, by simp, by simp, hnone,
        (frame_record level _ w).trans hframe⟩
      rw [htrace]
      simp [World.record]
    · cases level with
      | zero =>
          unfold Holds at h
          simp only [hsocket] at h
      | succ level =>
          unfold Holds at h
          simp only [hsocket] at h
          obtain ⟨htrace, hnone, hframe⟩ := endSession_holds h
          have hsocks : (endSession level w).proxySocket (level + 1) = some .socks := by
            rw [hframe (level + 1) (by omega), hsocket]
          have hend : endSession (level + 1) (closeSocket (level + 1) w) =
              (endSession level w).setProxySocket (level + 1) none := by
            rw [closeSocket_socks hsocket, endSession_socks hsocks, endSession_none hnone]
          rw [hend]
          exact ⟨_, htrace, by simp, by simp, by simp,
            (hframe.mono (by omega)).trans (frame_setProxySocket _ none _)⟩
  · obtain ⟨htrace, hnone, hframe⟩ := endSession_holds h
    rw [endSession_none hnone]
    exact ⟨_, htrace, by simp, by simp, hnone, hframe⟩

end Sockets

/-- The host of a reply is one that `processReply` can deal with. -/
def Proxy.Accepts (p : Proxy) (host : Option String) : Prop :=
  host ≠ none ∧ (host = some "0.0.0.0" → p.proxyIP ≠ none)

/-- The exceptions that end a call on a connected proxy without ending its
session: the methods do not fit into the greeting, the request cannot be put
together, or the reply has a code without a text. -/
inductive Proxy.Escapes (env : Env) (level : Nat) (p : Proxy) (command : Nat) (dest : Dest)
    (port : Int) (bytes : List UInt8) : Throwable → Prop
  | methods {methods resolve e} (hkind : p.kind = .socks5 methods resolve)
      (hcount : 128 ≤ methods.authMethods.keys.length)
      (herror : Negotiation.greeting methods.authMethods.keys = .error e) :
      Escapes env level p command dest port bytes e
  | message {unread e} (hgreetable : p.Greetable)
      (hafter : p.afterGreeting env level bytes = some unread)
      (hmessage : p.formMessage env command dest port = .error e) :
      Escapes env level p command dest port bytes e
  | code {unread request} (hgreetable : p.Greetable)
      (hafter : p.afterGreeting env level bytes = some unread)
      (hmessage : p.formMessage env command dest port = .ok (some request))
      (hfault : env.fault level .request = none ∧ env.fault level .reply = none)
      (hcode : p.BadCode unread) :
      Escapes env level p command dest port bytes (.unchecked .indexOutOfBounds)

theorem Proxy.granted_of_badCode {env : Env} {p : Proxy} {bytes : List UInt8}
    (h : p.BadCode bytes) : p.granted env bytes = none := by
  unfold Proxy.BadCode at h
  unfold Proxy.granted
  cases hkind : p.kind with
  | socks4 user => simp [hkind] at h
  | socks5 methods resolve =>
      rcases bytes with _ | ⟨version, _ | ⟨code, rest⟩⟩ <;> simp only [hkind] at h ⊢
      subst h
      unfold granted5
      split
      · rename_i heq
        cases heq
        rfl
      · rfl

theorem Proxy.escapes_iff {env : Env} {level : Nat} {p : Proxy} {command : Nat} {dest : Dest}
    {port : Int} {bytes : List UInt8} {e : Throwable} :
    p.Escapes env level command dest port bytes e ↔
      p.outcome env level command dest port bytes = .escapes e := by
  obtain ⟨hgreetable, hello, hgreeting⟩ | ⟨hgreetable, kind, hgreeting, -⟩ :=
    p.greetable_cases env level
  · constructor
    · intro h
      cases h with
      | methods hkind hcount herror =>
          simp only [Proxy.Greetable, hkind] at hgreetable
          omega
      | message _ hafter hmessage => simp [Proxy.outcome, hgreeting, hafter, hmessage]
      | code _ hafter hmessage hfault hcode =>
          simp [Proxy.outcome, hgreeting, hafter, hmessage, hfault, granted_of_badCode hcode, hcode]
    · intro h
      simp only [Proxy.outcome, hgreeting] at h
      split at h
      · cases h
      · rename_i unread hafter
        split at h
        · rename_i e' hmessage
          cases h
          exact .message hgreetable hafter hmessage
        · cases h
        · rename_i request hmessage
          split at h
          · rename_i hfault
            split at h
            · cases h
            · split at h
              · rename_i hcode
                cases h
                exact .code hgreetable hafter hmessage hfault hcode
              · cases h
          · cases h
  · constructor
    · intro h
      cases h with
      | methods hkind hcount herror =>
          simp only [Proxy.outcome, Proxy.greetingOf, hkind, herror]
      | message hgreet => exact absurd hgreet hgreetable
      | code hgreet => exact absurd hgreet hgreetable
    · intro h
      simp only [Proxy.outcome, hgreeting, Outcome.escapes.injEq] at h
      subst h
      cases hkind : p.kind with
      | socks4 user => simp [Proxy.Greetable, hkind] at hgreetable
      | socks5 methods resolve =>
          simp only [Proxy.Greetable, hkind] at hgreetable
          simp only [Proxy.greetingOf, hkind] at hgreeting
          exact .methods hkind (by omega) hgreeting

section Chain

variable (env : Env)

/-- A TCP connection of the object at a level comes about. -/
def Opens (level : Nat) (port : Int) : Prop :=
  ValidPort port ∧ env.fault level .connect = none ∧ env.fault level .streams = none

/-- A `SocksSocket` comes about and leaves `bytes` to read; `connected` says of
its proxy with which bytes that is connected. -/
def SocketConnected (level : Nat) (p : Proxy) (connected : List UInt8 → Prop) (dest : Dest)
    (port : Int) (bytes : List UInt8) : Prop :=
  match p.isDirect env dest with
  | .ok true => (∃ ip, remoteIP env dest = .ok ip) ∧ Opens env level port ∧
      bytes = env.input.content
  | .ok false => ∃ unread host, connected unread ∧
      p.outcome env level SOCKS_CMD_CONNECT dest port unread = .passes host bytes ∧ p.Accepts host
  | .error _ => False

/-- The first proxy of a chain is connected and has `bytes` to read. -/
def Connected : Proxy → List Proxy → List UInt8 → Prop
  | p, [], bytes => p.proxyIP ≠ none ∧ Opens env 0 p.proxyPort ∧ bytes = env.input.content
  | p, q :: chain, bytes =>
      SocketConnected env chain.length q.copy (Connected q.copy chain) p.dest p.proxyPort bytes

/-- A `SocksSocket` ends with an exception and leaves a socket open. -/
def SocketLeaks (level : Nat) (p : Proxy) (connected : List UInt8 → Prop) (leaks : Prop)
    (dest : Dest) (port : Int) : Prop :=
  match p.isDirect env dest with
  | .ok true => (∃ ip, remoteIP env dest = .ok ip) ∧ ValidPort port ∧
      env.fault level .connect = none ∧ env.fault level .streams ≠ none
  | .ok false => leaks ∨ ∃ unread, connected unread ∧
      ((∃ e, p.Escapes env level SOCKS_CMD_CONNECT dest port unread e) ∨
        ∃ host rest, p.outcome env level SOCKS_CMD_CONNECT dest port unread = .passes host rest ∧
          ¬ p.Accepts host)
  | .error _ => False

/-- A session through a chain ends with an exception and leaves a socket open. -/
def SessionLeaks : Proxy → List Proxy → Prop
  | _, [] => False
  | p, q :: chain =>
      SocketLeaks env chain.length q.copy (Connected env q.copy chain) (SessionLeaks q.copy chain)
        p.dest p.proxyPort

/-- A `SocksSocket` ends with an unchecked exception. -/
def SocketBreaks (level : Nat) (p : Proxy) (connected : List UInt8 → Prop) (breaks : Prop)
    (dest : Dest) (port : Int) : Prop :=
  match p.isDirect env dest with
  | .ok true => (∃ ip, remoteIP env dest = .ok ip) ∧ ¬ ValidPort port
  | .ok false => breaks ∨ ∃ unread, connected unread ∧
      ((∃ kind, p.Escapes env level SOCKS_CMD_CONNECT dest port unread (.unchecked kind)) ∨
        ∃ host rest, p.outcome env level SOCKS_CMD_CONNECT dest port unread = .passes host rest ∧
          ¬ p.Accepts host)
  | .error _ => True

/-- A session through a chain ends with an unchecked exception. -/
def SessionBreaks : Proxy → List Proxy → Prop
  | p, [] => p.proxyIP = none ∨ ¬ ValidPort p.proxyPort
  | p, q :: chain =>
      SocketBreaks env chain.length q.copy (Connected env q.copy chain)
        (SessionBreaks q.copy chain) p.dest p.proxyPort

def connectPlan (ip : InetAddress) (port : Int) : List Dialled :=
  if ValidPort port then [.connect ip port] else []

/-- What a `SocksSocket` dials when nothing fails. -/
def socketPlan (p : Proxy) (plan : List Dialled) (dest : Dest) (port : Int) : List Dialled :=
  match p.isDirect env dest with
  | .ok true =>
      match remoteIP env dest with
      | .ok ip => connectPlan ip port
      | .error _ => []
  | .ok false => plan ++ p.requests env SOCKS_CMD_CONNECT dest port
  | .error _ => []

/-- What a session through a chain dials when nothing fails. -/
def sessionPlan : Proxy → List Proxy → List Dialled
  | p, [] =>
      match p.proxyIP with
      | some ip => connectPlan ip p.proxyPort
      | none => []
  | p, q :: chain => socketPlan env q.copy (sessionPlan q.copy chain) p.dest p.proxyPort

end Chain

section Runs

/-- How a socket is opened: `leaks` and `breaks` say when that ends with a
socket left open or with an unchecked exception, and `plan` what it dials. -/
inductive SocketRun (level : Nat) (connected : List UInt8 → Prop) (leaks breaks : Prop)
    (plan : List Dialled) (w : World) (r : Except Throwable Session × World) : Prop
  | connected (session : Session) (events : List Event) (w' : World)
      (hrun : r = (.ok session, w')) (htrace : w'.trace = w.trace ++ events)
      (hopens : OpensOne session.socket events) (hholds : Holds level session.socket w')
      (hframe : Frame level w w')
      (hconnected : ∀ bytes, connected bytes ↔ bytes = session.input.content)
      (hleaks : ¬ leaks) (hbreaks : ¬ breaks) (hdialled : dialled events = plan)
  | closed (e : Throwable) (events : List Event) (w' : World)
      (hrun : r = (.error e, w')) (htrace : w'.trace = w.trace ++ events)
      (hclosed : AllClosed events) (hframe : Frame level w w')
      (hconnected : ∀ bytes, ¬ connected bytes) (hleaks : ¬ leaks)
      (hbreaks : breaks ↔ ¬ e.IsIO) (hdialled : dialled events <+: plan)
  | lost (e : Throwable) (events : List Event) (w' : World)
      (hrun : r = (.error e, w')) (htrace : w'.trace = w.trace ++ events)
      (hlost : ¬ AllClosed events) (hframe : Frame level w w')
      (hconnected : ∀ bytes, ¬ connected bytes) (hleaks : leaks)
      (hbreaks : breaks ↔ ¬ e.IsIO) (hdialled : dialled events <+: plan)

/-- How a session is started. A session that fails may have its socket already,
which the call then closes. -/
inductive SessionRun (level : Nat) (connected : List UInt8 → Prop) (leaks breaks : Prop)
    (plan : List Dialled) (w : World) (r : Except Throwable Session × World) : Prop
  | started (hrun : SocketRun level connected leaks breaks plan w r)
      (hnone : ∀ e w', r = (.error e, w') → w'.proxySocket level = none)
      (hsocks : ∀ kind w', r = (.error (.io kind), w') → IsSocks (.io kind))
  | held (e : Throwable) (s : Nat) (events : List Event) (w' : World)
      (hrun : r = (.error e, w')) (htrace : w'.trace = w.trace ++ events)
      (hsocks : IsSocks e) (hopens : OpensOne s events) (hholds : Holds level s w')
      (hframe : Frame level w w') (hconnected : ∀ bytes, ¬ connected bytes) (hleaks : ¬ leaks)
      (hbreaks : ¬ breaks) (hdialled : dialled events <+: plan)

variable (env : Env) (level : Nat) (p : Proxy) (command : Nat) (dest : Dest) (port : Int)

/-- A call on a proxy leaves a socket open behind an exception. -/
def CallLeaks (connected : List UInt8 → Prop) (leaks : Prop) : Prop :=
  leaks ∨ ∃ unread e, connected unread ∧ p.Escapes env level command dest port unread e

/-- A call on a proxy ends with an unchecked exception. -/
def CallBreaks (connected : List UInt8 → Prop) (breaks : Prop) : Prop :=
  breaks ∨ ∃ unread kind, connected unread ∧
    p.Escapes env level command dest port unread (.unchecked kind)

/-- A call on a proxy gets a reply with a host. -/
def CallPasses (connected : List UInt8 → Prop) (host : Option String) (rest : List UInt8) : Prop :=
  ∃ unread, connected unread ∧ p.outcome env level command dest port unread = .passes host rest

inductive CallRun (connected : List UInt8 → Prop) (leaks breaks : Prop) (plan : List Dialled)
    (w : World) (r : Except Throwable (ProxyMessage × Session) × World) : Prop
  | passes (reply : ProxyMessage) (session : Session) (events : List Event) (w' : World)
      (hrun : r = (.ok (reply, session), w')) (htrace : w'.trace = w.trace ++ events)
      (hopens : OpensOne session.socket events) (hholds : Holds level session.socket w')
      (hframe : Frame level w w')
      (hpasses : ∀ host rest, CallPasses env level p command dest port connected host rest ↔
        host = reply.host ∧ rest = session.input.content)
      (hleaks : ¬ CallLeaks env level p command dest port connected leaks)
      (hbreaks : ¬ CallBreaks env level p command dest port connected breaks)
      (hdialled : dialled events = plan ++ p.requests env command dest port)
  | closed (e : Throwable) (events : List Event) (w' : World)
      (hrun : r = (.error e, w')) (htrace : w'.trace = w.trace ++ events)
      (hclosed : AllClosed events) (hframe : Frame level w w')
      (hnone : w'.proxySocket level = none)
      (hpasses : ∀ host rest, ¬ CallPasses env level p command dest port connected host rest)
      (hleaks : ¬ CallLeaks env level p command dest port connected leaks)
      (hbreaks : CallBreaks env level p command dest port connected breaks ↔ ¬ e.IsIO)
      (hdialled : dialled events <+: plan ++ p.requests env command dest port)
      (hplan : ∀ unread, connected unread → plan <+: dialled events)
  | lost (e : Throwable) (events : List Event) (w' : World)
      (hrun : r = (.error e, w')) (htrace : w'.trace = w.trace ++ events)
      (hlost : ¬ AllClosed events) (hframe : Frame level w w')
      (hpasses : ∀ host rest, ¬ CallPasses env level p command dest port connected host rest)
      (hleaks : CallLeaks env level p command dest port connected leaks)
      (hbreaks : CallBreaks env level p command dest port connected breaks ↔ ¬ e.IsIO)
      (hdialled : dialled events <+: plan ++ p.requests env command dest port)
      (hplan : ∀ unread, connected unread → plan <+: dialled events)

end Runs

section Steps

variable {level s : Nat} {events events' : List Event}

theorem Sends.opened_notMem (h : Sends s events) (t : Nat) : .opened t ∉ events := by
  intro hmem
  obtain ⟨message, heq⟩ := h _ hmem
  cases heq

theorem Sends.closed_notMem (h : Sends s events) (t : Nat) : .closed t ∉ events := by
  intro hmem
  obtain ⟨message, heq⟩ := h _ hmem
  cases heq

theorem OpensOne.append_sends (h : OpensOne s events) (h' : Sends s events') :
    OpensOne s (events ++ events') := by
  obtain ⟨hopened, hclosed, honly⟩ := h
  refine ⟨List.mem_append_left _ hopened, ?_, ?_⟩
  · rw [List.mem_append, not_or]
    exact ⟨hclosed, h'.closed_notMem s⟩
  · intro t ht
    rcases List.mem_append.mp ht with ht | ht
    · exact honly t ht
    · exact absurd ht (h'.opened_notMem t)

theorem OpensOne.not_allClosed (h : OpensOne s events) : ¬ AllClosed events :=
  fun hclosed => h.2.1 (hclosed s h.1)

theorem OpensOne.allClosed (h : OpensOne s events) (hmem : .closed s ∈ events')
    (honly : ∀ event ∈ events', event = .closed s) : AllClosed (events ++ events') := by
  intro t ht
  rcases List.mem_append.mp ht with ht | ht
  · rw [h.2.2 t ht]
    exact List.mem_append_right _ hmem
  · cases honly _ ht

theorem dialled_closed (h : ∀ event ∈ events, event = .closed s) : dialled events = [] := by
  rw [dialled, List.filterMap_eq_nil_iff]
  intro event hevent
  rw [h event hevent]
  rfl

end Steps

section Calls

variable (env : Env) (level : Nat) {p : Proxy} {command : Nat} {dest : Dest} {port : Int}
  {connected : List UInt8 → Prop} {leaks breaks : Prop} {plan : List Dialled} {w : World}
  {start : Net Session}

theorem isIO_of_isSocks {e : Throwable} (h : IsSocks e) : e.IsIO := by
  cases e with
  | io kind => trivial
  | unchecked kind => exact h.elim

section Connected

variable {bytes : List UInt8} (hconnected : ∀ unread, connected unread ↔ unread = bytes)

include hconnected

theorem callPasses_iff (host : Option String) (rest : List UInt8) :
    CallPasses env level p command dest port connected host rest ↔
      p.outcome env level command dest port bytes = .passes host rest := by
  simp [CallPasses, hconnected]

theorem callLeaks_iff (hleaks : ¬ leaks) :
    CallLeaks env level p command dest port connected leaks ↔
      ∃ e, p.outcome env level command dest port bytes = .escapes e := by
  simp [CallLeaks, hconnected, hleaks, Proxy.escapes_iff]

theorem callBreaks_iff (hbreaks : ¬ breaks) :
    CallBreaks env level p command dest port connected breaks ↔
      ∃ kind, p.outcome env level command dest port bytes = .escapes (.unchecked kind) := by
  simp [CallBreaks, hconnected, hbreaks, Proxy.escapes_iff]

end Connected

section Failed

variable (hconnected : ∀ bytes, ¬ connected bytes)

include hconnected

theorem not_callPasses (host : Option String) (rest : List UInt8) :
    ¬ CallPasses env level p command dest port connected host rest := by
  simp [CallPasses, hconnected]

theorem callLeaks_failed :
    CallLeaks env level p command dest port connected leaks ↔ leaks := by
  simp [CallLeaks, hconnected]

theorem callBreaks_failed :
    CallBreaks env level p command dest port connected breaks ↔ breaks := by
  simp [CallBreaks, hconnected]

end Failed

theorem Proxy.callRun_connected {session : Session} {events : List Event} {w₁ : World}
    (hstart : start w = (.ok session, w₁)) (htrace : w₁.trace = w.trace ++ events)
    (hopens : OpensOne session.socket events) (hholds : Holds level session.socket w₁)
    (hframe : Frame level w w₁)
    (hconnected : ∀ bytes, connected bytes ↔ bytes = session.input.content)
    (hleaks : ¬ leaks) (hbreaks : ¬ breaks) (hdialled : dialled events = plan) :
    CallRun env level p command dest port connected leaks breaks plan w
      (p.call env level start command dest port w) := by
  have hcalled : Called env level p command dest port session w₁
      (p.call env level start command dest port w) := Proxy.call_run env level hstart
  rcases hcalled with ⟨reply, rest, sent, hrun, houtcome, hsent, hrequests⟩ |
    ⟨e, sent, w', hrun, houtcome, hsocks, hsent, hclosed, hrequests⟩ |
    ⟨e, sent, hrun, houtcome, hsocks, hsent, hrequests⟩
  · refine .passes reply ⟨session.socket, rest⟩ (events ++ sent) _ hrun ?_
      (hopens.append_sends hsent) (holds_record.mpr hholds) (hframe.trans (frame_record _ _ _))
        ?_ ?_ ?_
      ?_
    · simp [World.record, htrace]
    · intro host rest'
      rw [callPasses_iff env level hconnected, houtcome, Outcome.passes.injEq]
      exact ⟨fun h => ⟨h.1.symm, h.2.symm⟩, fun h => ⟨h.1.symm, h.2.symm⟩⟩
    · rw [callLeaks_iff env level hconnected hleaks, houtcome]
      simp
    · rw [callBreaks_iff env level hconnected hbreaks, houtcome]
      simp
    · rw [dialled_append, hdialled, hrequests]
  · have hheld : Holds level session.socket (w₁.record sent) := holds_record.mpr hholds
    obtain ⟨ended, hended, hmem, honly, hnone, hframe'⟩ := endSession_maybeClosed hheld hclosed
    refine .closed e (events ++ sent ++ ended) _ hrun ?_
      ((hopens.append_sends hsent).allClosed hmem honly)
      ((hframe.trans (frame_record _ _ _)).trans hframe') hnone ?_ ?_ ?_ ?_ ?_
    · simp [hended, World.record, htrace]
    · intro host rest
      rw [callPasses_iff env level hconnected, houtcome]
      simp
    · rw [callLeaks_iff env level hconnected hleaks, houtcome]
      simp
    · rw [callBreaks_iff env level hconnected hbreaks, houtcome]
      simp [isIO_of_isSocks hsocks]
    · rw [dialled_append, dialled_append, hdialled, dialled_closed honly, List.append_nil]
      exact (List.prefix_append_right_inj _).mpr hrequests
    · intro _ _
      rw [dialled_append, dialled_append, hdialled, List.append_assoc]
      exact List.prefix_append _ _
  · refine .lost e (events ++ sent) _ hrun ?_ (hopens.append_sends hsent).not_allClosed
      (hframe.trans (frame_record _ _ _)) ?_ ?_ ?_ ?_ ?_
    · simp [World.record, htrace]
    · intro host rest
      rw [callPasses_iff env level hconnected, houtcome]
      simp
    · rw [callLeaks_iff env level hconnected hleaks, houtcome]
      exact ⟨e, rfl⟩
    · rw [callBreaks_iff env level hconnected hbreaks, houtcome]
      cases e with
      | io kind => simp [Throwable.IsIO]
      | unchecked kind => simp [Throwable.IsIO]
    · rw [dialled_append, hdialled]
      exact (List.prefix_append_right_inj _).mpr hrequests
    · intro _ _
      rw [dialled_append, hdialled]
      exact List.prefix_append _ _

/-- A session that failed without a socket in `proxySocket`. -/
theorem Proxy.call_failed {e : Throwable} {w' : World} (hstart : start w = (.error e, w'))
    (hnone : w'.proxySocket level = none) :
    p.call env level start command dest port w = (.error e, w') := by
  by_cases hsocks : IsSocks e
  · rw [Proxy.call_start_socks env level hstart hsocks, endSession_none hnone]
  · exact Proxy.call_start_other env level hstart hsocks

theorem Proxy.callRun (hsession : SessionRun level connected leaks breaks plan w (start w)) :
    CallRun env level p command dest port connected leaks breaks plan w
      (p.call env level start command dest port w) := by
  rcases hsession with ⟨hsocket, hnone, hsocks⟩ |
    ⟨e, s, events, w', hrun, htrace, hsocks, hopens, hholds, hframe, hconnected, hleaks, hbreaks,
      hdialled⟩
  · rcases hsocket with ⟨session, events, w₁, hrun, htrace, hopens, hholds, hframe, hconnected,
        hleaks, hbreaks, hdialled⟩ |
      ⟨e, events, w', hrun, htrace, hclosed, hframe, hconnected, hleaks, hbreaks, hdialled⟩ |
      ⟨e, events, w', hrun, htrace, hlost, hframe, hconnected, hleaks, hbreaks, hdialled⟩
    · exact Proxy.callRun_connected env level hrun htrace hopens hholds hframe hconnected hleaks
        hbreaks hdialled
    · have hnil := hnone e w' hrun
      refine .closed e events w' (Proxy.call_failed env level hrun hnil) htrace hclosed hframe hnil
        (not_callPasses env level hconnected) ?_ ?_ (hdialled.trans (List.prefix_append _ _))
        fun unread h => absurd h (hconnected unread)
      · rwa [callLeaks_failed env level hconnected]
      · rwa [callBreaks_failed env level hconnected]
    · refine .lost e events w' (Proxy.call_failed env level hrun (hnone e w' hrun)) htrace hlost
        hframe (not_callPasses env level hconnected) ?_ ?_ (hdialled.trans (List.prefix_append _ _))
        fun unread h => absurd h (hconnected unread)
      · rwa [callLeaks_failed env level hconnected]
      · rwa [callBreaks_failed env level hconnected]
  · obtain ⟨hended, hnil, hframe'⟩ := endSession_holds hholds
    refine .closed e (events ++ [.closed s]) _ (Proxy.call_start_socks env level hrun hsocks) ?_
      (hopens.allClosed (by simp) (by simp)) (hframe.trans hframe') hnil
      (not_callPasses env level hconnected) ?_ ?_ ?_ fun unread h => absurd h (hconnected unread)
    · rw [hended, htrace, List.append_assoc]
    · rwa [callLeaks_failed env level hconnected]
    · rw [callBreaks_failed env level hconnected]
      simp [hbreaks, isIO_of_isSocks hsocks]
    · rw [dialled_append]
      have hclosed : dialled [.closed s] = [] := rfl
      rw [hclosed, List.append_nil]
      exact hdialled.trans (List.prefix_append _ _)

end Calls

section Opening

variable (env : Env) (level : Nat) (ip : InetAddress) (port : Int) (w : World)

/-- How a TCP socket is opened. -/
inductive Opened : Prop
  | connected (w' : World) (hport : ValidPort port) (hfault : env.fault level .connect = none)
      (hrun : newSocket env level (some ip) port w = (.ok w.next, w'))
      (htrace : w'.trace = w.trace ++ [.opened w.next, .connect w.next ip port])
      (hsame : w'.proxySocket = w.proxySocket)
  | failed (kind : IOKind) (w' : World) (hport : ValidPort port)
      (hfault : env.fault level .connect = some kind)
      (hrun : newSocket env level (some ip) port w = (.error (.io kind), w'))
      (htrace : w'.trace =
        w.trace ++ [.opened w.next, .connect w.next ip port, .closed w.next])
      (hsame : w'.proxySocket = w.proxySocket)
  | invalid (hport : ¬ ValidPort port)
      (hrun : newSocket env level (some ip) port w = (.error (.unchecked .illegalArgument), w))

theorem newSocket_run : Opened env level ip port w := by
  by_cases hport : ValidPort port
  · have hnew : newSocket env level (some ip) port w =
        (do
          Act.handle (attempt env level .connect) fun e => do
            emit (.closed w.next)
            Act.fail e
          return w.next : Net Nat)
        ⟨w.next + 1, w.trace ++ [.opened w.next] ++ [.connect w.next ip port], w.proxySocket⟩ := by
      simp only [newSocket]
      rw [if_pos hport]
      rfl
    cases hfault : env.fault level .connect with
    | none =>
        refine .connected ⟨w.next + 1, w.trace ++ [.opened w.next] ++ [.connect w.next ip port],
          w.proxySocket⟩ hport hfault ?_ ?_ ?_
        · rw [hnew, Act.bind_ok (Act.handle_ok (attempt_ok hfault))]
          rfl
        · simp
        · rfl
    | some kind =>
        refine .failed kind ⟨w.next + 1, w.trace ++ [.opened w.next] ++
          [.connect w.next ip port] ++ [.closed w.next], w.proxySocket⟩ hport hfault ?_ ?_ ?_
        · have hclose : (Act.handle (attempt env level .connect) fun e => do
              emit (.closed w.next)
              Act.fail e : Net Unit) ⟨w.next + 1, w.trace ++ [.opened w.next] ++
                [.connect w.next ip port], w.proxySocket⟩ =
              (.error (.io kind), ⟨w.next + 1, w.trace ++ [.opened w.next] ++
                [.connect w.next ip port] ++ [.closed w.next], w.proxySocket⟩) := by
            rw [Act.handle_error (attempt_fault hfault)]
            rfl
          rw [hnew, Act.bind_error hclose]
        · simp
        · rfl
  · refine .invalid hport ?_
    simp only [newSocket]
    rw [if_neg hport]
    rfl

theorem opensOne_connect (s : Nat) : OpensOne s [.opened s, .connect s ip port] := by
  refine ⟨by simp, by simp, ?_⟩
  intro t ht
  simpa using ht

theorem allClosed_connect (s : Nat) : AllClosed [.opened s, .connect s ip port, .closed s] := by
  intro t ht
  obtain rfl : t = s := by simpa using ht
  simp

theorem allClosed_nil : AllClosed [] := by
  intro t ht
  cases ht

end Opening

section Direct

variable (env : Env) (level : Nat) {dest : Dest} {port : Int} {w : World}

theorem doDirect_io {ip : InetAddress} {kind : IOKind} {w' : World}
    (h : openDirect env level ip port w = (.error (.io kind), w')) :
    doDirect env level ip port w =
      (.error (.io (.socks SOCKS_DIRECT_FAILED "Direct connect failed:")), w') := by
  rw [doDirect, Act.handle_error h]
  rfl

theorem doDirect_unchecked {ip : InetAddress} {kind : UncheckedKind} {w' : World}
    (h : openDirect env level ip port w = (.error (.unchecked kind), w')) :
    doDirect env level ip port w = (.error (.unchecked kind), w') := by
  rw [doDirect, Act.handle_error h]
  rfl

theorem doDirect_run {p : Proxy} {ip : InetAddress} {connected : List UInt8 → Prop}
    {leaks breaks : Prop} {plan : List Dialled} (hdirect : p.isDirect env dest = .ok true)
    (hip : remoteIP env dest = .ok ip) :
    SocketRun level (SocketConnected env level p connected dest port)
      (SocketLeaks env level p connected leaks dest port)
      (SocketBreaks env level p connected breaks dest port)
      (socketPlan env p plan dest port) w (doDirect env level ip port w) := by
  have hplan : socketPlan env p plan dest port = connectPlan ip port := by
    simp [socketPlan, hdirect, hip]
  rw [hplan]
  have hconnected : ∀ bytes, SocketConnected env level p connected dest port bytes ↔
      Opens env level port ∧ bytes = env.input.content := by
    simp [SocketConnected, hdirect, hip]
  have hleaks : SocketLeaks env level p connected leaks dest port ↔ ValidPort port ∧
      env.fault level .connect = none ∧ env.fault level .streams ≠ none := by
    simp [SocketLeaks, hdirect, hip]
  have hbreaks : SocketBreaks env level p connected breaks dest port ↔ ¬ ValidPort port := by
    simp [SocketBreaks, hdirect, hip]
  rcases newSocket_run env level ip port w with ⟨w', hport, hfault, hrun, htrace, hsame⟩ |
    ⟨kind, w', hport, hfault, hrun, htrace, hsame⟩ | ⟨hport, hrun⟩
  · have hone := opensOne_connect ip port w.next
    have hdialled : dialled [.opened w.next, .connect w.next ip port] = connectPlan ip port := by
      rw [connectPlan, if_pos hport]
      rfl
    cases hstreams : env.fault level .streams with
    | none =>
        have hdone : doDirect env level ip port w = (.ok ⟨w.next, env.input⟩,
            w'.setProxySocket level (some (.tcp w.next))) := by
          apply Act.handle_ok
          rw [openDirect, Act.bind_ok hrun, Act.bind_ok (attempt_ok hstreams)]
          rfl
        refine .connected ⟨w.next, env.input⟩ _ _ hdone htrace hone ?_ ?_ ?_ ?_ ?_ hdialled
        · exact (holds_tcp (by simp)).mpr rfl
        · intro l hl
          rw [frame_setProxySocket level _ w' l hl, hsame]
        · intro bytes
          rw [hconnected]
          exact and_iff_right ⟨hport, hfault, hstreams⟩
        · rw [hleaks]
          simp [hstreams]
        · rw [hbreaks]
          exact not_not.mpr hport
    | some kind =>
        have hfail : doDirect env level ip port w =
            (.error (.io (.socks SOCKS_DIRECT_FAILED "Direct connect failed:")), w') := by
          apply doDirect_io
          rw [openDirect, Act.bind_ok hrun, Act.bind_error (attempt_fault hstreams)]
        refine .lost _ _ _ hfail htrace hone.not_allClosed (fun l _ => by rw [hsame]) ?_ ?_ ?_ ?_
        · intro bytes
          rw [hconnected, Opens, hstreams]
          simp
        · rw [hleaks]
          exact ⟨hport, hfault, by simp [hstreams]⟩
        · rw [hbreaks]
          simp [hport, Throwable.IsIO]
        · exact hdialled ▸ List.prefix_refl _
  · have hfail : doDirect env level ip port w =
        (.error (.io (.socks SOCKS_DIRECT_FAILED "Direct connect failed:")), w') := by
      apply doDirect_io
      rw [openDirect, Act.bind_error hrun]
    refine .closed _ _ _ hfail htrace (allClosed_connect ip port w.next)
      (fun l _ => by rw [hsame]) ?_ ?_ ?_ ?_
    · intro bytes
      rw [hconnected, Opens, hfault]
      simp
    · rw [hleaks, hfault]
      simp
    · rw [hbreaks]
      simp [hport, Throwable.IsIO]
    · rw [connectPlan, if_pos hport]
      exact List.prefix_refl _
  · have hfail : doDirect env level ip port w = (.error (.unchecked .illegalArgument), w) := by
      apply doDirect_unchecked
      rw [openDirect, Act.bind_error hrun]
    refine .closed _ [] _ hfail (by simp) allClosed_nil (Frame.refl _ _) ?_ ?_ ?_ List.nil_prefix
    · intro bytes
      rw [hconnected, Opens]
      simp [hport]
    · rw [hleaks]
      simp [hport]
    · rw [hbreaks]
      simp [hport, Throwable.IsIO]

end Direct

section Sessions

variable (env : Env)

theorem unchecked_containsLong (entries : List Range.Entry) (ip : Nat) :
    Throws (fun e => ¬ Throwable.IsIO e) (Range.containsLong entries ip) := by
  induction entries with
  | nil => apply throws_ok
  | cons entry entries ih =>
      unfold Range.containsLong
      split
      · exact ih
      · split
        · split
          · exact throws_error id
          · split
            · apply throws_ok
            · exact ih
        · exact ih

theorem unchecked_contains (range : Range.InetRange) (platform : Platform) (ip : InetAddress) :
    Throws (fun e => ¬ Throwable.IsIO e) (range.contains platform ip) := by
  unfold Range.InetRange.contains
  split
  · apply throws_ok
  · split
    · apply throws_ok
    · apply unchecked_containsLong

theorem unchecked_containsText (range : Range.InetRange) (platform : Platform) (host : String)
    (attemptResolve : Bool) :
    Throws (fun e => ¬ Throwable.IsIO e) (range.containsText platform host attemptResolve) := by
  simp only [Range.InetRange.containsText]
  split
  · apply throws_ok
  · split
    · apply throws_ok
    · split
      · apply throws_ok
      · split
        · apply throws_ok
        · split
          · apply unchecked_containsLong
          · split
            · split
              · apply unchecked_contains
              · apply throws_ok
            · apply throws_ok

/-- Looking up an address range throws nothing but a null pointer. -/
theorem Proxy.unchecked_isDirect (p : Proxy) (dest : Dest) :
    Throws (fun e => ¬ Throwable.IsIO e) (p.isDirect env dest) := by
  cases dest with
  | ip ip => exact unchecked_contains p.directHosts env.platform.toPlatform ip
  | host host =>
      cases host with
      | some host => exact unchecked_containsText p.directHosts env.platform.toPlatform host true
      | none =>
          simp only [Proxy.isDirect, Range.InetRange.containsHost]
          split
          · apply throws_ok
          · exact throws_error id

theorem remoteIP_error {dest : Dest} {e : Throwable} (h : remoteIP env dest = .error e) :
    e = .io .unknownHost := by
  cases dest with
  | ip ip => cases h
  | host host =>
      simp only [remoteIP, getByName] at h
      split at h
      · cases h
      · cases h
        rfl

theorem Proxy.processReply_eq (p : Proxy) (reply : ProxyMessage) :
    (p.Accepts reply.host ∧ p.processReply reply = .ok ()) ∨
      (¬ p.Accepts reply.host ∧ p.processReply reply = .error (.unchecked .nullPointer)) := by
  unfold Proxy.Accepts Proxy.processReply
  cases reply.host with
  | none => exact .inr ⟨by simp, rfl⟩
  | some host =>
      by_cases hzero : host = "0.0.0.0" ∧ p.proxyIP = none
      · refine .inr ⟨?_, by simp [hzero]⟩
        simp [hzero]
      · refine .inl ⟨⟨by simp, ?_⟩, by simp [hzero]⟩
        intro heq hnone
        exact hzero ⟨Option.some.inj heq, hnone⟩

/-- How a `SocksSocket` is opened through a call on its proxy. -/
theorem socketRun_call (level : Nat) {p : Proxy} {connected : List UInt8 → Prop}
    {leaks breaks : Prop} {plan : List Dialled} {w : World} {start : Net Session} {dest : Dest}
    {port : Int} (hdirect : p.isDirect env dest = .ok false)
    (hcall : CallRun env level p SOCKS_CMD_CONNECT dest port connected leaks breaks plan w
      (p.call env level start SOCKS_CMD_CONNECT dest port w)) :
    SocketRun level (SocketConnected env level p connected dest port)
      (SocketLeaks env level p connected leaks dest port)
      (SocketBreaks env level p connected breaks dest port)
      (socketPlan env p plan dest port) w (socksSocketOn env level p start dest port w) := by
  have hplan : socketPlan env p plan dest port =
      plan ++ p.requests env SOCKS_CMD_CONNECT dest port := by
    simp [socketPlan, hdirect]
  have hconnected : ∀ bytes, SocketConnected env level p connected dest port bytes ↔
      ∃ host, CallPasses env level p SOCKS_CMD_CONNECT dest port connected host bytes ∧
        p.Accepts host := by
    intro bytes
    simp only [SocketConnected, hdirect, CallPasses]
    constructor
    · rintro ⟨unread, host, hunread, hpasses, haccepts⟩
      exact ⟨host, ⟨unread, hunread, hpasses⟩, haccepts⟩
    · rintro ⟨host, ⟨unread, hunread, hpasses⟩, haccepts⟩
      exact ⟨unread, host, hunread, hpasses, haccepts⟩
  have hleaks : SocketLeaks env level p connected leaks dest port ↔
      CallLeaks env level p SOCKS_CMD_CONNECT dest port connected leaks ∨ ∃ host rest,
        CallPasses env level p SOCKS_CMD_CONNECT dest port connected host rest ∧
          ¬ p.Accepts host := by
    simp only [SocketLeaks, hdirect, CallLeaks, CallPasses]
    grind
  have hbreaks : SocketBreaks env level p connected breaks dest port ↔
      CallBreaks env level p SOCKS_CMD_CONNECT dest port connected breaks ∨ ∃ host rest,
        CallPasses env level p SOCKS_CMD_CONNECT dest port connected host rest ∧
          ¬ p.Accepts host := by
    simp only [SocketBreaks, hdirect, CallBreaks, CallPasses]
    grind
  have hsocket : socksSocketOn env level p start dest port w =
      (do
        let answer ← p.call env level start SOCKS_CMD_CONNECT dest port
        Act.lift (p.processReply answer.1)
        return answer.2 : Net Session) w := by
    rw [socksSocketOn, hdirect, Act.lift_ok_bind_run, if_neg Bool.false_ne_true]
  rw [hplan]
  rcases hcall with ⟨reply, session, events, w', hrun, htrace, hopens, hholds, hframe, hpasses,
      hcallLeaks, hcallBreaks, hdialled⟩ |
    ⟨e, events, w', hrun, htrace, hclosed, hframe, -, hpasses, hcallLeaks, hcallBreaks,
      hdialled, -⟩ |
    ⟨e, events, w', hrun, htrace, hlost, hframe, hpasses, hcallLeaks, hcallBreaks, hdialled, -⟩
  · rw [Act.bind_ok hrun] at hsocket
    obtain ⟨haccepts, hprocess⟩ | ⟨haccepts, hprocess⟩ := p.processReply_eq reply
    · refine .connected session events w' ?_ htrace hopens hholds hframe ?_ ?_ ?_ hdialled
      · simp only [hsocket, hprocess, Act.lift_ok_bind_run, Act.pure_run]
      · intro bytes
        rw [hconnected]
        grind
      · rw [hleaks]
        grind
      · rw [hbreaks]
        grind
    · have hrefused : ∃ host rest,
          CallPasses env level p SOCKS_CMD_CONNECT dest port connected host rest ∧
            ¬ p.Accepts host :=
        ⟨reply.host, session.input.content, (hpasses _ _).mpr ⟨rfl, rfl⟩, haccepts⟩
      refine .lost (.unchecked .nullPointer) events w' ?_ htrace hopens.not_allClosed hframe ?_
        (hleaks.mpr (.inr hrefused)) ?_ (hdialled ▸ List.prefix_refl _)
      · simp only [hsocket, hprocess, Act.lift_error_bind_run]
      · intro bytes
        rw [hconnected]
        grind
      · rw [hbreaks]
        simp only [Throwable.IsIO, not_false_eq_true, iff_true]
        exact .inr hrefused
  · rw [Act.bind_error hrun] at hsocket
    refine .closed e events w' hsocket htrace hclosed hframe ?_ ?_ ?_ hdialled
    · intro bytes
      rw [hconnected]
      grind
    · rw [hleaks]
      grind
    · rw [hbreaks]
      grind
  · rw [Act.bind_error hrun] at hsocket
    refine .lost e events w' hsocket htrace hlost hframe ?_ (hleaks.mpr (.inl hcallLeaks)) ?_
      hdialled
    · intro bytes
      rw [hconnected]
      grind
    · rw [hbreaks]
      grind

theorem socketRun (level : Nat) (p : Proxy) {connected : List UInt8 → Prop} {leaks breaks : Prop}
    {plan : List Dialled} {w : World} {start : Net Session} (dest : Dest) (port : Int)
    (hsession : SessionRun level connected leaks breaks plan w (start w)) :
    SocketRun level (SocketConnected env level p connected dest port)
      (SocketLeaks env level p connected leaks dest port)
      (SocketBreaks env level p connected breaks dest port)
      (socketPlan env p plan dest port) w (socksSocketOn env level p start dest port w) := by
  cases hdirect : p.isDirect env dest with
  | error e =>
      have hrun : socksSocketOn env level p start dest port w = (.error e, w) := by
        rw [socksSocketOn, hdirect, Act.lift_error_bind_run]
      refine .closed e [] w hrun (by simp) allClosed_nil (Frame.refl _ _) ?_ ?_ ?_ List.nil_prefix
      · simp [SocketConnected, hdirect]
      · simp [SocketLeaks, hdirect]
      · simp only [SocketBreaks, hdirect, true_iff]
        exact p.unchecked_isDirect env dest e hdirect
  | ok direct =>
      cases direct with
      | true =>
          cases hip : remoteIP env dest with
          | error e =>
              have hrun : socksSocketOn env level p start dest port w = (.error e, w) := by
                rw [socksSocketOn, hdirect, Act.lift_ok_bind_run, if_pos rfl, hip,
                  Act.lift_error_bind_run]
              refine .closed e [] w hrun (by simp) allClosed_nil (Frame.refl _ _) ?_ ?_ ?_
                List.nil_prefix
              · simp [SocketConnected, hdirect, hip]
              · simp [SocketLeaks, hdirect, hip]
              · rw [remoteIP_error env hip]
                simp [SocketBreaks, hdirect, hip, Throwable.IsIO]
          | ok ip =>
              have hrun : socksSocketOn env level p start dest port w =
                  doDirect env level ip port w := by
                rw [socksSocketOn, hdirect, Act.lift_ok_bind_run, if_pos rfl, hip,
                  Act.lift_ok_bind_run]
              rw [hrun]
              exact doDirect_run env level hdirect hip
      | false => exact socketRun_call env level hdirect (Proxy.callRun env level hsession)

theorem sessionRun_tcp (p : Proxy) {w : World} (hfresh : w.proxySocket 0 = none) :
    SessionRun 0 (Connected env p []) (SessionLeaks env p []) (SessionBreaks env p [])
      (sessionPlan env p []) w (startSession env p [] w) := by
  have hleaks : ¬ SessionLeaks env p [] := id
  cases hip : p.proxyIP with
  | none =>
      have hstart : startSession env p [] w = (.error (.unchecked .nullPointer), w) := by
        apply asSocks_unchecked
        rw [hip]
        rfl
      refine .started (.closed _ [] w hstart (by simp) allClosed_nil (Frame.refl _ _) ?_ hleaks ?_
        List.nil_prefix) ?_ ?_
      · simp [Connected, hip]
      · simp [SessionBreaks, hip, Throwable.IsIO]
      · intro e w' h
        cases hstart.symm.trans h
        exact hfresh
      · intro kind w' h
        cases hstart.symm.trans h
  | some ip =>
      have hplan : sessionPlan env p [] = connectPlan ip p.proxyPort := by
        simp [sessionPlan, hip]
      have hconnected : ∀ bytes, Connected env p [] bytes ↔
          Opens env 0 p.proxyPort ∧ bytes = env.input.content := by
        simp [Connected, hip]
      have hbreaks : SessionBreaks env p [] ↔ ¬ ValidPort p.proxyPort := by
        simp [SessionBreaks, hip]
      rw [hplan]
      rcases newSocket_run env 0 ip p.proxyPort w with ⟨w', hport, hfault, hrun, htrace, hsame⟩ |
        ⟨kind, w', hport, hfault, hrun, htrace, hsame⟩ | ⟨hport, hrun⟩
      · have hone := opensOne_connect ip p.proxyPort w.next
        have hdialled : dialled [.opened w.next, .connect w.next ip p.proxyPort] =
            connectPlan ip p.proxyPort := by
          rw [connectPlan, if_pos hport]
          rfl
        have hheld : Holds 0 w.next (w'.setProxySocket 0 (some (.tcp w.next))) :=
          (holds_tcp (by simp)).mpr rfl
        have hframe : Frame 0 w (w'.setProxySocket 0 (some (.tcp w.next))) := by
          intro l hl
          rw [frame_setProxySocket 0 _ w' l hl, hsame]
        cases hstreams : env.fault 0 .streams with
        | none =>
            have hstart : startSession env p [] w = (.ok ⟨w.next, env.input⟩,
                w'.setProxySocket 0 (some (.tcp w.next))) := by
              apply asSocks_ok
              rw [hip, Act.bind_ok hrun, Act.modify_bind_run, Act.bind_ok (attempt_ok hstreams)]
              rfl
            refine .started (.connected ⟨w.next, env.input⟩ _ _ hstart htrace hone hheld hframe ?_
              hleaks ?_ hdialled) ?_ ?_
            · intro bytes
              rw [hconnected]
              exact and_iff_right ⟨hport, hfault, hstreams⟩
            · rw [hbreaks]
              exact not_not.mpr hport
            · intro e w'' h
              cases hstart.symm.trans h
            · intro kind w'' h
              cases hstart.symm.trans h
        | some kind =>
            have hbody : (do
                let s ← newSocket env 0 p.proxyIP p.proxyPort
                Act.modify (World.setProxySocket 0 (some (.tcp s)))
                attempt env 0 .streams
                return ⟨s, env.input⟩ : Net Session) w =
                (.error (.io kind), w'.setProxySocket 0 (some (.tcp w.next))) := by
              rw [hip, Act.bind_ok hrun, Act.modify_bind_run,
                Act.bind_error (attempt_fault hstreams)]
            obtain ⟨e, hstart, hsocks⟩ := asSocks_io hbody
            refine .held e w.next _ _ hstart htrace hsocks hone hheld hframe ?_ hleaks ?_
              (hdialled ▸ List.prefix_refl _)
            · intro bytes
              rw [hconnected, Opens, hstreams]
              simp
            · rw [hbreaks]
              exact not_not.mpr hport
      · have hbody : (do
            let s ← newSocket env 0 p.proxyIP p.proxyPort
            Act.modify (World.setProxySocket 0 (some (.tcp s)))
            attempt env 0 .streams
            return ⟨s, env.input⟩ : Net Session) w = (.error (.io kind), w') := by
          rw [hip, Act.bind_error hrun]
        obtain ⟨e, hstart, hsocks⟩ := asSocks_io hbody
        refine .started (.closed e _ w' hstart htrace (allClosed_connect ip p.proxyPort w.next)
          (fun l _ => by rw [hsame]) ?_ hleaks ?_ ?_) ?_ ?_
        · intro bytes
          rw [hconnected, Opens, hfault]
          simp
        · rw [hbreaks]
          simp [hport, isIO_of_isSocks hsocks]
        · rw [connectPlan, if_pos hport]
          exact List.prefix_refl _
        · intro e' w'' h
          cases hstart.symm.trans h
          rw [hsame, hfresh]
        · intro kind' w'' h
          cases hstart.symm.trans h
          exact hsocks
      · have hstart : startSession env p [] w = (.error (.unchecked .illegalArgument), w) := by
          apply asSocks_unchecked
          rw [hip, Act.bind_error hrun]
        refine .started (.closed _ [] w hstart (by simp) allClosed_nil (Frame.refl _ _) ?_ hleaks ?_
          List.nil_prefix) ?_ ?_
        · intro bytes
          rw [hconnected, Opens]
          simp [hport]
        · rw [hbreaks]
          simp [hport, Throwable.IsIO]
        · intro e w' h
          cases hstart.symm.trans h
          exact hfresh
        · intro kind w' h
          cases hstart.symm.trans h

theorem asSocks_error {α : Type} {text : IOKind → String} {x : Net α} {w w' : World}
    {e : Throwable} (h : x w = (.error e, w')) :
    ∃ e', asSocks text x w = (.error e', w') ∧ (e.IsIO ↔ e'.IsIO) ∧ (e'.IsIO → IsSocks e') := by
  cases e with
  | io kind =>
      obtain ⟨e', hrun, hsocks⟩ := asSocks_io h
      have hio := isIO_of_isSocks hsocks
      exact ⟨e', hrun, ⟨fun _ => hio, fun _ => trivial⟩, fun _ => hsocks⟩
  | unchecked kind => exact ⟨_, asSocks_unchecked h, Iff.rfl, False.elim⟩

theorem startSession_error (p q : Proxy) (chain : List Proxy) {w w' : World} {e : Throwable}
    (h : socksSocketOn env chain.length q.copy (startSession env q.copy chain) p.dest p.proxyPort w
      = (.error e, w')) :
    ∃ e', startSession env p (q :: chain) w = (.error e', w') ∧ (e.IsIO ↔ e'.IsIO) ∧
      (e'.IsIO → IsSocks e') := by
  apply asSocks_error
  rw [Act.bind_error h]

theorem sessionRun_socks (p q : Proxy) (chain : List Proxy) {w : World}
    (hfresh : w.proxySocket (chain.length + 1) = none)
    (hsocket : SocketRun chain.length (Connected env p (q :: chain))
      (SessionLeaks env p (q :: chain)) (SessionBreaks env p (q :: chain))
      (sessionPlan env p (q :: chain)) w (socksSocketOn env chain.length q.copy
        (startSession env q.copy chain) p.dest p.proxyPort w)) :
    SessionRun (chain.length + 1) (Connected env p (q :: chain)) (SessionLeaks env p (q :: chain))
      (SessionBreaks env p (q :: chain)) (sessionPlan env p (q :: chain)) w
      (startSession env p (q :: chain) w) := by
  rcases hsocket with ⟨session, events, w', hrun, htrace, hopens, hholds, hframe, hconnected,
        hleaks, hbreaks, hdialled⟩ |
      ⟨e, events, w', hrun, htrace, hclosed, hframe, hconnected, hleaks, hbreaks, hdialled⟩ |
      ⟨e, events, w', hrun, htrace, hlost, hframe, hconnected, hleaks, hbreaks, hdialled⟩
  · have hstart : startSession env p (q :: chain) w =
        (.ok session, w'.setProxySocket (chain.length + 1) (some .socks)) := by
      apply asSocks_ok
      rw [Act.bind_ok hrun]
      rfl
    have hheld : Holds (chain.length + 1) session.socket
        (w'.setProxySocket (chain.length + 1) (some .socks)) := by
      unfold Holds
      rw [proxySocket_setProxySocket]
      dsimp only
      rw [holds_congr]
      · exact hholds
      · intro l hl
        simp [World.setProxySocket, Function.update, show l ≠ chain.length + 1 by omega]
    have hok : ∀ e w'', startSession env p (q :: chain) w ≠ (.error e, w'') := by
      rw [hstart]
      simp
    exact .started (.connected session events _ hstart htrace hopens hheld
      ((hframe.mono (by omega)).trans (frame_setProxySocket _ _ _)) hconnected hleaks hbreaks
      hdialled) (fun e w'' h => absurd h (hok e w'')) fun kind w'' h => absurd h (hok _ w'')
  · obtain ⟨e', hstart, hio, hsocks⟩ := startSession_error env p q chain hrun
    refine .started (.closed e' events w' hstart htrace hclosed (hframe.mono (by omega)) hconnected
      hleaks (by rw [hbreaks, hio]) hdialled) ?_ ?_
    · intro e'' w'' h
      cases hstart.symm.trans h
      rw [hframe _ (by omega), hfresh]
    · intro kind w'' h
      cases hstart.symm.trans h
      exact hsocks trivial
  · obtain ⟨e', hstart, hio, hsocks⟩ := startSession_error env p q chain hrun
    refine .started (.lost e' events w' hstart htrace hlost (hframe.mono (by omega)) hconnected
      hleaks (by rw [hbreaks, hio]) hdialled) ?_ ?_
    · intro e'' w'' h
      cases hstart.symm.trans h
      rw [hframe _ (by omega), hfresh]
    · intro kind w'' h
      cases hstart.symm.trans h
      exact hsocks trivial

theorem sessionRun (p : Proxy) (chain : List Proxy) {w : World}
    (hfresh : ∀ l ≤ chain.length, w.proxySocket l = none) :
    SessionRun chain.length (Connected env p chain) (SessionLeaks env p chain)
      (SessionBreaks env p chain) (sessionPlan env p chain) w (startSession env p chain w) := by
  induction chain generalizing p with
  | nil => exact sessionRun_tcp env p (hfresh 0 le_rfl)
  | cons q chain ih =>
      have hbelow := socketRun env chain.length q.copy p.dest p.proxyPort
        (ih q.copy fun l hl => hfresh l (by simp only [List.length_cons]; omega))
      have hnone : w.proxySocket (chain.length + 1) = none := hfresh _ le_rfl
      exact sessionRun_socks env p q chain hnone hbelow

end Sessions

end TorAndroid.Socks.Dial
