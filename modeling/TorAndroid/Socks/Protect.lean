import TorAndroid.Socks.Authenticator
import TorAndroid.Socks.Client

namespace TorAndroid.Socks.Protect

open TorAndroid.Lib.Effects
open TorAndroid.Socks.Basic
open TorAndroid.Socks.Message
open TorAndroid.Socks.Authenticator
open TorAndroid.Socks.Client
open TorAndroid.Socks.Range

section Session

variable (platform : Platform) (vpnService : Bool) (proxy : List Hop)

/-- `onConnect`. The `SocksSocket` that is protected after a connection through
a proxy is an object of its own; the connection is behind it. -/
def onConnect (ip : InetAddress) (port : Int) : Net Unit := do
  match proxy with
  | [] =>
      let s ← openSocket .stream
      if vpnService then Prog.emit (.protect s)
      Prog.lift (checkPort port)
      Prog.emit (.connect s ip port)
      Prog.attempt
  | p :: chain =>
      let _ ← socksSocket platform p chain ip port
      let s ← fresh
      if vpnService then Prog.emit (.protect s)
  -- the reply
  Prog.attempt

/-- `onBind` up to the accept thread, which opens no socket of its own. -/
def onBind (ip : InetAddress) (port : Int) : Net Unit := do
  match proxy with
  | [] =>
      let _ ← openSocket .server
  | p :: chain =>
      let _ ← socksServerSocket platform p chain ip port
  -- the timeout and the reply
  Prog.attempt
  Prog.attempt

def forward (remote : Nat) : Nat → Net Unit
  | 0 => pure ()
  | datagrams + 1 => do
      Prog.attempt
      Prog.emit (.send remote)
      forward remote datagrams

def remoteSocket (localIP : InetAddress) (localPort : Int) : Net Nat :=
  match proxy with
  | [] => openSocket .datagram
  | p :: chain => Prod.fst <$> socks5DatagramSocket platform p chain localIP localPort

/-- `new UDPRelayServer`: the socket to the client, `getLocalHost`, and the
remote socket. -/
def udpRelayServer (localIP : InetAddress) (localPort : Int) : Net Nat := do
  let _ ← openSocket .datagram
  Prog.attempt
  remoteSocket platform proxy localIP localPort

/-- The reply, the two timeouts of `UDPRelayServer.start`, and the datagrams. -/
def startRelay (remote datagrams : Nat) : Net Unit := do
  Prog.attempt
  Prog.attempt
  Prog.attempt
  forward remote datagrams

def onUDP (localIP : InetAddress) (localPort : Int) (datagrams : Nat) : Net Unit := do
  let remote ← udpRelayServer platform proxy localIP localPort
  startRelay remote datagrams

/-- The command of a request. `localIP` and `localPort` are those of the relay's
remote socket, `datagrams` the number of datagrams that the client sends to the
relay. -/
def perform (command : Command) (ip : InetAddress) (port : Int) (localIP : InetAddress)
    (localPort : Int) (datagrams : Nat) : Net Unit :=
  match command with
  | .connect => onConnect platform vpnService proxy ip port
  | .bind => onBind platform proxy ip port
  | .udpAssociate => onUDP platform proxy localIP localPort datagrams

def serve (msg : ProxyMessage) (localIP : InetAddress) (localPort : Int) (datagrams : Nat) :
    Net Unit := do
  let (command, msg) ← Prog.lift (handleRequest platform checkRequest msg)
  match msg.ip with
  | some ip => perform platform vpnService proxy command ip msg.port localIP localPort datagrams
  | none => Prog.fail (.unchecked .nullPointer)

end Session

def Uses (s : Nat) (event : Event) : Prop :=
  (∃ ip port, event = .connect s ip port) ∨ event = .send s

/-- Every socket is protected before it is used. -/
def ProtectedFirst (trace : List Event) : Prop :=
  ∀ before event after, trace = before ++ event :: after →
    ∀ s, Uses s event → .protect s ∈ before

def Used (event : Event) : Prop := ∃ s, Uses s event

def NotProtect (event : Event) : Prop := ∀ s, event ≠ .protect s

theorem benign_notUsed : Benign fun event => ¬ Used event := by
  constructor <;> (intros; rintro ⟨_, ⟨_, _, h⟩ | h⟩ <;> cases h)

theorem benign_notProtect : Benign NotProtect := by
  constructor <;> (intros; intro _ h; cases h)

theorem used_of_isConnect {event : Event} (h : IsConnect event) : Used event := by
  obtain ⟨s, ip, port, rfl⟩ := h
  exact ⟨s, .inl ⟨ip, port, rfl⟩⟩

theorem protectedFirst_of_notUsed {x : Net Unit} (h : Emits (fun event => ¬ Used event) x)
    (script : List (Option Throwable)) : ProtectedFirst (x (World.start script)).2.trace := by
  intro before event after htrace s huses
  obtain ⟨events, hevents, hnot⟩ := h (World.start script)
  rw [htrace] at hevents
  have hmem : event ∈ events := by
    rw [← List.nil_append events]
    change event ∈ (World.start script : World Throwable Event).trace ++ events
    rw [← hevents]
    simp
  exact absurd ⟨s, huses⟩ (hnot event hmem)

theorem not_protectedFirst_of_reaches {α : Type} {x : Net α} {f : α → Net Unit}
    (hreaches : Reaches Used x) (hemits : Emits NotProtect x)
    (hf : ∀ a, Emits (fun _ => True) (f a)) :
    ¬ ProtectedFirst ((x >>= f) (World.start [])).2.trace := by
  intro hsafe
  obtain ⟨events, htrace, event, hmem, s, huses⟩ := hreaches (World.start []) rfl
  obtain ⟨events', htrace', hnot⟩ := hemits (World.start [])
  obtain rfl : events = events' := by
    rw [htrace'] at htrace
    exact (List.append_cancel_left htrace).symm
  obtain ⟨before, after, rfl⟩ := List.append_of_mem hmem
  have hstart : ∃ rest, ((x >>= f) (World.start [])).2.trace =
      before ++ event :: (after ++ rest) := by
    rcases hrun : x (World.start []) with ⟨e | a, w'⟩
    · rw [hrun] at htrace
      exact ⟨[], by rw [bind_error hrun]; simpa [World.start] using htrace⟩
    · rw [hrun] at htrace
      obtain ⟨rest, hrest, -⟩ := hf a w'
      refine ⟨rest, ?_⟩
      rw [bind_ok hrun, hrest, htrace]
      simp [World.start]
  obtain ⟨rest, hrest⟩ := hstart
  have hprotect := hsafe before event (after ++ rest) hrest s huses
  exact hnot _ (List.mem_append_left _ hprotect) s rfl

section Emits

variable {platform : Platform} {Q : Event → Prop}

theorem emits_forward (hsend : ∀ s, Q (.send s)) (remote datagrams : Nat) :
    Emits Q (forward remote datagrams) := by
  induction datagrams with
  | zero => apply emits_pure
  | succ datagrams ih =>
      apply emits_bind emits_attempt
      intro _
      apply emits_bind (emits_emit (hsend remote))
      intro _
      exact ih

theorem emits_socksServerSocket (hQ : Benign Q) {p : Hop} {chain : List Hop} {ip : InetAddress}
    (hsession : p.isDirect platform (.ip ip) = .ok false →
      Emits Q (startSession platform p chain)) (port : Int) :
    Emits Q (socksServerSocket platform p chain ip port) := by
  apply emits_bind (emits_openSocket hQ .server)
  intro server
  apply emits_lift_bind
  intro direct hdirect
  cases direct with
  | true => apply emits_pure
  | false =>
      apply emits_bind (emits_establish hQ (hsession hdirect) _ _ _)
      intro s
      apply emits_bind emits_processReply
      intro _
      apply emits_pure

theorem emits_socks5DatagramSocket (hQ : Benign Q) {p : Hop} {chain : List Hop}
    (hsession : chain = [] → p.socks5 = true → Emits Q (startSession platform p chain))
    (localIP : InetAddress)
    (localPort : Int) : Emits Q (socks5DatagramSocket platform p chain localIP localPort) := by
  apply emits_bind (emits_openSocket hQ .datagram)
  intro socket
  split
  · apply emits_lift
  · rename_i hsocks5
    split
    · apply emits_lift
    · rename_i hchain
      have hstart := hsession (by simpa using hchain) (by simpa using hsocks5)
      apply emits_bind (emits_establish hQ hstart _ _ _)
      intro s
      apply emits_bind emits_processReply
      intro _
      apply emits_pure

end Emits

section Commands

variable {platform : Platform}

theorem ProtectedFirst.take {trace : List Event} (h : ProtectedFirst trace) (n : Nat) :
    ProtectedFirst (trace.take n) := by
  intro before event after htake s huses
  refine h before event (after ++ trace.drop n) ?_ s huses
  rw [← List.cons_append, ← List.append_assoc, ← htake, List.take_append_drop]

theorem onConnect_direct (platform : Platform) (ip : InetAddress) (port : Int)
    (script : List (Option Throwable)) :
    ProtectedFirst (onConnect platform true [] ip port (World.start script)).2.trace := by
  have htrace : ∃ n, (onConnect platform true [] ip port (World.start script)).2.trace =
      [Event.opened 0 .stream, .protect 0, .connect 0 ip port].take n := by
    unfold onConnect
    -- the port is out of range, or not
    cases checkPort port with
    | error e =>
        rcases script with _ | ⟨_ | e, script⟩
        · exact ⟨2, rfl⟩
        · exact ⟨2, rfl⟩
        · exact ⟨0, rfl⟩
    | ok u =>
        -- the outcomes of opening, of connecting and of the reply
        rcases script with _ | ⟨_ | e, _ | ⟨_ | e, _ | ⟨_ | e, script⟩⟩⟩ <;>
          first
          | exact ⟨0, rfl⟩
          | exact ⟨3, rfl⟩
  have hthree : ProtectedFirst [Event.opened 0 .stream, .protect 0, .connect 0 ip port] := by
    intro before event after h s huses
    rcases before with _ | ⟨e₁, _ | ⟨e₂, _ | ⟨e₃, before⟩⟩⟩ <;>
      simp only [List.nil_append, List.cons_append, List.cons.injEq] at h
    · obtain ⟨rfl, -⟩ := h
      rcases huses with ⟨_, _, h⟩ | h <;> cases h
    · obtain ⟨-, rfl, -⟩ := h
      rcases huses with ⟨_, _, h⟩ | h <;> cases h
    · obtain ⟨-, rfl, rfl, -⟩ := h
      rcases huses with ⟨_, _, h⟩ | h <;> cases h
      simp
    · simp at h
  obtain ⟨n, hn⟩ := htrace
  rw [hn]
  exact hthree.take n

theorem onConnect_notUsed {p : Hop} {chain : List Hop} {ip : InetAddress} (port : Int)
    (hdirect : p.isDirect platform (.ip ip) = .ok true → ¬ValidPort port)
    (hsession : p.isDirect platform (.ip ip) = .ok false → ¬ Dialable platform p chain) :
    Emits (fun event => ¬ Used event) (onConnect platform true (p :: chain) ip port) := by
  apply emits_bind
  · apply emits_socksSocketOn benign_notUsed
    · intro h _ _ _ hport
      exact absurd hport (hdirect h)
    · intro h
      exact emits_startSession_of_not_dialable benign_notUsed p chain (hsession h)
  · intro _
    apply emits_bind emits_fresh
    intro s
    apply emits_bind
    · apply emits_emit
      rintro ⟨_, ⟨_, _, h⟩ | h⟩ <;> cases h
    · intro _
      exact emits_attempt

theorem onConnect_exposed {p : Hop} {chain : List Hop} {ip : InetAddress} (port : Int)
    (h : p.isDirect platform (.ip ip) = .ok true ∧ ValidPort port ∨
      p.isDirect platform (.ip ip) = .ok false ∧ Dialable platform p chain) :
    ¬ ProtectedFirst (onConnect platform true (p :: chain) ip port (World.start [])).2.trace := by
  apply not_protectedFirst_of_reaches (x := socksSocket platform p chain ip port)
  · apply reaches_mono _ fun _ => used_of_isConnect
    rcases h with ⟨hdirect, hport⟩ | ⟨hdirect, hdial⟩
    · exact reaches_socksSocketOn_direct hdirect rfl hport
    · exact reaches_socksSocketOn hdirect (reaches_startSession p chain hdial) port
  · apply emits_socksSocketOn benign_notProtect
    · intro _ s a _ _ _ h
      cases h
    · intro _
      apply emits_startSession benign_notProtect
      intro _ _ _ _ h
      cases h
  · intro _
    apply emits_bind emits_fresh
    intro s
    apply emits_bind (emits_emit trivial)
    intro _
    exact emits_attempt

theorem emits_onBind {Q : Event → Prop} (hQ : Benign Q) {proxy : List Hop} {ip : InetAddress}
    (hsession : ∀ p chain, proxy = p :: chain → p.isDirect platform (.ip ip) = .ok false →
      Emits Q (startSession platform p chain)) (port : Int) :
    Emits Q (onBind platform proxy ip port) := by
  have hreply : Emits Q (do
      Prog.attempt
      Prog.attempt : Net Unit) := by
    apply emits_bind emits_attempt
    intro _
    exact emits_attempt
  cases proxy with
  | nil =>
      apply emits_bind (emits_openSocket hQ .server)
      intro _
      exact hreply
  | cons p chain =>
      apply emits_bind (emits_socksServerSocket hQ (hsession p chain rfl) port)
      intro _
      exact hreply

theorem onBind_exposed {p : Hop} {chain : List Hop} {ip : InetAddress} (port : Int)
    (hdirect : p.isDirect platform (.ip ip) = .ok false) (hdial : Dialable platform p chain) :
    ¬ ProtectedFirst (onBind platform (p :: chain) ip port (World.start [])).2.trace := by
  apply not_protectedFirst_of_reaches (x := socksServerSocket platform p chain ip port)
  · apply reaches_mono _ fun _ => used_of_isConnect
    apply reaches_bind_right (succeeds_openSocket .server) (emits_openSocket benign_true _)
    intro server
    apply reaches_lift_bind hdirect
    apply reaches_bind_left (reaches_establish (reaches_startSession p chain hdial) _ _ _)
    intro s
    apply emits_bind emits_processReply
    intro _
    apply emits_pure
  · apply emits_socksServerSocket benign_notProtect
    intro _
    apply emits_startSession benign_notProtect
    intro _ _ _ _ h
    cases h
  · intro _
    apply emits_bind emits_attempt
    intro _
    exact emits_attempt

theorem emits_startRelay {Q : Event → Prop} (hsend : ∀ s, Q (.send s)) (remote datagrams : Nat) :
    Emits Q (startRelay remote datagrams) := by
  apply emits_bind emits_attempt
  intro _
  apply emits_bind emits_attempt
  intro _
  apply emits_bind emits_attempt
  intro _
  exact emits_forward hsend remote datagrams

theorem emits_udpRelayServer {Q : Event → Prop} (hQ : Benign Q) {proxy : List Hop}
    (hsession : ∀ p, proxy = [p] → p.socks5 = true → Emits Q (startSession platform p []))
    (localIP : InetAddress) (localPort : Int) :
    Emits Q (udpRelayServer platform proxy localIP localPort) := by
  apply emits_bind (emits_openSocket hQ .datagram)
  intro _
  apply emits_bind emits_attempt
  intro _
  cases proxy with
  | nil => exact emits_openSocket hQ .datagram
  | cons p chain =>
      apply emits_bind
      · apply emits_socks5DatagramSocket hQ
        rintro rfl hsocks5
        exact hsession p rfl hsocks5
      · intro _
        apply emits_pure

theorem onUDP_notProtect (proxy : List Hop) (localIP : InetAddress) (localPort : Int) :
    Emits NotProtect (udpRelayServer platform proxy localIP localPort) := by
  apply emits_udpRelayServer benign_notProtect
  intro p _ _
  apply emits_startSession benign_notProtect
  intro _ _ _ _ h
  cases h

theorem onUDP_plain_exposed (localIP : InetAddress) (localPort : Int) :
    ¬ ProtectedFirst (onUDP platform [] localIP localPort 1 (World.start [])).2.trace := by
  intro h
  have hsend := h [.opened 0 .datagram, .opened 1 .datagram] (.send 1) [] rfl 1 (.inr rfl)
  simp at hsend

theorem onUDP_proxy_exposed {p : Hop} (hsocks5 : p.socks5 = true) (hip : p.Addressed)
    (localIP : InetAddress) (localPort : Int) (datagrams : Nat) :
    ¬ ProtectedFirst (onUDP platform [p] localIP localPort datagrams (World.start [])).2.trace := by
  apply not_protectedFirst_of_reaches (x := udpRelayServer platform [p] localIP localPort)
  · apply reaches_mono _ fun _ => used_of_isConnect
    apply reaches_bind_right (succeeds_openSocket .datagram) (emits_openSocket benign_true _)
    intro _
    apply reaches_bind_right succeeds_attempt emits_attempt
    intro _
    apply reaches_bind_left
    · apply reaches_bind_right (succeeds_openSocket .datagram) (emits_openSocket benign_true _)
      intro socket
      simp only [hsocks5, Bool.true_eq_false, if_false, ne_eq, not_true_eq_false]
      apply reaches_bind_left (reaches_establish (reaches_startSession p [] hip) _ _ _)
      intro s
      apply emits_bind emits_processReply
      intro _
      apply emits_pure
    · intro _
      apply emits_pure
  · exact onUDP_notProtect [p] localIP localPort
  · intro remote
    exact emits_startRelay (fun _ => trivial) remote datagrams

theorem fails_socks5DatagramSocket {p : Hop} {chain : List Hop}
    (h : ¬ (chain = [] ∧ p.socks5 = true ∧ p.Addressed)) (localIP : InetAddress)
    (localPort : Int) : Fails (socks5DatagramSocket platform p chain localIP localPort) := by
  apply fails_bind_right
  intro socket
  split
  · apply fails_fail
  · rename_i hsocks5
    split
    · apply fails_fail
    · rename_i hchain
      have hnil : chain = [] := by simpa using hchain
      have hnone : ¬p.Addressed := fun hip => h ⟨hnil, by simpa using hsocks5, hip⟩
      subst hnil
      apply fails_bind_left
      apply fails_bind_left
      exact fails_startSession hnone

theorem onUDP_notUsed {p : Hop} {chain : List Hop}
    (h : ¬ (chain = [] ∧ p.socks5 = true ∧ p.Addressed)) (localIP : InetAddress)
    (localPort : Int) (datagrams : Nat) :
    Emits (fun event => ¬ Used event)
      (onUDP platform (p :: chain) localIP localPort datagrams) := by
  apply emits_bind_of_fails
  · apply emits_udpRelayServer benign_notUsed
    rintro q hproxy hsocks5
    cases hproxy
    apply emits_startSession_of_not_dialable benign_notUsed
    intro hip
    exact h ⟨rfl, hsocks5, hip⟩
  · apply fails_bind_right
    intro _
    apply fails_bind_right
    intro _
    apply fails_bind_left
    exact fails_socks5DatagramSocket h localIP localPort

end Commands

/-- The requests for which a session uses an unprotected socket: CONNECT and
BIND through a proxy, unless the walk through the chain throws before it
connects or the BIND is for a direct host, and UDP_ASSOCIATE without a proxy or
through a single SOCKS5 proxy. A port out of range makes the walk throw, too. -/
def Exposed (platform : Platform) (proxy : List Hop) (msg : ProxyMessage) : Prop :=
  ∃ ip, resolveRequest platform msg = .ok ip ∧
    (msg.command = SOCKS_CMD_CONNECT ∧ (∃ p chain, proxy = p :: chain ∧
        (p.isDirect platform (.ip ip) = .ok true ∧ ValidPort msg.port ∨
          p.isDirect platform (.ip ip) = .ok false ∧ Dialable platform p chain)) ∨
      msg.command = SOCKS_CMD_BIND ∧ (∃ p chain, proxy = p :: chain ∧
        p.isDirect platform (.ip ip) = .ok false ∧ Dialable platform p chain) ∨
      msg.command = SOCKS_CMD_UDP_ASSOCIATE ∧ (proxy = [] ∨
        ∃ p, proxy = [p] ∧ p.socks5 = true ∧ p.Addressed))

section Main

variable {platform : Platform} {proxy : List Hop} {msg : ProxyMessage}

theorem serve_error {e : Throwable} (h : handleRequest platform checkRequest msg = .error e)
    (vpnService : Bool) (localIP : InetAddress) (localPort : Int) (datagrams : Nat) :
    serve platform vpnService proxy msg localIP localPort datagrams = Prog.fail e := by
  unfold serve
  rw [h]
  rfl

theorem serve_eq {command : Command} {ip : InetAddress}
    (h : handleRequest platform checkRequest msg = .ok (command, { msg with ip := some ip }))
    (vpnService : Bool) (localIP : InetAddress) (localPort : Int) (datagrams : Nat) :
    serve platform vpnService proxy msg localIP localPort datagrams =
      perform platform vpnService proxy command ip msg.port localIP localPort datagrams := by
  unfold serve
  rw [h]
  rfl

/-- A request that exposes a socket does so when every operation succeeds and
the client sends a datagram. -/
theorem not_protectedFirst_of_exposed (h : Exposed platform proxy msg) (localIP : InetAddress)
    (localPort : Int) :
    ¬ ProtectedFirst
      (serve platform true proxy msg localIP localPort 1 (World.start [])).2.trace := by
  obtain ⟨ip, hresolve, h⟩ := h
  have hrequest := handleRequest_eq hresolve
  rcases h with ⟨hcommand, p, chain, rfl, h⟩ | ⟨hcommand, p, chain, rfl, hdirect, hdial⟩ |
    ⟨hcommand, h⟩
  · rw [hcommand, if_pos rfl, ← hcommand] at hrequest
    rw [serve_eq hrequest]
    exact onConnect_exposed msg.port h
  · rw [hcommand, if_neg (by decide), if_pos rfl, ← hcommand] at hrequest
    rw [serve_eq hrequest]
    exact onBind_exposed msg.port hdirect hdial
  · rw [hcommand, if_neg (by decide), if_neg (by decide), if_pos rfl, ← hcommand] at hrequest
    rw [serve_eq hrequest]
    rcases h with rfl | ⟨p, rfl, hsocks5, hip⟩
    · exact onUDP_plain_exposed localIP localPort
    · exact onUDP_proxy_exposed hsocks5 hip localIP localPort 1

theorem protectedFirst_of_not_exposed (h : ¬ Exposed platform proxy msg) (localIP : InetAddress)
    (localPort : Int) (datagrams : Nat) (script : List (Option Throwable)) :
    ProtectedFirst
      (serve platform true proxy msg localIP localPort datagrams (World.start script)).2.trace := by
  rcases handleRequest_cases platform msg with ⟨e, herror⟩ | ⟨ip, hresolve, hcases⟩
  · rw [serve_error herror]
    exact protectedFirst_of_notUsed (emits_fail e) script
  · rcases hcases with ⟨hcommand, hrequest⟩ | ⟨hcommand, hrequest⟩ | ⟨hcommand, hrequest⟩ <;>
      rw [serve_eq hrequest]
    · cases proxy with
      | nil => exact onConnect_direct platform ip msg.port script
      | cons p chain =>
          apply protectedFirst_of_notUsed
          apply onConnect_notUsed
          · intro hdirect hport
            exact h ⟨ip, hresolve, .inl ⟨hcommand, p, chain, rfl, .inl ⟨hdirect, hport⟩⟩⟩
          · intro hdirect hdial
            exact h ⟨ip, hresolve, .inl ⟨hcommand, p, chain, rfl, .inr ⟨hdirect, hdial⟩⟩⟩
    · apply protectedFirst_of_notUsed
      apply emits_onBind benign_notUsed
      rintro p chain rfl hdirect
      apply emits_startSession_of_not_dialable benign_notUsed
      intro hdial
      exact h ⟨ip, hresolve, .inr (.inl ⟨hcommand, p, chain, rfl, hdirect, hdial⟩)⟩
    · cases proxy with
      | nil => exact absurd ⟨ip, hresolve, .inr (.inr ⟨hcommand, .inl rfl⟩)⟩ h
      | cons p chain =>
          apply protectedFirst_of_notUsed
          apply onUDP_notUsed
          rintro ⟨rfl, hsocks5, hip⟩
          exact h ⟨ip, hresolve, .inr (.inr ⟨hcommand, .inr ⟨p, rfl, hsocks5, hip⟩⟩)⟩

end Main

/-- In every run of a session with a `VpnService`, whatever fails and whatever
the client sends to the relay, each socket is protected before it is connected
or sends a datagram, exactly when the request is not an exposed one. -/
theorem protectedFirst_iff (platform : Platform) (proxy : List Hop) (msg : ProxyMessage)
    (localIP : InetAddress) (localPort : Int) :
    (∀ script datagrams, ProtectedFirst
      (serve platform true proxy msg localIP localPort datagrams
        (World.start script)).2.trace) ↔
    ¬ Exposed platform proxy msg := by
  constructor
  · intro h hexposed
    exact not_protectedFirst_of_exposed hexposed localIP localPort (h [] 1)
  · intro h script datagrams
    exact protectedFirst_of_not_exposed h localIP localPort datagrams script

def sampleProxy : Hop := ⟨true, true, some (.v4 10 0 0 1), 1080, ⟨[], [], []⟩⟩

/-- A CONNECT request through one proxy. -/
theorem connect_through_proxy_unprotected :
    ¬ ∀ script datagrams, ProtectedFirst
      (serve .latin1 true [sampleProxy]
        ⟨.socks5 1, 5, 1, some (.v4 1 2 3 4), some "1.2.3.4", 80, none⟩ (.v4 0 0 0 0) 0 datagrams
        (World.start script)).2.trace := by
  intro h
  have hexposed : Exposed .latin1 [sampleProxy]
      ⟨.socks5 1, 5, 1, some (.v4 1 2 3 4), some "1.2.3.4", 80, none⟩ :=
    ⟨.v4 1 2 3 4, rfl, .inl ⟨rfl, sampleProxy, [], rfl,
      .inr ⟨rfl, nofun, by decide⟩⟩⟩
  exact not_protectedFirst_of_exposed hexposed (.v4 0 0 0 0) 0 (h [] 1)

end TorAndroid.Socks.Protect
