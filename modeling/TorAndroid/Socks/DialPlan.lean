import TorAndroid.Socks.ChainDial
import TorAndroid.Socks.Protect

namespace TorAndroid.Socks.Dial

open TorAndroid.Lib.Stateful
open TorAndroid.Socks.Authenticator
open TorAndroid.Socks.Basic
open TorAndroid.Socks.Message
open TorAndroid.Socks.Range
open TorAndroid.Socks.Requests

/-- A proxy as the model of whole sessions has it, which leaves out the bytes of its messages. -/
def Proxy.hop (p : Proxy) : Client.Hop where
  socks5 :=
    match p.kind with
    | .socks4 _ => false
    | .socks5 _ _ => true
  resolveAddrLocally :=
    match p.kind with
    | .socks4 _ => false
    | .socks5 _ resolveAddrLocally => resolveAddrLocally
  proxyIP := p.proxyIP
  proxyPort := p.proxyPort
  directHosts := p.directHosts

/-- A destination as a copy of a proxy has it. -/
def clientDest : Option InetAddress → Client.Dest
  | some ip => .ip ip
  | none => .nullHost

section Plan

variable (env : Env)

theorem Proxy.dest_hop (p : Proxy) : p.hop.dest = clientDest p.proxyIP := by
  rw [Client.Hop.dest]
  change (match p.proxyIP with | some ip => _ | none => _) = _
  cases p.proxyIP <;> rfl

theorem Proxy.dest_of_copy (p : Proxy) : p.copy.dest = p.proxyIP.elim (.host none) Dest.ip := by
  rw [Proxy.dest]
  change (match p.proxyIP with | some ip => _ | none => _) = _
  cases p.proxyIP <;> rfl

/-- The hosts that are direct are the same. -/
theorem Proxy.isDirect_hop (q : Proxy) (ip : Option InetAddress) :
    q.copy.isDirect env (ip.elim (.host none) Dest.ip) =
      q.hop.isDirect env.platform.toPlatform (clientDest ip) := by
  cases ip <;> rfl

/-- A host that is not known is never a direct one. -/
theorem Proxy.isDirect_none (q : Proxy) :
    q.hop.isDirect env.platform.toPlatform (clientDest none) ≠ .ok true := by
  change q.directHosts.containsHost env.platform.toPlatform none ≠ .ok true
  rw [InetRange.containsHost]
  split_ifs <;> rintro ⟨⟩

theorem connect_notMem_requests {p : Proxy} {command : Nat} {dest : Dest} {port : Int}
    (ip : InetAddress) (n : Int) : .connect ip n ∉ p.requests env command dest port := by
  rw [Proxy.requests]
  split <;> simp

theorem mem_connectPlan {ip : InetAddress} {port : Int} :
    (∃ a n, .connect a n ∈ connectPlan ip port) ↔ ValidPort port := by
  rw [connectPlan]
  split_ifs with hport
  · exact iff_of_true ⟨ip, port, List.mem_singleton_self _⟩ hport
  · exact iff_of_false (by simp) hport

/-- What is dialled when nothing fails has a connection in it exactly if the walk through the
chain ends in one. -/
theorem mem_socketPlan {q : Proxy} {plan : List Dialled} {ip : Option InetAddress} {port : Int} :
    (∃ a n, .connect a n ∈ socketPlan env q.copy plan (ip.elim (.host none) Dest.ip) port) ↔
      match q.hop.isDirect env.platform.toPlatform (clientDest ip) with
      | .ok true => ip ≠ none ∧ ValidPort port
      | .ok false => ∃ a n, .connect a n ∈ plan
      | .error _ => False := by
  rw [socketPlan, q.isDirect_hop env ip]
  cases hdirect : q.hop.isDirect env.platform.toPlatform (clientDest ip) with
  | error e => simp
  | ok direct =>
      cases direct with
      | false => simp only [List.mem_append, connect_notMem_requests, or_false]
      | true =>
          cases ip with
          | none => exact absurd hdirect (q.isDirect_none env)
          | some ip =>
              rw [and_iff_right (Option.some_ne_none ip)]
              exact mem_connectPlan

/-- The walk through the chain ends in a connection. -/
theorem planned_iff_dialable (p : Proxy) (chain : List Proxy) :
    (∃ ip port, .connect ip port ∈ sessionPlan env p.copy chain) ↔
      Client.Dialable env.platform.toPlatform p.hop (chain.map Proxy.hop) := by
  induction chain generalizing p with
  | nil =>
      change (∃ ip port, Dialled.connect ip port ∈
        match p.proxyIP with
        | some ip => connectPlan ip p.proxyPort
        | none => []) ↔ p.proxyIP ≠ none ∧ ValidPort p.proxyPort
      cases p.proxyIP with
      | none => simp
      | some ip =>
          rw [and_iff_right (Option.some_ne_none ip)]
          exact mem_connectPlan
  | cons q chain ih =>
      rw [sessionPlan, Proxy.dest_of_copy, mem_socketPlan, List.map_cons, Client.Dialable,
        Proxy.dest_hop]
      cases q.hop.isDirect env.platform.toPlatform (clientDest p.proxyIP) with
      | error e => exact Iff.rfl
      | ok direct =>
          cases direct with
          | true => exact Iff.rfl
          | false => exact ih q

/-- A proxy that is connected was dialled. -/
theorem dialable_of_connected {p : Proxy} {chain : List Proxy} {bytes : List UInt8}
    (h : Connected env p.copy chain bytes) :
    Client.Dialable env.platform.toPlatform p.hop (chain.map Proxy.hop) := by
  induction chain generalizing p bytes with
  | nil => exact ⟨h.1, h.2.1.1⟩
  | cons q chain ih =>
      rw [Connected, Proxy.dest_of_copy, SocketConnected, q.isDirect_hop env] at h
      rw [List.map_cons, Client.Dialable, Proxy.dest_hop]
      cases hdirect : q.hop.isDirect env.platform.toPlatform (clientDest p.proxyIP) with
      | error e =>
          rw [hdirect] at h
          exact h
      | ok direct =>
          rw [hdirect] at h
          cases direct with
          | false =>
              obtain ⟨unread, host, hconnected, -⟩ := h
              exact ih hconnected
          | true =>
              refine ⟨fun hnone => ?_, h.2.1.1⟩
              have hip : p.proxyIP = none := hnone
              rw [hip] at hdirect
              exact q.isDirect_none env hdirect

/-- A request to connect to an address gets as far as a connection. -/
def Walks (p : Proxy) (chain : List Proxy) (ip : InetAddress) (port : Int) : Prop :=
  match p.hop.isDirect env.platform.toPlatform (.ip ip) with
  | .ok true => ValidPort port
  | .ok false => Client.Dialable env.platform.toPlatform p.hop (chain.map Proxy.hop)
  | .error _ => False

theorem planned_iff_walks {p : Proxy} {chain : List Proxy} {ip : InetAddress} {port : Int} :
    (∃ a n, .connect a n ∈ socketPlan env p.copy (sessionPlan env p.copy chain) (.ip ip) port) ↔
      Walks env p chain ip port := by
  have hplan := @mem_socketPlan env p (sessionPlan env p.copy chain) (some ip) port
  rw [planned_iff_dialable, and_iff_right (Option.some_ne_none ip)] at hplan
  exact hplan

/-- What is connected was dialled. -/
theorem walks_of_connected {p : Proxy} {chain : List Proxy} {ip : InetAddress} {port : Int}
    {bytes : List UInt8}
    (h : SocketConnected env chain.length p.copy (Connected env p.copy chain) (.ip ip) port bytes) :
    Walks env p chain ip port := by
  have hdirect : p.copy.isDirect env (.ip ip) = p.hop.isDirect env.platform.toPlatform (.ip ip) :=
    p.isDirect_hop env (some ip)
  rw [SocketConnected, hdirect] at h
  rw [Walks]
  cases hcase : p.hop.isDirect env.platform.toPlatform (.ip ip) with
  | error e =>
      rw [hcase] at h
      exact h
  | ok direct =>
      rw [hcase] at h
      cases direct with
      | true => exact h.2.1.1
      | false =>
          obtain ⟨unread, host, hconnected, -⟩ := h
          exact dialable_of_connected env hconnected

/-- Whatever the proxies answer and whichever operations fail, a `SocksSocket` connects only if the
walk through the chain ends in a connection, and one that comes about has been connected. -/
theorem socksSocket_connects (p : Proxy) (chain : List Proxy) (ip : InetAddress) (port : Int) :
    ((∃ a n, .connect a n ∈ dialled (socksSocket env p chain (.ip ip) port World.start).2.trace) →
      Walks env p chain ip port) ∧
    ∀ session w', socksSocket env p chain (.ip ip) port World.start = (.ok session, w') →
      Walks env p chain ip port ∧ ∃ a n, .connect a n ∈ dialled w'.trace := by
  have hsocket := socketRun env chain.length p.copy (.ip ip) port
    (sessionRun env p.copy chain (w := World.start) fun _ _ => rfl)
  have honly : ∀ w' : World, dialled w'.trace <+:
      socketPlan env p.copy (sessionPlan env p.copy chain) (.ip ip) port →
      (∃ a n, .connect a n ∈ dialled w'.trace) → Walks env p chain ip port := by
    rintro w' hprefix ⟨a, n, hmem⟩
    exact (planned_iff_walks env).mp ⟨a, n, hprefix.subset hmem⟩
  rw [socksSocket]
  rcases hsocket with ⟨session, events, w', hrun, htrace, -, -, -, hconnected, -, -, hdialled⟩ |
    ⟨e, events, w', hrun, htrace, -, -, -, -, -, hdialled⟩ |
    ⟨e, events, w', hrun, htrace, -, -, -, -, -, hdialled⟩ <;>
    rw [hrun] <;> change w'.trace = [] ++ events at htrace <;> rw [List.nil_append] at htrace
  · have hall := walks_of_connected env ((hconnected _).mpr rfl)
    refine ⟨fun _ => hall, ?_⟩
    rintro _ _ ⟨⟩
    refine ⟨hall, ?_⟩
    rw [htrace, hdialled]
    exact (planned_iff_walks env).mpr hall
  · exact ⟨honly w' (htrace ▸ hdialled), fun _ _ h => by cases h⟩
  · exact ⟨honly w' (htrace ▸ hdialled), fun _ _ h => by cases h⟩

/-- The requests to connect for which a session uses a socket that is not protected are those for
which a `SocksSocket` gets as far as a connection. -/
theorem exposed_iff_walks (p : Proxy) (chain : List Proxy) {ip : InetAddress} {msg : ProxyMessage}
    (hcommand : msg.command = SOCKS_CMD_CONNECT)
    (hresolve : resolveRequest env.platform.toPlatform msg = .ok ip) :
    Protect.Exposed env.platform.toPlatform (p.hop :: chain.map Proxy.hop) msg ↔
      Walks env p chain ip msg.port := by
  rw [Protect.Exposed, Walks]
  constructor
  · rintro ⟨ip', hip, hcases⟩
    cases hresolve.symm.trans hip
    rcases hcases with ⟨-, q, rest, hproxy, hwalks⟩ | ⟨hbind, -⟩ | ⟨hudp, -⟩
    · cases hproxy
      rcases hwalks with ⟨hdirect, hport⟩ | ⟨hdirect, hdial⟩
      · rwa [hdirect]
      · rwa [hdirect]
    · rw [hcommand] at hbind
      cases hbind
    · rw [hcommand] at hudp
      cases hudp
  · intro hwalks
    refine ⟨ip, hresolve, .inl ⟨hcommand, _, _, rfl, ?_⟩⟩
    cases hdirect : p.hop.isDirect env.platform.toPlatform (.ip ip) with
    | error e =>
        rw [hdirect] at hwalks
        exact hwalks.elim
    | ok direct =>
        rw [hdirect] at hwalks
        cases direct with
        | true => exact .inl ⟨rfl, hwalks⟩
        | false => exact .inr ⟨rfl, hwalks⟩

end Plan

end TorAndroid.Socks.Dial
