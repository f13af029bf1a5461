import TorAndroid.Socks.ChainSession

namespace TorAndroid.Socks.Dial

open TorAndroid.Lib.Fragments
open TorAndroid.Lib.Stateful
open TorAndroid.Lib.Throwing
open TorAndroid.Socks.Basic
open TorAndroid.Socks.Message
open TorAndroid.Socks.Negotiation
open TorAndroid.Socks.Requests

/-- A host given by its address or by its name. -/
inductive Endpoint
  | ip (ip : InetAddress)
  | name (host : String)

inductive HopKind
  | socks4 (user : String)
  | socks5 (resolveAddrLocally : Bool)

/-- What a proxy is constructed from; the proxy behind it is its
`chainProxy`. -/
structure Hop where
  kind : HopKind
  endpoint : Endpoint
  port : Int

section Construct

variable (platform : ClientPlatform)

def Hop.proxyKind (hop : Hop) : Kind :=
  match hop.kind with
  | .socks4 user => .socks4 user
  | .socks5 resolve => .socks5 (Socks5Proxy.create .none) resolve

/-- The constructors of `Socks4Proxy` and `Socks5Proxy`: a host name is resolved
only when there is no `chainProxy`. -/
def Hop.construct (hop : Hop) (chained : Bool) : Java Proxy :=
  match hop.endpoint with
  | .ip ip => .ok ⟨hop.proxyKind, some ip, none, hop.port, ⟨[], [], []⟩⟩
  | .name host =>
      if chained then .ok ⟨hop.proxyKind, none, some host, hop.port, ⟨[], [], []⟩⟩
      else
        match platform.getByName (some host) with
        | some ip => .ok ⟨hop.proxyKind, some ip, some host, hop.port, ⟨[], [], []⟩⟩
        | none => .error (.io .unknownHost)

/-- The proxies of a chain, the innermost first. -/
def construct : List Hop → Java (List Proxy)
  | [] => .ok []
  | hop :: hops => do
      let chain ← construct hops
      let p ← hop.construct platform !chain.isEmpty
      return p :: chain

def Endpoint.dest : Endpoint → Dest
  | .ip address => .ip address
  | .name host => .host (some host)

end Construct

/-- A step on the way: the TCP connection, or what a server reads from a
request. -/
inductive Step
  | connect (ip : InetAddress) (port : Int)
  | request (request : Option Request)

def Dialled.step : Dialled → Step
  | .connect ip port => .connect ip port
  | .request bytes => .request (readRequest bytes)

def steps (events : List Event) : List Step := (dialled events).map Dialled.step

section Route

variable (platform : ClientPlatform)

def Endpoint.resolve : Endpoint → Option InetAddress
  | .ip address => some address
  | .name host => platform.getByName (some host)

def HopKind.version : HopKind → Nat
  | .socks4 _ => 4
  | .socks5 _ => 5

/-- How a host is to be named to a proxy: by its name if the proxy is to resolve
it, else by its address; `none` if the name cannot be resolved. -/
def HopKind.named (kind : HopKind) (dest : Endpoint) : Option Address :=
  match kind, dest with
  | .socks5 false, .name host => some (.name (platform.getBytes host))
  | _, dest => (dest.resolve platform).map fun ip => .ip ip.octets

/-- The request that asks a proxy for a connection. -/
def HopKind.request (kind : HopKind) (dest : Endpoint) (port : Int) : List Step :=
  match kind.named platform dest with
  | some address => [.request (some ⟨kind.version, SOCKS_CMD_CONNECT, address, port⟩)]
  | none => []

/-- The route through a chain of proxies to a host, and whether it gets there:
it ends where a name is to be resolved and cannot be. -/
def route : List Hop → Endpoint → Int → List Step × Bool
  | [], dest, port =>
      match dest.resolve platform with
      | some ip => ([.connect ip port], true)
      | none => ([], false)
  | hop :: hops, dest, port =>
      match route hops hop.endpoint hop.port with
      | (steps, true) =>
          (steps ++ hop.kind.request platform dest port, (hop.kind.named platform dest).isSome)
      | (steps, false) => (steps, false)

end Route

section Granting

/-- The bytes of a server that takes the client without authentication and
grants its request, reporting the address and port it is bound to. -/
def Kind.grant (kind : Kind) (bound : List UInt8) : List UInt8 :=
  match kind with
  | .socks4 _ => [0, 90] ++ bound.drop 4 ++ bound.take 4
  | .socks5 _ _ => [5, 0, 5, 0, 0, 1] ++ bound

/-- The bytes of all the servers of a chain, the outermost first. -/
def grants (bound : Nat → List UInt8) : List Proxy → List UInt8
  | [] => []
  | p :: chain => grants bound chain ++ p.kind.grant (bound chain.length)

/-- Nothing fails and every server grants its request, whatever address of six
bytes it reports. -/
structure Granting (env : Env) (chain : List Proxy) : Prop where
  faultless : ∀ level point, env.fault level point = none
  granted : ∃ bound rest, (∀ level, (bound level).length = 6) ∧
    env.input.content = grants bound chain ++ rest

end Granting

/-- `new SocksSocket(p, dest, port)` dials the chain of proxies that was
configured. -/
structure DialsAsConfigured (platform : ClientPlatform) (hops : List Hop) (p : Proxy)
    (chain : List Proxy) (dest : Endpoint) (port : Int) : Prop where
  copies : ∀ q ∈ p :: chain, q.copy.dest = q.dest
  follows : ∀ env : Env, env.platform = platform →
    steps (socksSocket env p chain dest.dest port World.start).2.trace <+:
      (route platform hops dest port).1
  completes : ∀ env : Env, env.platform = platform → Granting env (p :: chain) →
    steps (socksSocket env p chain dest.dest port World.start).2.trace =
      (route platform hops dest port).1 ∧
    ((route platform hops dest port).2 = true →
      ∃ session, (socksSocket env p chain dest.dest port World.start).1 = .ok session)

section Condition

variable (platform : ClientPlatform)

/-- A request of a proxy can carry a host and port: the address is one that SOCKS4
has, and names and ports fit into their fields. -/
def HopKind.Carries (kind : HopKind) (dest : Endpoint) (port : Int) : Prop :=
  match kind, kind.named platform dest with
  | .socks4 user, some (.ip octets) => ValidPort port ∧ octets.length = 4 ∧
      (platform.getBytes user).length ≤ utf16Length user + 1
  | .socks5 _, some (.name bytes) => ValidPort port ∧ bytes.length ≤ 255
  | .socks5 _, some (.ip _) => ValidPort port
  | _, _ => True

/-- Every connection on the way can be asked for. -/
def Carried : List Hop → Endpoint → Int → Prop
  | [], _, port => ValidPort port
  | hop :: hops, dest, port =>
      Carried hops hop.endpoint hop.port ∧ hop.kind.Carries platform dest port

/-- Every hop but the outermost is given by its address. -/
def GivenByAddress (hops : List Hop) : Prop :=
  ∀ hop ∈ hops.dropLast, ∃ ip, hop.endpoint = .ip ip

end Condition

section Links

variable {platform : ClientPlatform} {env : Env}

theorem portOf_eq_iff (port : Int) :
    portOf (toByte (port / 256)) (toByte port) = port ↔ ValidPort port := by
  constructor
  · intro h
    rw [ValidPort, ← h]
    exact portOf_bounds _ _
  · exact portOf_portBytes

theorem take_four_eq_iff (ip : InetAddress) : ip.octets.take 4 = ip.octets ↔
    ip.octets.length = 4 := by
  constructor
  · intro h
    have hlength := congrArg List.length h
    rw [List.length_take] at hlength
    rcases ip.valid with hvalid | hvalid <;> omega
  · intro h
    rw [← h]
    exact List.take_length

theorem socks4_request_iff {user : String} (ip : InetAddress) (port : Int) {q : Proxy}
    {dest : Dest} (hplatform : env.platform = platform)
    (hmessage : q.formMessage env SOCKS_CMD_CONNECT dest port =
      some <$> Socks4Message.ofAddress env.platform SOCKS_CMD_CONNECT ip port user) :
    (q.requests env SOCKS_CMD_CONNECT dest port).map Dialled.step =
        [.request (some ⟨4, SOCKS_CMD_CONNECT, .ip ip.octets, port⟩)] ↔
      ValidPort port ∧ ip.octets.length = 4 ∧
        (platform.getBytes user).length ≤ utf16Length user + 1 := by
  cases hbytes : Socks4Message.ofAddress env.platform SOCKS_CMD_CONNECT ip port user with
  | error e =>
      have hlong : utf16Length user + 1 < (platform.getBytes user).length := by
        simp only [Socks4Message.ofAddress, hplatform] at hbytes
        by_contra hshort
        rw [if_neg hshort] at hbytes
        cases hbytes
      have hnone : q.requests env SOCKS_CMD_CONNECT dest port = [] := by
        simp only [Proxy.requests, hmessage, hbytes]
        rfl
      rw [hnone]
      refine iff_of_false (by simp) ?_
      omega
  | ok bytes =>
      have hshort : (platform.getBytes user).length ≤ utf16Length user + 1 := by
        simp only [Socks4Message.ofAddress, hplatform] at hbytes
        by_contra hlong
        rw [if_pos (by omega)] at hbytes
        cases hbytes
      have hone : q.requests env SOCKS_CMD_CONNECT dest port = [.request bytes] := by
        simp only [Proxy.requests, hmessage, hbytes]
        rfl
      have hread := readRequest_socks4 (show SOCKS_CMD_CONNECT < 256 by decide) hbytes
      rw [hone]
      simp only [List.map_cons, List.map_nil, Dialled.step, hread, List.cons.injEq,
        Step.request.injEq, Option.some.injEq, Request.mk.injEq, true_and, and_true,
        Address.ip.injEq, take_four_eq_iff, portOf_eq_iff]
      exact ⟨fun h => ⟨h.2, h.1, hshort⟩, fun h => ⟨h.2.1, h.1⟩⟩

theorem socks5_request_iff (ip : InetAddress) (port : Int) {q : Proxy} {dest : Dest}
    (hmessage : q.formMessage env SOCKS_CMD_CONNECT dest port =
      .ok (some (Socks5Message.ofAddress SOCKS_CMD_CONNECT ip port))) :
    (q.requests env SOCKS_CMD_CONNECT dest port).map Dialled.step =
        [.request (some ⟨5, SOCKS_CMD_CONNECT, .ip ip.octets, port⟩)] ↔ ValidPort port := by
  have hread := readRequest_ofAddress ip port (show SOCKS_CMD_CONNECT < 256 by decide)
  simp only [Proxy.requests, hmessage, List.map_cons, List.map_nil, Dialled.step, hread,
    List.cons.injEq, Step.request.injEq, Option.some.injEq, Request.mk.injEq, true_and, and_true,
    portOf_eq_iff]

theorem socks5_name_request_iff (bytes : List UInt8) (port : Int) {q : Proxy} {dest : Dest}
    (hmessage : q.formMessage env SOCKS_CMD_CONNECT dest port =
      .ok (some (Socks5Message.ofName SOCKS_CMD_CONNECT bytes port))) :
    (q.requests env SOCKS_CMD_CONNECT dest port).map Dialled.step =
        [.request (some ⟨5, SOCKS_CMD_CONNECT, .name bytes, port⟩)] ↔
      ValidPort port ∧ bytes.length ≤ 255 := by
  by_cases hlong : bytes.length ≤ 255
  · have hread := readRequest_ofName port (show SOCKS_CMD_CONNECT < 256 by decide) hlong
    simp only [Proxy.requests, hmessage, List.map_cons, List.map_nil, Dialled.step, hread,
      List.cons.injEq, Step.request.injEq, Option.some.injEq, Request.mk.injEq, true_and, and_true,
      portOf_eq_iff, hlong]
  · have hread := readRequest_ofName_long SOCKS_CMD_CONNECT port (Nat.lt_of_not_le hlong)
    simp [Proxy.requests, hmessage, Dialled.step, hread, hlong]

/-- What a proxy sends names the host and port exactly when its request can
carry them. -/
theorem request_iff_carries (hop : Hop) {q : Proxy} (hkind : q.kind = hop.proxyKind)
    (hplatform : env.platform = platform) (dest : Endpoint) (port : Int) :
    (q.requests env SOCKS_CMD_CONNECT dest.dest port).map Dialled.step =
        hop.kind.request platform dest port ↔ hop.kind.Carries platform dest port := by
  have hresolve : ∀ host, getByName env (some host) =
      match platform.getByName (some host) with
      | some ip => .ok ip
      | none => .error (.io .unknownHost) := by
    intro host
    rw [← hplatform]
    rfl
  obtain ⟨kind, endpoint, hopPort⟩ := hop
  cases kind with
  | socks4 user =>
      have hkind' : q.kind = .socks4 user := hkind
      cases dest with
      | ip ip =>
          apply socks4_request_iff ip port hplatform
          simp [Proxy.formMessage, hkind', Endpoint.dest]
      | name host =>
          cases hip : platform.getByName (some host) with
          | none =>
              have hnone : q.requests env SOCKS_CMD_CONNECT (.host (some host)) port = [] := by
                simp [Proxy.requests, Proxy.formMessage, hkind', hresolve, hip]
              simp [Endpoint.dest, HopKind.request, HopKind.Carries, HopKind.named,
                Endpoint.resolve, hip, hnone]
          | some ip =>
              have hmessage : q.formMessage env SOCKS_CMD_CONNECT (.host (some host)) port =
                  some <$> Socks4Message.ofAddress env.platform SOCKS_CMD_CONNECT ip port user := by
                simp [Proxy.formMessage, hkind', hresolve, hip]
              have hiff := socks4_request_iff ip port hplatform hmessage
              simpa [Endpoint.dest, HopKind.request, HopKind.Carries, HopKind.named,
                Endpoint.resolve, hip, HopKind.version] using hiff
  | socks5 resolve =>
      have hkind' : q.kind = .socks5 (Socks5Proxy.create .none) resolve := hkind
      cases dest with
      | ip ip =>
          have hmessage : q.formMessage env SOCKS_CMD_CONNECT (.ip ip) port =
              .ok (some (Socks5Message.ofAddress SOCKS_CMD_CONNECT ip port)) := by
            simp [Proxy.formMessage, hkind']
          have hiff := socks5_request_iff ip port hmessage
          cases resolve <;> exact hiff
      | name host =>
          cases resolve with
          | false =>
              have hmessage : q.formMessage env SOCKS_CMD_CONNECT (.host (some host)) port =
                  .ok (some (Socks5Message.ofName SOCKS_CMD_CONNECT (platform.getBytes host)
                    port)) := by
                simp [Proxy.formMessage, hkind', hplatform]
              exact socks5_name_request_iff (platform.getBytes host) port hmessage
          | true =>
              cases hip : platform.getByName (some host) with
              | none =>
                  have hnone : q.requests env SOCKS_CMD_CONNECT (.host (some host)) port = [] := by
                    simp [Proxy.requests, Proxy.formMessage, hkind', hresolve, hip]
                  simp [Endpoint.dest, HopKind.request, HopKind.Carries, HopKind.named,
                    Endpoint.resolve, hip, hnone]
              | some ip =>
                  have hmessage : q.formMessage env SOCKS_CMD_CONNECT (.host (some host)) port =
                      .ok (some (Socks5Message.ofAddress SOCKS_CMD_CONNECT ip port)) := by
                    simp [Proxy.formMessage, hkind', hresolve, hip]
                  have hiff := socks5_request_iff ip port hmessage
                  simpa [Endpoint.dest, HopKind.request, HopKind.Carries, HopKind.named,
                    Endpoint.resolve, hip, HopKind.version] using hiff

/-- No more is sent than the route has. -/
theorem requests_length_le (hop : Hop) {q : Proxy} (hkind : q.kind = hop.proxyKind)
    (hplatform : env.platform = platform) (dest : Endpoint) (port : Int) :
    ((q.requests env SOCKS_CMD_CONNECT dest.dest port).map Dialled.step).length ≤
      (hop.kind.request platform dest port).length := by
  have hone : ((q.requests env SOCKS_CMD_CONNECT dest.dest port).map Dialled.step).length ≤ 1 := by
    rw [List.length_map]
    unfold Proxy.requests
    split <;> simp
  cases hnamed : hop.kind.named platform dest with
  | some address => simpa [HopKind.request, hnamed] using hone
  | none =>
      have hcarries : hop.kind.Carries platform dest port := by
        unfold HopKind.Carries
        rw [hnamed]
        cases hop.kind <;> trivial
      rw [(request_iff_carries hop hkind hplatform dest port).mpr hcarries]

end Links

section Construction

variable {platform : ClientPlatform} {env : Env}

/-- A proxy that knows the address of its hop. -/
def Stands (platform : ClientPlatform) (hop : Hop) (q : Proxy) : Prop :=
  ∃ ip host, hop.endpoint.resolve platform = some ip ∧
    q = ⟨hop.proxyKind, some ip, host, hop.port, ⟨[], [], []⟩⟩

theorem construct_cons {hop : Hop} {hops : List Hop} {p : Proxy} {chain : List Proxy}
    (h : construct platform (hop :: hops) = .ok (p :: chain)) :
    construct platform hops = .ok chain ∧ hop.construct platform (!chain.isEmpty) = .ok p := by
  rw [construct, bind_eq_ok] at h
  obtain ⟨chain', hchain, h⟩ := h
  rw [bind_eq_ok] at h
  obtain ⟨p', hp, h⟩ := h
  cases h
  exact ⟨hchain, hp⟩

theorem construct_length {hops : List Hop} {chain : List Proxy}
    (h : construct platform hops = .ok chain) : chain.length = hops.length := by
  induction hops generalizing chain with
  | nil =>
      cases h
      rfl
  | cons hop hops ih =>
      rw [construct, bind_eq_ok] at h
      obtain ⟨chain', hchain, h⟩ := h
      rw [bind_eq_ok] at h
      obtain ⟨p', -, h⟩ := h
      cases h
      simp [ih hchain]

/-- A copy that dials what its original dials stands for its hop, and a hop
with a `chainProxy` is then given by its address. -/
theorem stands_of_copy {hop : Hop} {p : Proxy} {chained : Bool}
    (h : hop.construct platform chained = .ok p) (hcopy : p.copy.dest = p.dest) :
    Stands platform hop p ∧ (chained = true → ∃ ip, hop.endpoint = .ip ip) := by
  unfold Hop.construct at h
  cases hendpoint : hop.endpoint with
  | ip ip =>
      simp only [hendpoint] at h
      cases h
      exact ⟨⟨ip, none, by simp [hendpoint, Endpoint.resolve], rfl⟩, fun _ => ⟨ip, rfl⟩⟩
  | name host =>
      simp only [hendpoint] at h
      cases chained with
      | true =>
          cases h
          simp [Proxy.copy, Proxy.dest] at hcopy
      | false =>
          simp only [Bool.false_eq_true, if_false] at h
          split at h
          · rename_i ip hip
            cases h
            exact ⟨⟨ip, some host, by simp [hendpoint, Endpoint.resolve, hip], rfl⟩,
              fun hchained => by cases hchained⟩
          · cases h

theorem Stands.copy_dest {hop : Hop} {q : Proxy} (h : Stands platform hop q) :
    q.copy.dest = q.dest := by
  obtain ⟨ip, host, -, rfl⟩ := h
  rfl

theorem stands_of_given {hop : Hop} {p : Proxy} {chained : Bool}
    (h : hop.construct platform chained = .ok p)
    (hgiven : chained = true → ∃ ip, hop.endpoint = .ip ip) : Stands platform hop p := by
  refine (stands_of_copy h ?_).1
  unfold Hop.construct at h
  cases hendpoint : hop.endpoint with
  | ip ip =>
      simp only [hendpoint] at h
      cases h
      rfl
  | name host =>
      simp only [hendpoint] at h
      cases chained with
      | true =>
          obtain ⟨ip, hip⟩ := hgiven rfl
          rw [hendpoint] at hip
          cases hip
      | false =>
          simp only [Bool.false_eq_true, if_false] at h
          split at h
          · cases h
            rfl
          · cases h

theorem givenByAddress_cons {hop : Hop} {hops : List Hop} :
    GivenByAddress (hop :: hops) ↔
      (hops ≠ [] → ∃ ip, hop.endpoint = .ip ip) ∧ GivenByAddress hops := by
  cases hops with
  | nil => simp [GivenByAddress]
  | cons hop' hops => simp [GivenByAddress]

/-- Every copy dials what its original dials exactly when the hops are given by
their addresses, and then every proxy stands for its hop. -/
theorem copies_iff_given {hops : List Hop} {chain : List Proxy}
    (h : construct platform hops = .ok chain) :
    ((∀ q ∈ chain, q.copy.dest = q.dest) ↔ GivenByAddress hops) ∧
      (GivenByAddress hops → List.Forall₂ (Stands platform) hops chain) := by
  induction hops generalizing chain with
  | nil =>
      cases h
      exact ⟨by simp [GivenByAddress], fun _ => .nil⟩
  | cons hop hops ih =>
      obtain ⟨p, chain, rfl⟩ : ∃ p chain', chain = p :: chain' := by
        rcases chain with _ | ⟨p, chain'⟩
        · have hlength := construct_length h
          simp at hlength
        · exact ⟨p, chain', rfl⟩
      obtain ⟨hchain, hp⟩ := construct_cons h
      obtain ⟨hiff, hstands⟩ := ih hchain
      have hempty : (!chain.isEmpty) = true ↔ hops ≠ [] := by
        have hlength := construct_length hchain
        rcases chain with _ | ⟨q, chain⟩ <;> rcases hops with _ | ⟨hop', hops⟩ <;>
          simp at hlength ⊢
      rw [givenByAddress_cons]
      refine ⟨⟨?_, ?_⟩, ?_⟩
      · intro hcopies
        have hgiven := (stands_of_copy hp (hcopies p (by simp))).2
        exact ⟨fun hne => hgiven (hempty.mpr hne),
          hiff.mp fun q hq => hcopies q (List.mem_cons_of_mem _ hq)⟩
      · rintro ⟨hgiven, hrest⟩ q hq
        rcases List.mem_cons.mp hq with rfl | hq
        · exact (stands_of_given hp fun hchained => hgiven (hempty.mp hchained)).copy_dest
        · exact hiff.mpr hrest q hq
      · rintro ⟨hgiven, hrest⟩
        exact .cons (stands_of_given hp fun hchained => hgiven (hempty.mp hchained))
          (hstands hrest)

theorem Stands.isDirect {hop : Hop} {q : Proxy} (h : Stands platform hop q) (dest : Dest) :
    q.copy.isDirect env dest = .ok false := by
  obtain ⟨ip, host, -, rfl⟩ := h
  cases dest with
  | ip ip =>
      simp [Proxy.copy, Proxy.isDirect, Range.InetRange.contains, Range.InetRange.checkHostEnding,
        Range.InetRange.checkHost, Range.containsLong]
  | host host =>
      cases host <;>
        simp [Proxy.copy, Proxy.isDirect, Range.InetRange.containsHost,
          Range.InetRange.containsText]

theorem Stands.kind_copy {hop : Hop} {q : Proxy} (h : Stands platform hop q) :
    q.copy.kind = hop.proxyKind := by
  obtain ⟨ip, host, -, rfl⟩ := h
  rfl

theorem Stands.dest_copy {hop : Hop} {q : Proxy} (h : Stands platform hop q)
    (hgiven : ∃ ip, hop.endpoint = .ip ip) : q.copy.dest = hop.endpoint.dest := by
  obtain ⟨ip, host, hip, rfl⟩ := h
  obtain ⟨address, haddress⟩ := hgiven
  simp only [haddress, Endpoint.resolve, Option.some.injEq] at hip
  simp [Proxy.copy, Proxy.dest, haddress, Endpoint.dest, hip]

theorem Stands.port_copy {hop : Hop} {q : Proxy} (h : Stands platform hop q) :
    q.copy.proxyPort = hop.port := by
  obtain ⟨ip, host, -, rfl⟩ := h
  rfl

end Construction

section Plan

variable {platform : ClientPlatform} {env : Env}

theorem append_eq_iff {α : Type} {a₁ a₂ b₁ b₂ : List α} (h₁ : a₁.length ≤ b₁.length)
    (h₂ : a₂.length ≤ b₂.length) : a₁ ++ a₂ = b₁ ++ b₂ ↔ a₁ = b₁ ∧ a₂ = b₂ := by
  constructor
  · intro h
    have hlength := congrArg List.length h
    rw [List.length_append, List.length_append] at hlength
    exact List.append_inj h (by omega)
  · rintro ⟨rfl, rfl⟩
    rfl

theorem named_isSome (kind : HopKind) (ip : InetAddress) :
    kind.named platform (.ip ip) = some (.ip ip.octets) := by
  rcases kind with user | resolve
  · rfl
  · cases resolve <;> rfl

/-- What is dialled for a proxy is the route to it exactly when the route can be
asked for. -/
theorem sessionPlan_iff {hop : Hop} {hops : List Hop} {p : Proxy} {chain : List Proxy}
    (hplatform : env.platform = platform) (hgiven : GivenByAddress (hop :: hops))
    (h : List.Forall₂ (Stands platform) (hop :: hops) (p :: chain)) :
    (route platform hops hop.endpoint hop.port).2 = true ∧
      ((sessionPlan env p.copy chain).map Dialled.step =
          (route platform hops hop.endpoint hop.port).1 ↔
        Carried platform hops hop.endpoint hop.port) ∧
      ((sessionPlan env p.copy chain).map Dialled.step).length ≤
        (route platform hops hop.endpoint hop.port).1.length := by
  induction hops generalizing hop p chain with
  | nil =>
      cases h with
      | cons hp hchain =>
          cases hchain
          obtain ⟨ip, host, hip, rfl⟩ := hp
          by_cases hport : ValidPort hop.port <;>
            simp [route, hip, sessionPlan, Proxy.copy, connectPlan, hport, Dialled.step, Carried]
  | cons hop₁ hops ih =>
      cases h with
      | cons hp hchain =>
          cases hchain with
          | @cons _ q _ chain hq hchain =>
              obtain ⟨hself, hrest⟩ := givenByAddress_cons.mp hgiven
              have haddress := hself (by simp)
              obtain ⟨htrue, hiff, hlength⟩ := ih hrest (.cons hq hchain)
              have hroute : route platform (hop₁ :: hops) hop.endpoint hop.port =
                  ((route platform hops hop₁.endpoint hop₁.port).1 ++
                    hop₁.kind.request platform hop.endpoint hop.port,
                    (hop₁.kind.named platform hop.endpoint).isSome) := by
                rw [route]
                rcases hr : route platform hops hop₁.endpoint hop₁.port with ⟨steps, reached⟩
                rw [hr] at htrue
                subst htrue
                rfl
              have hplan : sessionPlan env p.copy (q :: chain) =
                  sessionPlan env q.copy chain ++
                    q.copy.requests env SOCKS_CMD_CONNECT hop.endpoint.dest hop.port := by
                rw [sessionPlan, socketPlan, hp.dest_copy haddress, hp.port_copy, hq.isDirect]
              have hrequest := request_iff_carries hop₁ hq.kind_copy hplatform hop.endpoint hop.port
              have hone := requests_length_le hop₁ hq.kind_copy hplatform hop.endpoint hop.port
              rw [hroute, hplan, List.map_append]
              refine ⟨?_, ?_, ?_⟩
              · obtain ⟨ip, hip⟩ := haddress
                rw [hip, named_isSome]
                rfl
              · rw [append_eq_iff hlength hone, hiff, hrequest]
                rfl
              · rw [List.length_append, List.length_append]
                omega

section Granted

/-- A server that grants a request is believed. -/
theorem outcome_grant {level command : Nat} {hop : Hop} {q : Proxy} {dest : Dest} {port : Int}
    {bound request : List UInt8} (rest : List UInt8) (hkind : q.kind = hop.proxyKind)
    (hfaultless : ∀ point, env.fault level point = none)
    (hmessage : q.formMessage env command dest port = .ok (some request))
    (hbound : bound.length = 6) :
    ∃ host, host ≠ none ∧
      q.outcome env level command dest port (q.kind.grant bound ++ rest) = .passes host rest := by
  obtain ⟨a, b, c, d, high, low, rfl⟩ : ∃ a b c d high low, bound = [a, b, c, d, high, low] := by
    rcases bound with _ | ⟨a, _ | ⟨b, _ | ⟨c, _ | ⟨d, _ | ⟨high, _ | ⟨low, _ | ⟨e, bound⟩⟩⟩⟩⟩⟩⟩ <;>
      simp at hbound
    exact ⟨a, b, c, d, high, low, rfl⟩
  unfold Hop.proxyKind at hkind
  cases hclass : hop.kind with
  | socks4 user =>
      simp only [hclass] at hkind
      refine ⟨some (env.platform.getHostName (.v4 a b c d)), by simp, ?_⟩
      simp [Proxy.outcome, Proxy.greetingOf, Proxy.afterGreeting, Proxy.granted, hkind, hmessage,
        hfaultless, Kind.grant, granted4]
  | socks5 resolve =>
      simp only [hclass] at hkind
      refine ⟨some (bytes2IPV4 [a, b, c, d]), by simp, ?_⟩
      have hmethod : (Socks5Proxy.create Authentication.none).getAuthenticationMethod 0 =
          some .none := rfl
      have hgreeting : greeting (Socks5Proxy.create Authentication.none).authMethods.keys =
          .ok [5, 1, 0] := rfl
      simp [Proxy.outcome, Proxy.greetingOf, Proxy.afterGreeting, Proxy.granted, hkind, hmessage,
        hfaultless, Kind.grant, granted5, hgreeting, hmethod, authenticated, addressed]

theorem formMessage_of_requests {q : Proxy} {command : Nat} {dest : Dest} {port : Int}
    (h : q.requests env command dest port ≠ []) :
    ∃ request, q.formMessage env command dest port = .ok (some request) := by
  unfold Proxy.requests at h
  split at h
  · rename_i request hmessage
    exact ⟨request, hmessage⟩
  · exact absurd rfl h

theorem formMessage_of_carries {hop : Hop} {q : Proxy} {dest : Endpoint} {port : Int}
    (hkind : q.kind = hop.proxyKind) (hplatform : env.platform = platform)
    (hnamed : (hop.kind.named platform dest).isSome = true)
    (h : hop.kind.Carries platform dest port) :
    ∃ request, q.formMessage env SOCKS_CMD_CONNECT dest.dest port = .ok (some request) := by
  apply formMessage_of_requests
  intro hnil
  have hrequest := (request_iff_carries hop hkind hplatform dest port).mpr h
  obtain ⟨address, haddress⟩ := Option.isSome_iff_exists.mp hnamed
  rw [hnil, HopKind.request, haddress] at hrequest
  cases hrequest

theorem Stands.accepts {hop : Hop} {q : Proxy} (h : Stands platform hop q) {host : Option String}
    (hhost : host ≠ none) : q.copy.Accepts host := by
  obtain ⟨ip, name, -, rfl⟩ := h
  exact ⟨hhost, fun _ => by simp [Proxy.copy]⟩

theorem connected_grants {hop : Hop} {hops : List Hop} {p : Proxy} {chain : List Proxy}
    {bound : Nat → List UInt8} {bytes : List UInt8} (hplatform : env.platform = platform)
    (hgiven : GivenByAddress (hop :: hops))
    (h : List.Forall₂ (Stands platform) (hop :: hops) (p :: chain))
    (hcarried : Carried platform hops hop.endpoint hop.port)
    (hfaultless : ∀ level point, env.fault level point = none)
    (hbound : ∀ level, (bound level).length = 6)
    (hcontent : env.input.content = grants bound chain ++ bytes) :
    Connected env p.copy chain bytes := by
  induction hops generalizing hop p chain bytes with
  | nil =>
      cases h with
      | cons hp hchain =>
          cases hchain
          obtain ⟨ip, host, -, rfl⟩ := hp
          refine ⟨by simp [Proxy.copy], ⟨hcarried, hfaultless _ _, hfaultless _ _⟩, ?_⟩
          rw [hcontent]
          rfl
  | cons hop₁ hops ih =>
      cases h with
      | cons hp hchain =>
          cases hchain with
          | @cons _ q _ chain hq hchain =>
              obtain ⟨hself, hrest⟩ := givenByAddress_cons.mp hgiven
              have haddress := hself (by simp)
              obtain ⟨hbelow, hcarries⟩ := hcarried
              rw [grants, List.append_assoc] at hcontent
              have hconnected := ih hrest (.cons hq hchain) hbelow hcontent
              obtain ⟨request, hmessage⟩ := formMessage_of_carries hq.kind_copy hplatform (by
                obtain ⟨ip, hip⟩ := haddress
                rw [hip, named_isSome]
                rfl) hcarries
              obtain ⟨host, hhost, houtcome⟩ := outcome_grant bytes hq.kind_copy
                (hfaultless chain.length) hmessage (hbound chain.length)
              rw [Connected, SocketConnected, hp.dest_copy haddress, hp.port_copy, hq.isDirect]
              exact ⟨_, host, hconnected, houtcome, hq.accepts hhost⟩

end Granted

section Socket

variable {hop : Hop} {p : Proxy}

/-- Without direct hosts a `SocksSocket` is a call on its proxy. -/
theorem Stands.socksSocket_eq (env : Env) (h : Stands platform hop p) (chain : List Proxy)
    (dest : Dest)
    (port : Int) (w : World) :
    socksSocket env p chain dest port w =
      (do
        let (reply, session) ← p.copy.call env chain.length (startSession env p.copy chain)
          SOCKS_CMD_CONNECT dest port
        Act.lift (p.copy.processReply reply)
        return session : Net Session) w := by
  rw [socksSocket, socksSocketOn, h.isDirect, Act.lift_ok_bind_run, if_neg Bool.false_ne_true]

theorem Stands.dialled_prefix (env : Env) (h : Stands platform hop p) (chain : List Proxy)
    (dest : Dest)
    (port : Int) :
    dialled (socksSocket env p chain dest port World.start).2.trace <+:
      sessionPlan env p.copy chain ++ p.copy.requests env SOCKS_CMD_CONNECT dest port := by
  have hsocket := socketRun env chain.length p.copy dest port
    (sessionRun env p.copy chain (w := World.start) fun _ _ => rfl)
  have hplan : socketPlan env p.copy (sessionPlan env p.copy chain) dest port =
      sessionPlan env p.copy chain ++ p.copy.requests env SOCKS_CMD_CONNECT dest port := by
    rw [socketPlan, h.isDirect]
  rw [← hplan, socksSocket]
  rcases hsocket with ⟨session, events, w', hrun, htrace, -, -, -, -, -, -, hdialled⟩ |
    ⟨e, events, w', hrun, htrace, -, -, -, -, -, hdialled⟩ |
    ⟨e, events, w', hrun, htrace, -, -, -, -, -, hdialled⟩
  · rw [hrun, htrace]
    exact hdialled ▸ List.prefix_refl _
  · rw [hrun, htrace]
    exact hdialled
  · rw [hrun, htrace]
    exact hdialled

/-- What a `SocksSocket` dials when its proxy is connected and its server grants
the request. -/
theorem Stands.dialled_granted (h : Stands platform hop p) {chain : List Proxy} {dest : Endpoint}
    {port : Int} {bound bytes : List UInt8} (hplatform : env.platform = platform)
    (hfaultless : ∀ point, env.fault chain.length point = none) (hbound : bound.length = 6)
    (hconnected : Connected env p.copy chain (p.kind.grant bound ++ bytes))
    (hcarries : hop.kind.Carries platform dest port) :
    dialled (socksSocket env p chain dest.dest port World.start).2.trace =
        sessionPlan env p.copy chain ++ p.copy.requests env SOCKS_CMD_CONNECT dest.dest port ∧
      ((hop.kind.named platform dest).isSome = true →
        ∃ session, (socksSocket env p chain dest.dest port World.start).1 = .ok session) := by
  have hcall : CallRun env chain.length p.copy SOCKS_CMD_CONNECT dest.dest port
      (Connected env p.copy chain) (SessionLeaks env p.copy chain)
      (SessionBreaks env p.copy chain) (sessionPlan env p.copy chain) World.start
      (p.copy.call env chain.length (startSession env p.copy chain) SOCKS_CMD_CONNECT dest.dest
        port World.start) :=
    Proxy.callRun env chain.length (sessionRun env p.copy chain fun _ _ => rfl)
  have hsocket := h.socksSocket_eq env chain dest.dest port World.start
  cases hnamed : hop.kind.named platform dest with
  | some address =>
      obtain ⟨request, hmessage⟩ :=
        formMessage_of_carries h.kind_copy hplatform (by rw [hnamed]; rfl) hcarries
      obtain ⟨host, hhost, houtcome⟩ :=
        outcome_grant bytes h.kind_copy hfaultless hmessage hbound
      have hpasses : CallPasses env chain.length p.copy SOCKS_CMD_CONNECT dest.dest port
          (Connected env p.copy chain) host bytes := ⟨_, hconnected, houtcome⟩
      rcases hcall with ⟨reply, session, events, w', hrun, htrace, -, -, -, hpass, -, -, hdialled⟩ |
        ⟨e, events, w', -, -, -, -, -, hpass, -, -, -, -⟩ |
        ⟨e, events, w', -, -, -, -, hpass, -, -, -, -⟩
      · rw [Act.bind_ok hrun] at hsocket
        obtain ⟨rfl, -⟩ := (hpass host bytes).mp hpasses
        obtain ⟨-, hprocess⟩ | ⟨haccepts, -⟩ := p.copy.processReply_eq reply
        · simp only [hprocess, Act.lift_ok_bind_run, Act.pure_run] at hsocket
          rw [hsocket, htrace]
          exact ⟨hdialled, fun _ => ⟨session, rfl⟩⟩
        · exact absurd (h.accepts hhost) haccepts
      · exact absurd hpasses (hpass _ _)
      · exact absurd hpasses (hpass _ _)
  | none =>
      have hnil : p.copy.requests env SOCKS_CMD_CONNECT dest.dest port = [] := by
        have hrequest := (request_iff_carries hop h.kind_copy hplatform dest port).mpr hcarries
        rw [HopKind.request, hnamed] at hrequest
        exact List.map_eq_nil_iff.mp hrequest
      refine ⟨?_, fun hsome => by cases hsome⟩
      have hstart := h.dialled_prefix env chain dest.dest port
      rw [hnil, List.append_nil] at hstart ⊢
      refine (List.IsPrefix.eq_of_length_le ?_ hstart.length_le).symm
      rcases hcall with ⟨reply, session, events, w', hrun, htrace, -, -, -, -, -, -, hdialled⟩ |
        ⟨e, events, w', hrun, htrace, -, -, -, -, -, -, -, hplan⟩ |
        ⟨e, events, w', hrun, htrace, -, -, -, -, -, -, hplan⟩
      · have hworld : (socksSocket env p chain dest.dest port World.start).2 = w' := by
          rw [hsocket, Act.bind_ok hrun]
          obtain ⟨-, hprocess⟩ | ⟨-, hprocess⟩ := p.copy.processReply_eq reply
          · simp only [hprocess, Act.lift_ok_bind_run, Act.pure_run]
          · simp only [hprocess, Act.lift_error_bind_run]
        rw [hworld, htrace]
        change _ <+: dialled events
        rw [hdialled]
        exact List.prefix_append _ _
      · rw [hsocket, Act.bind_error hrun, htrace]
        exact hplan _ hconnected
      · rw [hsocket, Act.bind_error hrun, htrace]
        exact hplan _ hconnected

end Socket

end Plan

section Route

variable {platform : ClientPlatform} {hop : Hop} {hops : List Hop} {p : Proxy}
  {chain : List Proxy}

theorem route_cons (hreached : (route platform hops hop.endpoint hop.port).2 = true)
    (dest : Endpoint) (port : Int) :
    route platform (hop :: hops) dest port =
      ((route platform hops hop.endpoint hop.port).1 ++ hop.kind.request platform dest port,
        (hop.kind.named platform dest).isSome) := by
  rw [route]
  rcases hr : route platform hops hop.endpoint hop.port with ⟨steps, reached⟩
  rw [hr] at hreached
  subst hreached
  rfl

/-- An environment in which every server grants its request. -/
def grantingEnv (platform : ClientPlatform) (chain : List Proxy) : Env where
  platform := platform
  doResolveIP := true
  input := .ofBytes (grants (fun _ => [10, 0, 0, 9, 4, 56]) chain) []
  fault _ _ := none

theorem granting_grantingEnv (platform : ClientPlatform) (chain : List Proxy) :
    Granting (grantingEnv platform chain) chain :=
  ⟨fun _ _ => rfl, _, [], fun _ => rfl, (List.append_nil _).symm⟩

/-- A chain of proxies is dialled as it was configured exactly when every hop
behind another one is given by its address and every request can carry what it
has to name. -/
theorem dials_as_configured_iff (dest : Endpoint) (port : Int)
    (h : construct platform (hop :: hops) = .ok (p :: chain)) :
    DialsAsConfigured platform (hop :: hops) p chain dest port ↔
      GivenByAddress (hop :: hops) ∧ Carried platform (hop :: hops) dest port := by
  obtain ⟨hcopies, hforall⟩ := copies_iff_given h
  constructor
  · intro hdials
    have hgiven := hcopies.mp hdials.copies
    have hstands := hforall hgiven
    have hp : Stands platform hop p := by
      cases hstands with
      | cons hp _ => exact hp
    obtain ⟨hreached, hiff, hlength⟩ := sessionPlan_iff
      (show (grantingEnv platform (p :: chain)).platform = platform from rfl) hgiven hstands
    have hcomplete := (hdials.completes _ rfl (granting_grantingEnv platform (p :: chain))).1
    have hstart := (hp.dialled_prefix (grantingEnv platform (p :: chain)) chain dest.dest
      port).map Dialled.step
    rw [← steps, hcomplete, route_cons hreached, List.map_append] at hstart
    have hrequest := request_iff_carries hop hp.kind_copy
      (show (grantingEnv platform (p :: chain)).platform = platform from rfl) dest port
    have hone := requests_length_le hop hp.kind_copy
      (show (grantingEnv platform (p :: chain)).platform = platform from rfl) dest port
    have hequal := (hstart.eq_of_length_le (by
      rw [List.length_append, List.length_append]
      omega)).symm
    rw [append_eq_iff hlength hone] at hequal
    exact ⟨hgiven, hiff.mp hequal.1, hrequest.mp hequal.2⟩
  · rintro ⟨hgiven, hcarried, hcarries⟩
    have hstands := hforall hgiven
    have hp : Stands platform hop p := by
      cases hstands with
      | cons hp _ => exact hp
    refine ⟨hcopies.mpr hgiven, ?_, ?_⟩
    · intro env hplatform
      obtain ⟨hreached, hiff, -⟩ := sessionPlan_iff hplatform hgiven hstands
      have hstart := (hp.dialled_prefix env chain dest.dest port).map Dialled.step
      rw [List.map_append, hiff.mpr hcarried,
        (request_iff_carries hop hp.kind_copy hplatform dest port).mpr hcarries] at hstart
      rw [route_cons hreached]
      exact hstart
    · intro env hplatform hgranting
      obtain ⟨bound, rest, hbound, hcontent⟩ := hgranting.granted
      obtain ⟨hreached, hiff, -⟩ := sessionPlan_iff hplatform hgiven hstands
      rw [grants, List.append_assoc] at hcontent
      have hconnected := connected_grants hplatform hgiven hstands hcarried
        hgranting.faultless hbound hcontent
      obtain ⟨hdialled, hok⟩ := hp.dialled_granted hplatform (hgranting.faultless _)
        (hbound _) hconnected hcarries
      rw [route_cons hreached, steps, hdialled, List.map_append, hiff.mpr hcarried,
        (request_iff_carries hop hp.kind_copy hplatform dest port).mpr hcarries]
      exact ⟨rfl, hok⟩

/-- Two SOCKS5 proxies, the outer one at 10.0.0.1. -/
def twoHops (inner : Endpoint) : List Hop :=
  [⟨.socks5 true, inner, 1081⟩, ⟨.socks5 true, .ip (.v4 10 0 0 1), 1080⟩]

def innerProxy (proxyIP : Option InetAddress) (proxyHost : Option String) : Proxy :=
  ⟨.socks5 (Socks5Proxy.create .none) true, proxyIP, proxyHost, 1081, ⟨[], [], []⟩⟩

def outerProxy : Proxy :=
  ⟨.socks5 (Socks5Proxy.create .none) true, some (.v4 10 0 0 1), none, 1080, ⟨[], [], []⟩⟩

theorem dials_as_configured_twoHops :
    construct .latin1 (twoHops (.ip (.v4 10 0 0 2))) =
        .ok [innerProxy (some (.v4 10 0 0 2)) none, outerProxy] ∧
      DialsAsConfigured .latin1 (twoHops (.ip (.v4 10 0 0 2)))
        (innerProxy (some (.v4 10 0 0 2)) none) [outerProxy] (.ip (.v4 10 0 0 3)) 80 := by
  refine ⟨rfl, (dials_as_configured_iff _ _ rfl).mpr ⟨?_, ⟨?_, ?_⟩, ?_⟩⟩
  · intro hop hhop
    obtain rfl : hop = ⟨.socks5 true, .ip (.v4 10 0 0 2), 1081⟩ := by
      simpa [twoHops] using hhop
    exact ⟨_, rfl⟩
  · exact ⟨by decide, by decide⟩
  · exact ⟨by decide, by decide⟩
  · exact ⟨by decide, by decide⟩

/-- A copy of a proxy that was given by its name has lost the name. -/
theorem named_hop_not_dialled :
    construct .latin1 (twoHops (.name "10.0.0.2")) =
        .ok [innerProxy none (some "10.0.0.2"), outerProxy] ∧
      ¬ DialsAsConfigured .latin1 (twoHops (.name "10.0.0.2"))
        (innerProxy none (some "10.0.0.2")) [outerProxy] (.ip (.v4 10 0 0 3)) 80 := by
  refine ⟨rfl, ?_⟩
  intro hdials
  have hcopy := hdials.copies (innerProxy none (some "10.0.0.2")) (by simp)
  cases hcopy

end Route

end TorAndroid.Socks.Dial
