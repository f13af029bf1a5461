import TorAndroid.Socks.ChainSession

namespace TorAndroid.Socks.Dial

open TorAndroid.Lib.Fragments
open TorAndroid.Lib.Throwing
open TorAndroid.Socks.Basic
open TorAndroid.Socks.Message
open TorAndroid.Socks.Negotiation

/-- `new SocksSocket(p, dest, port)` ends with an unchecked exception. -/
def Breaks (env : Env) (p : Proxy) (chain : List Proxy) (dest : Dest) (port : Int) : Prop :=
  SocketBreaks env chain.length p.copy (Connected env p.copy chain)
    (SessionBreaks env p.copy chain) dest port

/-- A failed call on a proxy leaves a socket open. -/
def Leaks (env : Env) (p : Proxy) (chain : List Proxy) (command : Nat) (dest : Dest) (port : Int) :
    Prop :=
  CallLeaks env chain.length p command dest port (Connected env p chain)
    (SessionLeaks env p chain)

theorem fresh_start (level : Nat) : ∀ l ≤ level, World.start.proxySocket l = none :=
  fun _ _ => rfl

/-- A `SocksSocket` is opened or an `IOException` is thrown unless one of the
proxies on the way breaks the dialogue. -/
theorem socksSocket_checked_iff (env : Env) (p : Proxy) (chain : List Proxy) (dest : Dest)
    (port : Int) :
    Checked (socksSocket env p chain dest port World.start).1 ↔ ¬ Breaks env p chain dest port := by
  have hsocket := socketRun env chain.length p.copy dest port
    (sessionRun env p.copy chain (fresh_start chain.length))
  rw [Breaks, socksSocket]
  rcases hsocket with ⟨session, events, w', hrun, -, -, -, -, -, -, hbreaks, -⟩ |
    ⟨e, events, w', hrun, -, -, -, -, -, hbreaks, -⟩ |
    ⟨e, events, w', hrun, -, -, -, -, -, hbreaks, -⟩
  · rw [hrun]
    exact iff_of_true (throws_ok session) hbreaks
  · rw [hrun, hbreaks, not_not]
    exact ⟨fun h => h e rfl, fun h => throws_error h⟩
  · rw [hrun, hbreaks, not_not]
    exact ⟨fun h => h e rfl, fun h => throws_error h⟩

/-- After an exception every socket that was opened is closed and the proxy has
none. -/
def LeavesNothing {α : Type} (level : Nat) (r : Except Throwable α × World) : Prop :=
  ∀ e, r.1 = .error e → AllClosed r.2.trace ∧ r.2.proxySocket level = none

/-- A failed call cleans up after itself unless one of the proxies on the way
leaks its socket. -/
theorem callProxy_leavesNothing_iff (env : Env) (p : Proxy) (chain : List Proxy) (command : Nat)
    (dest : Dest) (port : Int) :
    LeavesNothing chain.length (callProxy env p chain command dest port World.start) ↔
      ¬ Leaks env p chain command dest port := by
  have hcall : CallRun env chain.length p command dest port (Connected env p chain)
      (SessionLeaks env p chain) (SessionBreaks env p chain) (sessionPlan env p chain) World.start
      (callProxy env p chain command dest port World.start) :=
    Proxy.callRun env chain.length (sessionRun env p chain (fresh_start chain.length))
  rw [Leaks]
  rcases hcall with ⟨reply, session, events, w', hrun, -, -, -, -, -, hleaks, -, -⟩ |
    ⟨e, events, w', hrun, htrace, hclosed, -, hnone, -, hleaks, -, -, -⟩ |
    ⟨e, events, w', hrun, htrace, hlost, -, -, hleaks, -, -, -⟩
  · rw [hrun]
    refine iff_of_true ?_ hleaks
    intro e he
    cases he
  · rw [hrun]
    refine iff_of_true ?_ hleaks
    intro e' _
    rw [htrace]
    exact ⟨hclosed, hnone⟩
  · rw [hrun]
    refine iff_of_false ?_ (not_not.mpr hleaks)
    intro hleaves
    have hall := (hleaves e rfl).1
    rw [htrace] at hall
    exact hlost hall

/-- A platform where nothing fails, with the bytes that come back. -/
def quietEnv (bytes : List UInt8) : Env where
  platform := .latin1
  doResolveIP := true
  input := .ofBytes bytes []
  fault _ _ := none

/-- `new Socks5Proxy(ip, 1080)`. -/
def plainProxy : Proxy where
  kind := .socks5 (Socks5Proxy.create .none) true
  proxyIP := some (.v4 10 0 0 1)
  proxyHost := none
  proxyPort := 1080
  directHosts := ⟨[], [], []⟩

/-- The reply code 9 has no text, and looking it up is out of bounds. -/
theorem socksSocket_unchecked_code :
    ¬ ∀ (env : Env) (p : Proxy) (chain : List Proxy) (dest : Dest) (port : Int),
      Checked (socksSocket env p chain dest port World.start).1 := by
  intro h
  have hcode := h (quietEnv [5, 0, 5, 9]) plainProxy [] (.ip (.v4 10 0 0 2)) 80
  exact hcode (.unchecked .indexOutOfBounds) rfl

/-- A host name that cannot be resolved ends the call and leaves its socket
open. -/
theorem callProxy_leaks_unknownHost :
    ¬ ∀ (env : Env) (p : Proxy) (chain : List Proxy) (command : Nat) (dest : Dest) (port : Int),
      LeavesNothing chain.length (callProxy env p chain command dest port World.start) := by
  intro h
  have hleaves := h (quietEnv [5, 0]) plainProxy [] SOCKS_CMD_CONNECT
    (.host (some "unknown.example")) 80
  have hrun : (callProxy (quietEnv [5, 0]) plainProxy [] SOCKS_CMD_CONNECT
      (.host (some "unknown.example")) 80 World.start).1 = .error (.io .unknownHost) := by
    rfl
  have hsocket := (hleaves _ hrun).2
  have hopen : (callProxy (quietEnv [5, 0]) plainProxy [] SOCKS_CMD_CONNECT
      (.host (some "unknown.example")) 80 World.start).2.proxySocket 0 = some (.tcp 0) := by
    rfl
  rw [List.length_nil, hopen] at hsocket
  cases hsocket

end TorAndroid.Socks.Dial
