import TorAndroid.Socks.Authenticator
import TorAndroid.Socks.Range

namespace TorAndroid.Socks.Ident

open TorAndroid.Lib.Fragments
open TorAndroid.Lib.Throwing
open TorAndroid.Socks.Basic
open TorAndroid.Socks.Message
open TorAndroid.Socks.Authenticator
open TorAndroid.Socks.Range

/-- The users allowed from a range; `none` stands for the null table that
allows everybody. -/
abbrev Users := Option (List String)

abbrev Hosts := List (InetRange × Users)

/-- The session object, which inherits `checkRequest(ProxyMessage)`: the check against the ident
name has a second parameter, so it overrides nothing and is never called. -/
structure IdentSession where
  conn : Connection
  user : Option String

section Session

variable (platform : Platform) (doResolveIP : Bool)

/-- `none` stands for the index `-1`. -/
def getRangeIndex (ip : InetAddress) : Hosts → Nat → Java (Option Nat)
  | [], _ => .ok none
  | (range, _) :: hosts, index => do
      if ← range.contains platform ip then return some index
      else getRangeIndex ip hosts (index + 1)

/-- `ident` is what the ident daemon of the client's host reports: a user name,
or nothing when the look-up fails. -/
def startSession (hosts : Hosts) (ip : InetAddress) (ident : Option String)
    (conn : Connection) : Java (Option IdentSession) := do
  match ← getRangeIndex platform ip hosts 0 with
  | none => return none
  | some ind =>
      match ← startSessionNone conn with
      | none => return none
      | some conn =>
          match hosts[ind]? with
          | none => .error (.unchecked .indexOutOfBounds)
          | some (_, none) => return some ⟨conn, none⟩
          | some (_, some user_names) =>
              match ident with
              | none => return none
              | some userName =>
                  if userName ∈ user_names then return some ⟨conn, some userName⟩
                  else return none

/-- `ProxyServer.startSession` with an `IdentAuthenticator`: the request served
and its command, or `none` when the client is refused. -/
def serveSession (hosts : Hosts) (ip : InetAddress) (ident : Option String)
    (conn : Connection) : Java (Option (Command × ProxyMessage)) :=
  match startSession platform hosts ip ident conn with
  | .error (.io _) => .ok none
  | .error (.unchecked kind) => .error (.unchecked kind)
  | .ok none => .ok none
  | .ok (some session) => do
      let (msg, _) ← readMsg platform doResolveIP session.conn.input
      let served ← handleRequest platform checkRequest msg
      return some served

end Session

def FirstRange (platform : Platform) (hosts : Hosts) (ip : InetAddress) (users : Users) : Prop :=
  ∃ before range after, hosts = before ++ (range, users) :: after ∧
    range.contains platform ip = .ok true ∧
    ∀ pair ∈ before, pair.1.contains platform ip = .ok false

def Authorized (platform : Platform) (hosts : Hosts) (ip : InetAddress) (ident : Option String)
    (msg : ProxyMessage) : Prop :=
  ∃ users, FirstRange platform hosts ip users ∧
    ∀ user_names, users = some user_names → ∃ name, ident = some name ∧ name ∈ user_names ∧
      (msg.messageClass = .socks4 → msg.user = some name)

theorem getRangeIndex_eq_some {platform : Platform} {ip : InetAddress} {hosts : Hosts}
    {index ind : Nat} (h : getRangeIndex platform ip hosts index = .ok (some ind)) :
    ∃ before range users after, hosts = before ++ (range, users) :: after ∧
      ind = index + before.length ∧ range.contains platform ip = .ok true ∧
      ∀ pair ∈ before, pair.1.contains platform ip = .ok false := by
  induction hosts generalizing index with
  | nil =>
      simp [getRangeIndex] at h
  | cons pair hosts ih =>
      obtain ⟨range, users⟩ := pair
      rw [getRangeIndex, bind_eq_ok] at h
      obtain ⟨found, hcontains, h⟩ := h
      cases found with
      | true =>
          simp only [if_true, pure_eq_ok, Except.ok.injEq, Option.some.injEq] at h
          subst h
          exact ⟨[], range, users, hosts, rfl, by simp, hcontains, by simp⟩
      | false =>
          simp only [Bool.false_eq_true, if_false] at h
          obtain ⟨before, range', users', after, rfl, hind, hrange, hbefore⟩ := ih h
          refine ⟨(range, users) :: before, range', users', after, rfl, ?_, hrange, ?_⟩
          · simp only [List.length_cons]
            omega
          · rintro pair (_ | ⟨_, hpair⟩)
            · exact hcontains
            · exact hbefore pair hpair

theorem getRangeIndex_of_first {platform : Platform} {ip : InetAddress} {before after : Hosts}
    {range : InetRange} {users : Users} (index : Nat)
    (hrange : range.contains platform ip = .ok true)
    (hbefore : ∀ pair ∈ before, pair.1.contains platform ip = .ok false) :
    getRangeIndex platform ip (before ++ (range, users) :: after) index =
      .ok (some (index + before.length)) := by
  induction before generalizing index with
  | nil => simp [getRangeIndex, hrange]
  | cons pair before ih =>
      obtain ⟨range', users'⟩ := pair
      have hhead : range'.contains platform ip = .ok false :=
        hbefore (range', users') List.mem_cons_self
      have htail := ih (index + 1) fun pair hpair => hbefore pair (List.mem_cons_of_mem _ hpair)
      simp only [List.cons_append, getRangeIndex, hhead, ok_bind, Bool.false_eq_true, if_false,
        htail, List.length_cons]
      congr 2
      omega

theorem firstRange_unique {platform : Platform} {hosts : Hosts} {ip : InetAddress}
    {users users' : Users} (h : FirstRange platform hosts ip users)
    (h' : FirstRange platform hosts ip users') : users = users' := by
  obtain ⟨before, range, after, rfl, hrange, hbefore⟩ := h
  obtain ⟨before', range', after', hhosts, hrange', hbefore'⟩ := h'
  have hind : getRangeIndex platform ip (before ++ (range, users) :: after) 0 = _ :=
    getRangeIndex_of_first 0 hrange hbefore
  rw [hhosts, getRangeIndex_of_first 0 hrange' hbefore'] at hind
  have hlength : before.length = before'.length := by
    simpa using hind.symm
  obtain ⟨-, htail⟩ := List.append_inj hhosts hlength
  cases htail
  rfl

theorem startSession_eq_some {platform : Platform} {hosts : Hosts} {ip : InetAddress}
    {ident : Option String} {conn : Connection} {session : IdentSession}
    (h : startSession platform hosts ip ident conn = .ok (some session)) :
    startSessionNone conn = .ok (some session.conn) ∧
      ∃ users, FirstRange platform hosts ip users ∧
        ∀ user_names, users = some user_names → ∃ name, ident = some name ∧ name ∈ user_names := by
  rw [startSession, bind_eq_ok] at h
  obtain ⟨index, hindex, h⟩ := h
  cases index with
  | none => cases h
  | some ind =>
      simp only at h
      rw [bind_eq_ok] at h
      obtain ⟨passed, hpassed, h⟩ := h
      obtain ⟨before, range, users, after, rfl, rfl, hrange, hbefore⟩ :=
        getRangeIndex_eq_some hindex
      cases passed with
      | none => cases h
      | some conn' =>
          have hfirst : FirstRange platform (before ++ (range, users) :: after) ip users :=
            ⟨before, range, after, rfl, hrange, hbefore⟩
          simp only [Nat.zero_add, List.getElem?_append_right (Nat.le_refl _), Nat.sub_self,
            List.getElem?_cons_zero] at h
          cases users with
          | none =>
              cases h
              exact ⟨hpassed, none, hfirst, by simp⟩
          | some user_names =>
              cases ident with
              | none => cases h
              | some name =>
                  simp only at h
                  split at h
                  · rename_i hmem
                    cases h
                    refine ⟨hpassed, some user_names, hfirst, ?_⟩
                    rintro _ ⟨⟩
                    exact ⟨name, rfl, hmem⟩
                  · cases h

theorem startSession_of_listed {platform : Platform} {hosts : Hosts} {ip : InetAddress}
    {name : String} {user_names : List String} {conn conn' : Connection}
    (hfirst : FirstRange platform hosts ip (some user_names)) (hmem : name ∈ user_names)
    (hpassed : startSessionNone conn = .ok (some conn')) :
    startSession platform hosts ip (some name) conn = .ok (some ⟨conn', some name⟩) := by
  obtain ⟨before, range, after, rfl, hrange, hbefore⟩ := hfirst
  simp [startSession, getRangeIndex_of_first 0 hrange hbefore, hpassed, hmem]

theorem handleRequest_checkRequest {platform : Platform} {msg : ProxyMessage}
    {served : Command × ProxyMessage}
    (h : handleRequest platform checkRequest msg = .ok served) :
    1 ≤ msg.command ∧ msg.command ≤ 3 ∧ ∃ ip, served.2 = { msg with ip } := by
  simp only [handleRequest, checkRequest, Bool.true_eq_false, if_false] at h
  rw [bind_eq_ok] at h
  obtain ⟨ip, -, h⟩ := h
  split at h
  · rename_i hcommand
    cases h
    exact ⟨by rw [hcommand]; decide, by rw [hcommand]; decide, _, rfl⟩
  · split at h
    · rename_i hcommand
      cases h
      exact ⟨by rw [hcommand]; decide, by rw [hcommand]; decide, _, rfl⟩
    · split at h
      · rename_i hcommand
        cases h
        exact ⟨by rw [hcommand]; decide, by rw [hcommand]; decide, _, rfl⟩
      · cases h

theorem handleRequest_of_command (platform : Platform) (msg : ProxyMessage) {ip : InetAddress}
    (hip : msg.ip = some ip) (hlow : 1 ≤ msg.command) (hhigh : msg.command ≤ 3) :
    ∃ command, handleRequest platform checkRequest msg = .ok (command, msg) := by
  obtain ⟨messageClass, version, command, _, host, port, user⟩ := msg
  simp only at hip hlow hhigh
  subst hip
  have hcases : command = 1 ∨ command = 2 ∨ command = 3 := by omega
  rcases hcases with rfl | rfl | rfl
  · exact ⟨.connect, rfl⟩
  · exact ⟨.bind, rfl⟩
  · exact ⟨.udpAssociate, rfl⟩

/-- The client's host needs an ident name and reports a listed one, and the
client passes the authenticator and sends a SOCKS4 request under another
name. -/
def Impersonates (platform : Platform) (hosts : Hosts) (ip : InetAddress)
    (ident : Option String) (bytes : List UInt8) (remaining : Option Nat) : Prop :=
  ∃ user_names name, FirstRange platform hosts ip (some user_names) ∧ ident = some name ∧
    name ∈ user_names ∧
    ∃ command high low a b c d rest,
      Passes bytes remaining (4 :: command :: high :: low :: a :: b :: c :: d :: rest) ∧
      1 ≤ command.toNat ∧ command.toNat ≤ 3 ∧ platform.newString (userField rest) ≠ name

/-- A SOCKS4 request of an impersonator is served under the name it gives. -/
theorem serveSession_of_impersonates {platform : Platform} {hosts : Hosts} {ip : InetAddress}
    {ident : Option String} {bytes : List UInt8} {remaining : Option Nat} (doResolveIP : Bool)
    (cuts : List Nat) (h : Impersonates platform hosts ip ident bytes remaining) :
    ∃ served, serveSession platform doResolveIP hosts ip ident
        (Connection.accepted bytes cuts remaining) = .ok (some served) ∧
      ¬ Authorized platform hosts ip ident served.2 := by
  obtain ⟨user_names, name, hfirst, rfl, hmem, command, high, low, a, b, c, d, rest, hpasses,
    hlow, hhigh, huser⟩ := h
  obtain ⟨conn, hpassed, hcontent⟩ := startSessionNone_of_passes cuts hpasses
  obtain ⟨input, hinput, hread⟩ := readMsg_cons platform doResolveIP hcontent
  obtain ⟨input', hrequest⟩ := Socks4Message.read_request platform hinput
  simp only [show ¬ (4 : UInt8) = 5 by decide, if_false, if_true, hrequest] at hread
  obtain ⟨served, hserved⟩ := handleRequest_of_command platform
    (Socks4Message.request platform 4 command high low a b c d rest) rfl hlow hhigh
  refine ⟨(served, Socks4Message.request platform 4 command high low a b c d rest), ?_, ?_⟩
  · simp only [serveSession, startSession_of_listed hfirst hmem hpassed, hread, ok_bind, hserved,
      pure_eq_ok]
  · rintro ⟨users, hfirst', hlisted⟩
    obtain ⟨name', hname, -, hsocks4⟩ := hlisted user_names (firstRange_unique hfirst' hfirst)
    cases hname
    exact huser (Option.some.inj (hsocks4 rfl))

/-- A session serves authorized requests only, unless the client sends a SOCKS4
request under a name that is not the ident name its host reports. -/
theorem served_authorized_iff (platform : Platform) (doResolveIP : Bool) (hosts : Hosts)
    (ip : InetAddress) (ident : Option String) (bytes : List UInt8) (cuts : List Nat)
    (remaining : Option Nat) :
    (∀ served, serveSession platform doResolveIP hosts ip ident
        (Connection.accepted bytes cuts remaining) = .ok (some served) →
      Authorized platform hosts ip ident served.2) ↔
    ¬ Impersonates platform hosts ip ident bytes remaining := by
  constructor
  · intro hall himpersonates
    obtain ⟨served, hserved, hnot⟩ :=
      serveSession_of_impersonates doResolveIP cuts himpersonates
    exact hnot (hall served hserved)
  · intro h served hserved
    unfold serveSession at hserved
    split at hserved
    · cases hserved
    · cases hserved
    · cases hserved
    · rename_i session hstart
      obtain ⟨hpassed, users, hfirst, hlisted⟩ := startSession_eq_some hstart
      rw [bind_eq_ok] at hserved
      obtain ⟨⟨msg, input⟩, hread, hserved⟩ := hserved
      rw [bind_eq_ok] at hserved
      obtain ⟨served', hhandle, hserved⟩ := hserved
      cases hserved
      obtain ⟨hlow, hhigh, ip', hmsg⟩ := handleRequest_checkRequest hhandle
      refine ⟨users, hfirst, ?_⟩
      rintro user_names rfl
      obtain ⟨name, rfl, hmem⟩ := hlisted user_names rfl
      refine ⟨name, rfl, hmem, ?_⟩
      intro hclass
      rw [hmsg] at hclass ⊢
      obtain ⟨command, high, low, a, b, c, d, rest, hcontent, hcommand, huser⟩ :=
        readMsg_socks4 hread hclass
      have hpasses := passes_of_startSessionNone hpassed
      rw [hcontent] at hpasses
      by_contra hname
      apply h
      refine ⟨user_names, name, hfirst, rfl, hmem, command, high, low, a, b, c, d, rest, hpasses,
        by omega, by omega, ?_⟩
      rintro rfl
      exact hname huser

def aliceOnly : Hosts :=
  [(⟨[], [⟨"10.0.0.5", some 167772165, some 167772165⟩], []⟩, some ["alice"])]

/-- The ident daemon reports `alice`; the client asks for a SOCKS4 connection
as `bob`. -/
theorem served_unauthorized :
    ¬ ∀ served, serveSession .latin1 true aliceOnly (.v4 10 0 0 5) (some "alice")
        (Connection.accepted [4, 1, 0, 80, 1, 2, 3, 4, 98, 111, 98, 0] [] none) =
          .ok (some served) →
      Authorized .latin1 aliceOnly (.v4 10 0 0 5) (some "alice") served.2 := by
  intro hall
  have hfirst : FirstRange .latin1 aliceOnly (.v4 10 0 0 5) (some ["alice"]) :=
    ⟨[], _, [], rfl, rfl, by simp⟩
  have himpersonates : Impersonates .latin1 aliceOnly (.v4 10 0 0 5) (some "alice")
      [4, 1, 0, 80, 1, 2, 3, 4, 98, 111, 98, 0] none :=
    ⟨["alice"], "alice", hfirst, rfl, by simp, 1, 0, 80, 1, 2, 3, 4, [98, 111, 98, 0],
      .inl ⟨_, rfl, rfl⟩, by decide, by decide, by decide⟩
  obtain ⟨served, hserved, hnot⟩ := serveSession_of_impersonates true [] himpersonates
  exact hnot (hall served hserved)

end TorAndroid.Socks.Ident
