import TorAndroid.Socks.Authenticator

namespace TorAndroid.Socks.Robustness

open TorAndroid.Lib.Fragments
open TorAndroid.Lib.Throwing
open TorAndroid.Socks.Basic
open TorAndroid.Socks.Message
open TorAndroid.Socks.Authenticator

/-- A SOCKS5 greeting that ends before its last announced method. -/
def TruncatedGreeting (bytes : List UInt8) : Prop :=
  ∃ n ids, bytes = 5 :: n :: ids ∧ ids.length < n.toNat

def TruncatedMethods (content : List UInt8) : Prop :=
  ∃ n ids, content = n :: ids ∧ ids.length < n.toNat

theorem truncatedGreeting_cons {b : UInt8} {rest : List UInt8} :
    TruncatedGreeting (b :: rest) ↔ b = 5 ∧ TruncatedMethods rest := by
  constructor
  · rintro ⟨n, ids, hbytes, hshort⟩
    cases hbytes
    exact ⟨rfl, n, ids, rfl, hshort⟩
  · rintro ⟨rfl, n, ids, rfl, hshort⟩
    exact ⟨n, ids, rfl, hshort⟩

theorem checked_select {conn : Connection} (methodId : Nat)
    (h : ¬ TruncatedMethods conn.input.content) :
    Checked (selectSocks5Authentication conn methodId) := by
  rcases hcontent : conn.input.content with _ | ⟨n, ids⟩
  · simp only [selectSocks5Authentication, ByteStream.read_nil hcontent]
    apply throws_ok
  · by_cases hn : n = 0
    · obtain ⟨input, hread, -, -⟩ := ByteStream.read_cons hcontent
      simp only [selectSocks5Authentication, hread, hn, if_true]
      apply throws_ok
    · have hlong : n.toNat ≤ ids.length := by
        by_contra hshort
        exact h ⟨n, ids, hcontent, by omega⟩
      have hsplit : conn.input.content = n :: (ids.take n.toNat ++ ids.drop n.toNat) := by
        rw [List.take_append_drop, hcontent]
      obtain ⟨input, -, hselect⟩ := select_full methodId hsplit (List.length_take_of_le hlong) hn
      rw [hselect]
      apply throws_bind (checked_write _ _)
      intro output _
      apply throws_ok

theorem checked_select_of_version {conn : Connection} {input : ByteStream}
    (hread : conn.input.read = (some 5, input)) (h : ¬ TruncatedGreeting conn.input.content)
    (methodId : Nat) : Checked (selectSocks5Authentication { conn with input } methodId) := by
  apply checked_select
  intro htruncated
  apply h
  rw [ByteStream.content_of_read hread]
  exact truncatedGreeting_cons.mpr ⟨rfl, htruncated⟩

theorem checked_doUserPasswordAuthentication (platform : Platform)
    (isUserValid : String → String → Bool) (conn : Connection) :
    Checked (doUserPasswordAuthentication platform isUserValid conn) := by
  unfold doUserPasswordAuthentication
  split
  · split
    · apply throws_ok
    · simp only
      split
      · apply throws_ok
      · apply throws_bind (checked_write _ _)
        intro output _
        apply throws_ok
  · apply throws_ok

theorem checked_startSessionNone {conn : Connection}
    (h : ¬ TruncatedGreeting conn.input.content) : Checked (startSessionNone conn) := by
  unfold startSessionNone
  split
  · rename_i input hread
    apply throws_bind (checked_select_of_version hread h _)
    rintro ⟨selected, conn⟩ -
    apply throws_ok
  · split
    · apply throws_ok
    · exact throws_error trivial
  · apply throws_ok

theorem checked_startSessionUserPassword {conn : Connection} (platform : Platform)
    (isUserValid : String → String → Bool) (h : ¬ TruncatedGreeting conn.input.content) :
    Checked (startSessionUserPassword platform isUserValid conn) := by
  unfold startSessionUserPassword
  split
  · rename_i input hread
    apply throws_bind (checked_select_of_version hread h _)
    rintro ⟨selected, conn⟩ -
    simp only
    split
    · apply throws_bind (checked_doUserPasswordAuthentication _ _ _)
      rintro ⟨valid, conn⟩ -
      apply throws_ok
    · apply throws_ok
  · apply throws_ok

theorem checked_startSession (platform : Platform) (auth : ServerAuthenticator)
    (conn : Connection) (h : ¬ TruncatedGreeting conn.input.content) :
    Checked (auth.startSession platform conn) := by
  cases auth with
  | none => exact checked_startSessionNone h
  | userPassword isUserValid => exact checked_startSessionUserPassword platform isUserValid h

theorem startSession_truncated (platform : Platform) (auth : ServerAuthenticator)
    (conn : Connection) (h : TruncatedGreeting conn.input.content) :
    auth.startSession platform conn = .error (.unchecked .indexOutOfBounds) := by
  obtain ⟨n, ids, hcontent, hshort⟩ := h
  obtain ⟨input, hread, hrest, -⟩ := ByteStream.read_cons hcontent
  have hselect (methodId : Nat) :
      selectSocks5Authentication { conn with input } methodId =
        .error (.unchecked .indexOutOfBounds) :=
    select_short methodId hrest hshort
  cases auth with
  | none =>
      simp only [ServerAuthenticator.startSession, startSessionNone, hread, hselect]
      rfl
  | userPassword isUserValid =>
      simp only [ServerAuthenticator.startSession, startSessionUserPassword, hread, hselect]
      rfl

/-- Whatever a client sends and however it is fragmented, the authentication
and request phase ends with a request, a refusal or an `IOException`, unless
the stream is a SOCKS5 greeting cut off inside its method list. -/
theorem readRequest_checked_iff (platform : Platform) (doResolveIP : Bool)
    (auth : ServerAuthenticator) (bytes : List UInt8) (cuts : List Nat)
    (remaining : Option Nat) :
    Checked (readRequest platform doResolveIP auth
        (Connection.accepted bytes cuts remaining)) ↔ ¬ TruncatedGreeting bytes := by
  constructor
  · intro hchecked htruncated
    have hstart := startSession_truncated platform auth
      (Connection.accepted bytes cuts remaining) htruncated
    simp only [readRequest, hstart] at hchecked
    exact hchecked _ rfl
  · intro h
    have hstart := checked_startSession platform auth
      (Connection.accepted bytes cuts remaining) h
    unfold readRequest
    split
    · apply throws_ok
    · rename_i kind hkind
      exact absurd (hstart _ hkind) id
    · apply throws_ok
    · apply throws_bind (checked_readMsg _ _ _)
      rintro ⟨msg, input⟩ -
      apply throws_ok

/-- The shortest such stream: a version byte and a count. -/
theorem readRequest_truncated_greeting :
    ¬ Checked (readRequest .latin1 true .none (Connection.accepted [5, 1] [] none)) := by
  intro hchecked
  have hstart := startSession_truncated .latin1 .none (Connection.accepted [5, 1] [] none)
    ⟨1, [], rfl, by decide⟩
  simp only [readRequest, hstart] at hchecked
  exact hchecked _ rfl

end TorAndroid.Socks.Robustness
