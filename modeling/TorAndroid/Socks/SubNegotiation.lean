import TorAndroid.Socks.Dialogue

namespace TorAndroid.Socks.SubNegotiation

open TorAndroid.Lib.Fragments
open TorAndroid.Lib.Throwing
open TorAndroid.Socks.Authenticator
open TorAndroid.Socks.Basic
open TorAndroid.Socks.Dial
open TorAndroid.Socks.Requests

/-- The bytes that the next array read of `len` bytes gets, when they are there. -/
def arrived (cuts : List Nat) (len : Nat) : Nat :=
  match cuts with
  | [] => len
  | n :: _ => min (max 1 n) len

/-- The cuts that are left after an array read of `len` bytes. -/
def cutsAfter (cuts : List Nat) (len : Nat) : List Nat :=
  if len = 0 then cuts else cuts.tail

theorem arrived_le (cuts : List Nat) (len : Nat) : arrived cuts len ≤ len := by
  unfold arrived
  split
  · exact Nat.le_refl len
  · exact Nat.min_le_right _ _

/-- One array read of a field that is followed by other bytes. -/
theorem readSome_field (field rest : List UInt8) (cuts : List Nat) :
    (ByteStream.ofBytes (field ++ rest) cuts).readSome field.length =
      (field.take (arrived cuts field.length),
        .ofBytes (field.drop (arrived cuts field.length) ++ rest)
          (cutsAfter cuts field.length)) := by
  have hle := arrived_le cuts field.length
  rw [← List.take_append_of_le_length hle, ← List.drop_append_of_le_length hle]
  rcases hlen : field.length with _ | n
  · have hnone : arrived cuts 0 = 0 := Nat.le_zero.mp (arrived_le cuts 0)
    simp [ByteStream.readSome, hnone, cutsAfter]
  · have hlimit : min (n + 1) (field ++ rest).length = n + 1 := by
      rw [List.length_append]
      omega
    simp only [ByteStream.readSome, ByteStream.transfer, ByteStream.ofBytes, hlimit]
    rcases cuts with _ | ⟨m, cuts⟩ <;> rfl

theorem readField_field (field rest : List UInt8) (cuts : List Nat) :
    readField (.ofBytes (field ++ rest) cuts) field.length =
      (field.take (arrived cuts field.length) ++
          List.replicate (field.length - arrived cuts field.length) 0,
        .ofBytes (field.drop (arrived cuts field.length) ++ rest)
          (cutsAfter cuts field.length)) := by
  have hmin : min (arrived cuts field.length) field.length = arrived cuts field.length :=
    Nat.min_eq_left (arrived_le _ _)
  simp only [readField, readSome_field, List.length_take, hmin]

theorem readField_whole {field : List UInt8} {cuts : List Nat} (rest : List UInt8)
    (h : arrived cuts field.length = field.length) :
    readField (.ofBytes (field ++ rest) cuts) field.length =
      (field, .ofBytes rest (cutsAfter cuts field.length)) := by
  rw [readField_field, h]
  simp

section Server

variable (platform : Platform) (isUserValid : String → String → Bool) (written : List UInt8)

/-- The answer of the server to two fields. -/
def reply (valid : Bool) : List UInt8 := if valid then [1, 0] else [1, 1]

/-- The server after the length byte of the user name: what the rest of the
negotiation does for a user field and what is left of the stream. -/
def afterUser (user : List UInt8) (input : ByteStream) : Java (Bool × Connection) :=
  match input.read with
  | (none, input) => .ok (false, ⟨input, ⟨written, none⟩⟩)
  | (some plen, input) =>
      let (password, input) := readField input plen.toNat
      let valid := isUserValid (platform.newString user) (platform.newString password)
      .ok (valid, ⟨input, ⟨written ++ reply valid, none⟩⟩)

theorem doUserPasswordAuthentication_eq (ulen : UInt8) (rest : List UInt8) (cuts : List Nat) :
    doUserPasswordAuthentication platform isUserValid
        ⟨.ofBytes (1 :: ulen :: rest) cuts, ⟨written, none⟩⟩ =
      afterUser platform isUserValid written
        (readField (.ofBytes rest cuts) ulen.toNat).1
        (readField (.ofBytes rest cuts) ulen.toNat).2 := by
  have hversion : (ByteStream.ofBytes (1 :: ulen :: rest) cuts).read =
      (some 1, .ofBytes (ulen :: rest) cuts) := rfl
  have hulen : (ByteStream.ofBytes (ulen :: rest) cuts).read =
      (some ulen, .ofBytes rest cuts) := rfl
  simp only [doUserPasswordAuthentication, hversion, hulen, afterUser]
  rcases hplen : (readField (.ofBytes rest cuts) ulen.toNat).2.read with ⟨_ | plen, input⟩
  · rfl
  · simp [OutputStream.write, reply]

theorem afterUser_cons (user : List UInt8) (plen : UInt8) (rest : List UInt8) (cuts : List Nat) :
    afterUser platform isUserValid written user (.ofBytes (plen :: rest) cuts) =
      .ok (isUserValid (platform.newString user)
          (platform.newString (readField (.ofBytes rest cuts) plen.toNat).1),
        ⟨(readField (.ofBytes rest cuts) plen.toNat).2,
          ⟨written ++ reply (isUserValid (platform.newString user)
            (platform.newString (readField (.ofBytes rest cuts) plen.toNat).1)), none⟩⟩) := rfl

end Server

section Agreement

variable (env : Env) (userName password : String)

/-- The validator is asked about the user name and the password, the client
accepts exactly when it does, and the server has consumed what the client sent
for it. -/
def Agrees (later : List UInt8) (input : ByteStream) : Prop :=
  ∀ (isUserValid : String → String → Bool) (written : List UInt8), ∃ conn answer,
    doUserPasswordAuthentication env.platform.toPlatform isUserValid
        ⟨input, ⟨written, none⟩⟩ = .ok (isUserValid userName password, conn) ∧
      conn.output.written = written ++ answer ∧
      (∀ client : ByteStream, client.content = answer →
        ((readStatus client).isSome ↔ isUserValid userName password)) ∧
      conn.input.content = later

/-- Decoding shows that the last bytes of an encoding have been set to zero: the
text comes out only if nothing has changed. -/
def PaddingShows (platform : ClientPlatform) (text : String) : Prop :=
  ∀ k, platform.newString ((platform.getBytes text).take k ++
      List.replicate ((platform.getBytes text).length - k) 0) = text →
    (platform.getBytes text).take k ++
      List.replicate ((platform.getBytes text).length - k) 0 = platform.getBytes text

variable {env userName password}

theorem readStatus_reply {client : ByteStream} {valid : Bool} (h : client.content = reply valid) :
    (readStatus client).isSome ↔ valid := by
  have hstatus := readStatus_eq client
  rw [h] at hstatus
  cases valid with
  | false =>
      cases hread : readStatus client with
      | none => simp
      | some input => simp [hread, reply] at hstatus
  | true =>
      cases hread : readStatus client with
      | none => simp [hread, reply] at hstatus
      | some input => simp

theorem formRequest_append (later : List UInt8) :
    formRequest env userName password ++ later =
      1 :: UInt8.ofNat (env.platform.getBytes userName).length ::
        (env.platform.getBytes userName ++
          UInt8.ofNat (env.platform.getBytes password).length ::
            (env.platform.getBytes password ++ later)) := by
  simp [formRequest]

theorem run_whole (password : String) (later : List UInt8) {cuts : List Nat}
    (huser : (env.platform.getBytes userName).length ≤ 255)
    (hwhole : arrived cuts (env.platform.getBytes userName).length =
      (env.platform.getBytes userName).length)
    (isUserValid : String → String → Bool) (written : List UInt8) :
    doUserPasswordAuthentication env.platform.toPlatform isUserValid
        ⟨.ofBytes (formRequest env userName password ++ later) cuts, ⟨written, none⟩⟩ =
      afterUser env.platform.toPlatform isUserValid written (env.platform.getBytes userName)
        (.ofBytes (UInt8.ofNat (env.platform.getBytes password).length ::
          (env.platform.getBytes password ++ later))
          (cutsAfter cuts (env.platform.getBytes userName).length)) := by
  rw [formRequest_append, doUserPasswordAuthentication_eq, toNat_command (by omega),
    readField_whole _ hwhole]

/-- No user name is what the server reads from a part of its encoding: when a part
arrives, the next byte of the user name is taken for the length of the password. -/
theorem arrived_of_agrees {later : List UInt8} {cuts : List Nat}
    (huser : (env.platform.getBytes userName).length ≤ 255)
    (hpadded : PaddingShows env.platform userName)
    (h : Agrees env userName password later
      (.ofBytes (formRequest env userName password ++ later) cuts)) :
    arrived cuts (env.platform.getBytes userName).length =
      (env.platform.getBytes userName).length := by
  by_contra hne
  unfold PaddingShows at hpadded
  generalize hbytes : env.platform.getBytes userName = user at huser hpadded hne
  generalize hk : arrived cuts user.length = k at hne
  have hlt : k < user.length := by
    have hle := arrived_le cuts user.length
    omega
  -- a validator that accepts the user name the server has read
  obtain ⟨conn, answer, hrun, -, -, hrest⟩ := h (fun name _ => name =
    env.platform.newString (user.take k ++ List.replicate (user.length - k) 0)) []
  rw [formRequest_append, doUserPasswordAuthentication_eq, hbytes, toNat_command (by omega),
    readField_field, hk, List.drop_eq_getElem_cons hlt, List.cons_append, afterUser_cons] at hrun
  obtain ⟨hvalid, rfl⟩ := Prod.mk.inj (Except.ok.inj hrun)
  simp only [decide_true, true_eq_decide_iff] at hvalid
  have hsame := hpadded k hvalid.symm
  have hzero : user[k] = 0 := by
    have hget : (user.take k ++ List.replicate (user.length - k) 0)[k]? = some user[k] := by
      rw [hsame, List.getElem?_eq_getElem hlt]
    rw [List.getElem?_append_right (by simp), List.getElem?_replicate,
      if_pos (by rw [List.length_take]; omega)] at hget
    exact (Option.some.inj hget).symm
  have hlength := congrArg List.length hrest
  simp only [hzero, UInt8.toNat_zero, readField, ByteStream.readSome, ByteStream.content_ofBytes,
    List.length_append, List.length_drop, List.length_cons] at hlength
  omega

end Agreement

/-- The two sides agree exactly when each field reaches the server in one piece
and the charset gives both texts back. -/
theorem subNegotiation_agrees_iff (env : Env) (userName password : String)
    (huser : (env.platform.getBytes userName).length ≤ 255)
    (hpassword : (env.platform.getBytes password).length ≤ 255)
    (hpadded : PaddingShows env.platform userName) (later : List UInt8) (cuts : List Nat) :
    Agrees env userName password later
        (.ofBytes (formRequest env userName password ++ later) cuts) ↔
      arrived cuts (env.platform.getBytes userName).length =
          (env.platform.getBytes userName).length ∧
        arrived (cutsAfter cuts (env.platform.getBytes userName).length)
            (env.platform.getBytes password).length = (env.platform.getBytes password).length ∧
        env.platform.newString (env.platform.getBytes userName) = userName ∧
        env.platform.newString (env.platform.getBytes password) = password := by
  have hplen : (UInt8.ofNat (env.platform.getBytes password).length).toNat =
      (env.platform.getBytes password).length := toNat_command (by omega)
  constructor
  · intro h
    have hwhole := arrived_of_agrees huser hpadded h
    obtain ⟨conn, answer, hrun, -, -, hrest⟩ := h (fun name word =>
      name = env.platform.newString (env.platform.getBytes userName) ∧
        word = env.platform.newString (env.platform.getBytes password)) []
    rw [run_whole password later huser hwhole, afterUser_cons, hplen] at hrun
    obtain ⟨hvalid, rfl⟩ := Prod.mk.inj (Except.ok.inj hrun)
    have hwhole' : arrived (cutsAfter cuts (env.platform.getBytes userName).length)
        (env.platform.getBytes password).length = (env.platform.getBytes password).length := by
      have hle := arrived_le (cutsAfter cuts (env.platform.getBytes userName).length)
        (env.platform.getBytes password).length
      have hlength := congrArg List.length hrest
      simp only [readField_field, ByteStream.content_ofBytes, List.length_append,
        List.length_drop] at hlength
      omega
    rw [readField_whole _ hwhole'] at hvalid
    simp only [and_self, decide_true, true_eq_decide_iff] at hvalid
    exact ⟨hwhole, hwhole', hvalid.1.symm, hvalid.2.symm⟩
  · rintro ⟨hwhole, hwhole', hdecode, hdecode'⟩ isUserValid written
    have hrun := run_whole password later huser hwhole isUserValid written
    rw [afterUser_cons, hplen, readField_whole _ hwhole', hdecode, hdecode'] at hrun
    refine ⟨_, reply (isUserValid userName password), hrun, rfl, ?_, rfl⟩
    intro client hclient
    exact readStatus_reply hclient

/-- An environment with the Latin-1 charset and no faults. -/
def latin1Env : Env where
  platform := .latin1
  doResolveIP := true
  input := .ofBytes [] []
  fault _ _ := none

theorem paddingShows_ab : PaddingShows .latin1 "ab" := by
  intro k
  match k with
  | 0 => decide
  | 1 => decide
  | k + 2 =>
      intro _
      have hbytes : ClientPlatform.latin1.getBytes "ab" = [97, 98] := by decide
      simp [hbytes]

theorem subNegotiation_agrees_ab :
    Agrees latin1Env "ab" "c" [5] (.ofBytes [1, 2, 97, 98, 1, 99, 5] [2]) :=
  (subNegotiation_agrees_iff latin1Env "ab" "c" (by decide) (by decide) paddingShows_ab [5]
    [2]).mpr (by decide)

theorem subNegotiation_disagrees_cut :
    ¬ Agrees latin1Env "ab" "c" [5] (.ofBytes [1, 2, 97, 98, 1, 99, 5] [1]) := by
  intro h
  obtain ⟨conn, answer, hrun, -⟩ := h (fun name word => name = "ab" ∧ word = "c") []
  have hfalse : (doUserPasswordAuthentication latin1Env.platform.toPlatform
      (fun name word => name = "ab" ∧ word = "c")
      ⟨.ofBytes [1, 2, 97, 98, 1, 99, 5] [1], ⟨[], none⟩⟩).toOption.map Prod.fst = some false := by
    decide
  rw [hrun] at hfalse
  simp [Except.toOption] at hfalse

end TorAndroid.Socks.SubNegotiation
