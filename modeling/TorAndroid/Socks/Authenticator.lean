import TorAndroid.Socks.Message

namespace TorAndroid.Socks.Authenticator

open TorAndroid.Lib.Fragments
open TorAndroid.Lib.Throwing
open TorAndroid.Socks.Basic
open TorAndroid.Socks.Message

/-- The stream to the client, with the number of writes that still succeed
(`none`: all of them). -/
structure OutputStream where
  written : List UInt8
  remaining : Option Nat
deriving DecidableEq, Repr

def OutputStream.write (out : OutputStream) (data : List UInt8) : Java OutputStream :=
  match out.remaining with
  | none => .ok { out with written := out.written ++ data }
  | some 0 => .error (.io .socket)
  | some (n + 1) => .ok { written := out.written ++ data, remaining := some n }

structure Connection where
  input : ByteStream
  output : OutputStream
deriving DecidableEq, Repr

/-- A connection on which the client sends `bytes` and then closes its side. -/
def Connection.accepted (bytes : List UInt8) (cuts : List Nat) (remaining : Option Nat) :
    Connection :=
  ⟨ByteStream.ofBytes bytes cuts, ⟨[], remaining⟩⟩

/-- A byte as Java compares it with an `int`. -/
def signed (b : UInt8) : Int := if b.toNat < 128 then b.toNat else (b.toNat : Int) - 256

def store (ids : List UInt8) (offset : Nat) (data : List UInt8) : List UInt8 :=
  ids.take offset ++ data ++ ids.drop (offset + data.length)

theorem length_readSome (input : ByteStream) (len : Nat) :
    (input.readSome len).1.length + (input.readSome len).2.content.length =
      input.content.length := by
  rw [← List.length_append, ByteStream.readSome_content]

/-- The loop that reads the method ids. The result of `in.read` is added to
`bread` as it is, so at the end of the stream `bread` goes down, and a read at
a negative offset is out of bounds. -/
def readMethodIds (num_methods : Nat) (input : ByteStream) (method_ids : List UInt8)
    (bread : Int) : Java (List UInt8 × ByteStream) :=
  if bread < num_methods then
    if bread < 0 then .error (.unchecked .indexOutOfBounds)
    else
      match hread : input.readSome (num_methods - bread.toNat) with
      | ([], rest) => readMethodIds num_methods rest method_ids (bread - 1)
      | (b :: data, rest) =>
          readMethodIds num_methods rest (store method_ids bread.toNat (b :: data))
            (bread + (b :: data).length)
  else .ok (method_ids, input)
termination_by (input.content.length, (bread + 1).toNat)
decreasing_by
  · have h := length_readSome input (num_methods - bread.toNat)
    rw [hread] at h
    simp only [List.length_nil, Nat.zero_add] at h
    rw [h]
    apply Prod.Lex.right
    omega
  · have h := length_readSome input (num_methods - bread.toNat)
    rw [hread] at h
    simp only [List.length_cons] at h
    apply Prod.Lex.left
    omega

/-- `ServerAuthenticatorBase.selectSocks5Authentication`. -/
def selectSocks5Authentication (conn : Connection) (methodId : Nat) : Java (Bool × Connection) :=
  match conn.input.read with
  | (none, input) => .ok (false, { conn with input })
  | (some n, input) =>
      if n = 0 then .ok (false, { conn with input })
      else do
        let (method_ids, input) ←
          readMethodIds n.toNat input (List.replicate n.toNat 0) 0
        let found := method_ids.any fun id => signed id = methodId
        let response := if found then [5, UInt8.ofNat methodId] else [5, 255]
        let output ← conn.output.write response
        return (found, { input, output })

/-- The authenticators of a session; the validator of `userPassword` belongs to
the program that uses the server. -/
inductive ServerAuthenticator
  | none
  | userPassword (isUserValid : String → String → Bool)

def METHOD_ID : Nat := 2

/-- `ServerAuthenticatorBase.startSession`; `none` stands for the null it
returns when it refuses the client. -/
def startSessionNone (conn : Connection) : Java (Option Connection) :=
  match conn.input.read with
  | (some 5, input) => do
      let (selected, conn) ← selectSocks5Authentication { conn with input } 0
      return if selected then some conn else none
  | (some 4, input) =>
      match input.unread 4 with
      | some input => .ok (some { conn with input })
      | none => .error (.io .other)
  | (_, _) => .ok none

section UserPassword

variable (platform : Platform) (isUserValid : String → String → Bool)

/-- The fields of the sub-negotiation are read with one array read each; the
rest of the array stays zero. -/
def readField (input : ByteStream) (len : Nat) : List UInt8 × ByteStream :=
  let (data, input) := input.readSome len
  (data ++ List.replicate (len - data.length) 0, input)

def doUserPasswordAuthentication (conn : Connection) : Java (Bool × Connection) :=
  match conn.input.read with
  | (some 1, input) =>
      match input.read with
      | (none, input) => .ok (false, { conn with input })
      | (some ulen, input) =>
          let (user, input) := readField input ulen.toNat
          match input.read with
          | (none, input) => .ok (false, { conn with input })
          | (some plen, input) => do
              let (password, input) := readField input plen.toNat
              let valid := isUserValid (platform.newString user) (platform.newString password)
              let output ← conn.output.write (if valid then [1, 0] else [1, 1])
              return (valid, { input, output })
  | (_, input) => .ok (false, { conn with input })

/-- `UserPasswordAuthenticator.startSession`. -/
def startSessionUserPassword (conn : Connection) : Java (Option Connection) :=
  match conn.input.read with
  | (some 5, input) => do
      let (selected, conn) ← selectSocks5Authentication { conn with input } METHOD_ID
      if selected then
        let (valid, conn) ← doUserPasswordAuthentication platform isUserValid conn
        return if valid then some conn else none
      else return none
  | (_, _) => .ok none

end UserPassword

section Session

variable (platform : Platform) (doResolveIP : Bool)

def ServerAuthenticator.startSession (auth : ServerAuthenticator) (conn : Connection) :
    Java (Option Connection) :=
  match auth with
  | .none => startSessionNone conn
  | .userPassword isUserValid => startSessionUserPassword platform isUserValid conn

/-- `ProxyServer.startSession` up to the request: an `IOException` of the
authenticator counts as a refusal, an unchecked exception ends the thread. -/
def readRequest (auth : ServerAuthenticator) (conn : Connection) :
    Java (Option (ProxyMessage × Connection)) :=
  match auth.startSession platform conn with
  | .error (.io _) => .ok none
  | .error (.unchecked kind) => .error (.unchecked kind)
  | .ok none => .ok none
  | .ok (some conn) => do
      let (msg, input) ← readMsg platform doResolveIP conn.input
      return some (msg, { conn with input })

inductive Command
  | connect
  | bind
  | udpAssociate
deriving DecidableEq, Repr

def resolveRequest (msg : ProxyMessage) : Java InetAddress :=
  match msg.ip, msg.messageClass with
  | some ip, _ => .ok ip
  | none, .socks5 _ =>
      match platform.getByName msg.host with
      | some ip => .ok ip
      | none => .error (.io .unknownHost)
  | none, .socks4 => throwSocks SOCKS_FAILURE

/-- `ProxyServer.handleRequest` up to the call of `onConnect`, `onBind` or
`onUDP`. -/
def handleRequest (checkRequest : ProxyMessage → Bool) (msg : ProxyMessage) :
    Java (Command × ProxyMessage) :=
  if checkRequest msg = false then throwSocks SOCKS_FAILURE
  else do
    let ip ← resolveRequest platform msg
    let msg := { msg with ip := some ip }
    if msg.command = SOCKS_CMD_CONNECT then return (.connect, msg)
    else if msg.command = SOCKS_CMD_BIND then return (.bind, msg)
    else if msg.command = SOCKS_CMD_UDP_ASSOCIATE then return (.udpAssociate, msg)
    else throwSocks SOCKS_CMD_NOT_SUPPORTED

def checkRequest (_msg : ProxyMessage) : Bool := true

end Session

theorem store_length {ids data : List UInt8} {offset : Nat}
    (h : offset + data.length ≤ ids.length) : (store ids offset data).length = ids.length := by
  simp only [store, List.length_append, List.length_take, List.length_drop]
  omega

theorem store_take {ids data : List UInt8} {offset : Nat} (h : offset ≤ ids.length) :
    (store ids offset data).take (offset + data.length) = ids.take offset ++ data := by
  have hlength : (ids.take offset ++ data).length = offset + data.length := by
    rw [List.length_append, List.length_take, Nat.min_eq_left h]
  rw [store, ← hlength, List.take_left]

/-- When the stream ends before the announced number of ids, the offset goes
down to `-1`. -/
theorem readMethodIds_short {num_methods : Nat} {input : ByteStream} {method_ids : List UInt8}
    {bread : Int} (h : input.content.length + bread < num_methods) :
    readMethodIds num_methods input method_ids bread =
      .error (.unchecked .indexOutOfBounds) := by
  fun_induction readMethodIds num_methods input method_ids bread with
  | case1 => rfl
  | case2 input method_ids bread hlt hnonneg rest hread ih =>
      have hlength := length_readSome input (num_methods - bread.toNat)
      rw [hread] at hlength
      simp only [List.length_nil, Nat.zero_add] at hlength
      apply ih
      omega
  | case3 input method_ids bread hlt hnonneg b data rest hread ih =>
      have hlength := length_readSome input (num_methods - bread.toNat)
      rw [hread] at hlength
      simp only [List.length_cons] at hlength
      apply ih
      simp only [List.length_cons]
      omega
  | case4 => omega

theorem readMethodIds_full {num_methods : Nat} (input : ByteStream) (method_ids : List UInt8)
    (bread : Int) (hids : method_ids.length = num_methods) (hnonneg : 0 ≤ bread)
    (hle : bread ≤ num_methods) (h : (num_methods : Int) - bread ≤ input.content.length) :
    ∃ rest, readMethodIds num_methods input method_ids bread =
        .ok (method_ids.take bread.toNat ++ input.content.take (num_methods - bread.toNat), rest) ∧
      rest.content = input.content.drop (num_methods - bread.toNat) := by
  fun_induction readMethodIds num_methods input method_ids bread with
  | case1 => omega
  | case2 input method_ids bread hlt _ rest hread ih =>
      have hwanted : 0 < num_methods - bread.toNat := by omega
      have hempty := (input.readSome_eq_nil_iff hwanted).mp (by rw [hread])
      simp only [hempty, List.length_nil] at h
      omega
  | case3 input method_ids bread hlt _ b data rest hread ih =>
      have hcontent := input.readSome_content (num_methods - bread.toNat)
      have hshort := input.readSome_length_le (num_methods - bread.toNat)
      rw [hread] at hcontent hshort
      simp only at hcontent hshort
      have htotal : input.content.length = (b :: data).length + rest.content.length := by
        rw [← hcontent, List.length_append]
      have hoffset : bread.toNat + (b :: data).length ≤ method_ids.length := by omega
      have hmoved : (bread + ((b :: data).length : Int)).toNat =
          bread.toNat + (b :: data).length := by omega
      obtain ⟨last, hresult, hlast⟩ := ih (by rw [store_length hoffset, hids]) (by omega)
        (by omega) (by omega)
      rw [hmoved] at hresult hlast
      have hleft : num_methods - bread.toNat =
          (b :: data).length + (num_methods - (bread.toNat + (b :: data).length)) := by omega
      refine ⟨last, ?_, ?_⟩
      · rw [hresult, store_take (by omega), ← hcontent, hleft, List.take_length_add_append,
          List.append_assoc]
      · rw [hlast, ← hcontent, hleft, List.drop_length_add_append]
  | case4 input method_ids bread hge =>
      have hfull : bread.toNat = num_methods := by omega
      refine ⟨input, ?_, ?_⟩
      · rw [hfull, ← hids]
        simp
      · simp [hfull]

theorem checked_write (out : OutputStream) (data : List UInt8) : Checked (out.write data) := by
  unfold OutputStream.write
  split
  · apply throws_ok
  · exact throws_error trivial
  · apply throws_ok

theorem select_short {conn : Connection} {n : UInt8} {ids : List UInt8} (methodId : Nat)
    (hcontent : conn.input.content = n :: ids) (hshort : ids.length < n.toNat) :
    selectSocks5Authentication conn methodId = .error (.unchecked .indexOutOfBounds) := by
  obtain ⟨input, hread, hrest, -⟩ := ByteStream.read_cons hcontent
  have hn : n ≠ 0 := by
    rintro rfl
    simp at hshort
  have hloop : readMethodIds n.toNat input (List.replicate n.toNat 0) 0 =
      .error (.unchecked .indexOutOfBounds) := by
    apply readMethodIds_short
    rw [hrest]
    omega
  simp only [selectSocks5Authentication, hread, hn, if_false, hloop]
  rfl

/-- A whole greeting: the server answers, and what it leaves in the stream is
what follows the greeting. -/
theorem select_full {conn : Connection} {n : UInt8} {ids rest : List UInt8} (methodId : Nat)
    (hcontent : conn.input.content = n :: (ids ++ rest)) (hlength : ids.length = n.toNat)
    (hn : n ≠ 0) :
    ∃ input, input.content = rest ∧
      selectSocks5Authentication conn methodId = (do
        let found := ids.any fun id => signed id = methodId
        let response := if found then [5, UInt8.ofNat methodId] else [5, 255]
        let output ← conn.output.write response
        return (found, { input, output })) := by
  obtain ⟨input, hread, hrest, -⟩ := ByteStream.read_cons hcontent
  have henough : (n.toNat : Int) - 0 ≤ input.content.length := by
    rw [hrest, List.length_append]
    omega
  obtain ⟨last, hloop, hlast⟩ := readMethodIds_full input (List.replicate n.toNat 0) 0
    List.length_replicate (by omega) (by omega) henough
  refine ⟨last, ?_, ?_⟩
  · simp [hlast, hrest, ← hlength]
  · have hids : input.content.take n.toNat = ids := by
      rw [hrest, ← hlength, List.take_left]
    simp only [Int.toNat_zero, List.take_zero, List.nil_append, Nat.sub_zero, hids] at hloop
    simp only [selectSocks5Authentication, hread, hn, if_false, hloop]
    rfl

theorem write_eq_ok_iff (out : OutputStream) (data : List UInt8) :
    (∃ out', out.write data = .ok out') ↔ out.remaining ≠ some 0 := by
  rcases hremaining : out.remaining with _ | _ | n <;>
    simp [OutputStream.write, hremaining]

theorem select_found {conn conn' : Connection} {methodId : Nat}
    (h : selectSocks5Authentication conn methodId = .ok (true, conn')) :
    ∃ n ids, conn.input.content = n :: (ids ++ conn'.input.content) ∧ ids.length = n.toNat ∧
      (ids.any fun id => signed id = methodId) = true ∧ conn.output.remaining ≠ some 0 := by
  rcases hcontent : conn.input.content with _ | ⟨n, tail⟩
  · simp [selectSocks5Authentication, ByteStream.read_nil hcontent] at h
  · by_cases hn : n = 0
    · obtain ⟨input, hread, -, -⟩ := ByteStream.read_cons hcontent
      simp [selectSocks5Authentication, hread, hn] at h
    · by_cases hshort : tail.length < n.toNat
      · rw [select_short methodId hcontent hshort] at h
        cases h
      · have hlength := List.length_take_of_le (Nat.le_of_not_lt hshort)
        have hsplit : conn.input.content = n :: (tail.take n.toNat ++ tail.drop n.toNat) := by
          rw [List.take_append_drop, hcontent]
        obtain ⟨input, hinput, hselect⟩ := select_full methodId hsplit hlength hn
        rw [hselect] at h
        simp only at h
        rw [bind_eq_ok] at h
        obtain ⟨output, hwrite, h⟩ := h
        simp only [pure_eq_ok, Except.ok.injEq, Prod.mk.injEq] at h
        obtain ⟨hfound, rfl⟩ := h
        refine ⟨n, tail.take n.toNat, ?_, hlength, hfound, ?_⟩
        · simp only [hinput, List.take_append_drop]
        · exact (write_eq_ok_iff conn.output _).mp ⟨output, hwrite⟩

/-- What a client sends to pass `ServerAuthenticatorNone`, and the bytes it
leaves for the request: a SOCKS4 request, or a SOCKS5 greeting that offers
method 0 and whose answer could be written. -/
def Passes (bytes : List UInt8) (remaining : Option Nat) (request : List UInt8) : Prop :=
  (∃ rest, request = 4 :: rest ∧ bytes = request) ∨
    (remaining ≠ some 0 ∧ ∃ n ids, bytes = 5 :: n :: (ids ++ request) ∧
      ids.length = n.toNat ∧ (0 : UInt8) ∈ ids)

theorem signed_eq_zero_iff (b : UInt8) : signed b = 0 ↔ b = 0 := by
  have hb := b.toNat_lt
  constructor
  · intro h
    apply UInt8.toNat_inj.mp
    unfold signed at h
    split at h
    · simpa using h
    · omega
  · rintro rfl
    rfl

theorem any_signed_zero_iff {ids : List UInt8} :
    (ids.any fun id => signed id = (0 : Nat)) = true ↔ (0 : UInt8) ∈ ids := by
  simp [signed_eq_zero_iff]

theorem startSessionNone_of_passes {bytes request : List UInt8} {remaining : Option Nat}
    (cuts : List Nat) (h : Passes bytes remaining request) :
    ∃ conn, startSessionNone (Connection.accepted bytes cuts remaining) = .ok (some conn) ∧
      conn.input.content = request := by
  rcases h with ⟨rest, rfl, rfl⟩ | ⟨hwrite, n, ids, rfl, hlength, hzero⟩
  · exact ⟨_, rfl, rfl⟩
  · have hn : n ≠ 0 := by
      rintro rfl
      simp [List.length_eq_zero_iff] at hlength
      simp [hlength] at hzero
    have hcontent : (Connection.mk (ByteStream.ofBytes (n :: (ids ++ request)) cuts)
        ⟨[], remaining⟩).input.content = n :: (ids ++ request) := rfl
    obtain ⟨input, hinput, hselect⟩ := select_full 0 hcontent hlength hn
    obtain ⟨out, hout⟩ := (write_eq_ok_iff ⟨[], remaining⟩ [5, UInt8.ofNat 0]).mpr hwrite
    have hfound := any_signed_zero_iff.mpr hzero
    refine ⟨⟨input, out⟩, ?_, hinput⟩
    simp only [hfound, if_true, hout, ok_bind, pure_eq_ok] at hselect
    simp only [startSessionNone, Connection.accepted, ByteStream.ofBytes, ByteStream.read]
    rw [ByteStream.ofBytes] at hselect
    rw [hselect]
    rfl

theorem passes_of_startSessionNone {bytes : List UInt8} {cuts : List Nat}
    {remaining : Option Nat} {conn : Connection}
    (h : startSessionNone (Connection.accepted bytes cuts remaining) = .ok (some conn)) :
    Passes bytes remaining conn.input.content := by
  unfold startSessionNone at h
  split at h
  · rename_i input hread
    have hbytes := ByteStream.content_of_read hread
    rw [bind_eq_ok] at h
    obtain ⟨⟨selected, conn'⟩, hselect, h⟩ := h
    cases selected with
    | false => cases h
    | true =>
        cases h
        obtain ⟨n, ids, hinput, hlength, hfound, hwrite⟩ := select_found hselect
        refine .inr ⟨hwrite, n, ids, ?_, hlength, any_signed_zero_iff.mp hfound⟩
        rw [← hinput]
        exact hbytes
  · rename_i input hread
    have hbytes := ByteStream.content_of_read hread
    split at h
    · rename_i input' hunread
      cases h
      refine .inl ⟨input.content, ?_, ?_⟩
      · exact ByteStream.content_of_unread hunread
      · rw [ByteStream.content_of_unread hunread]
        exact hbytes
    · cases h
  · cases h

theorem handleRequest_eq {platform : Platform} {msg : ProxyMessage} {ip : InetAddress}
    (h : resolveRequest platform msg = .ok ip) :
    handleRequest platform checkRequest msg =
      if msg.command = SOCKS_CMD_CONNECT then .ok (.connect, { msg with ip := some ip })
      else if msg.command = SOCKS_CMD_BIND then .ok (.bind, { msg with ip := some ip })
      else if msg.command = SOCKS_CMD_UDP_ASSOCIATE then
        .ok (.udpAssociate, { msg with ip := some ip })
      else throwSocks SOCKS_CMD_NOT_SUPPORTED := by
  simp only [handleRequest, checkRequest, Bool.true_eq_false, if_false, h, ok_bind]
  rfl

theorem handleRequest_cases (platform : Platform) (msg : ProxyMessage) :
    (∃ e, handleRequest platform checkRequest msg = .error e) ∨
    ∃ ip, resolveRequest platform msg = .ok ip ∧
      (msg.command = SOCKS_CMD_CONNECT ∧
          handleRequest platform checkRequest msg = .ok (.connect, { msg with ip := some ip }) ∨
        msg.command = SOCKS_CMD_BIND ∧
          handleRequest platform checkRequest msg = .ok (.bind, { msg with ip := some ip }) ∨
        msg.command = SOCKS_CMD_UDP_ASSOCIATE ∧ handleRequest platform checkRequest msg =
          .ok (.udpAssociate, { msg with ip := some ip })) := by
  rcases hresolve : resolveRequest platform msg with e | ip
  · refine .inl ⟨e, ?_⟩
    simp [handleRequest, checkRequest, hresolve]
  · rw [handleRequest_eq hresolve]
    split
    · rename_i hconnect
      exact .inr ⟨ip, rfl, .inl ⟨hconnect, rfl⟩⟩
    · split
      · rename_i hbind
        exact .inr ⟨ip, rfl, .inr (.inl ⟨hbind, rfl⟩)⟩
      · split
        · rename_i hudp
          exact .inr ⟨ip, rfl, .inr (.inr ⟨hudp, rfl⟩)⟩
        · exact .inl ⟨_, rfl⟩

end TorAndroid.Socks.Authenticator
