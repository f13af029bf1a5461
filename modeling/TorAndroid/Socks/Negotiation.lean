import Mathlib.Data.List.AList
import TorAndroid.Socks.Authenticator

namespace TorAndroid.Socks.Negotiation

open TorAndroid.Lib.Fragments
open TorAndroid.Lib.Throwing
open TorAndroid.Socks.Basic
open TorAndroid.Socks.Authenticator

variable {A S : Type}

/-- The method table of a `Socks5Proxy`; `A` is the type of the
`Authentication` objects. -/
structure Socks5Proxy (A : Type) where
  authMethods : AList fun _ : Nat => A
  bounded : ∀ id ∈ authMethods, id ≤ 255

namespace Socks5Proxy

/-- The table after the constructor: `AuthenticationNone` under 0. -/
def create (authenticationNone : A) : Socks5Proxy A where
  authMethods := AList.singleton 0 authenticationNone
  bounded := by
    intro id hid
    rw [AList.mem_keys, AList.keys_singleton, List.mem_singleton] at hid
    omega

theorem bounded_erase (proxy : Socks5Proxy A) (methodId : Int) :
    ∀ id ∈ proxy.authMethods.erase methodId.toNat, id ≤ 255 :=
  fun id hid => proxy.bounded id (AList.mem_erase.mp hid).2

theorem bounded_insert (proxy : Socks5Proxy A) {methodId : Int} (method : A)
    (hrange : ¬(methodId < 0 ∨ 255 < methodId)) :
    ∀ id ∈ proxy.authMethods.insert methodId.toNat method, id ≤ 255 := by
  intro id hid
  rcases (AList.mem_insert _).mp hid with rfl | hold
  · omega
  · exact proxy.bounded id hold

/-- `none` removes the method, anything else adds or replaces it. -/
def setAuthenticationMethod (proxy : Socks5Proxy A) (methodId : Int) (method : Option A) :
    Bool × Socks5Proxy A :=
  if hrange : methodId < 0 ∨ 255 < methodId then (false, proxy)
  else
    match method with
    | none =>
        ((proxy.authMethods.lookup methodId.toNat).isSome,
          { authMethods := proxy.authMethods.erase methodId.toNat
            bounded := proxy.bounded_erase methodId })
    | some method =>
        (true,
          { authMethods := proxy.authMethods.insert methodId.toNat method
            bounded := proxy.bounded_insert method hrange })

def configured (authenticationNone : A) (calls : List (Int × Option A)) : Socks5Proxy A :=
  calls.foldl (fun proxy call => (proxy.setAuthenticationMethod call.1 call.2).2)
    (create authenticationNone)

def getAuthenticationMethod (proxy : Socks5Proxy A) (methodId : Nat) : Option A :=
  proxy.authMethods.lookup methodId

end Socks5Proxy

def putByte (buf : List UInt8) (i : Nat) (b : UInt8) : Java (List UInt8) :=
  if i < buf.length then .ok (buf.set i b) else .error (.unchecked .indexOutOfBounds)

def putIds : List UInt8 → Nat → List Nat → Java (List UInt8)
  | buf, _, [] => .ok buf
  | buf, i, id :: ids => do
      let buf ← putByte buf i (UInt8.ofNat id)
      putIds buf (i + 1) ids

/-- The bytes `Socks5Proxy.startSession` sends first, for the keys in the order
in which the hash table enumerates them. -/
def greeting (ids : List Nat) : Java (List UInt8) :=
  let nMethods := UInt8.ofNat ids.length
  if 2 + signed nMethods < 0 then .error (.unchecked .negativeArraySize)
  else do
    let buf ← putByte (List.replicate (2 + signed nMethods).toNat 0) 0 5
    let buf ← putByte buf 1 nMethods
    putIds buf 2 ids

/-- The end of `startSession`: run the authentication; `none` stands for the
null it returns when it fails. -/
def authenticate (doSocksAuthentication : A → Nat → Java (Option S)) (auth : A)
    (selectedMethod : Nat) : Java S :=
  match doSocksAuthentication auth selectedMethod with
  | .ok (some in_out) => .ok in_out
  | .ok none => throwSocks SOCKS_AUTH_FAILURE
  | .error e => rethrow e

/-- `startSession` from the reply on. -/
def receiveReply (doSocksAuthentication : A → Nat → Java (Option S)) (proxy : Socks5Proxy A)
    (input : ByteStream) : Java S :=
  let (versionNumber, input) := input.read
  let (selectedMethod, _) := input.read
  match versionNumber, selectedMethod with
  | some _, some selectedMethod =>
      if selectedMethod = 255 then throwSocks SOCKS_AUTH_NOT_SUPPORTED
      else
        match proxy.getAuthenticationMethod selectedMethod.toNat with
        | none => throwSocksText SOCKS_JUST_ERROR "Specified Authentication not found!"
        | some auth => authenticate doSocksAuthentication auth selectedMethod.toNat
  | _, _ => throwSocksText SOCKS_PROXY_IO_ERROR "Connection to proxy lost."

def serve (input : ByteStream) (methodId : Nat) : Java (Bool × Connection) :=
  selectSocks5Authentication ⟨input.read.2, ⟨[], none⟩⟩ methodId

section Bytes

theorem signed_lt (b : UInt8) : signed b < 128 := by
  have hb := b.toNat_lt
  unfold signed
  split <;> omega

theorem signed_ofNat {n : Nat} (h : n < 128) : signed (UInt8.ofNat n) = n := by
  have hn : (UInt8.ofNat n).toNat = n := by
    rw [UInt8.toNat_ofNat']
    omega
  simp [signed, hn, h]

theorem signed_ofNat_eq_iff {id methodId : Nat} (hid : id ≤ 255) (hmethod : methodId < 128) :
    signed (UInt8.ofNat id) = methodId ↔ id = methodId := by
  have hn : (UInt8.ofNat id).toNat = id := by
    rw [UInt8.toNat_ofNat']
    omega
  unfold signed
  rw [hn]
  split <;> omega

end Bytes

section Greeting

theorem putIds_eq (buf : List UInt8) (i : Nat) (ids : List Nat)
    (h : i + ids.length = buf.length) :
    putIds buf i ids = .ok (buf.take i ++ ids.map UInt8.ofNat) := by
  induction ids generalizing buf i with
  | nil =>
      simp only [List.length_nil, Nat.add_zero] at h
      simp [putIds, h]
  | cons id ids ih =>
      simp only [List.length_cons] at h
      have hi : i < buf.length := by omega
      have htail := ih (buf.set i (UInt8.ofNat id)) (i + 1) (by
        rw [List.length_set]
        omega)
      have htake : (buf.set i (UInt8.ofNat id)).take (i + 1) = buf.take i ++ [UInt8.ofNat id] := by
        rw [List.take_succ_eq_append_getElem (by simpa using hi), List.take_set_of_le le_rfl]
        simp
      have hput : putByte buf i (UInt8.ofNat id) = .ok (buf.set i (UInt8.ofNat id)) := by
        simp [putByte, hi]
      calc
        putIds buf i (id :: ids) = putIds (buf.set i (UInt8.ofNat id)) (i + 1) ids := by
          simp only [putIds, hput]
          rfl
        _ = .ok (buf.take i ++ (id :: ids).map UInt8.ofNat) := by
          rw [htail, htake]
          simp

theorem putIds_overflow (buf : List UInt8) (i : Nat) (ids : List Nat)
    (hi : i ≤ buf.length) (h : buf.length < i + ids.length) :
    putIds buf i ids = .error (.unchecked .indexOutOfBounds) := by
  induction ids generalizing buf i with
  | nil =>
      simp only [List.length_nil] at h
      omega
  | cons id ids ih =>
      simp only [List.length_cons] at h
      by_cases hroom : i < buf.length
      · simp only [putIds, putByte, hroom, if_true]
        apply ih
        · rw [List.length_set]
          omega
        · rw [List.length_set]
          omega
      · simp only [putIds, putByte, hroom, if_false]
        rfl

theorem greeting_eq {ids : List Nat} (h : ids.length < 128) :
    greeting ids = .ok (5 :: UInt8.ofNat ids.length :: ids.map UInt8.ofNat) := by
  have hsize : (2 + (ids.length : Int)).toNat = ids.length + 2 := by omega
  have hnonneg : ¬ 2 + (ids.length : Int) < 0 := by omega
  simp only [greeting, signed_ofNat h, hnonneg, if_false, hsize]
  have hfill := putIds_eq (5 :: UInt8.ofNat ids.length :: List.replicate ids.length 0) 2 ids
    (by simp; omega)
  simpa [putByte, List.replicate_succ] using hfill

/-- From 128 methods on the count is negative as a byte and the array too
small. -/
theorem greeting_overflow {ids : List Nat} (h : 128 ≤ ids.length) :
    ∃ kind, greeting ids = .error (.unchecked kind) := by
  have hlt := signed_lt (UInt8.ofNat ids.length)
  by_cases hneg : 2 + signed (UInt8.ofNat ids.length) < 0
  · exact ⟨.negativeArraySize, by simp [greeting, hneg]⟩
  · simp only [greeting, hneg, if_false]
    obtain ⟨size, hsize⟩ : ∃ size, (2 + signed (UInt8.ofNat ids.length)).toNat = size := ⟨_, rfl⟩
    rw [hsize]
    rcases size with _ | _ | size
    · exact ⟨_, rfl⟩
    · exact ⟨_, rfl⟩
    · refine ⟨.indexOutOfBounds, ?_⟩
      have hfill := putIds_overflow
        (5 :: UInt8.ofNat ids.length :: List.replicate size 0) 2 ids (by simp)
        (by simp; omega)
      simpa [putByte, List.replicate_succ] using hfill

end Greeting

section Agreement

variable (doSocksAuthentication : A → Nat → Java (Option S)) (proxy : Socks5Proxy A)

/-- One negotiation, with the keys enumerated as `ids`. The client sends
`later` after its greeting; the server sends `reply` after its answer if it
selected the method and closes otherwise. The two ends agree when the server
selects `methodId` exactly if it is registered, has consumed the greeting and
nothing else, and the client runs the registered method or reports that no
method is supported. -/
def Agreement (ids : List Nat) (methodId : Nat) (later reply : List UInt8)
    (cuts cuts' : List Nat) : Prop :=
  ∃ bytes found conn,
    greeting ids = .ok bytes ∧
    serve (ByteStream.ofBytes (bytes ++ later) cuts) methodId = .ok (found, conn) ∧
    (found = true ↔ methodId ∈ proxy.authMethods) ∧
    conn.input.content = later ∧
    let answer :=
      ByteStream.ofBytes (conn.output.written ++ if found then reply else []) cuts'
    (∀ auth, proxy.getAuthenticationMethod methodId = some auth →
      receiveReply doSocksAuthentication proxy answer =
        authenticate doSocksAuthentication auth methodId) ∧
    (methodId ∉ proxy.authMethods →
      receiveReply doSocksAuthentication proxy answer =
        .error (.io (.socks SOCKS_AUTH_NOT_SUPPORTED
          "None of Authentication methods are supported")))

theorem serve_greeting {ids : List Nat} (methodId : Nat) (later : List UInt8) (cuts : List Nat)
    (hpos : 0 < ids.length) (hlt : ids.length < 128) :
    ∃ input, input.content = later ∧
      serve (ByteStream.ofBytes
        ((5 :: UInt8.ofNat ids.length :: ids.map UInt8.ofNat) ++ later) cuts) methodId =
      .ok ((ids.map UInt8.ofNat).any fun id => signed id = methodId,
        ⟨input, ⟨if (ids.map UInt8.ofNat).any fun id => signed id = methodId then
          [5, UInt8.ofNat methodId] else [5, 255], none⟩⟩) := by
  have hcount : (UInt8.ofNat ids.length).toNat = ids.length := by
    rw [UInt8.toNat_ofNat']
    omega
  have hne : UInt8.ofNat ids.length ≠ 0 := by
    intro hzero
    rw [hzero] at hcount
    simp only [UInt8.toNat_zero] at hcount
    omega
  obtain ⟨start, hread, hrest, -⟩ := ByteStream.read_cons (s := ByteStream.ofBytes
    ((5 :: UInt8.ofNat ids.length :: ids.map UInt8.ofNat) ++ later) cuts) rfl
  have hstart : (Connection.mk start ⟨[], none⟩).input.content =
      UInt8.ofNat ids.length :: (ids.map UInt8.ofNat ++ later) := hrest
  obtain ⟨input, hinput, hselect⟩ := select_full methodId hstart
    (by rw [List.length_map, hcount]) hne
  refine ⟨input, hinput, ?_⟩
  rw [serve, hread, hselect]
  rfl

theorem any_signed_iff {ids : List Nat} {methodId : Nat} (hids : ∀ id ∈ ids, id ≤ 255)
    (hmethod : methodId < 128) :
    ((ids.map UInt8.ofNat).any fun id => signed id = methodId) = true ↔ methodId ∈ ids := by
  simp only [List.any_map, List.any_eq_true, Function.comp_apply, decide_eq_true_eq]
  constructor
  · rintro ⟨id, hid, heq⟩
    rw [signed_ofNat_eq_iff (hids id hid) hmethod] at heq
    exact heq ▸ hid
  · intro hmem
    exact ⟨methodId, hmem, signed_ofNat hmethod⟩

/-- An id from 128 on is negative as a byte, so the server never finds it. -/
theorem any_signed_large {ids : List Nat} {methodId : Nat} (hmethod : 128 ≤ methodId) :
    ((ids.map UInt8.ofNat).any fun id => signed id = methodId) = false := by
  rw [List.any_eq_false]
  intro id _ heq
  have hlt := signed_lt id
  simp only [decide_eq_true_eq] at heq
  omega

theorem receiveReply_selected {methodId : Nat} {auth : A} (reply : List UInt8)
    (cuts : List Nat) (hmethod : methodId ≤ 254)
    (hauth : proxy.getAuthenticationMethod methodId = some auth) :
    receiveReply doSocksAuthentication proxy
        (ByteStream.ofBytes ([5, UInt8.ofNat methodId] ++ reply) cuts) =
      authenticate doSocksAuthentication auth methodId := by
  have hbyte : (UInt8.ofNat methodId).toNat = methodId := by
    rw [UInt8.toNat_ofNat']
    omega
  have hne : UInt8.ofNat methodId ≠ 255 := by
    intro h255
    rw [h255] at hbyte
    have : (255 : UInt8).toNat = 255 := rfl
    omega
  simp [receiveReply, ByteStream.ofBytes, ByteStream.read, hne, hbyte, hauth]

theorem receiveReply_refused (cuts : List Nat) :
    receiveReply doSocksAuthentication proxy (ByteStream.ofBytes ([5, 255] ++ []) cuts) =
      .error (.io (.socks SOCKS_AUTH_NOT_SUPPORTED
        "None of Authentication methods are supported")) := rfl

theorem receiveReply_closed (cuts : List Nat) :
    receiveReply doSocksAuthentication proxy (ByteStream.ofBytes [] cuts) =
      .error (.io (.socks SOCKS_PROXY_IO_ERROR "Connection to proxy lost.")) := rfl

theorem serve_empty (methodId : Nat) (later : List UInt8) (cuts : List Nat) :
    serve (ByteStream.ofBytes ([5, 0] ++ later) cuts) methodId =
      .ok (false, ⟨ByteStream.ofBytes later cuts, ⟨[], none⟩⟩) := rfl

variable {doSocksAuthentication proxy}

theorem agreement_of_small {ids : List Nat} {methodId : Nat} (later reply : List UInt8)
    (cuts cuts' : List Nat) (hids : ids.Perm proxy.authMethods.keys)
    (hmethod : methodId ≤ 254) (hpos : 0 < ids.length) (hlt : ids.length < 128)
    (hsmall : methodId < 128 ∨ methodId ∉ proxy.authMethods) :
    Agreement doSocksAuthentication proxy ids methodId later reply cuts cuts' := by
  have hmem : methodId ∈ ids ↔ methodId ∈ proxy.authMethods := hids.mem_iff
  have hbound : ∀ id ∈ ids, id ≤ 255 := fun id hid => proxy.bounded id (hids.mem_iff.mp hid)
  have hfound : ((ids.map UInt8.ofNat).any fun id => signed id = methodId) = true ↔
      methodId ∈ proxy.authMethods := by
    by_cases h128 : methodId < 128
    · rw [any_signed_iff hbound h128, hmem]
    · rw [any_signed_large (Nat.le_of_not_lt h128)]
      simp [hsmall.resolve_left h128]
  obtain ⟨input, hinput, hserve⟩ := serve_greeting methodId later cuts hpos hlt
  refine ⟨_, _, _, greeting_eq hlt, hserve, hfound, hinput, ?_, ?_⟩
  · intro auth hauth
    have hregistered : methodId ∈ proxy.authMethods := by
      rw [← AList.lookup_isSome, ← Socks5Proxy.getAuthenticationMethod, hauth]
      rfl
    simp only [hfound.mpr hregistered, if_true]
    exact receiveReply_selected _ _ reply cuts' hmethod hauth
  · intro hunregistered
    have hnot := Bool.eq_false_iff.mpr fun h => hunregistered (hfound.mp h)
    simp only [hnot, Bool.false_eq_true, if_false]
    exact receiveReply_refused _ _ cuts'

theorem small_of_agreement {ids : List Nat} {methodId : Nat} {later reply : List UInt8}
    {cuts cuts' : List Nat} (hids : ids.Perm proxy.authMethods.keys)
    (hagree : Agreement doSocksAuthentication proxy ids methodId later reply cuts cuts') :
    0 < ids.length ∧ ids.length < 128 ∧ (methodId < 128 ∨ methodId ∉ proxy.authMethods) := by
  obtain ⟨bytes, found, conn, hgreeting, hserve, hfound, -, -, hrefused⟩ := hagree
  have hlt : ids.length < 128 := by
    by_contra h
    obtain ⟨kind, hoverflow⟩ := greeting_overflow (Nat.le_of_not_lt h)
    rw [hoverflow] at hgreeting
    cases hgreeting
  rw [greeting_eq hlt] at hgreeting
  cases hgreeting
  rcases Nat.eq_zero_or_pos ids.length with hzero | hpos
  · -- no method at all: the server closes without an answer
    obtain rfl : ids = [] := List.length_eq_zero_iff.mp hzero
    have hnone : methodId ∉ proxy.authMethods := by
      rw [AList.mem_keys, ← hids.mem_iff]
      simp
    have hempty := serve_empty methodId later cuts
    simp only [List.length_nil, List.map_nil] at hserve
    rw [show UInt8.ofNat 0 = 0 from rfl, hempty] at hserve
    cases hserve
    have hlost := hrefused hnone
    simp only [Bool.false_eq_true, if_false, List.append_nil, receiveReply_closed] at hlost
    simp [SOCKS_PROXY_IO_ERROR, SOCKS_AUTH_NOT_SUPPORTED] at hlost
  · refine ⟨hpos, hlt, ?_⟩
    by_contra h
    push Not at h
    obtain ⟨h128, hregistered⟩ := h
    obtain ⟨input, -, hserve'⟩ := serve_greeting methodId later cuts hpos hlt
    rw [any_signed_large h128] at hserve'
    rw [hserve'] at hserve
    cases hserve
    exact absurd (hfound.mpr hregistered) (by simp)

/-- The two ends agree, for every table a client can configure, every order in
which it enumerates the methods, and every fragmentation, exactly when there
are 1 to 127 methods and the server's method, if registered, is below 128. -/
theorem negotiation_agrees_iff (doSocksAuthentication : A → Nat → Java (Option S))
    (authenticationNone : A) (calls : List (Int × Option A)) (ids : List Nat)
    (hids : ids.Perm (Socks5Proxy.configured authenticationNone calls).authMethods.keys)
    (methodId : Nat) (hmethod : methodId ≤ 254) (later reply : List UInt8)
    (cuts cuts' : List Nat) :
    Agreement doSocksAuthentication (Socks5Proxy.configured authenticationNone calls) ids
        methodId later reply cuts cuts' ↔
      0 < ids.length ∧ ids.length < 128 ∧
        (methodId < 128 ∨
          methodId ∉ (Socks5Proxy.configured authenticationNone calls).authMethods) := by
  constructor
  · exact small_of_agreement hids
  · rintro ⟨hpos, hlt, hsmall⟩
    exact agreement_of_small later reply cuts cuts' hids hmethod hpos hlt hsmall

/-- A client with methods 0 and 2, whose table enumerates 2 first, and a server
that wants 2. -/
theorem negotiation_agrees_userPassword :
    Agreement (fun (_ : Unit) _ => .ok (some ()))
      (Socks5Proxy.configured () [(2, some ())]) [2, 0] 2 [7] [] [1] [] :=
  (negotiation_agrees_iff _ () [(2, some ())] [2, 0] (by decide) 2 (by decide) [7] [] [1]
    []).mpr (by decide)

/-- A client that registered only method 128, and a server that wants 128. -/
theorem negotiation_disagrees_signed :
    ¬ Agreement (fun (_ : Unit) _ => .ok (some ()))
      (Socks5Proxy.configured () [(0, none), (128, some ())]) [128] 128 [] [] [] [] := by
  intro hagree
  have h := small_of_agreement (by decide) hagree
  revert h
  decide

end Agreement

end TorAndroid.Socks.Negotiation
