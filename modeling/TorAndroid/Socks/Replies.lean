import TorAndroid.Socks.MessageRoundTrip
import TorAndroid.Socks.Session

namespace TorAndroid.Socks.Replies

open TorAndroid.Lib.Fragments
open TorAndroid.Lib.GuardedRun
open TorAndroid.Lib.Throwing
open TorAndroid.Socks.Authenticator
open TorAndroid.Socks.Basic
open TorAndroid.Socks.Message
open TorAndroid.Socks.MessageRoundTrip
open TorAndroid.Socks.Requests
open TorAndroid.Socks.Session

def REPLY_REJECTED : Nat := 91

/-- The address field of a reply; no address is `0.0.0.0`. -/
def addressField (ip : Option InetAddress) : InetAddress := ip.getD (.v4 0 0 0 0)

/-- `new Socks5Message(cmd, ip, port)` for an address that may be null. -/
def Socks5Message.reply (command : Nat) (ip : Option InetAddress) (port : Nat) : List UInt8 :=
  Socks5Message.ofAddress command (addressField ip) port

/-- `new Socks4Message(cmd, ip, port)`. -/
def Socks4Message.reply (command : Nat) (ip : Option InetAddress) (port : Nat) : List UInt8 :=
  [0, UInt8.ofNat command] ++ portBytes port ++ (addressField ip).octets.take 4

/-- `new Socks5Message(cmd)`. -/
def Socks5Message.failure (command : Nat) : List UInt8 := [5, UInt8.ofNat command, 0]

/-- `new Socks4Message(cmd)`. -/
def Socks4Message.failure (command : Nat) : List UInt8 := [0, UInt8.ofNat command]

/-- The exceptions that `handleException` tells apart. -/
inductive Thrown
  | socks (errCode : Int)
  | noRouteToHost
  | connect
  | interrupted
  | other
deriving DecidableEq, Repr

def Thrown.ofKind : IOKind → Thrown
  | .socks errCode _ => .socks errCode
  | .interrupted => .interrupted
  | _ => .other

def Thrown.errCode : Thrown → Int
  | .socks errCode => errCode
  | .noRouteToHost => SOCKS_HOST_UNREACHABLE
  | .connect => SOCKS_CONNECTION_REFUSED
  | .interrupted => SOCKS_TTL_EXPIRE
  | .other => SOCKS_FAILURE

/-- The code that `handleException` sends. -/
def errorCode (e : Thrown) : Nat :=
  if e.errCode > SOCKS_ADDR_NOT_SUPPORTED ∨ e.errCode < 0 then SOCKS_FAILURE else e.errCode.toNat

/-- The message of `sendErrorMessage`. -/
def errorMessage (msg : ProxyMessage) (error_code : Nat) : List UInt8 :=
  match msg.messageClass with
  | .socks4 => Socks4Message.failure REPLY_REJECTED
  | .socks5 _ => Socks5Message.failure error_code

/-- The answer of `onBind` and `doAccept`, which go by the version of the request. -/
def bindResponse (msg : ProxyMessage) (ip : Option InetAddress) (port : Nat) : List UInt8 :=
  if msg.version = 5 then Socks5Message.reply SOCKS_SUCCESS ip port
  else Socks4Message.reply REPLY_OK ip port

/-- The answer of a handler: `onConnect` goes by the class of the request, and
`onUDP` knows SOCKS5 only. -/
def response (msg : ProxyMessage) (ip : Option InetAddress) (port : Nat) : Command → List UInt8
  | .connect =>
      match msg.messageClass with
      | .socks5 _ => Socks5Message.reply SOCKS_SUCCESS ip port
      | .socks4 => Socks4Message.reply REPLY_OK ip port
  | .bind => bindResponse msg ip port
  | .udpAssociate => Socks5Message.reply SOCKS_SUCCESS ip port

inductive MainPoint
  -- `handleRequest`, up to the reply of its handler.
  | handling
  -- The loop of `onBind` or `onUDP`.
  | waiting
  | piping
  -- `abort` is next.
  | leaving
  | ended
deriving DecidableEq, Repr

inductive AcceptPoint
  | unstarted
  -- `switch (mode)` in `run`.
  | dispatch
  | accepting
  -- `mode = PIPE_MODE`.
  | setMode
  | piping
  | leaving
  | ended
deriving DecidableEq, Repr

structure State where
  mode : Mode
  main : MainPoint
  accept : AcceptPoint
  replies : List (List UInt8)
deriving DecidableEq, Repr

def State.init : State := ⟨.start, .handling, .unstarted, []⟩

/-- One step of a thread. A handler gets as far as its reply, or an `IOException`
leaves it; `delivered` says whether the error message can be written. -/
inductive Action
  | replied (ip : Option InetAddress) (port : Nat)
  | mainThrows (e : Thrown) (delivered : Bool)
  -- An exception that is no `IOException`.
  | mainFails
  | mainReturns
  | mainAborts
  | acceptStarts
  | accepted (ip : Option InetAddress) (port : Nat)
  | acceptThrows (e : Thrown) (delivered : Bool)
  | acceptFails
  | acceptPipes
  | acceptReturns
  | acceptAborts
deriving DecidableEq

def State.write (s : State) (data : List UInt8) : State := { s with replies := s.replies ++ [data] }

/-- `handleException`, for a request that has been read. -/
def handleException (msg : ProxyMessage) (s : State) (e : Thrown) (delivered : Bool) : State :=
  if s.mode = .abort ∨ s.mode = .pipe then s
  else if delivered then s.write (errorMessage msg (errorCode e))
  else s

/-- What the main thread does once its handler has replied. -/
def State.handled (s : State) : Command → State
  | .connect => { s with mode := .pipe, main := .piping }
  | .bind => { s with mode := .accept, main := .waiting, accept := .dispatch }
  | .udpAssociate => { s with main := .waiting }

/-- The exceptions with which the main thread can leave its handler: that of
`handleRequest` if it throws, any one otherwise. -/
def mayThrow (handler : Java (Command × ProxyMessage)) (main : MainPoint) (e : Thrown) : Prop :=
  match main, handler with
  | .handling, .error (.io kind) => e = Thrown.ofKind kind
  | .handling, .error (.unchecked _) => False
  | .handling, .ok _ | .waiting, _ => True
  | _, _ => False

instance (handler : Java (Command × ProxyMessage)) (main : MainPoint) (e : Thrown) :
    Decidable (mayThrow handler main e) := by
  unfold mayThrow
  split <;> infer_instance

section Steps

variable (platform : Platform) (checkRequest : ProxyMessage → Bool) (msg : ProxyMessage)

def step (s : State) : Action → Option State
  | .replied ip port =>
      match s.main, handleRequest platform checkRequest msg with
      | .handling, .ok (command, msg) =>
          some ((s.write (response msg ip port command)).handled command)
      | _, _ => none
  | .mainThrows e delivered =>
      if mayThrow (handleRequest platform checkRequest msg) s.main e then
        some { handleException msg s e delivered with main := .leaving }
      else none
  | .mainFails =>
      if s.main ≠ .leaving ∧ s.main ≠ .ended then some { s with main := .leaving } else none
  | .mainReturns =>
      if s.main = .waiting ∨ s.main = .piping then some { s with main := .leaving } else none
  | .mainAborts =>
      if s.main = .leaving then some { s with mode := .abort, main := .ended } else none
  | .acceptStarts =>
      if s.accept = .dispatch then
        some { s with accept := if s.mode = .accept then .accepting else .ended }
      else none
  | .accepted ip port =>
      if s.accept = .accepting then
        some { s.write (bindResponse msg ip port) with accept := .setMode }
      else none
  | .acceptThrows e delivered =>
      if s.accept = .accepting ∨ s.accept = .piping then
        some { handleException msg s e delivered with accept := .leaving }
      else none
  | .acceptFails =>
      if s.accept = .accepting ∨ s.accept = .setMode ∨ s.accept = .piping then
        some { s with accept := .leaving }
      else none
  | .acceptPipes =>
      if s.accept = .setMode then some { s with mode := .pipe, accept := .piping } else none
  | .acceptReturns =>
      if s.accept = .piping then some { s with accept := .leaving } else none
  | .acceptAborts =>
      if s.accept = .leaving then some { s with mode := .abort, accept := .ended } else none

end Steps

/-- A whole reply of the protocol of the request: eight bytes with a zero version,
or a SOCKS5 message with a reply code that is read back whatever follows it. -/
def Complete (msg : ProxyMessage) (data : List UInt8) : Prop :=
  match msg.messageClass with
  | .socks4 => data.length = 8 ∧ data.head? = some 0
  | .socks5 _ =>
      (∃ code addrType rest, data = 5 :: code :: 0 :: addrType :: rest ∧ code.toNat ≤ 8) ∧
        ∀ (platform : Platform) (doResolveIP : Bool) (later : List UInt8) (input : ByteStream),
          input.content = data ++ later → ∃ msg input',
            Socks5Message.read platform doResolveIP false input = .ok (msg, input') ∧
              input'.content = later

section Formats

variable {msg : ProxyMessage}

/-- The version of a request is that of its class. -/
def VersionAgrees (msg : ProxyMessage) : Prop :=
  match msg.messageClass with
  | .socks4 => msg.version = 4
  | .socks5 _ => msg.version = 5

theorem complete_socks4_reply (h : msg.messageClass = .socks4) (command : Nat)
    (ip : Option InetAddress) (port : Nat) :
    Complete msg (Socks4Message.reply command ip port) := by
  obtain ⟨a, b, c, d, hfour⟩ := take_four (addressField ip)
  simp [Complete, h, Socks4Message.reply, hfour, portBytes]

theorem length_socks5_reply (command : Nat) (ip : Option InetAddress) (port : Nat) :
    10 ≤ (Socks5Message.reply command ip port).length := by
  simp only [Socks5Message.reply, Socks5Message.ofAddress, List.length_append, List.length_cons,
    List.length_nil, portBytes]
  rcases (addressField ip).valid with hlen | hlen <;> omega

theorem complete_socks5_reply {addrType : Nat} (h : msg.messageClass = .socks5 addrType)
    {command : Nat} (hcommand : command ≤ 8) (ip : Option InetAddress) (port : Nat) :
    Complete msg (Socks5Message.reply command ip port) := by
  have hcode : (UInt8.ofNat command).toNat ≤ 8 := by
    rw [toNat_command (by omega)]
    exact hcommand
  simp only [Complete, h]
  refine ⟨⟨UInt8.ofNat command, _, _, rfl, hcode⟩, ?_⟩
  intro platform doResolveIP later input hcontent
  obtain ⟨input', hread, hrest⟩ := read_of_readsAddress doResolveIP false
    (by simp) (readsAddress_octets platform (addressField ip))
    (show input.content = 5 :: UInt8.ofNat command :: 0 ::
        (if (addressField ip).octets.length = 4 then 1 else 4) ::
        ((addressField ip).octets ++ toByte ((port : Int) / 256) :: toByte port :: later) by
      simp [hcontent, Socks5Message.reply, Socks5Message.ofAddress, portBytes])
  exact ⟨_, input', hread, hrest⟩

theorem not_complete_errorMessage (msg : ProxyMessage) (error_code : Nat) :
    ¬ Complete msg (errorMessage msg error_code) := by
  cases hclass : msg.messageClass with
  | socks4 => simp [Complete, errorMessage, hclass, Socks4Message.failure]
  | socks5 addrType =>
      intro h
      simp only [Complete, hclass, errorMessage, Socks5Message.failure] at h
      obtain ⟨⟨code, addrType', rest, hdata, -⟩, -⟩ := h
      cases hdata

theorem not_complete_socks5_reply (h : msg.messageClass = .socks4) (command : Nat)
    (ip : Option InetAddress) (port : Nat) :
    ¬ Complete msg (Socks5Message.reply command ip port) := by
  have hlength := length_socks5_reply command ip port
  intro hcomplete
  simp only [Complete, h] at hcomplete
  omega

theorem complete_bindResponse (h : VersionAgrees msg) (ip : Option InetAddress) (port : Nat) :
    Complete msg (bindResponse msg ip port) := by
  cases hclass : msg.messageClass with
  | socks4 =>
      simp only [VersionAgrees, hclass] at h
      rw [bindResponse, if_neg (by omega)]
      exact complete_socks4_reply hclass REPLY_OK ip port
  | socks5 addrType =>
      simp only [VersionAgrees, hclass] at h
      rw [bindResponse, if_pos h]
      exact complete_socks5_reply hclass (by decide) ip port

theorem complete_response_iff (h : VersionAgrees msg) (ip : Option InetAddress) (port : Nat)
    (command : Command) :
    Complete msg (response msg ip port command) ↔
      (msg.messageClass = .socks4 → command ≠ .udpAssociate) := by
  cases command with
  | connect =>
      cases hclass : msg.messageClass with
      | socks4 => simp [response, hclass, complete_socks4_reply hclass]
      | socks5 addrType =>
          simp [response, hclass, complete_socks5_reply hclass (show SOCKS_SUCCESS ≤ 8 by decide)]
  | bind => simp [response, complete_bindResponse h]
  | udpAssociate =>
      cases hclass : msg.messageClass with
      | socks4 => simp [response, not_complete_socks5_reply hclass]
      | socks5 addrType =>
          simp [response, complete_socks5_reply hclass (show SOCKS_SUCCESS ≤ 8 by decide)]

end Formats

section Runs

variable {platform : Platform} {checkRequest : ProxyMessage → Bool} {msg : ProxyMessage}

theorem handleRequest_ok {command : Command} {msg' : ProxyMessage}
    (h : handleRequest platform checkRequest msg = .ok (command, msg')) :
    (∃ ip, msg' = { msg with ip := some ip }) ∧
      (command = .udpAssociate ↔ msg.command = SOCKS_CMD_UDP_ASSOCIATE) := by
  unfold handleRequest at h
  split at h
  · simp [throwSocks, lookupErrorString, lookupMessage, SOCKS_FAILURE, serverReplyMessage] at h
  · obtain ⟨ip, -, h⟩ := bind_eq_ok.mp h
    simp only at h
    split at h
    · rename_i hcommand
      cases h
      exact ⟨⟨ip, rfl⟩, by rw [hcommand]; decide⟩
    · split at h
      · rename_i hcommand
        cases h
        exact ⟨⟨ip, rfl⟩, by rw [hcommand]; decide⟩
      · split at h
        · rename_i hcommand
          cases h
          exact ⟨⟨ip, rfl⟩, by simp [hcommand]⟩
        · simp [throwSocks, lookupErrorString, lookupMessage, SOCKS_CMD_NOT_SUPPORTED,
            serverReplyMessage] at h

/-- What `handleException` writes. -/
def reported (msg : ProxyMessage) (s : State) (e : Thrown) (delivered : Bool) :
    List (List UInt8) :=
  if (s.mode = .abort ∨ s.mode = .pipe) ∨ delivered = false then []
  else [errorMessage msg (errorCode e)]

/-- What a step writes to the client. -/
def written (platform : Platform) (checkRequest : ProxyMessage → Bool) (msg : ProxyMessage)
    (s : State) : Action → List (List UInt8)
  | .replied ip port =>
      match handleRequest platform checkRequest msg with
      | .ok (command, msg) => [response msg ip port command]
      | .error _ => []
  | .accepted ip port => [bindResponse msg ip port]
  | .mainThrows e delivered | .acceptThrows e delivered => reported msg s e delivered
  | _ => []

theorem handleException_replies (s : State) (e : Thrown) (delivered : Bool) :
    (handleException msg s e delivered).replies = s.replies ++ reported msg s e delivered := by
  unfold handleException reported
  by_cases hmode : s.mode = .abort ∨ s.mode = .pipe
  · simp [hmode]
  · cases delivered <;> simp [hmode, State.write]

theorem handled_replies (s : State) (command : Command) :
    (s.handled command).replies = s.replies := by
  cases command <;> rfl

theorem step_replies {s s' : State} {a : Action}
    (h : step platform checkRequest msg s a = some s') :
    s'.replies = s.replies ++ written platform checkRequest msg s a := by
  cases a with
  | replied ip port =>
      simp only [step] at h
      split at h
      · rename_i command msg' hmain hhandler
        cases h
        simp [written, hhandler, handled_replies, State.write]
      · cases h
  | mainThrows e delivered =>
      simp only [step] at h
      split at h
      · cases h
        exact handleException_replies s e delivered
      · cases h
  | acceptThrows e delivered =>
      simp only [step] at h
      split at h
      · cases h
        exact handleException_replies s e delivered
      · cases h
  | accepted ip port =>
      simp only [step] at h
      split at h
      · cases h
        rfl
      · cases h
  | mainFails | mainReturns | mainAborts | acceptStarts | acceptFails | acceptPipes
    | acceptReturns | acceptAborts =>
      simp only [step] at h
      split at h
      · cases h
        simp [written]
      · cases h

/-- The step does not report an exception to the client, and does not answer a
SOCKS4 request for UDP ASSOCIATE. -/
def Answerable (msg : ProxyMessage) (s : State) : Action → Prop
  | .mainThrows _ delivered | .acceptThrows _ delivered =>
      (s.mode = .abort ∨ s.mode = .pipe) ∨ delivered = false
  | .replied _ _ => msg.messageClass = .socks4 → msg.command ≠ SOCKS_CMD_UDP_ASSOCIATE
  | _ => True

theorem complete_reported_iff (s : State) (e : Thrown) (delivered : Bool) :
    (∀ data ∈ reported msg s e delivered, Complete msg data) ↔
      (s.mode = .abort ∨ s.mode = .pipe) ∨ delivered = false := by
  unfold reported
  split
  · rename_i hquiet
    simp [hquiet]
  · rename_i hloud
    simp [hloud, not_complete_errorMessage]

theorem complete_written_iff (hversion : VersionAgrees msg) {s s' : State} {a : Action}
    (h : step platform checkRequest msg s a = some s') :
    (∀ data ∈ written platform checkRequest msg s a, Complete msg data) ↔
      Answerable msg s a := by
  cases a with
  | replied ip port =>
      simp only [step] at h
      split at h
      · rename_i command msg' hmain hhandler
        obtain ⟨⟨ip', rfl⟩, hudp⟩ := handleRequest_ok hhandler
        have hiff := complete_response_iff
          (show VersionAgrees { msg with ip := some ip' } from hversion) ip port command
        simp only [written, hhandler, List.mem_singleton, forall_eq, Answerable]
        rw [Ne, ← hudp]
        exact hiff
      · cases h
  | mainThrows e delivered => exact complete_reported_iff s e delivered
  | acceptThrows e delivered => exact complete_reported_iff s e delivered
  | accepted ip port => simp [written, Answerable, complete_bindResponse hversion]
  | mainFails | mainReturns | mainAborts | acceptStarts | acceptFails | acceptPipes
    | acceptReturns | acceptAborts => simp [written, Answerable]

end Runs

theorem Socks5Message.version_of_read {platform : Platform} {doResolveIP : Bool}
    {input input' : ByteStream} {msg : ProxyMessage} {version : UInt8} {rest : List UInt8}
    (hcontent : input.content = version :: rest)
    (h : Socks5Message.read platform doResolveIP false input = .ok (msg, input')) :
    msg.version = version.toNat ∧ ∃ addrType, msg.messageClass = .socks5 addrType := by
  obtain ⟨input₁, hversion, -⟩ := readUnsignedByte_cons hcontent
  rw [Socks5Message.read, hversion, ok_bind] at h
  obtain ⟨⟨command, input₂⟩, -, h⟩ := bind_eq_ok.mp h
  simp only [Bool.false_eq_true, false_and, if_false] at h
  obtain ⟨⟨reserved, input₃⟩, -, h⟩ := bind_eq_ok.mp h
  obtain ⟨⟨addrType, input₄⟩, -, h⟩ := bind_eq_ok.mp h
  obtain ⟨⟨host, input₅⟩, -, h⟩ := bind_eq_ok.mp h
  obtain ⟨⟨port, input₆⟩, -, h⟩ := bind_eq_ok.mp h
  cases h
  exact ⟨rfl, addrType, rfl⟩

theorem versionAgrees_of_readMsg {platform : Platform} {doResolveIP : Bool}
    {input input' : ByteStream} {msg : ProxyMessage}
    (h : readMsg platform doResolveIP input = .ok (msg, input')) : VersionAgrees msg := by
  rcases hcontent : input.content with _ | ⟨version, tail⟩
  · simp only [readMsg, ByteStream.read_nil hcontent, reduceCtorEq, if_false] at h
    split at h <;> cases h
  · obtain ⟨input₁, hstart, hread⟩ := readMsg_cons platform doResolveIP hcontent
    rw [hread] at h
    split at h
    · rename_i hversion
      obtain ⟨hfive, addrType, hclass⟩ := Socks5Message.version_of_read hstart h
      simp [VersionAgrees, hclass, hfive, hversion]
    · split at h
      · rename_i hversion
        obtain ⟨version', command, high, low, a, b, c, d, rest, hbytes⟩ :=
          Socks4Message.content_of_read h
        obtain ⟨input₂, hrequest, -⟩ := Socks4Message.read_request platform hbytes
        rw [h] at hrequest
        cases hrequest
        rw [hstart] at hbytes
        cases hbytes
        simp [VersionAgrees, Socks4Message.request, hversion]
      · cases h

/-- The replies of a session are whole replies exactly when no exception is
reported to the client and no SOCKS4 request for UDP ASSOCIATE is answered: every
error message stops short of its address. -/
theorem replies_complete_iff (platform : Platform) (doResolveIP : Bool)
    (checkRequest : ProxyMessage → Bool) {input input' : ByteStream} {msg : ProxyMessage}
    (hmsg : readMsg platform doResolveIP input = .ok (msg, input')) {hist : List Action}
    {s : State} (hrun : Run (step platform checkRequest msg) Always .init hist s) :
    (∀ data ∈ s.replies, Complete msg data) ↔
      Run (step platform checkRequest msg) (Answerable msg) .init hist s := by
  have hversion := versionAgrees_of_readMsg hmsg
  induction hrun with
  | start =>
      constructor
      · intro _
        exact .start
      · intro _ data hdata
        cases hdata
  | @next hist s s' a hprev _ hstep ih =>
      have hwritten := complete_written_iff hversion hstep
      rw [step_replies hstep]
      constructor
      · intro hcomplete
        refine .next (ih.mp ?_) (hwritten.mp ?_) hstep
        · intro data hdata
          exact hcomplete data (List.mem_append_left _ hdata)
        · intro data hdata
          exact hcomplete data (List.mem_append_right _ hdata)
      · intro hguarded data hdata
        cases hguarded with
        | next hbefore hok hstep' =>
            obtain rfl := hbefore.state_unique hprev
            rcases List.mem_append.mp hdata with hdata | hdata
            · exact ih.mpr hbefore data hdata
            · exact hwritten.mpr hok data hdata

/-- The request of a SOCKS5 client for a command and `10.0.0.1:80`. -/
def requestFor (command : Nat) : ProxyMessage :=
  ⟨.socks5 1, 5, command, some (.v4 10 0 0 1), some "10.0.0.1", 80, none⟩

/-- The session after its first reply to a request to connect. -/
def connectedState : State :=
  ⟨.pipe, .piping, .unstarted, [[5, 0, 0, 1, 10, 0, 0, 9, 4, 210]]⟩

theorem replies_complete_connect :
    connectedState.replies ≠ [] ∧
      ∀ data ∈ connectedState.replies, Complete (requestFor 1) data :=
  ⟨by decide, (replies_complete_iff .latin1 true checkRequest
      (show readMsg .latin1 true (.ofBytes [5, 1, 0, 1, 10, 0, 0, 1, 0, 80] []) =
        .ok (requestFor 1, .ofBytes [] []) by decide)
      (.next .start trivial
        (show step .latin1 checkRequest (requestFor 1) .init
          (.replied (some (.v4 10 0 0 9)) 1234) = some connectedState by decide))).mpr
    (.next .start (by simp [Answerable, requestFor])
      (show step .latin1 checkRequest (requestFor 1) .init
        (.replied (some (.v4 10 0 0 9)) 1234) = some connectedState by decide))⟩

theorem reply_incomplete_unsupportedCommand :
    readMsg .latin1 true (.ofBytes [5, 9, 0, 1, 10, 0, 0, 1, 0, 80] []) =
        .ok (requestFor 9, .ofBytes [] []) ∧
      ∃ s, Run (step .latin1 checkRequest (requestFor 9)) Always .init
          [.mainThrows (.socks 7) true] s ∧
        ¬ ∀ data ∈ s.replies, Complete (requestFor 9) data := by
  refine ⟨by decide, ⟨.start, .leaving, .unstarted, [[5, 7, 0]]⟩,
    .next .start trivial (by decide), ?_⟩
  intro h
  exact not_complete_errorMessage (requestFor 9) 7 (h [5, 7, 0] (by decide))

end TorAndroid.Socks.Replies
