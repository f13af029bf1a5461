import Mathlib.Tactic.IntervalCases
import TorAndroid.Socks.Dial

namespace TorAndroid.Socks.Dial

open TorAndroid.Lib.Fragments
open TorAndroid.Lib.Stateful
open TorAndroid.Lib.Throwing
open TorAndroid.Socks.Basic
open TorAndroid.Socks.Message
open TorAndroid.Socks.Negotiation

/-- The bytes left when an authentication has succeeded. -/
def authenticated (env : Env) (level : Nat) (auth : Authentication) (method : UInt8)
    (bytes : List UInt8) : Option (List UInt8) :=
  match auth with
  | .none => if method = 0 ∧ env.fault level .authStreams = none then some bytes else none
  | .userPassword _ _ =>
      if method = 2 ∧ env.fault level .authStreams = none ∧
          env.fault level .authRequest = none ∧ env.fault level .authReply = none then
        match bytes with
        | _ :: status :: rest => if status = 0 then some rest else none
        | _ => none
      else none

/-- A SOCKS4 reply that grants the request. -/
def granted4 (env : Env) : List UInt8 → Option (Option String × List UInt8)
  | _ :: code :: _ :: _ :: a :: b :: c :: d :: rest =>
      if code = 90 then some (some (env.platform.getHostName (.v4 a b c d)), rest) else none
  | _ => none

/-- An address of a given length, the port, and the bytes after them. -/
def addressed (host : List UInt8 → Option String) (len : Nat) (bytes : List UInt8) :
    Option (Option String × List UInt8) :=
  if len + 2 ≤ bytes.length then some (host (bytes.take len), bytes.drop (len + 2)) else none

/-- A SOCKS5 reply that grants the request. The host of an IPv6 address is
null. -/
def granted5 (env : Env) : List UInt8 → Option (Option String × List UInt8)
  | _ :: code :: _ :: addrType :: rest =>
      if code ≠ 0 then none
      else if addrType = 1 then addressed (fun addr => some (bytes2IPV4 addr)) 4 rest
      else if addrType = 4 then addressed (fun _ => none) 16 rest
      else if addrType = 3 then
        match rest with
        | len :: rest =>
            addressed (fun addr => some (env.platform.newString addr)) len.toNat rest
        | [] => none
      else none
  | _ => none

namespace Proxy

/-- The bytes left when the proxy has accepted the greeting and the
authentication. -/
def afterGreeting (env : Env) (level : Nat) (p : Proxy) (bytes : List UInt8) :
    Option (List UInt8) :=
  match p.kind with
  | .socks4 _ => some bytes
  | .socks5 methods _ =>
      if env.fault level .greeting = none ∧ env.fault level .selection = none then
        match bytes with
        | _ :: method :: rest =>
            (methods.getAuthenticationMethod method.toNat).bind fun auth =>
              authenticated env level auth method rest
        | _ => none
      else none

/-- The host of a reply that grants the request, and the bytes after the reply. -/
def granted (env : Env) (p : Proxy) (bytes : List UInt8) :
    Option (Option String × List UInt8) :=
  match p.kind with
  | .socks4 _ => granted4 env bytes
  | .socks5 _ _ => granted5 env bytes

/-- The greeting of a proxy; SOCKS4 has none. -/
def greetingOf (p : Proxy) : Java (List UInt8) :=
  match p.kind with
  | .socks4 _ => .ok []
  | .socks5 methods _ => greeting methods.authMethods.keys

/-- The number of methods fits into a signed byte. -/
def Greetable (p : Proxy) : Prop :=
  match p.kind with
  | .socks4 _ => True
  | .socks5 methods _ => methods.authMethods.keys.length < 128

/-- A SOCKS5 reply with the code just past the table of `SocksException`. -/
def BadCode (p : Proxy) (bytes : List UInt8) : Prop :=
  match p.kind, bytes with
  | .socks5 _ _, _ :: code :: _ => code = 9
  | _, _ => False

instance (p : Proxy) (bytes : List UInt8) : Decidable (p.BadCode bytes) := by
  unfold BadCode
  split <;> infer_instance

end Proxy

/-- How a call ends: with a reply, with a `SocksException`, or with another
exception. -/
inductive Outcome
  | passes (host : Option String) (rest : List UInt8)
  | refused
  | escapes (e : Throwable)

/-- How a call on a proxy ends that is connected and has `bytes` to read. -/
def Proxy.outcome (env : Env) (level : Nat) (p : Proxy) (command : Nat) (dest : Dest) (port : Int)
    (bytes : List UInt8) : Outcome :=
  match p.greetingOf with
  | .error e => .escapes e
  | .ok _ =>
      match p.afterGreeting env level bytes with
      | none => .refused
      | some bytes =>
          match p.formMessage env command dest port with
          | .error e => .escapes e
          | .ok none => .refused
          | .ok (some _) =>
              if env.fault level .request = none ∧ env.fault level .reply = none then
                match p.granted env bytes with
                | some (host, rest) => .passes host rest
                | none =>
                    if p.BadCode bytes then .escapes (.unchecked .indexOutOfBounds) else .refused
              else .refused

def World.record (events : List Event) (w : World) : World :=
  { w with trace := w.trace ++ events }

/-- Events that only send greetings and authentications on a socket. -/
def Handshake (s : Nat) (events : List Event) : Prop :=
  ∀ event ∈ events, ∃ bytes,
    event = .sent s (.greeting bytes) ∨ event = .sent s (.authentication bytes)

/-- The world after a failed greeting: the socket may be closed already. -/
def MaybeClosed (level : Nat) (w w' : World) : Prop :=
  w' = w ∨ w' = closeSocket level w ∨ w' = endSession level w

def IsSocks : Throwable → Prop
  | .io (.socks _ _) => True
  | _ => False

section Steps

variable {env : Env} {level : Nat} {point : Point} {s : Nat} {message : Sent} {w : World}

@[simp] theorem record_nil (w : World) : w.record [] = w := by
  simp [World.record]

@[simp] theorem record_record (events events' : List Event) (w : World) :
    (w.record events).record events' = w.record (events ++ events') := by
  simp [World.record]

theorem handshake_nil : Handshake s [] := by
  intro event hevent
  cases hevent

theorem attempt_ok (h : env.fault level point = none) :
    attempt env level point w = (.ok (), w) := by
  simp [attempt, h]

theorem attempt_fault {kind : IOKind} (h : env.fault level point = some kind) :
    attempt env level point w = (.error (.io kind), w) := by
  simp [attempt, h]

theorem send_ok (h : env.fault level point = none) :
    send env level point s message w = (.ok (), w.record [.sent s message]) := by
  rw [send, Act.bind_ok (attempt_ok h)]
  rfl

theorem send_fault {kind : IOKind} (h : env.fault level point = some kind) :
    send env level point s message w = (.error (.io kind), w) := by
  rw [send, Act.bind_error (attempt_fault h)]

theorem rethrow_isSocks {α : Type} (kind : IOKind) :
    ∃ e, (rethrow (.io kind) : Java α) = .error e ∧ IsSocks e := by
  cases kind <;> exact ⟨_, rfl, trivial⟩

end Steps

section Greeting

variable (env : Env) (level : Nat) (session : Session) (w : World)

theorem content_eq_nil_of_read {input rest : ByteStream} (h : input.read = (none, rest)) :
    input.content = [] := by
  rcases hcontent : input.content with _ | ⟨b, tail⟩
  · rfl
  · obtain ⟨input', hread, -⟩ := ByteStream.read_cons hcontent
    rw [h] at hread
    cases hread

theorem readStatus_eq (input : ByteStream) :
    (readStatus input).map ByteStream.content =
      match input.content with
      | _ :: status :: rest => if status = 0 then some rest else none
      | _ => none := by
  unfold readStatus
  rcases hversion : input.read with ⟨_ | version, input₁⟩
  · rw [content_eq_nil_of_read hversion]
    rfl
  · rw [ByteStream.content_of_read hversion]
    rcases hstatus : input₁.read with ⟨_ | status, input₂⟩
    · simp only [hstatus, content_eq_nil_of_read hstatus]
      rfl
    · simp only [hstatus, ByteStream.content_of_read hstatus]
      split <;> rfl

/-- How `doSocksAuthentication` ends: with null or an `IOException` unless the
authentication succeeds. -/
theorem doSocksAuthentication_run (auth : Authentication) (method : UInt8) :
    ∃ r events, doSocksAuthentication env level auth method.toNat session w =
        (r, w.record events) ∧ Handshake session.socket events ∧
      ((∃ input, r = .ok (some input) ∧
          authenticated env level auth method session.input.content = some input.content) ∨
        ((r = .ok none ∨ ∃ kind, r = .error (.io kind)) ∧
          authenticated env level auth method session.input.content = none)) := by
  have hzero : method.toNat = 0 ↔ method = 0 := by
    rw [← UInt8.toNat_inj]
    rfl
  have htwo : method.toNat = 2 ↔ method = 2 := by
    rw [← UInt8.toNat_inj]
    rfl
  cases auth with
  | none =>
      simp only [doSocksAuthentication, authenticated, ne_eq, hzero]
      by_cases hmethod : method = 0
      · simp only [hmethod, not_true_eq_false, if_false, true_and]
        cases hstreams : env.fault level .authStreams with
        | none =>
            rw [Act.bind_ok (attempt_ok hstreams)]
            exact ⟨_, [], by simp, handshake_nil, .inl ⟨session.input, rfl, by simp⟩⟩
        | some kind =>
            rw [Act.bind_error (attempt_fault hstreams)]
            exact ⟨_, [], by simp, handshake_nil, .inr ⟨.inr ⟨kind, rfl⟩, by simp⟩⟩
      · simp only [hmethod, not_false_eq_true, if_true, false_and]
        exact ⟨_, [], by simp, handshake_nil, .inr ⟨.inl rfl, by simp⟩⟩
  | userPassword userName password =>
      simp only [doSocksAuthentication, authenticated, ne_eq, htwo]
      by_cases hmethod : method = 2
      · simp only [hmethod, not_true_eq_false, if_false, true_and]
        cases hstreams : env.fault level .authStreams with
        | some kind =>
            rw [Act.bind_error (attempt_fault hstreams)]
            exact ⟨_, [], by simp, handshake_nil, .inr ⟨.inr ⟨kind, rfl⟩, by simp⟩⟩
        | none =>
            rw [Act.bind_ok (attempt_ok hstreams)]
            cases hrequest : env.fault level .authRequest with
            | some kind =>
                rw [Act.bind_error (send_fault hrequest)]
                exact ⟨_, [], by simp, handshake_nil, .inr ⟨.inr ⟨kind, rfl⟩, by simp⟩⟩
            | none =>
                rw [Act.bind_ok (send_ok hrequest)]
                have hsent : Handshake session.socket
                    [.sent session.socket
                      (.authentication (formRequest env userName password))] := by
                  intro event hevent
                  exact ⟨_, .inr (List.mem_singleton.mp hevent)⟩
                cases hreply : env.fault level .authReply with
                | some kind =>
                    rw [Act.bind_error (attempt_fault hreply)]
                    exact ⟨_, _, rfl, hsent, .inr ⟨.inr ⟨kind, rfl⟩, by simp⟩⟩
                | none =>
                    rw [Act.bind_ok (attempt_ok hreply)]
                    simp only [and_self, if_true, ← readStatus_eq]
                    cases hstatus : readStatus session.input with
                    | none => exact ⟨_, _, rfl, hsent, .inr ⟨.inl rfl, rfl⟩⟩
                    | some input => exact ⟨_, _, rfl, hsent, .inl ⟨input, rfl, rfl⟩⟩
      · simp only [hmethod, not_false_eq_true, if_true, false_and, if_false]
        exact ⟨_, [], by simp, handshake_nil, .inr ⟨.inl rfl, trivial⟩⟩

theorem readSelection_eq (input : ByteStream) :
    (readSelection input = none ∧ ∀ version method rest,
      input.content ≠ version :: method :: rest) ∨
    ∃ version method rest, readSelection input = some (method, rest) ∧
      input.content = version :: method :: rest.content := by
  unfold readSelection
  rcases hversion : input.read with ⟨_ | version, input₁⟩
  · refine .inl ⟨by rcases input₁.read with ⟨_ | _, _⟩ <;> rfl, ?_⟩
    simp [content_eq_nil_of_read hversion]
  · rw [ByteStream.content_of_read hversion]
    dsimp only
    rcases hmethod : input₁.read with ⟨_ | method, input₂⟩
    · refine .inl ⟨rfl, ?_⟩
      simp [content_eq_nil_of_read hmethod]
    · rw [ByteStream.content_of_read hmethod]
      exact .inr ⟨version, method, input₂, rfl, rfl⟩

theorem negotiate_run {p : Proxy} {methods : Socks5Proxy Authentication} {resolve : Bool}
    (hkind : p.kind = .socks5 methods resolve)
    (hcount : methods.authMethods.keys.length < 128) :
    (∃ input events, negotiate env level methods session w =
        (.ok ⟨session.socket, input⟩, w.record events) ∧ Handshake session.socket events ∧
        p.afterGreeting env level session.input.content = some input.content) ∨
      ∃ kind events w', negotiate env level methods session w = (.error (.io kind), w') ∧
        Handshake session.socket events ∧ MaybeClosed level (w.record events) w' ∧
        p.afterGreeting env level session.input.content = none := by
  simp only [negotiate, Proxy.afterGreeting, hkind, greeting_eq hcount, Act.lift_ok_bind_run]
  cases hgreeting : env.fault level .greeting with
  | some kind =>
      rw [Act.bind_error (send_fault hgreeting)]
      exact .inr ⟨kind, [], w, rfl, handshake_nil, .inl (by simp), by simp⟩
  | none =>
      rw [Act.bind_ok (send_ok hgreeting)]
      set hello := [Event.sent session.socket (.greeting (5 ::
        UInt8.ofNat methods.authMethods.keys.length ::
          methods.authMethods.keys.map UInt8.ofNat))] with hhello
      have hsent : Handshake session.socket hello := by
        intro event hevent
        exact ⟨_, .inl (List.mem_singleton.mp hevent)⟩
      cases hselection : env.fault level .selection with
      | some kind =>
          rw [Act.bind_error (attempt_fault hselection)]
          exact .inr ⟨kind, _, _, rfl, hsent, .inl rfl, by simp⟩
      | none =>
          rw [Act.bind_ok (attempt_ok hselection)]
          simp only [and_self, if_true]
          obtain ⟨hread, hshort⟩ | ⟨version, method, input, hread, hcontent⟩ :=
            readSelection_eq session.input
          · simp only [hread]
            exact .inr ⟨_, hello, _, rfl, hsent, .inr (.inr rfl), trivial⟩
          · simp only [hread, hcontent]
            by_cases h255 : method = 255
            · subst h255
              refine .inr ⟨_, hello, _, rfl, hsent, .inr (.inl rfl), ?_⟩
              rw [Option.bind_eq_none_iff]
              intro auth _
              cases auth <;> simp [authenticated]
            · simp only [h255, if_false]
              cases hauth : methods.getAuthenticationMethod method.toNat with
              | none => exact .inr ⟨_, hello, _, rfl, hsent, .inl rfl, rfl⟩
              | some auth =>
                  obtain ⟨r, events, hrun, hevents, hend⟩ :=
                    doSocksAuthentication_run env level ⟨session.socket, input⟩ (w.record hello)
                      auth method
                  have hall : Handshake session.socket (hello ++ events) := by
                    intro event hevent
                    rcases List.mem_append.mp hevent with hevent | hevent
                    · exact hsent event hevent
                    · exact hevents event hevent
                  rw [record_record] at hrun
                  dsimp only
                  rcases hend with ⟨input', rfl, hafter⟩ | ⟨rfl | ⟨kind, rfl⟩, hafter⟩
                  · refine .inl ⟨input', _, ?_, hall, hafter⟩
                    rw [Act.bind_ok hrun]
                    rfl
                  · refine .inr ⟨.socks SOCKS_AUTH_FAILURE "Authentication failed", _, _, ?_, hall,
                      .inl rfl, hafter⟩
                    rw [Act.bind_ok hrun]
                    rfl
                  · refine .inr ⟨kind, _, _, ?_, hall, .inl rfl, hafter⟩
                    rw [Act.bind_error hrun]

theorem Proxy.greet_run {p : Proxy} (hgreetable : p.Greetable) :
    (∃ input events, p.greet env level session w =
        (.ok ⟨session.socket, input⟩, w.record events) ∧ Handshake session.socket events ∧
        p.afterGreeting env level session.input.content = some input.content) ∨
      ∃ e events w', p.greet env level session w = (.error e, w') ∧ IsSocks e ∧
        Handshake session.socket events ∧ MaybeClosed level (w.record events) w' ∧
        p.afterGreeting env level session.input.content = none := by
  cases hkind : p.kind with
  | socks4 user =>
      refine .inl ⟨session.input, [], ?_, handshake_nil, ?_⟩
      · simp [Proxy.greet, hkind]
      · simp [Proxy.afterGreeting, hkind]
  | socks5 methods resolve =>
      have hcount : methods.authMethods.keys.length < 128 := by
        simpa [Proxy.Greetable, hkind] using hgreetable
      simp only [Proxy.greet, hkind, Dial.greet]
      obtain ⟨input, events, hrun, hevents, hafter⟩ |
        ⟨kind, events, w', hrun, hevents, hclosed, hafter⟩ :=
          negotiate_run env level session w hkind hcount
      · exact .inl ⟨input, events, Act.handle_ok hrun, hevents, hafter⟩
      · obtain ⟨e, he, hsocks⟩ := rethrow_isSocks (α := Session) kind
        refine .inr ⟨e, events, w', ?_, hsocks, hevents, hclosed, hafter⟩
        rw [Act.handle_error hrun, Act.lift_run, he]

end Greeting

section Reply

variable (env : Env)

theorem readUnsignedByte_nil {input : ByteStream} (h : input.content = []) :
    readUnsignedByte input = .error (.io .eof) := by
  simp [readUnsignedByte, ByteStream.read_nil h]

theorem readFully_short {input : ByteStream} {len : Nat} (h : input.content.length < len) :
    Message.readFully input len = .error (.io .eof) := by
  rw [Message.readFully, ByteStream.readFully_short h]

/-- Exact reads of a field, as far as the stream goes. -/
theorem readFully_eq (input : ByteStream) (len : Nat) :
    (input.content.length < len ∧ Message.readFully input len = .error (.io .eof)) ∨
      ∃ input', Message.readFully input len = .ok (input.content.take len, input') ∧
        input'.content = input.content.drop len ∧ len ≤ input.content.length := by
  by_cases hlen : input.content.length < len
  · exact .inl ⟨hlen, readFully_short hlen⟩
  · have hsplit : input.content = input.content.take len ++ input.content.drop len := by simp
    obtain ⟨input', hread, hrest⟩ := readFully_content hsplit
    rw [List.length_take, Nat.min_eq_left (by omega)] at hread
    exact .inr ⟨input', hread, hrest, by omega⟩

theorem readUnsignedShort_eq (input : ByteStream) :
    (input.content.length < 2 ∧ readUnsignedShort input = .error (.io .eof)) ∨
      ∃ port input', readUnsignedShort input = .ok (port, input') ∧
        input'.content = input.content.drop 2 ∧ 2 ≤ input.content.length := by
  rcases hcontent : input.content with _ | ⟨high, _ | ⟨low, rest⟩⟩
  · exact .inl ⟨by simp, by simp [readUnsignedShort, readUnsignedByte_nil hcontent]⟩
  · obtain ⟨input', hhigh, hrest⟩ := readUnsignedByte_cons hcontent
    exact .inl ⟨by simp, by simp [readUnsignedShort, hhigh, readUnsignedByte_nil hrest]⟩
  · obtain ⟨input', hread, hrest⟩ := readUnsignedShort_cons hcontent
    exact .inr ⟨_, input', hread, by simp [hrest], by simp⟩

theorem throwSocks_command {α : Type} {command : Nat} (h : command < 256) (hne : command ≠ 9) :
    ∃ kind, (throwSocks command : Java α) = .error (.io kind) := by
  by_cases hsmall : command < 9
  · interval_cases command <;> exact ⟨_, rfl⟩
  · refine ⟨.socks command "Unknown error message", ?_⟩
    have hlocal : command / 65536 = 0 := by omega
    have hlarge : ¬ command ≤ serverReplyMessage.length := by
      simp only [serverReplyMessage, List.length_cons, List.length_nil]
      omega
    simp [throwSocks, lookupErrorString, lookupMessage, hlocal, hlarge]

theorem replyText_ok (command : Nat) : ∃ text, replyText command = .ok text := by
  unfold replyText
  split
  · rename_i h
    obtain ⟨hlow, hhigh⟩ := h
    simp only [REPLY_OK, REPLY_BAD_IDENTD] at hlow hhigh
    interval_cases command <;> exact ⟨_, rfl⟩
  · exact ⟨_, rfl⟩

/-- How the reading of a reply ends. -/
inductive Replied (p : Proxy) (input : ByteStream) : Prop
  | granted (reply : ProxyMessage) (rest : ByteStream)
      (hread : p.readReply env input = .ok (reply, rest))
      (hgranted : p.granted env input.content = some (reply.host, rest.content))
  | refused (kind : IOKind) (hread : p.readReply env input = .error (.io kind))
      (hgranted : p.granted env input.content = none) (hcode : ¬ p.BadCode input.content)
  | badCode (hread : p.readReply env input = .error (.unchecked .indexOutOfBounds))
      (hgranted : p.granted env input.content = none) (hcode : p.BadCode input.content)

theorem bytes2IP_four (a b c d : UInt8) (platform : Platform) :
    bytes2IP platform [a, b, c, d] = some (.v4 a b c d) :=
  getByName_bytes2IPV4 platform a b c d

theorem granted4_short {bytes : List UInt8} (h : bytes.length < 8) : granted4 env bytes = none := by
  unfold granted4
  split
  · simp only [List.length_cons] at h
    omega
  · rfl

theorem Proxy.replied_socks4 {p : Proxy} {user : String} (hkind : p.kind = .socks4 user)
    (input : ByteStream) : Replied env p input := by
  have hcode : ¬ p.BadCode input.content := by
    simp [Proxy.BadCode, hkind]
  have hgranted : p.granted env input.content = granted4 env input.content := by
    simp [Proxy.granted, hkind]
  rcases hcontent : input.content with _ | ⟨version, _ | ⟨code, rest⟩⟩
  · refine .refused .eof ?_ (by rw [hgranted, hcontent]; rfl) hcode
    simp [Proxy.readReply, hkind, Socks4Message.read, readUnsignedByte_nil hcontent]
  · obtain ⟨input₁, hversion, hrest₁⟩ := readUnsignedByte_cons hcontent
    refine .refused .eof ?_ (by rw [hgranted, hcontent]; rfl) hcode
    simp [Proxy.readReply, hkind, Socks4Message.read, hversion, readUnsignedByte_nil hrest₁]
  · obtain ⟨input₁, hversion, hrest₁⟩ := readUnsignedByte_cons hcontent
    obtain ⟨input₂, hcommand, hrest₂⟩ := readUnsignedByte_cons hrest₁
    by_cases h90 : code = 90
    · subst h90
      have hok : (90 : UInt8).toNat = REPLY_OK := rfl
      obtain ⟨hshort, hport⟩ | ⟨port, input₃, hport, hrest₃, -⟩ := readUnsignedShort_eq input₂
      · have hnone : granted4 env input.content = none := by
          apply granted4_short
          rw [hrest₂] at hshort
          simp only [hcontent, List.length_cons]
          omega
        refine .refused .eof ?_ (hgranted.trans hnone) hcode
        simp [Proxy.readReply, hkind, Socks4Message.read, hversion, hcommand, hok, hport]
      · obtain ⟨hshort, haddr⟩ | ⟨input₄, haddr, hrest₄, hlong⟩ := readFully_eq input₃ 4
        · have hnone : granted4 env input.content = none := by
            apply granted4_short
            rw [hrest₃, hrest₂, List.length_drop] at hshort
            simp only [hcontent, List.length_cons]
            omega
          refine .refused .eof ?_ (hgranted.trans hnone) hcode
          simp [Proxy.readReply, hkind, Socks4Message.read, hversion, hcommand, hok, hport, haddr]
        · rw [hrest₃, hrest₂] at hrest₄ hlong haddr
          obtain ⟨high, low, a, b, c, d, rest', rfl⟩ : ∃ high low a b c d rest',
              rest = high :: low :: a :: b :: c :: d :: rest' := by
            rcases rest with _ | ⟨high, _ | ⟨low, _ | ⟨a, _ | ⟨b, _ | ⟨c, _ | ⟨d, rest'⟩⟩⟩⟩⟩⟩ <;>
              simp at hlong
            exact ⟨high, low, a, b, c, d, rest', rfl⟩
          refine .granted ⟨.socks4, version.toNat, 90, some (.v4 a b c d),
            some (env.platform.getHostName (.v4 a b c d)), port, none⟩ input₄ ?_ ?_
          · simp only [List.drop_succ_cons, List.drop_zero, List.take_succ_cons,
              List.take_zero] at haddr
            simp [Proxy.readReply, hkind, Socks4Message.read, hversion, hcommand, hok, hport, haddr,
              bytes2IP_four, REPLY_OK]
          · rw [hgranted, hcontent, hrest₄]
            rfl
    · have hne : code.toNat ≠ REPLY_OK := by
        intro heq
        exact h90 (UInt8.toNat_inj.mp heq)
      obtain ⟨text, htext⟩ := replyText_ok code.toNat
      refine .refused (.socks code.toNat text) ?_ ?_ hcode
      · simp [Proxy.readReply, hkind, Socks4Message.read, hversion, hcommand, hne, htext,
          throwSocksText]
      · rw [hgranted, hcontent]
        unfold granted4
        split
        · rename_i heq
          cases heq
          simp [h90]
        · rfl

/-- An address has been read as far as the stream goes: `g` says what a complete
address and port come to. -/
def AddressRead (x : Java (Option String × ByteStream))
    (g : Option (Option String × List UInt8)) : Prop :=
  (∃ host input₁ port input₂, x = .ok (host, input₁) ∧
    readUnsignedShort input₁ = .ok (port, input₂) ∧ g = some (host, input₂.content)) ∨
  (g = none ∧ ((∃ kind, x = .error (.io kind)) ∨
    ∃ host input₁, x = .ok (host, input₁) ∧ readUnsignedShort input₁ = .error (.io .eof)))

theorem addressRead_field (host : List UInt8 → Option String) (len : Nat) (input : ByteStream) :
    AddressRead
      (do
        let (addr, input) ← Message.readFully input len
        return (host addr, input))
      (addressed host len input.content) := by
  obtain ⟨hshort, hread⟩ | ⟨input₁, hread, hrest, hlong⟩ := readFully_eq input len
  · refine .inr ⟨?_, .inl ⟨.eof, by simp [hread]⟩⟩
    rw [addressed, if_neg (by omega)]
  · obtain ⟨hshort, hport⟩ | ⟨port, input₂, hport, hrest₂, hlong₂⟩ := readUnsignedShort_eq input₁
    · refine .inr ⟨?_, .inr ⟨host (input.content.take len), input₁, by simp [hread], hport⟩⟩
      rw [hrest, List.length_drop] at hshort
      rw [addressed, if_neg (by omega)]
    · refine .inl ⟨host (input.content.take len), input₁, port, input₂, by simp [hread], hport, ?_⟩
      rw [hrest, List.length_drop] at hlong₂
      rw [addressed, if_pos (by omega), hrest₂, hrest, List.drop_drop]

theorem addressRead_readAddress (version reserved addrType : UInt8) (input : ByteStream) :
    AddressRead (readAddress env.platform.toPlatform addrType.toNat input)
      (granted5 env (version :: 0 :: reserved :: addrType :: input.content)) := by
  have htype : ∀ n : UInt8, addrType.toNat = n.toNat ↔ addrType = n := fun n => UInt8.toNat_inj
  have h1 := htype 1
  have h3 := htype 3
  have h4 := htype 4
  simp only [granted5, ne_eq, not_true_eq_false, if_false, readAddress, SOCKS_ATYP_IPV4,
    SOCKS_ATYP_IPV6, SOCKS_ATYP_DOMAINNAME, SOCKS_IPV6_LENGTH]
  simp only [UInt8.reduceToNat] at h1 h3 h4
  simp only [h1, h3, h4]
  split
  · exact addressRead_field (fun addr => some (bytes2IPV4 addr)) 4 input
  · split
    · exact addressRead_field (fun _ => none) 16 input
    · split
      · rcases hcontent : input.content with _ | ⟨len, rest⟩
        · exact .inr ⟨rfl, .inl ⟨.eof, by simp [readUnsignedByte_nil hcontent]⟩⟩
        · obtain ⟨input₁, hlen, hrest⟩ := readUnsignedByte_cons hcontent
          simp only [hlen, ok_bind, ← hrest]
          exact addressRead_field (fun addr => some (env.platform.newString addr)) len.toNat input₁
      · exact .inr ⟨rfl, .inl ⟨_, rfl⟩⟩

theorem Proxy.replied_socks5 {p : Proxy} {methods : Socks5Proxy Authentication} {resolve : Bool}
    (hkind : p.kind = .socks5 methods resolve) (input : ByteStream) : Replied env p input := by
  have hgranted : p.granted env input.content = granted5 env input.content := by
    simp [Proxy.granted, hkind]
  have hread : p.readReply env input =
      Socks5Message.read env.platform.toPlatform env.doResolveIP true input := by
    simp [Proxy.readReply, hkind]
  rcases hcontent : input.content with _ | ⟨version, _ | ⟨code, rest⟩⟩
  · refine .refused .eof ?_ (by rw [hgranted, hcontent]; rfl) (by simp [BadCode, hkind, hcontent])
    simp [hread, Socks5Message.read, readUnsignedByte_nil hcontent]
  · obtain ⟨input₁, hversion, hrest₁⟩ := readUnsignedByte_cons hcontent
    refine .refused .eof ?_ (by rw [hgranted, hcontent]; rfl) (by simp [BadCode, hkind, hcontent])
    simp [hread, Socks5Message.read, hversion, readUnsignedByte_nil hrest₁]
  · obtain ⟨input₁, hversion, hrest₁⟩ := readUnsignedByte_cons hcontent
    obtain ⟨input₂, hcommand, hrest₂⟩ := readUnsignedByte_cons hrest₁
    by_cases hzero : code = 0
    · subst hzero
      have hgood : ¬ p.BadCode input.content := by
        simp [BadCode, hkind, hcontent]
      rcases rest with _ | ⟨reserved, _ | ⟨addrType, rest⟩⟩
      · refine .refused .eof ?_ (by rw [hgranted, hcontent]; rfl) hgood
        simp [hread, Socks5Message.read, hversion, hcommand, readUnsignedByte_nil hrest₂]
      · obtain ⟨input₃, hreserved, hrest₃⟩ := readUnsignedByte_cons hrest₂
        refine .refused .eof ?_ (by rw [hgranted, hcontent]; rfl) hgood
        simp [hread, Socks5Message.read, hversion, hcommand, hreserved,
          readUnsignedByte_nil hrest₃]
      · obtain ⟨input₃, hreserved, hrest₃⟩ := readUnsignedByte_cons hrest₂
        obtain ⟨input₄, htype, hrest₄⟩ := readUnsignedByte_cons hrest₃
        have haddress := addressRead_readAddress env version reserved addrType input₄
        rw [hrest₄, ← hcontent, ← hgranted] at haddress
        obtain ⟨host, input₅, port, input₆, hhost, hport, hsome⟩ |
          ⟨hnone, ⟨kind, hhost⟩ | ⟨host, input₅, hhost, hport⟩⟩ := haddress
        · refine .granted ⟨.socks5 addrType.toNat, version.toNat, 0,
            if addrType.toNat ≠ SOCKS_ATYP_DOMAINNAME ∧ env.doResolveIP = true then
              env.platform.getByName host else none, host, port, none⟩ input₆ ?_ hsome
          simp [hread, Socks5Message.read, hversion, hcommand, hreserved, htype, hhost, hport]
        · refine .refused kind ?_ hnone hgood
          simp [hread, Socks5Message.read, hversion, hcommand, hreserved, htype, hhost]
        · refine .refused .eof ?_ hnone hgood
          simp [hread, Socks5Message.read, hversion, hcommand, hreserved, htype, hhost, hport]
    · have hne : code.toNat ≠ 0 := by
        intro heq
        exact hzero (UInt8.toNat_inj.mp heq)
      have hnone : p.granted env input.content = none := by
        rw [hgranted, hcontent]
        unfold granted5
        split
        · rename_i heq
          cases heq
          simp [hzero]
        · rfl
      by_cases hnine : code = 9
      · refine .badCode ?_ hnone (by simp [BadCode, hkind, hcontent, hnine])
        subst hnine
        simp [hread, Socks5Message.read, hversion, hcommand, throwSocks, lookupErrorString,
          lookupMessage, serverReplyMessage]
      · have hne9 : code.toNat ≠ 9 := by
          intro heq
          exact hnine (UInt8.toNat_inj.mp heq)
        obtain ⟨kind, hthrow⟩ :=
          throwSocks_command (α := ProxyMessage × ByteStream) code.toNat_lt hne9
        refine .refused kind ?_ hnone (by simp [BadCode, hkind, hcontent, hnine])
        simp [hread, Socks5Message.read, hversion, hcommand, hne, hthrow]

/-- How the reading of a reply ends, for any bytes. -/
theorem Proxy.replied (p : Proxy) (input : ByteStream) : Replied env p input := by
  cases hkind : p.kind with
  | socks4 user => exact replied_socks4 env hkind input
  | socks5 methods resolve => exact replied_socks5 env hkind input

end Reply

section Call

variable (env : Env) (level : Nat)

/-- The connections and requests among the events. -/
inductive Dialled
  | connect (ip : InetAddress) (port : Int)
  | request (bytes : List UInt8)
deriving DecidableEq

def Event.dialled : Event → Option Dialled
  | .connect _ ip port => some (.connect ip port)
  | .sent _ (.request bytes) => some (.request bytes)
  | _ => none

def dialled (events : List Event) : List Dialled := events.filterMap Event.dialled

@[simp] theorem dialled_append (events events' : List Event) :
    dialled (events ++ events') = dialled events ++ dialled events' := by
  simp [dialled]

theorem Handshake.dialled_eq {s : Nat} {events : List Event} (h : Handshake s events) :
    dialled events = [] := by
  rw [dialled, List.filterMap_eq_nil_iff]
  intro event hevent
  obtain ⟨bytes, rfl | rfl⟩ := h event hevent <;> rfl

/-- Events that only send on a socket. -/
def Sends (s : Nat) (events : List Event) : Prop :=
  ∀ event ∈ events, ∃ message, event = .sent s message

theorem Handshake.sends {s : Nat} {events : List Event} (h : Handshake s events) :
    Sends s events := by
  intro event hevent
  obtain ⟨bytes, rfl | rfl⟩ := h event hevent
  · exact ⟨_, rfl⟩
  · exact ⟨_, rfl⟩

theorem Sends.append {s : Nat} {events events' : List Event} (h : Sends s events)
    (h' : Sends s events') : Sends s (events ++ events') := by
  intro event hevent
  rcases List.mem_append.mp hevent with hevent | hevent
  · exact h event hevent
  · exact h' event hevent

theorem asSocks_ok {α : Type} {text : IOKind → String} {x : Net α} {w w' : World} {a : α}
    (h : x w = (.ok a, w')) : asSocks text x w = (.ok a, w') := Act.handle_ok h

theorem asSocks_io {α : Type} {text : IOKind → String} {x : Net α} {w w' : World} {kind : IOKind}
    (h : x w = (.error (.io kind), w')) :
    ∃ e, asSocks text x w = (.error e, w') ∧ IsSocks e := by
  rw [asSocks, Act.handle_error h]
  cases kind <;> exact ⟨_, rfl, trivial⟩

theorem asSocks_unchecked {α : Type} {text : IOKind → String} {x : Net α} {w w' : World}
    {kind : UncheckedKind} (h : x w = (.error (.unchecked kind), w')) :
    asSocks text x w = (.error (.unchecked kind), w') := by
  rw [asSocks, Act.handle_error h]
  rfl

/-- How an exchange ends. -/
inductive Exchanged (p : Proxy) (request : List UInt8) (session : Session) (w : World) : Prop
  | granted (reply : ProxyMessage) (rest : ByteStream)
      (hrun : p.exchange env level request session w = (.ok (reply, ⟨session.socket, rest⟩),
        w.record [.sent session.socket (.request request)]))
      (hfault : env.fault level .request = none ∧ env.fault level .reply = none)
      (hgranted : p.granted env session.input.content = some (reply.host, rest.content))
  | refused (e : Throwable) (events : List Event)
      (hrun : p.exchange env level request session w = (.error e, w.record events))
      (hsocks : IsSocks e) (hevents : Sends session.socket events)
      (hdialled : dialled events <+: [.request request])
      (hfault : env.fault level .request = none ∧ env.fault level .reply = none →
        p.granted env session.input.content = none ∧ ¬ p.BadCode session.input.content)
  | badCode
      (hrun : p.exchange env level request session w = (.error (.unchecked .indexOutOfBounds),
        w.record [.sent session.socket (.request request)]))
      (hfault : env.fault level .request = none ∧ env.fault level .reply = none)
      (hgranted : p.granted env session.input.content = none)
      (hcode : p.BadCode session.input.content)

theorem sends_request (s : Nat) (request : List UInt8) : Sends s [.sent s (.request request)] := by
  intro event hevent
  exact ⟨_, List.mem_singleton.mp hevent⟩

theorem Proxy.exchange_run (p : Proxy) (request : List UInt8) (session : Session) (w : World) :
    Exchanged env level p request session w := by
  cases hrequest : env.fault level .request with
  | some kind =>
      have hrun : p.converse env level request session w = (.error (.io kind), w) := by
        rw [Proxy.converse, Act.bind_error (send_fault hrequest)]
      obtain ⟨e, hrun, hsocks⟩ := asSocks_io hrun
      refine .refused e [] (by rw [record_nil]; exact hrun) hsocks ?_ (by simp [dialled]) ?_
      · intro event hevent
        cases hevent
      · simp [hrequest]
  | none =>
      cases hreply : env.fault level .reply with
      | some kind =>
          have hrun : p.converse env level request session w = (.error (.io kind),
              w.record [.sent session.socket (.request request)]) := by
            rw [Proxy.converse, Act.bind_ok (send_ok hrequest),
              Act.bind_error (attempt_fault hreply)]
          obtain ⟨e, hrun, hsocks⟩ := asSocks_io hrun
          refine .refused e _ hrun hsocks (sends_request _ _) ?_ (by simp [hreply])
          exact List.prefix_refl _
      | none =>
          have hrun : p.converse env level request session w =
              (do
                let answer ← Act.lift (p.readReply env session.input)
                return (answer.1, (⟨session.socket, answer.2⟩ : Session)) : Net _)
              (w.record [.sent session.socket (.request request)]) := by
            rw [Proxy.converse, Act.bind_ok (send_ok hrequest), Act.bind_ok (attempt_ok hreply)]
          rcases p.replied env session.input with ⟨reply, rest, hread, hgranted⟩ |
            ⟨kind, hread, hgranted, hcode⟩ | ⟨hread, hgranted, hcode⟩
          · rw [hread, Act.lift_ok_bind_run] at hrun
            exact .granted reply rest (asSocks_ok hrun) ⟨hrequest, hreply⟩ hgranted
          · rw [hread, Act.lift_error_bind_run] at hrun
            obtain ⟨e, hrun, hsocks⟩ := asSocks_io hrun
            exact .refused e _ hrun hsocks (sends_request _ _) (List.prefix_refl _)
              fun _ => ⟨hgranted, hcode⟩
          · rw [hread, Act.lift_error_bind_run] at hrun
            exact .badCode (asSocks_unchecked hrun) ⟨hrequest, hreply⟩ hgranted hcode

theorem endSessionOnError_ok {α : Type} {x : Net α} {w w' : World} {a : α}
    (h : x w = (.ok a, w')) : endSessionOnError level x w = (.ok a, w') := Act.handle_ok h

theorem endSessionOnError_socks {α : Type} {x : Net α} {w w' : World} {e : Throwable}
    (h : x w = (.error e, w')) (hsocks : IsSocks e) :
    endSessionOnError level x w = (.error e, endSession level w') := by
  rw [endSessionOnError, Act.handle_error h]
  rcases e with (_ | _ | _ | _ | _ | _) | _ <;> first | exact hsocks.elim | rfl

theorem endSessionOnError_other {α : Type} {x : Net α} {w w' : World} {e : Throwable}
    (h : x w = (.error e, w')) (hsocks : ¬ IsSocks e) :
    endSessionOnError level x w = (.error e, w') := by
  rw [endSessionOnError, Act.handle_error h]
  rcases e with (_ | _ | _ | _ | _ | _) | _ <;> first | exact absurd trivial hsocks | rfl

/-- The request of a call, as a list. -/
def Proxy.requests (p : Proxy) (command : Nat) (dest : Dest) (port : Int) : List Dialled :=
  match p.formMessage env command dest port with
  | .ok (some request) => [.request request]
  | _ => []

/-- How a call ends once its session has been started in the world `w₁`. -/
inductive Called (p : Proxy) (command : Nat) (dest : Dest) (port : Int) (session : Session)
    (w₁ : World) (r : Except Throwable (ProxyMessage × Session) × World) : Prop
  | passes (reply : ProxyMessage) (rest : ByteStream) (events : List Event)
      (hrun : r = (.ok (reply, ⟨session.socket, rest⟩), w₁.record events))
      (houtcome : p.outcome env level command dest port session.input.content =
        .passes reply.host rest.content)
      (hevents : Sends session.socket events)
      (hdialled : dialled events = p.requests env command dest port)
  | refused (e : Throwable) (events : List Event) (w' : World)
      (hrun : r = (.error e, endSession level w'))
      (houtcome : p.outcome env level command dest port session.input.content = .refused)
      (hsocks : IsSocks e) (hevents : Sends session.socket events)
      (hclosed : MaybeClosed level (w₁.record events) w')
      (hdialled : dialled events <+: p.requests env command dest port)
  | escapes (e : Throwable) (events : List Event)
      (hrun : r = (.error e, w₁.record events))
      (houtcome : p.outcome env level command dest port session.input.content = .escapes e)
      (hsocks : ¬ IsSocks e) (hevents : Sends session.socket events)
      (hdialled : dialled events <+: p.requests env command dest port)

theorem sends_nil {s : Nat} : Sends s [] := by
  intro event hevent
  cases hevent

theorem not_isSocks_getByName (host : Option String) :
    Throws (fun e => ¬ IsSocks e) (getByName env host) := by
  unfold getByName
  split
  · exact throws_ok _
  · exact throws_error id

theorem not_isSocks_ofAddress (command : Nat) (ip : InetAddress) (port : Int) (user : String) :
    Throws (fun e => ¬ IsSocks e)
      (some <$> Requests.Socks4Message.ofAddress env.platform command ip port user) := by
  unfold Requests.Socks4Message.ofAddress
  dsimp only
  split
  · exact throws_error id
  · exact throws_ok _

theorem Proxy.not_isSocks_formMessage (p : Proxy) (command : Nat) (dest : Dest) (port : Int) :
    Throws (fun e => ¬ IsSocks e) (p.formMessage env command dest port) := by
  unfold Proxy.formMessage
  split
  · split
    · apply not_isSocks_ofAddress
    · apply throws_ok
  · apply throws_bind (not_isSocks_getByName env _)
    intro ip _
    split
    · apply not_isSocks_ofAddress
    · apply throws_ok
  · apply throws_ok
  · apply throws_bind (not_isSocks_getByName env _)
    intro ip _
    apply throws_ok
  · apply throws_ok
  · exact throws_error id

theorem Proxy.greetable_cases (p : Proxy) :
    (p.Greetable ∧ ∃ bytes, p.greetingOf = .ok bytes) ∨
      ¬ p.Greetable ∧ ∃ kind, p.greetingOf = .error (.unchecked kind) ∧
        ∀ session w, p.greet env level session w = (.error (.unchecked kind), w) := by
  unfold Proxy.Greetable Proxy.greetingOf Proxy.greet
  cases p.kind with
  | socks4 user => exact .inl ⟨trivial, _, rfl⟩
  | socks5 methods resolve =>
      by_cases hcount : methods.authMethods.keys.length < 128
      · exact .inl ⟨hcount, _, greeting_eq hcount⟩
      · obtain ⟨kind, hgreeting⟩ := greeting_overflow (Nat.le_of_not_lt hcount)
        refine .inr ⟨hcount, kind, hgreeting, ?_⟩
        intro session w
        have hrun : negotiate env level methods session w = (.error (.unchecked kind), w) := by
          rw [negotiate, hgreeting]
          rfl
        simp only [Dial.greet]
        rw [Act.handle_error hrun]
        rfl

section Ends

variable {p : Proxy} {command : Nat} {dest : Dest} {port : Int} {start : Net Session}
  {session : Session} {w w₁ w' : World} {e : Throwable}

theorem Proxy.call_socks (hstart : start w = (.ok session, w₁))
    (h : p.converseOn env level command dest port session w₁ = (.error e, w'))
    (hsocks : IsSocks e) :
    p.call env level start command dest port w = (.error e, endSession level w') := by
  have hrun := (Act.bind_ok hstart).trans h
  rw [Proxy.call, Act.bind_error (endSessionOnError_socks level hrun hsocks)]

theorem Proxy.call_other (hstart : start w = (.ok session, w₁))
    (h : p.converseOn env level command dest port session w₁ = (.error e, w'))
    (hsocks : ¬ IsSocks e) :
    p.call env level start command dest port w = (.error e, w') := by
  have hrun := (Act.bind_ok hstart).trans h
  rw [Proxy.call, Act.bind_error (endSessionOnError_other level hrun hsocks)]

theorem Proxy.call_start_socks (hstart : start w = (.error e, w')) (hsocks : IsSocks e) :
    p.call env level start command dest port w = (.error e, endSession level w') := by
  have hrun := Act.bind_error (f := p.converseOn env level command dest port) hstart
  rw [Proxy.call, Act.bind_error (endSessionOnError_socks level hrun hsocks)]

theorem Proxy.call_start_other (hstart : start w = (.error e, w')) (hsocks : ¬ IsSocks e) :
    p.call env level start command dest port w = (.error e, w') := by
  have hrun := Act.bind_error (f := p.converseOn env level command dest port) hstart
  rw [Proxy.call, Act.bind_error (endSessionOnError_other level hrun hsocks)]

theorem Proxy.call_greeted {hello : List UInt8} {input : ByteStream} {events : List Event}
    (hstart : start w = (.ok session, w₁)) (hgreeting : p.greetingOf = .ok hello)
    (hgreet : p.greet env level session w₁ = (.ok ⟨session.socket, input⟩, w₁.record events))
    (hevents : Handshake session.socket events)
    (hafter : p.afterGreeting env level session.input.content = some input.content) :
    Called env level p command dest port session w₁
      (p.call env level start command dest port w) := by
  have hnil := hevents.dialled_eq
  cases hmessage : p.formMessage env command dest port with
  | error e =>
      have hsocks := p.not_isSocks_formMessage env command dest port e hmessage
      have hrun : p.converseOn env level command dest port session w₁ =
          (.error e, w₁.record events) := by
        rw [Proxy.converseOn, Act.bind_ok hgreet, hmessage, Act.lift_error_bind_run]
      refine .escapes e events (Proxy.call_other env level hstart hrun hsocks) ?_ hsocks
        hevents.sends ?_
      · simp [Proxy.outcome, hgreeting, hafter, hmessage]
      · rw [hnil]
        exact List.nil_prefix
  | ok message =>
      cases message with
      | none =>
          have hrun : p.converseOn env level command dest port session w₁ =
              (.ok none, w₁.record events) := by
            rw [Proxy.converseOn, Act.bind_ok hgreet, hmessage, Act.lift_ok_bind_run]
            rfl
          have htry := (Act.bind_ok hstart).trans hrun
          refine .refused (.io (.socks SOCKS_METHOD_NOTSUPPORTED
            "This version of proxy does not support UDP associate, use version 5")) events _ ?_ ?_
            trivial hevents.sends (.inl rfl) ?_
          · rw [Proxy.call, Act.bind_ok (endSessionOnError_ok level htry)]
            rfl
          · simp [Proxy.outcome, hgreeting, hafter, hmessage]
          · rw [hnil]
            exact List.nil_prefix
      | some request =>
          have hrequests : p.requests env command dest port = [.request request] := by
            simp [Proxy.requests, hmessage]
          have hconverse : p.converseOn env level command dest port session w₁ =
              (do
                let reply ← p.exchange env level request ⟨session.socket, input⟩
                return some reply : Net _) (w₁.record events) := by
            rw [Proxy.converseOn, Act.bind_ok hgreet, hmessage, Act.lift_ok_bind_run]
          rcases p.exchange_run env level request ⟨session.socket, input⟩ (w₁.record events) with
            ⟨reply, rest, hrun, hfault, hgranted⟩ |
            ⟨e, sent, hrun, hsocks, hsent, hdialled, hfault⟩ | ⟨hrun, hfault, hgranted, hcode⟩
          · rw [Act.bind_ok hrun, record_record] at hconverse
            have htry := (Act.bind_ok hstart).trans hconverse
            refine .passes reply rest _ ?_ ?_ (hevents.sends.append (sends_request _ request)) ?_
            · rw [Proxy.call, Act.bind_ok (endSessionOnError_ok level htry)]
              rfl
            · simp [Proxy.outcome, hgreeting, hafter, hmessage, hfault, hgranted]
            · rw [dialled_append, hnil, hrequests]
              rfl
          · rw [Act.bind_error hrun, record_record] at hconverse
            refine .refused e _ _ (Proxy.call_socks env level hstart hconverse hsocks) ?_ hsocks
              (hevents.sends.append hsent) (.inl rfl) ?_
            · by_cases hoff : env.fault level .request = none ∧ env.fault level .reply = none
              · obtain ⟨hgranted, hcode⟩ := hfault hoff
                simp [Proxy.outcome, hgreeting, hafter, hmessage, hoff, hgranted, hcode]
              · simp [Proxy.outcome, hgreeting, hafter, hmessage, hoff]
            · rw [dialled_append, hnil, hrequests]
              exact hdialled
          · rw [Act.bind_error hrun, record_record] at hconverse
            refine .escapes _ _ (Proxy.call_other env level hstart hconverse id) ?_ id
              (hevents.sends.append (sends_request _ request)) ?_
            · simp [Proxy.outcome, hgreeting, hafter, hmessage, hfault, hgranted, hcode]
            · rw [dialled_append, hnil, hrequests]
              exact List.prefix_refl _

/-- How a call ends, for any bytes that come back. -/
theorem Proxy.call_run (hstart : start w = (.ok session, w₁)) :
    Called env level p command dest port session w₁
      (p.call env level start command dest port w) := by
  obtain ⟨hgreetable, hello, hgreeting⟩ | ⟨hgreetable, kind, hgreeting, hgreet⟩ :=
    p.greetable_cases env level
  · obtain ⟨input, events, hgreet, hevents, hafter⟩ |
      ⟨e, events, w', hgreet, hsocks, hevents, hclosed, hafter⟩ :=
        p.greet_run env level session w₁ hgreetable
    · exact p.call_greeted env level hstart hgreeting hgreet hevents hafter
    · have hrun : p.converseOn env level command dest port session w₁ = (.error e, w') := by
        rw [Proxy.converseOn, Act.bind_error hgreet]
      refine .refused e events w' (Proxy.call_socks env level hstart hrun hsocks) ?_ hsocks
        hevents.sends hclosed ?_
      · simp [Proxy.outcome, hgreeting, hafter]
      · rw [hevents.dialled_eq]
        exact List.nil_prefix
  · have hrun : p.converseOn env level command dest port session w₁ =
        (.error (.unchecked kind), w₁) := by
      rw [Proxy.converseOn, Act.bind_error (hgreet session w₁)]
    refine .escapes (.unchecked kind) [] ?_ ?_ id sends_nil List.nil_prefix
    · rw [record_nil]
      exact Proxy.call_other env level hstart hrun id
    · simp [Proxy.outcome, hgreeting]

end Ends

end Call

end TorAndroid.Socks.Dial
