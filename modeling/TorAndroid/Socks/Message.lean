import TorAndroid.Lib.Fragments
import TorAndroid.Socks.Basic

namespace TorAndroid.Socks.Message

open TorAndroid.Lib.Fragments
open TorAndroid.Lib.Throwing
open TorAndroid.Socks.Basic

/-- The class of a message; a SOCKS5 message has an address type. -/
inductive MessageClass
  | socks4
  | socks5 (addrType : Nat)
deriving DecidableEq, Repr

structure ProxyMessage where
  messageClass : MessageClass
  version : Nat
  command : Nat
  ip : Option InetAddress
  host : Option String
  port : Nat
  user : Option String
deriving DecidableEq

def SOCKS_ATYP_IPV4 : Nat := 1
def SOCKS_ATYP_DOMAINNAME : Nat := 3
def SOCKS_ATYP_IPV6 : Nat := 4
def SOCKS_IPV6_LENGTH : Nat := 16

def REPLY_OK : Nat := 90
def REPLY_BAD_IDENTD : Nat := 93

def replyMessage : List String :=
  ["Request Granted", "Request Rejected or Failed", "Failed request, can't connect to Identd",
    "Failed request, bad user name"]

def readUnsignedByte (input : ByteStream) : Java (Nat × ByteStream) :=
  match input.read with
  | (some b, rest) => .ok (b.toNat, rest)
  | (none, _) => .error (.io .eof)

def readUnsignedShort (input : ByteStream) : Java (Nat × ByteStream) := do
  let (high, input) ← readUnsignedByte input
  let (low, input) ← readUnsignedByte input
  return (high * 256 + low, input)

def readFully (input : ByteStream) (len : Nat) : Java (List UInt8 × ByteStream) :=
  match input.readFully len with
  | some r => .ok r
  | none => .error (.io .eof)

section Reading

variable (platform : Platform) (doResolveIP : Bool)

/-- The user field: bytes up to a zero byte, the end of the stream or the end
of the buffer. The byte after a full buffer is consumed and dropped. -/
def userLoop : Nat → Option UInt8 → ByteStream → List UInt8 × ByteStream
  | 0, _, input => ([], input)
  | _ + 1, none, input => ([], input)
  | room + 1, some b, input =>
      if b = 0 then ([], input)
      else
        let (next, input) := input.read
        let (user, input) := userLoop room next input
        (b :: user, input)

def bytes2IP (addr : List UInt8) : Option InetAddress :=
  platform.getByName (some (bytes2IPV4 addr))

def replyText (command : Nat) : Java String :=
  if REPLY_OK < command ∧ command < REPLY_BAD_IDENTD then
    match replyMessage[command - REPLY_OK]? with
    | some text => .ok text
    | none => .error (.unchecked .indexOutOfBounds)
  else .ok "Unknown Reply Code"

def Socks4Message.read (clientMode : Bool) (input : ByteStream) :
    Java (ProxyMessage × ByteStream) := do
  let (version, input) ← readUnsignedByte input
  let (command, input) ← readUnsignedByte input
  if clientMode = true ∧ command ≠ REPLY_OK then
    let errMsg ← replyText command
    throwSocksText command errMsg
  else
    let (port, input) ← readUnsignedShort input
    let (addr, input) ← readFully input 4
    match bytes2IP platform addr with
    | none => .error (.unchecked .nullPointer)
    | some ip =>
        let host := platform.getHostName ip
        if clientMode then
          return (⟨.socks4, version, command, some ip, some host, port, none⟩, input)
        else
          let (b, input) := input.read
          let (userBytes, input) := userLoop 256 b input
          let user := platform.newString userBytes
          return (⟨.socks4, version, command, some ip, some host, port, some user⟩, input)

/-- The address field of a SOCKS5 message, as the host text. -/
def readAddress (addrType : Nat) (input : ByteStream) : Java (Option String × ByteStream) :=
  if addrType = SOCKS_ATYP_IPV4 then do
    let (addr, input) ← readFully input 4
    return (some (bytes2IPV4 addr), input)
  else if addrType = SOCKS_ATYP_IPV6 then do
    let (addr, input) ← readFully input SOCKS_IPV6_LENGTH
    return (bytes2IPV6 addr, input)
  else if addrType = SOCKS_ATYP_DOMAINNAME then do
    let (len, input) ← readUnsignedByte input
    let (addr, input) ← readFully input len
    return (some (platform.newString addr), input)
  else throwSocks SOCKS_JUST_ERROR

def Socks5Message.read (clientMode : Bool) (input : ByteStream) :
    Java (ProxyMessage × ByteStream) := do
  let (version, input) ← readUnsignedByte input
  let (command, input) ← readUnsignedByte input
  if clientMode = true ∧ command ≠ 0 then throwSocks command
  else
    let (_, input) ← readUnsignedByte input
    let (addrType, input) ← readUnsignedByte input
    let (host, input) ← readAddress platform addrType input
    let (port, input) ← readUnsignedShort input
    let ip :=
      if addrType ≠ SOCKS_ATYP_DOMAINNAME ∧ doResolveIP = true then platform.getByName host
      else none
    return (⟨.socks5 addrType, version, command, ip, host, port, none⟩, input)

/-- `ProxyServer.readMsg`. At the end of the stream the byte pushed back is
the low byte of `-1`. -/
def readMsg (input : ByteStream) : Java (ProxyMessage × ByteStream) :=
  let (version, input) := input.read
  match input.unread (version.getD 255) with
  | none => .error (.io .other)
  | some input =>
      if version = some 5 then Socks5Message.read platform doResolveIP false input
      else if version = some 4 then Socks4Message.read platform false input
      else throwSocks SOCKS_FAILURE

end Reading

theorem checked_readUnsignedByte (input : ByteStream) : Checked (readUnsignedByte input) := by
  unfold readUnsignedByte
  split
  · apply throws_ok
  · exact throws_error trivial

theorem checked_readUnsignedShort (input : ByteStream) : Checked (readUnsignedShort input) := by
  apply throws_bind (checked_readUnsignedByte _)
  rintro ⟨high, input⟩ -
  apply throws_bind (checked_readUnsignedByte _)
  rintro ⟨low, input⟩ -
  apply throws_ok

theorem checked_readFully (input : ByteStream) (len : Nat) : Checked (readFully input len) := by
  unfold readFully
  split
  · apply throws_ok
  · exact throws_error trivial

theorem readFully_length {input rest : ByteStream} {len : Nat} {addr : List UInt8}
    (h : readFully input len = .ok (addr, rest)) : addr.length = len := by
  by_cases hlen : input.content.length < len
  · simp [readFully, ByteStream.readFully_short hlen] at h
  · have hsplit : input.content = input.content.take len ++ input.content.drop len := by simp
    obtain ⟨s', hread, -⟩ := ByteStream.readFully_append hsplit
    have htake : (input.content.take len).length = len := by
      rw [List.length_take]
      omega
    rw [htake] at hread
    simp only [readFully, hread, Except.ok.injEq, Prod.mk.injEq] at h
    rw [← h.1, htake]

theorem bytes2IP_of_length {addr : List UInt8} (platform : Platform) (h : addr.length = 4) :
    ∃ ip, bytes2IP platform addr = some ip := by
  obtain ⟨a, b, c, d, rfl⟩ : ∃ a b c d, addr = [a, b, c, d] := by
    rcases addr with _ | ⟨a, _ | ⟨b, _ | ⟨c, _ | ⟨d, _ | ⟨e, rest⟩⟩⟩⟩⟩ <;> simp at h
    exact ⟨a, b, c, d, rfl⟩
  exact ⟨_, getByName_bytes2IPV4 platform a b c d⟩

theorem Socks4Message.checked_read (platform : Platform) (input : ByteStream) :
    Checked (Socks4Message.read platform false input) := by
  apply throws_bind (checked_readUnsignedByte _)
  rintro ⟨version, input⟩ -
  apply throws_bind (checked_readUnsignedByte _)
  rintro ⟨command, input⟩ -
  simp only [Bool.false_eq_true, false_and, if_false]
  apply throws_bind (checked_readUnsignedShort _)
  rintro ⟨port, input⟩ -
  apply throws_bind (checked_readFully _ _)
  rintro ⟨addr, input⟩ haddr
  -- the only unchecked exception here is `ip.getHostName()` on a null address
  obtain ⟨ip, hip⟩ := bytes2IP_of_length platform (readFully_length haddr)
  simp only [hip]
  apply throws_ok

theorem checked_readAddress (platform : Platform) (addrType : Nat) (input : ByteStream) :
    Checked (readAddress platform addrType input) := by
  unfold readAddress
  split
  · apply throws_bind (checked_readFully _ _)
    rintro ⟨addr, input⟩ -
    apply throws_ok
  · split
    · apply throws_bind (checked_readFully _ _)
      rintro ⟨addr, input⟩ -
      apply throws_ok
    · split
      · apply throws_bind (checked_readUnsignedByte _)
        rintro ⟨len, input⟩ -
        apply throws_bind (checked_readFully _ _)
        rintro ⟨addr, input⟩ -
        apply throws_ok
      · exact checked_throwSocks (by decide)

theorem Socks5Message.checked_read (platform : Platform) (doResolveIP : Bool) (input : ByteStream) :
    Checked (Socks5Message.read platform doResolveIP false input) := by
  apply throws_bind (checked_readUnsignedByte _)
  rintro ⟨version, input⟩ -
  apply throws_bind (checked_readUnsignedByte _)
  rintro ⟨command, input⟩ -
  simp only [Bool.false_eq_true, false_and, if_false]
  apply throws_bind (checked_readUnsignedByte _)
  rintro ⟨reserved, input⟩ -
  apply throws_bind (checked_readUnsignedByte _)
  rintro ⟨addrType, input⟩ -
  apply throws_bind (checked_readAddress _ _ _)
  rintro ⟨host, input⟩ -
  apply throws_bind (checked_readUnsignedShort _)
  rintro ⟨port, input⟩ -
  apply throws_ok

/-- Reading a request ends with a message or an `IOException`, whatever the
stream holds. -/
theorem checked_readMsg (platform : Platform) (doResolveIP : Bool) (input : ByteStream) :
    Checked (readMsg platform doResolveIP input) := by
  simp only [readMsg]
  split
  · exact throws_error trivial
  · split
    · apply Socks5Message.checked_read
    · split
      · apply Socks4Message.checked_read
      · exact checked_throwSocks (by decide)

theorem readUnsignedByte_cons {input : ByteStream} {b : UInt8} {rest : List UInt8}
    (h : input.content = b :: rest) :
    ∃ input', readUnsignedByte input = .ok (b.toNat, input') ∧ input'.content = rest := by
  obtain ⟨input', hread, hrest, -⟩ := ByteStream.read_cons h
  exact ⟨input', by simp [readUnsignedByte, hread], hrest⟩

theorem readUnsignedShort_cons {input : ByteStream} {high low : UInt8} {rest : List UInt8}
    (h : input.content = high :: low :: rest) :
    ∃ input', readUnsignedShort input = .ok (high.toNat * 256 + low.toNat, input') ∧
      input'.content = rest := by
  obtain ⟨input₁, hhigh, hrest₁⟩ := readUnsignedByte_cons h
  obtain ⟨input₂, hlow, hrest₂⟩ := readUnsignedByte_cons hrest₁
  exact ⟨input₂, by simp [readUnsignedShort, hhigh, hlow], hrest₂⟩

theorem readFully_content {input : ByteStream} {addr rest : List UInt8}
    (h : input.content = addr ++ rest) :
    ∃ input', readFully input addr.length = .ok (addr, input') ∧ input'.content = rest := by
  obtain ⟨input', hread, hrest⟩ := ByteStream.readFully_append h
  exact ⟨input', by simp [readFully, hread], hrest⟩

theorem length_of_readUnsignedByte {input rest : ByteStream} {n : Nat}
    (h : readUnsignedByte input = .ok (n, rest)) :
    input.content.length = rest.content.length + 1 := by
  unfold readUnsignedByte at h
  split at h
  · rename_i b rest' hread
    cases h
    rw [ByteStream.content_of_read hread]
    rfl
  · cases h

theorem length_of_readUnsignedShort {input rest : ByteStream} {n : Nat}
    (h : readUnsignedShort input = .ok (n, rest)) :
    input.content.length = rest.content.length + 2 := by
  rw [readUnsignedShort, bind_eq_ok] at h
  obtain ⟨⟨high, input₁⟩, hhigh, h⟩ := h
  rw [bind_eq_ok] at h
  obtain ⟨⟨low, input₂⟩, hlow, h⟩ := h
  cases h
  rw [length_of_readUnsignedByte hhigh, length_of_readUnsignedByte hlow]

theorem length_of_readFully {input rest : ByteStream} {len : Nat} {addr : List UInt8}
    (h : readFully input len = .ok (addr, rest)) : len ≤ input.content.length := by
  by_contra hshort
  rw [readFully, ByteStream.readFully_short (by omega)] at h
  cases h

def userField (bytes : List UInt8) : List UInt8 := (bytes.takeWhile (· ≠ 0)).take 256

theorem userLoop_read (room : Nat) (input : ByteStream) :
    (userLoop room input.read.1 input.read.2).1 =
      (input.content.takeWhile (· ≠ 0)).take room := by
  induction room generalizing input with
  | zero => simp [userLoop]
  | succ room ih =>
      rcases hcontent : input.content with _ | ⟨b, rest⟩
      · simp [ByteStream.read_nil hcontent, userLoop]
      · obtain ⟨input', hread, hrest, -⟩ := ByteStream.read_cons hcontent
        have htail := ih input'
        rw [hrest] at htail
        by_cases hb : b = 0
        · simp [hread, userLoop, hb]
        · simp only [hread, userLoop, hb, if_false, htail]
          simp [hb]

theorem userLoop_content (room : Nat) (input : ByteStream) :
    (userLoop room input.read.1 input.read.2).2.content =
      input.content.drop (min (input.content.takeWhile (· ≠ 0)).length room + 1) := by
  induction room generalizing input with
  | zero =>
      rcases hcontent : input.content with _ | ⟨b, rest⟩
      · simp [ByteStream.read_nil hcontent, userLoop, hcontent]
      · obtain ⟨input', hread, hrest, -⟩ := ByteStream.read_cons hcontent
        simp [hread, userLoop, hrest]
  | succ room ih =>
      rcases hcontent : input.content with _ | ⟨b, rest⟩
      · simp [ByteStream.read_nil hcontent, userLoop, hcontent]
      · obtain ⟨input', hread, hrest, -⟩ := ByteStream.read_cons hcontent
        have htail := ih input'
        rw [hrest] at htail
        by_cases hb : b = 0
        · simp [hread, userLoop, hb, hrest]
        · simp only [hread, userLoop, hb, if_false, htail]
          simp [hb, Nat.add_min_add_right]

/-- The message for the eight fixed bytes of a SOCKS4 request and what follows. -/
def Socks4Message.request (platform : Platform) (version command high low a b c d : UInt8)
    (rest : List UInt8) : ProxyMessage where
  messageClass := .socks4
  version := version.toNat
  command := command.toNat
  ip := some (.v4 a b c d)
  host := some (platform.getHostName (.v4 a b c d))
  port := high.toNat * 256 + low.toNat
  user := some (platform.newString (userField rest))

theorem Socks4Message.read_request {input : ByteStream} {version command high low : UInt8}
    {a b c d : UInt8} {rest : List UInt8} (platform : Platform)
    (h : input.content = version :: command :: high :: low :: a :: b :: c :: d :: rest) :
    ∃ input', Socks4Message.read platform false input =
        .ok (Socks4Message.request platform version command high low a b c d rest, input') ∧
      input'.content = rest.drop (min (rest.takeWhile (· ≠ 0)).length 256 + 1) := by
  obtain ⟨input₁, hversion, hrest₁⟩ := readUnsignedByte_cons h
  obtain ⟨input₂, hcommand, hrest₂⟩ := readUnsignedByte_cons hrest₁
  obtain ⟨input₃, hport, hrest₃⟩ := readUnsignedShort_cons hrest₂
  obtain ⟨input₄, haddr, hrest₄⟩ :=
    readFully_content (show input₃.content = [a, b, c, d] ++ rest from hrest₃)
  have hip : bytes2IP platform [a, b, c, d] = some (.v4 a b c d) :=
    getByName_bytes2IPV4 platform a b c d
  have huser := userLoop_read 256 input₄
  have hlater := userLoop_content 256 input₄
  rw [hrest₄] at huser hlater
  refine ⟨(userLoop 256 input₄.read.1 input₄.read.2).2, ?_, hlater⟩
  simp only [List.length_cons, List.length_nil, Nat.zero_add, Nat.reduceAdd] at haddr
  simp [Socks4Message.read, hversion, hcommand, hport, haddr, hip, huser, userField,
    Socks4Message.request]

theorem Socks4Message.content_of_read {input input' : ByteStream} {platform : Platform}
    {msg : ProxyMessage} (h : Socks4Message.read platform false input = .ok (msg, input')) :
    ∃ version command high low a b c d rest,
      input.content = version :: command :: high :: low :: a :: b :: c :: d :: rest := by
  by_cases hlong : 8 ≤ input.content.length
  · rcases hcontent : input.content with
      _ | ⟨version, _ | ⟨command, _ | ⟨high, _ | ⟨low, _ | ⟨a, _ | ⟨b, _ | ⟨c, _ |
        ⟨d, rest⟩⟩⟩⟩⟩⟩⟩⟩ <;>
      simp [hcontent] at hlong
    exact ⟨version, command, high, low, a, b, c, d, rest, rfl⟩
  · exfalso
    rw [Socks4Message.read, bind_eq_ok] at h
    obtain ⟨⟨version, input₁⟩, hversion, h⟩ := h
    rw [bind_eq_ok] at h
    obtain ⟨⟨command, input₂⟩, hcommand, h⟩ := h
    simp only [Bool.false_eq_true, false_and, if_false] at h
    rw [bind_eq_ok] at h
    obtain ⟨⟨port, input₃⟩, hport, h⟩ := h
    rw [bind_eq_ok] at h
    obtain ⟨⟨addr, input₄⟩, haddr, h⟩ := h
    have h₁ := length_of_readUnsignedByte hversion
    have h₂ := length_of_readUnsignedByte hcommand
    have h₃ := length_of_readUnsignedShort hport
    have h₄ : 4 ≤ input₃.content.length := length_of_readFully haddr
    omega

theorem Socks5Message.class_of_read {input input' : ByteStream} {platform : Platform}
    {doResolveIP : Bool} {msg : ProxyMessage}
    (h : Socks5Message.read platform doResolveIP false input = .ok (msg, input')) :
    msg.messageClass ≠ .socks4 := by
  rw [Socks5Message.read, bind_eq_ok] at h
  obtain ⟨⟨version, input₁⟩, -, h⟩ := h
  rw [bind_eq_ok] at h
  obtain ⟨⟨command, input₂⟩, -, h⟩ := h
  simp only [Bool.false_eq_true, false_and, if_false] at h
  rw [bind_eq_ok] at h
  obtain ⟨⟨reserved, input₃⟩, -, h⟩ := h
  rw [bind_eq_ok] at h
  obtain ⟨⟨addrType, input₄⟩, -, h⟩ := h
  rw [bind_eq_ok] at h
  obtain ⟨⟨host, input₅⟩, -, h⟩ := h
  rw [bind_eq_ok] at h
  obtain ⟨⟨port, input₆⟩, -, h⟩ := h
  cases h
  simp

theorem readMsg_cons {input : ByteStream} {version : UInt8} {rest : List UInt8}
    (platform : Platform) (doResolveIP : Bool) (h : input.content = version :: rest) :
    ∃ input', input'.content = version :: rest ∧
      readMsg platform doResolveIP input =
        if version = 5 then Socks5Message.read platform doResolveIP false input'
        else if version = 4 then Socks4Message.read platform false input'
        else throwSocks SOCKS_FAILURE := by
  obtain ⟨input₁, hread, hrest, hpushed⟩ := ByteStream.read_cons h
  obtain ⟨input₂, hunread, hcontent⟩ := ByteStream.unread_content hpushed version
  refine ⟨input₂, by rw [hcontent, hrest], ?_⟩
  simp [readMsg, hread, hunread]

/-- The bytes of a request that was read as a SOCKS4 request, and its user. -/
theorem readMsg_socks4 {input input' : ByteStream} {platform : Platform} {doResolveIP : Bool}
    {msg : ProxyMessage} (h : readMsg platform doResolveIP input = .ok (msg, input'))
    (hclass : msg.messageClass = .socks4) :
    ∃ command high low a b c d rest,
      input.content = 4 :: command :: high :: low :: a :: b :: c :: d :: rest ∧
      msg.command = command.toNat ∧ msg.user = some (platform.newString (userField rest)) := by
  rcases hcontent : input.content with _ | ⟨version, tail⟩
  · simp only [readMsg, ByteStream.read_nil hcontent, reduceCtorEq, if_false] at h
    split at h <;> cases h
  · obtain ⟨input₁, hstart, hread⟩ := readMsg_cons platform doResolveIP hcontent
    rw [hread] at h
    split at h
    · exact absurd hclass (Socks5Message.class_of_read h)
    · split at h
      · rename_i hversion
        obtain ⟨version', command, high, low, a, b, c, d, rest, hbytes⟩ :=
          Socks4Message.content_of_read h
        obtain ⟨input₂, hrequest, -⟩ := Socks4Message.read_request platform hbytes
        rw [h] at hrequest
        cases hrequest
        rw [hstart, hversion] at hbytes
        cases hbytes
        exact ⟨command, high, low, a, b, c, d, rest, by rw [hversion], rfl, rfl⟩
      · cases h

end TorAndroid.Socks.Message
