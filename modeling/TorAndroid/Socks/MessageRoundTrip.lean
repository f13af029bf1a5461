import TorAndroid.Socks.Requests

namespace TorAndroid.Socks.MessageRoundTrip

open TorAndroid.Lib.Fragments
open TorAndroid.Lib.Throwing
open TorAndroid.Socks.Basic
open TorAndroid.Socks.Message
open TorAndroid.Socks.Requests

/-- `Socks5Message.getInetAddress`. -/
def getInetAddress (platform : Platform) (msg : ProxyMessage) : Java InetAddress :=
  match msg.ip with
  | some ip => .ok ip
  | none =>
      match platform.getByName msg.host with
      | some ip => .ok ip
      | none => .error (.io .unknownHost)

/-- `Socks5Message.write` of a message that was read: its bytes are put together
anew. -/
def write (platform : ClientPlatform) (msg : ProxyMessage) : Java (List UInt8) :=
  if msg.messageClass = .socks5 SOCKS_ATYP_DOMAINNAME then
    match msg.host with
    | some hostName =>
        .ok (Socks5Message.ofName msg.command (platform.getBytes hostName) msg.port)
    | none => .error (.unchecked .nullPointer)
  else
    match msg.ip with
    | some ip => .ok (Socks5Message.ofAddress msg.command ip msg.port)
    | none =>
        match platform.getByName msg.host with
        | some ip => .ok (Socks5Message.ofAddress msg.command ip msg.port)
        | none => throwSocks SOCKS_JUST_ERROR

section Socks5

variable {platform : Platform} {input : ByteStream}

/-- The message for a header, a host text and a port. -/
def received (platform : Platform) (doResolveIP : Bool) (version command addrType : UInt8)
    (host : Option String) (port : Nat) : ProxyMessage where
  messageClass := .socks5 addrType.toNat
  version := version.toNat
  command := command.toNat
  ip :=
    if addrType.toNat ≠ SOCKS_ATYP_DOMAINNAME ∧ doResolveIP = true then platform.getByName host
    else none
  host := host
  port := port
  user := none

/-- The bytes `field` are read as the address, whatever follows them. -/
def ReadsAddress (platform : Platform) (addrType : UInt8) (field : List UInt8)
    (host : Option String) : Prop :=
  ∀ (input : ByteStream) (rest : List UInt8), input.content = field ++ rest →
    ∃ input', readAddress platform addrType.toNat input = .ok (host, input') ∧
      input'.content = rest

theorem readsAddress_ipv4 {addr : List UInt8} (h : addr.length = 4) :
    ReadsAddress platform 1 addr (some (bytes2IPV4 addr)) := by
  intro input rest hcontent
  obtain ⟨input', hread, hrest⟩ := readFully_content hcontent
  rw [h] at hread
  exact ⟨input', by simp [readAddress, SOCKS_ATYP_IPV4, hread], hrest⟩

theorem readsAddress_ipv6 {addr : List UInt8} (h : addr.length = 16) :
    ReadsAddress platform 4 addr none := by
  intro input rest hcontent
  obtain ⟨input', hread, hrest⟩ := readFully_content hcontent
  rw [h] at hread
  refine ⟨input', ?_, hrest⟩
  simp [readAddress, SOCKS_ATYP_IPV4, SOCKS_ATYP_IPV6, SOCKS_IPV6_LENGTH, hread, bytes2IPV6]

theorem readsAddress_name {len : UInt8} {addr : List UInt8} (h : len.toNat = addr.length) :
    ReadsAddress platform 3 (len :: addr) (some (platform.newString addr)) := by
  intro input rest hcontent
  obtain ⟨input₁, hlen, hrest₁⟩ := readUnsignedByte_cons hcontent
  obtain ⟨input₂, hread, hrest₂⟩ := readFully_content hrest₁
  rw [← h] at hread
  refine ⟨input₂, ?_, hrest₂⟩
  simp [readAddress, SOCKS_ATYP_IPV4, SOCKS_ATYP_IPV6, SOCKS_ATYP_DOMAINNAME, hlen, hread]

theorem read_of_readsAddress (doResolveIP clientMode : Bool)
    {version command reserved addrType high low : UInt8} {field rest : List UInt8}
    {host : Option String} (hmode : clientMode = true → command = 0)
    (haddress : ReadsAddress platform addrType field host)
    (h : input.content =
      version :: command :: reserved :: addrType :: (field ++ high :: low :: rest)) :
    ∃ input', Socks5Message.read platform doResolveIP clientMode input =
        .ok (received platform doResolveIP version command addrType host
          (high.toNat * 256 + low.toNat), input') ∧
      input'.content = rest := by
  have hread : ¬ (clientMode = true ∧ command.toNat ≠ 0) := by
    rintro ⟨hclient, hne⟩
    exact hne (by rw [hmode hclient]; rfl)
  obtain ⟨input₁, hversion, hrest₁⟩ := readUnsignedByte_cons h
  obtain ⟨input₂, hcommand, hrest₂⟩ := readUnsignedByte_cons hrest₁
  obtain ⟨input₃, hreserved, hrest₃⟩ := readUnsignedByte_cons hrest₂
  obtain ⟨input₄, htype, hrest₄⟩ := readUnsignedByte_cons hrest₃
  obtain ⟨input₅, hhost, hrest₅⟩ := haddress input₄ _ hrest₄
  obtain ⟨input₆, hport, hrest₆⟩ := readUnsignedShort_cons hrest₅
  refine ⟨input₆, ?_, hrest₆⟩
  simp only [Socks5Message.read, hversion, hcommand, ok_bind, if_neg hread, hreserved, htype, hhost,
    hport]
  rfl

end Socks5

section Address

variable {input : ByteStream} {rest : List UInt8}

theorem portNat_portBytes {port : Nat} (h : port < 65536) :
    (toByte ((port : Int) / 256)).toNat * 256 + (toByte (port : Int)).toNat = port := by
  have hport : portOf (toByte ((port : Int) / 256)) (toByte (port : Int)) = port :=
    portOf_portBytes (by omega)
  unfold portOf at hport
  omega

/-- The host text of an address as a server reads it. -/
def hostOf (ip : InetAddress) : Option String :=
  if ip.octets.length = 4 then some (bytes2IPV4 ip.octets) else none

theorem readsAddress_octets (platform : Platform) (ip : InetAddress) :
    ReadsAddress platform (if ip.octets.length = 4 then 1 else 4) ip.octets (hostOf ip) := by
  unfold hostOf
  rcases ip.valid with hlen | hlen
  · rw [if_pos hlen, if_pos hlen]
    exact readsAddress_ipv4 hlen
  · rw [if_neg (by omega), if_neg (by omega)]
    exact readsAddress_ipv6 hlen

theorem read_ofAddress (platform : Platform) (doResolveIP : Bool) (command : Nat) {port : Nat}
    (ip : InetAddress) (hport : port < 65536)
    (h : input.content = Socks5Message.ofAddress command ip port ++ rest) :
    ∃ input', Socks5Message.read platform doResolveIP false input =
        .ok (received platform doResolveIP 5 (UInt8.ofNat command)
          (if ip.octets.length = 4 then 1 else 4) (hostOf ip) port, input') ∧
      input'.content = rest := by
  obtain ⟨input', hread, hrest⟩ := read_of_readsAddress doResolveIP false
    (by simp) (readsAddress_octets platform ip)
    (show input.content = 5 :: UInt8.ofNat command :: 0 ::
        (if ip.octets.length = 4 then 1 else 4) ::
        (ip.octets ++ toByte ((port : Int) / 256) :: toByte port :: rest) by
      simp [h, Socks5Message.ofAddress, portBytes])
  rw [portNat_portBytes hport] at hread
  exact ⟨input', hread, hrest⟩

/-- The address a server takes the host text of `ip` for. -/
def readBack (ip : InetAddress) : InetAddress :=
  if ip.octets.length = 4 then ip else .loopback

theorem getByName_hostOf (platform : Platform) (ip : InetAddress) :
    platform.getByName (hostOf ip) = some (readBack ip) := by
  rcases ip with ⟨octets, hvalid⟩
  by_cases h : octets.length = 4
  · obtain ⟨a, b, c, d, rfl⟩ : ∃ a b c d, octets = [a, b, c, d] := by
      rcases octets with _ | ⟨a, _ | ⟨b, _ | ⟨c, _ | ⟨d, _ | ⟨e, tail⟩⟩⟩⟩⟩ <;> simp at h
      exact ⟨a, b, c, d, rfl⟩
    simp only [hostOf, readBack, h, if_true]
    exact getByName_bytes2IPV4 platform a b c d
  · simp [hostOf, readBack, h, Platform.getByName]

theorem readBack_eq_iff (ip : InetAddress) : readBack ip = ip ↔ ip.octets.length = 4 := by
  constructor
  · intro h
    by_contra hne
    rw [readBack, if_neg hne] at h
    rw [← h] at hne
    exact hne rfl
  · intro h
    rw [readBack, if_pos h]

/-- The address type byte of a message with an address is never that of a name. -/
theorem addrType_ne_domainName (ip : InetAddress) :
    (if ip.octets.length = 4 then 1 else 4 : UInt8).toNat ≠ SOCKS_ATYP_DOMAINNAME := by
  split <;> decide

variable (platform : Platform) (doResolveIP : Bool) (command : UInt8) (ip : InetAddress)
  (port : Nat)

theorem getInetAddress_received (version : UInt8) :
    getInetAddress platform (received platform doResolveIP version command
      (if ip.octets.length = 4 then 1 else 4) (hostOf ip) port) = .ok (readBack ip) := by
  cases doResolveIP <;>
    simp [getInetAddress, received, addrType_ne_domainName, getByName_hostOf]

theorem write_received (platform : ClientPlatform) :
    write platform (received platform.toPlatform doResolveIP 5 command
      (if ip.octets.length = 4 then 1 else 4) (hostOf ip) port) =
        .ok (Socks5Message.ofAddress command.toNat (readBack ip) port) := by
  cases doResolveIP <;>
    simp [write, received, addrType_ne_domainName, getByName_hostOf]

end Address

/-- The bytes of a message with an address: version 5, any command, a zero byte,
and an address of the size its type says, with a port. -/
def AddressTyped : List UInt8 → Prop
  | 5 :: _ :: 0 :: addrType :: rest =>
      addrType = 1 ∧ rest.length = 6 ∨ addrType = 4 ∧ rest.length = 18
  | _ => False

theorem portBytes_ofBytes (high low : UInt8) :
    portBytes ((high.toNat * 256 + low.toNat : Nat) : Int) = [high, low] := by
  have hhigh := high.toNat_lt
  have hlow := low.toNat_lt
  have hdiv : (((high.toNat * 256 + low.toNat : Nat) : Int) / 256 % 256).toNat = high.toNat := by
    omega
  have hmod : (((high.toNat * 256 + low.toNat : Nat) : Int) % 256).toNat = low.toNat := by
    omega
  simp only [portBytes, toByte, hdiv, hmod, UInt8.ofNat_toNat]

theorem exists_port {rest : List UInt8} {n : Nat} (h : rest.length = n + 2) :
    ∃ addr high low, rest = addr ++ [high, low] ∧ addr.length = n := by
  have hdrop : (rest.drop n).length = 2 := by
    rw [List.length_drop]
    omega
  obtain ⟨high, low, hport⟩ := List.length_eq_two.mp hdrop
  refine ⟨rest.take n, high, low, ?_, by rw [List.length_take]; omega⟩
  rw [← hport, List.take_append_drop]

theorem AddressTyped.exists_ofAddress {bytes : List UInt8} (h : AddressTyped bytes) :
    ∃ (command : UInt8) (ip : InetAddress) (port : Nat), port < 65536 ∧
      bytes = Socks5Message.ofAddress command.toNat ip port ∧
      (bytes[3]? = some 1 ↔ ip.octets.length = 4) := by
  unfold AddressTyped at h
  split at h
  · rename_i command addrType rest
    rcases h with ⟨rfl, hlen⟩ | ⟨rfl, hlen⟩
    · obtain ⟨addr, high, low, rfl, haddr⟩ := exists_port hlen
      have hhigh := high.toNat_lt
      have hlow := low.toNat_lt
      refine ⟨command, ⟨addr, .inl haddr⟩, high.toNat * 256 + low.toNat, by omega, ?_, ?_⟩
      · rw [Socks5Message.ofAddress, portBytes_ofBytes]
        simp [haddr]
      · simp [haddr]
    · obtain ⟨addr, high, low, rfl, haddr⟩ := exists_port hlen
      have hhigh := high.toNat_lt
      have hlow := low.toNat_lt
      refine ⟨command, ⟨addr, .inr haddr⟩, high.toNat * 256 + low.toNat, by omega, ?_, ?_⟩
      · rw [Socks5Message.ofAddress, portBytes_ofBytes]
        simp [haddr]
      · simp [haddr]
  · cases h

theorem ofAddress_inj_iff (command : Nat) (ip : InetAddress) (port : Int) :
    Socks5Message.ofAddress command (readBack ip) port = Socks5Message.ofAddress command ip port ↔
      ip.octets.length = 4 := by
  constructor
  · intro h
    by_contra hne
    have hlength := congrArg List.length h
    simp only [Socks5Message.ofAddress, readBack, if_neg hne, InetAddress.loopback,
      InetAddress.v4, List.length_append, List.length_cons, List.length_nil] at hlength
    rcases ip.valid with hlen | hlen <;> omega
  · intro h
    rw [(readBack_eq_iff ip).mpr h]

section AddressClaim

variable (platform : ClientPlatform) (doResolveIP : Bool) (rest : List UInt8) (input : ByteStream)

/-- A message with an address is read back with its command, port and address,
and nothing after it is consumed. -/
def AddressReadBack (command : Nat) (ip : InetAddress) (port : Nat) : Prop :=
  ∃ msg input', Socks5Message.read platform.toPlatform doResolveIP false input =
      .ok (msg, input') ∧
    msg.command = command ∧ msg.port = port ∧
    getInetAddress platform.toPlatform msg = .ok ip ∧ input'.content = rest

/-- The message that is read is written as the bytes it was read from. -/
def WrittenBack (bytes : List UInt8) : Prop :=
  ∃ msg input', Socks5Message.read platform.toPlatform doResolveIP false input =
      .ok (msg, input') ∧
    write platform msg = .ok bytes ∧ input'.content = rest

theorem addressReadBack_iff {command port : Nat} (ip : InetAddress) (hcommand : command < 256)
    (hport : port < 65536)
    (h : input.content = Socks5Message.ofAddress command ip port ++ rest) :
    AddressReadBack platform doResolveIP rest input command ip port ↔ ip.octets.length = 4 := by
  obtain ⟨input', hread, hrest⟩ :=
    read_ofAddress platform.toPlatform doResolveIP command ip hport h
  constructor
  · rintro ⟨msg, input'', hread', -, -, haddress, -⟩
    rw [hread] at hread'
    cases hread'
    rw [getInetAddress_received] at haddress
    exact (readBack_eq_iff ip).mp (Except.ok.inj haddress)
  · intro hlen
    refine ⟨_, input', hread, toNat_command hcommand, rfl, ?_, hrest⟩
    rw [getInetAddress_received, (readBack_eq_iff ip).mpr hlen]

theorem writtenBack_iff {bytes : List UInt8} (hbytes : AddressTyped bytes)
    (h : input.content = bytes ++ rest) :
    WrittenBack platform doResolveIP rest input bytes ↔ bytes[3]? = some 1 := by
  obtain ⟨command, ip, port, hport, rfl, htype⟩ := hbytes.exists_ofAddress
  obtain ⟨input', hread, hrest⟩ :=
    read_ofAddress platform.toPlatform doResolveIP command.toNat ip hport h
  rw [UInt8.ofNat_toNat] at hread
  rw [htype]
  constructor
  · rintro ⟨msg, input'', hread', hwrite, -⟩
    rw [hread] at hread'
    cases hread'
    rw [write_received] at hwrite
    exact (ofAddress_inj_iff _ ip port).mp (Except.ok.inj hwrite)
  · intro hlen
    refine ⟨_, input', hread, ?_, hrest⟩
    rw [write_received, (readBack_eq_iff ip).mpr hlen]

end AddressClaim

/-- Addresses make the round trip exactly when they are IPv4 addresses: an IPv6
address has no host text and is read as the loopback address. -/
theorem address_roundTrip_iff (platform : ClientPlatform) (doResolveIP : Bool)
    (rest : List UInt8) (input : ByteStream) :
    (∀ (command : Nat) (ip : InetAddress) (port : Nat), command < 256 → port < 65536 →
      input.content = Socks5Message.ofAddress command ip port ++ rest →
        (AddressReadBack platform doResolveIP rest input command ip port ↔
          ip.octets.length = 4)) ∧
    (∀ bytes : List UInt8, AddressTyped bytes → input.content = bytes ++ rest →
      (WrittenBack platform doResolveIP rest input bytes ↔ bytes[3]? = some 1)) := by
  constructor
  · intro command ip port hcommand hport h
    exact addressReadBack_iff platform doResolveIP rest input ip hcommand hport h
  · intro bytes hbytes h
    exact writtenBack_iff platform doResolveIP rest input hbytes h

theorem address_roundTrip_ipv4 :
    AddressReadBack .latin1 true [7] (.ofBytes [5, 1, 0, 1, 10, 0, 0, 1, 0, 80, 7] [3]) 1
        (.v4 10 0 0 1) 80 ∧
      WrittenBack .latin1 false [7] (.ofBytes [5, 1, 0, 1, 10, 0, 0, 1, 0, 80, 7] [3])
        [5, 1, 0, 1, 10, 0, 0, 1, 0, 80] :=
  ⟨((address_roundTrip_iff .latin1 true [7] _).1 1 (.v4 10 0 0 1) 80 (by decide) (by decide)
      (by decide)).mpr rfl,
    ((address_roundTrip_iff .latin1 false [7] _).2 [5, 1, 0, 1, 10, 0, 0, 1, 0, 80]
      (.inl ⟨rfl, rfl⟩) rfl).mpr rfl⟩

/-- The address `2001:db8::1`. -/
def documentationAddress : InetAddress :=
  ⟨[32, 1, 13, 184] ++ List.replicate 11 0 ++ [1], .inr rfl⟩

theorem address_not_readBack_ipv6 :
    ¬ AddressReadBack .latin1 true []
      (.ofBytes (Socks5Message.ofAddress 1 documentationAddress 443) []) 1
      documentationAddress 443 := by
  intro h
  have hlen := (addressReadBack_iff .latin1 true [] _ documentationAddress (by decide) (by decide)
    (by simp)).mp h
  exact absurd hlen (by decide)

section HostName

variable (platform : ClientPlatform) (doResolveIP : Bool) (rest : List UInt8) (input : ByteStream)

/-- A message with a host name is read back with its command, host and port, and
nothing after it is consumed. -/
def NameReadBack (command : Nat) (hostName : String) (port : Nat) : Prop :=
  ∃ msg input', Socks5Message.read platform.toPlatform doResolveIP false input =
      .ok (msg, input') ∧
    msg.command = command ∧ msg.host = some hostName ∧ msg.port = port ∧ input'.content = rest

/-- What a server reads from a message with a name of any length: the length is
cut to one byte, so a long name ends early. -/
theorem read_ofName {command : Nat} {addr : List UInt8} {port : Nat}
    (h : input.content = Socks5Message.ofName command addr port ++ rest) :
    ∃ high low later input', Socks5Message.read platform.toPlatform doResolveIP false input =
        .ok (received platform.toPlatform doResolveIP 5 (UInt8.ofNat command) 3
          (some (platform.newString (addr.take (addr.length % 256))))
          (high.toNat * 256 + low.toNat), input') ∧
      input'.content = later ∧
      addr.drop (addr.length % 256) ++ portBytes port ++ rest = high :: low :: later := by
  have hlen : (UInt8.ofNat addr.length).toNat = (addr.take (addr.length % 256)).length := by
    rw [UInt8.toNat_ofNat', List.length_take]
    omega
  obtain ⟨high, low, later, hport⟩ : ∃ high low later,
      addr.drop (addr.length % 256) ++ portBytes port ++ rest = high :: low :: later := by
    rcases addr.drop (addr.length % 256) with _ | ⟨high, _ | ⟨low, tail⟩⟩
    · exact ⟨_, _, _, rfl⟩
    · exact ⟨_, _, _, rfl⟩
    · exact ⟨_, _, _, rfl⟩
  have hsplit : input.content = 5 :: UInt8.ofNat command :: 0 :: 3 ::
      (UInt8.ofNat addr.length :: addr.take (addr.length % 256) ++ high :: low :: later) := by
    rw [h, ← hport]
    simp only [Socks5Message.ofName, List.cons_append, List.nil_append, List.append_assoc]
    rw [← List.append_assoc (addr.take _), List.take_append_drop]
  obtain ⟨input', hread, hrest⟩ :=
    read_of_readsAddress doResolveIP false (by simp) (readsAddress_name hlen) hsplit
  exact ⟨high, low, later, input', hread, hrest, hport⟩

theorem length_of_nameReadBack {command port : Nat} {hostName : String}
    (h : input.content =
      Socks5Message.ofName command (platform.getBytes hostName) port ++ rest)
    (hback : NameReadBack platform doResolveIP rest input command hostName port) :
    (platform.getBytes hostName).length ≤ 255 := by
  obtain ⟨high, low, later, input', hread, hrest, hbytes⟩ := read_ofName platform doResolveIP _ _ h
  obtain ⟨msg, input'', hread', -, -, -, hrest'⟩ := hback
  rw [hread] at hread'
  cases hread'
  rw [hrest] at hrest'
  subst hrest'
  have hlength := congrArg List.length hbytes
  simp only [List.length_append, List.length_drop, portBytes, List.length_cons,
    List.length_nil] at hlength
  omega

/-- A host name makes the round trip exactly when its encoding has at most 255
bytes and is decoded to the name again. -/
theorem hostName_roundTrip_iff {command port : Nat} (hostName : String) (hcommand : command < 256)
    (hport : port < 65536)
    (h : input.content =
      Socks5Message.ofName command (platform.getBytes hostName) port ++ rest) :
    NameReadBack platform doResolveIP rest input command hostName port ↔
      (platform.getBytes hostName).length ≤ 255 ∧
        platform.newString (platform.getBytes hostName) = hostName := by
  obtain ⟨high, low, later, input', hread, hrest, hbytes⟩ := read_ofName platform doResolveIP _ _ h
  have hmod : (platform.getBytes hostName).length ≤ 255 →
      (platform.getBytes hostName).length % 256 = (platform.getBytes hostName).length := by
    intro hlen
    omega
  constructor
  · intro hback
    have hlen := length_of_nameReadBack platform doResolveIP rest input h hback
    obtain ⟨msg, input'', hread', -, hhost, -, -⟩ := hback
    rw [hread] at hread'
    cases hread'
    rw [hmod hlen, List.take_length] at hhost
    exact ⟨hlen, Option.some.inj hhost⟩
  · rintro ⟨hlen, hdecode⟩
    rw [hmod hlen, List.drop_length] at hbytes
    simp only [portBytes, List.nil_append, List.cons_append, List.cons.injEq] at hbytes
    obtain ⟨rfl, rfl, rfl⟩ := hbytes
    refine ⟨_, input', hread, toNat_command hcommand, ?_, portNat_portBytes hport, hrest⟩
    rw [hmod hlen, List.take_length, hdecode]
    rfl

theorem hostName_roundTrip_short :
    NameReadBack .latin1 true [7] (.ofBytes [5, 1, 0, 3, 1, 97, 0, 80, 7] []) 1 "a" 80 :=
  (hostName_roundTrip_iff .latin1 true [7] (.ofBytes [5, 1, 0, 3, 1, 97, 0, 80, 7] []) "a"
    (by decide) (by decide) (by decide)).mpr (by decide)

theorem getBytes_replicate (n : Nat) :
    ClientPlatform.latin1.getBytes (String.ofList (List.replicate n 'a')) =
      List.replicate n 97 := by
  simp [ClientPlatform.latin1]

theorem hostName_not_readBack_long :
    ¬ NameReadBack .latin1 true []
      (.ofBytes (Socks5Message.ofName 1 (List.replicate 256 97) 80) []) 1
      (String.ofList (List.replicate 256 'a')) 80 := by
  intro h
  have hlen := length_of_nameReadBack .latin1 true [] _
    (by rw [getBytes_replicate, List.append_nil, ByteStream.content_ofBytes, Int.cast_ofNat_Int]) h
  rw [getBytes_replicate, List.length_replicate] at hlen
  omega

end HostName

section User

variable (platform : ClientPlatform)

/-- The request of a user is built without an exception, and read back with its
command, port, address and user, and nothing after it is consumed. -/
def UserReadBack (command : Nat) (ip : InetAddress) (port : Nat) (user : String)
    (rest : List UInt8) : Prop :=
  ∃ bytes, Socks4Message.ofAddress platform command ip port user = .ok bytes ∧
    ∀ input : ByteStream, input.content = bytes ++ rest →
      ∃ msg input', Socks4Message.read platform.toPlatform false input = .ok (msg, input') ∧
        msg.command = command ∧ msg.port = port ∧ msg.ip = some ip ∧ msg.user = some user ∧
        input'.content = rest

/-- The encoding of the user has a byte for each UTF-16 unit, and at most one more,
which is not sent; the bytes sent are at most 256, none is zero, and they are decoded
to the user again. -/
def UserFits (user : String) : Prop :=
  utf16Length user ≤ (platform.getBytes user).length ∧
    (platform.getBytes user).length ≤ utf16Length user + 1 ∧
    utf16Length user ≤ 256 ∧
    0 ∉ (platform.getBytes user).take (utf16Length user) ∧
    platform.newString ((platform.getBytes user).take (utf16Length user)) = user

/-- The bytes of the user field before the zero byte at its end. -/
def sentUser (user : String) : List UInt8 :=
  (platform.getBytes user ++
    List.replicate (utf16Length user + 1 - (platform.getBytes user).length) 0).take
      (utf16Length user)

variable {platform} {user : String}

theorem length_sentUser (h : (platform.getBytes user).length ≤ utf16Length user + 1) :
    (sentUser platform user).length = utf16Length user := by
  rw [sentUser, List.length_take, List.length_append, List.length_replicate]
  omega

theorem zero_mem_sentUser (h : (platform.getBytes user).length < utf16Length user) :
    0 ∈ sentUser platform user := by
  rw [sentUser, List.take_append, List.take_of_length_le (by omega), List.mem_append]
  right
  rw [List.take_replicate, List.mem_replicate]
  exact ⟨by omega, rfl⟩

theorem sentUser_eq (h : utf16Length user ≤ (platform.getBytes user).length) :
    sentUser platform user = (platform.getBytes user).take (utf16Length user) := by
  rw [sentUser, List.take_append_of_le_length h]

theorem userFits_iff : UserFits platform user ↔
    (platform.getBytes user).length ≤ utf16Length user + 1 ∧ utf16Length user ≤ 256 ∧
      0 ∉ sentUser platform user ∧ platform.newString (sentUser platform user) = user := by
  constructor
  · rintro ⟨hlow, hhigh, hbound, hzero, hdecode⟩
    rw [sentUser_eq hlow]
    exact ⟨hhigh, hbound, hzero, hdecode⟩
  · rintro ⟨hhigh, hbound, hzero, hdecode⟩
    have hlow : utf16Length user ≤ (platform.getBytes user).length := by
      by_contra hshort
      exact hzero (zero_mem_sentUser (by omega))
    rw [sentUser_eq hlow] at hzero hdecode
    exact ⟨hlow, hhigh, hbound, hzero, hdecode⟩

theorem takeWhile_nonzero {sent later : List UInt8} (h : 0 ∉ sent) :
    (sent ++ 0 :: later).takeWhile (· ≠ 0) = sent := by
  rw [List.takeWhile_append_of_pos]
  · simp
  · intro b hb
    have hne : b ≠ 0 := by
      rintro rfl
      exact h hb
    simp [hne]

theorem length_takeWhile_lt {sent : List UInt8} (later : List UInt8) (h : 0 ∈ sent) :
    ((sent ++ later).takeWhile (· ≠ 0)).length < sent.length := by
  induction sent with
  | nil => cases h
  | cons b sent ih =>
      by_cases hb : b = 0
      · simp [hb]
      · have hmem : 0 ∈ sent := (List.mem_cons.mp h).resolve_left (Ne.symm hb)
        simpa [hb] using ih hmem

/-- Exactly the field and its zero byte are consumed when the field has at most
256 bytes and no zero byte. -/
theorem drop_user_eq_iff (sent rest : List UInt8) :
    (sent ++ 0 :: rest).drop (min ((sent ++ 0 :: rest).takeWhile (· ≠ 0)).length 256 + 1) = rest ↔
      sent.length ≤ 256 ∧ 0 ∉ sent := by
  constructor
  · intro h
    have hlength := congrArg List.length h
    rw [List.length_drop, List.length_append, List.length_cons] at hlength
    by_cases hzero : 0 ∈ sent
    · have hlt := length_takeWhile_lt (0 :: rest) hzero
      omega
    · rw [takeWhile_nonzero hzero] at hlength
      exact ⟨by omega, hzero⟩
  · rintro ⟨hbound, hzero⟩
    rw [takeWhile_nonzero hzero, Nat.min_eq_left hbound, List.drop_append]
    simp

theorem ofAddress_eq (command : Nat) (a b c d : UInt8) (port : Nat)
    (h : (platform.getBytes user).length ≤ utf16Length user + 1) :
    Socks4Message.ofAddress platform command (.v4 a b c d) port user =
      .ok (4 :: UInt8.ofNat command :: toByte ((port : Int) / 256) :: toByte port :: a :: b :: c ::
        d :: (sentUser platform user ++ [0])) := by
  simp only [Socks4Message.ofAddress, InetAddress.v4]
  rw [if_neg (by omega)]
  simp [portBytes, sentUser]

theorem sent_content {command port : Nat} {a b c d : UInt8} {sent rest : List UInt8}
    {input : ByteStream}
    (h : input.content = 4 :: UInt8.ofNat command :: toByte ((port : Int) / 256) :: toByte port ::
      a :: b :: c :: d :: (sent ++ [0]) ++ rest) :
    input.content = 4 :: UInt8.ofNat command :: toByte ((port : Int) / 256) :: toByte port ::
      a :: b :: c :: d :: (sent ++ 0 :: rest) := by
  simpa using h

theorem UserReadBack.fits {command port : Nat} {a b c d : UInt8} {rest : List UInt8}
    (h : UserReadBack platform command (.v4 a b c d) port user rest) : UserFits platform user := by
  obtain ⟨bytes, hok, hback⟩ := h
  obtain ⟨input, hinput⟩ : ∃ input : ByteStream, input.content = bytes ++ rest :=
    ⟨.ofBytes _ [], rfl⟩
  obtain ⟨msg, input', hread, -, -, -, huser, hrest⟩ := hback input hinput
  rw [userFits_iff]
  by_cases hbuilt : (platform.getBytes user).length ≤ utf16Length user + 1
  · rw [ofAddress_eq command a b c d port hbuilt] at hok
    cases hok
    obtain ⟨input'', hread', hrest'⟩ :=
      Socks4Message.read_request platform.toPlatform (sent_content hinput)
    rw [hread] at hread'
    cases hread'
    rw [hrest] at hrest'
    obtain ⟨hbound, hzero⟩ := (drop_user_eq_iff _ rest).mp hrest'.symm
    refine ⟨hbuilt, length_sentUser hbuilt ▸ hbound, hzero, ?_⟩
    simp only [Socks4Message.request, userField, takeWhile_nonzero hzero,
      List.take_of_length_le hbound, Option.some.injEq] at huser
    exact huser
  · simp only [Socks4Message.ofAddress, if_pos (Nat.lt_of_not_le hbuilt)] at hok
    cases hok

theorem UserFits.readBack {command port : Nat} (hfits : UserFits platform user)
    (hcommand : command < 256) (hport : port < 65536) (a b c d : UInt8) (rest : List UInt8) :
    UserReadBack platform command (.v4 a b c d) port user rest := by
  obtain ⟨hbuilt, hbound, hzero, hdecode⟩ := userFits_iff.mp hfits
  rw [← length_sentUser hbuilt] at hbound
  refine ⟨_, ofAddress_eq command a b c d port hbuilt, ?_⟩
  intro input h
  obtain ⟨input', hread, hrest⟩ :=
    Socks4Message.read_request platform.toPlatform (sent_content h)
  rw [(drop_user_eq_iff _ rest).mpr ⟨hbound, hzero⟩] at hrest
  refine ⟨_, input', hread, toNat_command hcommand, portNat_portBytes hport, rfl, ?_, hrest⟩
  simp only [Socks4Message.request, userField, takeWhile_nonzero hzero,
    List.take_of_length_le hbound, hdecode]

end User

/-- A SOCKS4 request makes the round trip exactly when the user name fits the
array of the constructor byte for byte and the 256 bytes of the reader. -/
theorem socks4_roundTrip_iff (platform : ClientPlatform) {command port : Nat}
    (hcommand : command < 256) (hport : port < 65536) (a b c d : UInt8) (user : String)
    (rest : List UInt8) :
    UserReadBack platform command (.v4 a b c d) port user rest ↔ UserFits platform user := by
  constructor
  · intro h
    exact h.fits
  · intro h
    exact h.readBack hcommand hport a b c d rest

theorem socks4_roundTrip_ascii :
    UserReadBack .latin1 1 (.v4 10 0 0 1) 80 "bob" [5, 0] :=
  (socks4_roundTrip_iff .latin1 (by decide) (by decide) 10 0 0 1 "bob" [5, 0]).mpr (by
    unfold UserFits
    decide)

theorem utf16Length_replicate (n : Nat) :
    utf16Length (String.ofList (List.replicate n 'a')) = n := by
  simp [utf16Length]

theorem socks4_user_not_readBack_long :
    ¬ UserReadBack .latin1 1 (.v4 10 0 0 1) 80 (String.ofList (List.replicate 257 'a')) [] := by
  intro h
  obtain ⟨-, -, hbound, -, -⟩ := h.fits
  rw [utf16Length_replicate] at hbound
  omega

end TorAndroid.Socks.MessageRoundTrip
