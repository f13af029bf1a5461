import TorAndroid.Socks.Datagram

namespace TorAndroid.Socks.Datagram

open TorAndroid.Lib.Fragments
open TorAndroid.Lib.Throwing
open TorAndroid.Socks.Basic
open TorAndroid.Socks.Message
open TorAndroid.Socks.MessageRoundTrip
open TorAndroid.Socks.Requests

section Prefixes

/-- Where `x` succeeds it has read some first bytes of the stream, and it reads the
same from every stream that starts with these. -/
def ReadsPrefix {α : Type} (x : ByteStream → Java (α × ByteStream)) : Prop :=
  ∀ input a input', x input = .ok (a, input') → ∃ field, input.content = field ++ input'.content ∧
    ∀ (other : ByteStream) (rest : List UInt8), other.content = field ++ rest →
      ∃ other', x other = .ok (a, other') ∧ other'.content = rest

variable {α β : Type}

theorem readsPrefix_bind {x : ByteStream → Java (α × ByteStream)}
    {f : α × ByteStream → Java (β × ByteStream)} (hx : ReadsPrefix x)
    (hf : ∀ a, ReadsPrefix fun input => f (a, input)) :
    ReadsPrefix fun input => x input >>= f := by
  intro input b input' h
  obtain ⟨⟨a, input₁⟩, hfirst, hsecond⟩ := bind_eq_ok.mp h
  obtain ⟨field₁, hcontent₁, hagain₁⟩ := hx input a input₁ hfirst
  obtain ⟨field₂, hcontent₂, hagain₂⟩ := hf a input₁ b input' hsecond
  refine ⟨field₁ ++ field₂, by rw [hcontent₁, hcontent₂, List.append_assoc], ?_⟩
  intro other rest hother
  rw [List.append_assoc] at hother
  obtain ⟨other₁, hread₁, hrest₁⟩ := hagain₁ other _ hother
  obtain ⟨other₂, hread₂, hrest₂⟩ := hagain₂ other₁ rest hrest₁
  exact ⟨other₂, by simp only [hread₁, ok_bind]; exact hread₂, hrest₂⟩

theorem readsPrefix_ok (a : α) : ReadsPrefix fun input => .ok (a, input) := by
  intro input a' input' h
  cases h
  exact ⟨[], rfl, fun other rest hother => ⟨other, rfl, hother⟩⟩

theorem readsPrefix_error (e : Throwable) :
    ReadsPrefix fun _ => (.error e : Java (α × ByteStream)) := by
  intro input a input' h
  cases h

theorem readsPrefix_readUnsignedByte : ReadsPrefix readUnsignedByte := by
  intro input n input' h
  unfold readUnsignedByte at h
  split at h
  · rename_i b rest hread
    cases h
    refine ⟨[b], ByteStream.content_of_read hread, ?_⟩
    intro other rest hother
    exact readUnsignedByte_cons hother
  · cases h

theorem readsPrefix_readUnsignedShort : ReadsPrefix readUnsignedShort := by
  refine readsPrefix_bind readsPrefix_readUnsignedByte ?_
  intro high
  refine readsPrefix_bind readsPrefix_readUnsignedByte ?_
  intro low
  exact readsPrefix_ok _

theorem readsPrefix_readFully (len : Nat) :
    ReadsPrefix fun input => Message.readFully input len := by
  intro input addr input' h
  dsimp only at h
  have hlen := readFully_length h
  have hlong := length_of_readFully h
  have hsplit : input.content = input.content.take len ++ input.content.drop len := by simp
  obtain ⟨input₁, hread, hrest⟩ := readFully_content hsplit
  rw [List.length_take, Nat.min_eq_left hlong, h] at hread
  cases hread
  refine ⟨input.content.take len, by rw [hrest]; exact hsplit, ?_⟩
  intro other rest hother
  obtain ⟨other', hread, hrest⟩ := readFully_content hother
  rw [hlen] at hread
  exact ⟨other', hread, hrest⟩

theorem readsPrefix_readAddress (platform : Platform) (addrType : Nat) :
    ReadsPrefix (readAddress platform addrType) := by
  unfold readAddress
  split
  · refine readsPrefix_bind (readsPrefix_readFully 4) ?_
    intro addr
    exact readsPrefix_ok _
  · split
    · refine readsPrefix_bind (readsPrefix_readFully SOCKS_IPV6_LENGTH) ?_
      intro addr
      exact readsPrefix_ok _
    · split
      · refine readsPrefix_bind readsPrefix_readUnsignedByte ?_
        intro len
        refine readsPrefix_bind (readsPrefix_readFully len) ?_
        intro addr
        exact readsPrefix_ok _
      · unfold throwSocks
        split
        · exact readsPrefix_error _
        · exact readsPrefix_error _

theorem readsPrefix_read (platform : Platform) (doResolveIP clientMode : Bool) :
    ReadsPrefix (Socks5Message.read platform doResolveIP clientMode) := by
  refine readsPrefix_bind readsPrefix_readUnsignedByte ?_
  intro version
  refine readsPrefix_bind readsPrefix_readUnsignedByte ?_
  intro command
  by_cases hrefused : clientMode = true ∧ command ≠ 0
  · simp only [if_pos hrefused, throwSocks]
    split
    · exact readsPrefix_error _
    · exact readsPrefix_error _
  · simp only [if_neg hrefused]
    refine readsPrefix_bind readsPrefix_readUnsignedByte ?_
    intro reserved
    refine readsPrefix_bind readsPrefix_readUnsignedByte ?_
    intro addrType
    refine readsPrefix_bind (f := fun r => do
      let port ← readUnsignedShort r.2
      return ((⟨.socks5 addrType, version, command,
        if addrType ≠ SOCKS_ATYP_DOMAINNAME ∧ doResolveIP = true then platform.getByName r.1
        else none, r.1, port.1, none⟩ : ProxyMessage), port.2))
        (readsPrefix_readAddress platform addrType) ?_
    intro host
    dsimp only
    refine readsPrefix_bind readsPrefix_readUnsignedShort ?_
    intro port
    dsimp only
    exact readsPrefix_ok _

end Prefixes

section Headers

/-- The bytes of a header are read, whatever follows them, as this address and port. -/
def HeaderFor (platform : Platform) (doResolveIP : Bool) (header : List UInt8) (ip : InetAddress)
    (port : Nat) : Prop :=
  ∀ (input : ByteStream) (rest : List UInt8), input.content = header ++ rest →
    ∃ msg input', Socks5Message.read platform doResolveIP true input = .ok (msg, input') ∧
      input'.content = rest ∧ getInetAddress platform msg = .ok ip ∧ msg.port = port

variable (platform : ClientPlatform) (doResolveIP : Bool) {port : Nat}

theorem headerFor_formHeader {ip : InetAddress} (h : ip.octets.length = 4) (hport : port < 65536) :
    HeaderFor platform.toPlatform doResolveIP (formHeader (some ip) port) ip port := by
  intro input rest hinput
  obtain ⟨input', hread, hrest⟩ := read_of_readsAddress doResolveIP true (fun _ => rfl)
    (readsAddress_octets platform.toPlatform ip)
    (show input.content = 0 :: 0 :: 0 :: (if ip.octets.length = 4 then 1 else 4) ::
        (ip.octets ++ toByte ((port : Int) / 256) :: toByte port :: rest) by
      simp [hinput, formHeader, Socks5Message.ofAddress, portBytes])
  rw [portNat_portBytes hport] at hread
  refine ⟨_, input', hread, hrest, ?_, rfl⟩
  rw [getInetAddress_received, (readBack_eq_iff ip).mpr h]

theorem headerFor_formHeaderHost {host : String} {ip : InetAddress}
    (hlength : (platform.getBytes host).length ≤ 255)
    (hdecode : platform.newString (platform.getBytes host) = host)
    (hresolve : platform.getByName (some host) = some ip) (hport : port < 65536) :
    HeaderFor platform.toPlatform doResolveIP (formHeaderHost platform host port) ip port := by
  intro input rest hinput
  have hlen : (UInt8.ofNat (platform.getBytes host).length).toNat =
      (platform.getBytes host).length := toNat_command (by omega)
  obtain ⟨input', hread, hrest⟩ := read_of_readsAddress doResolveIP true (fun _ => rfl)
    (readsAddress_name hlen)
    (show input.content = 0 :: 0 :: 0 :: 3 ::
        (UInt8.ofNat (platform.getBytes host).length :: platform.getBytes host ++
          toByte ((port : Int) / 256) :: toByte port :: rest) by
      simp [hinput, formHeaderHost, Socks5Message.ofName, portBytes])
  rw [portNat_portBytes hport, hdecode] at hread
  refine ⟨_, input', hread, hrest, ?_, rfl⟩
  simp [getInetAddress, received, SOCKS_ATYP_DOMAINNAME, hresolve]

variable {platform doResolveIP} {header : List UInt8} {ip : InetAddress}

theorem HeaderFor.take_unread {platform : Platform} {k : Nat}
    (h : HeaderFor platform doResolveIP header ip port) (hk : k < header.length)
    {input input' : ByteStream} {msg : ProxyMessage} (hinput : input.content = header.take k) :
    Socks5Message.read platform doResolveIP true input ≠ .ok (msg, input') := by
  intro hread
  obtain ⟨field, hcontent, hagain⟩ :=
    readsPrefix_read platform doResolveIP true input msg input' hread
  rw [hinput] at hcontent
  obtain ⟨msg₁, input₁, hread₁, hrest₁, -⟩ := h (.ofBytes header []) [] (by simp)
  obtain ⟨input₂, hread₂, hrest₂⟩ := hagain (.ofBytes header [])
    (input'.content ++ header.drop k)
    (by rw [ByteStream.content_ofBytes, ← List.append_assoc, ← hcontent, List.take_append_drop])
  rw [hread₁] at hread₂
  cases hread₂
  rw [hrest₁] at hrest₂
  have hlength := congrArg List.length hrest₂
  rw [List.length_append, List.length_drop] at hlength
  simp only [List.length_nil] at hlength
  omega

end Headers

section Packets

theorem take_overwrite (data bytes : List UInt8) (h : bytes.length ≤ data.length) :
    (overwrite data bytes).take bytes.length = bytes := by
  rw [overwrite, List.take_take, Nat.min_eq_left h, List.take_left]

theorem DatagramPacket.payload_fill (dp : DatagramPacket) (a : Arrival) :
    (dp.fill a).payload = a.bytes.take dp.room := by
  have hroom := dp.room_le
  have hlength : (a.bytes.take dp.room).length = min a.bytes.length dp.room := by
    rw [List.length_take, Nat.min_comm]
  have htake := take_overwrite dp.data (a.bytes.take dp.room) (by omega)
  rw [hlength] at htake
  exact htake

/-- The packet after a `setLength` within its buffer. -/
def DatagramPacket.limited (dp : DatagramPacket) (length : Nat) : DatagramPacket :=
  { dp with
    length := min length dp.data.length
    room := min length dp.data.length
    length_le := Nat.min_le_right _ _
    room_le := Nat.min_le_right _ _ }

theorem DatagramPacket.setLength_eq {dp : DatagramPacket} {length : Nat}
    (h : length ≤ dp.data.length) : dp.setLength length = .ok (dp.limited length) := by
  rw [DatagramPacket.setLength, dif_pos h]
  simp [DatagramPacket.limited, Nat.min_eq_left h]

/-- The packet after each of these datagrams has filled at most `length` bytes of it. -/
def DatagramPacket.fillAll (length : Nat) : DatagramPacket → List Arrival → DatagramPacket
  | dp, [] => dp
  | dp, a :: rest => DatagramPacket.fillAll length ((dp.limited length).fill a) rest

/-- The packet when the datagram `a` has come after the datagrams of other hosts. -/
def DatagramPacket.received (dp : DatagramPacket) (others : List Arrival) (a : Arrival) :
    DatagramPacket :=
  match others with
  | [] => dp.fill a
  | first :: rest => (dp.fill first).fillAll (dp.fill first).length (rest ++ [a])

theorem DatagramPacket.length_data_fill (dp : DatagramPacket) (a : Arrival) :
    (dp.fill a).data.length = dp.data.length :=
  length_overwrite _ _

theorem DatagramPacket.payload_fillAll {length : Nat} (dp : DatagramPacket) (rest : List Arrival)
    (a : Arrival) (h : length ≤ dp.data.length) :
    (dp.fillAll length (rest ++ [a])).payload = a.bytes.take length := by
  induction rest generalizing dp with
  | nil =>
      rw [List.nil_append, fillAll, fillAll, payload_fill]
      simp [limited, Nat.min_eq_left h]
  | cons b rest ih =>
      rw [List.cons_append, fillAll]
      apply ih
      rw [length_data_fill]
      exact h

/-- How many bytes of the datagram from the relay are received: a datagram of
another host limits what comes after it to its own length. -/
def DatagramPacket.capacity (dp : DatagramPacket) (others : List Arrival) : Nat :=
  match others with
  | [] => dp.room
  | first :: _ => min first.bytes.length dp.room

theorem DatagramPacket.payload_received (dp : DatagramPacket) (others : List Arrival)
    (a : Arrival) : (dp.received others a).payload = a.bytes.take (dp.capacity others) := by
  cases others with
  | nil => exact dp.payload_fill a
  | cons first rest =>
      exact payload_fillAll (dp.fill first) rest a (dp.fill first).length_le

end Packets

section Receiving

variable {platform : Platform} {doResolveIP : Bool} {socket : Socket}

/-- The datagram does not come from the relay, and is dropped in time. -/
def Socket.Drops (socket : Socket) (a : Arrival) : Prop :=
  (a.address = socket.relayIP → a.port ≠ socket.relayPort) ∧ a.late = false

theorem Socket.fromRelay_fill_iff (dp : DatagramPacket) (a : Arrival) :
    socket.fromRelay (dp.fill a) ↔ a.address = socket.relayIP ∧ a.port = socket.relayPort := by
  simp [Socket.fromRelay, DatagramPacket.fill]

theorem Socket.Drops.not_fromRelay {a : Arrival} (h : socket.Drops a) (dp : DatagramPacket) :
    ¬ socket.fromRelay (dp.fill a) := by
  rw [Socket.fromRelay_fill_iff]
  rintro ⟨haddress, hport⟩
  exact h.1 haddress hport

theorem Socket.dropOthers_eq {length : Nat} {rest : List Arrival} {a : Arrival}
    (ha : a.address = socket.relayIP ∧ a.port = socket.relayPort)
    (hrest : ∀ b ∈ rest, socket.Drops b) (dp : DatagramPacket)
    (hother : ¬ socket.fromRelay dp) (hlength : length ≤ dp.data.length) :
    socket.dropOthers length dp (rest ++ [a]) false = .ok (dp.fillAll length (rest ++ [a])) := by
  induction rest generalizing dp with
  | nil =>
      have hrelay : socket.fromRelay ((dp.limited length).fill a) :=
        (fromRelay_fill_iff _ a).mpr ha
      rw [List.nil_append, dropOthers, if_neg hother]
      simp only [DatagramPacket.setLength_eq hlength, ok_bind, Bool.false_eq_true, if_false]
      rw [dropOthers, if_pos hrelay]
      rfl
  | cons b rest ih =>
      have hb := hrest b List.mem_cons_self
      rw [List.cons_append, dropOthers, if_neg hother]
      simp only [DatagramPacket.setLength_eq hlength, ok_bind, Bool.false_eq_true, if_false, hb.2]
      apply ih
      · intro c hc
        exact hrest c (List.mem_cons_of_mem b hc)
      · exact hb.not_fromRelay _
      · rw [DatagramPacket.length_data_fill]
        exact hlength

/-- In server mode the datagrams of other hosts are dropped. -/
theorem Socket.receive_eq {others : List Arrival} {a : Arrival}
    (ha : a.address = socket.relayIP ∧ a.port = socket.relayPort)
    (hothers : ∀ b ∈ others, socket.Drops b) (hserver : others ≠ [] → socket.server_mode)
    (dp : DatagramPacket) :
    socket.receive platform doResolveIP dp (others ++ [a]) =
      socket.unwrap platform doResolveIP (dp.received others a) := by
  cases others with
  | nil =>
      have hrelay : socket.fromRelay (dp.fill a) := (fromRelay_fill_iff dp a).mpr ha
      rw [List.nil_append, receive]
      split
      · rw [dropOthers, if_pos hrelay]
        rfl
      · rfl
  | cons first rest =>
      have hfirst := hothers first List.mem_cons_self
      rw [List.cons_append, receive, if_pos (hserver (by simp)), hfirst.2,
        dropOthers_eq ha (fun b hb => hothers b (List.mem_cons_of_mem first hb)) _
          (hfirst.not_fromRelay dp) (dp.fill first).length_le]
      rfl

end Receiving

section Unwrapping

variable {platform : Platform} {doResolveIP : Bool} {socket : Socket} {dp : DatagramPacket}
  {ip : InetAddress} {port : Nat} {payload : List UInt8}

/-- The call returns, and the packet has this address and port and carries exactly
this payload. -/
def Delivered (result : Java DatagramPacket) (ip : InetAddress) (port : Nat)
    (payload : List UInt8) : Prop :=
  ∃ dp, result = .ok dp ∧ dp.address = some ip ∧ dp.port = port ∧ dp.length = payload.length ∧
    dp.payload = payload

/-- What is left of the array after the message, as the packet will hold it: the
array of the packet, or the old bytes of the packet when the array is another one. -/
def Transformed.kept {data : List UInt8} (t : Transformed data) (rest : List UInt8) : List UInt8 :=
  match t with
  | .inPlace _ _ => rest
  | .fresh _ => data.take rest.length

/-- The bytes that `dp` has received are read from the array `t` as a header for the
address and the port, and what then stands in the packet is the payload. -/
def Opens (platform : Platform) (doResolveIP : Bool) (dp : DatagramPacket)
    (t : Transformed dp.data) (ip : InetAddress) (port : Nat) (payload : List UInt8) : Prop :=
  dp.length ≤ t.bytes.length ∧ ∃ msg bIn, Socks5Message.read platform doResolveIP true
      (.ofBytes (t.bytes.take dp.length) []) = .ok (msg, bIn) ∧
    getInetAddress platform msg = .ok ip ∧ msg.port = port ∧
    bIn.content.length = payload.length ∧ t.kept bIn.content = payload

/-- What a reader leaves of the first `length` bytes stands at their end. -/
theorem rest_eq_drop {bytes field rest : List UInt8} {length : Nat}
    (h : bytes.take length = field ++ rest) (hlength : length ≤ bytes.length) :
    (bytes.drop (length - rest.length)).take rest.length = rest := by
  have hlen := congrArg List.length h
  rw [List.length_take, List.length_append] at hlen
  have hfield : length - rest.length = field.length := by omega
  have hsplit : bytes = field ++ (rest ++ bytes.drop length) := by
    rw [← List.append_assoc, ← h, List.take_append_drop]
  rw [hfield]
  conv_lhs => rw [hsplit]
  rw [List.drop_left, List.take_left]

theorem Transformed.payload_shift (t : Transformed dp.data) {rest field : List UInt8}
    (h : t.bytes.take dp.length = field ++ rest) (hlength : dp.length ≤ t.bytes.length) :
    (dp.shift t rest.length).data.take rest.length = t.kept rest := by
  cases t with
  | fresh result => rfl
  | inPlace result hsame =>
      have hrest : (result.drop (dp.length - rest.length)).take rest.length = rest :=
        rest_eq_drop h hlength
      have hlen := congrArg List.length h
      simp only [Transformed.bytes, List.length_take, List.length_append] at hlen hlength
      simp only [DatagramPacket.shift, Transformed.kept, hrest]
      exact take_overwrite result rest (by omega)

theorem DatagramPacket.length_data_shift (t : Transformed dp.data) (n : Nat) :
    (dp.shift t n).data.length = dp.data.length := by
  cases t with
  | fresh result => rfl
  | inPlace result hsame =>
      rw [DatagramPacket.shift, length_overwrite, hsame]

/-- The packet that `receive` returns once the message has been read. -/
def DatagramPacket.opened (dp : DatagramPacket) (t : Transformed dp.data) (ip : InetAddress)
    (port n : Nat) : DatagramPacket :=
  DatagramPacket.limited { dp.shift t n with address := some ip, port := port } n

theorem Socket.unwrap_eq {t : Transformed dp.data} {msg : ProxyMessage} {bIn : ByteStream}
    (ht : socket.decapsulate dp = .ok t)
    (hread : Socks5Message.read platform doResolveIP true
      (.ofBytes (t.bytes.take dp.length) []) = .ok (msg, bIn))
    (hip : getInetAddress platform msg = .ok ip) (hlength : dp.length ≤ t.bytes.length) :
    socket.unwrap platform doResolveIP dp =
        .ok (dp.opened t ip msg.port bIn.content.length) ∧
      (dp.opened t ip msg.port bIn.content.length).length = bIn.content.length ∧
      (dp.opened t ip msg.port bIn.content.length).payload = t.kept bIn.content := by
  obtain ⟨field, hcontent, -⟩ := readsPrefix_read _ _ _ _ _ _ hread
  rw [ByteStream.content_ofBytes] at hcontent
  have hlen := congrArg List.length hcontent
  rw [List.length_take, List.length_append] at hlen
  have hdp := dp.length_le
  have hbound : bIn.content.length ≤ (dp.shift t bIn.content.length).data.length := by
    rw [DatagramPacket.length_data_shift]
    omega
  have hmin : min bIn.content.length (dp.shift t bIn.content.length).data.length =
      bIn.content.length := Nat.min_eq_left hbound
  refine ⟨?_, hmin, ?_⟩
  · simp only [Socket.unwrap, ht, hread, hip, ok_bind]
    rw [if_neg (by omega)]
    exact DatagramPacket.setLength_eq hbound
  · have hkept := t.payload_shift hcontent hlength
    simp only [DatagramPacket.opened, DatagramPacket.payload, DatagramPacket.limited, hmin]
    exact hkept

theorem delivered_unwrap_iff :
    Delivered (socket.unwrap platform doResolveIP dp) ip port payload ↔
      ∃ t, socket.decapsulate dp = .ok t ∧ Opens platform doResolveIP dp t ip port payload := by
  constructor
  · rintro ⟨dp', hrun, haddress, hport, hlen, hpayload⟩
    obtain ⟨t, ht, htail⟩ := bind_eq_ok.mp hrun
    obtain ⟨⟨msg, bIn⟩, hread, htail⟩ := bind_eq_ok.mp htail
    obtain ⟨ip', hip, htail⟩ := bind_eq_ok.mp htail
    have hlength : dp.length ≤ t.bytes.length := by
      by_contra hshort
      rw [if_pos (by omega)] at htail
      cases htail
    obtain ⟨hok, hlength', hpayload'⟩ := Socket.unwrap_eq ht hread hip hlength
    rw [hrun] at hok
    cases hok
    cases haddress
    rw [hlength'] at hlen
    rw [hpayload'] at hpayload
    exact ⟨t, ht, hlength, msg, bIn, hread, hip, hport, hlen, hpayload⟩
  · rintro ⟨t, ht, hlength, msg, bIn, hread, hip, hport, hlen, hpayload⟩
    obtain ⟨hok, hlength', hpayload'⟩ := Socket.unwrap_eq ht hread hip hlength
    exact ⟨_, hok, rfl, hport, by rw [hlength', hlen], by rw [hpayload', hpayload]⟩

/-- Bytes that begin like a datagram are opened as that datagram when all of it is
there. -/
theorem opens_header_iff {header : List UInt8} {n : Nat} (t : Transformed dp.data)
    (hheader : HeaderFor platform doResolveIP header ip port)
    (hbytes : t.bytes.take dp.length = (header ++ payload).take n) :
    Opens platform doResolveIP dp t ip port payload ↔
      dp.length ≤ t.bytes.length ∧ (header ++ payload).length ≤ n ∧ t.kept payload = payload := by
  constructor
  · rintro ⟨hlength, msg, bIn, hread, -, -, hlen, hkept⟩
    rw [hbytes] at hread
    have hn : (header ++ payload).length ≤ n := by
      rw [List.length_append]
      by_contra hshort
      by_cases hn : n < header.length
      · rw [List.take_append_of_le_length (by omega)] at hread
        exact hheader.take_unread hn rfl hread
      · rw [List.take_append, List.take_of_length_le (by omega)] at hread
        obtain ⟨msg', bIn', hread', hrest', -⟩ := hheader _ _ (ByteStream.content_ofBytes _ [])
        rw [hread] at hread'
        cases hread'
        rw [hrest', List.length_take] at hlen
        omega
    rw [List.take_of_length_le hn] at hread
    obtain ⟨msg', bIn', hread', hrest', -⟩ := hheader _ payload (ByteStream.content_ofBytes _ [])
    rw [hread] at hread'
    cases hread'
    rw [hrest'] at hkept
    exact ⟨hlength, hn, hkept⟩
  · rintro ⟨hlength, hn, hkept⟩
    rw [List.take_of_length_le hn] at hbytes
    obtain ⟨msg, bIn, hread, hrest, hip, hport⟩ :=
      hheader _ payload (ByteStream.content_ofBytes _ [])
    refine ⟨hlength, msg, bIn, ?_, hip, hport, by rw [hrest], by rw [hrest, hkept]⟩
    rw [hbytes]
    exact hread

/-- Without an encapsulation the payload is what follows the header. -/
theorem delivered_plain_iff {header : List UInt8} {n : Nat} (hsocket : socket.encapsulation = none)
    (hheader : HeaderFor platform doResolveIP header ip port)
    (hreceived : dp.payload = (header ++ payload).take n) :
    Delivered (socket.unwrap platform doResolveIP dp) ip port payload ↔
      (header ++ payload).length ≤ n := by
  have hplain : socket.decapsulate dp = .ok (.inPlace dp.data rfl) := by
    simp [Socket.decapsulate, hsocket]
  have hopens := opens_header_iff (.inPlace dp.data rfl) hheader hreceived
  rw [delivered_unwrap_iff]
  constructor
  · rintro ⟨t, ht, hopen⟩
    rw [hplain] at ht
    cases ht
    exact (hopens.mp hopen).2.1
  · intro hn
    exact ⟨_, hplain, hopens.mpr ⟨dp.length_le, hn, rfl⟩⟩

end Unwrapping

section RoundTrip

variable {platform : ClientPlatform}

/-- Where a datagram is sent: `send(dp)` goes by the address of the packet,
`send(dp, host)` by the name. -/
inductive Destination
  | address (ip : InetAddress)
  | host (name : String)
deriving DecidableEq

def Socket.sendDest (platform : ClientPlatform) (socket : Socket) (dp : DatagramPacket) :
    Destination → Java Sent
  | .address ip => socket.send platform { dp with address := some ip }
  | .host name => socket.sendTo platform dp name

/-- The destination is an IPv4 address, or a name of at most 255 bytes that the
charset gives back and that stands for the address. -/
def Destination.At (platform : ClientPlatform) (dest : Destination) (ip : InetAddress) : Prop :=
  match dest with
  | .address ip' => ip' = ip ∧ ip.octets.length = 4
  | .host name =>
      (platform.getBytes name).length ≤ 255 ∧
        platform.newString (platform.getBytes name) = name ∧
        platform.getByName (some name) = some ip

theorem Socket.send_relayed {socket : Socket} {dp : DatagramPacket} {bytes : List UInt8}
    (h : socket.send platform dp = .ok (.relayed bytes)) :
    socket.encapsulate (formHeader dp.address dp.port ++ dp.payload) = .ok bytes := by
  have hrelay : ∀ direct : Bool, (if direct then .ok (.direct dp) else do
      let buf ← socket.encapsulate (formHeader dp.address dp.port ++ dp.payload)
      return .relayed buf : Java Sent) = .ok (.relayed bytes) →
        socket.encapsulate (formHeader dp.address dp.port ++ dp.payload) = .ok bytes := by
    intro direct h
    split at h
    · cases h
    · obtain ⟨buf, hbuf, h⟩ := bind_eq_ok.mp h
      cases h
      exact hbuf
  unfold Socket.send at h
  cases hproxy : socket.proxy with
  | none =>
      rw [hproxy] at h
      exact hrelay false h
  | some proxy =>
      rw [hproxy] at h
      obtain ⟨direct, -, h⟩ := bind_eq_ok.mp h
      exact hrelay direct h

theorem Socket.sendTo_relayed {socket : Socket} {dp : DatagramPacket} {host : String}
    {bytes : List UInt8} (h : socket.sendTo platform dp host = .ok (.relayed bytes)) :
    socket.encapsulate (formHeaderHost platform host dp.port ++ dp.payload) = .ok bytes := by
  unfold Socket.sendTo at h
  split at h
  · cases h
  · obtain ⟨direct, -, h⟩ := bind_eq_ok.mp h
    split at h
    · obtain ⟨ip, -, h⟩ := bind_eq_ok.mp h
      cases h
    · split at h
      · obtain ⟨ip, -, h⟩ := bind_eq_ok.mp h
        obtain ⟨buf, hbuf, h⟩ := bind_eq_ok.mp h
        cases h
        exact hbuf
      · obtain ⟨buf, hbuf, h⟩ := bind_eq_ok.mp h
        cases h
        exact hbuf

theorem Socket.sendDest_header {socket : Socket} {dp : DatagramPacket} {dest : Destination}
    {ip : InetAddress} {bytes : List UInt8} (hsocket : socket.encapsulation = none)
    (hdest : dest.At platform ip) (hport : dp.port < 65536)
    (h : socket.sendDest platform dp dest = .ok (.relayed bytes)) (doResolveIP : Bool) :
    ∃ header, bytes = header ++ dp.payload ∧
      HeaderFor platform.toPlatform doResolveIP header ip dp.port := by
  cases dest with
  | address ip' =>
      obtain ⟨rfl, hfour⟩ := hdest
      have hbytes := Socket.send_relayed h
      simp only [Socket.encapsulate, hsocket, Except.ok.injEq] at hbytes
      exact ⟨_, hbytes.symm, headerFor_formHeader platform doResolveIP hfour hport⟩
  | host name =>
      obtain ⟨hlength, hdecode, hresolve⟩ := hdest
      have hbytes := Socket.sendTo_relayed h
      simp only [Socket.encapsulate, hsocket, Except.ok.injEq] at hbytes
      exact ⟨_, hbytes.symm,
        headerFor_formHeaderHost platform doResolveIP hlength hdecode hresolve hport⟩

end RoundTrip

/-- A datagram without encapsulation makes the round trip exactly when no datagram of
another host that is shorter comes first: the room of the packet is then cut to the
length of that datagram. -/
theorem datagram_roundTrip_iff (platform : ClientPlatform) (doResolveIP : Bool)
    (sender receiver : Socket) (hsender : sender.encapsulation = none)
    (hreceiver : receiver.encapsulation = none) (dp : DatagramPacket) (hport : dp.port < 65536)
    (dest : Destination) {ip : InetAddress} (hdest : dest.At platform ip) {bytes : List UInt8}
    (hsent : sender.sendDest platform dp dest = .ok (.relayed bytes)) (packet : DatagramPacket)
    (hroom : bytes.length ≤ packet.room) (others : List Arrival)
    (hothers : ∀ b ∈ others, receiver.Drops b) (hserver : others ≠ [] → receiver.server_mode)
    (late : Bool) :
    Delivered (receiver.receive platform.toPlatform doResolveIP packet
        (others ++ [⟨receiver.relayIP, receiver.relayPort, bytes, late⟩])) ip dp.port dp.payload ↔
      ∀ first ∈ others.head?, bytes.length ≤ first.bytes.length := by
  obtain ⟨header, rfl, hheader⟩ :=
    Socket.sendDest_header hsender hdest hport hsent doResolveIP
  rw [Socket.receive_eq ⟨rfl, rfl⟩ hothers hserver,
    delivered_plain_iff hreceiver hheader (packet.payload_received others _)]
  cases others with
  | nil => simpa [DatagramPacket.capacity] using hroom
  | cons first rest =>
      simp only [DatagramPacket.capacity, List.head?_cons, Option.mem_some_iff, forall_eq']
      omega

/-- A packet that carries `data`. -/
def packetOf (data : List UInt8) (port : Nat) : DatagramPacket :=
  ⟨data, data.length, data.length, none, port, Nat.le_refl _, Nat.le_refl _⟩

/-- A socket in server mode whose relay is `10.0.0.9:1080`. -/
def serverSocket (encapsulation : Option UDPEncapsulation) : Socket :=
  ⟨none, .v4 10 0 0 9, 1080, encapsulation⟩

theorem datagram_roundTrip_hi :
    Delivered ((serverSocket none).receive .latin1 true (packetOf (List.replicate 16 0) 0)
      [⟨.v4 10 0 0 9, 1080, [0, 0, 0, 1, 10, 0, 0, 1, 0, 53, 104, 105], false⟩])
      (.v4 10 0 0 1) 53 [104, 105] :=
  (datagram_roundTrip_iff .latin1 true (serverSocket none) (serverSocket none) rfl rfl
    (packetOf [104, 105] 53) (by decide) (.address (.v4 10 0 0 1)) ⟨rfl, rfl⟩ rfl
    (packetOf (List.replicate 16 0) 0) (by decide) [] (by simp) (by simp) false).mpr (by simp)

theorem datagram_cut_by_other :
    (serverSocket none).send .latin1
    { packetOf [104, 105] 53 with address := some (.v4 10 0 0 1) } =
        .ok (.relayed [0, 0, 0, 1, 10, 0, 0, 1, 0, 53, 104, 105]) ∧
      ¬ Delivered ((serverSocket none).receive .latin1 true (packetOf (List.replicate 16 0) 0)
        [⟨.v4 10 0 0 7, 99, List.replicate 11 1, false⟩,
          ⟨.v4 10 0 0 9, 1080, [0, 0, 0, 1, 10, 0, 0, 1, 0, 53, 104, 105], false⟩])
        (.v4 10 0 0 1) 53 [104, 105] := by
  refine ⟨rfl, ?_⟩
  rintro ⟨dp, hrun, -, -, hlength, -⟩
  have hcut : ((serverSocket none).receive .latin1 true (packetOf (List.replicate 16 0) 0)
      [⟨.v4 10 0 0 7, 99, List.replicate 11 1, false⟩,
        ⟨.v4 10 0 0 9, 1080, [0, 0, 0, 1, 10, 0, 0, 1, 0, 53, 104, 105], false⟩]).toOption.map
          DatagramPacket.length = some 1 := by
    decide
  rw [hrun] at hcut
  simp only [Except.toOption, Option.map_some, Option.some.injEq] at hcut
  rw [hcut] at hlength
  simp at hlength

section Encapsulated

/-- Decapsulation undoes encapsulation. -/
def UDPEncapsulation.Invertible (e : UDPEncapsulation) : Prop :=
  ∀ x, ∃ t, e.udpEncapsulate x true = .ok t ∧
    ∃ t', e.udpEncapsulate t.bytes false = .ok t' ∧ t'.bytes = x

def Transformed.isInPlace {data : List UInt8} : Transformed data → Bool
  | .inPlace _ _ => true
  | .fresh _ => false

theorem Transformed.kept_eq_iff {data : List UInt8} (t : Transformed data) (payload : List UInt8) :
    t.kept payload = payload ↔ t.isInPlace = true ∨ data.take payload.length = payload := by
  cases t <;> simp [Transformed.kept, Transformed.isInPlace]

/-- A datagram that leaves no room in the packet fills its whole buffer. -/
theorem DatagramPacket.data_fill_exact {packet : DatagramPacket} {a : Arrival}
    (hroom : a.bytes.length ≤ packet.room) (hexact : packet.data.length = a.bytes.length) :
    (packet.fill a).data = a.bytes ∧ (packet.fill a).length = a.bytes.length := by
  constructor
  · simp only [DatagramPacket.fill, overwrite]
    rw [List.take_of_length_le hroom, hexact, List.take_left]
  · exact Nat.min_eq_left hroom

theorem UDPEncapsulation.Invertible.of_sent {platform : ClientPlatform} {sender : Socket}
    {e : UDPEncapsulation} (he : e.Invertible) (hsender : sender.encapsulation = some e)
    {dp : DatagramPacket} {bytes : List UInt8}
    (hsent : sender.send platform dp = .ok (.relayed bytes)) :
    ∃ t, e.udpEncapsulate bytes false = .ok t ∧
      t.bytes = formHeader dp.address dp.port ++ dp.payload := by
  have hbytes := Socket.send_relayed hsent
  simp only [Socket.encapsulate, hsender] at hbytes
  obtain ⟨t, ht, hinverse⟩ := he (formHeader dp.address dp.port ++ dp.payload)
  rw [ht] at hbytes
  cases hbytes
  exact hinverse

end Encapsulated

/-- With an encapsulation the whole buffer is decapsulated, the length of what was
received is kept, and a new array is not copied to the packet. So the datagram makes
the round trip exactly when the buffer, decapsulated, is opened as the datagram and
the payload stands in the packet. When the datagram fills the buffer this is so
exactly for an encapsulation that keeps the length and works in place, or whose bytes
begin with the payload. -/
theorem encapsulated_roundTrip_iff (platform : ClientPlatform) (doResolveIP : Bool)
    (sender receiver : Socket) (e : UDPEncapsulation) (he : e.Invertible)
    (hsender : sender.encapsulation = some e) (hreceiver : receiver.encapsulation = some e)
    (dp : DatagramPacket) (hport : dp.port < 65536) {ip : InetAddress}
    (hip : ip.octets.length = 4) {bytes : List UInt8}
    (hsent : sender.send platform { dp with address := some ip } = .ok (.relayed bytes))
    (packet : DatagramPacket) (hroom : bytes.length ≤ packet.room) (others : List Arrival)
    (hothers : ∀ b ∈ others, receiver.Drops b) (hserver : others ≠ [] → receiver.server_mode)
    (a : Arrival) (ha : a.address = receiver.relayIP ∧ a.port = receiver.relayPort)
    (hbytes : a.bytes = bytes) :
    (Delivered (receiver.receive platform.toPlatform doResolveIP packet (others ++ [a])) ip
        dp.port dp.payload ↔
      ∃ t, e.udpEncapsulate (packet.received others a).data false = .ok t ∧
        Opens platform.toPlatform doResolveIP (packet.received others a) t ip dp.port
          dp.payload) ∧
    (others = [] → packet.data.length = bytes.length →
      (Delivered (receiver.receive platform.toPlatform doResolveIP packet (others ++ [a])) ip
          dp.port dp.payload ↔
        bytes.length = (formHeader (some ip) dp.port ++ dp.payload).length ∧
          ((∃ t, e.udpEncapsulate bytes false = .ok t ∧ t.isInPlace = true) ∨
            bytes.take dp.payload.length = dp.payload))) := by
  have hgeneral : Delivered (receiver.receive platform.toPlatform doResolveIP packet
      (others ++ [a])) ip dp.port dp.payload ↔
      ∃ t, e.udpEncapsulate (packet.received others a).data false = .ok t ∧
        Opens platform.toPlatform doResolveIP (packet.received others a) t ip dp.port
          dp.payload := by
    rw [Socket.receive_eq ha hothers hserver, delivered_unwrap_iff]
    simp only [Socket.decapsulate, hreceiver]
  refine ⟨hgeneral, ?_⟩
  rintro rfl hexact
  subst hbytes
  obtain ⟨hdata, hlength⟩ := DatagramPacket.data_fill_exact hroom hexact
  have hinverse : ∃ t, e.udpEncapsulate a.bytes false = .ok t ∧
      t.bytes = formHeader (some ip) dp.port ++ dp.payload := he.of_sent hsender hsent
  have hheader := headerFor_formHeader platform doResolveIP hip hport
  rw [hgeneral, DatagramPacket.received]
  generalize packet.fill a = p at hdata hlength
  rw [← hdata] at hinverse hlength ⊢
  obtain ⟨t, ht, hm⟩ := hinverse
  have hopens := opens_header_iff t hheader
    (show t.bytes.take p.length =
      (formHeader (some ip) dp.port ++ dp.payload).take p.length by rw [hm])
  rw [hm, t.kept_eq_iff] at hopens
  constructor
  · rintro ⟨t', ht', hopen⟩
    obtain rfl : t = t' := Except.ok.inj (ht.symm.trans ht')
    obtain ⟨hle, hge, hkept⟩ := hopens.mp hopen
    refine ⟨by omega, hkept.imp_left ?_⟩
    intro hinPlace
    exact ⟨t, ht, hinPlace⟩
  · rintro ⟨hlen, hkept⟩
    refine ⟨t, ht, hopens.mpr ⟨by omega, by omega, hkept.imp_left ?_⟩⟩
    rintro ⟨t', ht', hinPlace⟩
    obtain rfl : t = t' := Except.ok.inj (ht.symm.trans ht')
    exact hinPlace

/-- Complement every byte, in place. -/
def complement : UDPEncapsulation where
  udpEncapsulate data _ := .ok (.inPlace (data.map (255 - ·)) (by simp))

theorem complement_invertible : complement.Invertible := by
  intro x
  refine ⟨_, rfl, _, rfl, ?_⟩
  have hinvolution : ((fun b : UInt8 => 255 - b) ∘ fun b => 255 - b) = id := by
    funext b
    simp only [Function.comp_apply, id_eq]
    grind
  simp only [Transformed.bytes, List.map_map, hinvolution, List.map_id]

/-- Return a copy. -/
def copying : UDPEncapsulation where
  udpEncapsulate data _ := .ok (.fresh data)

theorem encapsulated_roundTrip_complement :
    Delivered ((serverSocket (some complement)).receive .latin1 true
      (packetOf (List.replicate 12 0) 0)
      [⟨.v4 10 0 0 9, 1080, [255, 255, 255, 254, 245, 255, 255, 254, 255, 202, 151, 150], false⟩])
      (.v4 10 0 0 1) 53 [104, 105] :=
  ((encapsulated_roundTrip_iff .latin1 true (serverSocket (some complement))
    (serverSocket (some complement)) complement complement_invertible rfl rfl
    (packetOf [104, 105] 53) (by decide) (show (InetAddress.v4 10 0 0 1).octets.length = 4 from rfl)
    rfl (packetOf (List.replicate 12 0) 0) (by decide) [] (by simp) (by simp)
    ⟨.v4 10 0 0 9, 1080, [255, 255, 255, 254, 245, 255, 255, 254, 255, 202, 151, 150], false⟩
    ⟨rfl, rfl⟩ rfl).2 rfl rfl).mpr ⟨rfl, .inl ⟨_, rfl, rfl⟩⟩

theorem copying_not_delivered :
    copying.Invertible ∧
      (serverSocket (some copying)).send .latin1
          { packetOf [104, 105] 53 with address := some (.v4 10 0 0 1) } =
        .ok (.relayed [0, 0, 0, 1, 10, 0, 0, 1, 0, 53, 104, 105]) ∧
      ¬ Delivered ((serverSocket (some copying)).receive .latin1 true
        (packetOf (List.replicate 12 0) 0)
        [⟨.v4 10 0 0 9, 1080, [0, 0, 0, 1, 10, 0, 0, 1, 0, 53, 104, 105], false⟩])
        (.v4 10 0 0 1) 53 [104, 105] := by
  refine ⟨fun x => ⟨_, rfl, _, rfl, rfl⟩, rfl, ?_⟩
  rintro ⟨dp, hrun, -, -, -, hpayload⟩
  have hheader : ((serverSocket (some copying)).receive .latin1 true
      (packetOf (List.replicate 12 0) 0)
      [⟨.v4 10 0 0 9, 1080, [0, 0, 0, 1, 10, 0, 0, 1, 0, 53, 104, 105], false⟩]).toOption.map
        DatagramPacket.payload = some [0, 0] := by
    decide
  rw [hrun] at hheader
  simp only [Except.toOption, Option.map_some, Option.some.injEq] at hheader
  rw [hheader] at hpayload
  exact absurd hpayload (by decide)

end TorAndroid.Socks.Datagram
