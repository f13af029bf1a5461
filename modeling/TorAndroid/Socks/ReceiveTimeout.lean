import TorAndroid.Socks.DatagramRoundTrip

namespace TorAndroid.Socks.Datagram

open TorAndroid.Lib.Throwing
open TorAndroid.Socks.Basic
open TorAndroid.Socks.Message

/-- A number cut to a Java `int`. -/
def toInt (n : Int) : Int := n.bmod (2 ^ 32)

/-- One turn of the loop: the milliseconds that have passed, how `setSoTimeout` ends, and
what `super.receive` brings. -/
structure Round where
  passed : Int
  setSoTimeout : Except IOKind Unit
  reception : Except IOKind Arrival

/-- What a call of `receive` meets. -/
structure Script where
  first : Except IOKind Arrival
  getSoTimeout : Except IOKind Unit
  rounds : List Round
  restore : Except IOKind Unit

namespace Round

variable (r : Round) (initTimeout : Int)

def newTimeout : Int := toInt (initTimeout - toInt r.passed)

/-- The timeout of the loop's turn; a timeout of 0 stays. -/
def changeTimeout (timeout : Int) : Java Unit × Int :=
  if initTimeout ≠ 0 then
    if r.newTimeout initTimeout ≤ 0 then (.error (.io .interrupted), timeout)
    else
      match r.setSoTimeout with
      | .error kind => (.error (.io kind), timeout)
      | .ok () => (.ok (), r.newTimeout initTimeout)
  else (.ok (), timeout)

end Round

section Code

variable (platform : Platform) (doResolveIP : Bool) (socket : Socket)

/-- The loop that drops datagrams, with the timeout it leaves. It has no result while
`super.receive` waits. -/
def Socket.dropRounds (init_length : Nat) (initTimeout : Int) :
    DatagramPacket → Int → List Round → Option (Java DatagramPacket) × Int
  | dp, timeout, rounds =>
      if socket.fromRelay dp then (some (.ok dp), timeout)
      else
        match rounds with
        | [] => (none, timeout)
        | r :: rest =>
            match dp.setLength init_length with
            | .error e => (some (.error e), timeout)
            | .ok dp =>
                match r.changeTimeout initTimeout timeout with
                | (.error e, timeout) => (some (.error e), timeout)
                | (.ok (), timeout) =>
                    match r.reception with
                    | .error kind => (some (.error (.io kind)), timeout)
                    | .ok a =>
                        Socket.dropRounds init_length initTimeout (dp.fill a) timeout rest

/-- `receive` in server mode on a socket with this timeout, and the timeout it leaves. -/
def Socket.receiveServer (dp : DatagramPacket) (timeout : Int) (script : Script) :
    Option (Java DatagramPacket) × Int :=
  match script.first with
  | .error kind => (some (.error (.io kind)), timeout)
  | .ok a =>
      match script.getSoTimeout with
      | .error kind => (some (.error (.io kind)), timeout)
      | .ok () =>
          match socket.dropRounds (dp.fill a).length timeout (dp.fill a) timeout script.rounds with
          | (some (.ok dp), current) =>
              if timeout ≠ 0 then
                match script.restore with
                | .error kind => (some (.error (.io kind)), current)
                | .ok () => (some (socket.unwrap platform doResolveIP dp), timeout)
              else (some (socket.unwrap platform doResolveIP dp), current)
          | (outcome, current) => (outcome, current)

end Code

section Conditions

variable (socket : Socket) (initTimeout : Int)

/-- The turn's timeout has not expired, and could be set. -/
def Round.InTime (r : Round) : Prop :=
  initTimeout ≠ 0 → 0 < r.newTimeout initTimeout ∧ r.setSoTimeout = .ok ()

/-- The timeout a turn leaves that is in time. -/
def Round.timeout (r : Round) : Int :=
  if initTimeout = 0 then initTimeout else r.newTimeout initTimeout

def Socket.Sends (a : Arrival) : Prop :=
  a.address = socket.relayIP ∧ a.port = socket.relayPort

/-- The turn brings one more datagram of another host. -/
def Round.Passes (r : Round) : Prop :=
  r.InTime initTimeout ∧ ∃ a, r.reception = .ok a ∧ ¬socket.Sends a

/-- The timeout after these turns. -/
def inForce (timeout : Int) (rounds : List Round) : Int :=
  rounds.foldl (fun _ r => r.timeout initTimeout) timeout

namespace Script

def receptions (script : Script) : List (Except IOKind Arrival) :=
  script.first :: script.rounds.map Round.reception

/-- Datagrams of other hosts come, then one of the relay; nothing fails and no timeout
expires. -/
structure Brings (script : Script) (others : List Arrival) (a : Arrival) : Prop where
  arrivals : ∃ tail, script.receptions = others.map .ok ++ .ok a :: tail
  foreign : ∀ b ∈ others, ¬socket.Sends b
  relay : socket.Sends a
  inTime : ∀ r ∈ script.rounds.take others.length, r.InTime initTimeout
  opened : script.getSoTimeout = .ok ()
  restored : script.restore = .ok ()

/-- Only this datagram comes. -/
def only (a : Arrival) : Script := ⟨.ok a, .ok (), [], .ok ()⟩

end Script

end Conditions

section Loop

variable {socket : Socket} {initTimeout timeout : Int} {length : Nat} {dp : DatagramPacket}
  {r : Round} {rest : List Round}

theorem Round.changeTimeout_inTime (hr : r.InTime initTimeout)
    (htimeout : initTimeout = 0 → timeout = 0) :
    r.changeTimeout initTimeout timeout = (.ok (), r.timeout initTimeout) := by
  rw [changeTimeout, Round.timeout]
  by_cases hzero : initTimeout = 0
  · rw [if_neg (not_not.mpr hzero), if_pos hzero, htimeout hzero, hzero]
  · obtain ⟨hpos, hset⟩ := hr hzero
    rw [if_pos hzero, if_neg hzero, if_neg (Int.not_le.mpr hpos), hset]

theorem Round.timeout_zero (r : Round) (h : initTimeout = 0) : r.timeout initTimeout = 0 := by
  rw [Round.timeout, if_pos h, h]

theorem Socket.dropRounds_relay (hrelay : socket.fromRelay dp) (rounds : List Round) :
    socket.dropRounds length initTimeout dp timeout rounds = (some (.ok dp), timeout) := by
  cases rounds <;> rw [dropRounds, if_pos hrelay]

variable (hother : ¬socket.fromRelay dp) (hlength : length ≤ dp.data.length)

include hother hlength

theorem Socket.dropRounds_cons (hr : r.InTime initTimeout)
    (htimeout : initTimeout = 0 → timeout = 0) {a : Arrival} (ha : r.reception = .ok a) :
    socket.dropRounds length initTimeout dp timeout (r :: rest) =
      socket.dropRounds length initTimeout ((dp.limited length).fill a) (r.timeout initTimeout)
        rest := by
  rw [dropRounds, if_neg hother]
  simp only [DatagramPacket.setLength_eq hlength, Round.changeTimeout_inTime hr htimeout, ha]

/-- The turns up to the datagram of the relay. -/
theorem Socket.dropRounds_brings {rounds : List Round} {others : List Arrival} {a : Arrival}
    (harrivals : rounds.map Round.reception = others.map .ok ++ [.ok a])
    (hinTime : ∀ r ∈ rounds, r.InTime initTimeout) (hforeign : ∀ b ∈ others, ¬socket.Sends b)
    (ha : socket.Sends a) (htimeout : initTimeout = 0 → timeout = 0) (tail : List Round) :
    ∃ current, socket.dropRounds length initTimeout dp timeout (rounds ++ tail) =
        (some (.ok (dp.fillAll length (others ++ [a]))), current) ∧
      (initTimeout = 0 → current = 0) := by
  induction others generalizing dp timeout rounds with
  | nil =>
      obtain ⟨r, rfl, hr⟩ := List.map_eq_singleton_iff.mp harrivals
      have hrelay : socket.fromRelay ((dp.limited length).fill a) :=
        (Socket.fromRelay_fill_iff _ a).mpr ha
      refine ⟨r.timeout initTimeout, ?_, r.timeout_zero⟩
      rw [List.singleton_append,
        dropRounds_cons hother hlength (hinTime r List.mem_cons_self) htimeout hr,
        dropRounds_relay hrelay]
      rfl
  | cons b others ih =>
      obtain ⟨r, rounds, rfl, hr, harrivals⟩ := List.map_eq_cons_iff.mp harrivals
      have hother' : ¬socket.fromRelay ((dp.limited length).fill b) :=
        mt (Socket.fromRelay_fill_iff _ b).mp (hforeign b List.mem_cons_self)
      have hdata : ((dp.limited length).fill b).data.length = dp.data.length :=
        DatagramPacket.length_data_fill _ b
      obtain ⟨current, hrun, hzero⟩ := ih hother' (hdata ▸ hlength) harrivals
        (fun x hx => hinTime x (List.mem_cons_of_mem r hx))
        (fun x hx => hforeign x (List.mem_cons_of_mem b hx)) r.timeout_zero
      refine ⟨current, ?_, hzero⟩
      rw [List.cons_append,
        dropRounds_cons hother hlength (hinTime r List.mem_cons_self) htimeout hr]
      exact hrun

end Loop

section Delivery

variable {platform : Platform} {doResolveIP : Bool} {socket : Socket} {timeout : Int}
  {dp : DatagramPacket} {script : Script} {others : List Arrival} {a : Arrival}

/-- The call returns what `receive` makes of the packet that the datagrams have filled, and
leaves the timeout as it was. -/
theorem Socket.receiveServer_brings (h : script.Brings socket timeout others a) :
    socket.receiveServer platform doResolveIP dp timeout script =
      (some (socket.unwrap platform doResolveIP (dp.received others a)), timeout) := by
  obtain ⟨⟨tail, harrivals⟩, hforeign, ha, hinTime, hopened, hrestored⟩ := h
  have hrelay : ∀ dp : DatagramPacket, socket.fromRelay (dp.fill a) := fun dp =>
    (Socket.fromRelay_fill_iff dp a).mpr ha
  cases others with
  | nil =>
      have hfirst : script.first = .ok a := (List.cons.inj harrivals).1
      rw [receiveServer]
      simp only [hfirst, hopened, dropRounds_relay (hrelay dp)]
      split_ifs
      · simp only [hrestored]
        rfl
      · rfl
  | cons first rest =>
      have hfirst : script.first = .ok first := (List.cons.inj harrivals).1
      have hrest : script.rounds.map Round.reception = rest.map .ok ++ .ok a :: tail :=
        (List.cons.inj harrivals).2
      have hother : ¬socket.fromRelay (dp.fill first) :=
        mt (Socket.fromRelay_fill_iff _ first).mp (hforeign first List.mem_cons_self)
      have htaken : (script.rounds.take (first :: rest).length).map Round.reception =
          rest.map .ok ++ [.ok a] := by
        rw [List.map_take, hrest, List.take_append, List.take_of_length_le (by simp)]
        simp
      obtain ⟨current, hrun, hzero⟩ := Socket.dropRounds_brings hother (dp.fill first).length_le
        htaken hinTime (fun b hb => hforeign b (List.mem_cons_of_mem first hb)) ha id
        (script.rounds.drop (first :: rest).length)
      rw [List.take_append_drop] at hrun
      rw [receiveServer]
      simp only [hfirst, hopened, hrun]
      split_ifs with hset
      · simp only [hrestored]
        rfl
      · rw [hzero (not_not.mp hset), not_not.mp hset]
        rfl

end Delivery

section Exits

variable {platform : Platform} {doResolveIP : Bool} {socket : Socket} {timeout : Int}
  {dp : DatagramPacket} {script : Script}

/-- The turn after which no more turn follows, for a timeout that is to be the first one. -/
structure Round.Keeps (socket : Socket) (timeout : Int) (restore : Except IOKind Unit)
    (pre : List Round) (r : Round) : Prop where
  late : ¬r.InTime timeout → inForce timeout timeout pre = timeout
  fails : r.InTime timeout → ∀ kind, r.reception = .error kind → r.timeout timeout = timeout
  stuck : r.InTime timeout → ∀ a, r.reception = .ok a → socket.Sends a →
    restore ≠ .ok () → r.timeout timeout = timeout

end Exits

section Undisturbed

variable (platform : Platform) (doResolveIP : Bool) (socket : Socket) (timeout : Int)
  (dp : DatagramPacket) (script : Script)

/-- The bytes are a header for the destination and the payload. -/
def Carries (bytes : List UInt8) (ip : InetAddress) (port : Nat) (payload : List UInt8) : Prop :=
  ∃ header, bytes = header ++ payload ∧ HeaderFor platform doResolveIP header ip port

/-- The call returns a packet with this address, port and payload. -/
def Gives (script : Script) (ip : InetAddress) (port : Nat) (payload : List UInt8) : Prop :=
  ∃ result, (socket.receiveServer platform doResolveIP dp timeout script).1 = some result ∧
    Delivered result ip port payload

variable {platform doResolveIP socket timeout dp script}

/-- In time, the call gives what `Socket.receive` delivers. -/
theorem gives_iff_delivered {others : List Arrival} {a : Arrival}
    (h : script.Brings socket timeout others a) (hserver : socket.server_mode)
    (hlate : ∀ b ∈ others, b.late = false) {ip : InetAddress} {port : Nat}
    {payload : List UInt8} :
    Gives platform doResolveIP socket timeout dp script ip port payload ↔
      Delivered (socket.receive platform doResolveIP dp (others ++ [a])) ip port payload := by
  have hdrops : ∀ b ∈ others, socket.Drops b := by
    intro b hb
    exact ⟨fun haddress hport => h.foreign b hb ⟨haddress, hport⟩, hlate b hb⟩
  rw [Gives, Socket.receiveServer_brings h, Socket.receive_eq h.relay hdrops fun _ => hserver]
  simp only [Option.some.injEq, exists_eq_left']

end Undisturbed

/-- The relay's datagram for the payload `hi`, in 12 bytes. -/
def relayed : Arrival :=
  ⟨.v4 10 0 0 9, 1080, [0, 0, 0, 1, 10, 0, 0, 1, 0, 53, 104, 105], false⟩

end TorAndroid.Socks.Datagram
