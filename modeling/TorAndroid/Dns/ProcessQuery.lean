import TorAndroid.Dns.AnswerLimit

namespace TorAndroid.Dns

/-- `UDP_BUFSIZE`. -/
def udpBufsize : Nat := 512

/-- `RC_BADVERS`. -/
def rcBadvers : Nat := 16

/-- What `process_query` finds before it looks for an answer: it returns nothing, or replies
with an error, or has a list of questions. With it goes what an `OPT` pseudo record says that
counts for the reply. -/
inductive Analysis where
  | ignore
  | reject (res : Nat) (edns : Option EdnsInfo)
  | answer (ql : List Question) (edns : Option EdnsInfo)

/-- The additional section, with `ednsinfop` if it is as it should be. -/
def analyseAdditional (data : List UInt8) (res : Except NameError Nat) :
    Except Nat (Option EdnsInfo) :=
  if hdrArcount data = 0 then .ok none
  else
    match res with
    | .error _ => .error rcFormat
    | .ok ptr =>
        let (eps, res) := decodeQueryAdditional data (hdrArcount data) ptr
        let bad := match res with
          | .ok _ => false
          | .error .trunc => !hdrTc data
          | .error .format => true
        if bad then .error rcFormat
        else
          match eps with
          | [] => .ok none
          | ednsinfo :: _ =>
              if ednsinfo.version ≠ 0 then .error rcBadvers
              else if ednsinfo.rcode ≠ 0 then .error rcFormat
              else .ok (some ednsinfo)

/-- The part of `process_query` before `compose_answer`. -/
def analyse (data : List UInt8) : Analysis :=
  if data.length < 2 then .ignore
  else if data.length < 12 then .reject rcFormat none
  else if hdrQr data then .ignore
  else if hdrOpcode data ≠ 0 then .reject rcNotsupp none
  else if hdrZ data then .reject rcFormat none
  else if hdrRcode data ≠ rcOk then .ignore
  else if hdrAncount data ≠ 0 then .reject rcFormat none
  else if hdrNscount data ≠ 0 then .reject rcFormat none
  else
    let (ql, res) := decodeQuery data
    let bad := match res with
      | .ok _ => false
      | .error .trunc => !hdrTc data || ql.isEmpty
      | .error .format => true
    if bad then .reject rcFormat none
    else
      match analyseAdditional data res with
      | .error res => .reject res none
      | .ok ednsinfop =>
          if ql.isEmpty then .reject rcFormat ednsinfop
          else .answer ql ednsinfop

/-- `*udp`, as a query with an `OPT` pseudo record sets it. -/
def udpLimit (cfg : ServerConfig) (edns : Option EdnsInfo) (udp : Option Nat) : Option Nat :=
  udp.map fun limit =>
    match edns with
    | none => limit
    | some ednsinfo =>
        if udpBufsize < ednsinfo.udpsize then min cfg.udpbufsize ednsinfo.udpsize else limit

/-- The label `error_reply`. -/
def errorReply (cfg : ServerConfig) (data : List UInt8) (res : Nat) : List UInt8 :=
  let hdr := mkErrorReply (UInt16.ofNat (hdrId data))
    (if 3 ≤ data.length then fourBits (hdrOpcode data) else opQuery) res
  let ans : Response := ⟨hdr.bytes, 0, 0, 0, []⟩
  if 16 ≤ res then
    let ans := addOptPseudoRr ans cfg.udpbufsize res 0 0
    { hdr with arcount := UInt16.ofNat ans.arcount }.bytes ++ ans.bytes.drop 12
  else ans.bytes

section Server

variable {σ : Type} (srv : Services σ) (cfg : ServerConfig) (queryts : Int)

/-- `process_query`: the reply with its return code, unless there is none, and `*udp`. It gets
stuck where an assertion fails. -/
def processQuery (data : List UInt8) (udp : Option Nat) (w : σ) :
    Option (Option (List UInt8 × Nat) × Option Nat × σ) :=
  match analyse data with
  | .ignore => some (none, udp, w)
  | .reject res edns => some (some (errorReply cfg data res, res), udpLimit cfg edns udp, w)
  | .answer ql edns =>
      let udp := udpLimit cfg edns udp
      (makeAnswer srv cfg queryts (Header.read data) edns.isSome ql udp w).map fun x =>
        (some (x.1.getD (errorReply cfg data rcServfail, rcServfail)), udp, x.2)

/-- What `udp_answer_thread` sends for a datagram. -/
def udpAnswer (data : List UInt8) (w : σ) : Option (Option (List UInt8) × σ) :=
  (processQuery srv cfg queryts data (some udpBufsize) w).map fun x =>
    (x.1.map fun resp => cutReply (x.2.1.getD udpBufsize) resp.1, x.2.2)

end Server

/-- What is not answered: what is too short to have an id, a response, and a query with a return
code. -/
def Ignored (data : List UInt8) : Prop :=
  data.length < 2 ∨ 12 ≤ data.length ∧
    (hdrQr data = true ∨ hdrOpcode data = 0 ∧ hdrZ data = false ∧ hdrRcode data ≠ rcOk)

/-- An `OPT` pseudo record that stands somewhere in a message. -/
def HasOpt (data : List UInt8) (edns : EdnsInfo) : Prop :=
  ∃ p h, readHead data p = .ok h ∧ h.tp = tOpt ∧ h.cls = edns.udpsize

section Analyses

variable {data : List UInt8}

theorem decodeQueryAdditional_opt {numrr pos : Nat} :
    ∀ edns ∈ (decodeQueryAdditional data numrr pos).1, HasOpt data edns := by
  induction numrr generalizing pos with
  | zero => simp [decodeQueryAdditional]
  | succ numrr ih =>
      rw [decodeQueryAdditional]
      cases hhead : readHead data pos with
      | error e => simp
      | ok h =>
          simp only
          split_ifs with hopt
          · rw [List.forall_mem_cons]
            exact ⟨⟨pos, h, hhead, hopt, rfl⟩, ih⟩
          · exact ih

theorem analyseAdditional_opt {res : Except NameError Nat} {edns : EdnsInfo}
    (h : analyseAdditional data res = .ok (some edns)) : HasOpt data edns := by
  simp only [analyseAdditional] at h
  split_ifs at h
  · cases h
  cases res with
  | error e => cases h
  | ok ptr =>
      simp only at h
      split_ifs at h
      split at h
      · cases h
      · next ednsinfo eps heps =>
          split_ifs at h
          cases h
          exact decodeQueryAdditional_opt _ (heps ▸ List.mem_cons_self)

/-- What `process_query` knows of a query that it looks for an answer to. -/
structure Answerable (data : List UInt8) (ql : List Question) (edns : Option EdnsInfo) : Prop where
  long : 12 ≤ data.length
  qr : hdrQr data = false
  opcode : hdrOpcode data = 0
  rcode : hdrRcode data = rcOk
  asked : ql ≠ []
  decoded : ql = (decodeQuery data).1
  opt : ∀ ednsinfo, edns = some ednsinfo → HasOpt data ednsinfo

theorem analyse_spec (data : List UInt8) :
    match analyse data with
    | .ignore => Ignored data
    | .reject _ edns => ¬Ignored data ∧ ∀ ednsinfo, edns = some ednsinfo → HasOpt data ednsinfo
    | .answer ql edns => ¬Ignored data ∧ Answerable data ql edns := by
  simp only [analyse]
  by_cases hid : data.length < 2
  · rw [if_pos hid]
    exact .inl hid
  by_cases hlong : data.length < 12
  · rw [if_neg hid, if_pos hlong]
    exact ⟨by simp [Ignored, hid, hlong], by simp⟩
  rw [if_neg hid, if_neg hlong]
  by_cases hqr : hdrQr data = true
  · rw [if_pos hqr]
    exact .inr ⟨by omega, .inl hqr⟩
  rw [if_neg hqr]
  by_cases hopcode : hdrOpcode data ≠ 0
  · rw [if_pos hopcode]
    exact ⟨by simp [Ignored, hid, hqr, hopcode], by simp⟩
  rw [if_neg hopcode]
  by_cases hz : hdrZ data = true
  · rw [if_pos hz]
    exact ⟨by simp [Ignored, hid, hqr, hz], by simp⟩
  rw [if_neg hz]
  by_cases hrcode : hdrRcode data ≠ rcOk
  · rw [if_pos hrcode]
    exact .inr ⟨by omega, .inr ⟨by simpa using hopcode, by simpa using hz, hrcode⟩⟩
  rw [if_neg hrcode]
  have hserved : ¬Ignored data := by
    simp only [Ignored]
    rintro (hshort | ⟨-, hresp | ⟨-, -, hbad⟩⟩)
    · exact hid hshort
    · exact hqr hresp
    · exact hrcode hbad
  split_ifs with han hns hbad hempty
  · exact ⟨hserved, by simp⟩
  · exact ⟨hserved, by simp⟩
  · exact ⟨hserved, by simp⟩
  · cases hadd : analyseAdditional data (decodeQuery data).2 with
    | error res => exact ⟨hserved, by simp⟩
    | ok edns => exact ⟨hserved, fun ednsinfo h => analyseAdditional_opt (h ▸ hadd)⟩
  · cases hadd : analyseAdditional data (decodeQuery data).2 with
    | error res => exact ⟨hserved, by simp⟩
    | ok edns =>
        exact ⟨hserved, by omega, by simpa using hqr, by simpa using hopcode,
          by simpa using hrcode, by simpa using hempty, rfl,
          fun ednsinfo h => analyseAdditional_opt (h ▸ hadd)⟩

end Analyses

section Replies

variable {σ : Type} {srv : Services σ} {cfg : ServerConfig} {queryts : Int}

/-- How a reply to these bytes begins: it is a response with the number of the query and this
return code, that was not cut. -/
def BeginsReply (data msg : List UInt8) (rcode : Nat) : Prop :=
  ∃ h rest, msg = Header.bytes h ++ rest ∧ h.id = UInt16.ofNat (hdrId data) ∧
    h.qr = true ∧ h.opcode = (if 3 ≤ data.length then fourBits (hdrOpcode data) else opQuery) ∧
    h.tc = false ∧ h.ra = true ∧ h.rcode = fourBits rcode

theorem errorReply_begins (cfg : ServerConfig) (data : List UInt8) (res : Nat) :
    BeginsReply data (errorReply cfg data res) res ∧ (errorReply cfg data res).length ≤ 23 := by
  simp only [errorReply, BeginsReply]
  generalize (if 3 ≤ data.length then fourBits (hdrOpcode data) else opQuery) = opcode
  split_ifs
  · exact ⟨⟨_, _, rfl, rfl, rfl, rfl, rfl, rfl, rfl⟩, le_rfl⟩
  · exact ⟨⟨_, [], (List.append_nil _).symm, rfl, rfl, rfl, rfl, rfl, rfl⟩, by
      rw [length_headerBytes]
      decide⟩

theorem makeAnswer_begins {hdr : Header} {edns : Bool} {ql : List Question} {udp : Option Nat}
    {w w' : σ} {msg : List UInt8} {rcode : Nat}
    (hmake : makeAnswer srv cfg queryts hdr edns ql udp w = some (some (msg, rcode), w')) :
    ∃ h rest, msg = Header.bytes h ++ rest ∧ h.id = hdr.id ∧ h.qr = true ∧ h.opcode = opQuery ∧
      h.tc = false ∧ h.ra = true ∧ h.rcode = fourBits rcode := by
  obtain ⟨⟨r, s⟩, -, heq⟩ := Option.map_eq_some_iff.mp hmake
  obtain ⟨y, -, hmsg⟩ := Option.map_eq_some_iff.mp (congrArg Prod.fst heq)
  obtain ⟨rfl, rfl⟩ := Prod.mk.inj hmsg
  exact ⟨_, _, rfl, rfl, rfl, rfl, rfl, rfl, rfl⟩

/-- What `process_query` returns, by the kind of message it is. -/
theorem processQuery_spec {data : List UInt8} {udp udp' : Option Nat} {w w' : σ}
    {out : Option (List UInt8 × Nat)}
    (hrun : processQuery srv cfg queryts data udp w = some (out, udp', w')) :
    (out = none ↔ Ignored data) ∧ (∃ edns, udp' = udpLimit cfg edns udp ∧
      ∀ ednsinfo, edns = some ednsinfo → HasOpt data ednsinfo) ∧
      ∀ msg rcode, out = some (msg, rcode) → BeginsReply data msg rcode := by
  have hspec := analyse_spec data
  rw [processQuery] at hrun
  cases hanalyse : analyse data with
  | ignore =>
      rw [hanalyse] at hrun hspec
      cases hrun
      exact ⟨⟨fun _ => hspec, fun _ => rfl⟩, ⟨none, by cases udp <;> rfl, by simp⟩, by simp⟩
  | reject res edns =>
      rw [hanalyse] at hrun hspec
      cases hrun
      refine ⟨iff_of_false (by simp) hspec.1, ⟨edns, rfl, hspec.2⟩, ?_⟩
      rintro msg rcode heq
      cases heq
      exact (errorReply_begins cfg data res).1
  | answer ql edns =>
      rw [hanalyse] at hrun hspec
      obtain ⟨⟨y, w₁⟩, hmake, heq⟩ := Option.map_eq_some_iff.mp hrun
      cases heq
      refine ⟨iff_of_false (by simp) hspec.1, ⟨edns, rfl, hspec.2.opt⟩, ?_⟩
      rintro msg rcode heq
      cases y with
      | none =>
          cases heq
          exact (errorReply_begins cfg data rcServfail).1
      | some y =>
          cases heq
          obtain ⟨h, rest, hmsg, hid, hqr, hopcode, htc, hra, hrcode⟩ := makeAnswer_begins hmake
          have hlong := hspec.2.long
          refine ⟨h, rest, hmsg, hid, hqr, ?_, htc, hra, hrcode⟩
          rw [hopcode, if_pos (by omega), hspec.2.opcode]
          rfl

/-- What is sent of a reply begins like it, but for the bit `tc`. -/
theorem cutReply_begins {h : Header} (rest : List UInt8) {limit : Nat} (hlimit : 12 ≤ limit) :
    ∃ rest' tc, cutReply limit (h.bytes ++ rest) = (h.withTc tc).bytes ++ rest' := by
  rw [cutReply]
  split_ifs with hcut
  · refine ⟨rest.take (limit - 12), true, ?_⟩
    rw [setTc, read_headerBytes, ← length_headerBytes h, List.drop_left, List.take_append,
      List.take_of_length_le (by rw [length_headerBytes]; exact hlimit)]
    rfl
  · exact ⟨rest, h.tc, rfl⟩

theorem length_cutReply_le (limit : Nat) (msg : List UInt8) :
    (cutReply limit msg).length ≤ limit := by
  rw [cutReply]
  split_ifs with hcut
  · exact List.length_take_le _ _
  · exact Nat.le_of_not_lt hcut

/-- What is sent in a datagram for some bytes: nothing just where they are not to be answered, and
otherwise a response with the number of the query, which no server of this kind answers. It
is not longer than 512 bytes, unless the query has an `OPT` pseudo record that offers more. -/
theorem udpAnswer_reply (hbuf : udpBufsize ≤ cfg.udpbufsize) {data : List UInt8} {w w' : σ}
    {out : Option (List UInt8)} (hrun : udpAnswer srv cfg queryts data w = some (out, w')) :
    (out = none ↔ Ignored data) ∧ ∀ reply, out = some reply →
      hdrId reply = hdrId data ∧
      hdrOpcode reply = (if 3 ≤ data.length then hdrOpcode data else 0) ∧ Ignored reply ∧
      (reply.length ≤ udpBufsize ∨ ∃ edns, HasOpt data edns ∧ udpBufsize < edns.udpsize ∧
        reply.length ≤ min cfg.udpbufsize edns.udpsize) := by
  obtain ⟨⟨out', udp, w₁⟩, hprocess, heq⟩ := Option.map_eq_some_iff.mp hrun
  cases heq
  obtain ⟨hnone, ⟨edns, hudp, hopt⟩, hbegins⟩ := processQuery_spec hprocess
  refine ⟨Option.map_eq_none_iff.trans hnone, fun reply hreply => ?_⟩
  obtain ⟨⟨msg, rcode⟩, rfl, rfl⟩ := Option.map_eq_some_iff.mp hreply
  obtain ⟨h, rest, rfl, hid, hqr, hopcode, -⟩ := hbegins msg rcode rfl
  have hlimit : 12 ≤ udp.getD udpBufsize ∧ (udp.getD udpBufsize = udpBufsize ∨
      ∃ edns, HasOpt data edns ∧ udpBufsize < edns.udpsize ∧
        udp.getD udpBufsize = min cfg.udpbufsize edns.udpsize) := by
    have hsize : udpBufsize = 512 := rfl
    rw [hudp]
    cases edns with
    | none => exact ⟨show 12 ≤ udpBufsize by decide, .inl rfl⟩
    | some ednsinfo =>
        simp only [udpLimit, Option.map_some, Option.getD_some]
        split_ifs with hlarge
        · exact ⟨by omega, .inr ⟨ednsinfo, hopt ednsinfo rfl, hlarge, rfl⟩⟩
        · exact ⟨by decide, .inl rfl⟩
  obtain ⟨rest', tc, hcut⟩ := cutReply_begins rest hlimit.1
  have hlen := length_cutReply_le (udp.getD udpBufsize) (h.bytes ++ rest)
  have hread := readsHeader (standsAt_front (h.withTc tc).bytes rest')
  refine ⟨?_, ?_, ?_, ?_⟩
  · rw [hcut, hread.id]
    exact (congrArg UInt16.toNat hid).trans (toNat_ofNat16 (int16_lt 0))
  · rw [hcut, hread.opcode]
    refine (congrArg Fin.val hopcode).trans ?_
    split_ifs
    · exact Nat.mod_eq_of_lt (Nat.mod_lt _ (by decide))
    · rfl
  · rw [hcut]
    exact .inr ⟨by rw [List.length_append, length_headerBytes]; omega, .inl (hread.qr.trans hqr)⟩
  · rcases hlimit.2 with heq | ⟨edns', hopt', hlarge, heq⟩
    · exact .inl (hlen.trans heq.le)
    · exact .inr ⟨edns', hopt', hlarge, hlen.trans heq.le⟩

/-- A query for an address, with an `OPT` pseudo record. -/
def servedQuery : List UInt8 :=
  [18, 52, 1, 0, 0, 1, 0, 0, 0, 0, 0, 1, 1, 97, 0, 0, 1, 0, 1, 0, 0, 41, 4, 0, 0, 0, 0, 0, 0, 0]

theorem udpAnswer_reply_address :
    ∃ reply, udpAnswer oneAddress ⟨false, 1024⟩ 1060 servedQuery () = some (some reply, ()) ∧
      hdrId reply = hdrId servedQuery ∧ Ignored reply := by
  have hrun : udpAnswer oneAddress ⟨false, 1024⟩ 1060 servedQuery () =
      some (some [18, 52, 129, 128, 0, 1, 0, 1, 0, 0, 0, 1, 1, 97, 0, 0, 1, 0, 1, 192, 12, 0, 1,
        0, 1, 0, 0, 0, 240, 0, 4, 127, 0, 0, 1, 0, 0, 41, 4, 0, 0, 0, 0, 0, 0, 0], ()) := by
    decide +kernel
  obtain ⟨hid, -, hignored, -⟩ := (udpAnswer_reply (by decide) hrun).2 _ rfl
  exact ⟨_, hrun, hid, hignored⟩

end Replies

end TorAndroid.Dns
