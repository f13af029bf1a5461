import TorAndroid.Dns.PoisonBarrier
import TorAndroid.Dns.ProcessQuery

namespace TorAndroid.Dns

/-- The header of a query, without an `OPT` pseudo record. -/
def QueryStat.header (st : QueryStat) : Header where
  id := UInt16.ofNat st.myrid
  qr := false
  opcode := opQuery
  aa := false
  tc := false
  rd := st.rd
  ra := false
  z := false
  ad := false
  cd := false
  rcode := fourBits rcOk
  qdcount := 1
  ancount := 0
  nscount := 0
  arcount := 0

/-- The query that is made in the state `QS_INITIAL`. -/
def QueryStat.query (udpbufsize : Nat) (name : Name) (thint : Nat) (st : QueryStat) :
    List UInt8 :=
  let msg : Response := ⟨st.header.bytes ++ name.wire ++ putInt16 (st.qtype thint) ++ putInt16 1,
    0, 0, 0, []⟩
  if st.opt then
    let msg := addOptPseudoRr msg udpbufsize rcOk 0 0
    { st.header with arcount := UInt16.ofNat msg.arcount }.bytes ++ msg.bytes.drop 12
  else msg.bytes

/-- A query under another id. -/
def withId (msg : List UInt8) (rid : Nat) : List UInt8 :=
  { Header.read msg with id := UInt16.ofNat rid }.bytes ++ msg.drop 12

/-- What a reply leads to, with the query that is sent next. -/
inductive MessageVerdict where
  | use (st : QueryStat)
  | requery (st : QueryStat) (msg : List UInt8)
  | discard

/-- The label `resetstate_tryagain`. The bits of the state that stand for the message are those
of the message. -/
def tryAgain (st : QueryStat) (msg : List UInt8) (rid : Nat) : MessageVerdict :=
  let msg := withId msg rid
  .requery { st with myrid := rid, rd := hdrRd msg, opt := hdrArcount msg ≠ 0 } msg

/-- The label `try_withoutedns`. -/
def tryWithoutEdns (st : QueryStat) (msg : List UInt8) (rid : Nat) : MessageVerdict :=
  match removeOptPseudoRr msg with
  | some msg =>
      if hdrArcount msg = 0 then tryAgain { st with ednsQuery := false } msg rid
      else .discard
  | none => .discard

/-- What the `rcode` of a reply leads to after this query. -/
def judgeMessage (st : QueryStat) (msg : List UInt8) (rid : Nat) : MessageVerdict :=
  let rcode := hdrRcode st.recvbuf
  if rcode = rcOk ∨ rcode = rcNameerr then .use st
  else if rcode = rcServfail ∨ rcode = rcNotsupp ∨ rcode = rcRefused then
    if hdrRd msg ∧ !hdrRa st.recvbuf then
      tryAgain st ({ Header.read msg with rd := false }.bytes ++ msg.drop 12) rid
    else if rcode ≠ rcServfail ∧ st.ednsQuery ∧ hdrArcount msg ≠ 0 then tryWithoutEdns st msg rid
    else if hdrAncount st.recvbuf ≠ 0 ∧ st.authServ = 2 then .use { st with failed := 3 }
    else .discard
  else if rcode = rcFormat ∧ st.ednsQuery ∧ hdrArcount msg ≠ 0 then tryWithoutEdns st msg rid
  else .discard

/-- What becomes of a query. If TCP fails, `byUdp` says whether the query had been written by then,
and the id under which it may be sent by UDP. -/
structure Sending where
  byUdp : Option (Bool × Nat)
  attempt : Attempt

/-- Where `switch_to_udp` is called, which is so for one method only. -/
def Sending.switch (qm : QMethod) (sending : Sending) : Option (Bool × Nat) :=
  if qm = .tcpUdp then sending.byUdp else none

/-- The method after this query. -/
def Sending.method (qm : QMethod) (sending : Sending) : QMethod :=
  if (sending.switch qm).isSome then .udpOnly else qm

/-- A query is sent, by TCP and then by UDP if there is a switch. The second and the third part are
the state and the query after that. -/
def sendQuery (st : QueryStat) (msg : List UInt8) :
    Option (Bool × Nat) → List (List UInt8) × QueryStat × List UInt8
  | none => ([msg], st, msg)
  | some (written, rid) =>
      let again := withId msg rid
      (if written then [msg, again] else [again], { st with myrid := rid }, again)

/-- The queries that are sent, and what comes of them. -/
def execQuery (cfg : QueryConfig) (ns : List NsItem) (name : Name) (thint : Nat) :
    QMethod → QueryStat → List UInt8 → List Sending → List (List UInt8) × Option Answer
  | _, _, _, [] => ([], none)
  | qm, st, msg, sending :: sendings =>
      let (sent, st, msg) := sendQuery st msg (sending.switch qm)
      match sending.attempt.sm with
      | .failed rv => (sent, some (fail { st with recvbuf := [] } ns rv))
      | .received recvbuf =>
          let st := { st with recvbuf := recvbuf }
          if sane st then
            match judgeMessage st msg sending.attempt.rid with
            | .use st => (sent, some (useReply cfg st ns name thint sending.attempt.queryts))
            | .requery st msg =>
                let (more, answer) :=
                  execQuery cfg ns name thint (sending.method qm) st msg sendings
                (sent ++ more, answer)
            | .discard => (sent, some (fail st ns (hdrRcode st.recvbuf)))
          else (sent, some (fail st ns rcServfail))

/-- The ids under which the queries are sent last, where the first one starts out with `rid`: the
first of them, and the run in which each query is sent under that id only. -/
def lastSent : QMethod → Nat → List Sending → Nat × List Attempt
  | _, rid, [] => (rid, [])
  | qm, rid, sending :: sendings =>
      let (next, attempts) := lastSent (sending.method qm) sending.attempt.rid sendings
      ((sending.switch qm).elim rid Prod.snd, { sending.attempt with rid := next } :: attempts)

section Queries

variable {st : QueryStat} {udpbufsize : Nat} {name : Name} {thint : Nat}

/-- The header of a query as it is sent. -/
def QueryStat.sent (st : QueryStat) : Header :=
  { st.header with arcount := if st.opt then 1 else 0 }

/-- What stands behind the header. -/
def QueryStat.body (udpbufsize : Nat) (name : Name) (thint : Nat) (st : QueryStat) : List UInt8 :=
  name.wire ++ putInt16 (st.qtype thint) ++ putInt16 1 ++
    if st.opt then optBytes udpbufsize rcOk 0 0 else []

theorem query_eq : st.query udpbufsize name thint =
    st.sent.bytes ++ st.body udpbufsize name thint := by
  cases hopt : st.opt with
  | false =>
      rw [QueryStat.query, hopt, QueryStat.sent, QueryStat.body, hopt, if_neg (by decide),
        if_neg (by decide), if_neg (by decide), List.append_nil]
      simp only [List.append_assoc]
      rfl
  | true =>
      rw [QueryStat.query, hopt, QueryStat.sent, QueryStat.body, hopt, if_pos rfl, if_pos rfl,
        if_pos rfl, addOptPseudoRr]
      simp only [List.append_assoc]
      rw [← length_headerBytes st.header, List.drop_left]
      rfl

theorem query_reads : ReadsHeader (st.query udpbufsize name thint) st.sent := by
  rw [query_eq]
  exact readsHeader (standsAt_front _ _)

theorem hdrArcount_query : hdrArcount (st.query udpbufsize name thint) ≠ 0 ↔ st.opt = true := by
  rw [query_reads.arcount, QueryStat.sent]
  cases st.opt <;> simp

/-- The header of a query is changed, and nothing else. -/
theorem changeHeader (f : Header → Header) :
    (f (Header.read (st.query udpbufsize name thint))).bytes ++
        (st.query udpbufsize name thint).drop 12 =
      (f st.sent).bytes ++ st.body udpbufsize name thint := by
  rw [query_eq, read_headerBytes, ← length_headerBytes st.sent, List.drop_left]

theorem withId_query (rid : Nat) : withId (st.query udpbufsize name thint) rid =
    { st with myrid := rid }.query udpbufsize name thint := by
  have hnext : { st with myrid := rid }.query udpbufsize name thint =
      { st.sent with id := UInt16.ofNat rid }.bytes ++ st.body udpbufsize name thint := query_eq
  rw [withId, hnext]
  exact changeHeader fun h => { h with id := UInt16.ofNat rid }

theorem tryAgain_query (st' : QueryStat) (rid : Nat) :
    tryAgain st' (st.query udpbufsize name thint) rid =
      .requery { st' with myrid := rid, rd := st.rd, opt := st.opt }
        ({ st with myrid := rid }.query udpbufsize name thint) := by
  simp only [tryAgain, withId_query, query_reads.rd, hdrArcount_query, Bool.decide_eq_true]
  rfl

/-- The `OPT` pseudo record is the last thing in a query, so that it can always be taken away. -/
theorem removeOpt_query (hopt : st.opt = true) :
    removeOptPseudoRr (st.query udpbufsize name thint) =
      some ({ st with opt := false }.query udpbufsize name thint) := by
  set front := st.sent.bytes ++ (name.wire ++ putInt16 (st.qtype thint) ++ putInt16 1) with hfront
  have hmsg : st.query udpbufsize name thint = front ++ optBytes udpbufsize rcOk 0 0 := by
    rw [query_eq, QueryStat.body, hopt, if_pos rfl, hfront]
    simp only [List.append_assoc]
  have hlen : (st.query udpbufsize name thint).length - sizeofOptPseudoRr = front.length := by
    rw [hmsg, List.length_append]
    rfl
  have hlong : 12 ≤ front.length := by
    rw [hfront, List.length_append, length_headerBytes]
    exact Nat.le_add_right _ _
  have hat : StandsAt (st.query udpbufsize name thint) front.length
      (optBytes udpbufsize rcOk 0 0) := hmsg ▸ standsAt_append _ _
  obtain ⟨hname, htp⟩ := hat.append.1.append.1.append.1.append.1.append
  have hroot : byteAt (st.query udpbufsize name thint) front.length = 0 := hname.cons.1
  have htype : int16 (st.query udpbufsize name thint) (front.length + 1) = tOpt :=
    int16_of_standsAt htp
  have hone : hdrArcount (st.query udpbufsize name thint) = 1 := by
    rw [query_reads.arcount, QueryStat.sent, hopt]
    rfl
  have hshort : ¬(hdrArcount (st.query udpbufsize name thint) = 0 ∨
      (st.query udpbufsize name thint).length < 12 + sizeofOptPseudoRr) := by
    rw [hone]
    simp only [sizeofOptPseudoRr] at hlen ⊢
    omega
  have htake : (st.query udpbufsize name thint).take front.length = front := by
    rw [hmsg, List.take_left]
  rw [removeOptPseudoRr, if_neg hshort]
  simp only [hlen, hroot, htype, hone, htake, ne_eq, not_true_eq_false, if_false]
  rw [query_eq, read_headerBytes, query_eq, QueryStat.body, hfront,
    ← length_headerBytes st.sent, List.drop_left, if_neg (by simp), List.append_nil]
  rfl

/-- The bytes of a query are changed as the bits that stand for them in the state. -/
theorem judgeMessage_query (rid : Nat) :
    judgeMessage st (st.query udpbufsize name thint) rid =
      match judgeRcode st rid with
      | .use st' => .use st'
      | .requery st' => .requery st' (st'.query udpbufsize name thint)
      | .discard => .discard := by
  have hwithout : st.opt = true →
      tryWithoutEdns st (st.query udpbufsize name thint) rid =
        .requery { st with opt := false, ednsQuery := false, myrid := rid }
          ({ st with opt := false, ednsQuery := false, myrid := rid }.query udpbufsize name
            thint) := by
    intro hopt
    have hnone : hdrArcount ({ st with opt := false }.query udpbufsize name thint) = 0 :=
      query_reads.arcount
    rw [tryWithoutEdns, removeOpt_query hopt]
    simp only [hnone, if_true]
    rw [tryAgain_query]
    rfl
  have hrd : tryAgain st ({ Header.read (st.query udpbufsize name thint) with rd := false }.bytes ++
      (st.query udpbufsize name thint).drop 12) rid =
        .requery { st with rd := false, myrid := rid }
          ({ st with rd := false, myrid := rid }.query udpbufsize name thint) := by
    have hmsg := @changeHeader st udpbufsize name thint fun h => { h with rd := false }
    have hnext : { st with rd := false }.query udpbufsize name thint =
        { st.sent with rd := false }.bytes ++ st.body udpbufsize name thint := query_eq
    simp only [hmsg, ← hnext]
    rw [tryAgain_query]
  have hrdBit : hdrRd (st.query udpbufsize name thint) = st.rd := query_reads.rd
  simp only [judgeMessage, judgeRcode, hrdBit, hdrArcount_query, hrd]
  split_ifs with _ _ _ hedns _ hformat
  · rfl
  · rfl
  · exact hwithout hedns.2.2
  · rfl
  · rfl
  · exact hwithout hformat.2.2
  · rfl

/-- How often a query can be sent again. -/
def QueryStat.retries (st : QueryStat) : Nat :=
  st.rd.toNat + st.opt.toNat

theorem judgeRcode_retries {rid : Nat} {st' : QueryStat} (h : judgeRcode st rid = .requery st') :
    st'.retries + 1 = st.retries := by
  simp only [judgeRcode] at h
  split_ifs at h with _ _ hrd hedns _ hformat <;> cases h
  · simp [QueryStat.retries, hrd.1, Nat.add_comm]
  · simp [QueryStat.retries, hedns.2.2]
  · simp [QueryStat.retries, hformat.2.2]

theorem judgeRcode_myrid {rid : Nat} {st' : QueryStat} (h : judgeRcode st rid = .requery st') :
    st'.myrid = rid := by
  simp only [judgeRcode] at h
  split_ifs at h <;> cases h <;> rfl

/-- The next id decides nothing. -/
theorem judgeRcode_rid (rid rid' : Nat) : judgeRcode st rid' =
    match judgeRcode st rid with
    | .use st' => .use st'
    | .requery st' => .requery { st' with myrid := rid' }
    | .discard => .discard := by
  simp only [judgeRcode]
  split_ifs <;> rfl

/-- One query, which is the same under each id. -/
theorem sendQuery_query (switch : Option (Bool × Nat)) :
    ∃ sent, sendQuery st (st.query udpbufsize name thint) switch =
        (sent, { st with myrid := switch.elim st.myrid Prod.snd },
          { st with myrid := switch.elim st.myrid Prod.snd }.query udpbufsize name thint) ∧
      sent.length ≤ 1 + switch.isSome.toNat ∧
      ∀ msg ∈ sent, ∃ st', SameServer st st' ∧ msg = st'.query udpbufsize name thint := by
  have hfirst : ∃ st', SameServer st st' ∧ st.query udpbufsize name thint =
      st'.query udpbufsize name thint := ⟨st, .refl st, rfl⟩
  rcases switch with _ | ⟨written, rid⟩
  · exact ⟨_, rfl, Nat.le_refl 1, by simpa using hfirst⟩
  · have hagain : ∃ st', SameServer st st' ∧ { st with myrid := rid }.query udpbufsize name thint =
        st'.query udpbufsize name thint :=
          ⟨{ st with myrid := rid }, ⟨rfl, rfl, rfl, rfl, rfl⟩, rfl⟩
    refine ⟨_, by rw [sendQuery, withId_query]; rfl, ?_, ?_⟩
    · cases written <;> simp
    · cases written
      · simpa using hagain
      · simpa using ⟨hfirst, hagain⟩

/-- How often a query can be sent by UDP after it was sent by TCP. -/
def QMethod.switches (qm : QMethod) : Nat :=
  if qm = .tcpUdp then 1 else 0

theorem switch_method (qm : QMethod) (sending : Sending) :
    (sending.switch qm).isSome.toNat + (sending.method qm).switches ≤ qm.switches := by
  obtain ⟨byUdp, attempt⟩ := sending
  cases qm <;> cases byUdp <;> simp [Sending.method, Sending.switch, QMethod.switches]

/-- What is sent in a run. -/
theorem execQuery_query (cfg : QueryConfig) (ns : List NsItem) (qm : QMethod)
    (sendings : List Sending) :
    (execQuery cfg ns name thint qm st (st.query udpbufsize name thint) sendings).2 =
        pExecQuery cfg ns name thint { st with myrid := (lastSent qm st.myrid sendings).1 }
          (lastSent qm st.myrid sendings).2 ∧
      (execQuery cfg ns name thint qm st (st.query udpbufsize name thint) sendings).1.length ≤
        st.retries + 1 + qm.switches ∧
      ∀ msg ∈ (execQuery cfg ns name thint qm st (st.query udpbufsize name thint) sendings).1,
        ∃ st', SameServer st st' ∧ msg = st'.query udpbufsize name thint := by
  induction sendings generalizing st qm with
  | nil => exact ⟨rfl, Nat.zero_le _, by simp [execQuery]⟩
  | cons sending sendings ih =>
      obtain ⟨sent, hsend, hcount, hmade⟩ :=
        @sendQuery_query st udpbufsize name thint (sending.switch qm)
      have hswitch := switch_method qm sending
      have hle : sent.length ≤ st.retries + 1 + qm.switches := by omega
      rw [execQuery, hsend, lastSent, pExecQuery]
      generalize hlast : lastSent (sending.method qm) sending.attempt.rid sendings = last
      obtain ⟨next, attempts⟩ := last
      dsimp only
      set st₁ : QueryStat := { st with myrid := (sending.switch qm).elim st.myrid Prod.snd }
      cases hsm : sending.attempt.sm with
      | failed rv => exact ⟨rfl, hle, hmade⟩
      | received recvbuf =>
          have hjudge := @judgeMessage_query { st₁ with recvbuf := recvbuf } udpbufsize name thint
            sending.attempt.rid
          have hnext := @judgeRcode_rid { st₁ with recvbuf := recvbuf } sending.attempt.rid next
          have hsame := judgeRcode_same { st₁ with recvbuf := recvbuf } sending.attempt.rid
          have hquery : { st₁ with recvbuf := recvbuf }.query udpbufsize name thint =
              st₁.query udpbufsize name thint := rfl
          rw [hquery] at hjudge
          simp only [processReply]
          by_cases hsane : sane { st₁ with recvbuf := recvbuf } = true
          · rw [if_pos hsane, if_pos hsane, hjudge, hnext]
            cases hverdict : judgeRcode { st₁ with recvbuf := recvbuf } sending.attempt.rid with
            | use st' => exact ⟨rfl, hle, hmade⟩
            | discard => exact ⟨rfl, hle, hmade⟩
            | requery st' =>
                rw [hverdict] at hsame
                have hrid : st'.myrid = sending.attempt.rid := judgeRcode_myrid hverdict
                obtain ⟨hanswer, hmore, hmade'⟩ := @ih st' (sending.method qm)
                have hretries := judgeRcode_retries hverdict
                have hbefore : { st₁ with recvbuf := recvbuf }.retries = st.retries := rfl
                rw [hrid, hlast] at hanswer
                refine ⟨hanswer, ?_, ?_⟩
                · rw [List.length_append]
                  omega
                · rw [List.forall_mem_append]
                  refine ⟨hmade, fun msg hmsg => ?_⟩
                  obtain ⟨st'', hst'', heq⟩ := hmade' msg hmsg
                  exact ⟨st'', .trans ⟨hsame.1, hsame.2, hsame.3, hsame.4, hsame.5⟩ hst'', heq⟩
          · rw [if_neg hsane, if_neg hsane]
            exact ⟨rfl, hle, hmade⟩

end Queries

end TorAndroid.Dns
