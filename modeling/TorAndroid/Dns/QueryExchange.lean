import TorAndroid.Dns.QueryMessage

namespace TorAndroid.Dns

open TorAndroid.Lib.Interaction

section Queries

variable {st : QueryStat} {udpbufsize : Nat} {name : Name} {thint : Nat}

/-- The question of a query. -/
def QueryStat.question (name : Name) (thint : Nat) (st : QueryStat) : Question :=
  ⟨name, UInt16.ofNat (st.qtype thint), 1⟩

/-- What the `OPT` pseudo record of a query says. -/
def QueryStat.edns (udpbufsize : Nat) (st : QueryStat) : Option EdnsInfo :=
  if st.opt then some ⟨udpbufsize % 65536, 0, 0, false⟩ else none

theorem query_stands : StandsAt (st.query udpbufsize name thint) 12
      (name.wire ++ putInt16 (st.qtype thint) ++ putInt16 1) ∧
    (st.opt = true → StandsAt (st.query udpbufsize name thint) (12 + (name.wire.length + 4))
      (optBytes udpbufsize rcOk 0 0)) := by
  have hbody : StandsAt (st.query udpbufsize name thint) 12 (st.body udpbufsize name thint) := by
    rw [query_eq]
    exact standsAt_append st.sent.bytes _
  obtain ⟨hquestion, hrest⟩ := hbody.append
  refine ⟨hquestion, fun hopt => ?_⟩
  rw [if_pos hopt] at hrest
  simpa only [List.length_append, putInt16, List.length_cons, List.length_nil] using hrest

theorem decodeQuery_query (hname : name.Valid) (hqtype : st.qtype thint < 65536) :
    decodeQuery (st.query udpbufsize name thint) =
      ([st.question name thint], .ok (12 + (name.wire.length + 4))) := by
  obtain ⟨hat, -⟩ := @query_stands st udpbufsize name thint
  have hne : name.wire ≠ [] := by simp [Name.wire]
  have hin := hat.append.1.append.1.length_le hne
  have hone : hdrQdcount (st.query udpbufsize name thint) = 1 := query_reads.qdcount
  have hread := readQuestions_one (q := st.question name thint) hne
    (decompressName_wire hat.append.1.append.1 hname (by omega))
    (by rw [QueryStat.question, toNat_ofNat16 hqtype]; exact hat)
  rw [decodeQuery, hone, hread]
  rfl

/-- A server of this kind looks for an answer to every query of the other one. -/
theorem analyse_query (hname : name.Valid) (hqtype : st.qtype thint < 65536) :
    analyse (st.query udpbufsize name thint) =
      .answer [st.question name thint] (st.edns udpbufsize) := by
  have hread := @query_reads st udpbufsize name thint
  have hlong : 12 ≤ (st.query udpbufsize name thint).length := by
    rw [query_eq, List.length_append, length_headerBytes]
    exact Nat.le_add_right _ _
  have hrcode : hdrRcode (st.query udpbufsize name thint) = rcOk := hread.rcode
  have hadd : analyseAdditional (st.query udpbufsize name thint)
      (.ok (12 + (name.wire.length + 4))) = .ok (st.edns udpbufsize) := by
    rw [QueryStat.edns]
    split_ifs with hopt
    · have hone : hdrArcount (st.query udpbufsize name thint) = 1 := by
        rw [hread.arcount, QueryStat.sent, if_pos hopt]
        rfl
      have hhead := readHead_opt (by decide) ((@query_stands st udpbufsize name thint).2 hopt)
      simp only [analyseAdditional, hone, decodeQueryAdditional, hhead, hrcode]
      rfl
    · have hnone : hdrArcount (st.query udpbufsize name thint) = 0 := by
        rw [hread.arcount, QueryStat.sent, if_neg hopt]
        rfl
      rw [analyseAdditional, if_pos hnone]
  have hqr : hdrQr (st.query udpbufsize name thint) = false := hread.qr
  have hopcode : hdrOpcode (st.query udpbufsize name thint) = 0 := hread.opcode
  have hz : hdrZ (st.query udpbufsize name thint) = false := hread.z
  have han : hdrAncount (st.query udpbufsize name thint) = 0 := hread.ancount
  have hns : hdrNscount (st.query udpbufsize name thint) = 0 := hread.nscount
  simp only [analyse, if_neg (show ¬(st.query udpbufsize name thint).length < 2 by omega),
    if_neg (show ¬(st.query udpbufsize name thint).length < 12 by omega), hqr, hopcode, hz, hrcode,
    han, hns, decodeQuery_query hname hqtype, hadd]
  simp

/-- A run of `p_exec_query` over the bytes of its queries. What comes of it is what the bits of
the state say for the run in which each query is sent under its last id only. At most three queries
are sent, or four where UDP may follow TCP, and each is one that a server of this kind looks for an
answer to. -/
theorem execQuery_run (cfg : QueryConfig) (ns : List NsItem) (qm : QMethod)
    (sendings : List Sending)
    (hname : name.Valid) (hqtype : st.qtype thint < 65536) :
    (execQuery cfg ns name thint qm st (st.query udpbufsize name thint) sendings).2 =
        pExecQuery cfg ns name thint { st with myrid := (lastSent qm st.myrid sendings).1 }
          (lastSent qm st.myrid sendings).2 ∧
      (execQuery cfg ns name thint qm st (st.query udpbufsize name thint) sendings).1.length ≤
        (if qm = .tcpUdp then 4 else 3) ∧
      ∀ msg ∈ (execQuery cfg ns name thint qm st (st.query udpbufsize name thint) sendings).1,
        ∃ edns, analyse msg = .answer [st.question name thint] edns := by
  obtain ⟨hanswer, hcount, hmade⟩ := @execQuery_query st udpbufsize name thint cfg ns qm sendings
  refine ⟨hanswer, ?_, fun msg hmsg => ?_⟩
  · have hrd : st.rd.toNat ≤ 1 := Bool.toNat_le _
    have hopt : st.opt.toNat ≤ 1 := Bool.toNat_le _
    rw [QueryStat.retries, QMethod.switches] at hcount
    split_ifs at hcount ⊢ <;> omega
  · obtain ⟨st', hsame, rfl⟩ := hmade msg hmsg
    have hquestion : st'.question name thint = st.question name thint := by
      rw [QueryStat.question, QueryStat.question, hsame.qtype]
    exact ⟨_, hquestion ▸ analyse_query hname ((hsame.qtype thint).symm ▸ hqtype)⟩

/-- A query for an address to a server that is trusted. -/
def servedClient : QueryStat where
  flags := ⟨false, false, false, false, false, false, false⟩
  nocache := false
  authServ := 3
  leanQuery := true
  ednsQuery := true
  trusted := true
  aa := false
  tc := false
  ra := false
  failed := 0
  nsdomain := none
  rejectlist := none
  myrid := 0x1234
  rd := true
  opt := true
  recvbuf := []

/-- A server that closes TCP connections, does not serve recursive queries and does not understand
`OPT`. -/
def threeRefusals : List Sending :=
  [⟨some (true, 7), .received [0, 7, 128, 2, 0, 0, 0, 0, 0, 0, 0, 0], 1000, 1⟩,
    ⟨none, .received [0, 1, 128, 1, 0, 0, 0, 0, 0, 0, 0, 0], 1000, 2⟩, ⟨none, .failed 2, 1000, 3⟩]

theorem execQuery_run_refusals :
    (execQuery ⟨⟨0, 0, 0, 0⟩, .on, .on, 900, []⟩ [] servedName 1 .tcpUdp servedClient
        (servedClient.query 1024 servedName 1) threeRefusals).1.length = 4 ∧
      ∀ msg ∈ (execQuery ⟨⟨0, 0, 0, 0⟩, .on, .on, 900, []⟩ [] servedName 1 .tcpUdp servedClient
        (servedClient.query 1024 servedName 1) threeRefusals).1,
        ∃ edns, analyse msg = .answer [servedClient.question servedName 1] edns := by
  obtain ⟨-, -, hmade⟩ := @execQuery_run servedClient 1024 servedName 1
    ⟨⟨0, 0, 0, 0⟩, .on, .on, 900, []⟩ [] .tcpUdp threeRefusals servedName_valid (by decide)
  exact ⟨by decide +kernel, hmade⟩

end Queries

section Contents

variable {σ : Type} {srv : Services σ}

theorem opt_noteOp {allowed : Option RrSection → Prop} {β : Type} (op : AnswerOp β)
    {t : σ × Contents}
    {x : Phase} (hI : ∀ y ∈ t.2.kept, ∀ n, y.2 = .opt n → x.opt = some n ∧ n < 16)
    (hpre : (composing allowed).pre op x) :
    ∀ y ∈ (noteOp srv op t).2.2.kept, ∀ n, y.2 = .opt n →
      ((composing allowed).next op (noteOp srv op t).1 x).opt = some n ∧ n < 16 := by
  cases op with
  | rr sect r =>
      refine List.forall_mem_append.mpr ⟨hI, List.forall_mem_singleton.mpr fun n hn => ?_⟩
      cases hn
  | opt rcode =>
      refine List.forall_mem_append.mpr ⟨fun y hy n hn => ?_,
        List.forall_mem_singleton.mpr fun n hn => ?_⟩
      · have hbefore := (hI y hy n hn).1
        rw [hpre.2] at hbefore
        cases hbefore
      · cases hn
        exact ⟨rfl, hpre.1⟩
  | question q => exact hI
  | resolve => exact hI
  | lookup => exact hI
  | localOwner => exact hI
  | random => exact hI
  | room => exact hI

/-- The return code in the `OPT` pseudo record is the one of the answer. -/
theorem answerContents_opt {cfg : ServerConfig} {queryts : Int} {hdr : Header} {edns : Bool}
    {ql : List Question} {w : σ} {rcode : Nat} {aa : Bool} (hsrv : srv.Sound)
    (hql : ∀ q ∈ ql, q.qname.Valid)
    (hresult : (answerContents srv cfg queryts hdr edns ql w).1 = some (rcode, aa)) :
    ∀ y ∈ (answerContents srv cfg queryts hdr edns ql w).2.2.kept, ∀ n, y.2 = .opt n →
      n = rcode % 16 := by
  obtain ⟨x, ⟨rcode', aa', hsame, hopt⟩, hI⟩ :=
    (@composeAnswer_ensures cfg.rndRecs queryts hdr.rd edns ql hql).eval
      (g := noteOp srv)
      (I := fun t x => ∀ y ∈ t.2.kept, ∀ n, y.2 = .opt n → x.opt = some n ∧ n < 16)
      (fun op t x hI hpre => ⟨services_post hsrv op t, opt_noteOp op hI hpre⟩)
      (t := (w, ⟨[], []⟩)) (by simp)
  intro y hy n hn
  obtain ⟨hx, hsmall⟩ := hI y hy n hn
  obtain ⟨rfl, -⟩ := Prod.mk.inj (Option.some.inj (hresult.symm.trans hsame))
  rw [hopt n hx, Nat.mod_eq_of_lt hsmall]

theorem askQuestions_eval (ql : List Question) (w : σ) (c : Contents) :
    ((ql.foldlM (fun _ qe => Prog.ask (AnswerOp.question qe)) ()).eval (noteOp srv) (w, c)).2 =
      (w, { c with questions := c.questions ++ ql }) := by
  induction ql generalizing c with
  | nil => simp only [List.append_nil]; rfl
  | cons q ql ih =>
      rw [List.foldlM_cons, Prog.eval_bind]
      exact (ih _).trans (by simp)

/-- The questions of an answer are those of the query. -/
theorem answerContents_questions {cfg : ServerConfig} {queryts : Int} {hdr : Header} {edns : Bool}
    {ql : List Question} {w : σ} (hsrv : srv.Sound) (hql : ∀ q ∈ ql, q.qname.Valid) :
    (answerContents srv cfg queryts hdr edns ql w).2.2.questions = ql := by
  have hrest : Ensures (composing fun part => part ≠ none) (fun _ _ => True)
      (composeSections cfg.rndRecs queryts hdr.rd edns ql >>=
        composeRest cfg.rndRecs queryts edns) ⟨0, none⟩ :=
    (composeSections_ensures (by decide) (by decide) hql).bind fun o y ho =>
      (composeRest_ensures (by decide) ho).weaken fun _ _ _ => trivial
  obtain ⟨-, -, hend⟩ := hrest.eval (g := noteOp srv) (I := fun t _ => t.2.questions = ql)
    (fun op t x hI hpre => ⟨services_post hsrv op t, by
      cases op with
      | question q => exact (hpre.2.2 rfl).elim
      | resolve => exact hI
      | lookup => exact hI
      | localOwner => exact hI
      | random => exact hI
      | rr => exact hI
      | opt => exact hI
      | room => exact hI⟩)
    (t := (w, ⟨ql, []⟩)) rfl
  rw [answerContents, composeAnswer, composeFront, Prog.bind_assoc, Prog.eval_bind,
    askQuestions_eval, List.nil_append]
  exact hend

end Contents

/-- The records of a section. -/
def Contents.records (c : Contents) (s : RrSection) : List Record :=
  (c.section s).filterMap Item.record

/-- The sections of a reply, as they were read, hold the records of these contents. -/
structure Brings (secs : Sections) (c : Contents) : Prop where
  ans : ∃ rs, Gathered secs.ans rs ∧ rs.map Record.fold = (c.records .answer).map Record.fold
  auth : ∃ rs, Gathered secs.auth rs ∧ rs.map Record.fold = (c.records .authority).map Record.fold
  add : ∃ rs, Gathered secs.add rs ∧ rs.map Record.fold = (c.records .additional).map Record.fold

section Reading

variable {msg : List UInt8} {p next : Nat} {items items' : List Item}

theorem records_of_fold (h : items'.map Item.fold = items.map Item.fold) :
    (items'.filterMap Item.record).map Record.fold =
      (items.filterMap Item.record).map Record.fold := by
  have hall : ∀ items : List Item, (items.filterMap Item.record).map Record.fold =
      (items.map Item.fold).filterMap fun x => x.bind Sum.getRight? := by
    intro items
    rw [List.filterMap_map, List.map_filterMap]
    congr 1
    funext item
    cases item <;> rfl
  rw [hall, hall, h]

theorem opts_of_fold (h : items'.map Item.fold = items.map Item.fold) (n : Nat) :
    .opt n ∈ items' → .opt n ∈ items := by
  intro hmem
  have hfold : Item.fold (.opt n) ∈ items.map Item.fold := h ▸ List.mem_map_of_mem hmem
  obtain ⟨item, hitem, heq⟩ := List.mem_map.mp hfold
  cases item with
  | opt m =>
      cases heq
      exact hitem
  | rr r => cases heq
  | ignored => cases heq

theorem ItemsAt.gathered (h : ItemsAt msg p next items) (sz : Sizes) (flags : CFlags) (ts : Int)
    {centa : List Cent} (hcenta : Gathered centa []) :
    ∃ centa' rs, rrs2cent sz msg p items.length flags ts centa = (centa', .ok next) ∧
      Gathered centa' rs ∧
        rs.map Record.fold = (items.filterMap Item.record).map Record.fold := by
  obtain ⟨items', hread, hfold⟩ := h
  have hvalid : ∀ r, .rr r ∈ items' → r.owner.Valid := fun r hr =>
    (readItems_storable r (by rw [hread]; exact hr)).owner
  refine ⟨_, _, by rw [rrs2cent, hread], hcenta.storeAll sz flags ts hvalid, ?_⟩
  rw [List.nil_append]
  exact records_of_fold hfold

theorem gathered_first {c : Cent} (hc : c.MadeOf []) : Gathered [c] [] :=
  ⟨by simpa using hc, by simp, by simp⟩

theorem ednsRcode_mem {n : Nat} (h : ednsRcode items = some n) : .opt n ∈ items := by
  obtain ⟨item, hmem, heq⟩ := List.exists_of_findSome?_eq_some h
  cases item with
  | opt m =>
      cases heq
      exact hmem
  | rr r => cases heq
  | ignored => cases heq

theorem checkQuestion_of_questionsAt {q : Question} (hone : hdrQdcount msg = 1)
    (h : QuestionsAt msg 12 next [q]) : checkQuestion msg q.qname q.qtype.toNat = some next := by
  obtain ⟨qs, hread, hfold⟩ := h
  rw [List.length_singleton, readQuestions] at hread
  cases hname : decompressName msg 12 (msg.length - 12) with
  | error e =>
      rw [hname] at hread
      cases congrArg Prod.snd hread
  | ok x =>
      obtain ⟨n, -, hwire⟩ := decompressName_valid hname
      have hle := left_le_of_decompressName hname
      simp only [hname] at hread
      split_ifs at hread with hleft
      · cases congrArg Prod.snd hread
      · have hqs := congrArg Prod.fst hread
        have hnext := Except.ok.inj (congrArg Prod.snd hread)
        simp only [readQuestions] at hqs hnext
        rw [← hqs, List.map_singleton, List.map_singleton, List.singleton_inj, Question.fold,
          Question.fold, Prod.mk.injEq, Prod.mk.injEq] at hfold
        obtain ⟨hfold, htype, -⟩ := hfold
        simp only [hwire, Name.ofWire_wire] at hfold
        have hpos : msg.length - x.2 = 12 + (msg.length - 12 - x.2) := by omega
        have htype' : int16 msg (msg.length - x.2) = q.qtype.toNat := by
          rw [hpos, ← toNat_ofNat16 (int16_lt _)]
          exact congrArg UInt16.toNat htype
        rw [checkQuestion, if_neg (by rw [hone]; decide), hname]
        simp only [hwire]
        rw [if_neg (by simp [(rhnicmp_wire n q.qname).mpr hfold]), if_neg hleft,
          if_neg (by rw [htype']; exact not_not.mpr rfl), hpos, hnext]

/-- The client reads the contents. -/
theorem ReadsAs.sections {c : Contents} {q : Question} (h : ReadsAs msg c)
    (hq : c.questions = [q]) :
    ∃ pos, checkQuestion msg q.qname q.qtype.toNat = some pos ∧
      ∀ (sz : Sizes) (flags : CFlags) (ts : Int) (first : Cent), first.MadeOf [] →
        ∃ secs, readSections sz msg pos flags ts first = (secs, .ok msg.length) ∧ Brings secs c ∧
          ∀ n, secs.edns = some n → .opt n ∈ c.section .additional := by
  obtain ⟨p₁, p₂, p₃, hquestions, hanswer, hauthority, hadditional⟩ := h.parts
  rw [hq] at hquestions
  have hone : hdrQdcount msg = 1 := by rw [h.qdcount, hq, List.length_singleton]
  refine ⟨p₁, checkQuestion_of_questionsAt hone hquestions, fun sz flags ts first hfirst => ?_⟩
  obtain ⟨ans, rs₁, hans, hgathered₁, hfold₁⟩ :=
    hanswer.gathered sz flags ts (gathered_first hfirst)
  obtain ⟨auth, rs₂, hauth, hgathered₂, hfold₂⟩ :=
    hauthority.gathered sz { flags with additional := true } ts gathered_nil
  obtain ⟨add, rs₃, hadd, hgathered₃, hfold₃⟩ :=
    hadditional.gathered sz { flags with additional := true } ts gathered_nil
  obtain ⟨items, hitems, hfold⟩ := hadditional
  rw [← h.ancount] at hans
  rw [← h.nscount] at hauth
  rw [← h.arcount] at hadd hitems
  refine ⟨⟨ans, auth, add, ednsRcode (readItems msg (hdrArcount msg) p₃).1⟩, ?_,
    ⟨⟨rs₁, hgathered₁, hfold₁⟩, ⟨rs₂, hgathered₂, hfold₂⟩, ⟨rs₃, hgathered₃, hfold₃⟩⟩, ?_⟩
  · simp only [readSections, hans, hauth, hadd]
  · intro n hn
    rw [hitems] at hn
    exact opts_of_fold hfold n (ednsRcode_mem hn)

end Reading

section Exchange

variable {σ : Type} {srv : Services σ} {cfg : ServerConfig} {queryts : Int} {st : QueryStat}
  {udpbufsize : Nat} {name : Name} {thint : Nat} {w : σ}

theorem processQuery_query (hname : name.Valid) (hqtype : st.qtype thint < 65536) {msg : List UInt8}
    {rcode : Nat} {w' : σ}
    (hmake : makeAnswer srv cfg queryts st.sent st.opt [st.question name thint] none w =
      some (some (msg, rcode), w')) :
    processQuery srv cfg queryts (st.query udpbufsize name thint) none w =
      some (some (msg, rcode), none, w') := by
  have hedns : (st.edns udpbufsize).isSome = st.opt := by
    rw [QueryStat.edns]
    cases st.opt <;> rfl
  have hhdr : Header.read (st.query udpbufsize name thint) = st.sent := by
    rw [query_eq, read_headerBytes]
  rw [processQuery, analyse_query hname hqtype]
  simp only [udpLimit, Option.map_none, hhdr, hedns, hmake, Option.map_some, Option.getD_some]

theorem sane_of_reads {msg : List UInt8} {rcode : Nat} {aa : Bool} (hlong : 12 ≤ msg.length)
    (h : RepliesTo msg st.sent rcode aa false) (hrid : st.myrid < 65536) :
    sane { st with recvbuf := msg } = true := by
  have hid : hdrId msg = st.myrid := h.id.trans (toNat_ofNat16 hrid)
  simp only [sane, hid, h.qr, h.opcode, h.z, hlong]
  simp

/-- A query of one server that the other one answers over TCP, which it does whenever what it
found fits in a message. The reply is taken for the answer, and if it is one, the client goes
on with entries that hold just the records that were found. -/
theorem exchange_brings (hsrv : srv.Sound) (hname : name.Valid) (hqtype : st.qtype thint < 65536)
    (hrid : st.myrid < 65536)
    (hsize : (answerContents srv cfg queryts st.sent st.opt
      [st.question name thint] w).2.2.size ≤ 65535) :
    ∃ msg rcode w', processQuery srv cfg queryts (st.query udpbufsize name thint) none w =
        some (some (msg, rcode), none, w') ∧ msg.length ≤ 65535 ∧
      (rcode % 16 = rcOk ∨ rcode % 16 = rcNameerr → ∀ qcfg ns ts rid,
        ∃ st' flags aa first secs, SameServer st st' ∧
          processReply qcfg { st with recvbuf := msg } ns name thint ts rid =
            .returned (useSections qcfg st' ns name thint flags aa ts (rcode % 16) first secs) ∧
          Brings secs (answerContents srv cfg queryts st.sent st.opt
            [st.question name thint] w).2.2) := by
  have hql : ∀ q ∈ [st.question name thint], q.qname.Valid :=
    List.forall_mem_singleton.mpr hname
  obtain ⟨msg, rcode, w', hmake, hlen⟩ := makeAnswer_exists hsrv hql hsize
  obtain ⟨aa, hresult, -, hreply, hreads⟩ := makeAnswer_contents hsrv hql hmake hlen
  refine ⟨msg, rcode, w', processQuery_query hname hqtype hmake, hlen, fun hrcode => ?_⟩
  intro qcfg ns ts rid
  obtain ⟨pos, hquestion, hsections⟩ := hreads.sections (answerContents_questions hsrv hql)
  have hquestion : checkQuestion msg name (st.qtype thint) = some pos :=
    (toNat_ofNat16 hqtype) ▸ hquestion
  have hlong : 12 ≤ msg.length := by
    obtain ⟨h, rest, hmsg, -⟩ := makeAnswer_begins hmake
    rw [hmsg, List.length_append, length_headerBytes]
    exact Nat.le_add_right _ _
  have hjudge : judgeRcode { st with recvbuf := msg } rid = .use { st with recvbuf := msg } := by
    simp only [judgeRcode, hreply.rcode, if_pos hrcode]
  have hfirst := madeOf_initCent qcfg.sizes hname
    (hdrAa msg && st.failed == 0 && !hdrTc msg && st.qtype thint == qtAll)
  obtain ⟨secs, hread, hbrings, hopt⟩ := hsections qcfg.sizes
    { st.flags with auth := st.flags.auth || (hdrAa msg && st.failed == 0 && !hdrTc msg) } ts _
    hfirst
  have hedns : ∀ n, secs.edns = some n → n = hdrRcode msg := fun n hn => by
    obtain ⟨y, hy, heq⟩ := List.mem_map.mp (hopt n hn)
    rw [hreply.rcode]
    exact answerContents_opt hsrv hql hresult y (List.mem_of_mem_filter hy) n heq
  simp only [QueryStat.qtype] at hquestion hread
  simp only [processReply, if_pos (sane_of_reads hlong hreply hrid), hjudge, useReply,
    QueryStat.qtype, hquestion, hread]
  have hcode : secs.edns.getD (hdrRcode msg) = rcode % 16 := by
    cases hsome : secs.edns with
    | none => exact hreply.rcode
    | some n => exact (hedns n hsome).trans hreply.rcode
  simp only [hcode]
  refine ⟨_, _, _, _, secs, ?_, rfl, hbrings⟩
  exact ⟨rfl, rfl, rfl, rfl, rfl⟩

theorem exchange_brings_address :
    ∃ msg, processQuery oneAddress ⟨false, 1024⟩ 1060 (servedClient.query 1024 servedName 1)
      none () =
        some (some (msg, 0), none, ()) ∧
      ∀ qcfg ns ts rid, ∃ st' flags aa first secs, SameServer servedClient st' ∧
        processReply qcfg { servedClient with recvbuf := msg } ns servedName 1 ts rid =
          .returned (useSections qcfg st' ns servedName 1 flags aa ts 0 first secs) ∧
        Brings secs (answerContents oneAddress ⟨false, 1024⟩ 1060 servedClient.sent true
          [servedClient.question servedName 1] ()).2.2 := by
  have hrun : processQuery oneAddress ⟨false, 1024⟩ 1060 (servedClient.query 1024 servedName 1)
    none () =
      some (some ([18, 52, 129, 128, 0, 1, 0, 1, 0, 0, 0, 1, 1, 97, 0, 0, 1, 0, 1, 192, 12, 0, 1,
        0, 1, 0, 0, 0, 240, 0, 4, 127, 0, 0, 1, 0, 0, 41, 4, 0, 0, 0, 0, 0, 0,
          0], 0), none, ()) := by
    decide +kernel
  obtain ⟨msg, rcode, w', hrun', -, hbrings⟩ :=
    @exchange_brings Unit oneAddress ⟨false, 1024⟩ 1060 servedClient 1024 servedName 1 ()
      oneAddress_sound servedName_valid (by decide) (by decide) (by decide +kernel)
  obtain ⟨hmsg, -, -⟩ := Prod.mk.inj (Option.some.inj (hrun.symm.trans hrun'))
  obtain ⟨rfl, rfl⟩ := Prod.mk.inj (Option.some.inj hmsg)
  exact ⟨_, hrun, hbrings (.inl rfl)⟩

end Exchange

end TorAndroid.Dns
