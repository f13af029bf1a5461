import TorAndroid.Dns.ReplyRecords

namespace TorAndroid.Dns

open TorAndroid.Lib.DoublyLinked

/-- A name is a domain or in it, when the case of letters is ignored. -/
def Name.Within (n domain : Name) : Prop :=
  domain.fold <:+ n.fold

/-- The owners of the items of a list of name servers. -/
def nsOwners (ns : List NsItem) : List (Option Name) :=
  ns.foldl (fun owners item => owners ++ [item.owner.or owners.getLast?.join]) []

/-- A reply has one question, and it is the one that was asked. -/
def Answers (msg : List UInt8) (name : Name) (qtype : Nat) : Prop :=
  hdrQdcount msg = 1 ∧ ∃ n : Name, ∃ left, decompressName msg 12 (msg.length - 12) =
    .ok (n.wire, left) ∧
    n.fold = name.fold ∧ 4 ≤ left ∧ int16 msg (msg.length - left) = qtype

/-- Where the records of a message start, behind its questions. -/
def skipQuestions (msg : List UInt8) : Nat → Nat → Option Nat
  | 0, pos => some pos
  | n + 1, pos =>
      match decompressName msg pos (msg.length - pos) with
      | .error _ => none
      | .ok (_, left) => if left < 4 then none else skipQuestions msg n (msg.length - left + 4)

/-- The records in the three sections of a message. -/
def recordsOf (msg : List UInt8) : List RrHead :=
  (skipQuestions msg (hdrQdcount msg) 12).elim []
    (frames msg (hdrAncount msg + (hdrNscount msg + hdrArcount msg)))

/-- A message holds an `A` or `AAAA` record with an address of the list. -/
def RejectList.Matches (rl : RejectList) (msg : List UInt8) : Prop :=
  ∃ h ∈ recordsOf msg, h.cls = 1 ∧
    ((h.tp = 1 ∧ h.rdlength = 4 ∧ ∃ am ∈ rl.a4, am.equiv (copyBytes msg h.rdata 4)) ∨
      (h.tp = 28 ∧ h.rdlength = 16 ∧ ∃ am ∈ rl.a6, am.equiv (copyBytes msg h.rdata 16)))

theorem labelsLen_eq_zero {ls : List Label} (h : labelsLen ls = 0) : ls = [] := by
  cases ls with
  | nil => rfl
  | cons l ls =>
      rw [labelsLen_cons] at h
      omega

theorem domainMatch_eq_none {a b : Name} (h : ¬(a.labels.length ≤ 128 ∧ b.labels.length ≤ 128)) :
    domainMatch a.wire b.wire = none := by
  rw [domainMatch, collectLengths_wire, collectLengths_wire]
  simp only [List.length_map]
  rw [if_pos (by omega)]

/-- The test with `domain_match` that stands in `p_exec_query`. -/
theorem within_of_matchNames {n domain : Name} (h : (matchNames domain n).2.1 = 0) :
    n.Within domain := by
  by_cases hcount : domain.labels.length ≤ 128 ∧ n.labels.length ≤ 128
  · rw [matchNames, domainMatch_wire domain n hcount.1 hcount.2, Option.getD_some] at h
    exact (Name.offset_eq_zero_iff domain n).mp h
  · -- no match is reported, so that all of `domain` is left over
    rw [matchNames, domainMatch_eq_none hcount, Option.getD_none] at h
    rw [Name.Within, Name.fold, labelsLen_eq_zero h]
    exact List.nil_suffix

section Servers

variable {st : QueryStat} {ns : List NsItem}

@[simp]
theorem nsOwners_append_singleton (ns : List NsItem) (item : NsItem) :
    nsOwners (ns ++ [item]) = nsOwners ns ++ [item.owner.or (nsOwners ns).getLast?.join] := by
  simp [nsOwners]

theorem nsOwners_length (ns : List NsItem) : (nsOwners ns).length = ns.length := by
  induction ns using List.reverseRecOn with
  | nil => rfl
  | append_singleton ns item ih => simp [ih]

/-- A list of name servers got items whose owners pass the test. -/
structure Extends (st : QueryStat) (ns ns' : List NsItem) : Prop where
  kept : ns <+: ns'
  owners : ∃ more, nsOwners ns' = nsOwners ns ++ more ∧
    ∀ owner ∈ more, ∃ cent : Cent, st.accepts cent ∧ owner = some cent.qname

theorem Extends.refl (st : QueryStat) (ns : List NsItem) : Extends st ns ns :=
  ⟨List.prefix_refl _, [], by simp, by simp⟩

theorem Extends.trans {ns' ns'' : List NsItem} (h : Extends st ns ns') (h' : Extends st ns' ns'') :
    Extends st ns ns'' := by
  obtain ⟨more, howners, hmore⟩ := h.owners
  obtain ⟨more', howners', hmore'⟩ := h'.owners
  refine ⟨h.kept.trans h'.kept, more ++ more', by rw [howners', howners, List.append_assoc], ?_⟩
  intro owner hmem
  rcases List.mem_append.mp hmem with hmem | hmem
  · exact hmore owner hmem
  · exact hmore' owner hmem

/-- One item more, and the items of the record set that follow may refer to it. -/
theorem extends_addServer {cent : Cent} (hcent : st.accepts cent) {x : Bool × List NsItem}
    (hx : x.1 = false → (nsOwners x.2).getLast? = some (some cent.qname)) (data : List UInt8) :
    Extends st x.2 (addServer cent.qname x data).2 ∧
      ((addServer cent.qname x data).1 = false →
        (nsOwners (addServer cent.qname x data).2).getLast? = some (some cent.qname)) := by
  rw [addServer]
  by_cases hdup : x.2.any fun item => rhnicmp item.server data
  · rw [if_pos hdup]
    exact ⟨.refl st x.2, hx⟩
  · rw [if_neg hdup]
    have howner : (if x.1 then some cent.qname else none).or (nsOwners x.2).getLast?.join =
        some cent.qname := by
      cases hfirst : x.1 with
      | true => rfl
      | false => simp [hx hfirst]
    refine ⟨⟨List.prefix_append .., [some cent.qname], ?_, ?_⟩, fun _ => ?_⟩
    · rw [nsOwners_append_singleton, howner]
    · intro owner hmem
      exact ⟨cent, hcent, List.mem_singleton.mp hmem⟩
    · rw [nsOwners_append_singleton, howner, List.getLast?_append]
      rfl

theorem extends_addServers {cent : Cent} (hcent : st.accepts cent) (r : RrSet) :
    Extends st ns (addServers cent.qname ns r) := by
  suffices hgen : ∀ (rrs : List (List UInt8)) (x : Bool × List NsItem),
      (x.1 = false → (nsOwners x.2).getLast? = some (some cent.qname)) →
      Extends st x.2 (rrs.foldl (addServer cent.qname) x).2 by
    exact hgen r.rrs (true, ns) (by simp)
  intro rrs
  induction rrs with
  | nil => exact fun x _ => .refl st x.2
  | cons data rrs ih =>
      intro x hx
      obtain ⟨hstep, hx'⟩ := extends_addServer hcent hx data
      exact hstep.trans (ih _ hx')

theorem extends_addNsCent (cent : Cent) : Extends st ns (addNsCent st ns cent) := by
  rw [addNsCent]
  split_ifs with hcent
  · have hone : ∀ (ns : List NsItem) (i : Slot),
        Extends st ns ((cent.rrset i).elim ns (addServers cent.qname ns)) := by
      intro ns i
      cases cent.rrset i with
      | none => exact .refl st ns
      | some r => exact extends_addServers hcent.1 r
    exact (hone ns slotNS).trans (hone _ slotSOA)
  · exact .refl st ns

theorem extends_foldl (cents : List Cent) : Extends st ns (cents.foldl (addNsCent st) ns) := by
  induction cents generalizing ns with
  | nil => exact .refl st ns
  | cons cent cents ih => exact (extends_addNsCent cent).trans ih

end Servers

section Barrier

variable {st : QueryStat} {ns : List NsItem}

/-- An answer adds only what passes the test. -/
structure Barred (st : QueryStat) (ns : List NsItem) (a : Answer) : Prop where
  added : ∀ cent ∈ a.added, st.accepts cent
  servers : a.ns = [] ∨ Extends st ns a.ns

theorem barred_fail (st' : QueryStat) (rv : Nat) : Barred st ns (fail st' ns rv) :=
  ⟨by simp [fail], .inr (.refl st ns)⟩

theorem addAdditional_accepts {rejectAns negAns : Bool} {secs : Sections} :
    ∀ cent ∈ addAdditional st rejectAns negAns secs, st.accepts cent := by
  intro cent hmem
  rw [addAdditional] at hmem
  split at hmem
  · exact (List.mem_filter.mp hmem).2
  · cases hmem

theorem barred_cleanupReturnOk {ns' : List NsItem} (hns : Extends st ns ns')
    (rejectAns negAns : Bool) (numNs : Nat) (secs : Sections) (ent : Cent) :
    Barred st ns (cleanupReturnOk st ns' rejectAns negAns numNs secs ent) := by
  rw [cleanupReturnOk]
  split_ifs
  · exact ⟨by simp [fail], .inl rfl⟩
  · exact ⟨addAdditional_accepts, .inr hns⟩

theorem barred_nameErrorAnswer (cfg : QueryConfig) (name : Name) (queryts : Int) (rejectAns : Bool)
    (secs : Sections) (ent : Cent) :
    Barred st ns (nameErrorAnswer cfg st ns name queryts rejectAns secs ent) := by
  rw [nameErrorAnswer]
  cases nameErrorEntry cfg st name queryts secs.auth ent with
  | none => exact ⟨addAdditional_accepts, .inr (.refl st ns)⟩
  | some neg => exact barred_cleanupReturnOk (.refl st ns) ..

theorem barred_useSections (cfg : QueryConfig) (name : Name) (thint : Nat) (flags : CFlags)
    (aa : Bool) (queryts : Int) (rcode : Nat) (first : Cent) (secs : Sections) :
    Barred st ns (useSections cfg st ns name thint flags aa queryts rcode first secs) := by
  simp only [useSections]
  split_ifs
  all_goals
    first
    | exact barred_nameErrorAnswer ..
    | exact barred_fail ..
    | exact barred_cleanupReturnOk (extends_foldl _) ..
    | exact barred_cleanupReturnOk (.refl st ns) ..

/-- Nothing is added from a reply whose question is not the one that was asked. -/
theorem checkQuestion_answers {msg : List UInt8} {name : Name} {qtype pos : Nat}
    (h : checkQuestion msg name qtype = some pos) :
    Answers msg name qtype ∧ skipQuestions msg (hdrQdcount msg) 12 = some pos := by
  rw [checkQuestion] at h
  split_ifs at h with hcount
  cases hname : decompressName msg 12 (msg.length - 12) with
  | error e =>
      rw [hname] at h
      cases h
  | ok x =>
      obtain ⟨nbuf, left⟩ := x
      obtain ⟨n, -, rfl⟩ := decompressName_valid hname
      simp only [hname] at h
      split_ifs at h with hcmp hleft htype
      have hone : hdrQdcount msg = 1 := by simpa using hcount
      refine ⟨⟨hone, n, left, hname, ?_, by omega, by simpa using htype⟩, ?_⟩
      · exact (rhnicmp_wire n name).mp (by simpa using hcmp)
      · rw [hone, skipQuestions, hname]
        simp only [hleft, if_false]
        exact h

/-- The same server, as far as the test and the question go. -/
structure SameServer (st st' : QueryStat) : Prop where
  authServ : st'.authServ = st.authServ
  trusted : st'.trusted = st.trusted
  nsdomain : st'.nsdomain = st.nsdomain
  rejectlist : st'.rejectlist = st.rejectlist
  leanQuery : st'.leanQuery = st.leanQuery

theorem SameServer.refl (st : QueryStat) : SameServer st st :=
  ⟨rfl, rfl, rfl, rfl, rfl⟩

theorem SameServer.trans {st' st'' : QueryStat} (h : SameServer st st') (h' : SameServer st' st'') :
    SameServer st st'' :=
  ⟨h'.authServ.trans h.authServ, h'.trusted.trans h.trusted, h'.nsdomain.trans h.nsdomain,
    h'.rejectlist.trans h.rejectlist, h'.leanQuery.trans h.leanQuery⟩

theorem SameServer.accepts {st' : QueryStat} (h : SameServer st st') :
    st'.accepts = st.accepts := by
  funext cent
  simp only [QueryStat.accepts, h.authServ, h.trusted, h.nsdomain]

theorem SameServer.qtype {st' : QueryStat} (h : SameServer st st') (thint : Nat) :
    st'.qtype thint = st.qtype thint := by
  simp only [QueryStat.qtype, h.leanQuery]

theorem Barred.of_same {st' : QueryStat} (h : SameServer st st') {a : Answer}
    (hbarred : Barred st' ns a) : Barred st ns a := by
  refine ⟨h.accepts ▸ hbarred.added, hbarred.servers.imp_right fun hns => ⟨hns.kept, ?_⟩⟩
  exact h.accepts ▸ hns.owners

/-- What can come of a reply that is used: an error, or an answer made of its
sections. -/
inductive Used (cfg : QueryConfig) (st : QueryStat) (ns : List NsItem) (name : Name) (thint : Nat)
    (queryts : Int) : Answer → Prop
  | failed {st' : QueryStat} {rv : Nat} (hst : SameServer st st')
      (hbuf : st'.recvbuf = st.recvbuf) (hrv : rv ≠ rcOk) :
      Used cfg st ns name thint queryts (fail st' ns rv)
  | sections {st' : QueryStat} {pos rcode : Nat} {flags : CFlags} {aa : Bool} {first : Cent}
      {secs : Sections} {rv : Except NameError Nat} (hst : SameServer st st')
      (hbuf : st'.recvbuf = st.recvbuf)
      (hquestion : checkQuestion st.recvbuf name (st.qtype thint) = some pos)
      (hfirst : first.Gathering)
      (hread : readSections cfg.sizes st.recvbuf pos flags queryts first = (secs, rv))
      (hrv : rv ≠ .error .format) :
      Used cfg st ns name thint queryts
        (useSections cfg st' ns name thint flags aa queryts rcode first secs)

theorem useReply_used (cfg : QueryConfig) (st : QueryStat) (ns : List NsItem) (name : Name)
    (thint : Nat) (queryts : Int) :
    Used cfg st ns name thint queryts (useReply cfg st ns name thint queryts) := by
  rw [useReply]
  cases hquestion : checkQuestion st.recvbuf name (st.qtype thint) with
  | none => exact .failed (.refl st) rfl (by decide)
  | some pos =>
      simp only
      rcases hread : readSections cfg.sizes st.recvbuf pos _ queryts _ with ⟨secs, e | pos'⟩
      · cases e with
        | format => exact .failed ⟨rfl, rfl, rfl, rfl, rfl⟩ rfl (by decide)
        | trunc =>
            simp only
            by_cases htc : hdrTc st.recvbuf = true
            · rw [if_pos htc]
              exact .sections ⟨rfl, rfl, rfl, rfl, rfl⟩ rfl hquestion (gathering_initCent ..) hread
                (by simp)
            · rw [if_neg htc]
              exact .failed ⟨rfl, rfl, rfl, rfl, rfl⟩ rfl (by decide)
      · exact .sections ⟨rfl, rfl, rfl, rfl, rfl⟩ rfl hquestion (gathering_initCent ..) hread
          (by simp)

theorem judgeRcode_same (st : QueryStat) (rid : Nat) :
    match judgeRcode st rid with
    | .use st' => SameServer st st' ∧ st'.recvbuf = st.recvbuf
    | .requery st' => SameServer st st'
    | .discard => hdrRcode st.recvbuf ≠ rcOk := by
  simp only [judgeRcode]
  split_ifs
  all_goals
    first
    | exact ⟨⟨rfl, rfl, rfl, rfl, rfl⟩, rfl⟩
    | exact ⟨rfl, rfl, rfl, rfl, rfl⟩
    | exact fun h => by simp_all

theorem processReply_tryagain {cfg : QueryConfig} {name : Name} {thint rid : Nat} {queryts : Int}
    {st' : QueryStat} (h : processReply cfg st ns name thint queryts rid = .tryagain st') :
    SameServer st st' := by
  have hjudge := judgeRcode_same st rid
  rw [processReply] at h
  split_ifs at h
  cases hverdict : judgeRcode st rid with
  | use st'' => simp [hverdict] at h
  | discard => simp [hverdict] at h
  | requery st'' =>
      simp only [hverdict, Turn.tryagain.injEq] at h hjudge
      exact h ▸ hjudge

theorem processReply_returned {cfg : QueryConfig} {name : Name} {thint rid : Nat} {queryts : Int}
    {answer : Answer} (h : processReply cfg st ns name thint queryts rid = .returned answer) :
    ∃ st', SameServer st st' ∧ Used cfg st' ns name thint queryts answer := by
  have hjudge := judgeRcode_same st rid
  rw [processReply] at h
  split_ifs at h
  · cases hverdict : judgeRcode st rid with
    | requery st' => simp [hverdict] at h
    | use st' =>
        simp only [hverdict, Turn.returned.injEq] at h hjudge
        exact ⟨st', hjudge.1, h ▸ useReply_used cfg st' ns name thint queryts⟩
    | discard =>
        simp only [hverdict, Turn.returned.injEq] at h hjudge
        exact ⟨st, .refl st, h ▸ .failed (.refl st) rfl hjudge⟩
  · rw [Turn.returned.injEq] at h
    exact ⟨st, .refl st, h ▸ .failed (.refl st) rfl (by decide)⟩

/-- What can come of a query: the last reply is used, or there is none. -/
theorem pExecQuery_used {cfg : QueryConfig} {name : Name} {thint : Nat} {attempts : List Attempt}
    {answer : Answer} (h : pExecQuery cfg ns name thint st attempts = some answer) :
    ∃ st', SameServer st st' ∧ ((∃ queryts, Used cfg st' ns name thint queryts answer) ∨
      ∃ rv, answer = fail { st' with recvbuf := [] } ns rv) := by
  induction attempts generalizing st with
  | nil => cases h
  | cons attempt attempts ih =>
      rw [pExecQuery] at h
      cases hsm : attempt.sm with
      | failed rv =>
          simp only [hsm] at h
          exact ⟨st, .refl st, .inr ⟨rv, (Option.some.inj h).symm⟩⟩
      | received recvbuf =>
          simp only [hsm] at h
          have hbuf : SameServer st { st with recvbuf := recvbuf } := ⟨rfl, rfl, rfl, rfl, rfl⟩
          cases hturn : processReply cfg { st with recvbuf := recvbuf }
              ns name thint attempt.queryts
              attempt.rid with
          | tryagain st' =>
              rw [hturn] at h
              obtain ⟨st'', hst, hused⟩ := ih h
              exact ⟨st'', (hbuf.trans (processReply_tryagain hturn)).trans hst, hused⟩
          | returned a =>
              rw [hturn] at h
              obtain rfl : a = answer := Option.some.inj h
              obtain ⟨st', hst, hused⟩ := processReply_returned hturn
              exact ⟨st', hbuf.trans hst, .inl ⟨attempt.queryts, hused⟩⟩

end Barrier

section Rejecting

variable {st : QueryStat} {ns : List NsItem} {rl : RejectList}

theorem refAuth_arm (authServ : Nat) (cent ce : Cent) :
    (refAuth authServ cent ce).arm = cent.arm := by
  simp only [refAuth]
  split_ifs <;> rfl

theorem refCent_arm (authServ qtype n : Nat) (auth : List Cent) (cent : Cent) :
    (refCent authServ qtype n auth cent).arm = cent.arm := by
  have hfold : ∀ c : Cent, (auth.foldl (refAuth authServ) c).arm = c.arm := by
    induction auth with
    | nil => exact fun _ => rfl
    | cons ce auth ih => exact fun c => (ih _).trans (refAuth_arm authServ c ce)
  simp only [refCent]
  by_cases hauth : (251 ≤ qtype ∧ qtype ≤ 255) ∨
      (Cent.getrrset { cent with
        cNs := if (cent.rrset slotNS).isSome then UInt8.ofNat cent.qname.labels.length else cent.cNs
        cSoa := if (cent.rrset slotSOA).isSome then UInt8.ofNat cent.qname.labels.length
          else cent.cSoa } qtype).isSome ∨ (n = 1 ∧ cent.numRrs = 0)
  · rw [if_pos hauth, hfold]
  · rw [if_neg hauth]

theorem rejects_of_arm {c d : Cent} (h : c.arm = d.arm) : rl.rejects c = rl.rejects d := by
  have hrrset : c.rrset = d.rrset := by
    funext i
    simp only [Cent.rrset, h]
  simp only [RejectList.rejects, Cent.getrrset, hrrset]

theorem unlisted_of_arm {c d : Cent} (h : c.arm = d.arm) (hd : d.Unlisted) : c.Unlisted := by
  intro o
  have := hd o
  cases o with
  | none => simpa only [Cent.lentOf, h] using this
  | some i => simpa only [Cent.lentOf, Cent.rrset, h] using this

theorem build_negate_negative (sz : Sizes) {c : Cent} (h : c.Unlisted) (ttl ts : Int) :
    (c.build sz (.negate ttl ts)).negative = true := by
  obtain ⟨d, hrun, -⟩ := BuildOp.run_spec sz h (.negate ttl ts)
  have hd : c.build sz (.negate ttl ts) = d := by simp [Cent.build, hrun]
  rw [hd]
  have hneg : negateCent sz DList.empty c ttl ts = some (DList.empty, d) := hrun DList.empty
  obtain ⟨qname, cs, numRrs, dflags, arm, cNs, cSoa⟩ := c
  cases arm with
  | neg lent ttl' ts' =>
      simp only [negateCent, Option.some.injEq, Prod.mk.injEq, true_and] at hneg
      rw [← hneg]
      rfl
  | rr a =>
      simp only [negateCent, bind, Option.bind_eq_some_iff, Option.some.injEq,
        Prod.mk.injEq] at hneg
      obtain ⟨x, -, -, hx⟩ := hneg
      rw [← hx]
      rfl

/-- The answer to a reply with an address of the reject list. -/
def Answer.Rejected (a : Answer) : Prop :=
  a.added = [] ∧ (a.rv ≠ rcOk ∨ ∃ ent, a.ent = some ent ∧ ent.negative = true)

theorem rejected_fail {rv : Nat} (h : rv ≠ rcOk) : (fail st ns rv).Rejected :=
  ⟨rfl, .inl h⟩

theorem addAdditional_rejected (negAns : Bool) (secs : Sections) :
    addAdditional st true negAns secs = [] := by
  simp [addAdditional]

theorem rejected_nameErrorAnswer (cfg : QueryConfig) (name : Name) (queryts : Int)
    (secs : Sections) {ent : Cent} (hent : ent.Unlisted) :
    (nameErrorAnswer cfg st ns name queryts true secs ent).Rejected := by
  rw [nameErrorAnswer]
  cases hneg : nameErrorEntry cfg st name queryts secs.auth ent with
  | none => exact ⟨addAdditional_rejected _ _, .inl (Nat.succ_ne_zero _)⟩
  | some neg =>
      simp only [cleanupReturnOk]
      split_ifs
      · exact rejected_fail (by decide)
      · refine ⟨addAdditional_rejected _ _, .inr ⟨neg, rfl, ?_⟩⟩
        simp only [nameErrorEntry] at hneg
        split_ifs at hneg
        all_goals
          obtain rfl := Option.some.inj hneg
          exact build_negate_negative cfg.sizes hent _ _

theorem rejected_useSections (cfg : QueryConfig) (name : Name) (thint : Nat) (flags : CFlags)
    (aa : Bool) (queryts : Int) (rcode : Nat) {first : Cent} {secs : Sections}
    (hfirst : first.Unlisted) (hsecs : ∀ c ∈ secs.all, c.Gathering)
    (hrl : st.rejectlist = some rl) (hrejects : ∃ c ∈ secs.all, rl.rejects c = true) :
    (useSections cfg st ns name thint flags aa queryts rcode first secs).Rejected := by
  obtain ⟨c, hc, hrejects⟩ := hrejects
  simp only [useSections]
  generalize hans : secs.ans.map
    (refCent st.authServ (st.qtype thint) secs.ans.length secs.auth) = ans
  have hscan : (st.rejectlist.any fun rl =>
      (Sections.all { secs with ans := ans }).any rl.rejects) = true := by
    simp only [Sections.all, List.mem_append] at hc
    simp only [hrl, Option.any_some, Sections.all, List.any_eq_true, List.mem_append]
    rcases hc with (hc | hc) | hc
    · refine ⟨_, .inl (.inl (hans ▸ List.mem_map_of_mem hc)), ?_⟩
      rw [rejects_of_arm (refCent_arm ..)]
      exact hrejects
    · exact ⟨c, .inl (.inr hc), hrejects⟩
    · exact ⟨c, .inr hc, hrejects⟩
  have hent : (Sections.ent { secs with ans := ans } first).Unlisted := by
    rw [Sections.ent, ← hans]
    cases hfst : secs.ans with
    | nil => exact hfirst
    | cons d _ =>
        exact unlisted_of_arm (refCent_arm ..) (hsecs d (by simp [Sections.all, hfst])).unlisted
  rw [hscan]
  by_cases hname : rcode = rcNameerr
  · rw [if_pos hname]
    exact rejected_nameErrorAnswer cfg name queryts _ hent
  · rw [if_neg hname, if_pos rfl]
    by_cases hpolicy : (st.rejectlist.any fun rl => rl.policy = .negate) ∧ st.failed ≤ 1
    · rw [if_pos hpolicy]
      exact rejected_nameErrorAnswer cfg name queryts _ hent
    · rw [if_neg hpolicy]
      exact rejected_fail (by decide)

theorem stores_address (msg : List UInt8) {h : RrHead} (hcls : h.cls = 1)
    (htp : (h.tp = 1 ∧ h.rdlength = 4) ∨ (h.tp = 28 ∧ h.rdlength = 16)) :
    ∃ i, h.Stores msg i (copyBytes msg h.rdata h.rdlength) := by
  rcases htp with ⟨htp, hlen⟩ | ⟨htp, hlen⟩
  · refine ⟨⟨0, by decide⟩, by omega, by rw [htp]; rfl, hcls, ?_⟩
    rw [htp, hlen]
    rfl
  · refine ⟨⟨7, by decide⟩, by omega, by rw [htp]; rfl, hcls, ?_⟩
    rw [htp, hlen]
    rfl

theorem rejects_of_stored {h : RrHead} {c : Cent} {i : Slot}
    {data : List UInt8} (hslot : slotOf h.tp = some i) (hholds : c.Holds i data)
    (hmatch : (h.tp = 1 ∧ ∃ am ∈ rl.a4, am.equiv data = true) ∨
      (h.tp = 28 ∧ ∃ am ∈ rl.a6, am.equiv data = true)) : rl.rejects c = true := by
  obtain ⟨r, hr, hdata⟩ := hholds
  have hget : c.getrrset h.tp = some r := by rw [Cent.getrrset, hslot, Option.bind_some, hr]
  rw [RejectList.rejects, Bool.or_eq_true]
  rcases hmatch with ⟨htp, am, ham, hequiv⟩ | ⟨htp, am, ham, hequiv⟩
  · left
    rw [← htp, hget, Option.any_some, List.any_eq_true]
    exact ⟨data, hdata, List.any_eq_true.mpr ⟨am, ham, hequiv⟩⟩
  · right
    rw [← htp, hget, Option.any_some, List.any_eq_true]
    exact ⟨data, hdata, List.any_eq_true.mpr ⟨am, ham, hequiv⟩⟩

end Rejecting

theorem useSections_st (cfg : QueryConfig) (st : QueryStat) (ns : List NsItem) (name : Name)
    (thint : Nat) (flags : CFlags) (aa : Bool) (queryts : Int) (rcode : Nat) (first : Cent)
    (secs : Sections) :
    (useSections cfg st ns name thint flags aa queryts rcode first secs).st = st := by
  have hok : ∀ ns rejectAns negAns numNs secs ent,
      (cleanupReturnOk st ns rejectAns negAns numNs secs ent).st = st := by
    intro ns rejectAns negAns numNs secs ent
    rw [cleanupReturnOk]
    split_ifs <;> rfl
  have herror : ∀ rejectAns secs ent,
      (nameErrorAnswer cfg st ns name queryts rejectAns secs ent).st = st := by
    intro rejectAns secs ent
    rw [nameErrorAnswer]
    cases nameErrorEntry cfg st name queryts secs.auth ent with
    | none => rfl
    | some neg => exact hok ..
  simp only [useSections]
  split_ifs
  all_goals
    first
    | exact herror ..
    | exact hok ..
    | rfl

theorem accepts_within {st : QueryStat} {cent : Cent} {nsdomain : Name} (h : st.accepts cent = true)
    (htrusted : st.trusted = false) (hdomain : st.nsdomain = some nsdomain) :
    cent.qname.Within nsdomain ∧ (st.authServ = 2 → cent.qname.labels ≠ []) := by
  simp only [QueryStat.accepts, htrusted, hdomain, Option.all_some, Bool.false_or, Bool.and_eq_true,
    Bool.or_eq_true, beq_iff_eq] at h
  refine ⟨within_of_matchNames h.2, fun hauth hroot => ?_⟩
  rcases h.1 with hlabels | hother
  · simp [hroot] at hlabels
  · simp [hauth] at hother

/-- A reply that is used adds nothing, or only what passes the test, and then its question
is the one that was asked. -/
theorem Used.barred {cfg : QueryConfig} {st : QueryStat} {ns : List NsItem} {name : Name}
    {thint : Nat} {queryts : Int} {answer : Answer} (h : Used cfg st ns name thint queryts answer) :
    (answer.added = [] ∧ answer.ns = ns) ∨
      (Barred st ns answer ∧ Answers answer.st.recvbuf name (st.qtype thint)) := by
  cases h with
  | failed => exact .inl ⟨rfl, rfl⟩
  | sections hst hbuf hquestion =>
      refine .inr ⟨(barred_useSections ..).of_same hst, ?_⟩
      rw [useSections_st, hbuf]
      exact (checkQuestion_answers hquestion).1

theorem Used.rejected {cfg : QueryConfig} {st : QueryStat} {ns : List NsItem} {name : Name}
    {thint : Nat} {queryts : Int} {answer : Answer} (h : Used cfg st ns name thint queryts answer)
    {rl : RejectList} (hrl : st.rejectlist = some rl) (hmatch : rl.Matches answer.st.recvbuf) :
    answer.Rejected := by
  cases h with
  | failed _ _ hrv => exact rejected_fail hrv
  | @sections st' pos rcode flags aa first secs rv hst hbuf hquestion hfirst hread hrv =>
      rw [useSections_st, hbuf] at hmatch
      obtain ⟨hd, hmem, hcls, hmatch⟩ := hmatch
      rw [recordsOf, (checkQuestion_answers hquestion).2] at hmem
      obtain ⟨i, hstores⟩ := stores_address st.recvbuf hcls
        (hmatch.imp (fun h => ⟨h.1, h.2.1⟩) fun h => ⟨h.1, h.2.1⟩)
      have hgather := readSections_gathering cfg.sizes st.recvbuf pos flags queryts hfirst
      have hstored := readSections_stored hfirst (by rw [hread]; exact hrv) hmem hstores
      rw [hread] at hgather hstored
      obtain ⟨c, hc, hholds⟩ := hstored
      refine rejected_useSections cfg name thint flags aa queryts rcode hfirst.unlisted hgather
        (hst.rejectlist.trans hrl) ⟨c, hc, rejects_of_stored hstores.slot hholds ?_⟩
      rcases hmatch with ⟨htp, hlen, ham⟩ | ⟨htp, hlen, ham⟩
      · exact .inl ⟨htp, by rw [hlen]; exact ham⟩
      · exact .inr ⟨htp, by rw [hlen]; exact ham⟩

theorem not_matches_nil (rl : RejectList) : ¬rl.Matches [] := by
  have hzero : ∀ p, int16 [] p = 0 := by simp [int16, byteAt]
  have hnone : recordsOf [] = [] := by
    simp [recordsOf, hdrQdcount, hdrAncount, hdrNscount, hdrArcount, hzero, skipQuestions, frames]
  rintro ⟨h, hmem, -⟩
  rw [hnone] at hmem
  cases hmem

/-- The barrier against poisoned replies.  A server that is not trusted adds to the cache
and to the list of name servers only names of its own domain, only from a reply to the
question that was asked, and never the root domain if it is not from the configuration;
a reply with an address of the reject list adds nothing and is no positive answer. -/
theorem pExecQuery_barrier (cfg : QueryConfig) (st : QueryStat) (rid : Nat) (ns : List NsItem)
    (name : Name) (thint : Nat) (attempts : List Attempt) (answer : Answer)
    (h : pExecQuery cfg ns name thint (st.initial rid) attempts = some answer) :
    (∀ nsdomain, st.trusted = false → st.nsdomain = some nsdomain →
      (∀ cent ∈ answer.added, cent.qname.Within nsdomain ∧
        (st.authServ = 2 → cent.qname.labels ≠ []) ∧
        Answers answer.st.recvbuf name (st.qtype thint)) ∧
      (answer.ns = [] ∨ ns <+: answer.ns) ∧
      ∀ owner ∈ (nsOwners answer.ns).drop ns.length, ∃ n : Name, owner = some n ∧
        n.Within nsdomain ∧ (st.authServ = 2 → n.labels ≠ []) ∧
        Answers answer.st.recvbuf name (st.qtype thint)) ∧
    ∀ rl, st.rejectlist = some rl → rl.Matches answer.st.recvbuf → answer.added = [] ∧
      (answer.rv ≠ rcOk ∨ ∃ ent, answer.ent = some ent ∧ ent.negative = true) := by
  have hinitial : SameServer st (st.initial rid) := ⟨rfl, rfl, rfl, rfl, rfl⟩
  obtain ⟨st', hst', hused⟩ := pExecQuery_used h
  have hst := hinitial.trans hst'
  constructor
  · intro nsdomain htrusted hdomain
    have hwithin : ∀ cent : Cent, st'.accepts cent = true → cent.qname.Within nsdomain ∧
        (st.authServ = 2 → cent.qname.labels ≠ []) := by
      intro cent hcent
      exact accepts_within (hst.accepts ▸ hcent) htrusted hdomain
    have hcases : (answer.added = [] ∧ answer.ns = ns) ∨
        (Barred st' ns answer ∧ Answers answer.st.recvbuf name (st.qtype thint)) := by
      rcases hused with ⟨queryts, hused⟩ | ⟨rv, rfl⟩
      · exact hst.qtype thint ▸ hused.barred
      · exact .inl ⟨rfl, rfl⟩
    rcases hcases with ⟨hadded, hns⟩ | ⟨hbarred, hanswers⟩
    · rw [hadded, hns]
      refine ⟨by simp, .inr (List.prefix_refl _), fun owner hmem => ?_⟩
      rw [List.drop_of_length_le (nsOwners_length ns).le] at hmem
      cases hmem
    · refine ⟨fun cent hmem => ?_, hbarred.servers.imp_right Extends.kept, fun owner hmem => ?_⟩
      · obtain ⟨hin, hroot⟩ := hwithin cent (hbarred.added cent hmem)
        exact ⟨hin, hroot, hanswers⟩
      · rcases hbarred.servers with hns | hns
        · rw [hns] at hmem
          cases (List.mem_of_mem_drop hmem)
        · obtain ⟨more, howners, hmore⟩ := hns.owners
          rw [howners, ← nsOwners_length, List.drop_left] at hmem
          obtain ⟨cent, hcent, rfl⟩ := hmore owner hmem
          obtain ⟨hin, hroot⟩ := hwithin cent hcent
          exact ⟨cent.qname, rfl, hin, hroot, hanswers⟩
  · intro rl hrl hmatch
    rcases hused with ⟨queryts, hused⟩ | ⟨rv, rfl⟩
    · exact hused.rejected (hst.rejectlist.trans hrl) hmatch
    · exact (not_matches_nil rl hmatch).elim

/-- A server that is only asked about its own domain. -/
def ownDomainServer : QueryStat where
  flags := ⟨false, false, false, false, false, false, false⟩
  nocache := false
  authServ := 2
  leanQuery := true
  ednsQuery := false
  trusted := false
  aa := false
  tc := false
  ra := false
  failed := 0
  nsdomain := some exampleName
  rejectlist := none
  myrid := 0
  rd := false
  opt := false
  recvbuf := []

def cachingConfig : QueryConfig where
  sizes := exampleConfig.sizes
  negDomainPol := .on
  negRrsPol := .off
  negTtl := 900
  delegOnlyZones := []

/-- A reply with an address of the name that was asked in its additional section. -/
def ownDomainReply : List UInt8 :=
  [0, 0, 0x80, 0, 0, 1, 0, 0, 0, 0, 0, 1] ++ exampleName.wire ++ [0, 1, 0, 1] ++
    [0xc0, 0x0c, 0, 1, 0, 1, 0, 0, 0, 60, 0, 4, 10, 0, 0, 1]

theorem pExecQuery_barrier_ownDomain :
    ∃ answer, pExecQuery cachingConfig [] exampleName 1 (ownDomainServer.initial 0)
        [⟨.received ownDomainReply, 0, 0⟩] = some answer ∧ answer.added.length = 1 ∧
      ∀ cent ∈ answer.added, cent.qname.Within exampleName := by
  have hadds : (pExecQuery cachingConfig [] exampleName 1 (ownDomainServer.initial 0)
      [⟨.received ownDomainReply, 0, 0⟩]).map (fun answer => answer.added.length) = some 1 := by
    decide +kernel
  obtain ⟨answer, hanswer, hlen⟩ := Option.map_eq_some_iff.mp hadds
  refine ⟨answer, hanswer, hlen, fun cent hmem => ?_⟩
  have h := pExecQuery_barrier cachingConfig ownDomainServer 0 [] exampleName 1 _ answer hanswer
  exact ((h.1 exampleName rfl rfl).1 cent hmem).1

end TorAndroid.Dns
