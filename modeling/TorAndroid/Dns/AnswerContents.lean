import TorAndroid.Dns.ComposeAnswer
import TorAndroid.Dns.RecordRoundTrip

namespace TorAndroid.Dns

open TorAndroid.Lib.Interaction

/-- The resolver, the cache and the random numbers, which have a state of their own. -/
structure Services (σ : Type) where
  resolve : Name → Nat → σ → Except (Nat × UInt8) Cent × σ
  lookup : Name → σ → Option Cent × σ
  localOwner : Name → Nat → σ → Option Name × σ
  random : σ → Nat × σ

/-- The message that is made, with its number of questions. -/
structure Making (σ : Type) where
  world : σ
  qdcount : Nat
  ans : Response

/-- What was put into a message, in the order in which it was. -/
structure Contents where
  questions : List Question
  kept : List (RrSection × Item)

section Operations

variable {σ : Type} (srv : Services σ)

/-- The operations on the message. It gets stuck where an assertion fails. `udp` is the limit
of a datagram. -/
def makeOp (udpbufsize : Nat) (udp : Option Nat) :
    {β : Type} → AnswerOp β → Making σ → Option (β × Making σ)
  | _, .resolve qname qtype, s =>
      some ((srv.resolve qname qtype s.world).1,
        { s with world := (srv.resolve qname qtype s.world).2 })
  | _, .lookup name, s =>
      some ((srv.lookup name s.world).1, { s with world := (srv.lookup name s.world).2 })
  | _, .localOwner name tp, s =>
      some ((srv.localOwner name tp s.world).1,
        { s with world := (srv.localOwner name tp s.world).2 })
  | _, .random, s => some ((srv.random s.world).1, { s with world := (srv.random s.world).2 })
  | _, .question q, s =>
      (addQuestion s.ans q).map fun ans =>
        ((), { s with qdcount := (s.qdcount + 1) % 65536, ans := ans })
  | _, .rr sect r, s => (addRr udp s.ans sect r).map fun ans => ((), { s with ans := ans })
  | _, .opt rcode, s => some ((), { s with ans := addOptPseudoRr s.ans udpbufsize rcode 0 0 })
  | _, .room, s =>
      some (!(udp.any fun limit => limit < s.ans.bytes.length + sizeofOptPseudoRr), s)

/-- The operations on the lists. There is always room. -/
def noteOp : {β : Type} → AnswerOp β → σ × Contents → β × (σ × Contents)
  | _, .resolve qname qtype, t =>
      ((srv.resolve qname qtype t.1).1, (srv.resolve qname qtype t.1).2, t.2)
  | _, .lookup name, t => ((srv.lookup name t.1).1, (srv.lookup name t.1).2, t.2)
  | _, .localOwner name tp, t =>
      ((srv.localOwner name tp t.1).1, (srv.localOwner name tp t.1).2, t.2)
  | _, .random, t => ((srv.random t.1).1, (srv.random t.1).2, t.2)
  | _, .question q, t => ((), t.1, { t.2 with questions := t.2.questions ++ [q] })
  | _, .rr sect r, t => ((), t.1, { t.2 with kept := t.2.kept ++ [(sect, .rr r)] })
  | _, .opt rcode, t => ((), t.1, { t.2 with kept := t.2.kept ++ [(.additional, .opt rcode)] })
  | _, .room, t => (true, t)

end Operations

/-- What is compared of a question. -/
def Question.fold (q : Question) : List (List UInt8) × UInt16 × UInt16 :=
  (q.qname.fold, q.qtype, q.qclass)

/-- What is compared of an item. -/
def Item.fold : Item → Option (Nat ⊕ (List (List UInt8) × Nat × Nat × List UInt8))
  | .opt rcode => some (.inl rcode)
  | .rr r => some (.inr r.fold)
  | .ignored => none

def Contents.section (c : Contents) (s : RrSection) : List Item :=
  (c.kept.filter fun x => x.1 = s).map Prod.snd

/-- The items that stand at `p`, the case of the letters in names aside. -/
def ItemsAt (msg : List UInt8) (p next : Nat) (items : List Item) : Prop :=
  ∃ items', readItems msg items.length p = (items', .ok next) ∧
    items'.map Item.fold = items.map Item.fold

def QuestionsAt (msg : List UInt8) (p next : Nat) (qs : List Question) : Prop :=
  ∃ qs', readQuestions msg qs.length p = (qs', .ok next) ∧
    qs'.map Question.fold = qs.map Question.fold

/-- A message that is read as these contents: the numbers in its header are those of its
parts, and the parts stand behind each other up to its end. -/
structure ReadsAs (msg : List UInt8) (c : Contents) : Prop where
  qdcount : hdrQdcount msg = c.questions.length
  ancount : hdrAncount msg = (c.section .answer).length
  nscount : hdrNscount msg = (c.section .authority).length
  arcount : hdrArcount msg = (c.section .additional).length
  parts : ∃ p₁ p₂ p₃, QuestionsAt msg 12 p₁ c.questions ∧
    ItemsAt msg p₁ p₂ (c.section .answer) ∧ ItemsAt msg p₂ p₃ (c.section .authority) ∧
      ItemsAt msg p₃ msg.length (c.section .additional)

section Reading

variable {msg : List UInt8} {p mid next : Nat}

theorem readQuestions_add (m n p : Nat) :
    readQuestions msg (m + n) p =
      match (readQuestions msg m p).2 with
      | .ok p' => ((readQuestions msg m p).1 ++ (readQuestions msg n p').1,
          (readQuestions msg n p').2)
      | .error e => ((readQuestions msg m p).1, .error e) := by
  induction m generalizing p with
  | zero => simp [readQuestions]
  | succ m ih =>
      rw [Nat.add_right_comm, readQuestions, readQuestions]
      cases hname : decompressName msg p (msg.length - p) with
      | error e => rfl
      | ok x =>
          by_cases hleft : x.2 < 4
          · simp only [hleft, if_true]
          · simp only [hleft, if_false, ih]
            cases (readQuestions msg m (p + (msg.length - p - x.2) + 4)).2 <;> rfl

theorem QuestionsAt.concat {qs : List Question} {q : Question} (h : QuestionsAt msg p mid qs)
    (hq : QuestionsAt msg mid next [q]) : QuestionsAt msg p next (qs ++ [q]) := by
  obtain ⟨qs', hread, hfolds⟩ := h
  obtain ⟨qs'', hread', hfolds'⟩ := hq
  rw [List.length_singleton] at hread'
  refine ⟨qs' ++ qs'', ?_, by simp only [List.map_append, hfolds, hfolds']⟩
  rw [List.length_append, List.length_singleton, readQuestions_add, hread]
  simp only [hread']

theorem itemsAt_nil : ItemsAt msg p p [] := ⟨[], rfl, rfl⟩

theorem ItemsAt.append {as bs : List Item} (h : ItemsAt msg p mid as)
    (hbs : ItemsAt msg mid next bs) : ItemsAt msg p next (as ++ bs) := by
  obtain ⟨as', hread, hfolds⟩ := h
  obtain ⟨bs', hread', hfolds'⟩ := hbs
  refine ⟨as' ++ bs', ?_, by simp only [List.map_append, hfolds, hfolds']⟩
  rw [List.length_append, readItems_add, hread]
  simp only [hread']

theorem ItemsAt.split {as bs : List Item} (h : ItemsAt msg p next (as ++ bs)) :
    ∃ mid, ItemsAt msg p mid as ∧ ItemsAt msg mid next bs := by
  obtain ⟨items, hread, hfolds⟩ := h
  rw [List.length_append, readItems_add] at hread
  cases hrc : (readItems msg as.length p).2 with
  | error e =>
      rw [hrc] at hread
      have hend := congrArg Prod.snd hread
      cases hend
  | ok mid =>
      rw [hrc] at hread
      have hitems := (congrArg Prod.fst hread).symm
      have hend := congrArg Prod.snd hread
      simp only at hitems hend
      have hlen := length_of_readItems hrc
      rw [hitems, List.map_append, List.map_append] at hfolds
      obtain ⟨hfold, hfold'⟩ := List.append_inj hfolds (by simp only [List.length_map, hlen])
      exact ⟨mid, ⟨_, Prod.ext rfl hrc, hfold⟩, _, Prod.ext rfl hend, hfold'⟩

theorem itemsAt_record {r : Record} (hr : RecordAgain msg p next r)
    (hshort : r.data.length ≤ 65535) : ItemsAt msg p next [.rr r] := by
  obtain ⟨h, r', hhead, hnext, hitem, hfold⟩ := hr.fits hshort
  refine ⟨[.rr r'], ?_, by simp [Item.fold, hfold]⟩
  simp only [List.length_singleton, readItems, hhead, hitem, hnext]

end Reading

/-- A number of at most four bits for the return code needs no more than the header. -/
theorem readHead_opt {msg : List UInt8} {p udpsize rcode : Nat} (hrcode : rcode < 16)
    (hat : StandsAt msg p (optBytes udpsize rcode 0 0)) :
    readHead msg p = .ok ⟨⟨[]⟩, tOpt, udpsize % 65536, 0, 0, p + 11⟩ := by
  have hin := hat.length_le (by simp [optBytes])
  have hlen : (optBytes udpsize rcode 0 0).length = 11 := rfl
  rw [hlen] at hin
  obtain ⟨hfront, hrdlen⟩ := hat.append
  obtain ⟨hfront, hzflags⟩ := hfront.append
  obtain ⟨hfront, hflags⟩ := hfront.append
  obtain ⟨hfront, hcls⟩ := hfront.append
  obtain ⟨hname, htp⟩ := hfront.append
  obtain ⟨hhigh, hflags⟩ := hflags.cons
  obtain ⟨hver, -⟩ := hflags.cons
  have hroot : decompressName msg p (msg.length - p) = .ok ([0], msg.length - p - 1) :=
    decompressName_wire (n := ⟨[]⟩) hname ⟨by simp, by simp [Name.wire_nil]⟩
      (by rw [Name.wire_nil, List.length_singleton]; omega)
  have hrdlen' : int16 msg (p + 9) = 0 := int16_of_standsAt hrdlen
  have htp' : int16 msg (p + 1) = tOpt := int16_of_standsAt htp
  have hcls' : int16 msg (p + 3) = udpsize % 65536 := int16_of_standsAt hcls
  have hhigh' : byteAt msg (p + 5) = UInt8.ofNat (rcode / 16) := hhigh
  have hver' : byteAt msg (p + 6) = UInt8.ofNat 0 := hver
  have hzflags' : int16 msg (p + 7) = 0 := int16_of_standsAt hzflags
  have httl : int32 msg (p + 5) = 0 := by
    rw [int32, hzflags', int16, hhigh', hver', show rcode / 16 = 0 by omega]
    rfl
  rw [readHead]
  simp only [hroot, bind, Except.bind]
  rw [show p + (msg.length - p - (msg.length - p - 1)) = p + 1 by omega, if_neg (by omega),
    hrdlen', if_neg (by omega), htp', hcls', httl]
  rfl

theorem itemsAt_opt {msg : List UInt8} {p udpsize rcode : Nat} (hrcode : rcode < 16)
    (hhdr : hdrRcode msg = rcode) (hat : StandsAt msg p (optBytes udpsize rcode 0 0)) :
    ItemsAt msg p (p + sizeofOptPseudoRr) [.opt rcode] := by
  have hhead := readHead_opt hrcode hat
  have hitem : readItem msg ⟨⟨[]⟩, tOpt, udpsize % 65536, 0, 0, p + 11⟩ = some (.opt rcode) := by
    rw [readItem, if_pos (show tOpt = 41 from rfl), hhdr]
    simp
  refine ⟨[.opt rcode], ?_, rfl⟩
  simp only [List.length_singleton, readItems, hhead, hitem]
  rfl

section Steps

variable {ans ans' : Response} {sect : RrSection} {r : Record}

theorem addRr_bytes (h : addRr none ans sect r = some ans') :
    ∃ w rdata, ans'.bytes = ans.bytes ++ (w ++ rdata) ∧
      (fieldsOf r.tp = none → rdata = r.data) := by
  rw [addRr] at h
  obtain ⟨⟨nbuf, cb⟩, -, h⟩ := Option.bind_eq_some_iff.mp h
  obtain ⟨⟨rdata, cb'⟩, hput, h⟩ := Option.bind_eq_some_iff.mp h
  simp only [Option.any_none, Bool.false_and, Bool.false_eq_true, if_false, Option.some.injEq] at h
  refine ⟨nbuf ++ putHead r.tp r.ttl rdata.length, rdata, ?_, fun hnone => ?_⟩
  · rw [← h, Response.bytes_count]
    simp only [List.append_assoc]
  · rw [putRdata, hnone] at hput
    exact (congrArg Prod.fst (Option.some.inj hput)).symm

/-- In a message that is small enough for TCP no record is too long for its length field. -/
theorem short_of_addRr (h : addRr none ans sect r = some ans') (hdata : Producible r.tp r.data)
    (hlen : ans'.bytes.length ≤ 65535) : r.data.length ≤ 65535 := by
  obtain ⟨w, rdata, hbytes, hcopied⟩ := addRr_bytes h
  cases hfields : fieldsOf r.tp with
  | none =>
      rw [hbytes, hcopied hfields] at hlen
      simp only [List.length_append] at hlen
      omega
  | some fs =>
      obtain ⟨msg, p, n, hin, -, hread⟩ := hdata
      have hshort := (fields_of_readRdata hfields hin hread).2
      omega

/-- What holds of a message while it is made. Its contents are read from the questions on,
whatever the header will be. -/
structure Written (c : Contents) (ans : Response) (done : List (Nat × List UInt8))
    (w : List UInt8) : Prop where
  bytes : ∃ front, front.length = 12 ∧ ans.bytes = front ++ w
  sound : Sound ans.cb done ans.bytes.length
  stands : ∀ msg, StandsAt msg 12 w → ∀ x ∈ done, StandsAt msg x.1 x.2
  reads : ∀ msg, StandsAt msg 12 w → (∀ x ∈ c.kept, ∀ n, x.2 = .opt n → hdrRcode msg = n) →
    ∃ p, QuestionsAt msg 12 p c.questions ∧
      ItemsAt msg p ans.bytes.length (c.kept.map Prod.snd)
  sorted : c.kept.Pairwise fun x y => x.1.rank ≤ y.1.rank
  counts : ∀ s, ans.countOf s = (c.section s).length
  small : c.questions.length + c.kept.length ≤ ans.bytes.length

theorem section_concat (c : Contents) (x : RrSection × Item) (s : RrSection) :
    (Contents.section { c with kept := c.kept ++ [x] } s).length =
      if s = x.1 then (c.section s).length + 1 else (c.section s).length := by
  rw [Contents.section, Contents.section, List.length_map, List.length_map, List.filter_append,
    List.length_append]
  split_ifs with hs
  · simp [hs]
  · simp [Ne.symm hs]

theorem section_length_le (c : Contents) (s : RrSection) :
    (c.section s).length ≤ c.kept.length := by
  rw [Contents.section, List.length_map]
  exact List.length_filter_le _ _

variable {c : Contents} {done : List (Nat × List UInt8)} {w : List UInt8}

theorem Written.length (h : Written c ans done w) : ans.bytes.length = 12 + w.length := by
  obtain ⟨front, hfront, hbytes⟩ := h.bytes
  rw [hbytes, List.length_append, hfront]

/-- One more item at the end: its own bytes are read as it, and what was there before is read
as it was. -/
theorem Written.concat (h : Written c ans done w) {x : RrSection × Item} {w' : List UInt8}
    {done' : List (Nat × List UInt8)} (hbytes : ans'.bytes = ans.bytes ++ w') (hne : w' ≠ [])
    (hlen : ans'.bytes.length ≤ 65535) (hsound : Sound ans'.cb (done ++ done') ans'.bytes.length)
    (hcount : ∀ s, ans'.countOf s = (ans.count x.1).countOf s)
    (horder : ∀ y ∈ c.kept, y.1.rank ≤ x.1.rank)
    (hread : ∀ msg, (∀ y ∈ done, StandsAt msg y.1 y.2) → StandsAt msg ans.bytes.length w' →
      (∀ y ∈ done', StandsAt msg y.1 y.2) ∧ ((∀ n, x.2 = .opt n → hdrRcode msg = n) →
        ItemsAt msg ans.bytes.length ans'.bytes.length [x.2])) :
    Written { c with kept := c.kept ++ [x] } ans' (done ++ done') (w ++ w') := by
  have hpos : 0 < w'.length := List.length_pos_iff.mpr hne
  have hgrown : ans'.bytes.length = ans.bytes.length + w'.length := by
    rw [hbytes, List.length_append]
  have hsplit : ∀ {msg}, StandsAt msg 12 (w ++ w') →
      StandsAt msg 12 w ∧ StandsAt msg ans.bytes.length w' := by
    intro msg hat
    rw [h.length]
    exact hat.append
  constructor
  · obtain ⟨front, hfront, hold⟩ := h.bytes
    exact ⟨front, hfront, by rw [hbytes, hold, List.append_assoc]⟩
  · exact hsound
  · intro msg hat
    obtain ⟨hbefore, hnew⟩ := hsplit hat
    have hdone := h.stands msg hbefore
    exact List.forall_mem_append.mpr ⟨hdone, (hread msg hdone hnew).1⟩
  · intro msg hat hrcode
    obtain ⟨hbefore, hnew⟩ := hsplit hat
    rw [List.forall_mem_append] at hrcode
    obtain ⟨p, hquestions, hitems⟩ := h.reads msg hbefore hrcode.1
    refine ⟨p, hquestions, ?_⟩
    rw [List.map_append]
    exact hitems.append ((hread msg (h.stands msg hbefore) hnew).2
      (hrcode.2 x (List.mem_singleton.mpr rfl)))
  · rw [List.pairwise_append]
    exact ⟨h.sorted, List.pairwise_singleton _ _, fun y hy z hz =>
      List.mem_singleton.mp hz ▸ horder y hy⟩
  · intro s
    have hold := h.counts s
    have hsmall := h.small
    have hkept := section_length_le c s
    rw [hcount, countOf_count, section_concat, hold]
    split_ifs
    · rw [Nat.mod_eq_of_lt (by omega)]
    · rfl
  · have hsmall := h.small
    simp only [List.length_append, List.length_singleton]
    omega

theorem Written.addRr (h : Written c ans done w) (hr : r.Storable)
    (horder : ∀ y ∈ c.kept, y.1.rank ≤ sect.rank) (hadd : addRr none ans sect r = some ans')
    (hlen : ans'.bytes.length ≤ 65535) :
    ∃ done' w', Written { c with kept := c.kept ++ [(sect, .rr r)] } ans' done' w' := by
  obtain ⟨front, rdata, hgrow, -⟩ := addRr_bytes hadd
  have hbefore : ans.bytes.length ≤ ans'.bytes.length := by
    rw [hgrow, List.length_append]
    exact Nat.le_add_right _ _
  have hsize := hr.data.length_lt
  have howner := hr.owner.length_le
  obtain ⟨ans'', w', done', hadd', hbytes, hne, -, hsound, hread⟩ :=
    addRr_spec h.sound hr sect (by rw [Record.size]; omega)
  obtain rfl : ans' = ans'' := Option.some.inj (hadd.symm.trans hadd')
  refine ⟨_, _, h.concat (x := (sect, .rr r)) hbytes hne hlen hsound
    (countOf_addRr hadd) horder fun msg hdone hat => ?_⟩
  obtain ⟨hstands, hagain⟩ := hread msg hdone hat
  refine ⟨hstands, fun _ => ?_⟩
  rw [hbytes, List.length_append]
  exact itemsAt_record hagain (short_of_addRr hadd hr.data hlen)

theorem Written.addOpt (h : Written c ans done w) {udpsize rcode : Nat} (hrcode : rcode < 16)
    (hlen : ans.bytes.length + sizeofOptPseudoRr ≤ 65535) :
    ∃ done' w', Written { c with kept := c.kept ++ [(.additional, .opt rcode)] }
      (addOptPseudoRr ans udpsize rcode 0 0) done' w' := by
  have hopt : (optBytes udpsize rcode 0 0).length = sizeofOptPseudoRr := rfl
  have hbytes : (addOptPseudoRr ans udpsize rcode 0 0).bytes =
      ans.bytes ++ optBytes udpsize rcode 0 0 := rfl
  refine ⟨done ++ [], _, h.concat (x := (.additional, .opt rcode)) hbytes (by simp [optBytes])
    ?_ ?_ ?_ ?_ ?_⟩
  · rw [hbytes, List.length_append, hopt]
    exact hlen
  · rw [List.append_nil]
    exact h.sound.mono (by rw [hbytes, List.length_append]; omega)
  · intro s
    cases s <;> rfl
  · intro y _
    obtain ⟨s, i⟩ := y
    cases s <;> simp [RrSection.rank]
  · intro msg _ hat
    refine ⟨by simp, fun hsame => ?_⟩
    rw [hbytes, List.length_append, hopt]
    exact itemsAt_opt hrcode (hsame rcode rfl) hat

/-- The bytes of a question are those of its name, which may be compressed, and two numbers. -/
theorem readQuestions_one {msg : List UInt8} {p : Nat} {q : Question} {n : Name}
    {out : List UInt8} (hne : out ≠ [])
    (hname : decompressName msg p (msg.length - p) = .ok (n.wire, msg.length - p - out.length))
    (hat : StandsAt msg p (out ++ putInt16 q.qtype.toNat ++ putInt16 q.qclass.toNat)) :
    readQuestions msg 1 p = ([⟨n, q.qtype, q.qclass⟩], .ok (p + (out.length + 4))) := by
  have hin := hat.length_le (by simp [hne])
  obtain ⟨hfront, hclass⟩ := hat.append
  obtain ⟨-, htype⟩ := hfront.append
  have htype' := int16_of_standsAt htype
  have hclass' := int16_of_standsAt hclass
  simp only [List.length_append, putInt16, List.length_cons, List.length_nil] at hin hclass'
  rw [Nat.mod_eq_of_lt q.qtype.toNat_lt] at htype'
  rw [Nat.mod_eq_of_lt q.qclass.toNat_lt] at hclass'
  simp only [readQuestions, hname]
  rw [if_neg (by omega), show p + (msg.length - p - (msg.length - p - out.length)) =
    p + out.length by omega, htype', Nat.add_assoc p, hclass', Name.ofWire_wire,
    UInt16.ofNat_toNat, UInt16.ofNat_toNat, Nat.add_assoc]

theorem questionsAt_written {msg : List UInt8} {p : Nat} {q : Question} {n : Name}
    {out : List UInt8} (hne : out ≠ []) (hfold : n.fold = q.qname.fold)
    (hname : decompressName msg p (msg.length - p) = .ok (n.wire, msg.length - p - out.length))
    (hat : StandsAt msg p (out ++ putInt16 q.qtype.toNat ++ putInt16 q.qclass.toNat)) :
    QuestionsAt msg p (p + (out.length + 4)) [q] :=
  ⟨_, readQuestions_one hne hname hat, by simp [Question.fold, hfold]⟩

theorem Written.addQuestion (h : Written c ans done w) (hkept : c.kept = []) {q : Question}
    (hq : q.qname.Valid) (hadd : addQuestion ans q = some ans')
    (hlen : ans'.bytes.length ≤ 65535) :
    ∃ done' w', Written { c with questions := c.questions ++ [q] } ans' done' w' := by
  rw [Dns.addQuestion] at hadd
  obtain ⟨⟨out, cb⟩, hcompress, hadd⟩ := Option.bind_eq_some_iff.mp hadd
  have hgrow : ans' = { ans with
      bytes := ans.bytes ++ out ++ putInt16 q.qtype.toNat ++ putInt16 q.qclass.toNat
      cb := cb } := (Option.some.inj hadd).symm
  have hnumbers : (putInt16 q.qtype.toNat ++ putInt16 q.qclass.toNat).length = 4 := rfl
  have hnew : ans'.bytes = ans.bytes ++
      (out ++ putInt16 q.qtype.toNat ++ putInt16 q.qclass.toNat) := by
    rw [hgrow]
    simp only [List.append_assoc]
  have hsize : ans'.bytes.length = ans.bytes.length + (out.length + 4) := by
    rw [hnew, List.append_assoc, List.length_append, List.length_append, hnumbers]
  have hvalid := hq.length_le
  obtain ⟨out', cb', hcompress', hne, -, hsound, hname⟩ := h.sound.compress hq le_rfl (by omega)
  obtain ⟨rfl, rfl⟩ := Prod.mk.inj (Option.some.inj (hcompress.symm.trans hcompress'))
  have hsplit : ∀ {msg}, StandsAt msg 12
      (w ++ (out ++ putInt16 q.qtype.toNat ++ putInt16 q.qclass.toNat)) →
      StandsAt msg 12 w ∧ StandsAt msg ans.bytes.length
        (out ++ putInt16 q.qtype.toNat ++ putInt16 q.qclass.toNat) := by
    intro msg hat
    rw [h.length]
    exact hat.append
  refine ⟨done ++ [(ans.bytes.length, out)],
    w ++ (out ++ putInt16 q.qtype.toNat ++ putInt16 q.qclass.toNat), ?_, ?_,
    fun msg hat => ?_, fun msg hat hrcode => ?_, ?_, fun s => ?_, ?_⟩
  · obtain ⟨front, hfront, hold⟩ := h.bytes
    exact ⟨front, hfront, by rw [hnew, hold, List.append_assoc]⟩
  · rw [hgrow]
    refine hsound.mono ?_
    simp only [List.length_append, Nat.add_assoc]
    exact Nat.add_le_add_left (Nat.le_add_right _ _) _
  · obtain ⟨hbefore, hat'⟩ := hsplit hat
    exact List.forall_mem_append.mpr ⟨h.stands msg hbefore, by simpa using hat'.append.1.append.1⟩
  · obtain ⟨hbefore, hat'⟩ := hsplit hat
    obtain ⟨p, hquestions, hitems⟩ := h.reads msg hbefore hrcode
    have hend : p = ans.bytes.length := by
      obtain ⟨items, hread, -⟩ := hitems
      rw [hkept] at hread
      exact Except.ok.inj (congrArg Prod.snd hread)
    subst hend
    have hin := (hat'.append.1.append.1).length_le hne
    obtain ⟨n, hn, hfold⟩ := hname msg (h.stands msg hbefore) hat'.append.1.append.1
      (msg.length - ans.bytes.length) (by omega)
    refine ⟨ans'.bytes.length, ?_, ?_⟩
    · rw [hsize]
      exact hquestions.concat (questionsAt_written hne hfold hn hat')
    · rw [hkept]
      exact itemsAt_nil
  · exact h.sorted
  · have hold := h.counts s
    rw [hgrow]
    cases s <;> exact hold
  · have hsmall := h.small
    simp only [List.length_append, List.length_singleton]
    omega

theorem written_start : Written ⟨[], []⟩ ⟨List.replicate 12 0, 0, 0, 0, []⟩ [] [] := by
  refine ⟨⟨List.replicate 12 0, rfl, rfl⟩, sound_nil.mono (Nat.zero_le _), by simp,
    fun msg _ _ => ⟨12, ⟨[], rfl, rfl⟩, itemsAt_nil⟩, .nil, fun s => ?_, Nat.zero_le _⟩
  cases s <;> rfl

/-- Items that come in their turn are those of the three sections behind each other. -/
theorem kept_of_sorted {kept : List (RrSection × Item)}
    (h : kept.Pairwise fun x y => x.1.rank ≤ y.1.rank) (qs : List Question) :
    kept.map Prod.snd = Contents.section ⟨qs, kept⟩ .answer ++
      (Contents.section ⟨qs, kept⟩ .authority ++ Contents.section ⟨qs, kept⟩ .additional) := by
  induction h with
  | nil => rfl
  | @cons x kept hle _ ih =>
      obtain ⟨s, i⟩ := x
      have hcons : ∀ t, Contents.section ⟨qs, (s, i) :: kept⟩ t =
          if s = t then i :: Contents.section ⟨qs, kept⟩ t else Contents.section ⟨qs, kept⟩ t := by
        intro t
        rw [Contents.section, List.filter_cons]
        split_ifs <;> simp_all [Contents.section]
      have hnone : ∀ t : RrSection, t.rank < s.rank → Contents.section ⟨qs, kept⟩ t = [] := by
        intro t ht
        rw [Contents.section, List.map_eq_nil_iff, List.filter_eq_nil_iff]
        intro y hy heq
        have hrank : s.rank ≤ y.1.rank := hle y hy
        rw [of_decide_eq_true heq] at hrank
        omega
      rw [List.map_cons, ih]
      cases s with
      | answer => simp [hcons]
      | authority => simp [hcons, hnone .answer (by decide)]
      | additional => simp [hcons, hnone .answer (by decide), hnone .authority (by decide)]

theorem toNat_ofNat16 {n : Nat} (hn : n < 65536) : (UInt16.ofNat n).toNat = n := by
  rw [UInt16.toNat_ofNat', Nat.mod_eq_of_lt hn]

/-- A header in front of what was written, with the right numbers and the return code of the
`OPT` pseudo record, and whatever comes behind it. -/
theorem Written.parts (h : Written c ans done w) (hlen : ans.bytes.length ≤ 65535) {hdr : Header}
    (hqd : hdr.qdcount = UInt16.ofNat c.questions.length)
    (han : hdr.ancount = UInt16.ofNat ans.ancount) (hns : hdr.nscount = UInt16.ofNat ans.nscount)
    (hopt : ∀ x ∈ c.kept, ∀ n, x.2 = .opt n → hdr.rcode.val = n) (ext : List UInt8)
    {msg : List UInt8} (hmsg : msg = hdr.bytes ++ (ans.bytes.drop 12 ++ ext)) :
    ReadsHeader msg hdr ∧ hdrQdcount msg = c.questions.length ∧
      hdrAncount msg = (c.section .answer).length ∧
      hdrNscount msg = (c.section .authority).length ∧
      ∃ p₁ p₂ p₃, QuestionsAt msg 12 p₁ c.questions ∧ ItemsAt msg p₁ p₂ (c.section .answer) ∧
        ItemsAt msg p₂ p₃ (c.section .authority) ∧
          ItemsAt msg p₃ ans.bytes.length (c.section .additional) := by
  obtain ⟨front, hfront, hbytes⟩ := h.bytes
  have hdrop : ans.bytes.drop 12 = w := by
    rw [hbytes, ← hfront, List.drop_left]
  have hhdr : StandsAt msg 0 hdr.bytes := by
    rw [hmsg]
    exact standsAt_front _ _
  have hat : StandsAt msg 12 w := by
    rw [hmsg, hdrop]
    exact (standsAt_append hdr.bytes (w ++ ext)).append.1
  have hread := readsHeader hhdr
  obtain ⟨p, hquestions, hitems⟩ := h.reads _ hat fun x hx n hn => by
    rw [hread.rcode, hopt x hx n hn]
  have hsmall := h.small
  have hcount : ∀ s, (c.section s).length < 65536 := by
    intro s
    have hkept := section_length_le c s
    omega
  rw [kept_of_sorted h.sorted c.questions] at hitems
  obtain ⟨p₁, hanswer, hitems⟩ := hitems.split
  obtain ⟨p₂, hauthority, hadditional⟩ := hitems.split
  refine ⟨hread, ?_, ?_, ?_, p, p₁, p₂, hquestions, hanswer, hauthority, hadditional⟩
  · rw [hread.qdcount, hqd, toNat_ofNat16 (by omega)]
  · have hans : ans.ancount = (c.section .answer).length := h.counts .answer
    rw [hread.ancount, han, hans, toNat_ofNat16 (hcount .answer)]
  · have hans : ans.nscount = (c.section .authority).length := h.counts .authority
    rw [hread.nscount, hns, hans, toNat_ofNat16 (hcount .authority)]

/-- The same of a message with nothing behind it. -/
theorem Written.readsAs (h : Written c ans done w) (hlen : ans.bytes.length ≤ 65535) {hdr : Header}
    (hqd : hdr.qdcount = UInt16.ofNat c.questions.length)
    (han : hdr.ancount = UInt16.ofNat ans.ancount) (hns : hdr.nscount = UInt16.ofNat ans.nscount)
    (har : hdr.arcount = UInt16.ofNat ans.arcount)
    (hopt : ∀ x ∈ c.kept, ∀ n, x.2 = .opt n → hdr.rcode.val = n) :
    ReadsHeader (hdr.bytes ++ ans.bytes.drop 12) hdr ∧
      ReadsAs (hdr.bytes ++ ans.bytes.drop 12) c := by
  obtain ⟨hread, hqd', han', hns', p₁, p₂, p₃, hquestions, hanswer, hauthority, hadditional⟩ :=
    h.parts hlen hqd han hns hopt [] (show hdr.bytes ++ ans.bytes.drop 12 =
      hdr.bytes ++ (ans.bytes.drop 12 ++ []) by rw [List.append_nil])
  have hsize : (hdr.bytes ++ ans.bytes.drop 12).length = ans.bytes.length := by
    rw [List.length_append, length_headerBytes, List.length_drop, h.length]
    omega
  rw [← hsize] at hadditional
  refine ⟨hread, hqd', han', hns', ?_, p₁, p₂, p₃, hquestions, hanswer, hauthority, hadditional⟩
  have hans : ans.arcount = (c.section .additional).length := h.counts .additional
  have hkept := section_length_le c .additional
  have hsmall := h.small
  rw [hread.arcount, har, hans, toNat_ofNat16 (by omega)]

end Steps

end TorAndroid.Dns
