import TorAndroid.Dns.WithdrawnNames
import TorAndroid.Dns.Reply
import TorAndroid.Lib.GuardedRun

namespace TorAndroid.Dns

open TorAndroid.Lib.GuardedRun

structure Question where
  qname : Name
  qtype : UInt16
  qclass : UInt16

/-- A turn of the first loop of `compose_answer`. -/
def addQuestion (ans : Response) (q : Question) : Option Response := do
  let (nbuf, cb) ← compressName q.qname.wire ans.bytes.length ans.cb
  some { ans with
    bytes := ans.bytes ++ nbuf ++ putInt16 q.qtype.toNat ++ putInt16 q.qclass.toNat
    cb := cb }

/-- The message with the numbers of its records in the header. -/
def Response.message (ans : Response) : List UInt8 :=
  ans.bytes.take 6 ++ (putInt16 ans.ancount ++ putInt16 ans.nscount ++ putInt16 ans.arcount) ++
    ans.bytes.drop 12

/-- An answer that is being made, with the names that are in the message and with the records
that were not withdrawn. -/
structure Draft where
  ans : Response
  present : List CompEl
  kept : List (RrSection × Record)

def inSection (s : RrSection) (kept : List (RrSection × Record)) : List Record :=
  (kept.filter fun x => x.1 = s).map Prod.snd

namespace Draft

def start (hdr : List UInt8) (q : Question) : Option Draft :=
  (addQuestion ⟨hdr, 0, 0, 0, []⟩ q).map fun ans => ⟨ans, ans.cb, []⟩

def add (udp : Option Nat) (d : Draft) (x : RrSection × Record) : Option Draft :=
  (addRr udp d.ans x.1 x.2).map fun ans =>
    if ans.bytes = d.ans.bytes then { d with ans := ans }
    else ⟨ans, d.present ++ ans.cb.drop d.ans.cb.length, d.kept ++ [x]⟩

/-- The record is not withdrawn. -/
def keeps (udp : Option Nat) (d : Draft) (x : RrSection × Record) : Bool :=
  (addRr udp d.ans x.1 x.2).any fun ans => ans.bytes ≠ d.ans.bytes

end Draft

def RrSection.rank : RrSection → Nat
  | .answer => 0
  | .authority => 1
  | .additional => 2

/-- A record that comes in its turn, and that does no harm: it is small enough for the header,
for its own length field and for the offsets, and for none of its names the search of
`compress_name` finds a name of a withdrawn record. -/
structure Draft.Clean (udp : Option Nat) (d : Draft) (x : RrSection × Record) : Prop where
  storable : x.2.Storable
  order : ∀ y ∈ d.kept, y.1.rank ≤ x.1.rank
  offsets : d.ans.bytes.length + x.2.size ≤ 2 ^ 32
  count : d.keeps udp x = true → (inSection x.1 d.kept).length < 65535
  short : d.keeps udp x = true → x.2.data.length ≤ 65535
  present : d.keeps udp x = true → ∀ n ∈ x.2.names, searchName n d.ans.cb = searchName n d.present

/-- The records that stand at `p`, up to the case of the letters in names. -/
def Reread (msg : List UInt8) (n p next : Nat) (rs : List Record) : Prop :=
  ∃ rs' : List Record, readItems msg n p = (rs'.map .rr, .ok next) ∧
    rs'.map Record.fold = rs.map Record.fold

/-- A message that is read as this question and these records. -/
structure Decodes (msg : List UInt8) (q : Question) (kept : List (RrSection × Record)) : Prop where
  ancount : hdrAncount msg = (inSection .answer kept).length
  nscount : hdrNscount msg = (inSection .authority kept).length
  arcount : hdrArcount msg = (inSection .additional kept).length
  sections : ∃ left p p', decompressName msg 12 (msg.length - 12) = .ok (q.qname.wire, left) ∧
    int16 msg (msg.length - left) = q.qtype.toNat ∧
    int16 msg (msg.length - left + 2) = q.qclass.toNat ∧
    Reread msg (hdrAncount msg) (msg.length - left + 4) p (inSection .answer kept) ∧
    Reread msg (hdrNscount msg) p p' (inSection .authority kept) ∧
    Reread msg (hdrArcount msg) p' msg.length (inSection .additional kept)

section Reading

variable {msg : List UInt8}

theorem readItems_add (m n p : Nat) :
    readItems msg (m + n) p =
      match (readItems msg m p).2 with
      | .ok p' => ((readItems msg m p).1 ++ (readItems msg n p').1, (readItems msg n p').2)
      | .error e => ((readItems msg m p).1, .error e) := by
  induction m generalizing p with
  | zero => simp [readItems]
  | succ m ih =>
      rw [Nat.add_right_comm, readItems, readItems]
      cases hhead : readHead msg p with
      | error e => rfl
      | ok h =>
          cases hitem : readItem msg h with
          | none => simp only [hitem]
          | some item =>
              simp only [hitem, ih h.next]
              cases (readItems msg m h.next).2 <;> rfl

theorem length_of_readItems {n p next : Nat} (h : (readItems msg n p).2 = .ok next) :
    (readItems msg n p).1.length = n := by
  induction n generalizing p with
  | zero => rfl
  | succ n ih =>
      rw [readItems] at h ⊢
      cases hhead : readHead msg p with
      | error e => simp [hhead] at h
      | ok hd =>
          simp only [hhead] at h ⊢
          cases hitem : readItem msg hd with
          | none => simp [hitem] at h
          | some item =>
              simp only [hitem] at h ⊢
              rw [List.length_cons, ih h]

theorem Reread.concat {n p mid next : Nat} {rs : List Record} {r : Record}
    (h : Reread msg n p mid rs) (hr : RecordAgain msg mid next r) (hshort : r.data.length ≤ 65535) :
    Reread msg (n + 1) p next (rs ++ [r]) := by
  obtain ⟨rs', hread, hfolds⟩ := h
  obtain ⟨hd, r', hhead, hnext, hitem, hfold⟩ := hr.fits hshort
  refine ⟨rs' ++ [r'], ?_, by simp [hfolds, hfold]⟩
  rw [readItems_add, hread]
  simp [readItems, hhead, hitem, hnext]

theorem Reread.split {m n p next : Nat} {rs ss : List Record} (hm : rs.length = m)
    (h : Reread msg (m + n) p next (rs ++ ss)) :
    ∃ p', Reread msg m p p' rs ∧ Reread msg n p' next ss := by
  obtain ⟨rs', hread, hfolds⟩ := h
  rw [readItems_add] at hread
  cases hrc : (readItems msg m p).2 with
  | error e =>
      rw [hrc] at hread
      have hend := congrArg Prod.snd hread
      cases hend
  | ok p' =>
      rw [hrc] at hread
      have hitems := (congrArg Prod.fst hread).symm
      have hend := congrArg Prod.snd hread
      obtain ⟨as, bs, rfl, has, hbs⟩ := List.map_eq_append_iff.mp hitems
      have hlen := length_of_readItems hrc
      rw [← has, List.length_map] at hlen
      rw [List.map_append, List.map_append] at hfolds
      obtain ⟨hfold, hfold'⟩ := List.append_inj hfolds (by
        rw [List.length_map, List.length_map, hlen, hm])
      exact ⟨p', ⟨as, Prod.ext has.symm hrc, hfold⟩, bs, Prod.ext hbs.symm hend, hfold'⟩

end Reading

section Message

variable {ans : Response}

theorem message_split (hlen : 12 ≤ ans.bytes.length) : ∃ front, front.length = 12 ∧
    ans.message = front ++ ans.bytes.drop 12 := by
  refine ⟨_, ?_, rfl⟩
  simp only [List.length_append, List.length_take, putInt16, List.length_cons, List.length_nil]
  omega

theorem length_message (hlen : 12 ≤ ans.bytes.length) : ans.message.length = ans.bytes.length := by
  obtain ⟨front, hfront, hmessage⟩ := message_split hlen
  rw [hmessage, List.length_append, List.length_drop, hfront]
  omega

/-- Only the header is different. -/
theorem standsAt_message (hlen : 12 ≤ ans.bytes.length) {p : Nat} (hp : 12 ≤ p) {bs : List UInt8}
    (h : StandsAt ans.bytes p bs) : StandsAt ans.message p bs := by
  obtain ⟨front, hfront, hmessage⟩ := message_split hlen
  have hdrop : ans.message.drop p = ans.bytes.drop p := by
    rw [hmessage, List.drop_append, List.drop_of_length_le (by omega), List.nil_append,
      List.drop_drop, hfront]
    congr 1
    omega
  rw [StandsAt, copyBytes, hdrop]
  exact h

theorem counts_message (hlen : 12 ≤ ans.bytes.length) (han : ans.ancount < 65536)
    (hns : ans.nscount < 65536) (har : ans.arcount < 65536) :
    hdrAncount ans.message = ans.ancount ∧ hdrNscount ans.message = ans.nscount ∧
      hdrArcount ans.message = ans.arcount := by
  have hsix : (ans.bytes.take 6).length = 6 := by
    rw [List.length_take]
    omega
  have hall : StandsAt ans.message (ans.bytes.take 6).length
      (putInt16 ans.ancount ++ putInt16 ans.nscount ++ putInt16 ans.arcount ++
        ans.bytes.drop 12) := by
    rw [Response.message, List.append_assoc]
    exact standsAt_append _ _
  rw [hsix] at hall
  obtain ⟨hcounts, -⟩ := hall.append
  obtain ⟨hcounts, har'⟩ := hcounts.append
  obtain ⟨han', hns'⟩ := hcounts.append
  exact ⟨(int16_of_standsAt han').trans (Nat.mod_eq_of_lt han),
    (int16_of_standsAt hns').trans (Nat.mod_eq_of_lt hns),
    (int16_of_standsAt har').trans (Nat.mod_eq_of_lt har)⟩

end Message

/-- The number of records in a section. -/
def Response.countOf (ans : Response) : RrSection → Nat
  | .answer => ans.ancount
  | .authority => ans.nscount
  | .additional => ans.arcount

theorem countOf_count (ans : Response) (s s' : RrSection) :
    (ans.count s).countOf s' = if s' = s then (ans.countOf s' + 1) % 65536 else ans.countOf s' := by
  cases s <;> cases s' <;> rfl

theorem countOf_addRr {ans ans' : Response} {sect : RrSection} {r : Record}
    (h : addRr none ans sect r = some ans') (s : RrSection) :
    ans'.countOf s = (ans.count sect).countOf s := by
  rw [addRr] at h
  obtain ⟨x, -, h⟩ := Option.bind_eq_some_iff.mp h
  obtain ⟨y, -, h⟩ := Option.bind_eq_some_iff.mp h
  simp only [Option.any_none, Bool.false_and, Bool.false_eq_true, if_false, Option.some.injEq] at h
  subst h
  cases sect <;> cases s <;> rfl

/-- The bytes of a question. -/
def Question.bytes (q : Question) : List UInt8 :=
  q.qname.wire ++ putInt16 q.qtype.toNat ++ putInt16 q.qclass.toNat

namespace Draft

variable {hdr : List UInt8} {q : Question} {udp : Option Nat} {d : Draft}

/-- What holds of an answer while records are added: wherever its bytes from the question on
stand, the records that were kept are read. -/
structure Inv (hdr : List UInt8) (q : Question) (d : Draft) (done : List (Nat × List UInt8))
    (w : List UInt8) : Prop where
  bytes : d.ans.bytes = hdr ++ (q.bytes ++ w)
  named : Named d.ans.cb
  sound : Sound d.present done d.ans.bytes.length
  reads : ∀ msg, StandsAt msg 12 (q.bytes ++ w) → (∀ x ∈ done, StandsAt msg x.1 x.2) ∧
    Reread msg d.kept.length (12 + q.bytes.length) d.ans.bytes.length (d.kept.map Prod.snd)
  sorted : d.kept.Pairwise fun x y => x.1.rank ≤ y.1.rank
  counts : ∀ s, d.ans.countOf s = (inSection s d.kept).length ∧ d.ans.countOf s < 65536

/-- The question itself is never compressed. -/
theorem inv_start (hhdr : hdr.length = 12) (hq : q.qname.Valid) :
    ∃ d done, start hdr q = some d ∧ d.Inv hdr q done [] := by
  have hlen := hq.length_le
  obtain ⟨out, cb, hcompress, -, -, hsound, -⟩ :=
    (sound_nil.mono (Nat.zero_le 12)).compress hq le_rfl (by omega)
  obtain rfl : q.qname.wire = out := by
    have hempty := compressName_eq (G := []) hq (by simp) 12
    have hsame := hcompress.symm.trans hempty
    exact (congrArg Prod.fst (Option.some.inj hsame)).symm
  refine ⟨⟨⟨hdr ++ q.qname.wire ++ putInt16 q.qtype.toNat ++ putInt16 q.qclass.toNat, 0, 0, 0, cb⟩,
    cb, []⟩, [(12, q.qname.wire)], ?_, ⟨?_, hsound.named, hsound.mono ?_, ?_, .nil, ?_⟩⟩
  · rw [start, addQuestion]
    simp only [hhdr, hcompress, Option.bind_eq_bind, Option.bind_some, Option.map_some]
  · simp [Question.bytes]
  · simp only [List.length_append, hhdr]
    omega
  · intro msg hat
    rw [List.append_nil, Question.bytes, List.append_assoc] at hat
    refine ⟨by simpa using hat.append.1, [], ?_, rfl⟩
    simp [readItems, Question.bytes, hhdr]
  · intro s
    cases s <;> exact ⟨rfl, Nat.zero_lt_succ _⟩

theorem inSection_cons (s s' : RrSection) (r : Record) (kept : List (RrSection × Record)) :
    inSection s ((s', r) :: kept) = if s' = s then r :: inSection s kept else inSection s kept := by
  rw [inSection, List.filter_cons]
  split_ifs <;> simp_all [inSection]

theorem inSection_concat (s : RrSection) (kept : List (RrSection × Record))
    (x : RrSection × Record) :
    (inSection s (kept ++ [x])).length =
      if s = x.1 then (inSection s kept).length + 1 else (inSection s kept).length := by
  rw [inSection, inSection, List.length_map, List.length_map, List.filter_append,
    List.length_append]
  by_cases hs : x.1 = s
  · simp [hs]
  · rw [if_neg (Ne.symm hs)]
    simp [hs]

/-- A record that is withdrawn leaves its names in the list. -/
theorem Inv.withdraw {done : List (Nat × List UInt8)} {w : List UInt8} (h : d.Inv hdr q done w)
    {cb : List CompEl} (hcb : Named cb) :
    Inv hdr q { d with ans := { d.ans with cb := cb } } done w where
  bytes := h.bytes
  named := hcb
  sound := h.sound
  reads := h.reads
  sorted := h.sorted
  counts s := by
    have hs := h.counts s
    cases s <;> exact hs

/-- A record that is kept refers to names in the message only. -/
theorem Inv.keep {done : List (Nat × List UInt8)} {w : List UInt8} (h : d.Inv hdr q done w)
    (hhdr : hdr.length = 12) {x : RrSection × Record} (hclean : d.Clean udp x)
    (hkeeps : d.keeps udp x = true) {ans : Response}
    (hadd : addRr none d.ans x.1 x.2 = some ans) (hnamed : Named ans.cb) :
    ∃ done' w', Inv hdr q
      ⟨ans, d.present ++ ans.cb.drop d.ans.cb.length, d.kept ++ [x]⟩ done' w' := by
  obtain ⟨own, hown, hsame⟩ := addRr_alike (hclean.present hkeeps) hadd
  obtain ⟨ans', w', done', hadd', hbytes, -, -, hsound, hread⟩ :=
    @addRr_spec { d.ans with cb := d.present } _ h.sound _ hclean.storable x.1 hclean.offsets
  obtain rfl : { ans with cb := d.present ++ own } = ans' :=
    Option.some.inj (hsame.symm.trans hadd')
  rw [hown, List.drop_left]
  have hlen : d.ans.bytes.length = 12 + (q.bytes ++ w).length := by
    rw [h.bytes, List.length_append, hhdr]
  have hbytes : ans.bytes = d.ans.bytes ++ w' := hbytes
  refine ⟨done ++ done', w ++ w', ⟨?_, hnamed, hsound, fun msg hat => ?_, ?_, fun s => ?_⟩⟩
  · rw [hbytes, h.bytes]
    simp only [List.append_assoc]
  · rw [← List.append_assoc] at hat
    obtain ⟨hbefore, hnew⟩ := hat.append
    rw [← hlen] at hnew
    obtain ⟨hdone, hreread⟩ := h.reads msg hbefore
    obtain ⟨hdone', hagain⟩ := hread msg hdone hnew
    refine ⟨List.forall_mem_append.mpr ⟨hdone, hdone'⟩, ?_⟩
    rw [List.length_append, List.length_singleton, List.map_append, List.map_singleton, hbytes,
      List.length_append]
    exact hreread.concat hagain (hclean.short hkeeps)
  · rw [List.pairwise_append]
    exact ⟨h.sorted, List.pairwise_singleton _ _, fun y hy z hz =>
      List.mem_singleton.mp hz ▸ hclean.order y hy⟩
  · obtain ⟨hcount, hbound⟩ := h.counts s
    simp only
    rw [countOf_addRr hadd, countOf_count, inSection_concat]
    split_ifs with hs
    · subst hs
      have hroom := hclean.count hkeeps
      rw [hcount, Nat.mod_eq_of_lt (by omega)]
      exact ⟨rfl, by omega⟩
    · exact ⟨hcount, hbound⟩

theorem inv_add {done : List (Nat × List UInt8)} {w : List UInt8} (h : d.Inv hdr q done w)
    (hhdr : hdr.length = 12) {x : RrSection × Record} (hclean : d.Clean udp x) {d' : Draft}
    (hadd : d.add udp x = some d') : ∃ done' w', d'.Inv hdr q done' w' := by
  obtain ⟨ans, hans, hnamed, hne⟩ := addRr_named h.named hclean.storable x.1 hclean.offsets
  by_cases hlimit : ((udp.any fun limit => limit < ans.bytes.length) && x.1 = .additional) = true
  · have hans' : addRr udp d.ans x.1 x.2 = some { d.ans with cb := ans.cb } := by
      rw [addRr_limit, hans, Option.map_some, if_pos hlimit]
    simp only [add, hans', Option.map_some, if_true, Option.some.injEq] at hadd
    subst hadd
    exact ⟨done, w, h.withdraw hnamed⟩
  · have hans' : addRr udp d.ans x.1 x.2 = some ans := by
      rw [addRr_limit, hans, Option.map_some, if_neg hlimit]
    have hkeeps : d.keeps udp x = true := by
      rw [keeps, hans', Option.any_some]
      exact decide_eq_true hne
    simp only [add, hans', Option.map_some, if_neg hne, Option.some.injEq] at hadd
    subst hadd
    exact h.keep hhdr hclean hkeeps hans hnamed

/-- Records that come in their turn are those of the three sections behind each other. -/
theorem sections_of_sorted {kept : List (RrSection × Record)}
    (h : kept.Pairwise fun x y => x.1.rank ≤ y.1.rank) :
    kept.map Prod.snd =
      inSection .answer kept ++ (inSection .authority kept ++ inSection .additional kept) := by
  induction h with
  | nil => rfl
  | @cons x kept hle _ ih =>
      obtain ⟨s, r⟩ := x
      have hnone : ∀ t : RrSection, t.rank < s.rank → inSection t kept = [] := by
        intro t ht
        rw [inSection, List.map_eq_nil_iff, List.filter_eq_nil_iff]
        intro y hy heq
        have hrank : s.rank ≤ y.1.rank := hle y hy
        rw [of_decide_eq_true heq] at hrank
        omega
      rw [List.map_cons, ih]
      cases s with
      | answer => simp [inSection_cons]
      | authority => simp [inSection_cons, hnone .answer (by decide)]
      | additional =>
          simp [inSection_cons, hnone .answer (by decide), hnone .authority (by decide)]

/-- The question is read where the header ends. -/
theorem Inv.question {done : List (Nat × List UInt8)} {w : List UInt8} (h : d.Inv hdr q done w)
    (hhdr : hdr.length = 12) (hq : q.qname.Valid) {msg : List UInt8}
    (hlen : msg.length = d.ans.bytes.length) (hat : StandsAt msg 12 (q.bytes ++ w)) :
    ∃ left, decompressName msg 12 (msg.length - 12) = .ok (q.qname.wire, left) ∧
      int16 msg (msg.length - left) = q.qtype.toNat ∧
      int16 msg (msg.length - left + 2) = q.qclass.toNat ∧
      msg.length - left + 4 = 12 + q.bytes.length := by
  have hsize : msg.length = 12 + (q.qname.wire.length + 4 + w.length) := by
    rw [hlen, h.bytes]
    simp only [List.length_append, hhdr, Question.bytes, putInt16, List.length_cons,
      List.length_nil]
  obtain ⟨hq', -⟩ := hat.append
  obtain ⟨hfront, hclass⟩ := StandsAt.append hq'
  obtain ⟨hname, htype⟩ := hfront.append
  have hpos : msg.length - (msg.length - 12 - q.qname.wire.length) = 12 + q.qname.wire.length := by
    omega
  have htype' := int16_of_standsAt htype
  have hclass' := int16_of_standsAt hclass
  rw [Nat.mod_eq_of_lt q.qtype.toNat_lt] at htype'
  rw [Nat.mod_eq_of_lt q.qclass.toNat_lt, List.length_append] at hclass'
  refine ⟨_, decompressName_wire hname hq (by omega), ?_, ?_, ?_⟩
  · rw [hpos, htype']
  · rw [hpos]
    exact hclass'
  · rw [hpos]
    simp only [Question.bytes, putInt16, List.length_append, List.length_cons, List.length_nil]
    omega

theorem Inv.decodes {done : List (Nat × List UInt8)} {w : List UInt8} (h : d.Inv hdr q done w)
    (hhdr : hdr.length = 12) (hq : q.qname.Valid) : Decodes d.ans.message q d.kept := by
  have hlen : 12 ≤ d.ans.bytes.length := by
    rw [h.bytes, List.length_append, hhdr]
    exact Nat.le_add_right _ _
  have hat : StandsAt d.ans.message 12 (q.bytes ++ w) := by
    refine standsAt_message hlen le_rfl ?_
    rw [h.bytes]
    have hall := standsAt_append hdr (q.bytes ++ w)
    rwa [hhdr] at hall
  obtain ⟨hancount, hnscount, harcount⟩ := counts_message hlen (h.counts .answer).2
    (h.counts .authority).2 (h.counts .additional).2
  have hancount := hancount.trans (h.counts .answer).1
  have hnscount := hnscount.trans (h.counts .authority).1
  have harcount := harcount.trans (h.counts .additional).1
  obtain ⟨left, hname, htype, hclass, hend⟩ := h.question hhdr hq (length_message hlen) hat
  obtain ⟨-, hreread⟩ := h.reads _ hat
  have hkept := sections_of_sorted h.sorted
  have hsum := congrArg List.length hkept
  simp only [List.length_map, List.length_append] at hsum
  rw [hkept, hsum] at hreread
  obtain ⟨p, hanswer, hreread⟩ := Reread.split rfl hreread
  obtain ⟨p', hauthority, hadditional⟩ := Reread.split rfl hreread
  refine ⟨hancount, hnscount, harcount, left, p, p', hname, htype, hclass, ?_, ?_, ?_⟩
  · rwa [hancount, hend]
  · rwa [hnscount]
  · rwa [harcount, length_message hlen]

end Draft

section Answers

/-- What is made of a question and of records that do no harm is read as them, after every
record; and none of them makes an assertion fail. -/
theorem answer_decodes {hdr : List UInt8} (hhdr : hdr.length = 12) {q : Question}
    (hq : q.qname.Valid) (udp : Option Nat) :
    ∃ d₀, Draft.start hdr q = some d₀ ∧
      ∀ hist d, Run (Draft.add udp) (Draft.Clean udp) d₀ hist d →
        Decodes d.ans.message q d.kept ∧
          ∀ x : RrSection × Record, x.2.Storable →
            d.ans.bytes.length + x.2.size ≤ 2 ^ 32 → (d.add udp x).isSome := by
  obtain ⟨d₀, done, hstart, hinv⟩ := Draft.inv_start hhdr hq
  refine ⟨d₀, hstart, fun hist d hrun => ?_⟩
  have hreach : ∃ done w, d.Inv hdr q done w := by
    refine hrun.invariant (I := fun _ d => ∃ done w, d.Inv hdr q done w) ⟨done, [], hinv⟩ ?_
    rintro - s x s' ⟨done, w, hs⟩ hclean hadd
    exact Draft.inv_add hs hhdr hclean hadd
  obtain ⟨done, w, h⟩ := hreach
  refine ⟨h.decodes hhdr hq, fun x hx hsmall => ?_⟩
  obtain ⟨ans, hans, -⟩ := addRr_named h.named hx x.1 hsmall
  rw [Draft.add, addRr_limit, hans]
  rfl

/-- The header of a reply, and a question for the address of the name `a`. -/
def emptyHeader : List UInt8 :=
  List.replicate 12 0

def addressQuestion : Question :=
  ⟨⟨[⟨List.replicate 1 97, by decide, by decide⟩]⟩, 1, 1⟩

/-- Twenty letters `b`. -/
def farName : Name :=
  ⟨[⟨List.replicate 20 98, by decide, by decide⟩]⟩

def addressOf (n : Name) : Record :=
  ⟨n, 1, 60, [10, 0, 0, 1]⟩

def textOf (n : Name) (data : List UInt8) : Record :=
  ⟨n, 16, 60, data⟩

theorem storable_addressOf {n : Name} (hn : n.Valid) : (addressOf n).Storable where
  owner := hn
  slot := (by decide : (slotOf 1).isSome)
  ttl := (by decide : 60 < 2 ^ 32)
  data := ⟨[10, 0, 0, 1], 0, 4, by decide, by decide,
    (by decide : readRdata [10, 0, 0, 1] 1 0 4 = some [10, 0, 0, 1])⟩

theorem storable_textOf {n : Name} (hn : n.Valid) {data : List UInt8} (hlen : data.length < 65536)
    (hdata : readRdata data 16 0 data.length = some data) : (textOf n data).Storable where
  owner := hn
  slot := (by decide : (slotOf 16).isSome)
  ttl := (by decide : 60 < 2 ^ 32)
  data := ⟨data, 0, data.length, by omega, hlen, hdata⟩

theorem valid_farName : farName.Valid := ⟨by decide, by decide⟩

theorem valid_addressQuestion : addressQuestion.qname.Valid := ⟨by decide, by decide⟩

def startDraft : Draft :=
  (Draft.start emptyHeader addressQuestion).get (by decide +kernel)

theorem start_startDraft : Draft.start emptyHeader addressQuestion = some startDraft :=
  (Option.some_get _).symm

def answeredDraft : Draft :=
  (startDraft.add (some 52) (.answer, addressOf addressQuestion.qname)).get (by decide +kernel)

def withdrawnDraft : Draft :=
  (answeredDraft.add (some 52) (.additional, addressOf farName)).get (by decide +kernel)

def fittingDraft : Draft :=
  (withdrawnDraft.add (some 52) (.additional, textOf addressQuestion.qname [1, 120])).get
    (by decide +kernel)

/-- With 52 bytes the second of three records is withdrawn and the third one is not. -/
theorem fittingRecords_decode :
    ∃ d₀ hist d, Draft.start emptyHeader addressQuestion = some d₀ ∧
      Run (Draft.add (some 52)) (Draft.Clean (some 52)) d₀ hist d ∧
        hist.length = 3 ∧ d.kept.length = 2 ∧ Decodes d.ans.message addressQuestion d.kept := by
  have hanswered : startDraft.Clean (some 52) (.answer, addressOf addressQuestion.qname) :=
    ⟨storable_addressOf valid_addressQuestion, by decide +kernel, by decide +kernel,
      by decide +kernel, by decide +kernel, by decide +kernel⟩
  have hwithdrawn : answeredDraft.Clean (some 52) (.additional, addressOf farName) :=
    ⟨storable_addressOf valid_farName, by decide +kernel, by decide +kernel, by decide +kernel,
      by decide +kernel, by decide +kernel⟩
  have hfitting : withdrawnDraft.Clean (some 52)
      (.additional, textOf addressQuestion.qname [1, 120]) :=
    ⟨storable_textOf valid_addressQuestion (by decide) (by decide), by decide +kernel,
      by decide +kernel, by decide +kernel, by decide +kernel, by decide +kernel⟩
  have hfirst : startDraft.add (some 52) (.answer, addressOf addressQuestion.qname) =
      some answeredDraft := (Option.some_get _).symm
  have hsecond : answeredDraft.add (some 52) (.additional, addressOf farName) =
      some withdrawnDraft := (Option.some_get _).symm
  have hthird : withdrawnDraft.add (some 52) (.additional, textOf addressQuestion.qname [1, 120]) =
      some fittingDraft := (Option.some_get _).symm
  have hrun := ((Run.start.next hanswered hfirst).next hwithdrawn hsecond).next hfitting hthird
  obtain ⟨d₀, hstart, h⟩ := @answer_decodes emptyHeader rfl _ valid_addressQuestion (some 52)
  obtain rfl : startDraft = d₀ := Option.some.inj (start_startDraft.symm.trans hstart)
  exact ⟨_, _, fittingDraft, hstart, hrun, rfl, by decide +kernel, (h _ _ hrun).1⟩

/-- A text that leaves 25 bytes of the 512 that fit in a datagram. -/
def longText : Record :=
  textOf addressQuestion.qname (255 :: List.replicate 255 120 ++ 199 :: List.replicate 199 120)

/-- The address does not fit. The text that comes next fits, and it has the same name. -/
def mixedRecords : List (RrSection × Record) :=
  [(.answer, longText), (.additional, addressOf farName), (.additional, textOf farName [1, 120])]

def mixedDraft : Draft :=
  (execute (Draft.add (some 512)) Always startDraft mixedRecords).get (by decide +kernel)

/-- The name of the last record refers to itself. -/
theorem mixedDraft_reads :
    decompressName mixedDraft.ans.message 12 (mixedDraft.ans.message.length - 12) =
        .ok (addressQuestion.qname.wire, 486) ∧
      (readItems mixedDraft.ans.message (hdrAncount mixedDraft.ans.message)
        (mixedDraft.ans.message.length - 486 + 4)).2 = .ok 487 ∧
      (readItems mixedDraft.ans.message (hdrNscount mixedDraft.ans.message) 487).2 = .ok 487 ∧
      (readItems mixedDraft.ans.message (hdrArcount mixedDraft.ans.message) 487).2 =
        .error .format := by
  decide +kernel

theorem mixedRecords_not_decode :
    ∃ d₀ d, Draft.start emptyHeader addressQuestion = some d₀ ∧
      (∀ x ∈ mixedRecords, x.2.Storable) ∧
      mixedRecords.Pairwise (fun x y => x.1.rank ≤ y.1.rank) ∧
      Run (Draft.add (some 512)) Always d₀ mixedRecords.reverse d ∧
        ¬Decodes d.ans.message addressQuestion d.kept := by
  refine ⟨startDraft, mixedDraft, start_startDraft, ?_, by decide,
    run_of_execute (Option.some_get _).symm, fun h => ?_⟩
  · have hlong : longText.Storable :=
      storable_textOf valid_addressQuestion (by decide +kernel) (by decide +kernel)
    simpa [mixedRecords] using ⟨hlong, storable_addressOf valid_farName,
      storable_textOf valid_farName (by decide) (by decide)⟩
  · obtain ⟨left, p, p', hname, -, -, ⟨_, hanswer, -⟩, ⟨_, hauthority, -⟩, _, hadditional, -⟩ :=
      h.sections
    obtain ⟨hread, hp, hp', hend⟩ := mixedDraft_reads
    cases hread.symm.trans hname
    rw [hanswer] at hp
    cases hp
    rw [hauthority] at hp'
    cases hp'
    rw [hadditional] at hend
    cases hend

end Answers

end TorAndroid.Dns
