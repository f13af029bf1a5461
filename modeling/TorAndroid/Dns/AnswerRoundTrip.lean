import TorAndroid.Dns.AnswerContract

namespace TorAndroid.Dns

open TorAndroid.Lib.Interaction

/-- The global settings for answers. -/
structure ServerConfig where
  rndRecs : Bool
  udpbufsize : Nat

/-- The header that `compose_answer` fills in. -/
def answerHeader (hdr : Header) (rcode : Nat) (aa : Bool) (qdcount : Nat) (ans : Response) :
    Header where
  id := hdr.id
  qr := true
  opcode := opQuery
  aa := aa
  tc := false
  rd := hdr.rd
  ra := true
  z := false
  ad := false
  cd := false
  rcode := fourBits rcode
  qdcount := UInt16.ofNat qdcount
  ancount := UInt16.ofNat ans.ancount
  nscount := UInt16.ofNat ans.nscount
  arcount := UInt16.ofNat ans.arcount

section Answers

variable {σ : Type} (srv : Services σ) (cfg : ServerConfig) (queryts : Int) (hdr : Header)
  (edns : Bool) (ql : List Question)

/-- The message that `compose_answer` returns, and `*rcodep`. There is none where an assertion
fails, or where `compose_answer` returns `NULL`. -/
def makeAnswer (udp : Option Nat) (w : σ) : Option (Option (List UInt8 × Nat) × σ) :=
  ((composeAnswer cfg.rndRecs queryts hdr.rd edns ql).run (makeOp srv cfg.udpbufsize udp)
    ⟨w, 0, ⟨List.replicate 12 0, 0, 0, 0, []⟩⟩).map fun x =>
      (x.1.map fun y =>
        ((answerHeader hdr y.1 y.2 x.2.qdcount x.2.ans).bytes ++ x.2.ans.bytes.drop 12, y.1),
        x.2.world)

/-- The same as lists, with the return code and the bit `aa`. -/
def answerContents (w : σ) : Option (Nat × Bool) × (σ × Contents) :=
  (composeAnswer cfg.rndRecs queryts hdr.rd edns ql).eval (noteOp srv) (w, ⟨[], []⟩)

end Answers

def Header.withTc (h : Header) (tc : Bool) : Header :=
  { h with tc := tc }

/-- The header of an answer to a query, but for the numbers of its parts. -/
structure RepliesTo (msg : List UInt8) (hdr : Header) (rcode : Nat) (aa tc : Bool) : Prop where
  id : hdrId msg = hdr.id.toNat
  qr : hdrQr msg = true
  opcode : hdrOpcode msg = 0
  aa : hdrAa msg = aa
  tc : hdrTc msg = tc
  rd : hdrRd msg = hdr.rd
  ra : hdrRa msg = true
  z : hdrZ msg = false
  rcode : hdrRcode msg = rcode % 16

theorem repliesTo_of_readsHeader {msg : List UInt8} {hdr : Header} {rcode qdcount : Nat}
    {aa tc : Bool} {ans : Response}
    (h : ReadsHeader msg ((answerHeader hdr rcode aa qdcount ans).withTc tc)) :
    RepliesTo msg hdr rcode aa tc :=
  ⟨h.id, h.qr, h.opcode, h.aa, h.tc, h.rd, h.ra, h.z, h.rcode⟩

/-- The entries that come from outside can be put into a message. -/
structure Services.Sound {σ : Type} (srv : Services σ) : Prop where
  resolve : ∀ n tp w c, (srv.resolve n tp w).1 = .ok c → c.Encodable
  lookup : ∀ n w c, (srv.lookup n w).1 = some c → c.Encodable

/-- The most bytes an item takes. -/
def Item.size : Item → Nat
  | .rr r => r.size
  | _ => sizeofOptPseudoRr

def Contents.size (c : Contents) : Nat :=
  12 + (c.questions.map fun q => q.qname.wire.length + 4).sum +
    (c.kept.map fun x => x.2.size).sum

/-- The bytes and the lists of an answer that is being made, as long as it is small enough for
TCP. -/
structure Tracks {σ : Type} (s : Making σ) (t : σ × Contents) (x : Phase) : Prop where
  world : s.world = t.1
  small : s.ans.bytes.length ≤ 65535 → s.ans.bytes.length ≤ t.2.size ∧
    s.qdcount = t.2.questions.length ∧ (∃ done w, Written t.2 s.ans done w) ∧
      (∀ y ∈ t.2.kept, y.1.rank + 1 ≤ x.rank) ∧
        ∀ y ∈ t.2.kept, ∀ n, y.2 = .opt n → x.opt = some n ∧ n < 16
  large : 65535 < s.ans.bytes.length → 65535 < t.2.size

section Following

variable {σ : Type} {srv : Services σ} {udpbufsize : Nat} {s s' : Making σ} {t : σ × Contents}
  {x : Phase}

theorem Tracks.world_only (h : Tracks s t x) (w : σ) :
    Tracks { s with world := w } (w, t.2) x :=
  ⟨rfl, h.small, h.large⟩

theorem size_concat (c : Contents) (x : RrSection × Item) :
    Contents.size { c with kept := c.kept ++ [x] } = c.size + x.2.size := by
  simp only [Contents.size, List.map_append, List.map_singleton, List.sum_append,
    List.sum_singleton]
  omega

theorem size_question (c : Contents) (q : Question) :
    Contents.size { c with questions := c.questions ++ [q] } =
      c.size + (q.qname.wire.length + 4) := by
  simp only [Contents.size, List.map_append, List.map_singleton, List.sum_append,
    List.sum_singleton]
  omega

/-- A step that adds bytes to a message: it is enough to follow it while the message is small
enough for TCP. -/
theorem Tracks.grow (h : Tracks s t x) {c : Contents} {x' : Phase} {n : Nat}
    (hworld : s'.world = s.world) (hle : s.ans.bytes.length ≤ s'.ans.bytes.length)
    (hsize : c.size = t.2.size + n)
    (hstep : s.ans.bytes.length ≤ 65535 → s'.ans.bytes.length ≤ s.ans.bytes.length + n)
    (hsmall : s.ans.bytes.length ≤ 65535 → s'.ans.bytes.length ≤ 65535 →
      s'.qdcount = c.questions.length ∧ (∃ done w, Written c s'.ans done w) ∧
        (∀ y ∈ c.kept, y.1.rank + 1 ≤ x'.rank) ∧
          ∀ y ∈ c.kept, ∀ n, y.2 = .opt n → x'.opt = some n ∧ n < 16) :
    Tracks s' (t.1, c) x' where
  world := hworld.trans h.world
  small hlen := by
    have hbefore := (h.small (hle.trans hlen)).1
    have hgrown := hstep (hle.trans hlen)
    exact ⟨by simp only [hsize]; omega, hsmall (hle.trans hlen) hlen⟩
  large hlen := by
    simp only [hsize]
    by_cases hbefore : s.ans.bytes.length ≤ 65535
    · have hold := (h.small hbefore).1
      have hgrown := hstep hbefore
      omega
    · have hold := h.large (Nat.lt_of_not_le hbefore)
      omega

theorem Tracks.question (h : Tracks s t x) {q : Question} (hq : q.qname.Valid)
    (hrank : x.rank = 0) {ans : Response} (hadd : addQuestion s.ans q = some ans) :
    Tracks { s with qdcount := (s.qdcount + 1) % 65536, ans := ans }
      (t.1, { t.2 with questions := t.2.questions ++ [q] }) x := by
  have hkept : s.ans.bytes.length ≤ 65535 → t.2.kept = [] := by
    intro hlen
    obtain ⟨-, -, -, hranks, -⟩ := h.small hlen
    refine List.eq_nil_iff_forall_not_mem.mpr fun y hy => ?_
    have hpos := hranks y hy
    omega
  rw [Dns.addQuestion] at hadd
  obtain ⟨⟨out, cb⟩, hcompress, hnew⟩ := Option.bind_eq_some_iff.mp hadd
  have hnew : ans = { s.ans with
      bytes := s.ans.bytes ++ out ++ putInt16 q.qtype.toNat ++ putInt16 q.qclass.toNat
      cb := cb } := (Option.some.inj hnew).symm
  have hlength : ans.bytes.length = s.ans.bytes.length + (out.length + 4) := by
    rw [hnew]
    simp only [List.length_append, putInt16, List.length_cons, List.length_nil]
    omega
  refine h.grow rfl (by simp only [hlength]; omega) (size_question t.2 q) ?_ ?_
  · intro hlen
    obtain ⟨-, -, ⟨done, w, hwritten⟩, -⟩ := h.small hlen
    have hvalid := hq.length_le
    obtain ⟨out', cb', hcompress', -, hle, -⟩ := hwritten.sound.compress hq le_rfl (by omega)
    obtain ⟨rfl, rfl⟩ := Prod.mk.inj (Option.some.inj (hcompress.symm.trans hcompress'))
    simp only [hlength]
    omega
  · intro hlen hlen'
    obtain ⟨-, hqd, ⟨done, w, hwritten⟩, hranks, hopts⟩ := h.small hlen
    have hnext := hwritten.addQuestion (hkept hlen) hq hadd hlen'
    refine ⟨?_, hnext, hranks, hopts⟩
    have hfits := hwritten.small
    have hroom : ans.bytes.length ≤ 65535 := hlen'
    rw [hlength] at hroom
    rw [hqd, List.length_append, List.length_singleton, Nat.mod_eq_of_lt (by omega)]

theorem Tracks.rr (h : Tracks s t x) {sect : RrSection} {r : Record} (hr : r.Storable)
    (hrank : x.rank ≤ sect.rank + 1) {ans : Response} (hadd : addRr none s.ans sect r = some ans) :
    Tracks { s with ans := ans } (t.1, { t.2 with kept := t.2.kept ++ [(sect, .rr r)] })
      { x with rank := sect.rank + 1 } := by
  obtain ⟨front, rdata, hbytes, -⟩ := addRr_bytes hadd
  refine h.grow rfl ?_ (size_concat t.2 _) ?_ ?_
  · simp only [hbytes, List.length_append]
    omega
  · intro hlen
    obtain ⟨-, -, ⟨done, w, hwritten⟩, -⟩ := h.small hlen
    have howner := hr.owner.length_le
    have hdata := hr.data.length_lt
    obtain ⟨ans', w', -, hadd', hbytes', -, hle, -⟩ :=
      addRr_spec hwritten.sound hr sect (by rw [Record.size]; omega)
    obtain rfl : ans = ans' := Option.some.inj (hadd.symm.trans hadd')
    simp only [hbytes', List.length_append, Item.size]
    omega
  · intro hlen hlen'
    obtain ⟨-, hqd, ⟨done, w, hwritten⟩, hranks, hopts⟩ := h.small hlen
    have horder : ∀ y ∈ t.2.kept, y.1.rank ≤ sect.rank := fun y hy => by
      have hy := hranks y hy
      omega
    refine ⟨hqd, hwritten.addRr hr horder hadd hlen', ?_, ?_⟩
    · rw [List.forall_mem_append, List.forall_mem_singleton]
      exact ⟨fun y hy => Nat.succ_le_succ (horder y hy), le_rfl⟩
    · rw [List.forall_mem_append, List.forall_mem_singleton]
      exact ⟨hopts, fun n hn => by cases hn⟩

theorem Tracks.opt (h : Tracks s t x) {rcode : Nat} (hrcode : rcode < 16) (hopt : x.opt = none) :
    Tracks { s with ans := addOptPseudoRr s.ans udpbufsize rcode 0 0 }
      (t.1, { t.2 with kept := t.2.kept ++ [(.additional, .opt rcode)] }) ⟨3, some rcode⟩ := by
  have hlength : (addOptPseudoRr s.ans udpbufsize rcode 0 0).bytes.length =
      s.ans.bytes.length + sizeofOptPseudoRr := by
    rw [addOptPseudoRr, List.length_append]
    rfl
  refine h.grow rfl (by simp only [hlength]; omega) (size_concat t.2 _) (fun _ => ?_) ?_
  · simp only [hlength]
    exact le_rfl
  · intro hlen hlen'
    obtain ⟨-, hqd, ⟨done, w, hwritten⟩, hranks, hopts⟩ := h.small hlen
    refine ⟨hqd, hwritten.addOpt hrcode (by simpa only [hlength] using hlen'), ?_, ?_⟩
    · rw [List.forall_mem_append, List.forall_mem_singleton]
      exact ⟨fun y _ => rank_le y.1, le_rfl⟩
    · rw [List.forall_mem_append, List.forall_mem_singleton]
      refine ⟨fun y hy n hn => ?_, fun n hn => ?_⟩
      · have hbefore := (hopts y hy n hn).1
        rw [hopt] at hbefore
        cases hbefore
      · cases hn
        exact ⟨rfl, hrcode⟩

/-- One operation on the bytes and on the lists. -/
theorem tracks_op {allowed : Option RrSection → Prop} (hsrv : srv.Sound) {β : Type}
    (op : AnswerOp β)
    {b : β} (h : Tracks s t x) (hpre : (composing allowed).pre op x)
    (hop : makeOp srv udpbufsize none op s = some (b, s')) :
    (noteOp srv op t).1 = b ∧ (composing allowed).post op b ∧
      Tracks s' (noteOp srv op t).2 ((composing allowed).next op b x) := by
  cases op with
  | resolve qname qtype =>
      cases hop
      refine ⟨by rw [h.world]; rfl, ?_, ?_⟩
      · cases hfound : (srv.resolve qname qtype s.world).1 with
        | error e => trivial
        | ok c => exact hsrv.resolve _ _ _ c hfound
      · rw [h.world]
        exact h.world_only _
  | lookup name =>
      cases hop
      refine ⟨by rw [h.world]; rfl, ?_, ?_⟩
      · cases hfound : (srv.lookup name s.world).1 with
        | none => trivial
        | some c => exact hsrv.lookup _ _ c hfound
      · rw [h.world]
        exact h.world_only _
  | localOwner name tp =>
      cases hop
      refine ⟨by rw [h.world]; rfl, trivial, ?_⟩
      rw [h.world]
      exact h.world_only _
  | random =>
      cases hop
      refine ⟨by rw [h.world]; rfl, trivial, ?_⟩
      rw [h.world]
      exact h.world_only _
  | question q =>
      obtain ⟨ans, hadd, heq⟩ := Option.map_eq_some_iff.mp hop
      cases heq
      exact ⟨rfl, trivial, h.question hpre.1 hpre.2.1 hadd⟩
  | rr sect r =>
      obtain ⟨ans, hadd, heq⟩ := Option.map_eq_some_iff.mp hop
      cases heq
      exact ⟨rfl, trivial, h.rr hpre.1 hpre.2.1 hadd⟩
  | opt rcode =>
      cases hop
      exact ⟨rfl, trivial, h.opt hpre.1 hpre.2⟩
  | room =>
      cases hop
      exact ⟨rfl, trivial, h⟩

/-- No assertion fails in a message that is small enough for TCP. -/
theorem stuck_op {allowed : Option RrSection → Prop} {β : Type} (op : AnswerOp β) (h : Tracks s t x)
    (hpre : (composing allowed).pre op x) (hop : makeOp srv udpbufsize none op s = none) :
    65535 < (noteOp srv op t).2.2.size := by
  cases op with
  | question q =>
      have hnone : addQuestion s.ans q = none := Option.map_eq_none_iff.mp hop
      have hlarge : 65535 < t.2.size := by
        refine h.large (Nat.lt_of_not_le fun hlen => ?_)
        obtain ⟨-, -, ⟨done, w, hwritten⟩, -⟩ := h.small hlen
        have hvalid := hpre.1.length_le
        obtain ⟨out, cb, hcompress, -⟩ := hwritten.sound.compress hpre.1 le_rfl (by omega)
        rw [addQuestion, hcompress] at hnone
        cases hnone
      exact (size_question t.2 q).symm ▸ Nat.lt_add_right _ hlarge
  | rr sect r =>
      have hnone : addRr none s.ans sect r = none := Option.map_eq_none_iff.mp hop
      have hlarge : 65535 < t.2.size := by
        refine h.large (Nat.lt_of_not_le fun hlen => ?_)
        obtain ⟨-, -, ⟨done, w, hwritten⟩, -⟩ := h.small hlen
        have howner := hpre.1.owner.length_le
        have hdata := hpre.1.data.length_lt
        obtain ⟨ans', -, -, hadd, -⟩ :=
          addRr_spec hwritten.sound hpre.1 sect (by rw [Record.size]; omega)
        cases hnone.symm.trans hadd
      exact (size_concat t.2 (sect, .rr r)).symm ▸ Nat.lt_add_right _ hlarge
  | resolve => cases hop
  | lookup => cases hop
  | localOwner => cases hop
  | random => cases hop
  | opt => cases hop
  | room => cases hop

theorem size_noteOp {β : Type} (op : AnswerOp β) (t : σ × Contents) (h : 65535 < t.2.size) :
    65535 < (noteOp srv op t).2.2.size := by
  cases op with
  | question q => exact (size_question t.2 q).symm ▸ Nat.lt_add_right _ h
  | rr sect r => exact (size_concat t.2 (sect, .rr r)).symm ▸ Nat.lt_add_right _ h
  | opt rcode => exact (size_concat t.2 (.additional, .opt rcode)).symm ▸ Nat.lt_add_right _ h
  | resolve => exact h
  | lookup => exact h
  | localOwner => exact h
  | random => exact h
  | room => exact h

theorem tracks_start (w : σ) :
    Tracks ⟨w, 0, ⟨List.replicate 12 0, 0, 0, 0, []⟩⟩ (w, ⟨[], []⟩) ⟨0, none⟩ := by
  refine ⟨rfl, fun _ => ⟨le_rfl, rfl, ⟨[], [], written_start⟩, ?_, ?_⟩, fun hlen => ?_⟩
  · simp
  · simp
  · rw [List.length_replicate] at hlen
    omega

end Following

section Answers

variable {σ : Type} {srv : Services σ} {cfg : ServerConfig} {queryts : Int} {hdr : Header}
  {edns : Bool} {ql : List Question} {w w' : σ}

theorem makeAnswer_follows (hsrv : srv.Sound) (hql : ∀ q ∈ ql, q.qname.Valid)
    {r : Option (Nat × Bool)} {s' : Making σ}
    (hrun : (composeAnswer cfg.rndRecs queryts hdr.rd edns ql).run (makeOp srv cfg.udpbufsize none)
      ⟨w, 0, ⟨List.replicate 12 0, 0, 0, 0, []⟩⟩ = some (r, s')) :
    (answerContents srv cfg queryts hdr edns ql w).1 = r ∧ ∃ x,
      (∃ rcode aa, r = some (rcode, aa) ∧ ∀ n, x.opt = some n → rcode = n) ∧
        Tracks s' (answerContents srv cfg queryts hdr edns ql w).2 x :=
  (@composeAnswer_ensures cfg.rndRecs queryts hdr.rd edns ql hql).follows
    (fun op _ _ _ _ _ => tracks_op hsrv op) (tracks_start w) hrun

theorem makeAnswer_contents (hsrv : srv.Sound) (hql : ∀ q ∈ ql, q.qname.Valid)
    {msg : List UInt8} {rcode : Nat}
    (hmake : makeAnswer srv cfg queryts hdr edns ql none w = some (some (msg, rcode), w'))
    (hlen : msg.length ≤ 65535) :
    ∃ aa, (answerContents srv cfg queryts hdr edns ql w).1 = some (rcode, aa) ∧
      (answerContents srv cfg queryts hdr edns ql w).2.1 = w' ∧ RepliesTo msg hdr rcode aa false ∧
        ReadsAs msg (answerContents srv cfg queryts hdr edns ql w).2.2 := by
  obtain ⟨⟨r, s'⟩, hrun, heq⟩ := Option.map_eq_some_iff.mp hmake
  obtain ⟨hsame, x, ⟨rcode', aa, rfl, hopt⟩, htracks⟩ := makeAnswer_follows hsrv hql hrun
  cases heq
  simp only [List.length_append, length_headerBytes, List.length_drop] at hlen
  obtain ⟨hsize, hqd, ⟨done, bs, hwritten⟩, -, hopts⟩ := htracks.small (by omega)
  obtain ⟨hread, hcontents⟩ := hwritten.readsAs (by omega)
    (show (answerHeader hdr rcode' aa s'.qdcount s'.ans).qdcount = UInt16.ofNat _ by
      rw [answerHeader, hqd]) rfl rfl rfl
    fun y hy n hn => by
      obtain ⟨hx, hsmall⟩ := hopts y hy n hn
      rw [answerHeader, hopt n hx]
      exact Nat.mod_eq_of_lt hsmall
  exact ⟨aa, hsame, htracks.world.symm, repliesTo_of_readsHeader hread, hcontents⟩

theorem makeAnswer_exists (hsrv : srv.Sound) (hql : ∀ q ∈ ql, q.qname.Valid)
    (hsize : (answerContents srv cfg queryts hdr edns ql w).2.2.size ≤ 65535) :
    ∃ msg rcode w', makeAnswer srv cfg queryts hdr edns ql none w = some (some (msg, rcode), w') ∧
      msg.length ≤ 65535 := by
  cases hrun : (composeAnswer cfg.rndRecs queryts hdr.rd edns ql).run
      (makeOp srv cfg.udpbufsize none) ⟨w, 0, ⟨List.replicate 12 0, 0, 0, 0, []⟩⟩ with
  | none =>
      have hlarge : 65535 < (answerContents srv cfg queryts hdr edns ql w).2.2.size :=
        (@composeAnswer_ensures cfg.rndRecs queryts hdr.rd edns ql hql).stuck (J := Tracks)
          (L := fun t => 65535 < t.2.size)
          (fun op _ _ _ _ _ => tracks_op hsrv op) (fun op s t x => stuck_op op)
          (fun op t => size_noteOp op t) (tracks_start w) hrun
      omega
  | some y =>
      obtain ⟨-, x, ⟨rcode, aa, hr, -⟩, htracks⟩ := makeAnswer_follows hsrv hql hrun
      refine ⟨_, rcode, y.2.world, by rw [makeAnswer, hrun, Option.map_some, hr]; rfl, ?_⟩
      have hlen : y.2.ans.bytes.length ≤ 65535 :=
        Nat.le_of_not_lt fun hlt => Nat.not_lt.mpr hsize (htracks.large hlt)
      simp only [List.length_append, length_headerBytes, List.length_drop]
      obtain ⟨-, -, ⟨done, bs, hwritten⟩, -⟩ := htracks.small hlen
      have hfront := hwritten.length
      omega

/-- An answer over TCP is read as what `compose_answer` took from the cache and the resolver:
its questions, and the records of its three sections. There is one whenever that fits in a TCP
message without compression. -/
theorem answer_tellsContents (hsrv : srv.Sound) (hql : ∀ q ∈ ql, q.qname.Valid) (w : σ) :
    (∀ msg rcode w', makeAnswer srv cfg queryts hdr edns ql none w = some (some (msg, rcode), w') →
      msg.length ≤ 65535 → ∃ aa, (answerContents srv cfg queryts hdr edns ql w).1 =
        some (rcode, aa) ∧
        (answerContents srv cfg queryts hdr edns ql w).2.1 = w' ∧ RepliesTo msg hdr rcode aa false ∧
          ReadsAs msg (answerContents srv cfg queryts hdr edns ql w).2.2) ∧
    ((answerContents srv cfg queryts hdr edns ql w).2.2.size ≤ 65535 →
      ∃ msg rcode w', makeAnswer srv cfg queryts hdr edns ql none w = some (some (msg, rcode), w') ∧
        msg.length ≤ 65535) :=
  ⟨fun _ _ _ => makeAnswer_contents hsrv hql, makeAnswer_exists hsrv hql⟩

end Answers

section OneAddress

def servedName : Name := Name.ofWire [1, 97, 0]

/-- An entry with one address. -/
def addressCent : Cent where
  qname := servedName
  cs := 0
  numRrs := 1
  flags := ⟨false, false, false, false⟩
  arm := .rr (RrArray.empty.put ((slotOf tA).getD slotNS)
    ⟨none, 300, 1000, ⟨false, false, false, false, false, false, false⟩, [[127, 0, 0, 1]]⟩)
  cNs := cundef
  cSoa := cundef

/-- A cache with this entry only. -/
def oneAddress : Services Unit where
  resolve n _ _ := (if n = servedName then .ok addressCent else .error (2, cundef), ())
  lookup n _ := (if n = servedName then some addressCent else none, ())
  localOwner _ _ _ := (none, ())
  random _ := (0, ())

/-- A query for a name with the number 0x1234, in which `rd` is set. -/
def servedHeader : Header := Header.read [18, 52, 1, 0, 0, 1, 0, 0, 0, 0, 0, 0]

def servedQuestions : List Question := [⟨servedName, 1, 1⟩]

theorem servedName_valid : servedName.Valid := ⟨by decide, by decide⟩

theorem addressCent_encodable : addressCent.Encodable where
  qname := servedName_valid
  data := by
    intro tp rrset h d hd
    obtain ⟨i, hi, hrrset⟩ := Option.bind_eq_some_iff.mp h
    by_cases hslot : i = (slotOf tA).getD slotNS
    · subst hslot
      have hall : ∀ tp ∈ List.range 52, slotOf tp = some ((slotOf tA).getD slotNS) →
        tp = 1 := by decide
      obtain ⟨-, hmax⟩ := slot_bounds (Option.isSome_of_eq_some hi)
      obtain rfl := hall tp (List.mem_range.mpr (by omega)) hi
      have hrrs : rrset.rrs = [[127, 0, 0, 1]] := congrArg RrSet.rrs (Option.some.inj hrrset).symm
      rw [hrrs, List.mem_singleton] at hd
      rw [hd]
      exact ⟨[127, 0, 0, 1], 0, 4, by decide, by decide, by decide⟩
    · have hempty : addressCent.rrset i = none := Function.update_of_ne hslot _ _
      rw [hempty] at hrrset
      cases hrrset

theorem oneAddress_sound : oneAddress.Sound where
  resolve n tp w c h := by
    simp only [oneAddress] at h
    split_ifs at h
    cases h
    exact addressCent_encodable
  lookup n w c h := by
    simp only [oneAddress] at h
    split_ifs at h
    cases h
    exact addressCent_encodable

theorem answer_tellsContents_address :
    ∃ msg aa, makeAnswer oneAddress ⟨false, 1024⟩ 1060 servedHeader true servedQuestions none () =
        some (some (msg, 0), ()) ∧ RepliesTo msg servedHeader 0 aa false ∧
      ReadsAs msg
        (answerContents oneAddress ⟨false, 1024⟩ 1060 servedHeader true servedQuestions
          ()).2.2 := by
  have hmake : makeAnswer oneAddress ⟨false, 1024⟩ 1060 servedHeader true servedQuestions none () =
      some (some ([18, 52, 129, 128, 0, 1, 0, 1, 0, 0, 0, 1, 1, 97, 0, 0, 1, 0, 1, 192, 12, 0, 1,
        0, 1, 0, 0, 0, 240, 0, 4, 127, 0, 0, 1, 0, 0, 41, 4, 0, 0, 0, 0, 0, 0, 0], 0), ()) := by
    decide +kernel
  obtain ⟨aa, -, -, hanswers, hreads⟩ :=
    (answer_tellsContents oneAddress_sound (by simp [servedQuestions, servedName_valid]) ()).1
      _ _ _ hmake (by decide)
  exact ⟨_, aa, hmake, hanswers, hreads⟩

end OneAddress

end TorAndroid.Dns
