import TorAndroid.Dns.AnswerRoundTrip
import TorAndroid.Dns.ReadingPrefix

namespace TorAndroid.Dns

open TorAndroid.Lib.Interaction

/-- The bit `tc` is set in the header. -/
def setTc (msg : List UInt8) : List UInt8 :=
  ((Header.read msg).withTc true).bytes ++ msg.drop 12

/-- What is sent of an answer. -/
def cutReply (limit : Nat) (msg : List UInt8) : List UInt8 :=
  if limit < msg.length then (setTc msg).take limit else msg

/-- What is read at `p` is a part of these items from their beginning, and all of them if there
is no error. -/
def ItemsFrom (msg : List UInt8) (p n : Nat) (items : List Item) : Prop :=
  (readItems msg n p).1.map Item.fold <+: items.map Item.fold ∧
    ∀ next, (readItems msg n p).2 = .ok next →
      (readItems msg n p).1.map Item.fold = items.map Item.fold

/-- A message that shows no more than the contents have in front of the additional section. It
has their numbers in its header, and whoever reads it in order finds the questions and the
records of the two sections, up to an error. -/
structure Shows (msg : List UInt8) (c : Contents) : Prop where
  qdcount : hdrQdcount msg = c.questions.length
  ancount : hdrAncount msg = (c.section .answer).length
  nscount : hdrNscount msg = (c.section .authority).length
  questions : (readQuestions msg (hdrQdcount msg) 12).1.map Question.fold <+:
    c.questions.map Question.fold
  answer : ∀ p, (readQuestions msg (hdrQdcount msg) 12).2 = .ok p →
    (readQuestions msg (hdrQdcount msg) 12).1.map Question.fold = c.questions.map Question.fold ∧
      ItemsFrom msg p (hdrAncount msg) (c.section .answer)
  authority : ∀ p p', (readQuestions msg (hdrQdcount msg) 12).2 = .ok p →
    (readItems msg (hdrAncount msg) p).2 = .ok p' →
      ItemsFrom msg p' (hdrNscount msg) (c.section .authority)

/-- The same without an error. -/
structure ShowsAll (msg : List UInt8) (c : Contents) : Prop where
  qdcount : hdrQdcount msg = c.questions.length
  ancount : hdrAncount msg = (c.section .answer).length
  nscount : hdrNscount msg = (c.section .authority).length
  parts : ∃ p₁ p₂ p₃, QuestionsAt msg 12 p₁ c.questions ∧
    ItemsAt msg p₁ p₂ (c.section .answer) ∧ ItemsAt msg p₂ p₃ (c.section .authority)

section Cut

variable {msg ext : List UInt8} {c : Contents}

theorem ItemsAt.from {p next : Nat} {items : List Item} (h : ItemsAt (msg ++ ext) p next items)
    (hhdr : 4 ≤ msg.length) : ItemsFrom msg p items.length items ∧
      ∀ next', (readItems msg items.length p).2 = .ok next' → next' = next := by
  obtain ⟨items', hread, hfolds⟩ := h
  obtain ⟨hsub, hall⟩ := @readItems_extend msg ext p hhdr items.length
  rw [hread] at hsub
  refine ⟨⟨?_, fun next' hnext => ?_⟩, fun next' hnext => ?_⟩
  · rw [← hfolds]
    exact hsub.map _
  · rw [← hall next' hnext, hread, hfolds]
  · have hsame := hall next' hnext
    rw [hread] at hsame
    rw [← hsame] at hnext
    exact (Except.ok.inj hnext).symm

theorem QuestionsAt.from {p next : Nat} {qs : List Question}
    (h : QuestionsAt (msg ++ ext) p next qs) :
    (readQuestions msg qs.length p).1.map Question.fold <+: qs.map Question.fold ∧
      ∀ next', (readQuestions msg qs.length p).2 = .ok next' → next' = next ∧
        (readQuestions msg qs.length p).1.map Question.fold = qs.map Question.fold := by
  obtain ⟨qs', hread, hfolds⟩ := h
  obtain ⟨hsub, hall⟩ := @readQuestions_extend msg ext p qs.length
  rw [hread] at hsub
  refine ⟨?_, fun next' hnext => ?_⟩
  · rw [← hfolds]
    exact hsub.map _
  · have hsame := hall next' hnext
    rw [hread] at hsame
    rw [← hsame] at hnext ⊢
    exact ⟨(Except.ok.inj hnext).symm, hfolds⟩

/-- A message that begins like one that shows all shows a part. -/
theorem ShowsAll.cut (h : ShowsAll (msg ++ ext) c) (hhdr : 12 ≤ msg.length) : Shows msg c := by
  obtain ⟨hqd, han, hns, p₁, p₂, p₃, hquestions, hanswer, hauthority⟩ := h
  have hnumber : ∀ p, p + 2 ≤ 12 → int16 (msg ++ ext) p = int16 msg p := fun p hp =>
    int16_append ext (by omega)
  have hqd' : hdrQdcount msg = c.questions.length := (hnumber 4 (by omega)).symm.trans hqd
  have han' : hdrAncount msg = (c.section .answer).length := (hnumber 6 (by omega)).symm.trans han
  have hns' : hdrNscount msg = (c.section .authority).length :=
    (hnumber 8 (by omega)).symm.trans hns
  obtain ⟨hsub, hall⟩ := hquestions.from
  obtain ⟨hanswers, hend⟩ := hanswer.from (by omega)
  have hauthorities := (hauthority.from (by omega)).1
  refine ⟨hqd', han', hns', ?_, fun p hp => ?_, fun p p' hp hp' => ?_⟩
  · rwa [hqd']
  · rw [hqd'] at hp ⊢
    obtain ⟨rfl, hfolds⟩ := hall p hp
    rw [han']
    exact ⟨hfolds, hanswers⟩
  · rw [hqd'] at hp
    obtain ⟨rfl, -⟩ := hall p hp
    rw [han'] at hp'
    obtain rfl := hend p' hp'
    rwa [hns']

end Cut

/-- Before the additional section nothing is withdrawn. -/
theorem makeOp_front {σ : Type} (srv : Services σ) (udpbufsize : Nat) (udp : Option Nat)
    {β : Type} (op : AnswerOp β) (s : Making σ) {x : Phase}
    (hpre : (composing fun sect => sect ≠ some .additional).pre op x) :
    makeOp srv udpbufsize udp op s = makeOp srv udpbufsize none op s := by
  cases op with
  | rr sect r =>
      have hsect : sect ≠ .additional := fun h => hpre.2.2 (congrArg some h)
      rw [makeOp, makeOp, addRr_limit udp]
      cases addRr none s.ans sect r <;> simp [hsect]
  | room => exact absurd rfl hpre
  | question => rfl
  | resolve => rfl
  | lookup => rfl
  | localOwner => rfl
  | random => rfl
  | opt => rfl

/-- What the additional section leaves as it was. -/
structure Grown {σ : Type} (s s' : Making σ) : Prop where
  bytes : s.ans.bytes <+: s'.ans.bytes
  qdcount : s'.qdcount = s.qdcount
  ancount : s'.ans.ancount = s.ans.ancount
  nscount : s'.ans.nscount = s.ans.nscount

theorem grown_op {σ : Type} {srv : Services σ} {udpbufsize : Nat} {udp : Option Nat} {β : Type}
    (op : AnswerOp β) {s₀ s s' : Making σ} {x : Phase} {b : β}
    (hpre : (composing fun sect => sect = some .additional).pre op x) (h : Grown s₀ s)
    (hop : makeOp srv udpbufsize udp op s = some (b, s')) : Grown s₀ s' := by
  cases op with
  | rr sect r =>
      obtain rfl : sect = .additional := Option.some.inj hpre.2.2
      obtain ⟨ans, hadd, heq⟩ := Option.map_eq_some_iff.mp hop
      cases heq
      rw [addRr_limit udp] at hadd
      obtain ⟨ans', hadd', heq⟩ := Option.map_eq_some_iff.mp hadd
      split_ifs at heq
      · subst heq
        exact ⟨h.bytes, h.qdcount, h.ancount, h.nscount⟩
      · subst heq
        obtain ⟨w, rdata, hbytes, -⟩ := addRr_bytes hadd'
        refine ⟨h.bytes.trans ?_, h.qdcount, ?_, ?_⟩
        · rw [hbytes]
          exact List.prefix_append _ _
        · exact (countOf_addRr hadd' .answer).trans h.ancount
        · exact (countOf_addRr hadd' .authority).trans h.nscount
  | opt rcode =>
      cases hop
      exact ⟨h.bytes.trans (List.prefix_append _ _), h.qdcount, h.ancount, h.nscount⟩
  | question q => exact absurd hpre.2.2 (by decide)
  | resolve => cases hop; exact ⟨h.bytes, h.qdcount, h.ancount, h.nscount⟩
  | lookup => cases hop; exact ⟨h.bytes, h.qdcount, h.ancount, h.nscount⟩
  | localOwner => cases hop; exact ⟨h.bytes, h.qdcount, h.ancount, h.nscount⟩
  | random => cases hop; exact ⟨h.bytes, h.qdcount, h.ancount, h.nscount⟩
  | room => cases hop; exact h

/-- The lists of the additional section leave the other ones as they were. -/
theorem section_noteOp {σ : Type} {srv : Services σ} {β : Type} (op : AnswerOp β)
    {t : σ × Contents} {x : Phase} (hpre : (composing fun sect => sect = some .additional).pre op x)
    {sect : RrSection} (hsect : sect ≠ .additional) :
    (noteOp srv op t).2.2.questions = t.2.questions ∧
      (noteOp srv op t).2.2.section sect = t.2.section sect := by
  have hconcat : ∀ item, Contents.section
      { t.2 with kept := t.2.kept ++ [(RrSection.additional, item)] } sect = t.2.section sect := by
    intro item
    rw [Contents.section, Contents.section, List.filter_append, List.map_append]
    simp [Ne.symm hsect]
  cases op with
  | rr sect' r =>
      obtain rfl : sect' = .additional := Option.some.inj hpre.2.2
      exact ⟨rfl, hconcat _⟩
  | opt rcode => exact ⟨rfl, hconcat _⟩
  | question q => exact absurd hpre.2.2 (by decide)
  | resolve => exact ⟨rfl, rfl⟩
  | lookup => exact ⟨rfl, rfl⟩
  | localOwner => exact ⟨rfl, rfl⟩
  | random => exact ⟨rfl, rfl⟩
  | room => exact ⟨rfl, rfl⟩

section Datagrams

variable {σ : Type} {srv : Services σ} {cfg : ServerConfig} {queryts : Int} {hdr : Header}
  {edns : Bool} {ql : List Question} {limit : Nat}

theorem services_post {allowed : Option RrSection → Prop} (hsrv : srv.Sound) {β : Type}
    (op : AnswerOp β)
    (t : σ × Contents) : (composing allowed).post op (noteOp srv op t).1 := by
  cases op with
  | resolve qname qtype =>
      rw [noteOp]
      cases hfound : (srv.resolve qname qtype t.1).1 with
      | error e => trivial
      | ok c => exact hsrv.resolve _ _ _ c hfound
  | lookup name =>
      rw [noteOp]
      cases hfound : (srv.lookup name t.1).1 with
      | none => trivial
      | some c => exact hsrv.lookup _ _ c hfound
  | localOwner => trivial
  | random => trivial
  | question => trivial
  | rr => trivial
  | opt => trivial
  | room => trivial

/-- The lists of the additional section of an answer. -/
theorem front_contents (hsrv : srv.Sound) {o : Outcome} {x : Phase} (ho : FrontSound o x)
    (t : σ × Contents) {sect : RrSection} (hsect : sect ≠ .additional) :
    ((composeRest cfg.rndRecs queryts edns o).eval (noteOp srv) t).2.2.questions =
        t.2.questions ∧
      ((composeRest cfg.rndRecs queryts edns o).eval (noteOp srv) t).2.2.section sect =
        t.2.section sect := by
  obtain ⟨-, -, hend⟩ :=
    (@composeRest_ensures (fun sect => sect = some .additional) cfg.rndRecs queryts
    x edns rfl o ho).eval
    (g := noteOp srv) (I := fun t' _ => t'.2.questions = t.2.questions ∧
      t'.2.section sect = t.2.section sect)
    (fun op t' x' hI hpre => ⟨services_post hsrv op t', by
      obtain ⟨hquestions, hsame⟩ := @section_noteOp σ srv _ op t' x' hpre sect hsect
      exact ⟨hquestions.trans hI.1, hsame.trans hI.2⟩⟩) ⟨rfl, rfl⟩
  exact hend

theorem services_run {allowed : Option RrSection → Prop} (hsrv : srv.Sound) {udpbufsize : Nat}
    {udp : Option Nat} {β : Type} (op : AnswerOp β) {s s' : Making σ} {b : β}
    (hop : makeOp srv udpbufsize udp op s = some (b, s')) : (composing allowed).post op b := by
  cases op with
  | resolve qname qtype =>
      cases hop
      exact services_post hsrv (.resolve qname qtype) (s.world, ⟨[], []⟩)
  | lookup name =>
      cases hop
      exact services_post hsrv (.lookup name) (s.world, ⟨[], []⟩)
  | localOwner => trivial
  | random => trivial
  | question => trivial
  | rr => trivial
  | opt => trivial
  | room => trivial

/-- What the part before the additional section settles. -/
def Outcome.result : Outcome → Option (Nat × Bool)
  | .goOn _ aa => some (rcOk, aa)
  | .finished rcode => some (rcode, false)
  | .failed => none

theorem composeRest_run {udp : Option Nat} {o : Outcome} {s s' : Making σ}
    {r : Option (Nat × Bool)}
    (hrun : (composeRest cfg.rndRecs queryts edns o).run (makeOp srv cfg.udpbufsize udp) s =
      some (r, s')) : r = o.result := by
  cases o with
  | failed => cases hrun; rfl
  | finished rcode => cases hrun; rfl
  | goOn l aa =>
      rw [composeRest, Prog.run_bind] at hrun
      obtain ⟨⟨room, s₁⟩, -, hrun⟩ := Option.bind_eq_some_iff.mp hrun
      simp only [Prog.run_bind] at hrun
      obtain ⟨x, -, hdone⟩ := Option.bind_eq_some_iff.mp hrun
      exact (congrArg Prod.fst (Option.some.inj hdone)).symm

theorem composeRest_eval {o : Outcome} (t : σ × Contents) :
    ((composeRest cfg.rndRecs queryts edns o).eval (noteOp srv) t).1 = o.result := by
  cases o with
  | failed => rfl
  | finished rcode => rfl
  | goOn l aa =>
      rw [composeRest, Prog.eval_bind, Prog.eval_bind]
      rfl

theorem FrontSound.rcode {o : Outcome} {x : Phase} {rcode : Nat} {aa : Bool}
    (ho : FrontSound o x) (hresult : o.result = some (rcode, aa)) :
    ∀ n, x.opt = some n → rcode = n := by
  cases o with
  | failed => cases hresult
  | finished rc =>
      cases hresult
      exact ho
  | goOn l aa =>
      intro n hn
      rw [ho.2.2] at hn
      cases hn

/-- An answer before it is cut, with the bit `tc` or without. -/
theorem datagram_front (hsrv : srv.Sound) (hql : ∀ q ∈ ql, q.qname.Valid) {w w' : σ}
    {msg : List UInt8} {rcode : Nat}
    (hmake : makeAnswer srv cfg queryts hdr edns ql (some limit) w = some (some (msg, rcode), w'))
    (hlen : msg.length ≤ 65535) :
    ∃ aa qdcount ans body, (answerContents srv cfg queryts hdr edns ql w).1 = some (rcode, aa) ∧
      msg = (answerHeader hdr rcode aa qdcount ans).bytes ++ body ∧
      ∀ tc, ShowsAll (((answerHeader hdr rcode aa qdcount ans).withTc tc).bytes ++ body)
        (answerContents srv cfg queryts hdr edns ql w).2.2 := by
  obtain ⟨⟨r, s'⟩, hrun, heq⟩ := Option.map_eq_some_iff.mp hmake
  rw [composeAnswer, Prog.run_bind] at hrun
  obtain ⟨⟨o, s₁⟩, hfront, hrest⟩ := Option.bind_eq_some_iff.mp hrun
  -- up to the additional section the limit makes no difference
  obtain ⟨hsame, x, ho, htracks⟩ :=
    (@composeFront_ensures (fun sect => sect ≠ some .additional) cfg.rndRecs queryts hdr.rd edns
      (by decide) (by decide) (by decide) ql hql).follows
      (g := noteOp srv) (J := Tracks)
      (fun op s t x b s' h hpre hop =>
        tracks_op hsrv op h hpre ((makeOp_front srv cfg.udpbufsize (some limit) op s hpre) ▸ hop))
      (tracks_start w) hfront
  obtain ⟨-, -, hgrown⟩ :=
    (@composeRest_ensures (fun sect => sect = some .additional) cfg.rndRecs queryts
      x edns rfl o ho).run
      (I := fun s _ => Grown s₁ s)
      (fun op s x b s' hI hpre hop => ⟨services_run hsrv op hop, grown_op op hpre hI hop⟩)
      ⟨List.prefix_refl _, rfl, rfl, rfl⟩ hrest
  obtain rfl := composeRest_run hrest
  obtain ⟨⟨⟨rcode', aa⟩, hresult, hmsg⟩, hworld⟩ :
      (∃ y, o.result = some y ∧ ((answerHeader hdr y.1 y.2 s'.qdcount s'.ans).bytes ++
        s'.ans.bytes.drop 12, y.1) = (msg, rcode)) ∧ s'.world = w' :=
    ⟨Option.map_eq_some_iff.mp (congrArg Prod.fst heq), congrArg Prod.snd heq⟩
  obtain ⟨rfl, rfl⟩ := Prod.mk.inj hmsg
  set t₁ := ((composeFront cfg.rndRecs queryts hdr.rd edns ql).eval (noteOp srv)
    (w, ⟨[], []⟩)).2 with ht₁
  have hcontents : answerContents srv cfg queryts hdr edns ql w =
      (composeRest cfg.rndRecs queryts edns o).eval (noteOp srv) t₁ := by
    rw [answerContents, composeAnswer, Prog.eval_bind, hsame]
  obtain ⟨rest, hrest⟩ := hgrown.bytes
  simp only [List.length_append, length_headerBytes, List.length_drop] at hlen
  have hlonger := congrArg List.length hrest
  rw [List.length_append] at hlonger
  obtain ⟨-, hqd, ⟨done, bs, hwritten⟩, -, hopts⟩ := htracks.small (by omega)
  have hhdr := hwritten.length
  have hbody : s'.ans.bytes.drop 12 = s₁.ans.bytes.drop 12 ++ rest := by
    rw [← hrest, List.drop_append_of_le_length (by omega)]
  refine ⟨aa, s'.qdcount, s'.ans, s'.ans.bytes.drop 12, ?_, rfl, fun tc => ?_⟩
  · rw [hcontents, composeRest_eval, hresult]
  · obtain ⟨-, hqd', han', hns', p₁, p₂, p₃, hquestions, hanswer, hauthority, -⟩ :=
      hwritten.parts (by omega)
        (show ((answerHeader hdr rcode' aa s'.qdcount s'.ans).withTc tc).qdcount =
            UInt16.ofNat _ by simp only [Header.withTc, answerHeader, hgrown.qdcount, hqd])
        (by simp only [Header.withTc, answerHeader, hgrown.ancount])
        (by simp only [Header.withTc, answerHeader, hgrown.nscount])
        (fun y hy n hn => by
          obtain ⟨hx, hsmall⟩ := hopts y hy n hn
          simp only [Header.withTc, answerHeader, ho.rcode hresult n hx]
          exact Nat.mod_eq_of_lt hsmall) rest rfl
    have hsections := fun sect => @front_contents σ srv cfg queryts edns hsrv o x ho t₁ sect
    rw [hbody, hcontents]
    refine ⟨?_, ?_, ?_, p₁, p₂, p₃, ?_, ?_, ?_⟩
    · rw [(hsections .answer (by decide)).1]
      exact hqd'
    · rw [(hsections .answer (by decide)).2]
      exact han'
    · rw [(hsections .authority (by decide)).2]
      exact hns'
    · rw [(hsections .answer (by decide)).1]
      exact hquestions
    · rw [(hsections .answer (by decide)).2]
      exact hanswer
    · rw [(hsections .authority (by decide)).2]
      exact hauthority

/-- What is sent in a datagram. It is no longer than the limit, and says in the bit `tc` whether
it was cut. Whoever reads it finds the questions and the records of the answer and authority
sections, all of them or up to where it was cut. -/
theorem datagram_shows (hsrv : srv.Sound) (hql : ∀ q ∈ ql, q.qname.Valid) (hlimit : 12 ≤ limit)
    {w w' : σ} {msg : List UInt8} {rcode : Nat}
    (hmake : makeAnswer srv cfg queryts hdr edns ql (some limit) w = some (some (msg, rcode), w'))
    (hlen : msg.length ≤ 65535) :
    ∃ aa, (answerContents srv cfg queryts hdr edns ql w).1 = some (rcode, aa) ∧
      (cutReply limit msg).length ≤ limit ∧
      RepliesTo (cutReply limit msg) hdr rcode aa (decide (limit < msg.length)) ∧
      (msg.length ≤ limit → ShowsAll (cutReply limit msg)
        (answerContents srv cfg queryts hdr edns ql w).2.2) ∧
      Shows (cutReply limit msg) (answerContents srv cfg queryts hdr edns ql w).2.2 := by
  obtain ⟨aa, qdcount, ans, body, hresult, rfl, hshows⟩ := datagram_front hsrv hql hmake hlen
  set h := answerHeader hdr rcode aa qdcount ans with hh
  have hanswers : ∀ {reply tc}, StandsAt reply 0 (h.withTc tc).bytes →
      RepliesTo reply hdr rcode aa tc := fun hat => repliesTo_of_readsHeader (readsHeader hat)
  refine ⟨aa, hresult, ?_⟩
  by_cases hcut : limit < (h.bytes ++ body).length
  · have hset : setTc (h.bytes ++ body) = (h.withTc true).bytes ++ body := by
      rw [setTc, read_headerBytes, ← length_headerBytes h, List.drop_left]
    rw [cutReply, if_pos hcut, hset, decide_eq_true hcut]
    have hlength : ((h.withTc true).bytes ++ body).length = (h.bytes ++ body).length := rfl
    have hkept : (((h.withTc true).bytes ++ body).take limit).length = limit := by
      rw [List.length_take, hlength]
      omega
    refine ⟨hkept.le, hanswers ?_, fun hle => by omega, ?_⟩
    · rw [List.take_append, List.take_of_length_le (by rw [length_headerBytes]; exact hlimit)]
      exact standsAt_front _ _
    · have hall := hshows true
      rw [← List.take_append_drop limit ((h.withTc true).bytes ++ body)] at hall
      exact hall.cut (by rw [hkept]; exact hlimit)
  · rw [cutReply, if_neg hcut, decide_eq_false hcut]
    have hall := hshows false
    refine ⟨Nat.le_of_not_lt hcut, hanswers ?_, fun _ => hall, ?_⟩
    · exact standsAt_front (h.withTc false).bytes body
    · rw [← List.append_nil ((h.withTc false).bytes ++ body)] at hall
      exact hall.cut (by rw [List.length_append, length_headerBytes]; omega)

end Datagrams

theorem datagram_shows_cut :
    ∃ msg aa, makeAnswer oneAddress ⟨false, 1024⟩ 1060 servedHeader true servedQuestions
      (some 30) () =
        some (some (msg, 0), ()) ∧ RepliesTo (cutReply 30 msg) servedHeader 0 aa true ∧
      Shows (cutReply 30 msg)
        (answerContents oneAddress ⟨false, 1024⟩ 1060 servedHeader true servedQuestions
          ()).2.2 := by
  have hmake : makeAnswer oneAddress ⟨false, 1024⟩ 1060 servedHeader true servedQuestions
      (some 30) () = some (some ([18, 52, 129, 128, 0, 1, 0, 1, 0, 0, 0, 0, 1, 97, 0, 0, 1, 0, 1,
        192, 12, 0, 1, 0, 1, 0, 0, 0, 240, 0, 4, 127, 0, 0, 1], 0), ()) := by
    decide +kernel
  obtain ⟨aa, -, -, hanswers, -, hshows⟩ := datagram_shows oneAddress_sound
    (by simp [servedQuestions, servedName_valid]) (by decide) hmake (by decide)
  exact ⟨_, aa, hmake, hanswers, hshows⟩

end TorAndroid.Dns
