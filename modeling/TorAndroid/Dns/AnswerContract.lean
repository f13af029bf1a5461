import TorAndroid.Dns.AnswerContents

namespace TorAndroid.Dns

open TorAndroid.Lib.Interaction

/-- An entry as the replies of servers make it: all its data can be put into a message. -/
structure Cent.Encodable (c : Cent) : Prop where
  qname : c.qname.Valid
  data : ∀ tp rrset, c.getrrset tp = some rrset → ∀ d ∈ rrset.rrs, Producible tp d

/-- How far a message is: the section that was added to last, counted from 1, and the return
code in the `OPT` pseudo record. -/
structure Phase where
  rank : Nat
  opt : Option Nat

/-- The parts of a message that a program may add to are the questions, which have no section, and
sections. `room` belongs to the additional section. -/
def composing (allowed : Option RrSection → Prop) : Contract AnswerOp Phase where
  pre := fun {_} op x =>
    match op with
    | .question q => q.qname.Valid ∧ x.rank = 0 ∧ allowed none
    | .rr sect r => r.Storable ∧ x.rank ≤ sect.rank + 1 ∧ allowed (some sect)
    | .opt rcode => rcode < 16 ∧ x.opt = none
    | .room => allowed (some .additional)
    | _ => True
  post := fun {_} op b =>
    match op, b with
    | .resolve _ _, .ok c => c.Encodable
    | .lookup _, some c => c.Encodable
    | _, _ => True
  next := fun {_} op _ x =>
    match op with
    | .rr sect _ => { x with rank := sect.rank + 1 }
    | .opt rcode => ⟨3, some rcode⟩
    | _ => x

section Data

theorem Shaped.of_bytes {n : Nat} {fs : List Field} {data : List UInt8}
    (h : Shaped (.bytes n :: fs) data) :
    ∃ bs d, data = bs ++ d ∧ bs.length = n ∧ Shaped fs d := by
  generalize hfields : Field.bytes n :: fs = all at h
  cases h with
  | @bytes fs' bs d hd =>
      cases hfields
      exact ⟨bs, d, rfl, rfl, hd⟩
  | nil => cases hfields
  | name => cases hfields
  | texts => cases hfields
  | rest => cases hfields

theorem Shaped.of_name {fs : List Field} {data : List UInt8} (h : Shaped (.name :: fs) data) :
    ∃ (n : Name) (d : List UInt8), data = n.wire ++ d ∧ n.Valid := by
  cases h with
  | @name _ n d hn => exact ⟨n, d, rfl, hn⟩

theorem Producible.shaped {tp : Nat} {data : List UInt8} (h : Producible tp data) {fs : List Field}
    (hfields : fieldsOf tp = some fs) : Shaped fs data := by
  obtain ⟨msg, p, n, hin, -, hread⟩ := h
  exact (fields_of_readRdata hfields hin hread).1

/-- The name at the beginning of the data. -/
theorem Producible.name_valid {tp : Nat} {data : List UInt8} (h : Producible tp data)
    {fs : List Field} (hfields : fieldsOf tp = some (.name :: fs)) :
    (Name.ofWire data).Valid := by
  obtain ⟨n, d, rfl, hn⟩ := (h.shaped hfields).of_name
  rwa [Name.ofWire_wire_append]

/-- The name behind a number or more of them. -/
theorem Producible.drop_valid {tp n : Nat} {data : List UInt8} (h : Producible tp data)
    {fs : List Field} (hfields : fieldsOf tp = some (.bytes n :: .name :: fs)) :
    (Name.ofWire (data.drop n)).Valid := by
  obtain ⟨bs, d, rfl, rfl, hd⟩ := (h.shaped hfields).of_bytes
  obtain ⟨name, rest, rfl, hname⟩ := hd.of_name
  rwa [List.drop_left, Name.ofWire_wire_append]

theorem Producible.server_valid {tp offs : Nat} {data : List UInt8} (h : Producible tp data)
    (hoffs : arOffs tp = some offs) : (Name.ofWire (data.drop offs)).Valid := by
  have hcases : (tp, offs) ∈ [(2, 0), (3, 0), (4, 0), (7, 0), (15, 2), (33, 6)] := by
    rw [arOffs] at hoffs
    obtain ⟨l₁, l₂, heq, -⟩ := List.lookup_eq_some_iff.mp hoffs
    rw [heq]
    exact List.mem_append_right _ List.mem_cons_self
  simp only [List.mem_cons, Prod.mk.injEq, List.not_mem_nil, or_false] at hcases
  rcases hcases with ⟨rfl, rfl⟩ | ⟨rfl, rfl⟩ | ⟨rfl, rfl⟩ | ⟨rfl, rfl⟩ | ⟨rfl, rfl⟩ | ⟨rfl, rfl⟩
  · exact h.name_valid rfl
  · exact h.name_valid rfl
  · exact h.name_valid rfl
  · exact h.name_valid rfl
  · exact h.drop_valid rfl
  · exact h.drop_valid rfl

theorem slot_of_getrrset {c : Cent} {tp : Nat} {rrset : RrSet} (h : c.getrrset tp = some rrset) :
    (slotOf tp).isSome := by
  obtain ⟨i, hi, -⟩ := Option.bind_eq_some_iff.mp h
  rw [hi]
  rfl

theorem ansTtl_lt (rrset : RrSet) (queryts : Int) : ansTtl rrset queryts < 2 ^ 32 := by
  rw [ansTtl]
  generalize (if rrset.flags.isLocal then rrset.ttl
    else max (rrset.ttl - max (queryts - rrset.ts) 0) 0) = ttl
  have hnonneg := Int.emod_nonneg ttl (show (2 ^ 32 : Int) ≠ 0 by decide)
  have hlt := Int.emod_lt_of_pos ttl (show (0 : Int) < 2 ^ 32 by decide)
  omega

theorem Cent.Encodable.storable {c : Cent} (h : c.Encodable) {tp : Nat} {rrset : RrSet}
    (hrrset : c.getrrset tp = some rrset) {owner : Name} (howner : owner.Valid) (queryts : Int)
    {data : List UInt8} (hdata : data ∈ rrset.rrs) :
    Record.Storable ⟨owner, tp, ansTtl rrset queryts, data⟩ where
  owner := howner
  slot := slot_of_getrrset hrrset
  ttl := ansTtl_lt rrset queryts
  data := h.data tp rrset hrrset data hdata

theorem positiveRrset_eq_some {c : Cent} {tp : Nat} {rrset : RrSet}
    (h : positiveRrset c tp = some rrset) : c.getrrset tp = some rrset :=
  (Option.filter_eq_some_iff.mp h).1

end Data

/-- An element of `ar` from which an answer can be made. -/
structure RrExt.Sound (e : RrExt) : Prop where
  record : e.tp = tNS ∨ e.tp = tSOA → Record.Storable ⟨e.nm, e.tp, e.ttl, e.tnm⟩
  server : e.tp = tNS ∨ e.tp = rretpAdd → (Name.ofWire e.tnm).Valid

def AnswerLists.Sound (l : AnswerLists) : Prop :=
  ∀ e ∈ l.ar, e.Sound

section Programs

variable {allowed : Option RrSection → Prop} {rndRecs : Bool} {queryts : Int} {x : Phase}

theorem randrr_ensures (rrs : List (List UInt8)) :
    Ensures (composing allowed) (fun rrs' y => (∀ d ∈ rrs', d ∈ rrs) ∧ y = x)
      (randrr rndRecs rrs) x := by
  rw [randrr]
  split_ifs
  · refine ⟨trivial, fun n _ => ⟨fun d hd => ?_, rfl⟩⟩
    rcases List.mem_append.mp hd with hd | hd
    · exact List.mem_of_mem_drop hd
    · exact List.mem_of_mem_take hd
  · exact ensures_pure ⟨fun d hd => hd, rfl⟩

/-- The loops over record sets, which only differ in what they do with a record. -/
theorem rrset_ensures {α : Type} {I : α → Phase → Prop} {rrs : List (List UInt8)}
    {f : α → List UInt8 → Composing α}
    (hstep : ∀ d ∈ rrs, ∀ a y, I a y → Ensures (composing allowed) I (f a d) y) {a : α}
    (hstart : I a x) :
    Ensures (composing allowed) I (randrr rndRecs rrs >>= fun rrs => rrs.foldlM f a) x := by
  refine (randrr_ensures rrs).bind ?_
  rintro rrs' y ⟨hsub, rfl⟩
  refine (ensures_foldlM (I := fun ds a y => (∀ d ∈ ds, d ∈ rrs) ∧ I a y) ?_
    ⟨hsub, hstart⟩).weaken fun a y h => h.2
  rintro d ds a y ⟨hds, hI⟩
  rw [List.forall_mem_cons] at hds
  exact (hstep d hds.1 a y hI).weaken fun a y h => ⟨hds.2, h⟩

/-- What holds while the answer section is made. -/
def Answering (l : AnswerLists) (x : Phase) : Prop :=
  l.Sound ∧ x.rank ≤ 1 ∧ x.opt = none

theorem addRrset_ensures (ha : allowed (some .answer)) {c : Cent} (hc : c.Encodable) {rrn : Name}
    (hrrn : rrn.Valid) (tp : Nat)
    {l : AnswerLists} (h : Answering l x) :
    Ensures (composing allowed) Answering (addRrset rndRecs queryts rrn tp c l) x := by
  rw [addRrset]
  cases hrrset : c.getrrset tp with
  | none => exact ensures_pure h
  | some rrset =>
      refine rrset_ensures (fun d hd l y hl => ?_) h
      refine ⟨⟨hc.storable hrrset hrrn queryts hd, hl.2.1, ha⟩, fun _ _ => ⟨?_, le_rfl, hl.2.2⟩⟩
      simp only [AnswerLists.Sound]
      cases hoffs : arOffs tp with
      | none => exact hl.1
      | some offs =>
          rw [Option.elim_some, List.forall_mem_append, List.forall_mem_singleton]
          refine ⟨hl.1, fun hrec => ?_, fun _ => ?_⟩
          · rcases hrec with hrec | hrec <;> cases hrec
          · exact (hc.data tp rrset hrrset d hd).server_valid hoffs

/-- A type of question that gets an answer. -/
def Supported (qtype : Nat) : Prop :=
  (slotOf qtype).isSome ∨ qtype = qtMailB ∨ qtype = qtMailA ∨ qtype = qtAll

theorem slot_bounds {tp : Nat} (h : (slotOf tp).isSome) : 1 ≤ tp ∧ tp ≤ 51 := by
  have hlen : rrlkuptab.length = 51 := rfl
  have hpos : tp ≠ 0 := by
    rintro rfl
    cases h
  refine ⟨Nat.pos_of_ne_zero hpos, Nat.le_of_not_lt fun hlt => ?_⟩
  rw [slotOf, if_neg hpos, List.getElem?_eq_none (by omega)] at h
  cases h

theorem responseTypes_isSome {qtype : Nat} (h : Supported qtype) (c : Cent) :
    ∃ tps, responseTypes qtype c = some tps := by
  rcases h with h | rfl | rfl | rfl
  · obtain ⟨hmin, hmax⟩ := slot_bounds h
    have hsmall : ∀ n, 51 < n → qtype ≠ n := fun n hn => by omega
    rw [responseTypes, if_neg (not_or.mpr ⟨hsmall _ (by decide), hsmall _ (by decide)⟩),
      if_neg (hsmall _ (by decide)), if_neg (hsmall _ (by decide)), if_neg (hsmall _ (by decide)),
      if_pos ⟨hmin, hmax⟩]
    exact ⟨_, rfl⟩
  · exact ⟨_, rfl⟩
  · exact ⟨_, rfl⟩
  · exact ⟨_, rfl⟩

theorem addToResponse_ensures (ha : allowed (some .answer)) {c : Cent} (hc : c.Encodable)
    {rrn : Name} (hrrn : rrn.Valid) {qtype : Nat} (hq : Supported qtype) {l : AnswerLists}
    (h : Answering l x) :
    Ensures (composing allowed) (fun l y => ∃ l', l = some l' ∧ Answering l' y)
      (addToResponse rndRecs queryts rrn qtype c l) x := by
  obtain ⟨tps, htps⟩ := responseTypes_isSome hq c
  rw [addToResponse, htps]
  refine Ensures.bind (Q := Answering) ?_ fun l' y hl => ensures_pure ⟨l', rfl, hl⟩
  exact ensures_foldlM (I := fun _ => Answering)
    (fun tp _ l y hl => addRrset_ensures ha hc hrrn tp hl) h

/-- The outcome of the loop over the questions. -/
def OutcomeSound (o : Outcome) (x : Phase) : Prop :=
  match o with
  | .goOn l _ => Answering l x
  | .finished rcode => ∀ n, x.opt = some n → rcode = n
  | .failed => False

theorem addSoa_ensures (hu : allowed (some .authority)) (qname : Name) (cSoa : UInt8)
    (hrank : x.rank ≤ 1) (hopt : x.opt = none) :
    Ensures (composing allowed) (fun _ y => y.opt = none) (addSoa queryts qname cSoa) x := by
  rw [addSoa]
  split_ifs
  · refine ensures_ask_bind trivial fun found hfound => ?_
    cases found with
    | none => exact ensures_pure hopt
    | some c =>
        have hc : c.Encodable := hfound
        simp only
        cases hrrset : positiveRrset c tSOA with
        | none => exact ensures_pure hopt
        | some rrset =>
            refine (ensures_foldlM (I := fun (ds : List (List UInt8)) _ (y : Phase) =>
              (∀ d ∈ ds, d ∈ rrset.rrs) ∧ y.rank ≤ 2 ∧ y.opt = none) ?_
              ⟨fun d hd => hd, Nat.le_succ_of_le hrank, hopt⟩).weaken fun _ y h => h.2.2
            rintro d ds - y ⟨hds, hrank, hopt⟩
            rw [List.forall_mem_cons] at hds
            exact ⟨⟨hc.storable (positiveRrset_eq_some hrrset) hc.qname queryts hds.1, hrank, hu⟩,
              fun _ _ => ⟨hds.2, le_rfl, hopt⟩⟩
  · exact ensures_pure hopt

theorem outcomeSound_finished {rc : Nat} {y : Phase} (hopt : y.opt = none) :
    OutcomeSound (.finished rc) y := by
  intro n hn
  rw [hopt] at hn
  cases hn

theorem resolveFailed_ensures (hu : allowed (some .authority)) (edns : Bool) (qname : Name)
    (rc : Nat) (cSoa : UInt8)
    (hrank : x.rank ≤ 1) (hopt : x.opt = none) :
    Ensures (composing allowed) OutcomeSound (resolveFailed queryts edns qname rc cSoa) x := by
  have hsoa : Ensures (composing allowed) (fun _ y => y.opt = none)
      (addSoa queryts qname cSoa) x := addSoa_ensures hu qname cSoa hrank hopt
  rw [resolveFailed]
  split_ifs with hrc
  · refine hsoa.bind fun _ y hy => ensures_ask_bind ⟨by rw [hrc]; decide, hy⟩ fun _ _ => ?_
    exact ensures_pure fun n hn => Option.some.inj hn
  · exact hsoa.bind fun _ y hy => ensures_pure (outcomeSound_finished hy)
  · exact ensures_pure (outcomeSound_finished hopt)

theorem authoritySet_ensures (rretp : Nat) {prev : Cent} (hprev : prev.Encodable) :
    Ensures (composing allowed) (fun found y => y = x ∧ ∀ c rrset, found = some (c, rrset) →
      c.Encodable ∧ c.getrrset rretp = some rrset) (authoritySet rretp prev) x := by
  rw [authoritySet]
  cases hown : positiveRrset prev rretp with
  | some rrset =>
      refine ensures_pure ⟨rfl, fun c r h => ?_⟩
      cases h
      exact ⟨hprev, positiveRrset_eq_some hown⟩
  | none =>
      refine ensures_ask_bind trivial fun found hfound => ?_
      cases habove : found.bind fun c => (positiveRrset c rretp).map fun rrset => (c, rrset) with
      | some found' =>
          refine ensures_pure ⟨rfl, fun c r h => ?_⟩
          obtain ⟨c', rfl, hc'⟩ := Option.bind_eq_some_iff.mp habove
          obtain ⟨r', hr', hpair⟩ := Option.map_eq_some_iff.mp hc'
          cases hpair
          cases h
          exact ⟨hfound, positiveRrset_eq_some hr'⟩
      | none =>
          split_ifs
          · refine ensures_ask_bind trivial fun owner _ => ?_
            cases owner with
            | none => exact ensures_pure ⟨rfl, fun c r h => by cases h⟩
            | some nm =>
                refine ensures_ask_bind trivial fun found hfound =>
                  ensures_pure ⟨rfl, fun c r h => ?_⟩
                obtain ⟨c', rfl, hc'⟩ := Option.bind_eq_some_iff.mp h
                obtain ⟨r', hr', hpair⟩ := Option.map_eq_some_iff.mp hc'
                cases hpair
                exact ⟨hfound, hr'⟩
          · exact ensures_pure ⟨rfl, fun c r h => by cases h⟩

theorem noteAuthority_ensures (qtype : Nat) {c : Cent} (hc : c.Encodable) {l : AnswerLists}
    (h : Answering l x) : Ensures (composing allowed) Answering
      (noteAuthority queryts qtype c l) x := by
  rw [noteAuthority]
  generalize hrretp : (if nothingFound qtype c = true then tSOA else tNS) = rretp
  refine (authoritySet_ensures rretp hc).bind ?_
  rintro found y ⟨rfl, hfound⟩
  cases found with
  | none => exact ensures_pure h
  | some found =>
      obtain ⟨hc', hrrset⟩ := hfound _ _ rfl
      refine ensures_pure ⟨?_, h.2⟩
      simp only [AnswerLists.Sound, List.forall_mem_append, List.forall_mem_map]
      refine ⟨h.1, fun d hd => ⟨fun _ => hc'.storable hrrset hc'.qname queryts hd, ?_⟩⟩
      rintro (htp | htp)
      · have htp : rretp = tNS := htp
        subst htp
        exact (hc'.data _ _ hrrset d hd).name_valid rfl
      · have htp : rretp = rretpAdd := htp
        rw [← hrretp] at htp
        split_ifs at htp <;> cases htp

variable {rd edns : Bool} {qtype : Nat}

theorem followCnameChain_valid {c : Cent} (hc : c.Encodable) {target : Name}
    (h : followCnameChain c = some target) : target.Valid := by
  obtain ⟨rrset, hrrset, htarget⟩ := Option.bind_eq_some_iff.mp h
  obtain ⟨d, hd, rfl⟩ := Option.map_eq_some_iff.mp htarget
  exact (hc.data _ _ hrrset d (List.mem_of_head? hd)).name_valid rfl

theorem answerTurn_ensures (ha : allowed (some .answer)) (hu : allowed (some .authority))
    (hq : Supported qtype)
    {again : Name → AnswerLists → Bool → Composing Outcome}
    (hagain : ∀ target l aa y, target.Valid → Answering l y →
      Ensures (composing allowed) OutcomeSound (again target l aa) y)
    {qname : Name} (hqname : qname.Valid) {l : AnswerLists} (aa : Bool) (h : Answering l x) :
    Ensures (composing allowed) OutcomeSound
      (answerTurn rndRecs queryts rd edns qtype again qname l aa) x := by
  refine ensures_ask_bind trivial fun found hfound => ?_
  cases found with
  | error e => exact resolveFailed_ensures hu edns qname e.1 e.2 h.2.1 h.2.2
  | ok c =>
      have hc : c.Encodable := hfound
      refine (addToResponse_ensures ha hc hqname hq h).bind ?_
      rintro - y ⟨l', rfl, hl'⟩
      simp only
      split
      · next target htarget =>
          refine hagain _ _ _ _ ?_ hl'
          split_ifs at htarget
          exact followCnameChain_valid hc htarget
      · exact (noteAuthority_ensures qtype hc hl').bind fun l'' z hl'' => ensures_pure hl''

theorem answerChain_ensures (ha : allowed (some .answer)) (hu : allowed (some .authority))
    (hq : Supported qtype) (hops : Nat) {qname : Name}
    (hqname : qname.Valid) {l : AnswerLists} (aa : Bool) (h : Answering l x) :
    Ensures (composing allowed) OutcomeSound
      (answerChain rndRecs queryts rd edns qtype hops qname l aa) x := by
  induction hops generalizing qname l aa x with
  | zero =>
      refine answerTurn_ensures ha hu hq (fun _ l aa _ _ hl => ?_) hqname aa h
      exact ensures_pure (show OutcomeSound (.goOn l aa) _ from hl)
  | succ hops ih =>
      exact answerTurn_ensures ha hu hq (fun _ _ aa _ htarget hl => ih htarget aa hl) hqname aa h

theorem answerQuestions_ensures (ha : allowed (some .answer)) (hu : allowed (some .authority))
    {ql : List Question}
    (hql : ∀ q ∈ ql, q.qname.Valid ∧ Supported q.qtype.toNat) {l : AnswerLists} (aa : Bool)
    (h : Answering l x) :
    Ensures (composing allowed) OutcomeSound
      (answerQuestions rndRecs queryts rd edns ql l aa) x := by
  induction ql generalizing l aa x with
  | nil => exact ensures_pure h
  | cons q ql ih =>
      rw [List.forall_mem_cons] at hql
      refine (answerChain_ensures ha hu hql.1.2 maxHops hql.1.1 aa h).bind fun o y ho => ?_
      cases o with
      | goOn l aa => exact ih hql.2 aa ho
      | finished rcode => exact ensures_pure ho
      | failed => exact ho.elim

theorem addAdditionalRr_ensures {rhn : Name} {tp ttl : Nat} {sect : RrSection} {sva : List Sva}
    {data : List UInt8} (hr : Record.Storable ⟨rhn, tp, ttl, data⟩)
    (hrank : x.rank ≤ sect.rank + 1)
    (hsect : allowed (some sect)) :
    Ensures (composing allowed) (fun _ y => y.rank ≤ sect.rank + 1 ∧ y.opt = x.opt)
      (addAdditionalRr rhn tp ttl sect sva data) x := by
  rw [addAdditionalRr]
  split_ifs
  · exact ensures_pure ⟨hrank, rfl⟩
  · exact ⟨⟨hr, hrank, hsect⟩, fun _ _ => ⟨le_rfl, rfl⟩⟩

theorem addAuthority_ensures (hu : allowed (some .authority)) {ar : List RrExt}
    (har : ∀ e ∈ ar, e.Sound) (sva : List Sva)
    (hrank : x.rank ≤ 1) (hopt : x.opt = none) :
    Ensures (composing allowed) (fun _ y => y.rank ≤ 3 ∧ y.opt = none) (addAuthority ar sva) x := by
  refine (ensures_foldlM (I := fun (ds : List RrExt) _ (y : Phase) => (∀ e ∈ ds, e.Sound) ∧
    y.rank ≤ 2 ∧ y.opt = none) ?_ ⟨har, Nat.le_succ_of_le hrank, hopt⟩).weaken
      fun _ y h => ⟨Nat.le_succ_of_le h.2.1, h.2.2⟩
  rintro e ds sva y ⟨hds, hrank, hopt⟩
  rw [List.forall_mem_cons] at hds
  split_ifs with htp
  · refine Ensures.weaken (addAdditionalRr_ensures (hds.1.record htp) hrank hu) ?_
    rintro - z ⟨hz, hzopt⟩
    exact ⟨hds.2, hz, hzopt.trans hopt⟩
  · exact ensures_pure ⟨hds.2, hrank, hopt⟩

theorem rank_le (sect : RrSection) : sect.rank + 1 ≤ 3 := by
  cases sect <;> decide

theorem addAdditionalRrs_ensures (hadd : allowed (some .additional)) {rhn : Name} (hrhn : rhn.Valid)
    (tp : Nat) {ae : Cent}
    (hae : ae.Encodable) (sva : List Sva) {opt : Option Nat} (hrank : x.rank ≤ 3)
    (hopt : x.opt = opt) :
    Ensures (composing allowed) (fun _ y => y.rank ≤ 3 ∧ y.opt = opt)
      (addAdditionalRrs rndRecs queryts rhn tp ae sva) x := by
  rw [addAdditionalRrs]
  cases hrrset : ae.getrrset tp with
  | none => exact ensures_pure ⟨hrank, hopt⟩
  | some rrset =>
      refine rrset_ensures (I := fun _ y => y.rank ≤ 3 ∧ y.opt = opt) ?_ ⟨hrank, hopt⟩
      rintro d hd sva y ⟨hrank, hopt⟩
      refine Ensures.weaken
        (addAdditionalRr_ensures (hae.storable hrrset hrhn queryts hd) hrank hadd) ?_
      rintro - z ⟨hz, hzopt⟩
      exact ⟨hz, hzopt.trans hopt⟩

theorem addAddresses_ensures (hadd : allowed (some .additional)) {ar : List RrExt}
    (har : ∀ e ∈ ar, e.Sound) (sva : List Sva)
    {opt : Option Nat} (hrank : x.rank ≤ 3) (hopt : x.opt = opt) :
    Ensures (composing allowed) (fun _ y => y.opt = opt)
      (addAddresses rndRecs queryts ar sva) x := by
  refine (ensures_foldlM (I := fun ds _ y => (∀ e ∈ ds, e.Sound) ∧ y.rank ≤ 3 ∧ y.opt = opt)
    ?_ ⟨har, hrank, hopt⟩).weaken fun _ y h => h.2.2
  rintro e ds sva y ⟨hds, hrank, hopt⟩
  rw [List.forall_mem_cons] at hds
  split_ifs with htp
  · refine ensures_ask_bind trivial fun found hfound => ?_
    cases found with
    | none => exact ensures_pure ⟨hds.2, hrank, hopt⟩
    | some ae =>
        have hae : ae.Encodable := hfound
        have hname := hds.1.server htp
        refine (addAdditionalRrs_ensures hadd hname tA hae sva hrank hopt).bind ?_
        rintro sva' z ⟨hz, hzopt⟩
        exact (addAdditionalRrs_ensures hadd hname tAAAA hae sva' hz hzopt).weaken
          fun _ _ h => ⟨hds.2, h⟩
  · exact ensures_pure ⟨hds.2, hrank, hopt⟩

theorem addAdditionalSection_ensures (hadd : allowed (some .additional)) {ar : List RrExt}
    (har : ∀ e ∈ ar, e.Sound)
    (sva : List Sva) (room : Bool) (hrank : x.rank ≤ 3) (hopt : x.opt = none) :
    Ensures (composing allowed) (fun _ y => ∀ n, y.opt = some n → rcOk = n)
      (addAdditionalSection rndRecs queryts edns ar sva room) x := by
  rw [addAdditionalSection]
  split_ifs
  · refine ensures_ask_bind ⟨by decide, hopt⟩ fun _ _ => ?_
    refine Ensures.bind (Q := fun _ y => y.opt = some rcOk)
      (addAddresses_ensures hadd har sva le_rfl
        (show Phase.opt ⟨3, some rcOk⟩ = some rcOk from rfl))
      fun _ y hy => ?_
    exact ensures_pure fun n hn => Option.some.inj (hy.symm.trans hn)
  · exact (addAddresses_ensures hadd har sva hrank hopt).bind fun _ y hy =>
      ensures_pure (outcomeSound_finished hy)
  · exact ensures_pure (outcomeSound_finished hopt)

theorem supported_of_any {ql : List Question} (h : ¬ql.any Question.unsupported = true) :
    ∀ q ∈ ql, Supported q.qtype.toNat := by
  intro q hq
  by_contra hnot
  rw [Supported, not_or, not_or, not_or] at hnot
  refine h (List.any_eq_true.mpr ⟨q, hq, ?_⟩)
  obtain ⟨hslot, hb, ha, hall⟩ := hnot
  rw [Question.unsupported]
  simp [hb, ha, hall, Option.not_isSome_iff_eq_none.mp hslot]

/-- What is known before the additional section. -/
def FrontSound (o : Outcome) (x : Phase) : Prop :=
  match o with
  | .goOn l _ => l.Sound ∧ x.rank ≤ 3 ∧ x.opt = none
  | .finished rcode => ∀ n, x.opt = some n → rcode = n
  | .failed => False

theorem askQuestions_ensures (hq : allowed none) {ql : List Question}
    (hql : ∀ q ∈ ql, q.qname.Valid) :
    Ensures (composing allowed) (fun _ y => y = ⟨0, none⟩)
      (ql.foldlM (fun _ qe => Prog.ask (AnswerOp.question qe)) ()) ⟨0, none⟩ := by
  refine (ensures_foldlM (I := fun qs _ y => (∀ q ∈ qs, q.qname.Valid) ∧ y = ⟨0, none⟩)
    ?_ ⟨hql, rfl⟩).weaken fun _ y h => h.2
  rintro q qs - y ⟨hqs, rfl⟩
  rw [List.forall_mem_cons] at hqs
  exact ⟨⟨hqs.1, rfl, hq⟩, fun _ _ => ⟨hqs.2, rfl⟩⟩

theorem composeSections_ensures (ha : allowed (some .answer)) (hu : allowed (some .authority))
    {ql : List Question} (hql : ∀ q ∈ ql, q.qname.Valid) :
    Ensures (composing allowed) FrontSound (composeSections rndRecs queryts rd edns ql)
      ⟨0, none⟩ := by
  rw [composeSections]
  split_ifs with hunsupported
  · exact ensures_pure (fun n hn => by cases hn)
  · have hsupported := supported_of_any hunsupported
    refine (answerQuestions_ensures ha hu (fun q hq => ⟨hql q hq, hsupported q hq⟩) true
      ⟨by simp [AnswerLists.Sound], Nat.zero_le _, rfl⟩).bind fun o y ho => ?_
    cases o with
    | failed => exact ho.elim
    | finished rcode => exact ensures_pure ho
    | goOn l aa =>
        exact (addAuthority_ensures hu ho.1 l.sva ho.2.1 ho.2.2).bind fun sva z hz =>
          ensures_pure ⟨ho.1, hz⟩

theorem composeFront_ensures (hq : allowed none) (ha : allowed (some .answer))
    (hu : allowed (some .authority)) {ql : List Question} (hql : ∀ q ∈ ql, q.qname.Valid) :
    Ensures (composing allowed) FrontSound (composeFront rndRecs queryts rd edns ql)
      ⟨0, none⟩ := by
  rw [composeFront]
  refine (askQuestions_ensures hq hql).bind ?_
  rintro - y rfl
  exact composeSections_ensures ha hu hql

theorem composeRest_ensures (hadd : allowed (some .additional)) {o : Outcome}
    (ho : FrontSound o x) :
    Ensures (composing allowed) (fun r y => ∃ rcode aa, r = some (rcode, aa) ∧
        ∀ n, y.opt = some n → rcode = n) (composeRest rndRecs queryts edns o) x := by
  cases o with
  | failed => exact ho.elim
  | finished rcode => exact ensures_pure ⟨rcode, false, rfl, ho⟩
  | goOn l aa =>
      refine ensures_ask_bind hadd fun room _ => ?_
      refine (addAdditionalSection_ensures hadd ho.1 l.sva room ho.2.1 ho.2.2).bind fun _ y hy => ?_
      exact ensures_pure ⟨rcOk, aa, rfl, hy⟩

/-- `compose_answer` always makes an answer, and the return code in its `OPT` pseudo record is
the one of the answer. -/
theorem composeAnswer_ensures {ql : List Question} (hql : ∀ q ∈ ql, q.qname.Valid) :
    Ensures (composing fun _ => True) (fun r y => ∃ rcode aa, r = some (rcode, aa) ∧
        ∀ n, y.opt = some n → rcode = n)
      (composeAnswer rndRecs queryts rd edns ql) ⟨0, none⟩ :=
  (composeFront_ensures trivial trivial trivial hql).bind fun _ _ ho =>
    composeRest_ensures trivial ho

end Programs

end TorAndroid.Dns
