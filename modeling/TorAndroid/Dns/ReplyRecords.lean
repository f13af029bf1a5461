import TorAndroid.Dns.DecompressionExact
import TorAndroid.Dns.Reply

namespace TorAndroid.Dns

open TorAndroid.Lib.DoublyLinked

section Storing

variable {c : Cent}

/-- The record set with index `i` holds a record with the data. -/
def Cent.Holds (c : Cent) (i : Slot) (data : List UInt8) : Prop :=
  ∃ r, c.rrset i = some r ∧ data ∈ r.rrs

/-- An entry that is being made of the records of a reply. -/
structure Cent.Gathering (c : Cent) : Prop where
  unlisted : c.Unlisted
  notLocal : c.flags.isLocal = false

theorem gathering_initCent (sz : Sizes) (qname : Name) (auth : Bool) :
    (initCent sz qname false 0 0 ⟨false, auth, false, false⟩).Gathering :=
  ⟨unlisted_initCent _ _ _ _ _, rfl⟩

theorem mem_withRr (ttl ts : Int) (flags : CFlags) (data data' : List UInt8) (s : Option RrSet) :
    data' ∈ (withRr ttl ts flags data s).rrs ↔ data' = data ∨ ∃ r, s = some r ∧ data' ∈ r.rrs := by
  cases s with
  | none => simp [withRr]
  | some s =>
      simp only [withRr, Option.some.injEq, exists_eq_left']
      by_cases hmem : data ∈ s.rrs
      · rw [if_pos hmem]
        exact ⟨Or.inr, fun h => h.elim (fun heq => heq ▸ hmem) id⟩
      · rw [if_neg hmem, List.mem_append, List.mem_singleton, or_comm]

theorem Cent.Gathering.addCentRr (sz : Sizes) (h : c.Gathering) (i : Slot) (ttl ts : Int)
    (flags : CFlags)
    (data : List UInt8) :
    ∃ d, (∀ l, addCentRr sz l c i ttl ts flags data = some (l, d)) ∧ d.flags = c.flags ∧
      d.qname = c.qname ∧
      d.rrset = Function.update c.rrset i (some (withRr ttl ts flags data (c.rrset i))) := by
  cases hr : c.rrset i with
  | none =>
      have hset := fun l => addCentRrsetByIndex_unlisted sz h.unlisted l i ttl ts flags
      refine ⟨appendRr sz (c.withRrset sz i ttl ts flags) i data, fun l => ?_,
        (modifyRrset_frame ..).2.2.2.1, (modifyRrset_frame ..).1, ?_⟩
      · simp only [Dns.addCentRr, h.notLocal, hr, hset]
        rfl
      · rw [rrset_appendRr, rrset_withRrset, Function.update_self, Function.update_idem]
        rfl
  | some s =>
      obtain ⟨e, s', he, hflags, hqname, hrrset, hs'⟩ : ∃ e s',
          e = (if ttl < s.ttl then c.modifyRrset i fun r => { r with ttl := ttl } else c) ∧
          e.flags = c.flags ∧ e.qname = c.qname ∧ e.rrset = Function.update c.rrset i (some s') ∧
          s' = { s with ttl := if ttl < s.ttl then ttl else s.ttl } := by
        split_ifs
        · exact ⟨_, { s with ttl := ttl }, rfl, (modifyRrset_frame ..).2.2.2.1,
            (modifyRrset_frame ..).1, by rw [rrset_modifyRrset, hr]; rfl, rfl⟩
        · exact ⟨_, s, rfl, rfl, rfl, by rw [← hr, Function.update_eq_self], rfl⟩
      by_cases hmem : data ∈ s.rrs
      · refine ⟨e, fun l => ?_, hflags, hqname, ?_⟩
        · simp [Dns.addCentRr, h.notLocal, hr, hmem, he]
        · simp only [hrrset, hs', withRr, if_pos hmem]
      · refine ⟨appendRr sz e i data, fun l => ?_, (modifyRrset_frame ..).2.2.2.1.trans hflags,
          (modifyRrset_frame ..).1.trans hqname, ?_⟩
        · simp [Dns.addCentRr, h.notLocal, hr, hmem, he]
        · rw [rrset_appendRr, hrrset, Function.update_self, Function.update_idem, hs']
          simp only [Option.map_some, withRr, if_neg hmem]

theorem Cent.Gathering.build (sz : Sizes) (h : c.Gathering) (i : Slot) (ttl ts : Int)
    (flags : CFlags)
    (data : List UInt8) :
    (c.build sz (.rr i ttl ts flags data)).Gathering ∧
      (c.build sz (.rr i ttl ts flags data)).qname = c.qname ∧
      (c.build sz (.rr i ttl ts flags data)).rrset =
        Function.update c.rrset i (some (withRr ttl ts flags data (c.rrset i))) := by
  obtain ⟨d, hadd, hflags, hqname, hrrset⟩ := h.addCentRr sz i ttl ts flags data
  obtain ⟨d', hrun, hunlisted, -⟩ := BuildOp.run_spec sz h.unlisted (.rr i ttl ts flags data)
  obtain rfl : d = d' := by simpa [BuildOp.run, hadd] using hrun DList.empty
  have hd : c.build sz (.rr i ttl ts flags data) = d := by
    simp [Cent.build, hrun]
  rw [hd]
  exact ⟨⟨hunlisted, hflags ▸ h.notLocal⟩, hqname, hrrset⟩

theorem Cent.Gathering.holds_build (sz : Sizes) (h : c.Gathering) (i : Slot) (ttl ts : Int)
    (flags : CFlags) (data : List UInt8) (j : Slot) (data' : List UInt8) :
    (c.build sz (.rr i ttl ts flags data)).Holds j data' ↔
      (j = i ∧ data' = data) ∨ c.Holds j data' := by
  obtain ⟨-, -, hrrset⟩ := h.build sz i ttl ts flags data
  simp only [Cent.Holds, hrrset]
  by_cases hj : j = i
  · subst hj
    simp [mem_withRr]
  · simp [hj]

/-- An entry of an array holds a record with the data. -/
def Stored (centa : List Cent) (i : Slot) (data : List UInt8) : Prop :=
  ∃ c ∈ centa, c.Holds i data

/-- A record comes to the one entry of its owner, or to a new one behind the others. -/
theorem rrToCache_cases (sz : Sizes) (flags : CFlags) (ts : Int) (r : Record) (i : Slot)
    (centa : List Cent) :
    (∃ pre c post, centa = pre ++ c :: post ∧ c.qname.fold = r.owner.fold ∧
        rrToCache sz flags ts r i centa =
          pre ++ c.build sz (.rr i r.ttl ts flags r.data) :: post) ∨
      (∀ c ∈ centa, c.qname.fold ≠ r.owner.fold) ∧ rrToCache sz flags ts r i centa =
        centa ++ [(initCent sz r.owner false 0 0 ⟨false, false, false, false⟩).build sz
          (.rr i r.ttl ts flags r.data)] := by
  induction centa with
  | nil => exact .inr ⟨by simp, rfl⟩
  | cons c centa ih =>
      rw [rrToCache]
      by_cases hsame : rhnicmp c.qname.wire r.owner.wire = true
      · rw [if_pos hsame]
        exact .inl ⟨[], c, centa, rfl, (rhnicmp_wire _ _).mp hsame, rfl⟩
      · rw [if_neg hsame]
        rw [rhnicmp_wire] at hsame
        rcases ih with ⟨pre, d, post, rfl, hd, heq⟩ | ⟨hnone, heq⟩
        · exact .inl ⟨c :: pre, d, post, rfl, hd, by rw [heq, List.cons_append]⟩
        · exact .inr ⟨List.forall_mem_cons.mpr ⟨hsame, hnone⟩, by rw [heq, List.cons_append]⟩

theorem rrToCache_spec (sz : Sizes) (flags : CFlags) (queryts : Int) (r : Record) (i : Slot)
    {centa : List Cent} (h : ∀ c ∈ centa, c.Gathering) :
    (∀ c ∈ rrToCache sz flags queryts r i centa, c.Gathering) ∧
      Stored (rrToCache sz flags queryts r i centa) i r.data ∧
      ∀ j data, Stored centa j data → Stored (rrToCache sz flags queryts r i centa) j data := by
  obtain ⟨pre, c, post, rfl, -, heq⟩ | ⟨-, heq⟩ := rrToCache_cases sz flags queryts r i centa
  · have hc := h c (by simp)
    obtain ⟨hgather, -, -⟩ := hc.build sz i r.ttl queryts flags r.data
    have hholds := hc.holds_build sz i r.ttl queryts flags r.data
    rw [heq]
    refine ⟨fun d hd => ?_, ⟨_, by simp, (hholds i r.data).mpr (.inl ⟨rfl, rfl⟩)⟩, ?_⟩
    · rcases List.mem_append.mp hd with hd | hd
      · exact h d (List.mem_append_left _ hd)
      · rcases List.mem_cons.mp hd with rfl | hd
        · exact hgather
        · exact h d (by simp [hd])
    · rintro j data ⟨d, hd, hdata⟩
      rcases List.mem_append.mp hd with hd | hd
      · exact ⟨d, List.mem_append_left _ hd, hdata⟩
      · rcases List.mem_cons.mp hd with rfl | hd
        · exact ⟨_, by simp, (hholds j data).mpr (.inr hdata)⟩
        · exact ⟨d, by simp [hd], hdata⟩
  · have hnew := gathering_initCent sz r.owner false
    obtain ⟨hgather, -, -⟩ := hnew.build sz i r.ttl queryts flags r.data
    have hholds := hnew.holds_build sz i r.ttl queryts flags r.data
    rw [heq]
    refine ⟨fun d hd => ?_, ⟨_, List.mem_append_right _ (List.mem_singleton_self _),
      (hholds i r.data).mpr (.inl ⟨rfl, rfl⟩)⟩, ?_⟩
    · rcases List.mem_append.mp hd with hd | hd
      · exact h d hd
      · cases List.mem_singleton.mp hd
        exact hgather
    · rintro j data ⟨d, hd, hdata⟩
      exact ⟨d, List.mem_append_left _ hd, hdata⟩

theorem store_spec (sz : Sizes) (flags : CFlags) (queryts : Int) (item : Item)
    {centa : List Cent} (h : ∀ c ∈ centa, c.Gathering) :
    (∀ c ∈ item.store sz flags queryts centa, c.Gathering) ∧
      (∀ r i, item = .rr r → slotOf r.tp = some i →
        Stored (item.store sz flags queryts centa) i r.data) ∧
      ∀ j data, Stored centa j data → Stored (item.store sz flags queryts centa) j data := by
  have hkept : (∀ c ∈ centa, c.Gathering) ∧ ∀ j data, Stored centa j data → Stored centa j data :=
    ⟨h, fun _ _ hs => hs⟩
  cases item with
  | opt => exact ⟨hkept.1, by rintro _ _ ⟨⟩, hkept.2⟩
  | ignored => exact ⟨hkept.1, by rintro _ _ ⟨⟩, hkept.2⟩
  | rr r =>
      rw [Item.store]
      cases hslot : slotOf r.tp with
      | none =>
          refine ⟨hkept.1, ?_, hkept.2⟩
          rintro _ i ⟨⟩ hi
          rw [hslot] at hi
          cases hi
      | some i =>
          obtain ⟨hgather, hstored, hkeep⟩ := rrToCache_spec sz flags queryts r i h
          refine ⟨hgather, ?_, hkeep⟩
          rintro _ j ⟨⟩ hj
          rw [hslot] at hj
          cases hj
          exact hstored

theorem storeAll_spec (sz : Sizes) (flags : CFlags) (queryts : Int) (items : List Item)
    {centa : List Cent} (h : ∀ c ∈ centa, c.Gathering) :
    (∀ c ∈ items.foldl (Item.store sz flags queryts) centa, c.Gathering) ∧
      (∀ r i, .rr r ∈ items → slotOf r.tp = some i →
        Stored (items.foldl (Item.store sz flags queryts) centa) i r.data) ∧
      ∀ j data, Stored centa j data →
        Stored (items.foldl (Item.store sz flags queryts) centa) j data := by
  induction items generalizing centa with
  | nil => exact ⟨h, fun _ _ hmem => by (cases hmem), fun _ _ hs => hs⟩
  | cons item items ih =>
      obtain ⟨hgather, hnew, hkeep⟩ := store_spec sz flags queryts item h
      obtain ⟨hgather', hnew', hkeep'⟩ := ih hgather
      refine ⟨hgather', fun r i hmem hslot => ?_, fun j data hs => hkeep' j data (hkeep j data hs)⟩
      rcases List.mem_cons.mp hmem with hr | hmem
      · exact hkeep' i r.data (hnew r i hr.symm hslot)
      · exact hnew' r i hmem hslot

end Storing

section Frames

variable {msg : List UInt8}

/-- The records that stand in a message from an offset on, up to the first one that
does not fit. -/
def frames (msg : List UInt8) : Nat → Nat → List RrHead
  | 0, _ => []
  | recnum + 1, pos =>
      match readHead msg pos with
      | .error _ => []
      | .ok h => h :: frames msg recnum h.next

/-- What is stored for a record, if it is one that is cached. -/
theorem readItems_frames {recnum pos : Nat}
    (hrc : (readItems msg recnum pos).2 ≠ .error .format) {h : RrHead}
    (hmem : h ∈ frames msg recnum pos) (htp : h.tp ≠ 41) (hslot : (slotOf h.tp).isSome)
    (hcls : h.cls = 1) :
    ∃ data, readRdata msg h.tp h.rdata h.rdlength = some data ∧
      .rr ⟨h.owner, h.tp, h.ttl, data⟩ ∈ (readItems msg recnum pos).1 := by
  induction recnum generalizing pos with
  | zero => cases hmem
  | succ recnum ih =>
      rw [readItems] at hrc ⊢
      rw [frames] at hmem
      cases hhead : readHead msg pos with
      | error e =>
          rw [hhead] at hmem
          cases hmem
      | ok h' =>
          simp only [hhead] at hmem hrc ⊢
          cases hitem : readItem msg h' with
          | none => simp [hitem] at hrc
          | some item =>
              simp only [hitem] at hrc ⊢
              rcases List.mem_cons.mp hmem with rfl | hmem
              · rw [readItem, if_neg htp, if_pos ⟨hslot, hcls⟩] at hitem
                obtain ⟨data, hdata, rfl⟩ := Option.map_eq_some_iff.mp hitem
                exact ⟨data, hdata, List.mem_cons_self⟩
              · obtain ⟨data, hdata, hin⟩ := ih hrc hmem
                exact ⟨data, hdata, List.mem_cons_of_mem _ hin⟩

/-- Where the reading of some records stops, the reading of more goes on or stops too. -/
theorem frames_add {recnum pos : Nat} (more : Nat)
    (hrc : (readItems msg recnum pos).2 ≠ .error .format) :
    frames msg (recnum + more) pos = frames msg recnum pos ++
      match (readItems msg recnum pos).2 with
      | .ok pos' => frames msg more pos'
      | .error _ => [] := by
  induction recnum generalizing pos with
  | zero => simp [frames, readItems]
  | succ recnum ih =>
      rw [Nat.add_right_comm, frames, frames]
      rw [readItems] at hrc ⊢
      cases hhead : readHead msg pos with
      | error e => rfl
      | ok h =>
          simp only [hhead] at hrc ⊢
          cases hitem : readItem msg h with
          | none => simp [hitem] at hrc
          | some item =>
              simp only [hitem] at hrc ⊢
              rw [ih hrc, List.cons_append]

theorem rrs2cent_gathering {sz : Sizes} {pos recnum : Nat} {flags : CFlags} {queryts : Int}
    {centa x : List Cent} {rc : Except NameError Nat} (hcenta : ∀ c ∈ centa, c.Gathering)
    (hx : rrs2cent sz msg pos recnum flags queryts centa = (x, rc)) : ∀ c ∈ x, c.Gathering := by
  obtain rfl : _ = x := congrArg Prod.fst hx
  exact (storeAll_spec sz flags queryts _ hcenta).1

/-- A record as it is to be stored: it is of a type that is cached, and its data is in
order. -/
structure RrHead.Stores (msg : List UInt8) (h : RrHead) (i : Slot) (data : List UInt8) : Prop where
  notOpt : h.tp ≠ 41
  slot : slotOf h.tp = some i
  cls : h.cls = 1
  data : readRdata msg h.tp h.rdata h.rdlength = some data

theorem rrs2cent_stored {sz : Sizes} {pos recnum : Nat} {flags : CFlags} {queryts : Int}
    {centa x : List Cent} {rc : Except NameError Nat} (hcenta : ∀ c ∈ centa, c.Gathering)
    (hx : rrs2cent sz msg pos recnum flags queryts centa = (x, rc)) (hrc : rc ≠ .error .format)
    {h : RrHead} (hmem : h ∈ frames msg recnum pos) {i : Slot} {data : List UInt8}
    (hstores : h.Stores msg i data) : Stored x i data := by
  obtain rfl : _ = x := congrArg Prod.fst hx
  obtain rfl : _ = rc := congrArg Prod.snd hx
  obtain ⟨data', hdata, hin⟩ :=
    readItems_frames hrc hmem hstores.notOpt (by simp [hstores.slot]) hstores.cls
  rw [hstores.data] at hdata
  cases hdata
  exact (storeAll_spec sz flags queryts _ hcenta).2.1 _ i hin hstores.slot

/-- A record is in the array, or it stands behind the records that were read. -/
theorem rrs2cent_stored_or {sz : Sizes} {pos recnum more : Nat} {flags : CFlags} {queryts : Int}
    {centa x : List Cent} {rc : Except NameError Nat} (hcenta : ∀ c ∈ centa, c.Gathering)
    (hx : rrs2cent sz msg pos recnum flags queryts centa = (x, rc)) (hrc : rc ≠ .error .format)
    {h : RrHead} (hmem : h ∈ frames msg (recnum + more) pos) {i : Slot} {data : List UInt8}
    (hstores : h.Stores msg i data) :
    Stored x i data ∨ ∃ pos', rc = .ok pos' ∧ h ∈ frames msg more pos' := by
  have hread : (readItems msg recnum pos).2 = rc := congrArg Prod.snd hx
  rw [frames_add more (hread ▸ hrc), List.mem_append, hread] at hmem
  rcases hmem with hmem | hmem
  · exact .inl (rrs2cent_stored hcenta hx hrc hmem hstores)
  · cases rc with
    | error e => cases hmem
    | ok pos' => exact .inr ⟨pos', rfl, hmem⟩

section Sections

variable {sz : Sizes} {pos : Nat} {flags : CFlags} {queryts : Int} {first : Cent}

/-- How far the reading of the sections comes. -/
inductive SectionsRead (sz : Sizes) (msg : List UInt8) (pos : Nat) (flags : CFlags) (queryts : Int)
    (first : Cent) : Sections × Except NameError Nat → Prop
  | ans {x : List Cent} {e : NameError}
      (hans : rrs2cent sz msg pos (hdrAncount msg) flags queryts [first] = (x, .error e)) :
      SectionsRead sz msg pos flags queryts first (⟨x, [], [], none⟩, .error e)
  | auth {x y : List Cent} {pos' : Nat} {e : NameError}
      (hans : rrs2cent sz msg pos (hdrAncount msg) flags queryts [first] = (x, .ok pos'))
      (hauth : rrs2cent sz msg pos' (hdrNscount msg) { flags with additional := true } queryts [] =
        (y, .error e)) :
      SectionsRead sz msg pos flags queryts first (⟨x, y, [], none⟩, .error e)
  | add {x y z : List Cent} {pos' pos'' : Nat} {edns : Option Nat} {rv : Except NameError Nat}
      (hans : rrs2cent sz msg pos (hdrAncount msg) flags queryts [first] = (x, .ok pos'))
      (hauth : rrs2cent sz msg pos' (hdrNscount msg) { flags with additional := true } queryts [] =
        (y, .ok pos''))
      (hadd : rrs2cent sz msg pos'' (hdrArcount msg) { flags with additional := true } queryts [] =
        (z, rv)) :
      SectionsRead sz msg pos flags queryts first (⟨x, y, z, edns⟩, rv)

theorem readSections_read :
    SectionsRead sz msg pos flags queryts first (readSections sz msg pos flags queryts first) := by
  simp only [readSections]
  rcases hans : rrs2cent sz msg pos (hdrAncount msg) flags queryts [first] with ⟨x, e | pos'⟩
  · exact .ans hans
  · rcases hauth : rrs2cent sz msg pos' (hdrNscount msg) { flags with additional := true }
      queryts [] with ⟨y, e | pos''⟩
    · simp only [hauth]
      exact .auth hans hauth
    · simp only [hauth]
      exact .add hans hauth rfl

theorem readSections_gathering (sz : Sizes) (msg : List UInt8) (pos : Nat) (flags : CFlags)
    (queryts : Int) (hfirst : first.Gathering) :
    ∀ c ∈ (readSections sz msg pos flags queryts first).1.all, c.Gathering := by
  have hone : ∀ c ∈ [first], c.Gathering := by simpa using hfirst
  have hnone : ∀ c ∈ ([] : List Cent), c.Gathering := by simp
  intro c hc
  generalize hread : readSections sz msg pos flags queryts first = secs at hc
  have hsecs := hread ▸ readSections_read
  simp only [Sections.all, List.mem_append] at hc
  cases hsecs with
  | ans hans => exact rrs2cent_gathering hone hans c (by simpa using hc)
  | auth hans hauth =>
      rcases hc with (hc | hc) | hc
      · exact rrs2cent_gathering hone hans c hc
      · exact rrs2cent_gathering hnone hauth c hc
      · cases hc
  | add hans hauth hadd =>
      rcases hc with (hc | hc) | hc
      · exact rrs2cent_gathering hone hans c hc
      · exact rrs2cent_gathering hnone hauth c hc
      · exact rrs2cent_gathering hnone hadd c hc

theorem readSections_stored (hfirst : first.Gathering)
    (hrv : (readSections sz msg pos flags queryts first).2 ≠ .error .format) {h : RrHead}
    (hmem : h ∈ frames msg (hdrAncount msg + (hdrNscount msg + hdrArcount msg)) pos)
    {i : Slot} {data : List UInt8} (hstores : h.Stores msg i data) :
    Stored (readSections sz msg pos flags queryts first).1.all i data := by
  have hone : ∀ c ∈ [first], c.Gathering := by simpa using hfirst
  have hnone : ∀ c ∈ ([] : List Cent), c.Gathering := by simp
  generalize hread : readSections sz msg pos flags queryts first = secs at hrv ⊢
  have hsecs := hread ▸ readSections_read
  cases hsecs with
  | ans hans =>
      rcases rrs2cent_stored_or hone hans hrv hmem hstores with ⟨c, hc, hholds⟩ | ⟨_, hrc, -⟩
      · exact ⟨c, by simp [Sections.all, hc], hholds⟩
      · cases hrc
  | auth hans hauth =>
      rcases rrs2cent_stored_or hone hans (by simp) hmem hstores
        with ⟨c, hc, hholds⟩ | ⟨_, ⟨⟩, hmem⟩
      · exact ⟨c, by simp [Sections.all, hc], hholds⟩
      rcases rrs2cent_stored_or hnone hauth hrv hmem hstores with ⟨c, hc, hholds⟩ | ⟨_, hrc, -⟩
      · exact ⟨c, by simp [Sections.all, hc], hholds⟩
      · cases hrc
  | add hans hauth hadd =>
      rcases rrs2cent_stored_or hone hans (by simp) hmem hstores
        with ⟨c, hc, hholds⟩ | ⟨_, ⟨⟩, hmem⟩
      · exact ⟨c, by simp [Sections.all, hc], hholds⟩
      rcases rrs2cent_stored_or hnone hauth (by simp) hmem hstores with
        ⟨c, hc, hholds⟩ | ⟨_, ⟨⟩, hmem⟩
      · exact ⟨c, by simp [Sections.all, hc], hholds⟩
      obtain ⟨c, hc, hholds⟩ := rrs2cent_stored hnone hadd hrv hmem hstores
      exact ⟨c, by simp [Sections.all, hc], hholds⟩

end Sections

end Frames

end TorAndroid.Dns
