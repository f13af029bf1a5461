import TorAndroid.Dns.CachePurge

namespace TorAndroid.Dns

open TorAndroid.Lib.LinkedCells TorAndroid.Lib.DoublyLinked

/-- No record set of the entry is local. -/
def Cent.Foreign (c : Cent) : Prop :=
  ∀ i, ∀ r ∈ c.rrset i, r.flags.isLocal = false

variable {cfg : CacheConfig} {E : Int × Int → Prop}

section Entries

variable {l : Rrl} {xs : List (Addr × Lent)} {k : Key} {pend : Option Slot → Prop} {c : Cent}

/-- An entry that is worked on, and the list with its nodes. -/
structure Held (sz : Sizes) (E : Int × Int → Prop) (l : Rrl) (xs : List (Addr × Lent)) (k : Key)
    (pend : Option Slot → Prop) (c : Cent) : Prop where
  owns : Owns l xs k c.lentOf
  ok : c.Ok sz E k pend

theorem Held.del (h : Held cfg.sizes E l xs k pend c) (i : Slot) :
    ∃ l' ys n, delCentRrsetByIndex cfg.sizes l c i = some (l', c.withoutRrset cfg.sizes i, n) ∧
      Held cfg.sizes E l' ys k pend (c.withoutRrset cfg.sizes i) ∧ SameElse k xs ys := by
  obtain ⟨l', hl, hown, hsame⟩ := h.owns.removeRrl (some i)
  rw [← Cent.lentOf_withoutRrset c cfg.sizes] at hown
  refine ⟨l', _, (c.rrset i).elim 0 (RrSet.size cfg.sizes), ?_, ⟨hown, h.ok.withoutRrset⟩, hsame⟩
  rw [delCentRrsetByIndex_eq, hl]
  rfl

theorem Held.delEach {p : RrSet → Prop} (old : List (Slot × RrSet))
    (h : Held cfg.sizes E l xs k pend c) (hp : ∀ x ∈ old, ∀ r ∈ c.rrset x.1, p r) :
    ∃ l' ys d, old.foldlM (dropConflict cfg) (l, c) = some (l', d) ∧
      Held cfg.sizes E l' ys k pend d ∧ SameElse k xs ys ∧ c.Thins p d := by
  induction old generalizing l xs c with
  | nil => exact ⟨l, xs, c, rfl, h, SameElse.refl k xs, .refl c⟩
  | cons x old ih =>
      rw [List.forall_mem_cons] at hp
      obtain ⟨l₁, ys, n, hl₁, h₁, hsame₁⟩ := h.del x.1
      have hthins := Cent.Thins.withoutRrset c cfg.sizes x.1 hp.1
      obtain ⟨l₂, zs, d, hl₂, h₂, hsame₂, hthins₂⟩ := ih h₁ (by
        intro y hy r hr
        rcases hthins.rrset y.1 with heq | ⟨hnone, -⟩
        · exact hp.2 y hy r (heq ▸ hr)
        · rw [hnone] at hr
          cases hr)
      refine ⟨l₂, zs, d, ?_, h₂, hsame₁.trans hsame₂, hthins.trans hthins₂⟩
      rw [List.foldlM_cons, dropConflict, hl₁]
      exact hl₂

theorem rrset_of_mem_conflicting {i : Slot} {x : Slot × RrSet} (h : x ∈ conflicting c i) :
    c.rrset x.1 = some x.2 := by
  obtain ⟨j, -, hj⟩ := List.mem_filterMap.mp h
  cases hr : c.rrset j with
  | none => simp [hr] at hj
  | some r =>
      simp only [hr] at hj
      split_ifs at hj
      cases hj
      exact hr

/-- `cr_check_add` only removes what is not local for the sake of what is not. -/
theorem Held.crCheckAdd (h : Held cfg.sizes E l xs k pend c) (now : Int) (i : Slot) (ttl : Int)
    (flags : CFlags) :
    ∃ l' ys d ok, crCheckAdd cfg now l c i ttl flags = some (l', d, ok) ∧
      Held cfg.sizes E l' ys k pend d ∧ SameElse k xs ys ∧
      c.Thins (fun r => flags.isLocal = false → r.flags.isLocal = false) d ∧
      (ok = true → flags.isLocal = false → flags.negative = false → c.flags.isLocal = false) := by
  have hstay : ∀ ok : Bool,
      (ok = true → flags.isLocal = false → flags.negative = false → c.flags.isLocal = false) →
      ∃ l' ys d ok', some (l, c, ok) = some (l', d, ok') ∧ Held cfg.sizes E l' ys k pend d ∧
        SameElse k xs ys ∧
        c.Thins (fun r => flags.isLocal = false → r.flags.isLocal = false) d ∧
        (ok' = true → flags.isLocal = false → flags.negative = false → c.flags.isLocal = false) :=
    fun ok hok => ⟨l, xs, c, ok, rfl, h, SameElse.refl k xs, .refl c, hok⟩
  rw [Dns.crCheckAdd]
  split_ifs with hneg hcent hany hempty hrest
  · exact hstay true fun _ _ hn => by rw [hneg] at hn; cases hn
  · exact hstay false fun hf => by cases hf
  · exact hstay false fun hf => by cases hf
  · refine hstay true fun _ hl _ => ?_
    simpa [hl] using hcent
  · obtain ⟨l', ys, d, hl', h', hsame, hthins⟩ := h.delEach (conflicting c i)
      (p := fun r => flags.isLocal = false → r.flags.isLocal = false) (by
        intro x hx r hr hl
        cases (rrset_of_mem_conflicting hx).symm.trans hr
        rw [hl, Bool.not_false, Bool.true_and, List.any_eq_true] at hany
        simpa using fun hlocal => hany ⟨x, hx, hlocal⟩)
    refine ⟨l', ys, d, true, by rw [hl']; rfl, h', hsame, hthins, fun _ hl _ => ?_⟩
    simpa [hl] using hcent
  · exact hstay false fun hf => by cases hf

end Entries

/-- What merging the record sets of `new` into an entry may do to it.  Local record
sets stay if `new` has none, and so does a locally negated entry if moreover `new` has
no negative one. -/
structure Cent.Merges (cfg : CacheConfig) (new c d : Cent) : Prop where
  name : d.qname = c.qname
  isLocal : d.flags.isLocal = c.flags.isLocal
  arm : d.negative = true → d.arm = c.arm
  rrset : ∀ i, (d.rrset i).map RrSet.bare = (c.rrset i).map RrSet.bare ∨ d.rrset i = none ∨
    ∃ r, new.rrset i = some r ∧ (d.rrset i).map RrSet.bare = some (adjustTtl cfg r).bare
  keeps : new.Foreign → ∀ i r, c.rrset i = some r → r.flags.isLocal = true →
    (d.rrset i).map RrSet.bare = some r.bare
  negates : new.Foreign → (∀ i, ∀ r ∈ new.rrset i, r.flags.negative = false) →
    c.negative = true → c.flags.isLocal = true → d.negative = true

section Merging

variable {new c d e : Cent}

theorem Cent.Merges.refl (c : Cent) : Cent.Merges cfg new c c :=
  ⟨rfl, rfl, fun _ => rfl, fun _ => Or.inl rfl, fun _ i r h _ => by rw [h]; rfl,
    fun _ _ h _ => h⟩

theorem Cent.negative_congr (h : d.arm = c.arm) : d.negative = c.negative := by
  rw [negative, negative, h]

theorem exists_of_map_bare {v : Option RrSet} {r : RrSet} (h : v.map RrSet.bare = some r.bare) :
    ∃ r', v = some r' ∧ r'.bare = r.bare :=
  Option.map_eq_some_iff.mp h

theorem RrSet.isLocal_of_bare {r r' : RrSet} (h : r'.bare = r.bare) :
    r'.flags.isLocal = r.flags.isLocal :=
  congrArg (fun r => r.flags.isLocal) h

theorem Cent.Merges.trans (h₁ : Cent.Merges cfg new c d) (h₂ : Cent.Merges cfg new d e) :
    Cent.Merges cfg new c e := by
  refine ⟨h₂.name.trans h₁.name, h₂.isLocal.trans h₁.isLocal, ?_, fun i => ?_, ?_, ?_⟩
  · intro he
    have harm := h₂.arm he
    exact harm.trans (h₁.arm (Cent.negative_congr harm ▸ he))
  · rcases h₂.rrset i with heq | hnone | hnew
    · rcases h₁.rrset i with heq' | hnone | hnew
      · exact Or.inl (heq.trans heq')
      · rw [hnone] at heq
        exact Or.inr (Or.inl (Option.map_eq_none_iff.mp heq))
      · obtain ⟨r, hr, hbare⟩ := hnew
        exact Or.inr (Or.inr ⟨r, hr, heq.trans hbare⟩)
    · exact Or.inr (Or.inl hnone)
    · exact Or.inr (Or.inr hnew)
  · intro hnew i r hr hlocal
    obtain ⟨r', hr', hbare⟩ := exists_of_map_bare (h₁.keeps hnew i r hr hlocal)
    rw [h₂.keeps hnew i r' hr' ((RrSet.isLocal_of_bare hbare).trans hlocal), hbare]
  · intro hnew hpos hneg hlocal
    exact h₂.negates hnew hpos (h₁.negates hnew hpos hneg hlocal) (h₁.isLocal.trans hlocal)

theorem Cent.Merges.of_thins
    (h : c.Thins (fun r => new.Foreign → r.flags.isLocal = false) d) :
    Cent.Merges cfg new c d := by
  refine ⟨h.name, h.isLocal, fun hd => h.arm (h.negative ▸ hd), fun i => ?_, ?_, ?_⟩
  · rcases h.rrset i with heq | ⟨hnone, -⟩
    · exact Or.inl (congrArg _ heq)
    · exact Or.inr (Or.inl hnone)
  · intro hnew i r hr hlocal
    rcases h.rrset i with heq | ⟨-, hp⟩
    · rw [heq, hr]
      rfl
    · rw [hp r hr hnew] at hlocal
      cases hlocal
  · exact fun _ _ hneg _ => h.negative.trans hneg

theorem adjustTtl_bare (cfg : CacheConfig) (r : RrSet) :
    (adjustTtl cfg r.bare).bare = (adjustTtl cfg r).bare := by
  cases hnocache : r.flags.nocache <;> simp [adjustTtl, RrSet.bare, hnocache]

theorem Cent.Merges.of_set {i : Slot} {r : RrSet} (hr : new.rrset i = some r)
    (hi : c.rrset i = none) (hname : d.qname = c.qname) (hflags : d.flags = c.flags)
    (hneg : d.negative = false)
    (hrrset : d.rrset = Function.update c.rrset i (some (adjustTtl cfg r.bare)))
    (hlocal : new.Foreign → (∀ i, ∀ r ∈ new.rrset i, r.flags.negative = false) →
      c.flags.isLocal = false) : Cent.Merges cfg new c d := by
  refine ⟨hname, by rw [hflags], ?_, fun j => ?_, ?_, ?_⟩
  · rw [hneg]
    exact fun hfalse => by cases hfalse
  · rw [hrrset]
    by_cases hj : j = i
    · subst hj
      refine Or.inr (Or.inr ⟨r, hr, ?_⟩)
      rw [Function.update_self, Option.map_some, adjustTtl_bare]
    · rw [Function.update_of_ne hj]
      exact Or.inl rfl
  · intro _ j r' hr' _
    rw [hrrset, Function.update_of_ne (by rintro rfl; cases hi.symm.trans hr'), hr']
    rfl
  · intro hnew hpos _ htrue
    rw [hlocal hnew hpos] at htrue
    cases htrue

/-- The same content on another part of the list. -/
theorem Cent.Merges.of_copy (h : copyCent d = copyCent c) (hneg : c.negative = false) :
    Cent.Merges cfg new c d := by
  have hrrset : ∀ i, (d.rrset i).map RrSet.bare = (c.rrset i).map RrSet.bare := by
    intro i
    rw [← rrset_copyCent, ← rrset_copyCent, h]
  obtain ⟨hname, -, -, hflags, hneg', -⟩ := copyCent_frame d
  obtain ⟨hname₂, -, -, hflags₂, hneg₂, -⟩ := copyCent_frame c
  rw [h] at hname hflags hneg'
  refine ⟨hname.symm.trans hname₂,
    by rw [← hflags, hflags₂], ?_, fun i => Or.inl (hrrset i), ?_, ?_⟩
  · rw [← hneg', hneg₂, hneg]
    exact fun hfalse => by cases hfalse
  · intro _ i r hr _
    rw [hrrset i, hr]
    rfl
  · rw [hneg]
    exact fun _ _ hfalse => by cases hfalse

end Merging

section AddSlot

variable {l : Rrl} {xs : List (Addr × Lent)} {k : Key} {pend : Option Slot → Prop} {c : Cent}

theorem appendRrs_spec {sz : Sizes} {i : Slot} (rrs : List (List UInt8))
    (h : c.Ok sz E k pend) (hi : (c.rrset i).isSome) :
    (appendRrs sz c i rrs).Ok sz E k pend ∧ (appendRrs sz c i rrs).lentOf = c.lentOf ∧
      (appendRrs sz c i rrs).flags = c.flags ∧ (appendRrs sz c i rrs).qname = c.qname ∧
      (appendRrs sz c i rrs).negative = c.negative ∧
      (appendRrs sz c i rrs).rrset =
        Function.update c.rrset i ((c.rrset i).map fun r => { r with rrs := r.rrs ++ rrs }) := by
  induction rrs generalizing c with
  | nil =>
      refine ⟨h, rfl, rfl, rfl, rfl, ?_⟩
      simp [appendRrs]
  | cons data rrs ih =>
      have hrrset : (appendRr sz c i data).rrset = _ := Cent.rrset_appendRr
      obtain ⟨hname, -, -, hflags, hneg⟩ :=
        Cent.modifyRrset_frame c i fun r => { r with rrs := r.rrs ++ [data] }
      obtain ⟨hok, hlent, hflags', hname', hneg', hrrset'⟩ := ih (h.appendRr data hi) (by
        simpa [hrrset] using hi)
      refine ⟨hok, hlent.trans (Cent.lentOf_modifyRrset fun _ => rfl), hflags'.trans hflags,
        hname'.trans hname, hneg'.trans hneg, hrrset'.trans ?_⟩
      rw [hrrset, Function.update_self, Function.update_idem, Option.map_map]
      simp [Function.comp_def]

theorem adjustTtl_frame (cfg : CacheConfig) (r : RrSet) :
    (adjustTtl cfg r).lent = r.lent ∧ (adjustTtl cfg r).flags.isLocal = r.flags.isLocal ∧
      (adjustTtl cfg r).rrs = r.rrs ∧ (adjustTtl cfg r).ts = r.ts ∧
      (adjustTtl cfg r).flags.negative = r.flags.negative := by
  rw [adjustTtl]
  split_ifs <;> exact ⟨rfl, rfl, rfl, rfl, rfl⟩

theorem Held.addSet (h : Held cfg.sizes E l xs k pend c) {i : Slot} (hi : c.rrset i = none)
    (r : RrSet) :
    ∃ l' ys d, (addCentRrsetByIndex cfg.sizes l c i r.ttl r.ts r.flags).map
        (fun x => (x.1, (appendRrs cfg.sizes x.2 i r.rrs).modifyRrset i (adjustTtl cfg))) =
          some (l', d) ∧
      Held cfg.sizes E l' ys k (fun o => pend o ∨ o = some i) d ∧ SameElse k xs ys ∧
      d.qname = c.qname ∧ d.flags = c.flags ∧ d.negative = false ∧
      d.lentOf (some i) = none ∧
      d.rrset = Function.update c.rrset i (some (adjustTtl cfg r.bare)) := by
  set e := c.withRrset cfg.sizes i r.ttl r.ts r.flags with he
  have hset : e.rrset = Function.update c.rrset i (some ⟨none, r.ttl, r.ts, r.flags, []⟩) :=
    Cent.rrset_withRrset
  have hlent : e.lentOf = Function.update c.lentOf none none := Cent.lentOf_withRrset hi
  obtain ⟨l', hl, hown, hsame⟩ := h.owns.removeRrl none
  obtain ⟨hok', hlent', hflags', hname', hneg', hrrset'⟩ :=
    appendRrs_spec r.rrs (h.ok.withRrset hi r.ttl r.ts r.flags)
      (by rw [← he, hset, Function.update_self]; rfl)
  have hframe := fun r => adjustTtl_frame cfg r
  obtain ⟨hname, -, -, hflags, hneg⟩ :=
    Cent.modifyRrset_frame (appendRrs cfg.sizes e i r.rrs) i (adjustTtl cfg)
  have hlast : ((appendRrs cfg.sizes e i r.rrs).modifyRrset i (adjustTtl cfg)).lentOf =
      Function.update c.lentOf none none :=
    (Cent.lentOf_modifyRrset fun r => (hframe r).1).trans (hlent'.trans hlent)
  refine ⟨l', _, (appendRrs cfg.sizes e i r.rrs).modifyRrset i (adjustTtl cfg), ?_, ⟨?_, ?_⟩, hsame,
    hname.trans hname', hflags.trans hflags', hneg.trans hneg', ?_, ?_⟩
  · rw [addCentRrsetByIndex_eq, hl]
    rfl
  · rw [hlast]
    exact hown
  · refine hok'.modifyRrset (fun r => (hframe r).1) (fun r => (hframe r).2.1) fun r => ?_
    rw [RrSet.size, RrSet.size, (hframe r).2.2.1]
  · rw [hlast, Function.update_of_ne (by simp), Cent.lentOf_some, hi]
    rfl
  · rw [Cent.rrset_modifyRrset, hrrset', hset]
    simp [RrSet.bare]

theorem Inv.addSlot {s : Cache} (h : Inv cfg.sizes E s xs ∅) (hc : s.find k = some c) (now : Int)
    (new : Cent) (i : Slot) :
    ∃ t ys d, addSlot cfg now k new s i = some t ∧ Inv cfg.sizes E t ys ∅ ∧ Touches s t k d ∧
      t.cacheSize = s.cacheSize ∧ Cent.Merges cfg new c d ∧ (s.OldestFirst → t.OldestFirst) := by
  have hstay : ∃ t ys d, some s = some t ∧ Inv cfg.sizes E t ys ∅ ∧ Touches s t k d ∧
      t.cacheSize = s.cacheSize ∧ Cent.Merges cfg new c d ∧ (s.OldestFirst → t.OldestFirst) :=
    ⟨s, xs, c, rfl, h, Touches.refl hc, rfl, .refl c, id⟩
  simp only [Dns.addSlot, hc, Option.bind_eq_bind, Option.bind_some]
  cases hr : new.rrset i with
  | none => exact hstay
  | some r =>
      simp only
      split_ifs with hkeep
      · exact hstay
      obtain ⟨l₁, ys₁, n, hl₁, h₁, hsame₁⟩ :=
        (⟨h.owns hc, h.ok k c hc⟩ : Held cfg.sizes E s.rrl xs k _ c).del i
      obtain ⟨l₂, ys₂, d, ok, hl₂, h₂, hsame₂, hthins₂, hok⟩ := h₁.crCheckAdd now i r.ttl r.flags
      -- the old set of the type, and the sets in conflict with the new one
      have hthins₁ : c.Thins (fun r => new.Foreign → r.flags.isLocal = false)
          (c.withoutRrset cfg.sizes i) := by
        refine .withoutRrset c cfg.sizes i fun old hold hnew => ?_
        rw [Option.mem_def.mp hold] at hkeep
        simp only [Option.any_some, keepsOut, hnew i r hr, Bool.not_false, Bool.true_and,
          Bool.or_eq_true, not_or] at hkeep
        simpa using hkeep.1
      have hthins : c.Thins (fun r => new.Foreign → r.flags.isLocal = false) d :=
        hthins₁.trans (hthins₂.mono fun _ _ _ hp hnew => hp (hnew i r hr))
      have hshrinks : Shrinks s.rrl l₂ :=
        (shrinks_delCentRrsetByIndex hl₁).trans (shrinks_crCheckAdd hl₂)
      simp only [hl₁, hl₂, Option.bind_some]
      cases ok with
      | false =>
          have htouch : Touches s ({ s with rrl := l₂ }.put k d) k d := .of_insert rfl rfl rfl
          have hinv : Inv cfg.sizes E ({ s with rrl := l₂ }.put k d) ys₂ ∅ := by
            refine h.update htouch.find h₂.owns (hsame₁.trans hsame₂) ?_ fun _ _ => Iff.rfl
            rintro _ ⟨⟩
            exact h₂.ok
          refine ⟨{ s with rrl := l₂ }.put k d, ys₂, d, rfl, hinv, htouch, rfl,
            .of_thins hthins, ?_⟩
          refine (h.keeps_of_touches hinv htouch hc hshrinks fun o hlent => ?_).oldestFirst
          obtain ⟨a, ha⟩ := Option.isSome_iff_exists.mp hlent
          exact hthins.tsOf (Cent.has_of_lentOf ha)
      | true =>
          have hdi : d.rrset i = none := hthins₂.rrset_none (by simp [Cent.rrset_withoutRrset])
          obtain ⟨l₃, ys₃, e, hl₃, h₃, hsame₃, hname, hflags, hneg, hlent, hrrset⟩ :=
            h₂.addSet hdi r
          have hmerge : Cent.Merges cfg new d e := by
            refine .of_set hr hdi hname hflags hneg hrrset fun hnew hpos => ?_
            rw [hthins₂.isLocal]
            exact hok rfl (hnew i r hr) (hpos i r hr)
          have htouch : Touches s ({ s with rrl := l₃ }.put k e) k e := .of_insert rfl rfl rfl
          have hinv : Inv cfg.sizes E ({ s with rrl := l₃ }.put k e) ys₃ {⟨k, some i⟩} := by
            refine h.update htouch.find h₃.owns (hsame₁.trans (hsame₂.trans hsame₃)) ?_ ?_
            · rintro _ ⟨⟩
              exact h₃.ok.pend_congr fun o => by simp
            · rintro ⟨k', o⟩ hk
              simp [hk]
          obtain ⟨x, hx, hx'⟩ := Option.map_eq_some_iff.mp hl₃
          have hshrinks₃ : Shrinks s.rrl l₃ := by
            obtain rfl : x.1 = l₃ := congrArg Prod.fst hx'
            exact hshrinks.trans (shrinks_addCentRrsetByIndex hx)
          -- the other sets have the timestamps they had
          have hts : ∀ o, (e.lentOf o).isSome → e.tsOf o = c.tsOf o := by
            intro o ho
            obtain ⟨a, ha⟩ := Option.isSome_iff_exists.mp ho
            have hhas := Cent.has_of_lentOf ha
            cases o with
            | none => exact absurd (hneg.symm.trans hhas) (by simp)
            | some j =>
                have hji : j ≠ i := by
                  rintro rfl
                  rw [hlent] at ha
                  cases ha
                have hdj : e.rrset j = d.rrset j := by
                  rw [hrrset, Function.update_of_ne hji]
                rw [← hthins.tsOf (o := some j) (by simpa only [Cent.has, hdj] using hhas)]
                simp only [Cent.tsOf, hdj]
          have hkeeps := h.keeps_of_touches hinv htouch hc hshrinks₃ hts
          obtain ⟨t, ys, d', ht, hinv', htouch', hsize, hcopy, horder⟩ := hinv.insertRrl
            ⟨k, some i⟩ htouch.find_self (by simp [Cent.has, hrrset]) hlent
          rw [Set.sdiff_self] at hinv'
          refine ⟨t, ys, d', ?_, hinv', htouch.trans htouch', hsize,
            ((Cent.Merges.of_thins hthins).trans hmerge).trans (.of_copy hcopy hneg),
            fun hold => horder (hkeeps.oldestFirst hold)⟩
          rw [← ht]
          cases hx'
          simp [hx]

end AddSlot

section AddEntry

variable {s : Cache} {xs : List (Addr × Lent)} {k : Key} {c new : Cent}

theorem Inv.addSlots (now : Int) (new : Cent) (is : List Slot) (h : Inv cfg.sizes E s xs ∅)
    (hc : s.find k = some c) :
    ∃ t ys d, is.foldlM (Dns.addSlot cfg now k new) s = some t ∧ Inv cfg.sizes E t ys ∅ ∧
      Touches s t k d ∧ t.cacheSize = s.cacheSize ∧ Cent.Merges cfg new c d ∧
      (s.OldestFirst → t.OldestFirst) := by
  induction is generalizing s xs c with
  | nil => exact ⟨s, xs, c, rfl, h, Touches.refl hc, rfl, .refl c, id⟩
  | cons i is ih =>
      obtain ⟨s₁, ys, d, hs₁, hinv₁, htouch₁, hsize₁, hmerge₁, horder₁⟩ := h.addSlot hc now new i
      obtain ⟨t, zs, e, ht, hinv, htouch, hsize, hmerge, horder⟩ := ih hinv₁ htouch₁.find_self
      refine ⟨t, zs, e, ?_, hinv, htouch₁.trans htouch, hsize.trans hsize₁, hmerge₁.trans hmerge,
        fun hold => horder (horder₁ hold)⟩
      rw [List.foldlM_cons, hs₁]
      exact ht

/-- An entry that is there is purged, and the record sets of the new one are merged
into what is left. -/
theorem addExisting_spec {p : RrSet → Prop} {q : Bool → Arm → Prop} (now : Int)
    (h : Inv cfg.sizes E s xs ∅) (hsized : Sized s) (hc : s.find new.qname.fold = some c)
    (hp : ∀ r : RrSet, r.purgeable now = true → p r)
    (hq : ∀ c : Cent, c.negative = true → c.needless now = true → q c.flags.isLocal c.arm) :
    ∃ t ys s₁ c₁ d, addExisting cfg now s new = some t ∧ Inv cfg.sizes E t ys ∅ ∧ Sized t ∧
      t.insertSort = s.insertSort ∧ s.Thins p q s₁ ∧ s₁.find new.qname.fold = some c₁ ∧
      t.find = Function.update s₁.find new.qname.fold (some d) ∧ Cent.Merges cfg new c₁ d ∧
      (s.OldestFirst → t.OldestFirst) := by
  set k := new.qname.fold with hk
  obtain ⟨s₁, ys₁, b, hs₁, hpurged, hfound⟩ := purgeCent_spec h hsized hc hp hq false
  obtain ⟨c₁, hc₁⟩ := hfound rfl
  have hinv₁ : Inv cfg.sizes E { s₁ with cacheSize := s₁.cacheSize - c₁.cs } ys₁ ∅ :=
    ⟨hpurged.inv.represents, hpurged.inv.mem_iff, hpurged.inv.ok⟩
  obtain ⟨s₂, ys, d, hs₂, hinv₂, htouch, hsize, hmerge, horder⟩ :=
    hinv₁.addSlots now new (List.finRange _) hc₁
  set e : Cent := { d with
    flags := { d.flags with
      auth := d.flags.auth || new.flags.auth
      wild := d.flags.wild || new.flags.wild }
    cNs := mergeRef d.cNs new.cNs
    cSoa := mergeRef d.cSoa new.cSoa } with he
  have htouch' : Touches s₁ { s₂.put k e with cacheSize := s₂.cacheSize + e.cs } k e :=
    (⟨htouch.find, htouch.rest, htouch.entNum, htouch.insertSort⟩ : Touches s₁ s₂ k d).trans
      (.of_insert rfl rfl rfl)
  refine ⟨{ s₂.put k e with cacheSize := s₂.cacheSize + e.cs }, ys, s₁, c₁, e, ?_, ?_, ?_, ?_,
    hpurged.thins, hc₁, htouch'.find, ?_, fun hold => ?_⟩
  · simp only [addExisting, ← hk, hs₁, Option.bind_eq_bind, Option.bind_some, hc₁, hs₂,
      htouch.find_self]
    rfl
  · have hown : Owns s₂.rrl ys k d.lentOf := hinv₂.owns htouch.find_self
    refine hinv₂.update (t := { s₂.put k e with cacheSize := s₂.cacheSize + e.cs })
      (Cache.find_of_insert rfl) hown (SameElse.refl k ys) ?_ fun _ _ => Iff.rfl
    rintro _ ⟨⟩
    exact (hinv₂.ok k d htouch.find_self).congr rfl rfl rfl rfl rfl
  · refine htouch'.sized hpurged.sized hc₁ ?_
    change s₂.cacheSize + e.cs = _
    rw [hsize]
  · exact htouch'.insertSort.trans hpurged.insertSort
  · exact ⟨hmerge.name, hmerge.isLocal, hmerge.arm, hmerge.rrset, hmerge.keeps, hmerge.negates⟩
  · have hpurge := hpurged.keeps h (shrinks_purgeCent hs₁)
    have hmerged := horder (hpurge.oldestFirst hold)
    have hts := Cache.nodeTs_update (t := { s₂.put k e with cacheSize := s₂.cacheSize + e.cs })
      (Cache.find_of_insert rfl) htouch.find_self (d := e) (by funext o; cases o <;> rfl)
    intro hsort
    rw [hts]
    exact hmerged hsort

theorem insertSlots_spec (is : List Slot) (hnodup : is.Nodup) {P : Set Lent}
    (h : Inv cfg.sizes E s xs P) (hc : s.find k = some c)
    (hpend : ∀ i ∈ is, (⟨k, some i⟩ : Lent) ∈ P) :
    ∃ t ys d, is.foldlM (insertSlot k) s = some t ∧
      Inv cfg.sizes E t ys (P \ {le | le.cent = k ∧ ∃ i ∈ is, le.idx = some i}) ∧
      Touches s t k d ∧ t.cacheSize = s.cacheSize ∧ copyCent d = copyCent c ∧
      (s.OldestFirst → t.OldestFirst) := by
  induction is generalizing s xs c P with
  | nil =>
      refine ⟨s, xs, c, rfl, ?_, Touches.refl hc, rfl, rfl, id⟩
      simpa using h
  | cons i is ih =>
      rw [List.nodup_cons] at hnodup
      rw [List.forall_mem_cons] at hpend
      have hlent : c.lentOf (some i) = none := by
        rw [← Option.not_isSome_iff_eq_none, (h.ok k c hc).linked]
        exact fun hboth => hboth.2 hpend.1
      -- the first turn, whether or not there is a set
      obtain ⟨s₁, ys, d, hs₁, hinv₁, htouch₁, hsize₁, hcopy₁, horder₁⟩ : ∃ t ys d,
          insertSlot k s i = some t ∧ Inv cfg.sizes E t ys (P \ {⟨k, some i⟩}) ∧
          Touches s t k d ∧ t.cacheSize = s.cacheSize ∧ copyCent d = copyCent c ∧
          (s.OldestFirst → t.OldestFirst) := by
        cases hr : c.rrset i with
        | none =>
            refine ⟨s, xs, c, by simp [insertSlot, hc, hr], ?_, Touches.refl hc, rfl, rfl, id⟩
            refine h.unpend Set.sdiff_subset fun le hle hnot c' hc' => ?_
            obtain rfl : le = ⟨k, some i⟩ := by simpa [hle] using hnot
            cases hc.symm.trans hc'
            simp [Cent.listed, hr]
        | some r =>
            obtain ⟨t, ys, d, ht, hrest⟩ :=
              h.insertRrl ⟨k, some i⟩ hc (by simp [Cent.has, hr]) hlent
            exact ⟨t, ys, d, by simp [insertSlot, hc, hr, ht], hrest⟩
      obtain ⟨t, zs, e, ht, hinv, htouch, hsize, hcopy, horder⟩ := ih hnodup.2 hinv₁
        htouch₁.find_self
        fun j hj => ⟨hpend.2 j hj, by simpa using ne_of_mem_of_not_mem hj hnodup.1⟩
      refine ⟨t, zs, e, ?_, ?_, htouch₁.trans htouch, hsize.trans hsize₁, hcopy.trans hcopy₁,
        fun hold => horder (horder₁ hold)⟩
      · rw [List.foldlM_cons, hs₁]
        exact ht
      · convert hinv using 1
        ext ⟨k', o⟩
        simp only [Set.mem_sdiff, Set.mem_ofPred_eq, Set.mem_singleton_iff, List.mem_cons,
          Lent.mk.injEq]
        grind

theorem adjustCent_frame (cfg : CacheConfig) (c : Cent) :
    (adjustCent cfg c).qname = c.qname ∧ (adjustCent cfg c).cs = c.cs ∧
      (adjustCent cfg c).negative = c.negative ∧ (adjustCent cfg c).lentOf = c.lentOf ∧
      (adjustCent cfg c).flags.isLocal = c.flags.isLocal ∧
      (adjustCent cfg c).surplus cfg.sizes = c.surplus cfg.sizes ∧
      ∀ i, (adjustCent cfg c).rrset i = (c.rrset i).map (adjustTtl cfg) := by
  obtain ⟨qname, cs, numRrs, dflags, arm, cNs, cSoa⟩ := c
  have hframe := fun r => adjustTtl_frame cfg r
  cases arm with
  | neg lent ttl ts =>
      cases hnocache : dflags.nocache
      all_goals
        simp only [adjustCent, adjustDomTtl, hnocache]
        refine ⟨rfl, rfl, rfl, ?_, rfl, rfl, fun _ => rfl⟩
        funext o
        cases o <;> rfl
  | rr a =>
      refine ⟨rfl, rfl, rfl, ?_, rfl, ?_, fun _ => rfl⟩
      · funext o
        cases o with
        | none => rfl
        | some i =>
            change ((a.slots i).map (adjustTtl cfg)).bind RrSet.lent = (a.slots i).bind RrSet.lent
            cases a.slots i with
            | none => rfl
            | some r => exact (hframe r).1
      · refine Cent.surplus_map (fun _ => rfl) (fun r => ?_) rfl rfl rfl rfl
        rw [RrSet.size, RrSet.size, (hframe r).2.2.1]

/-- A new name is stored with its copied record sets, their times to live adjusted. -/
theorem addNew_spec (h : Inv cfg.sizes E s xs ∅) (hsized : Sized s)
    (hc : s.find new.qname.fold = none) (hsurplus : E (new.surplus cfg.sizes)) :
    ∃ t ys d, addNew cfg s new = some t ∧ Inv cfg.sizes E t ys ∅ ∧ Sized t ∧
      t.insertSort = s.insertSort ∧ t.find = Function.update s.find new.qname.fold (some d) ∧
      copyCent d = copyCent (adjustCent cfg (copyCent new)) ∧ (s.OldestFirst → t.OldestFirst) := by
  set k := new.qname.fold with hk
  set a := adjustCent cfg (copyCent new) with ha
  obtain ⟨hname, hcs, hneg, hlent, -, hsurplus', -⟩ := adjustCent_frame cfg (copyCent new)
  rw [← ha] at hname hcs hneg hlent hsurplus'
  have hlent' : ∀ o, a.lentOf o = none := fun o => hlent ▸ Cent.lentOf_copyCent new o
  -- the entry with every place of it pending
  have htouch₀ : Touches { s with entNum := s.entNum + 1 }
      ({ s with entNum := s.entNum + 1 }.put k a) k a := .of_insert rfl rfl rfl
  have hinv₀ : Inv cfg.sizes E ({ s with entNum := s.entNum + 1 }.put k a) xs
      {le | le.cent = k} := by
    refine h.update (Cache.find_put _ _ _) ?_ (SameElse.refl k xs) ?_ fun le hle => by simp [hle]
    · have hfun : (fun o => (some a).bind fun c => c.lentOf o) = fun _ => none := funext hlent'
      rw [hfun]
      exact h.owns_none hc
    · rintro _ ⟨⟩
      refine ⟨?_, ?_, fun o => by simp [hlent']⟩
      · rw [hname, (Cent.copyCent_frame new).1]
      · rw [hsurplus', Cent.surplus_copyCent]
        exact hsurplus
  have hkeeps : s.OldestFirst → ({ s with entNum := s.entNum + 1 }.put k a).OldestFirst := by
    intro hold hsort
    have hsorted := hold hsort
    rw [h.represents.toList_eq] at hsorted
    change s.rrl.toList.Pairwise _
    rw [h.represents.toList_eq]
    refine hsorted.imp_of_mem fun {x y} hx hy hle => ?_
    -- no node is for the new name
    have hts : ∀ z ∈ xs, ({ s with entNum := s.entNum + 1 }.put k a).nodeTs z = s.nodeTs z := by
      intro z hz
      have hne : z.2.cent ≠ k := by
        rintro hk'
        obtain ⟨c', hc', -⟩ := (h.mem_iff z.1 z.2).mp hz
        rw [hk', hc] at hc'
        cases hc'
      rw [Cache.nodeTs, Cache.nodeTs, lentTs_eq, lentTs_eq, htouch₀.find_ne hne]
      rfl
    rw [hts x hx, hts y hy]
    exact hle
  obtain ⟨t, ys, d, ht, hinv, htouch, hsize, hcopy, horder⟩ : ∃ t ys d,
      (if a.negative then insertRrl ({ s with entNum := s.entNum + 1 }.put k a) ⟨k, none⟩
        else (List.finRange _).foldlM (insertSlot k)
          ({ s with entNum := s.entNum + 1 }.put k a)) = some t ∧
      Inv cfg.sizes E t ys ∅ ∧
      Touches { s with entNum := s.entNum + 1 } t k d ∧ t.cacheSize = s.cacheSize ∧
      copyCent d = copyCent a ∧
      (({ s with entNum := s.entNum + 1 }.put k a).OldestFirst → t.OldestFirst) := by
    cases hnega : a.negative with
    | true =>
        obtain ⟨t, ys, d, ht, hinv, htouch, hsize, hcopy, horder⟩ :=
          hinv₀.insertRrl ⟨k, none⟩ htouch₀.find_self hnega (hlent' none)
        refine ⟨t, ys, d, by simpa using ht, ?_, htouch₀.trans htouch, hsize, hcopy, horder⟩
        refine hinv.unpend (Set.empty_subset _) ?_
        rintro ⟨k', o⟩ ⟨rfl, hne⟩ - c' hc'
        cases htouch.find_self.symm.trans hc'
        rw [← Cent.listed_copyCent, hcopy, Cent.listed_copyCent]
        cases o with
        | none => exact absurd rfl hne
        | some i => simp [Cent.listed, Cent.rrset_of_negative hnega]
    | false =>
        obtain ⟨t, ys, d, ht, hinv, htouch, hsize, hcopy, horder⟩ :=
          insertSlots_spec (List.finRange _) (List.nodup_finRange _) hinv₀ htouch₀.find_self
            fun _ _ => rfl
        refine ⟨t, ys, d, by simpa using ht, ?_, htouch₀.trans htouch, hsize, hcopy, horder⟩
        refine hinv.unpend (Set.empty_subset _) ?_
        rintro ⟨k', o⟩ ⟨rfl, hne⟩ - c' hc'
        cases htouch.find_self.symm.trans hc'
        rw [← Cent.listed_copyCent, hcopy, Cent.listed_copyCent]
        cases o with
        | none => simp [Cent.listed, hnega]
        | some i => exact absurd ⟨rfl, i, List.mem_finRange i, rfl⟩ hne
  have hdcs : d.cs = a.cs := by
    rw [← (Cent.copyCent_frame d).2.1, hcopy, (Cent.copyCent_frame a).2.1]
  have htotal : ∀ g, t.total g = g d + s.total g := by
    intro g
    rw [htouch.total_eq, Cache.total_of_find_none hc]
    rfl
  refine ⟨{ t with cacheSize := t.cacheSize + a.cs }, ys, d, ?_, ?_, ⟨?_, ?_⟩,
    htouch.insertSort, htouch.find, hcopy, fun hold => horder (hkeeps hold)⟩
  · simp only [addNew, ← hk, ← ha, Option.bind_eq_bind]
    split_ifs with hnega
    · rw [if_pos hnega] at ht
      rw [ht]
      rfl
    · rw [if_neg hnega] at ht
      rw [ht]
      rfl
  · exact ⟨hinv.represents, hinv.mem_iff, hinv.ok⟩
  · change t.cacheSize + a.cs = t.total Cent.cs
    rw [htotal, hsize, hsized.cacheSize, hdcs]
    omega
  · change t.entNum = t.total fun _ => 1
    have hnum : t.entNum = s.entNum + 1 := htouch.entNum
    rw [htotal, hnum, hsized.entNum]
    omega

end AddEntry

section AddCache

/-- What `add_cache` does before it purges: nothing, or it stores the new entry, or it
merges its record sets into an entry that is there. -/
inductive Cache.Adds (cfg : CacheConfig) (p : RrSet → Prop) (q : Bool → Arm → Prop) (new : Cent)
    (s : Cache) : Cache → Prop
  | same : Adds cfg p q new s s
  | stored {t : Cache} {d : Cent}
      (hold : ∀ c, s.find new.qname.fold = some c → new.negative = true ∧ c.Foreign)
      (hfind : t.find = Function.update s.find new.qname.fold (some d))
      (hcopy : copyCent d = copyCent (adjustCent cfg (copyCent new))) : Adds cfg p q new s t
  | merged {s₁ t : Cache} {c d : Cent} (hthins : s.Thins p q s₁)
      (hc : s₁.find new.qname.fold = some c) (hpos : new.negative = false)
      (hfind : t.find = Function.update s₁.find new.qname.fold (some d))
      (hmerge : Cent.Merges cfg new c d) : Adds cfg p q new s t

/-- The invariant between two operations. -/
def Good (cfg : CacheConfig) (E : Int × Int → Prop) (s : Cache) : Prop :=
  ∃ xs, Inv cfg.sizes E s xs ∅ ∧ Sized s ∧ s.insertSort = true

variable {p : RrSet → Prop} {q : Bool → Arm → Prop} {s : Cache} {new : Cent}

theorem foreign_of_not_any {c : Cent}
    (h : ¬(List.finRange _).any fun i => (c.rrset i).any fun r => r.flags.isLocal) :
    c.Foreign := by
  intro i r hr
  by_contra hlocal
  refine h (List.any_eq_true.mpr ⟨i, List.mem_finRange i, ?_⟩)
  rw [Option.mem_def.mp hr]
  simpa using hlocal

theorem addCache_spec (hE : ∀ x, E x → 0 ≤ x.1) (hp : ∀ r : RrSet, r.flags.isLocal = false → p r)
    (hq : ∀ a, q false a) (h : Good cfg E s) (hsurplus : E (new.surplus cfg.sizes)) (now : Int) :
    ∃ s₁ t, addCache cfg now s new = some t ∧ Good cfg E t ∧ Cache.Adds cfg p q new s s₁ ∧
      s₁.Thins p q t := by
  obtain ⟨xs, hinv, hsized, hsort⟩ := h
  -- the purge at the end
  have hpurge : ∀ {u : Cache} {zs : List (Addr × Lent)}, Inv cfg.sizes E u zs ∅ → Sized u →
      u.insertSort = true → Cache.Adds cfg p q new s u →
      ∃ s₁ t, purgeCache cfg now u (cfg.permCache * 1024 + mcsz) true = some t ∧ Good cfg E t ∧
        Cache.Adds cfg p q new s s₁ ∧ s₁.Thins p q t := by
    intro u zs hu husized husort hadds
    obtain ⟨t, ys, ht, hpurged⟩ := purgeCache_spec hE hu husized husort hp hq now
      (cfg.permCache * 1024 + mcsz) true
    exact ⟨u, t, ht, ⟨ys, hpurged.inv, hpurged.sized, hpurged.insertSort.trans husort⟩, hadds,
      hpurged.thins⟩
  rw [addCache]
  cases hfind : s.find new.qname.fold with
  | none =>
      simp only [Option.bind_eq_bind]
      split_ifs
      · exact hpurge hinv hsized hsort .same
      · obtain ⟨u, ys, d, hu, huinv, husized, husort, hufind, hcopy, -⟩ :=
          addNew_spec hinv hsized hfind hsurplus
        rw [hu]
        refine hpurge huinv husized (husort.trans hsort) (.stored (fun c hc => ?_) hufind hcopy)
        cases hfind.symm.trans hc
  | some c =>
      simp only [Option.bind_eq_bind]
      cases hneg : new.negative with
      | true =>
          simp only [if_true]
          split_ifs with hany
          · exact ⟨s, s, rfl, ⟨xs, hinv, hsized, hsort⟩, .same, Cache.Thins.refl s⟩
          · obtain ⟨u, hu, huinv, husized, hufind, husort⟩ := hinv.delCacheEnt hsized hfind
            obtain ⟨v, ys, d, hv, hvinv, hvsized, hvsort, hvfind, hcopy, -⟩ :=
              addNew_spec huinv husized (by rw [hufind, Function.update_self]) hsurplus
            rw [hu]
            simp only [Option.bind_some]
            rw [hv]
            refine hpurge hvinv hvsized (hvsort.trans (husort.trans hsort))
              (.stored (fun c' hc' => ⟨hneg, ?_⟩) ?_ hcopy)
            · cases hfind.symm.trans hc'
              exact foreign_of_not_any hany
            · rw [hvfind, hufind, Function.update_idem]
      | false =>
          simp only [Bool.false_eq_true, if_false]
          obtain ⟨u, ys, s₁, c₁, d, hu, huinv, husized, husort, hthins, hc₁, hufind, hmerge, -⟩ :=
            addExisting_spec (q := q) now hinv hsized hfind
              (fun r hr => hp r (RrSet.isLocal_of_purgeable hr))
              fun c hc hn => Cent.isLocal_of_needless hn hc ▸ hq c.arm
          rw [hu]
          exact hpurge huinv husized (husort.trans hsort) (.merged hthins hc₁ hneg hufind hmerge)

end AddCache

end TorAndroid.Dns
