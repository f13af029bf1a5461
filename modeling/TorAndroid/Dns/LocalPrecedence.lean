import TorAndroid.Dns.CacheRun

namespace TorAndroid.Dns

/-- The local data of one cache is in another. -/
structure LocalKept (s t : Cache) : Prop where
  rrset : ∀ k i r, (s.find k).bind (·.rrset i) = some r → r.flags.isLocal = true →
    ∃ r', (t.find k).bind (·.rrset i) = some r' ∧ r'.ttl = r.ttl ∧ r'.ts = r.ts ∧
      r'.flags = r.flags ∧ r'.rrs = r.rrs
  negated : ∀ k c, s.find k = some c → c.negative = true → c.flags.isLocal = true →
    ∃ d, t.find k = some d ∧ d.negative = true ∧ d.flags.isLocal = true

/-- A new entry that leaves a locally negated name alone. -/
def Harmless (s : Cache) (new : Cent) : Prop :=
  ∀ c, s.find new.qname.fold = some c → c.negative = true → c.flags.isLocal = true →
    new.negative = false ∧ ∀ i, ∀ r ∈ new.rrset i, r.flags.negative = false

section Relations

variable {s t u : Cache}

theorem LocalKept.refl (s : Cache) : LocalKept s s :=
  ⟨fun _ _ r h _ => ⟨r, h, rfl, rfl, rfl, rfl⟩, fun _ c h hneg hlocal => ⟨c, h, hneg, hlocal⟩⟩

theorem LocalKept.trans (h₁ : LocalKept s t) (h₂ : LocalKept t u) : LocalKept s u := by
  refine ⟨fun k i r hr hlocal => ?_, fun k c hc hneg hlocal => ?_⟩
  · obtain ⟨r', hr', httl, hts, hflags, hrrs⟩ := h₁.rrset k i r hr hlocal
    obtain ⟨r'', hr'', httl', hts', hflags', hrrs'⟩ := h₂.rrset k i r' hr' (by rw [hflags, hlocal])
    exact ⟨r'', hr'', httl'.trans httl, hts'.trans hts, hflags'.trans hflags, hrrs'.trans hrrs⟩
  · obtain ⟨d, hd, hneg', hlocal'⟩ := h₁.negated k c hc hneg hlocal
    exact h₂.negated k d hd hneg' hlocal'

/-- What may be taken away by a purge is not local. -/
def notLocalSet (r : RrSet) : Prop :=
  r.flags.isLocal = false

def notLocalEntry (isLocal : Bool) (_ : Arm) : Prop :=
  isLocal = false

theorem LocalKept.of_thins (h : s.Thins notLocalSet notLocalEntry t) : LocalKept s t := by
  refine ⟨fun k i r hr hlocal => ?_, fun k c hc hneg hlocal => ?_⟩
  · obtain ⟨c, hc, hcr⟩ := Option.bind_eq_some_iff.mp hr
    have hk := h k
    rw [hc] at hk
    cases hd : t.find k with
    | none =>
        rw [hd] at hk
        cases hk with
        | gone hrrset _ =>
            rw [show r.flags.isLocal = false from hrrset i r hcr] at hlocal
            cases hlocal
    | some d =>
        rw [hd] at hk
        cases hk with
        | kept hthins =>
            rcases hthins.rrset i with heq | ⟨-, hp⟩
            · exact ⟨r, heq.trans hcr, rfl, rfl, rfl, rfl⟩
            · rw [show r.flags.isLocal = false from hp r hcr] at hlocal
              cases hlocal
  · have hk := h k
    rw [hc] at hk
    cases hd : t.find k with
    | none =>
        rw [hd] at hk
        cases hk with
        | gone _ hgone =>
            rw [show c.flags.isLocal = false from hgone hneg] at hlocal
            cases hlocal
    | some d =>
        rw [hd] at hk
        cases hk with
        | kept hthins => exact ⟨d, rfl, hthins.negative.trans hneg, hthins.isLocal.trans hlocal⟩

theorem LocalKept.of_update {k : Key} {v : Option Cent}
    (hfind : t.find = Function.update s.find k v)
    (hrrset : ∀ c i r, s.find k = some c → c.rrset i = some r → r.flags.isLocal = true →
      (v.bind (·.rrset i)).map RrSet.bare = some r.bare)
    (hneg : ∀ c, s.find k = some c → c.negative = true → c.flags.isLocal = true →
      ∃ d, v = some d ∧ d.negative = true ∧ d.flags.isLocal = true) : LocalKept s t := by
  refine ⟨fun k' i r hr hlocal => ?_, fun k' c hc hcneg hlocal => ?_⟩
  · rw [hfind]
    by_cases hk : k' = k
    · subst hk
      rw [Function.update_self]
      obtain ⟨c, hc, hcr⟩ := Option.bind_eq_some_iff.mp hr
      obtain ⟨r', hr', hbare⟩ := exists_of_map_bare (hrrset c i r hc hcr hlocal)
      simp only [RrSet.bare, RrSet.mk.injEq, true_and] at hbare
      exact ⟨r', hr', hbare⟩
    · rw [Function.update_of_ne hk]
      exact ⟨r, hr, rfl, rfl, rfl, rfl⟩
  · rw [hfind]
    by_cases hk : k' = k
    · subst hk
      rw [Function.update_self]
      exact hneg c hc hcneg hlocal
    · rw [Function.update_of_ne hk]
      exact ⟨c, hc, hcneg, hlocal⟩

theorem LocalKept.of_adds {cfg : CacheConfig} {new : Cent}
    (h : Cache.Adds cfg notLocalSet notLocalEntry new s t) (hforeign : new.Foreign)
    (hharmless : Harmless s new) : LocalKept s t := by
  cases h with
  | same => exact LocalKept.refl s
  | stored hold hfind hcopy =>
      refine .of_update hfind (fun c i r hc hr hlocal => ?_) fun c hc hneg hlocal => ?_
      · rw [(hold c hc).2 i r hr] at hlocal
        cases hlocal
      · rw [(hharmless c hc hneg hlocal).1] at hold
        cases (hold c hc).1
  | @merged s₁ _ c d hthins hc hpos hfind hmerge =>
      refine (LocalKept.of_thins hthins).trans (.of_update hfind ?_ ?_)
      · intro c' i r hc' hr hlocal
        cases hc.symm.trans hc'
        exact hmerge.keeps hforeign i r hr hlocal
      · intro c' hc' hneg hlocal
        cases hc.symm.trans hc'
        refine ⟨d, rfl, hmerge.negates hforeign ?_ hneg hlocal, hmerge.isLocal.trans hlocal⟩
        -- the entry was negated locally before it was purged
        have hk := hthins new.qname.fold
        rw [hc] at hk
        cases hs : s.find new.qname.fold with
        | none =>
            rw [hs] at hk
            cases hk
        | some c₀ =>
            rw [hs] at hk
            cases hk with
            | kept h₀ =>
                exact (hharmless c₀ hs (h₀.negative.symm.trans hneg)
                  (h₀.isLocal.symm.trans hlocal)).2

end Relations

section Runs

variable (cfg : CacheConfig)

/-- The operations that bring nothing local: an entry without local data is added,
a name is looked up, or the cache is purged. -/
def Op.Foreign : Op → Prop
  | .add _ e => e.flags.isLocal = false ∧ ∀ c ∈ e.cent cfg.sizes, c.Foreign
  | .lookup .. => True
  | .purge .. => True
  | _ => False

/-- An entry that is added is neither negative nor has a negative record set, if its
name is negated locally. -/
def Op.Harmless (s : Cache) : Op → Prop
  | .add _ e => ∀ c ∈ e.cent cfg.sizes, Dns.Harmless s c
  | _ => True

/-- Every operation of a run meets the condition in the state it starts from. -/
def AllHarmless : Cache → List Op → Prop
  | _, [] => True
  | s, op :: ops => op.Harmless cfg s ∧ ∀ t, step cfg s op = some t → AllHarmless t ops

variable {cfg} {E : Int × Int → Prop} {s : Cache}

theorem localKept_step (hE : ∀ x, E x → 0 ≤ x.1) (hnonneg : ∀ x : Int × Int, 0 ≤ x.1 → E x)
    (h : Good cfg E s) {op : Op} (hforeign : op.Foreign cfg) (hharmless : op.Harmless cfg s) :
    ∃ t, step cfg s op = some t ∧ Good cfg E t ∧ LocalKept s t := by
  cases op with
  | add now e =>
      obtain ⟨c, hc, -, hweak, -⟩ := e.build_spec cfg.sizes
      obtain ⟨s₁, t, ht, hgood, hadds, hthins⟩ := addCache_spec (p := notLocalSet)
        (q := notLocalEntry) hE (fun _ hr => hr) (fun _ => rfl) h
        (hnonneg _ (Prod.le_def.mp hweak).1) now
      have hcent : c ∈ e.cent cfg.sizes := by
        rw [Recipe.cent, hc]
        rfl
      refine ⟨t, ?_, hgood, ?_⟩
      · simp only [step, hc, Option.bind_eq_bind, Option.bind_some]
        exact ht
      · exact (LocalKept.of_adds hadds (hforeign.2 c hcent) (hharmless c hcent)).trans
          (.of_thins hthins)
  | lookup now name wild =>
      obtain ⟨t, ht, hgood, hthins⟩ := lookupCache_spec (p := notLocalSet) (q := notLocalEntry) h
        (fun _ hr => RrSet.isLocal_of_purgeable hr)
        (fun _ hneg hneedless => Cent.isLocal_of_needless hneedless hneg) name wild
      exact ⟨t, ht, hgood, .of_thins hthins⟩
  | purge now limit lazy =>
      obtain ⟨xs, hinv, hsized, hsort⟩ := h
      obtain ⟨t, ys, ht, hpurged⟩ := purgeCache_spec (p := notLocalSet) (q := notLocalEntry) hE
        hinv hsized hsort (fun _ hr => hr) (fun _ => rfl) now limit lazy
      exact ⟨t, ht, ⟨ys, hpurged.inv, hpurged.sized, hpurged.insertSort.trans hsort⟩,
        .of_thins hpurged.thins⟩
  | del | invalidate | setFlags | empty => exact hforeign.elim

/-- From every reachable state, local data is kept by every run that brings nothing
local and meets the condition. -/
theorem local_kept (cfg : CacheConfig) (before after : List Op) {s : Cache}
    (hs : run cfg before = some s) (hforeign : ∀ op ∈ after, op.Foreign cfg)
    (hharmless : AllHarmless cfg s after) :
    ∃ t, after.foldlM (step cfg) s = some t ∧ LocalKept s t := by
  obtain ⟨s', hs', hgood⟩ : ∃ s, run cfg before = some s ∧ Good cfg (fun x => 0 ≤ x.1) s :=
    good_run (fun _ hx => hx) (by
      rintro op hop now e rfl l m c hbuild
      obtain ⟨d, hd, -, hweak, -⟩ := e.build_spec cfg.sizes
      cases (hd l).symm.trans hbuild
      exact (Prod.le_def.mp hweak).1)
  cases hs.symm.trans hs'
  clear hs hs'
  induction after generalizing s with
  | nil => exact ⟨s, rfl, LocalKept.refl s⟩
  | cons op ops ih =>
      rw [List.forall_mem_cons] at hforeign
      obtain ⟨t, ht, hgood', hkept⟩ :=
        localKept_step (fun _ hx => hx) (fun _ hx => hx) hgood hforeign.1 hharmless.1
      obtain ⟨u, hu, hkept'⟩ := ih hforeign.2 (hharmless.2 t ht) hgood'
      refine ⟨u, ?_, hkept.trans hkept'⟩
      rw [List.foldlM_cons, ht]
      exact hu

end Runs

section Example

/-- A name that is negated locally, as in the configuration file. -/
def localNegation : Recipe where
  qname := exampleName
  negative := true
  ttl := 86400
  ts := 0
  flags := ⟨true, false, false, false⟩
  ops := []

/-- An entry with a local record set. -/
def localData : Recipe where
  qname := exampleName
  negative := false
  ttl := 0
  ts := 0
  flags := ⟨true, false, false, false⟩
  ops := [.rr slotNS 86400 0 ⟨false, true, false, false, false, false, false⟩ [0]]

/-- A name error from a name server. -/
def nameError : Recipe where
  qname := exampleName
  negative := true
  ttl := 900
  ts := 1000
  flags := ⟨false, false, false, false⟩
  ops := []

theorem local_kept_nameError :
    ∃ s t, run exampleConfig [.add 1000 localData] = some s ∧
      [Op.add 1000 nameError, .lookup 2000 exampleName false].foldlM (step exampleConfig) s =
        some t ∧ LocalKept s t := by
  obtain ⟨s, hs⟩ := Option.isSome_iff_exists.mp
    (show (run exampleConfig [.add 1000 localData]).isSome by decide +kernel)
  have hpos : (run exampleConfig [.add 1000 localData]).all
      (fun s => (s.find exampleName.fold).all fun c => !c.negative) = true := by decide +kernel
  rw [hs, Option.all_some] at hpos
  obtain ⟨t, ht, hkept⟩ := local_kept exampleConfig [.add 1000 localData]
    [.add 1000 nameError, .lookup 2000 exampleName false] hs
    (by
      refine List.forall_mem_cons.mpr ⟨⟨rfl, ?_⟩, List.forall_mem_singleton.mpr trivial⟩
      rintro _ ⟨⟩ i r hr
      cases hr)
    (by
      refine ⟨?_, fun _ _ => ⟨trivial, fun _ _ => trivial⟩⟩
      rintro _ ⟨⟩ c hc hneg
      rw [show s.find exampleName.fold = some c from hc] at hpos
      simp [hneg] at hpos)
  exact ⟨s, t, hs, ht, hkept⟩

/-- A name error takes the place of a local negation. -/
theorem local_negation_lost :
    ¬∀ (before after : List Op) (s : Cache), run exampleConfig before = some s →
      (∀ op ∈ after, op.Foreign exampleConfig) →
      ∃ t, after.foldlM (step exampleConfig) s = some t ∧ LocalKept s t := by
  intro h
  obtain ⟨s, hs⟩ := Option.isSome_iff_exists.mp
    (show (run exampleConfig [.add 1000 localNegation]).isSome by decide +kernel)
  obtain ⟨t, ht, hkept⟩ := h [.add 1000 localNegation] [.add 1000 nameError] s hs (by
    refine List.forall_mem_singleton.mpr ⟨rfl, ?_⟩
    rintro _ ⟨⟩ i r hr
    cases hr)
  have hbefore : (run exampleConfig [.add 1000 localNegation]).map
      (fun s => (s.find exampleName.fold).map fun c => c.negative && c.flags.isLocal) =
        some (some true) := by decide +kernel
  have hafter : ((run exampleConfig [.add 1000 localNegation]).bind fun s =>
      ([.add 1000 nameError].foldlM (step exampleConfig) s)).map
      (fun s => (s.find exampleName.fold).map fun c => c.flags.isLocal) =
        some (some false) := by decide +kernel
  rw [hs, Option.map_some, Option.some.injEq, Option.map_eq_some_iff] at hbefore
  obtain ⟨c, hc, hboth⟩ := hbefore
  rw [Bool.and_eq_true] at hboth
  obtain ⟨d, hd, -, hlocal⟩ := hkept.negated _ c hc hboth.1 hboth.2
  rw [hs, Option.bind_some, ht, Option.map_some, hd, Option.map_some, hlocal] at hafter
  cases hafter

end Example

end TorAndroid.Dns
