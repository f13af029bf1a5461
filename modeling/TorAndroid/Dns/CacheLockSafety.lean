import TorAndroid.Lib.GuardedRun
import TorAndroid.Lib.ThreadPool
import TorAndroid.Dns.CacheLock

namespace TorAndroid.Dns.CacheLock

open TorAndroid.Lib.GuardedRun
open TorAndroid.Lib.ThreadPool

namespace Place

def isReading : Place → Bool
  | .reading => true
  | _ => false

def sleepsR : Place → Bool
  | .waitsR => true
  | _ => false

def readyR : Place → Bool
  | .wokenR => true
  | _ => false

def pendsR : Place → Bool
  | .waitsR | .wokenR => true
  | _ => false

def sleepsRw : Place → Bool
  | .waitsRw _ => true
  | _ => false

/-- A writer that looks at the lock with its next step. -/
def readyRw : Place → Bool
  | .wokenRw _ | .napping => true
  | _ => false

def pendsRw : Place → Bool
  | .waitsRw _ | .wokenRw _ | .timedOut => true
  | _ => false

/-- A pending writer that does not go away before it has had the lock. -/
def staysRw : Place → Bool
  | .waitsRw false | .wokenRw false => true
  | _ => false

end Place

/-- The number of threads in a class of places. -/
def State.num (s : State) (f : Place → Bool) : Nat := s.threads.countP f

theorem num_pos_of_getElem? {s : State} {i : Nat} {p : Place} {f : Place → Bool}
    (h : s.threads[i]? = some p) (hp : f p = true) : 0 < s.num f :=
  countP_pos_of_getElem? h hp

theorem num_eq_zero_of_forall {s : State} {f g : Place → Bool}
    (h : ∀ p ∈ s.threads, f p = false) (hle : ∀ p, g p = true → f p = true) :
    s.num g = 0 := by
  refine List.countP_eq_zero.mpr fun p hmem hp => ?_
  have hfalse := h p hmem
  rw [hle p hp] at hfalse
  cases hfalse

theorem num_pendsR (s : State) : s.num Place.pendsR = s.num Place.sleepsR + s.num Place.readyR :=
  countP_split (by intro p; cases p <;> rfl) s.threads

theorem num_pendsRw (s : State) :
    s.num Place.pendsRw = s.num Place.staysRw + s.num Place.inTimedlock :=
  countP_split (by
    intro p
    cases p with
    | waitsRw timed => cases timed <;> rfl
    | wokenRw timed => cases timed <;> rfl
    | _ => rfl) s.threads

/-- The variables count the threads. -/
structure State.Counted (s : State) : Prop where
  writers : s.num Place.holdsRw = s.cacheWLock
  readers : s.num Place.isReading = s.cacheRLock
  pending_r : s.num Place.pendsR = s.rPend
  pending_rw : s.num Place.pendsRw = s.rwPend

/-- A writer has the lock or is pending until it has had it. -/
def State.WriterStays (s : State) : Prop := 0 < s.cacheWLock + s.num Place.staysRw

/-- The rw lock is exclusive, and a writer answers for the readers that wait or are
suspended. -/
structure State.Covered (s : State) : Prop where
  one_writer : s.cacheWLock ≤ 1
  exclusive : s.cacheWLock = 0 ∨ s.cacheRLock = 0
  one_timed : s.num Place.inTimedlock ≤ 1
  suspended : s.rSusp ≠ 0 → s.WriterStays
  waiting_r : 0 < s.num Place.sleepsR → s.WriterStays

/-- While a writer waits for a free lock, somebody will take the lock: a writer, or a
reader that nothing suspends. -/
def State.Lively (s : State) : Prop :=
  s.cacheWLock = 0 → s.cacheRLock = 0 → 0 < s.num Place.sleepsRw →
    0 < s.num Place.readyRw ∨
      0 < s.num Place.readyR ∧ s.rSusp = 0 ∧ s.rwPend ≤ suspThresh s.rPend

structure State.Inv (s : State) : Prop where
  counted : s.Counted
  covered : s.Covered
  lively : s.Lively

theorem inv_init (n : Nat) : (State.init n).Inv := by
  have hnum : ∀ f : Place → Bool, f .out = false → (State.init n).num f = 0 := by
    intro f hf
    unfold State.num State.init
    rw [List.countP_replicate, hf]
    rfl
  refine ⟨⟨hnum _ rfl, hnum _ rfl, hnum _ rfl, hnum _ rfl⟩,
    ⟨Nat.zero_le 1, .inl rfl, ?_, fun h => absurd rfl h, ?_⟩, ?_⟩
  · rw [hnum _ rfl]
    exact Nat.zero_le 1
  · rw [hnum _ rfl]
    exact fun h => absurd h (Nat.lt_irrefl 0)
  · intro _ _ hwaits
    rw [hnum _ rfl] at hwaits
    exact absurd hwaits (Nat.lt_irrefl 0)

/-- One thread goes from `p` to `q`, whatever happens to the variables. -/
def State.Goes (s t : State) (p q : Place) : Prop :=
  ∀ f, t.num f + (f p).toNat = s.num f + (f q).toNat

theorem State.Goes.of_set {s t : State} {i : Nat} {p q : Place}
    (h : s.threads[i]? = some p) (ht : t.threads = s.threads.set i q) : s.Goes t p q := by
  intro f
  unfold State.num
  rw [ht]
  exact countP_set_add f h

section Moves

variable {s t : State} {p q : Place}

theorem State.Goes.le (hgo : s.Goes t p q) {f : Place → Bool}
    (h : f p = true → f q = true) : s.num f ≤ t.num f := by
  have hf := hgo f
  cases hp : f p with
  | false =>
      rw [hp] at hf
      simp only [Bool.toNat_false] at hf
      omega
  | true =>
      rw [hp, h hp] at hf
      omega

theorem State.Goes.ge (hgo : s.Goes t p q) {f : Place → Bool}
    (h : f q = true → f p = true) : t.num f ≤ s.num f := by
  have hf := hgo f
  cases hq : f q with
  | false =>
      rw [hq] at hf
      simp only [Bool.toNat_false] at hf
      omega
  | true =>
      rw [hq, h hq] at hf
      omega

theorem State.Counted.goes (hc : s.Counted) (hgo : s.Goes t p q)
    (hw : t.cacheWLock + p.holdsRw.toNat = s.cacheWLock + q.holdsRw.toNat)
    (hr : t.cacheRLock + p.isReading.toNat = s.cacheRLock + q.isReading.toNat)
    (hrPend : t.rPend + p.pendsR.toNat = s.rPend + q.pendsR.toNat)
    (hrwPend : t.rwPend + p.pendsRw.toNat = s.rwPend + q.pendsRw.toNat) : t.Counted := by
  constructor
  · have hnum := hgo Place.holdsRw
    rw [hc.writers] at hnum
    omega
  · have hnum := hgo Place.isReading
    rw [hc.readers] at hnum
    omega
  · have hnum := hgo Place.pendsR
    rw [hc.pending_r] at hnum
    omega
  · have hnum := hgo Place.pendsRw
    rw [hc.pending_rw] at hnum
    omega

/-- A move that leaves `cache_w_lock` and `r_susp`. -/
theorem State.Covered.goes (hcov : s.Covered) (hgo : s.Goes t p q)
    (hw : t.cacheWLock = s.cacheWLock) (hsusp : t.rSusp = s.rSusp)
    (hexcl : t.cacheWLock = 0 ∨ t.cacheRLock = 0)
    (htimed : q.inTimedlock = true →
      p.inTimedlock = true ∨ s.num Place.inTimedlock = 0)
    (hstays : p.staysRw = true → q.staysRw = true)
    (hsleeps : q.sleepsR = true → p.sleepsR = true ∨ s.WriterStays) : t.Covered := by
  have hstays' : s.WriterStays → t.WriterStays := by
    have hle := hgo.le hstays
    unfold State.WriterStays
    omega
  refine ⟨hw ▸ hcov.one_writer, hexcl, ?_, fun h => hstays' (hcov.suspended (hsusp ▸ h)), ?_⟩
  · have hone := hcov.one_timed
    by_cases hp : q.inTimedlock = true → p.inTimedlock = true
    · exact Nat.le_trans (hgo.ge hp) hone
    · rw [Classical.not_imp] at hp
      have hnum := hgo Place.inTimedlock
      rw [(htimed hp.1).resolve_left hp.2, hp.1] at hnum
      simp only [Bool.toNat_true] at hnum
      omega
  · intro hwaits
    by_cases hq : q.sleepsR = true → p.sleepsR = true
    · exact hstays' (hcov.waiting_r (Nat.lt_of_lt_of_le hwaits (hgo.ge hq)))
    · rw [Classical.not_imp] at hq
      exact hstays' ((hsleeps hq.1).resolve_left hq.2)

/-- A move that takes no thread out of the race for the lock and suspends no reader. -/
theorem State.Lively.goes (hlive : s.Lively) (hgo : s.Goes t p q)
    (hw : t.cacheWLock = s.cacheWLock) (hr : t.cacheRLock = s.cacheRLock)
    (hsusp : t.rSusp = s.rSusp) (hrw : t.rwPend ≤ s.rwPend) (hrd : s.rPend ≤ t.rPend)
    (hsleeps : q.sleepsRw = true → p.sleepsRw = true)
    (hready : p.readyRw = true → q.readyRw = true)
    (hreadyR : p.readyR = true → q.readyR = true) : t.Lively := by
  intro hfreeW hfreeR hwaits
  have hold := hlive (hw ▸ hfreeW) (hr ▸ hfreeR) (Nat.lt_of_lt_of_le hwaits (hgo.ge hsleeps))
  have hleW := hgo.le hready
  have hleR := hgo.le hreadyR
  rcases hold with hpos | ⟨hpos, hzero, hfew⟩
  · exact .inl (Nat.lt_of_lt_of_le hpos hleW)
  · refine .inr ⟨Nat.lt_of_lt_of_le hpos hleR, hsusp.trans hzero, ?_⟩
    unfold suspThresh at hfew ⊢
    omega

theorem State.Lively.of_ready (h : 0 < t.num Place.readyRw) : t.Lively :=
  fun _ _ _ => .inl h

variable {i : Nat}

/-- Readers are only suspended while a writer without a time limit is pending. -/
theorem State.Inv.suspend (hinv : s.Inv) (hmany : suspThresh s.rPend < s.rwPend) :
    { s with rSusp := 1 }.Inv := by
  obtain ⟨hc, hcov, hlive⟩ := hinv
  have hsplit := num_pendsRw s
  have hpend := hc.pending_rw
  have htimed := hcov.one_timed
  refine ⟨{ hc with }, { hcov with suspended := ?_ }, ?_⟩
  · intro _
    change 0 < s.cacheWLock + s.num Place.staysRw
    unfold suspThresh at hmany
    omega
  · intro hw hr hwaits
    rcases hlive hw hr hwaits with hready | ⟨_, _, hfew⟩
    · exact .inl hready
    · exact absurd hmany (Nat.not_lt.mpr hfew)

theorem State.Inv.enterR (hinv : s.Inv) (h : s.threads[i]? = some .out) :
    ({ s with rPend := s.rPend + 1 }.move i .wokenR).Inv := by
  have hgo : s.Goes ({ s with rPend := s.rPend + 1 }.move i .wokenR) .out .wokenR :=
    .of_set h rfl
  refine ⟨hinv.counted.goes hgo rfl rfl rfl rfl, ?_, ?_⟩
  · exact hinv.covered.goes hgo rfl rfl hinv.covered.exclusive nofun nofun nofun
  · exact hinv.lively.goes hgo rfl rfl rfl (Nat.le_refl _) (Nat.le_succ _) nofun nofun nofun

theorem State.Inv.waitR (hinv : s.Inv) (h : s.threads[i]? = some .wokenR)
    (hbusy : s.rSusp ≠ 0 ∨ s.cacheWLock ≠ 0) : (s.move i .waitsR).Inv := by
  have hgo : s.Goes (s.move i .waitsR) .wokenR .waitsR := .of_set h rfl
  have hwriter : s.WriterStays := by
    rcases hbusy with hsusp | hw
    · exact hinv.covered.suspended hsusp
    · unfold State.WriterStays
      omega
  refine ⟨hinv.counted.goes hgo rfl rfl rfl rfl, ?_, ?_⟩
  · exact hinv.covered.goes hgo rfl rfl hinv.covered.exclusive nofun nofun
      fun _ => .inr hwriter
  · intro hw hr hwaits
    have hold := hinv.lively hw hr (Nat.lt_of_lt_of_le hwaits (hgo.ge nofun))
    rcases hold with hready | ⟨_, hzero, _⟩
    · exact .inl (Nat.lt_of_lt_of_le hready (hgo.le nofun))
    · exact absurd hbusy (by rw [not_or]; exact ⟨not_not.mpr hzero, not_not.mpr hw⟩)

theorem State.Inv.takeR (hinv : s.Inv) (h : s.threads[i]? = some .wokenR)
    (hfree : s.cacheWLock = 0) :
    ({ s with cacheRLock := s.cacheRLock + 1, rPend := s.rPend - 1 }.move i .reading).Inv := by
  have hgo : s.Goes ({ s with cacheRLock := s.cacheRLock + 1, rPend := s.rPend - 1 }.move i
      .reading) .wokenR .reading := .of_set h rfl
  have hpos : 0 < s.rPend := by
    rw [← hinv.counted.pending_r]
    exact num_pos_of_getElem? h rfl
  refine ⟨hinv.counted.goes hgo rfl rfl (Nat.sub_add_cancel hpos) rfl, ?_, nofun⟩
  exact hinv.covered.goes hgo rfl rfl (.inl hfree) nofun nofun nofun

/-- A writer enters from outside or after the pause of `yield_lock_cache_rw`. -/
theorem State.Inv.enterRw (hinv : s.Inv) {timed : Bool} (h : s.threads[i]? = some p)
    (hp : p = .out ∨ p = .napping)
    (hone : timed = true → s.num Place.inTimedlock = 0) :
    ({ s with rwPend := s.rwPend + 1 }.move i (.wokenRw timed)).Inv := by
  have hgo : s.Goes ({ s with rwPend := s.rwPend + 1 }.move i (.wokenRw timed)) p
      (.wokenRw timed) := .of_set h rfl
  have hready : 0 < ({ s with rwPend := s.rwPend + 1 }.move i (.wokenRw timed)).num
      Place.readyRw :=
    num_pos_of_getElem? (getElem?_set_moved h) rfl
  have htimed : (Place.wokenRw timed).inTimedlock = true →
      p.inTimedlock = true ∨ s.num Place.inTimedlock = 0 := by
    intro hin
    cases timed with
    | false => cases hin
    | true => exact .inr (hone rfl)
  refine ⟨?_, ?_, .of_ready hready⟩
  · rcases hp with rfl | rfl <;> exact hinv.counted.goes hgo rfl rfl rfl rfl
  · rcases hp with rfl | rfl <;>
      exact hinv.covered.goes hgo rfl rfl hinv.covered.exclusive htimed nofun nofun

theorem State.Inv.waitRw (hinv : s.Inv) {timed : Bool}
    (h : s.threads[i]? = some (.wokenRw timed))
    (hbusy : s.cacheWLock ≠ 0 ∨ s.cacheRLock ≠ 0) : (s.move i (.waitsRw timed)).Inv := by
  have hgo : s.Goes (s.move i (.waitsRw timed)) (.wokenRw timed) (.waitsRw timed) :=
    .of_set h rfl
  refine ⟨hinv.counted.goes hgo rfl rfl rfl rfl, ?_, ?_⟩
  · cases timed <;>
      exact hinv.covered.goes hgo rfl rfl hinv.covered.exclusive (fun hin => .inl hin)
        (by decide) nofun
  · intro hw hr
    exact absurd hbusy (by rw [not_or]; exact ⟨not_not.mpr hw, not_not.mpr hr⟩)

theorem State.Inv.takeRw (hinv : s.Inv) {timed : Bool}
    (h : s.threads[i]? = some (.wokenRw timed)) (hfree : s.cacheWLock = 0)
    (hnone : s.cacheRLock = 0) :
    ({ s with cacheWLock := 1, rwPend := s.rwPend - 1 }.move i .writing).Inv := by
  have hgo : s.Goes ({ s with cacheWLock := 1, rwPend := s.rwPend - 1 }.move i .writing)
      (.wokenRw timed) .writing := .of_set h rfl
  have hpos : 0 < s.rwPend := by
    rw [← hinv.counted.pending_rw]
    exact num_pos_of_getElem? h rfl
  have hwriter : ({ s with cacheWLock := 1, rwPend := s.rwPend - 1 }.move i
      .writing).WriterStays := Nat.lt_of_lt_of_le Nat.one_pos (Nat.le_add_right _ _)
  refine ⟨?_, ⟨Nat.le_refl 1, .inr hnone, ?_, fun _ => hwriter, fun _ => hwriter⟩, nofun⟩
  · refine hinv.counted.goes hgo ?_ rfl rfl (Nat.sub_add_cancel hpos)
    rw [hfree]
    rfl
  · exact Nat.le_trans (hgo.ge nofun) hinv.covered.one_timed

theorem State.Inv.giveUp (hinv : s.Inv) (h : s.threads[i]? = some (.waitsRw true)) :
    (s.move i .timedOut).Inv := by
  have hgo : s.Goes (s.move i .timedOut) (.waitsRw true) .timedOut := .of_set h rfl
  refine ⟨hinv.counted.goes hgo rfl rfl rfl rfl, ?_, ?_⟩
  · exact hinv.covered.goes hgo rfl rfl hinv.covered.exclusive (fun hin => .inl hin) nofun nofun
  · exact hinv.lively.goes hgo rfl rfl rfl (Nat.le_refl _) (Nat.le_refl _) nofun nofun nofun

theorem State.Inv.cleanupReturn (hinv : s.Inv) (h : s.threads[i]? = some .timedOut) :
    (cleanupReturn s i).Inv := by
  have hgo : s.Goes (CacheLock.cleanupReturn s i) .timedOut .out := .of_set h rfl
  have hpos : 0 < s.rwPend := by
    rw [← hinv.counted.pending_rw]
    exact num_pos_of_getElem? h rfl
  refine ⟨hinv.counted.goes hgo rfl rfl rfl (Nat.sub_add_cancel hpos), ?_, ?_⟩
  · exact hinv.covered.goes hgo rfl rfl hinv.covered.exclusive nofun nofun nofun
  · exact hinv.lively.goes hgo rfl rfl rfl (Nat.sub_le _ _) (Nat.le_refl _) nofun nofun nofun

theorem State.Inv.startYield (hinv : s.Inv) (h : s.threads[i]? = some .writing) :
    (s.move i .yielding).Inv := by
  have hgo : s.Goes (s.move i .yielding) .writing .yielding := .of_set h rfl
  refine ⟨hinv.counted.goes hgo rfl rfl rfl rfl, ?_, ?_⟩
  · exact hinv.covered.goes hgo rfl rfl hinv.covered.exclusive nofun nofun nofun
  · exact hinv.lively.goes hgo rfl rfl rfl (Nat.le_refl _) (Nat.le_refl _) nofun nofun nofun

theorem State.Inv.wakeR (hinv : s.Inv) (h : s.threads[i]? = some .waitsR) :
    (s.move i .wokenR).Inv := by
  have hgo : s.Goes (s.move i .wokenR) .waitsR .wokenR := .of_set h rfl
  refine ⟨hinv.counted.goes hgo rfl rfl rfl rfl, ?_, ?_⟩
  · exact hinv.covered.goes hgo rfl rfl hinv.covered.exclusive nofun nofun nofun
  · exact hinv.lively.goes hgo rfl rfl rfl (Nat.le_refl _) (Nat.le_refl _) nofun nofun nofun

/-- A woken writer makes the lock lively. -/
theorem inv_wakeRw (hc : s.Counted) (hcov : s.Covered) {timed : Bool}
    (h : s.threads[i]? = some (.waitsRw timed)) : (s.move i (.wokenRw timed)).Inv := by
  have hgo : s.Goes (s.move i (.wokenRw timed)) (.waitsRw timed) (.wokenRw timed) :=
    .of_set h rfl
  have hready : 0 < (s.move i (.wokenRw timed)).num Place.readyRw :=
    num_pos_of_getElem? (getElem?_set_moved h) rfl
  refine ⟨hc.goes hgo rfl rfl rfl rfl, ?_, .of_ready hready⟩
  cases timed <;>
    exact hcov.goes hgo rfl rfl hcov.exclusive (fun hin => .inl hin) (by decide) nofun

theorem inv_signalRw {woken : Option Nat} (hc : s.Counted) (hcov : s.Covered)
    (h : signalRw s woken = some t) : t.Inv := by
  unfold signalRw at h
  split at h
  · split at h
    · rename_i k timed hk
      obtain rfl := Option.some.inj h
      exact inv_wakeRw hc hcov hk
    · cases h
  · split at h
    · cases h
    · rename_i hnone
      obtain rfl := Option.some.inj h
      refine ⟨hc, hcov, fun _ _ hwaits => ?_⟩
      obtain ⟨p, hmem, hp⟩ := List.countP_pos_iff.mp hwaits
      cases p with
      | waitsRw timed => cases timed <;> exact absurd hmem (by tauto)
      | _ => cases hp

/-- What the release of the rw lock leaves before it wakes anyone. -/
theorem State.Inv.leaveRw (hinv : s.Inv) (h : s.threads[i]? = some p)
    (hp : p = .writing ∨ p = .yielding) (hq : q = .out ∨ q = .napping) :
    { s.move i q with cacheWLock := 0, rSusp := 0 }.Counted ∧
      { s.move i q with cacheWLock := 0, rSusp := 0 }.num Place.inTimedlock ≤ 1 := by
  have hgo : s.Goes { s.move i q with cacheWLock := 0, rSusp := 0 } p q := .of_set h rfl
  have hpq : p.holdsRw = true ∧ q.holdsRw = false ∧ p.isReading = q.isReading ∧
      p.pendsR = q.pendsR ∧ p.pendsRw = q.pendsRw ∧ q.inTimedlock = false := by
    rcases hp with rfl | rfl <;> rcases hq with rfl | rfl <;> decide
  obtain ⟨hpW, hqW, hR, hpendR, hpendRw, htimed⟩ := hpq
  have hheld : s.cacheWLock = 1 := by
    have hpos : 0 < s.num Place.holdsRw := num_pos_of_getElem? h hpW
    have hone := hinv.covered.one_writer
    rw [hinv.counted.writers] at hpos
    omega
  refine ⟨hinv.counted.goes hgo ?_ ?_ ?_ ?_, ?_⟩
  · rw [hpW, hqW, hheld]
    rfl
  · rw [hR]
    rfl
  · rw [hpendR]
    rfl
  · rw [hpendRw]
    rfl
  · refine Nat.le_trans (hgo.ge ?_) hinv.covered.one_timed
    rw [htimed]
    nofun

theorem num_broadcastR (s : State) (f : Place → Bool) :
    (broadcastR s).num f = s.num fun p => f p.wakeR := by
  unfold State.num broadcastR
  rw [List.countP_map]
  rfl

theorem num_broadcastR_eq (s : State) {f g : Place → Bool} (h : ∀ p, f p.wakeR = g p) :
    (broadcastR s).num f = s.num g := by
  rw [num_broadcastR, funext h]

/-- The broadcast wakes all readers, and nothing suspends them. -/
theorem inv_broadcastR (hc : t.Counted) (htimed : t.num Place.inTimedlock ≤ 1)
    (hfree : t.cacheWLock = 0) (hsusp : t.rSusp = 0) (hpend : 0 < t.rPend)
    (hfew : t.rwPend ≤ suspThresh t.rPend) : (broadcastR t).Inv := by
  have hsleeps : (broadcastR t).num Place.sleepsR = 0 := by
    rw [num_broadcastR]
    exact List.countP_eq_zero.mpr fun p _ => by cases p <;> simp [Place.wakeR, Place.sleepsR]
  have hready : (broadcastR t).num Place.readyR = t.num Place.pendsR :=
    num_broadcastR_eq t (by intro p; cases p <;> rfl)
  refine ⟨⟨?_, ?_, ?_, ?_⟩, ⟨?_, .inl hfree, ?_, ?_, ?_⟩, ?_⟩
  · exact (num_broadcastR_eq t (by intro p; cases p <;> rfl)).trans hc.writers
  · exact (num_broadcastR_eq t (by intro p; cases p <;> rfl)).trans hc.readers
  · exact (num_broadcastR_eq t (by intro p; cases p <;> rfl)).trans hc.pending_r
  · exact (num_broadcastR_eq t (by intro p; cases p <;> rfl)).trans hc.pending_rw
  · exact Nat.le_trans (Nat.le_of_eq hfree) (Nat.zero_le 1)
  · rw [num_broadcastR_eq t (g := Place.inTimedlock) (by intro p; cases p <;> rfl)]
    exact htimed
  · exact fun hnot => absurd hsusp hnot
  · rw [hsleeps]
    exact fun hpos => absurd hpos (Nat.lt_irrefl 0)
  · intro _ _ _
    refine .inr ⟨?_, hsusp, hfew⟩
    rw [hready, hc.pending_r]
    exact hpend

theorem State.Inv.releaseRw (hinv : s.Inv) {woken : Option Nat}
    (h : s.threads[i]? = some p) (hp : p = .writing ∨ p = .yielding)
    (hq : q = .out ∨ q = .napping) (hrel : releaseRw (s.move i q) woken = some t) :
    t.Inv := by
  obtain ⟨hc, htimed⟩ := hinv.leaveRw h hp hq
  unfold CacheLock.releaseRw at hrel
  simp only at hrel
  split at hrel
  · rename_i hpolicy
    refine inv_signalRw hc ⟨Nat.zero_le 1, .inl rfl, htimed, nofun, ?_⟩ hrel
    -- Either no reader is pending or three writers are, and not all with a time limit.
    intro hwaits
    have hpendR : _ = (s.move i q).rPend := hc.pending_r
    have hpendRw : _ = (s.move i q).rwPend := hc.pending_rw
    rw [num_pendsR] at hpendR
    rw [num_pendsRw] at hpendRw
    unfold State.WriterStays
    unfold suspThresh at hpolicy
    omega
  · rename_i hpolicy
    rw [not_or] at hpolicy
    obtain rfl := Option.some.inj hrel
    exact inv_broadcastR hc htimed rfl rfl (Nat.pos_of_ne_zero hpolicy.1)
      (Nat.le_of_not_lt hpolicy.2)

theorem State.Inv.unlockCacheR (hinv : s.Inv) {woken : Option Nat}
    (h : s.threads[i]? = some .reading) (hun : unlockCacheR s i woken = some t) :
    t.Inv := by
  have hpos : 0 < s.cacheRLock := by
    rw [← hinv.counted.readers]
    exact num_pos_of_getElem? h rfl
  unfold CacheLock.unlockCacheR at hun
  rw [if_pos hpos] at hun
  have hgo : s.Goes ({ s with cacheRLock := s.cacheRLock - 1 }.move i .out) .reading .out :=
    .of_set h rfl
  have hc := hinv.counted.goes hgo rfl (Nat.sub_add_cancel hpos) rfl rfl
  have hcov : ({ s with cacheRLock := s.cacheRLock - 1 }.move i .out).Covered := by
    refine hinv.covered.goes hgo rfl rfl ?_ nofun nofun nofun
    refine .inl (hinv.covered.exclusive.resolve_right ?_)
    omega
  simp only at hun
  split at hun
  · exact inv_signalRw hc hcov hun
  · rename_i hleft
    obtain rfl := Option.some.inj hun
    exact ⟨hc, hcov, fun _ hnone => absurd hnone hleft⟩

theorem State.Inv.loopR (hinv : s.Inv) (h : s.threads[i]? = some .wokenR) :
    (loopR s i).Inv := by
  have htest : ∀ u : State, u.Inv → u.threads[i]? = some .wokenR →
      (if u.rSusp ≠ 0 ∨ u.cacheWLock ≠ 0 then u.move i .waitsR
        else { u with cacheRLock := u.cacheRLock + 1, rPend := u.rPend - 1 }.move i
          .reading).Inv := by
    intro u hu hplace
    split
    · rename_i hbusy
      exact hu.waitR hplace hbusy
    · rename_i hfree
      rw [not_or, not_not, not_not] at hfree
      exact hu.takeR hplace hfree.2
  unfold CacheLock.loopR
  split
  · rename_i hmany
    exact htest _ (hinv.suspend hmany) h
  · exact htest _ hinv h

theorem State.Inv.loopRw (hinv : s.Inv) {timed : Bool}
    (h : s.threads[i]? = some (.wokenRw timed)) : (loopRw s i timed).Inv := by
  unfold CacheLock.loopRw
  split
  · rename_i hbusy
    exact hinv.waitRw h hbusy
  · rename_i hfree
    rw [not_or, not_not, not_not] at hfree
    exact hinv.takeRw h hfree.1 hfree.2

theorem loopR_move (s : State) (i : Nat) (p : Place) :
    CacheLock.loopR (s.move i p) i = CacheLock.loopR s i := by
  unfold CacheLock.loopR State.move
  split <;> simp

theorem loopRw_move (s : State) (i : Nat) (p : Place) (timed : Bool) :
    CacheLock.loopRw (s.move i p) i timed = CacheLock.loopRw s i timed := by
  unfold CacheLock.loopRw State.move
  simp

/-- A caller that has counted itself is where a woken reader is. -/
theorem State.Inv.lockCacheR (hinv : s.Inv) (h : s.threads[i]? = some .out) :
    (lockCacheR s i).Inv := by
  have hplace : ({ s with rPend := s.rPend + 1 }.move i .wokenR).threads[i]? =
      some .wokenR := getElem?_set_moved h
  unfold CacheLock.lockCacheR
  rw [← loopR_move _ i .wokenR]
  exact (hinv.enterR h).loopR hplace

theorem State.Inv.lockCacheRw (hinv : s.Inv) {timed : Bool} (h : s.threads[i]? = some p)
    (hp : p = .out ∨ p = .napping) (hone : timed = true → s.num Place.inTimedlock = 0) :
    (lockCacheRw s i timed).Inv := by
  have hplace : ({ s with rwPend := s.rwPend + 1 }.move i (.wokenRw timed)).threads[i]? =
      some (.wokenRw timed) := getElem?_set_moved h
  unfold CacheLock.lockCacheRw
  rw [← loopRw_move _ i (.wokenRw timed)]
  exact (hinv.enterRw h hp hone).loopRw hplace

end Moves

theorem inv_step {s t : State} {a : Action} (hinv : s.Inv) (hone : OneTimed s a)
    (hstep : step s a = some t) : t.Inv := by
  cases a with
  | lockR i =>
      simp only [step, Option.ite_none_right_eq_some, Option.some.injEq] at hstep
      obtain ⟨h, rfl⟩ := hstep
      exact hinv.lockCacheR h
  | resumeR i =>
      simp only [step, Option.ite_none_right_eq_some, Option.some.injEq] at hstep
      obtain ⟨h, rfl⟩ := hstep
      exact hinv.loopR h
  | unlockR i woken =>
      simp only [step, Option.ite_none_right_eq_some] at hstep
      exact hinv.unlockCacheR hstep.1 hstep.2
  | lockRw i =>
      simp only [step, Option.ite_none_right_eq_some, Option.some.injEq] at hstep
      obtain ⟨h, rfl⟩ := hstep
      exact hinv.lockCacheRw h (.inl rfl) nofun
  | timedlockRw i =>
      simp only [step, Option.ite_none_right_eq_some, Option.some.injEq] at hstep
      obtain ⟨h, rfl⟩ := hstep
      exact hinv.lockCacheRw h (.inl rfl) fun _ =>
        num_eq_zero_of_forall (hone rfl) fun _ hin => hin
  | resumeRw i =>
      simp only [step] at hstep
      split at hstep
      · rename_i timed h
        obtain rfl := Option.some.inj hstep
        exact hinv.loopRw h
      · cases hstep
  | timeOut i =>
      simp only [step, Option.ite_none_right_eq_some, Option.some.injEq] at hstep
      obtain ⟨h, rfl⟩ := hstep
      exact hinv.giveUp h
  | cleanupReturn i =>
      simp only [step, Option.ite_none_right_eq_some, Option.some.injEq] at hstep
      obtain ⟨h, rfl⟩ := hstep
      exact hinv.cleanupReturn h
  | unlockRw i woken =>
      simp only [step, Option.ite_none_right_eq_some] at hstep
      exact hinv.releaseRw hstep.1 (.inl rfl) (.inl rfl) hstep.2
  | yieldTest i =>
      simp only [step, Option.ite_none_right_eq_some] at hstep
      obtain ⟨h, hstep⟩ := hstep
      split at hstep
      · obtain rfl := Option.some.inj hstep
        exact hinv
      · obtain rfl := Option.some.inj hstep
        exact hinv.startYield h
  | yieldRelease i woken =>
      simp only [step, Option.ite_none_right_eq_some] at hstep
      exact hinv.releaseRw hstep.1 (.inr rfl) (.inr rfl) hstep.2
  | yieldLock i =>
      simp only [step, Option.ite_none_right_eq_some, Option.some.injEq] at hstep
      obtain ⟨h, rfl⟩ := hstep
      exact hinv.lockCacheRw h (.inr rfl) nofun
  | wakeR i =>
      simp only [step, Option.ite_none_right_eq_some, Option.some.injEq] at hstep
      obtain ⟨h, rfl⟩ := hstep
      exact hinv.wakeR h
  | wakeRw i =>
      simp only [step] at hstep
      split at hstep
      · rename_i timed h
        obtain rfl := Option.some.inj hstep
        exact inv_wakeRw hinv.counted hinv.covered h
      · cases hstep

theorem inv_run {n : Nat} {hist : List Action} {s : State}
    (hrun : Run step OneTimed (State.init n) hist s) : s.Inv :=
  hrun.invariant (I := fun _ s => s.Inv) (inv_init n)
    fun _ _ _ _ hinv hone hstep => inv_step hinv hone hstep

theorem State.Inv.exclusive {s : State} (hinv : s.Inv) : s.Exclusive := by
  intro i k p q hp hq hholds hne
  -- Once the writer has gone out, the other thread is still where it was.
  have hgo : s.Goes (s.move i .out) p .out := .of_set hp rfl
  have hstays : (s.move i .out).threads[k]? = some q := getElem?_set_other hne hq
  have hpos : 0 < s.num Place.holdsRw := num_pos_of_getElem? hp hholds
  have hwriters := hinv.counted.writers
  have hone := hinv.covered.one_writer
  have hqW : q.holdsRw = false := by
    by_contra hq'
    rw [Bool.not_eq_false] at hq'
    have hmore : 0 < (s.move i .out).num Place.holdsRw := num_pos_of_getElem? hstays hq'
    have hnum := hgo Place.holdsRw
    rw [hholds] at hnum
    simp only [Place.holdsRw, Bool.toNat_true, Bool.toNat_false] at hnum
    omega
  have hqR : q ≠ .reading := by
    rintro rfl
    have hreader : 0 < s.num Place.isReading := num_pos_of_getElem? hq rfl
    rw [hinv.counted.readers] at hreader
    have hexcl := hinv.covered.exclusive
    omega
  simp [Place.holds, hqW, hqR]

theorem State.Inv.free {s : State} (hinv : s.Inv) (hfree : ∀ p ∈ s.threads, p.holds = false) :
    s.cacheWLock = 0 ∧ s.cacheRLock = 0 := by
  rw [← hinv.counted.writers, ← hinv.counted.readers]
  refine ⟨num_eq_zero_of_forall hfree fun p hp => ?_, num_eq_zero_of_forall hfree ?_⟩
  · simp [Place.holds, hp]
  · intro p hp
    cases p <;> first | rfl | cases hp

theorem State.Inv.writer_pending {s : State} (hinv : s.Inv)
    (hfree : s.cacheWLock = 0) (hwaits : ∃ p ∈ s.threads, p.waits = true) :
    0 < s.num Place.sleepsRw ∨ 0 < s.num Place.readyRw := by
  have hstay : 0 < s.num Place.staysRw → 0 < s.num Place.sleepsRw ∨ 0 < s.num Place.readyRw := by
    intro hpos
    obtain ⟨p, hmem, hp⟩ := List.countP_pos_iff.mp hpos
    cases p with
    | waitsRw timed => exact .inl (List.countP_pos_iff.mpr ⟨_, hmem, rfl⟩)
    | wokenRw timed => exact .inr (List.countP_pos_iff.mpr ⟨_, hmem, rfl⟩)
    | _ => cases hp
  obtain ⟨p, hmem, hp⟩ := hwaits
  cases p with
  | waitsR =>
      have hwriter := hinv.covered.waiting_r (List.countP_pos_iff.mpr ⟨_, hmem, rfl⟩)
      unfold State.WriterStays at hwriter
      rw [hfree, Nat.zero_add] at hwriter
      exact hstay hwriter
  | waitsRw timed => exact .inl (List.countP_pos_iff.mpr ⟨_, hmem, rfl⟩)
  | _ => cases hp

theorem State.Inv.somebody_ready {s : State} (hinv : s.Inv)
    (hfree : ∀ p ∈ s.threads, p.holds = false)
    (hwaits : ∃ p ∈ s.threads, p.waits = true) :
    0 < s.num Place.readyRw ∨
      0 < s.num Place.readyR ∧ s.rSusp = 0 ∧ s.rwPend ≤ suspThresh s.rPend := by
  obtain ⟨hw, hr⟩ := hinv.free hfree
  rcases hinv.writer_pending hw hwaits with hsleeps | hready
  · exact hinv.lively hw hr hsleeps
  · exact .inl hready

theorem State.Inv.not_stuck {s : State} (hinv : s.Inv) : ¬ s.Stuck := by
  rintro ⟨hfree, hwaits, hgoes⟩
  have hreadyRw : s.num Place.readyRw = 0 :=
    num_eq_zero_of_forall hgoes fun p hp => by cases p <;> first | rfl | cases hp
  have hreadyR : s.num Place.readyR = 0 :=
    num_eq_zero_of_forall hgoes fun p hp => by cases p <;> first | rfl | cases hp
  have hready := hinv.somebody_ready hfree hwaits
  omega

/-- In every order of steps of any number of threads, with one of them at a time in
`timedlock_cache_rw`, a thread with the rw lock is the only one with a lock, and threads
never wait for a lock that nobody has and nobody will take. -/
theorem cacheLock_exclusive_and_live {n : Nat} {hist : List Action} {s : State}
    (hrun : Run step OneTimed (State.init n) hist s) : s.Exclusive ∧ ¬ s.Stuck := by
  have hinv := inv_run hrun
  exact ⟨hinv.exclusive, hinv.not_stuck⟩

/-- A reader and a writer wait for the rw lock, the writer gives up, and the release
wakes the reader. -/
def contended : List Action :=
  [.lockRw 0, .lockR 1, .timedlockRw 2, .timeOut 2, .cleanupReturn 2, .unlockRw 0 none]

theorem cacheLock_contended_exclusive_and_live :
    ∃ s, execute step OneTimed (State.init 3) contended = some s ∧
      s.threads = [.out, .wokenR, .out] ∧ s.Exclusive ∧ ¬ s.Stuck := by
  have hexec : execute step OneTimed (State.init 3) contended =
      some ⟨0, 0, 1, 0, 0, [.out, .wokenR, .out]⟩ := by decide
  exact ⟨_, hexec, rfl, cacheLock_exclusive_and_live (run_of_execute hexec)⟩

/-- Some thread has a lock. -/
def State.Held (s : State) : Prop := ∃ p ∈ s.threads, p.holds = true

theorem State.Held.of_set {s t : State} {i : Nat} {p q : Place}
    (h : s.threads[i]? = some p) (ht : t.threads = s.threads.set i q)
    (hq : q.holds = true) : t.Held := by
  refine ⟨q, ?_, hq⟩
  rw [ht]
  exact List.mem_of_getElem? (getElem?_set_moved h)

theorem loopRw_held {s : State} {i : Nat} {p : Place} {timed : Bool}
    (h : s.threads[i]? = some p) (hw : s.cacheWLock = 0) (hr : s.cacheRLock = 0) :
    (loopRw s i timed).Held := by
  unfold loopRw
  rw [if_neg (by omega)]
  exact .of_set h rfl rfl

theorem loopR_held {s : State} {i : Nat} {p : Place} (h : s.threads[i]? = some p)
    (hw : s.cacheWLock = 0) (hsusp : s.rSusp = 0) (hfew : s.rwPend ≤ suspThresh s.rPend) :
    (loopR s i).Held := by
  unfold loopR
  rw [if_neg (Nat.not_lt.mpr hfew)]
  simp only [hsusp, hw, ne_eq, not_true_eq_false, or_self, if_false]
  exact .of_set h rfl rfl

/-- The threads that have been woken need no help from outside: when threads wait for a
lock that nobody has, one of the woken threads takes it with its next step. -/
theorem free_lock_taken {n : Nat} {hist : List Action} {s : State}
    (hrun : Run step OneTimed (State.init n) hist s)
    (hfree : ∀ p ∈ s.threads, p.holds = false) (hwaits : ∃ p ∈ s.threads, p.waits = true) :
    ∃ (i : Nat) (a : Action) (t : State),
      (a = .resumeR i ∨ a = .resumeRw i ∨ a = .yieldLock i) ∧ step s a = some t ∧ t.Held := by
  have hinv := inv_run hrun
  obtain ⟨hw, hr⟩ := hinv.free hfree
  rcases hinv.somebody_ready hfree hwaits with hready | ⟨hready, hsusp, hfew⟩
  · obtain ⟨p, hmem, hp⟩ := List.countP_pos_iff.mp hready
    obtain ⟨i, hi⟩ := List.mem_iff_getElem?.mp hmem
    cases p with
    | wokenRw timed =>
        refine ⟨i, .resumeRw i, loopRw s i timed, .inr (.inl rfl), ?_, loopRw_held hi hw hr⟩
        simp only [step, hi]
    | napping =>
        exact ⟨i, .yieldLock i, _, .inr (.inr rfl), if_pos hi, loopRw_held hi hw hr⟩
    | _ => cases hp
  · obtain ⟨p, hmem, hp⟩ := List.countP_pos_iff.mp hready
    obtain ⟨i, hi⟩ := List.mem_iff_getElem?.mp hmem
    cases p with
    | wokenR => exact ⟨i, .resumeR i, _, .inl rfl, if_pos hi, loopR_held hi hw hsusp hfew⟩
    | _ => cases hp

end TorAndroid.Dns.CacheLock
