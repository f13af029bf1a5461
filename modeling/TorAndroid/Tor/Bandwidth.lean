import Mathlib.Algebra.BigOperators.Group.List.Basic
import Mathlib.Algebra.Order.BigOperators.Group.List
import Mathlib.Data.List.Chain
import Mathlib.Tactic.SplitIfs
import Mathlib.Algebra.Ring.Int.Defs

namespace TorAndroid.Tor.Bandwidth

/-- The arguments of `bandwidthUsed`. -/
structure Event where
  read : Int
  written : Int
deriving DecidableEq, Repr

/-- The arguments of `broadcastBandwidth`. -/
structure Broadcast where
  lastWritten : Int
  lastRead : Int
  totalWritten : Int
  totalRead : Int
deriving DecidableEq, Repr

/-- A call of `notify`: the counts in its text, and whether the icon shows a transfer. -/
structure Notice where
  read : Int
  written : Int
  transfer : Bool
deriving DecidableEq, Repr

structure Handler where
  lastRead : Int
  lastWritten : Int
  mTotalTrafficWritten : Int
  mTotalTrafficRead : Int
  notices : List Notice
  broadcasts : List Broadcast
deriving DecidableEq, Repr

def Handler.init : Handler := ⟨-1, -1, 0, 0, [], []⟩

/-- The sum of two values of type `long`. -/
def addLong (a b : Int) : Int := (a + b).bmod (2 ^ 64)

def bandwidthUsed (h : Handler) (e : Event) : Handler :=
  let h :=
    if e.read ≠ h.lastRead ∨ e.written ≠ h.lastWritten then
      { h with
        notices := h.notices ++ [⟨e.read, e.written, decide (0 < e.read ∨ 0 < e.written)⟩]
        mTotalTrafficWritten := addLong h.mTotalTrafficWritten e.written
        mTotalTrafficRead := addLong h.mTotalTrafficRead e.read }
    else h
  { h with
    lastWritten := e.written
    lastRead := e.read
    broadcasts := h.broadcasts ++
      [⟨e.written, e.read, h.mTotalTrafficWritten, h.mTotalTrafficRead⟩] }

def run (events : List Event) : Handler := events.foldl bandwidthUsed Handler.init

/-- The last broadcast tells the last event and the sums of all events. -/
def TotalsRight (events : List Event) : Prop :=
  ∃ e, events.getLast? = some e ∧ (run events).broadcasts.getLast? =
    some ⟨e.written, e.read, (events.map Event.written).sum, (events.map Event.read).sum⟩

section Totals

/-- The events that are equal to the one before them. -/
def repeats : Event → List Event → List Event
  | _, [] => []
  | last, e :: events => if e = last then e :: repeats e events else repeats e events

def Handler.last (h : Handler) : Event := ⟨h.lastRead, h.lastWritten⟩

theorem addLong_eq {a b : Int} (ha : 0 ≤ a) (hb : 0 ≤ b) (h : a + b < 2 ^ 63) :
    addLong a b = a + b :=
  Int.bmod_eq_of_le (by omega) (by omega)

theorem last_bandwidthUsed (h : Handler) (e : Event) : (bandwidthUsed h e).last = e := rfl

/-- An event is added to the totals unless it repeats the last one. -/
theorem totals_bandwidthUsed {h : Handler} {e : Event} (hread : 0 ≤ h.mTotalTrafficRead)
    (hwritten : 0 ≤ h.mTotalTrafficWritten) (he : 0 ≤ e.read ∧ 0 ≤ e.written)
    (hreads : h.mTotalTrafficRead + e.read < 2 ^ 63)
    (hwrites : h.mTotalTrafficWritten + e.written < 2 ^ 63) :
    (bandwidthUsed h e).mTotalTrafficRead =
        h.mTotalTrafficRead + (if e = h.last then 0 else e.read) ∧
      (bandwidthUsed h e).mTotalTrafficWritten =
        h.mTotalTrafficWritten + (if e = h.last then 0 else e.written) := by
  have hiff : (e.read ≠ h.lastRead ∨ e.written ≠ h.lastWritten) ↔ ¬e = h.last := by
    obtain ⟨read, written⟩ := e
    simp only [Handler.last, Event.mk.injEq]
    tauto
  simp only [bandwidthUsed, hiff]
  by_cases hlast : e = h.last
  · simp [hlast]
  · simp [hlast, addLong_eq hread he.1 hreads, addLong_eq hwritten he.2 hwrites]

/-- What is missing in the totals is what the repeated events carried. -/
theorem totals_foldl {events : List Event} {h : Handler} (hread : 0 ≤ h.mTotalTrafficRead)
    (hwritten : 0 ≤ h.mTotalTrafficWritten) (hpos : ∀ e ∈ events, 0 ≤ e.read ∧ 0 ≤ e.written)
    (hreads : h.mTotalTrafficRead + (events.map Event.read).sum < 2 ^ 63)
    (hwrites : h.mTotalTrafficWritten + (events.map Event.written).sum < 2 ^ 63) :
    (events.foldl bandwidthUsed h).mTotalTrafficRead +
      ((repeats h.last events).map Event.read).sum =
        h.mTotalTrafficRead + (events.map Event.read).sum ∧
      (events.foldl bandwidthUsed h).mTotalTrafficWritten +
          ((repeats h.last events).map Event.written).sum =
        h.mTotalTrafficWritten + (events.map Event.written).sum := by
  induction events generalizing h with
  | nil => simp [repeats]
  | cons e events ih =>
      rw [List.forall_mem_cons] at hpos
      simp only [List.map_cons, List.sum_cons] at hreads hwrites ⊢
      have hrest_read : 0 ≤ (events.map Event.read).sum :=
        List.sum_nonneg (by simpa using fun e he => (hpos.2 e he).1)
      have hrest_written : 0 ≤ (events.map Event.written).sum :=
        List.sum_nonneg (by simpa using fun e he => (hpos.2 e he).2)
      obtain ⟨hstep_read, hstep_written⟩ := totals_bandwidthUsed hread hwritten hpos.1
        (by omega) (by omega)
      have hpos_read := hpos.1.1
      have hpos_written := hpos.1.2
      rw [List.foldl_cons, repeats]
      by_cases hlast : e = h.last
      · rw [if_pos hlast] at hstep_read hstep_written
        obtain ⟨hsum_read, hsum_written⟩ := ih (h := bandwidthUsed h e) (by omega) (by omega) hpos.2
          (by omega) (by omega)
        rw [last_bandwidthUsed] at hsum_read hsum_written
        rw [if_pos hlast, List.map_cons, List.map_cons, List.sum_cons, List.sum_cons]
        omega
      · rw [if_neg hlast] at hstep_read hstep_written
        obtain ⟨hsum_read, hsum_written⟩ := ih (h := bandwidthUsed h e) (by omega) (by omega) hpos.2
          (by omega) (by omega)
        rw [last_bandwidthUsed] at hsum_read hsum_written
        rw [if_neg hlast]
        omega

theorem broadcasts_foldl (events : List Event) (h : Handler) (e : Event) :
    ((events ++ [e]).foldl bandwidthUsed h).broadcasts.getLast? =
      some ⟨e.written, e.read, ((events ++ [e]).foldl bandwidthUsed h).mTotalTrafficWritten,
        ((events ++ [e]).foldl bandwidthUsed h).mTotalTrafficRead⟩ := by
  rw [List.foldl_append]
  simp [bandwidthUsed]

theorem repeats_subset (last : Event) (events : List Event) :
    ∀ e ∈ repeats last events, e ∈ events := by
  induction events generalizing last with
  | nil => simp [repeats]
  | cons e events ih =>
      intro x hx
      rw [repeats] at hx
      split_ifs at hx
      · rcases List.mem_cons.mp hx with rfl | hx
        · exact List.mem_cons_self
        · exact List.mem_cons_of_mem _ (ih e x hx)
      · exact List.mem_cons_of_mem _ (ih e x hx)

theorem repeats_zero_iff (last : Event) (events : List Event) :
    (∀ e ∈ repeats last events, e = ⟨0, 0⟩) ↔
      (last :: events).IsChain fun a b => a = b → b = ⟨0, 0⟩ := by
  induction events generalizing last with
  | nil => simp [repeats]
  | cons e events ih =>
      rw [repeats, List.isChain_cons_cons, ← ih e]
      by_cases hlast : e = last
      · rw [if_pos hlast, List.forall_mem_cons]
        exact and_congr ⟨fun h _ => h, fun h => h hlast.symm⟩ Iff.rfl
      · rw [if_neg hlast]
        exact ⟨fun h => ⟨fun heq => absurd heq.symm hlast, h⟩, And.right⟩

theorem sum_eq_zero_iff_forall {events : List Event}
    (hpos : ∀ e ∈ events, 0 ≤ e.read ∧ 0 ≤ e.written) :
    ((events.map Event.read).sum = 0 ∧ (events.map Event.written).sum = 0) ↔
      ∀ e ∈ events, e = ⟨0, 0⟩ := by
  induction events with
  | nil => simp
  | cons e events ih =>
      rw [List.forall_mem_cons] at hpos ⊢
      rw [← ih hpos.2]
      have hrest_read : 0 ≤ (events.map Event.read).sum :=
        List.sum_nonneg (by simpa using fun e he => (hpos.2 e he).1)
      have hrest_written : 0 ≤ (events.map Event.written).sum :=
        List.sum_nonneg (by simpa using fun e he => (hpos.2 e he).2)
      obtain ⟨read, written⟩ := e
      simp only [List.map_cons, List.sum_cons, Event.mk.injEq] at hpos ⊢
      omega

end Totals

/-- The totals are right exactly when no event that carried something repeats the one
before it. -/
theorem totalsRight_iff (events : List Event) (hne : events ≠ [])
    (hpos : ∀ e ∈ events, 0 ≤ e.read ∧ 0 ≤ e.written)
    (hreads : (events.map Event.read).sum < 2 ^ 63)
    (hwrites : (events.map Event.written).sum < 2 ^ 63) :
    TotalsRight events ↔ events.IsChain fun a b => a = b → b = ⟨0, 0⟩ := by
  obtain ⟨init, e, rfl⟩ := List.eq_nil_or_concat' events |>.resolve_left hne
  obtain ⟨htotal_read, htotal_written⟩ := totals_foldl (h := Handler.init) le_rfl le_rfl hpos
    (by simpa [Handler.init] using hreads) (by simpa [Handler.init] using hwrites)
  -- the values before the first event are negative, so that it repeats nothing
  have hfirst : (init ++ [e]).IsChain (fun a b => a = b → b = ⟨0, 0⟩) ↔
      (Handler.init.last :: (init ++ [e])).IsChain fun a b => a = b → b = ⟨0, 0⟩ := by
    rw [List.isChain_cons]
    refine ⟨fun h => ⟨fun x hx heq => ?_, h⟩, And.right⟩
    have hneg := (hpos x (List.mem_of_mem_head? hx)).1
    rw [← heq] at hneg
    exact absurd hneg (by decide)
  rw [hfirst, ← repeats_zero_iff, ← sum_eq_zero_iff_forall fun x hx =>
    hpos x (repeats_subset _ _ x hx)]
  have hbroadcast := broadcasts_foldl init Handler.init e
  have hzero_read : Handler.init.mTotalTrafficRead = 0 := rfl
  have hzero_written : Handler.init.mTotalTrafficWritten = 0 := rfl
  constructor
  · rintro ⟨e', he', hlast⟩
    obtain rfl : e = e' := by simpa using he'
    rw [run, hbroadcast, Option.some.injEq, Broadcast.mk.injEq] at hlast
    omega
  · rintro ⟨hread, hwritten⟩
    refine ⟨e, by simp, ?_⟩
    rw [run, hbroadcast, Option.some.injEq, Broadcast.mk.injEq]
    exact ⟨rfl, rfl, by omega, by omega⟩

theorem totalsRight_iff_alternating :
    TotalsRight [⟨5, 7⟩, ⟨0, 0⟩, ⟨0, 0⟩, ⟨5, 7⟩] :=
  (totalsRight_iff _ (by decide) (by decide) (by decide) (by decide)).mpr (by decide)

/-- Of two events with the same values only the first is counted. -/
theorem not_totalsRight_repeated : ¬TotalsRight [⟨5, 7⟩, ⟨5, 7⟩] := by
  rintro ⟨e, he, hlast⟩
  obtain rfl : (⟨5, 7⟩ : Event) = e := by simpa using he
  exact absurd hlast (by decide)

end TorAndroid.Tor.Bandwidth
