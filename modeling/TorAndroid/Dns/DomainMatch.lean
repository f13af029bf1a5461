import TorAndroid.Dns.Name
import Mathlib.Algebra.BigOperators.Group.List.Basic
import Mathlib.Data.List.Induction
import Mathlib.Algebra.GroupWithZero.Nat

namespace TorAndroid.Dns

/-- The length bytes of a name, and the offset of its closing null byte. -/
def collectLengths : Nat → List UInt8 → List Nat × Nat
  | _, [] => ([], 0)
  | 0, lb :: ms =>
      if lb = 0 then ([], 0)
      else
        let (ls, i) := collectLengths lb.toNat ms
        (lb.toNat :: ls, i + 1)
  | skip + 1, _ :: ms =>
      let (ls, i) := collectLengths skip ms
      (ls, i + 1)

/-- The last `lb` bytes before `i` and `j` agree up to case. -/
def matchSegment (ms md : List UInt8) : Nat → Nat → Nat → Bool
  | 0, _, _ => true
  | lb + 1, i, j =>
      if tolower (ms.getD (i - 1) 0) ≠ tolower (md.getD (j - 1) 0) then false
      else matchSegment ms md lb (i - 1) (j - 1)

/-- The loop over the segments, with the length bytes from the last one on. -/
def matchLoop (ms md : List UInt8) : List Nat → List Nat → Nat → Nat → Nat × Nat × Nat
  | lb :: ls, lb' :: ld, i, j =>
      if lb ≠ lb' then (0, i, j)
      else if matchSegment ms md lb i j then
        let (k, offs, offd) := matchLoop ms md ls ld (i - lb - 1) (j - lb - 1)
        (k + 1, offs, offd)
      else (0, i, j)
  | _, _, i, j => (0, i, j)

/-- `domain_match`: the number of segments that match, and where the match
starts in either name.  Nothing when the assertion on the number of segments
fails. -/
def domainMatch (ms md : List UInt8) : Option (Nat × Nat × Nat) :=
  let (ls, i) := collectLengths 0 ms
  let (ld, j) := collectLengths 0 md
  if 128 < ls.length ∨ 128 < ld.length then none
  else some (matchLoop ms md ls.reverse ld.reverse i j)

/-- The bytes a list of segments takes. -/
def labelsLen (ls : List Label) : Nat :=
  (ls.map fun l => l.bytes.length + 1).sum

@[simp]
theorem labelsLen_nil : labelsLen [] = 0 := rfl

@[simp]
theorem labelsLen_cons (l : Label) (ls : List Label) :
    labelsLen (l :: ls) = l.bytes.length + 1 + labelsLen ls := by
  simp [labelsLen]

@[simp]
theorem labelsLen_append (ls ms : List Label) :
    labelsLen (ls ++ ms) = labelsLen ls + labelsLen ms := by
  simp [labelsLen]

@[simp]
theorem labelsLen_reverse (ls : List Label) : labelsLen ls.reverse = labelsLen ls := by
  simp [labelsLen, List.sum_reverse]

theorem flatMap_wire_length (ls : List Label) :
    (ls.flatMap Label.wire).length = labelsLen ls := by
  induction ls with
  | nil => rfl
  | cons l ls ih =>
      simp only [List.flatMap_cons, List.length_append, ih, Label.wire, List.length_cons,
        labelsLen_cons]

theorem Name.wire_length (n : Name) : n.wire.length = labelsLen n.labels + 1 := by
  rw [Name.wire, List.length_append, flatMap_wire_length]
  rfl

/-- The number of leading segments two lists share, up to case. -/
def commonLabels : List Label → List Label → Nat
  | a :: as, b :: bs => if a.fold = b.fold then commonLabels as bs + 1 else 0
  | _, _ => 0

/-- The number of trailing segments two names share, up to case. -/
def Name.common (a b : Name) : Nat :=
  commonLabels a.labels.reverse b.labels.reverse

/-- The offset at which the last `k` segments of a name start. -/
def Name.offset (n : Name) (k : Nat) : Nat :=
  labelsLen (n.labels.reverse.drop k)

theorem collectLengths_skip (bs rest : List UInt8) :
    collectLengths bs.length (bs ++ rest) =
      ((collectLengths 0 rest).1, bs.length + (collectLengths 0 rest).2) := by
  induction bs with
  | nil => simp
  | cons b bs ih =>
      simp only [List.length_cons, List.cons_append, collectLengths, ih]
      rw [Nat.add_right_comm]

theorem collectLengths_wire (n : Name) :
    collectLengths 0 n.wire =
      (n.labels.map fun l => l.bytes.length, labelsLen n.labels) := by
  obtain ⟨ls⟩ := n
  induction ls with
  | nil => rfl
  | cons l ls ih =>
      rw [Name.wire_cons, collectLengths, if_neg l.lengthByte_ne_zero, l.lengthByte,
        collectLengths_skip, ih]
      simp only [List.map_cons, labelsLen_cons]
      rw [Nat.add_right_comm]

theorem getD_middle (before after : List UInt8) (c : UInt8) {i : Nat}
    (hi : i = before.length) : (before ++ c :: after).getD i 0 = c := by
  subst hi
  simp [List.getD]

theorem matchSegment_eq {ms md : List UInt8} {i j : Nat} (before before' : List UInt8)
    {x y : List UInt8} (hlen : x.length = y.length) (after after' : List UInt8)
    (hms : ms = before ++ x ++ after) (hmd : md = before' ++ y ++ after')
    (hi : i = before.length + x.length) (hj : j = before'.length + y.length) :
    matchSegment ms md x.length i j = decide (x.map tolower = y.map tolower) := by
  -- the segment is read from its last byte on
  induction x using List.reverseRecOn generalizing y after after' i j with
  | nil =>
      obtain rfl : y = [] := List.length_eq_zero_iff.mp hlen.symm
      rfl
  | append_singleton x c ih =>
      rcases List.eq_nil_or_concat' y with rfl | ⟨y, d, rfl⟩
      · simp at hlen
      · rw [List.length_append, List.length_singleton] at hi hj hlen
        rw [List.length_append, List.length_singleton] at hlen
        have hms' : ms = before ++ x ++ c :: after := by simp [hms]
        have hmd' : md = before' ++ y ++ d :: after' := by simp [hmd]
        have hc : ms.getD (i - 1) 0 = c := by
          rw [hms']
          exact getD_middle _ _ _ (by simp; omega)
        have hd : md.getD (j - 1) 0 = d := by
          rw [hmd']
          exact getD_middle _ _ _ (by simp; omega)
        have hrest := ih (by omega) _ _ hms' hmd' (i := i - 1) (j := j - 1) (by omega)
          (by omega)
        rw [List.length_append, List.length_singleton, matchSegment, hc, hd, hrest]
        by_cases hcd : tolower c = tolower d
        · simp [hcd]
        · simp [hcd]

/-- The loop compares the segments that are left of the two names, the last
ones first. -/
theorem matchLoop_eq {ms md after after' : List UInt8} {as bs : List Label} {i j : Nat}
    (hms : ms = as.reverse.flatMap Label.wire ++ after)
    (hmd : md = bs.reverse.flatMap Label.wire ++ after')
    (hi : i = labelsLen as) (hj : j = labelsLen bs) :
    matchLoop ms md (as.map fun l => l.bytes.length) (bs.map fun l => l.bytes.length) i j =
      (commonLabels as bs, labelsLen (as.drop (commonLabels as bs)),
        labelsLen (bs.drop (commonLabels as bs))) := by
  induction as generalizing bs after after' i j with
  | nil => simp [matchLoop, commonLabels, hi, hj]
  | cons a as ih =>
      cases bs with
      | nil => simp [matchLoop, commonLabels, hi, hj]
      | cons b bs =>
          rw [labelsLen_cons] at hi hj
          have hms' : ms = as.reverse.flatMap Label.wire ++ (a.wire ++ after) := by
            simp [hms]
          have hmd' : md = bs.reverse.flatMap Label.wire ++ (b.wire ++ after') := by
            simp [hmd]
          rw [List.map_cons, List.map_cons, matchLoop, commonLabels]
          by_cases hlen : a.bytes.length = b.bytes.length
          · have hseg : matchSegment ms md a.bytes.length i j =
                decide (a.fold = b.fold) := by
              refine matchSegment_eq (as.reverse.flatMap Label.wire ++
                [UInt8.ofNat a.bytes.length]) (bs.reverse.flatMap Label.wire ++
                [UInt8.ofNat b.bytes.length]) hlen after after' ?_ ?_ ?_ ?_
              · simp [hms', Label.wire]
              · simp [hmd', Label.wire]
              · rw [List.length_append, flatMap_wire_length, labelsLen_reverse, hi,
                  List.length_singleton]
                omega
              · rw [List.length_append, flatMap_wire_length, labelsLen_reverse, hj,
                  List.length_singleton]
                omega
            rw [if_neg (not_not_intro hlen), hseg]
            by_cases hfold : a.fold = b.fold
            · rw [if_pos (decide_eq_true hfold), if_pos hfold,
                ih hms' hmd' (by omega) (by omega)]
              rfl
            · rw [if_neg (by simpa using hfold), if_neg hfold, hi, hj]
              simp
          · have hfold : a.fold ≠ b.fold := by
              intro h
              exact hlen (by simpa [Label.fold] using congrArg List.length h)
            rw [if_pos hlen, if_neg hfold, hi, hj]
            simp

/-- On two names `domain_match` returns the number of segments they share at
their ends and the offsets of these. -/
theorem domainMatch_wire (a b : Name) (ha : a.labels.length ≤ 128) (hb : b.labels.length ≤ 128) :
    domainMatch a.wire b.wire =
      some (a.common b, a.offset (a.common b), b.offset (a.common b)) := by
  rw [domainMatch, collectLengths_wire, collectLengths_wire]
  have hcount : ¬(128 < (a.labels.map fun l => l.bytes.length).length ∨
      128 < (b.labels.map fun l => l.bytes.length).length) := by
    simp only [List.length_map]
    omega
  simp only
  rw [if_neg hcount, ← List.map_reverse, ← List.map_reverse]
  have hwire : ∀ n : Name, n.wire = n.labels.reverse.reverse.flatMap Label.wire ++ [0] := by
    intro n
    rw [List.reverse_reverse, Name.wire]
  exact congrArg some (matchLoop_eq (hwire a) (hwire b) (by simp) (by simp))

theorem le_commonLabels {as bs : List Label} {k : Nat} :
    k ≤ commonLabels as bs ↔ k ≤ as.length ∧ k ≤ bs.length ∧
      (as.take k).map Label.fold = (bs.take k).map Label.fold := by
  induction as generalizing bs k with
  | nil => cases k <;> simp [commonLabels]
  | cons a as ih =>
      cases bs with
      | nil => cases k <;> simp [commonLabels]
      | cons b bs =>
          cases k with
          | zero => simp
          | succ k =>
              by_cases hfold : a.fold = b.fold
              · simp [commonLabels, hfold, ih]
              · simp [commonLabels, hfold]

theorem labelsLen_take_add_drop (ls : List Label) (k : Nat) :
    labelsLen (ls.take k) + labelsLen (ls.drop k) = labelsLen ls := by
  rw [← labelsLen_append, List.take_append_drop]

end TorAndroid.Dns
