import TorAndroid.Dns.CompressionRoundTrip
import TorAndroid.Lib.ByteBuffer
import Mathlib.Order.Bounds.Basic
import Mathlib.Algebra.GroupWithZero.Nat

namespace TorAndroid.Dns

open TorAndroid.Lib.ByteBuffer

/-- The loop that stores the length bytes, with at most so many turns. It has no result when it
reads beyond the name, when the assertion on the number of segments fails, and when it
stores beyond the array. -/
def storeLengths (ms : List UInt8) : Nat → Nat → Nat → List UInt8 →
    Option (Nat × Nat × List UInt8)
  | 0, _, _, _ => none
  | n + 1, i, ns, ls => do
      let lb ← ms[i]?
      if lb = 0 then some (i, ns, ls)
      else if 128 ≤ ns then none
      else
        let ls ← store ls ns [lb]
        storeLengths ms n (i + (lb.toNat + 1)) (ns + 1) ls

/-- The loop over the bytes of a segment: whether they match, and where it ends. -/
def compareSegment (ms md : List UInt8) : Nat → Nat → Nat → Option (Bool × Nat × Nat)
  | 0, i, j => some (true, i, j)
  | lb + 1, i, j =>
      if i = 0 ∨ j = 0 then none
      else do
        let x ← ms[i - 1]?
        let y ← md[j - 1]?
        if tolower x ≠ tolower y then some (false, i - 1, j - 1)
        else compareSegment ms md lb (i - 1) (j - 1)

/-- The loop over the segments, with the turns that are left. -/
def compareSegments (ms md ls ld : List UInt8) (ns nd : Nat) :
    Nat → Nat → Nat → Nat → Option (Nat × Nat × Nat)
  | 0, k, i, j => some (k - 1, i, j)
  | n + 1, k, i, j => do
      let lb ← ls[ns - k]?
      if lb ≠ (← ld[nd - k]?) then some (k - 1, i, j)
      else
        match ← compareSegment ms md lb.toNat i j with
        | (false, _, _) => some (k - 1, i, j)
        | (true, i', j') =>
            if i' = 0 ∨ j' = 0 then none
            else compareSegments ms md ls ld ns nd n (k + 1) (i' - 1) (j' - 1)

/-- `domain_match` on the two arrays, whatever is in them at first. -/
def domainMatchArrays (ms md ls ld : List UInt8) : Option (Nat × Nat × Nat) := do
  let (i, ns, ls) ← storeLengths ms (ms.length + 1) 0 0 ls
  let (j, nd, ld) ← storeLengths md (md.length + 1) 0 0 ld
  compareSegments ms md ls ld ns nd (min ns nd) 1 i j

section Lengths

/-- The length bytes of some segments. -/
def lengthBytes (labels : List Label) : List UInt8 :=
  labels.map fun l => UInt8.ofNat l.bytes.length

theorem storeLengths_wire {front after : List UInt8} {labels : List Label} {ls : List UInt8}
    {n ns : Nat} (hn : labels.length < n) (hls : ls.length = 128) (hns : ns + labels.length ≤ 128) :
    ∃ ls', storeLengths (front ++ (Name.wire ⟨labels⟩ ++ after)) n front.length ns ls =
        some (front.length + labelsLen labels, ns + labels.length, ls') ∧
      ls'.take (ns + labels.length) = ls.take ns ++ lengthBytes labels := by
  induction labels generalizing front ns ls n with
  | nil =>
      obtain ⟨n, rfl⟩ := Nat.exists_eq_succ_of_ne_zero (Nat.ne_zero_of_lt hn)
      refine ⟨ls, ?_, (List.append_nil _).symm⟩
      have hzero : (front ++ (Name.wire ⟨[]⟩ ++ after))[front.length]? = some 0 := by
        rw [List.getElem?_append_right (Nat.le_refl _), Nat.sub_self]
        rfl
      rw [storeLengths, hzero]
      rfl
  | cons l labels ih =>
      obtain ⟨n, rfl⟩ := Nat.exists_eq_succ_of_ne_zero (Nat.ne_zero_of_lt hn)
      rw [List.length_cons] at hns hn
      have hbyte : (front ++ (Name.wire ⟨l :: labels⟩ ++ after))[front.length]? =
          some (UInt8.ofNat l.bytes.length) := by
        rw [List.getElem?_append_right (Nat.le_refl _), Nat.sub_self, Name.wire_cons]
        rfl
      have hstore : store ls ns [UInt8.ofNat l.bytes.length] =
          some (ls.take ns ++ [UInt8.ofNat l.bytes.length] ++ ls.drop (ns + 1)) :=
        if_pos (by rw [List.length_singleton]; omega)
      have hlen := length_store hstore
      have hdata : front ++ (Name.wire ⟨l :: labels⟩ ++ after) =
          front ++ l.wire ++ (Name.wire ⟨labels⟩ ++ after) := by
        rw [Name.wire_cons, Label.wire]
        simp
      have hfront : (front ++ l.wire).length = front.length + (l.bytes.length + 1) := by
        rw [List.length_append, Label.wire, List.length_cons]
      obtain ⟨ls', hls', htake⟩ := @ih (front ++ l.wire) _ n (ns + 1) (by omega)
        (hlen.trans hls) (by omega)
      refine ⟨ls', ?_, ?_⟩
      · rw [storeLengths, hbyte, Option.bind_eq_bind, Option.bind_some,
          if_neg l.lengthByte_ne_zero, if_neg (show ¬128 ≤ ns by omega), hstore,
            Option.bind_eq_bind,
          Option.bind_some, l.lengthByte, ← hfront, hdata, hls', hfront, labelsLen_cons,
          List.length_cons, Nat.add_assoc, Nat.add_right_comm ns]
        rfl
      · have hkept : (ls.take ns ++ [UInt8.ofNat l.bytes.length] ++ ls.drop (ns + 1)).take
            (ns + 1) = ls.take ns ++ [UInt8.ofNat l.bytes.length] := by
          refine List.take_left' ?_
          rw [List.length_append, List.length_take, List.length_singleton]
          omega
        rw [List.length_cons, ← Nat.add_assoc, Nat.add_right_comm, htake, hkept, List.append_assoc]
        rfl

end Lengths

section Comparison

variable {ms md ls ld : List UInt8}

theorem compareSegment_eq {lb i j : Nat} (hi : lb ≤ i) (hj : lb ≤ j) (hms : i ≤ ms.length)
    (hmd : j ≤ md.length) :
    ∃ i' j', compareSegment ms md lb i j = some (matchSegment ms md lb i j, i', j') ∧
      (matchSegment ms md lb i j = true → i' = i - lb ∧ j' = j - lb) := by
  induction lb generalizing i j with
  | zero => exact ⟨i, j, rfl, fun _ => ⟨rfl, rfl⟩⟩
  | succ lb ih =>
      have hx : ms[i - 1]? = some (ms.getD (i - 1) 0) := by
        rw [List.getD_eq_getElem?_getD, List.getElem?_eq_getElem (by omega), Option.getD_some]
      have hy : md[j - 1]? = some (md.getD (j - 1) 0) := by
        rw [List.getD_eq_getElem?_getD, List.getElem?_eq_getElem (by omega), Option.getD_some]
      rw [compareSegment, if_neg (by omega), hx, hy, matchSegment]
      simp only [Option.bind_eq_bind, Option.bind_some]
      by_cases hxy : tolower (ms.getD (i - 1) 0) = tolower (md.getD (j - 1) 0)
      · rw [if_neg (not_not_intro hxy), if_neg (not_not_intro hxy)]
        obtain ⟨i', j', hsegment, hends⟩ := ih (i := i - 1) (j := j - 1) (by omega) (by omega)
          (by omega) (by omega)
        refine ⟨i', j', hsegment, fun htrue => ?_⟩
        obtain ⟨rfl, rfl⟩ := hends htrue
        omega
      · rw [if_pos hxy, if_pos hxy]
        exact ⟨_, _, rfl, fun hfalse => by cases hfalse⟩

/-- The bytes of the segments with these length bytes. -/
def spans (lengths : List UInt8) : Nat :=
  (lengths.map fun lb => lb.toNat + 1).sum

theorem last_of_take {arr zs : List UInt8} {z : UInt8}
    (h : arr.take (z :: zs).length = (z :: zs).reverse) :
    arr[zs.length]? = some z ∧ arr.take zs.length = zs.reverse := by
  rw [List.length_cons, List.reverse_cons] at h
  constructor
  · rw [← List.getElem?_take_of_lt (Nat.lt_succ_self _), h,
      List.getElem?_append_right (by rw [List.length_reverse]), List.length_reverse, Nat.sub_self]
    rfl
  · have htake := congrArg (List.take zs.length) h
    rwa [List.take_take, Nat.min_eq_left (Nat.le_succ _),
      List.take_left' List.length_reverse] at htake

/-- The loop over the segments is that over the lists of their lengths, the last one first. -/
theorem compareSegments_eq {ns nd k i j : Nat} {xs ys : List UInt8}
    (hls : ls.take xs.length = xs.reverse) (hld : ld.take ys.length = ys.reverse)
    (hns : ns + 1 = k + xs.length) (hnd : nd + 1 = k + ys.length) (hi : i = spans xs)
    (hj : j = spans ys) (hms : i ≤ ms.length) (hmd : j ≤ md.length) (hk : 0 < k) :
    compareSegments ms md ls ld ns nd (min xs.length ys.length) k i j =
      some (k - 1 + (matchLoop ms md (xs.map UInt8.toNat) (ys.map UInt8.toNat) i j).1,
        (matchLoop ms md (xs.map UInt8.toNat) (ys.map UInt8.toNat) i j).2) := by
  induction xs generalizing ys k i j with
  | nil => simp [compareSegments, matchLoop]
  | cons lb xs ih =>
      cases ys with
      | nil => simp [compareSegments, matchLoop]
      | cons lb' ys =>
          obtain ⟨hlb, hxs⟩ := last_of_take hls
          obtain ⟨hlb', hys⟩ := last_of_take hld
          rw [List.length_cons] at hns hnd
          rw [spans, List.map_cons, List.sum_cons, ← spans] at hi hj
          have hnsk : ns - k = xs.length := by omega
          have hndk : nd - k = ys.length := by omega
          rw [List.length_cons, List.length_cons, Nat.add_min_add_right,
            compareSegments, hnsk, hndk,
            hlb, hlb', List.map_cons, List.map_cons, matchLoop]
          simp only [Option.bind_eq_bind, Option.bind_some]
          by_cases hlen : lb = lb'
          · subst hlen
            obtain ⟨i', j', hsegment, hends⟩ :=
              @compareSegment_eq ms md lb.toNat i j (by omega) (by omega) hms hmd
            rw [if_neg (not_not_intro rfl), if_neg (not_not_intro rfl), hsegment, Option.bind_some]
            cases hmatch : matchSegment ms md lb.toNat i j with
            | false => rfl
            | true =>
                obtain ⟨rfl, rfl⟩ := hends hmatch
                -- the length byte is skipped
                have hrest := ih hxs hys (show ns + 1 = k + 1 + xs.length by omega)
                  (show nd + 1 = k + 1 + ys.length by omega)
                  (show i - lb.toNat - 1 = spans xs by omega)
                  (show j - lb.toNat - 1 = spans ys by omega) (by omega) (by omega)
                  (Nat.succ_pos k)
                simp only [if_true]
                rw [if_neg (by omega), hrest]
                congr 2
                omega
          · have hne : lb.toNat ≠ lb'.toNat := fun h => hlen (UInt8.toNat_inj.mp h)
            rw [if_pos hlen, if_pos hne]
            rfl

end Comparison

section Names

theorem spans_lengthBytes (labels : List Label) :
    spans (lengthBytes labels) = labelsLen labels := by
  induction labels with
  | nil => rfl
  | cons l labels ih =>
      change (UInt8.ofNat l.bytes.length).toNat + 1 + spans (lengthBytes labels) = _
      rw [ih, l.lengthByte, labelsLen_cons]

theorem toNat_lengthBytes (labels : List Label) :
    (lengthBytes labels).map UInt8.toNat = labels.map fun l => l.bytes.length := by
  rw [lengthBytes, List.map_map]
  exact List.map_congr_left fun l _ => l.lengthByte

/-- The arrays are large enough, and the result is that of the names. -/
theorem domainMatchArrays_wire {a b : Name} (ha : a.labels.length ≤ 128)
    (hb : b.labels.length ≤ 128) (after after' : List UInt8) {ls ld : List UInt8}
    (hls : ls.length = 128) (hld : ld.length = 128) :
    domainMatchArrays (a.wire ++ after) (b.wire ++ after') ls ld =
      some (a.common b, a.offset (a.common b), b.offset (a.common b)) := by
  have hcount : ∀ n : Name, n.labels.length < n.wire.length + 1 := by
    intro n
    have hle := n.labels_length_le
    rw [n.wire_length]
    omega
  obtain ⟨ls', hls', htake⟩ := @storeLengths_wire [] after a.labels ls
    ((a.wire ++ after).length + 1) 0 (by have := hcount a; rw [List.length_append]; omega) hls
    (by omega)
  obtain ⟨ld', hld', htake'⟩ := @storeLengths_wire [] after' b.labels ld
    ((b.wire ++ after').length + 1) 0 (by have := hcount b; rw [List.length_append]; omega) hld
    (by omega)
  rw [List.length_nil, Nat.zero_add, Nat.zero_add] at hls' hld'
  rw [Nat.zero_add] at htake htake'
  change storeLengths (a.wire ++ after) _ 0 0 ls = _ at hls'
  change storeLengths (b.wire ++ after') _ 0 0 ld = _ at hld'
  rw [List.take_zero, List.nil_append, ← List.reverse_reverse (lengthBytes _)] at htake htake'
  have hlength : ∀ n : Name, (lengthBytes n.labels).reverse.length = n.labels.length := by
    intro n
    rw [List.length_reverse, lengthBytes, List.length_map]
  have hspans : ∀ n : Name, labelsLen n.labels = spans (lengthBytes n.labels).reverse := by
    intro n
    rw [lengthBytes, ← List.map_reverse, ← lengthBytes, spans_lengthBytes, labelsLen_reverse]
  have hmap : ∀ n : Name, (lengthBytes n.labels).reverse.map UInt8.toNat =
      n.labels.reverse.map fun l => l.bytes.length := by
    intro n
    rw [lengthBytes, ← List.map_reverse, ← lengthBytes, toNat_lengthBytes]
  have hwire : ∀ n : Name, ∀ rest, n.wire ++ rest =
      n.labels.reverse.reverse.flatMap Label.wire ++ ([0] ++ rest) := by
    intro n rest
    rw [List.reverse_reverse, Name.wire, List.append_assoc]
  have hle : ∀ n : Name, ∀ rest, labelsLen n.labels ≤ (n.wire ++ rest).length := by
    intro n rest
    rw [List.length_append, n.wire_length]
    omega
  have hloop := @compareSegments_eq (a.wire ++ after) (b.wire ++ after') ls' ld' a.labels.length
    b.labels.length 1 (labelsLen a.labels) (labelsLen b.labels) (lengthBytes a.labels).reverse
    (lengthBytes b.labels).reverse (by rwa [hlength]) (by rwa [hlength])
    (by rw [hlength, Nat.add_comm]) (by rw [hlength, Nat.add_comm]) (hspans a) (hspans b)
    (hle a after) (hle b after') Nat.one_pos
  rw [hlength, hlength, hmap, hmap, matchLoop_eq (hwire a after) (hwire b after')
    (labelsLen_reverse _).symm (labelsLen_reverse _).symm] at hloop
  rw [domainMatchArrays, hls', Option.bind_eq_bind, Option.bind_some]
  simp only [hld', Option.bind_some, hloop]
  rw [Nat.sub_self, Nat.zero_add]
  rfl

theorem Name.drop_offset (n : Name) (k : Nat) :
    n.wire.drop (n.offset k) = Name.wire ⟨n.tail k⟩ := by
  have hsplit : n.wire = (n.head k).flatMap Label.wire ++ Name.wire ⟨n.tail k⟩ := by
    rw [Name.wire, Name.wire, ← List.append_assoc, ← List.flatMap_append, n.head_append_tail]
  rw [hsplit, ← n.labelsLen_head, ← flatMap_wire_length, List.drop_left]

/-- The number of segments that two names share at their ends, and where these start. -/
theorem domainMatchArrays_longest {a b : Name} (ha : a.Valid) (hb : b.Valid)
    (after after' : List UInt8) {ls ld : List UInt8} (hls : ls.length = 128)
    (hld : ld.length = 128) :
    ∃ k os od, domainMatchArrays (a.wire ++ after) (b.wire ++ after') ls ld = some (k, os, od) ∧
      IsGreatest {k | k ≤ a.labels.length ∧ k ≤ b.labels.length ∧
        (a.tail k).map Label.fold = (b.tail k).map Label.fold} k ∧
      a.wire.drop os = Name.wire ⟨a.tail k⟩ ∧ b.wire.drop od = Name.wire ⟨b.tail k⟩ ∧
      (os = 0 ↔ a.fold <:+ b.fold) := by
  refine ⟨_, _, _, domainMatchArrays_wire (Nat.le_of_lt ha.labels_length)
    (Nat.le_of_lt hb.labels_length) after after' hls hld, ⟨?_, ?_⟩, a.drop_offset _,
      b.drop_offset _,
    Name.offset_eq_zero_iff a b⟩
  · exact Name.le_common.mp (Nat.le_refl _)
  · intro k hk
    exact Name.le_common.mpr hk

/-- The names `B` and `a.b`. -/
def upperDomain : Name :=
  ⟨[⟨[66], by decide, by decide⟩]⟩

def lowerHost : Name :=
  ⟨[⟨[97], by decide, by decide⟩, ⟨[98], by decide, by decide⟩]⟩

theorem domainMatchArrays_longest_upperDomain :
    ∃ k os od, domainMatchArrays (upperDomain.wire ++ []) (lowerHost.wire ++ [])
        (List.replicate 128 7) (List.replicate 128 7) = some (k, os, od) ∧
      IsGreatest {k | k ≤ upperDomain.labels.length ∧ k ≤ lowerHost.labels.length ∧
        (upperDomain.tail k).map Label.fold = (lowerHost.tail k).map Label.fold} k ∧
      upperDomain.wire.drop os = Name.wire ⟨upperDomain.tail k⟩ ∧
      lowerHost.wire.drop od = Name.wire ⟨lowerHost.tail k⟩ ∧
      (os = 0 ↔ upperDomain.fold <:+ lowerHost.fold) :=
  domainMatchArrays_longest ⟨by decide, by decide⟩ ⟨by decide, by decide⟩ [] []
    List.length_replicate List.length_replicate

example : domainMatchArrays upperDomain.wire lowerHost.wire (List.replicate 128 7)
    (List.replicate 128 7) = some (1, 0, 2) := by
  decide +kernel

end Names

end TorAndroid.Dns
