import TorAndroid.Dns.EvictionOrder
import TorAndroid.Lib.ByteBuffer
import TorAndroid.Lib.ForwardLinks

/-!
`sort_rrl` on the links of the list, and that it leaves the order of `mergeOrder`.

The functions have no result when they read a node that is not there or a place of the
array that was not stored, when the assertion on the array fails, or when the turns that
they are given do not suffice.
-/

namespace TorAndroid.Dns

open TorAndroid.Lib.LinkedCells TorAndroid.Lib.DoublyLinked TorAndroid.Lib.ByteBuffer

variable {α : Type} (ts : α → Int)

section Merging

/-- `*s = v`, where `s` points to the variable `l` or to the next link of a node. -/
def storeLink (d : DList α) (l v : Option Addr) :
    Place Unit → Option (Option Addr × DList α)
  | .root () => some (v, d)
  | .next a => (d.setNext (some a) v).map fun d => (l, d)

/-- The loop of `listmerge`. -/
def mergeLoop : Nat → Place Unit → Option Addr → Addr → Addr → DList α →
    Option (Option Addr × DList α)
  | 0, _, _, _, _, _ => none
  | n + 1, s, l, p, q, d => do
      let cp ← d.node p
      let cq ← d.node q
      if ts cp.val ≤ ts cq.val then
        let (l, d) ← storeLink d l (some p) s
        match ← d.nextOf (some p) with
        | none => storeLink d l (some q) (.next p)
        | some p' => mergeLoop n (.next p) l p' q d
      else
        let (l, d) ← storeLink d l (some q) s
        match ← d.nextOf (some q) with
        | none => storeLink d l (some p) (.next q)
        | some q' => mergeLoop n (.next q) l p q' d

/-- `listmerge`: the link to the merged list. -/
def listmergeLinks (turns : Nat) (p q : Option Addr) (d : DList α) :
    Option (Option Addr × DList α) :=
  match p, q with
  | none, q => some (q, d)
  | some p, none => some (some p, d)
  | some p, some q => mergeLoop ts turns (.root ()) none p q d

end Merging

section Sorting

/-- A place of the array, whose places hold nothing at first. -/
def readSlot (tmp : List (Option (Option Addr))) (i : Nat) : Option (Option Addr) :=
  tmp[i]?.join

/-- The loop that merges the places of the array up to an empty one, with the places that are
left before `fill`. -/
def carryLoop (turns : Nat) : Nat → Nat → Option Addr → List (Option (Option Addr)) →
    DList α → Option (Nat × Option Addr × List (Option (Option Addr)) × DList α)
  | 0, counter, carry, tmp, d => some (counter, carry, tmp, d)
  | n + 1, counter, carry, tmp, d => do
      match ← readSlot tmp counter with
      | none => some (counter, carry, tmp, d)
      | some l =>
          let (carry, d) ← listmergeLinks ts turns (some l) carry d
          let tmp ← store tmp counter [some none]
          carryLoop turns n (counter + 1) carry tmp d

/-- The loop over the nodes, which are taken off the list one by one. -/
def fillTmp (turns : Nat) : Nat → Addr → Nat → List (Option (Option Addr)) → DList α →
    Option (Nat × List (Option (Option Addr)) × DList α)
  | 0, _, _, _, _ => none
  | n + 1, carry, fill, tmp, d => do
      let rem ← d.nextOf (some carry)
      let d ← d.setNext (some carry) none
      let (counter, carry, tmp, d) ← carryLoop ts turns fill 0 (some carry) tmp d
      -- the assertion
      if counter = 32 then none
      else
        let tmp ← store tmp counter [some carry]
        let fill := if counter = fill then fill + 1 else fill
        match rem with
        | none => some (fill, tmp, d)
        | some rem => fillTmp turns n rem fill tmp d

/-- The loop that merges what the array holds, with the places that are left. -/
def mergeTmp (turns : Nat) (tmp : List (Option (Option Addr))) :
    Nat → Nat → Option Addr → DList α → Option (Option Addr × DList α)
  | 0, _, carry, d => some (carry, d)
  | n + 1, counter, carry, d => do
      let (carry, d) ← listmergeLinks ts turns (← readSlot tmp counter) carry d
      mergeTmp turns tmp n (counter + 1) carry d

/-- The loop that restores the links back, and the tail of the list. -/
def backLinks : Nat → Option Addr → Option Addr → DList α → Option (DList α)
  | 0, _, _, _ => none
  | _ + 1, none, q, d => some { d with tail := q }
  | n + 1, some p, q, d => do
      let d ← d.setPrev (some p) q
      backLinks n (← d.nextOf (some p)) (some p) d

/-- `sort_rrl` -/
def sortRrlLinks (d : DList α) : Option (DList α) :=
  match d.head with
  | none => some d
  | some rem => do
      match ← d.nextOf (some rem) with
      | none => some d
      | some _ =>
          let turns := d.nodes.keys.length + 1
          let (fill, tmp, d) ← fillTmp ts turns turns rem 0 (List.replicate 32 none) d
          let (carry, d) ← mergeTmp ts turns tmp (fill - 1) 1 (← readSlot tmp 0) d
          backLinks turns carry none { d with head := carry }

end Sorting

section MergeSpec

variable {d e : DList α} {acc xs ys : List (Addr × α)} {x y : Addr × α}

/-- The timestamp of a node. -/
abbrev nodeTime (x : Addr × α) : Int :=
  ts x.2

theorem listmerge_nil_left (ys : List (Addr × α)) : listmerge (nodeTime ts) [] ys = ys := by
  rw [listmerge, List.nil_merge]

theorem listmerge_nil_right (xs : List (Addr × α)) : listmerge (nodeTime ts) xs [] = xs := by
  rw [listmerge, List.merge_right]

theorem listmerge_le (h : ts x.2 ≤ ts y.2) :
    listmerge (nodeTime ts) (x :: xs) (y :: ys) = x :: listmerge (nodeTime ts) xs (y :: ys) := by
  rw [listmerge, List.cons_merge_cons, if_pos (decide_eq_true h)]
  rfl

theorem listmerge_gt (h : ¬ts x.2 ≤ ts y.2) :
    listmerge (nodeTime ts) (x :: xs) (y :: ys) = y :: listmerge (nodeTime ts) (x :: xs) ys := by
  rw [listmerge, List.cons_merge_cons, if_neg fun hle => h (of_decide_eq_true hle)]
  rfl

theorem perm_listmerge (xs ys : List (Addr × α)) :
    (listmerge (nodeTime ts) xs ys).Perm (xs ++ ys) :=
  List.merge_perm_append ..

/-- Storing what follows the nodes that were merged already. -/
theorem storeLink_spec {n : Option Addr} (h : d.Links acc n) (hnodup : (acc.map Prod.fst).Nodup)
    (v : Option Addr) :
    ∃ e, storeLink d (headAddr acc none) v (placeAfter () acc) = some (headAddr acc v, e) ∧
      e.Links acc v ∧ DList.Kept (acc.map Prod.fst) d e := by
  obtain rfl | ⟨init, x, rfl⟩ := List.eq_nil_or_concat' acc
  · exact ⟨d, rfl, trivial, .refl _ d⟩
  · obtain ⟨e, hset, hlinks, hkept⟩ := DList.setNext_last h hnodup v
    refine ⟨e, ?_, hlinks, hkept.mono (by simp)⟩
    rw [placeAfter_concat, storeLink, hset, headAddr_append, headAddr_append, headAddr_cons,
      headAddr_cons]
    rfl

theorem storeLink_head {n : Option Addr} (hacc : d.Links acc n) (hxs : d.Links (x :: xs) none)
    (hys : d.Links ys none) (hnodup : ((acc ++ (x :: xs ++ ys)).map Prod.fst).Nodup) :
    ∃ e, storeLink d (headAddr acc none) (some x.1) (placeAfter () acc) =
        some (headAddr (acc ++ [x]) none, e) ∧
      e.nextOf (some x.1) = some (headAddr xs none) ∧ e.Links (acc ++ [x]) (headAddr xs none) ∧
      e.Links xs none ∧ e.Links ys none ∧ DList.Kept (acc.map Prod.fst) d e := by
  rw [List.map_append, List.nodup_append] at hnodup
  obtain ⟨hacc', -, hdisj⟩ := hnodup
  have hout : ∀ z ∈ x :: xs ++ ys, z.1 ∉ acc.map Prod.fst := fun z hz hmem =>
    hdisj z.1 hmem z.1 (List.mem_map_of_mem hz) rfl
  rw [List.forall_mem_append] at hout
  obtain ⟨e, hstore, hlinks, hkept⟩ := storeLink_spec hacc hacc' (some x.1)
  obtain ⟨⟨p, hx⟩, hxs⟩ := hkept.links hxs hout.1
  refine ⟨e, ?_, ?_, ?_, hxs, hkept.links hys hout.2, hkept⟩
  · rw [hstore, headAddr_append, headAddr_cons]
  · rw [DList.nextOf, hx]
    rfl
  · exact DList.links_append.mpr ⟨hlinks, ⟨p, hx⟩, trivial⟩

/-- The rest of a list goes behind the nodes that were merged already. -/
theorem storeLink_rest {n : Option Addr} (hacc : d.Links acc n) (hys : d.Links ys none)
    (hnodup : ((acc ++ ys).map Prod.fst).Nodup) :
    ∃ e, storeLink d (headAddr acc none) (headAddr ys none) (placeAfter () acc) =
        some (headAddr (acc ++ ys) none, e) ∧
      e.Links (acc ++ ys) none ∧ DList.Kept (acc.map Prod.fst) d e := by
  rw [List.map_append, List.nodup_append] at hnodup
  obtain ⟨hacc', -, hdisj⟩ := hnodup
  obtain ⟨e, hstore, hlinks, hkept⟩ := storeLink_spec hacc hacc' (headAddr ys none)
  refine ⟨e, by rw [hstore, headAddr_append], DList.links_append.mpr ⟨hlinks, ?_⟩, hkept⟩
  exact hkept.links hys fun z hz hmem => hdisj z.1 hmem z.1 (List.mem_map_of_mem hz) rfl

theorem mergeLoop_spec {n : Nat} {m : Option Addr} (hacc : d.Links acc m)
    (hxs : d.Links (x :: xs) none) (hys : d.Links (y :: ys) none)
    (hnodup : ((acc ++ (x :: xs ++ y :: ys)).map Prod.fst).Nodup)
    (hn : xs.length + ys.length < n) :
    ∃ e, mergeLoop ts n (placeAfter () acc) (headAddr acc none) x.1 y.1 d =
        some (headAddr (acc ++ listmerge (nodeTime ts) (x :: xs) (y :: ys)) none, e) ∧
      e.Links (acc ++ listmerge (nodeTime ts) (x :: xs) (y :: ys)) none ∧
      DList.Kept ((acc ++ (x :: xs ++ y :: ys)).map Prod.fst) d e := by
  induction n generalizing acc xs ys x y m d with
  | zero => exact absurd hn (Nat.not_lt_zero _)
  | succ n ih =>
      obtain ⟨p, hx⟩ := hxs.1
      obtain ⟨q, hy⟩ := hys.1
      rw [mergeLoop, hx, hy]
      simp only [Option.bind_eq_bind, Option.bind_some]
      by_cases hle : ts x.2 ≤ ts y.2
      · obtain ⟨e, hstore, hnext, hacc', hxs', hys', hkept⟩ := storeLink_head hacc hxs hys hnodup
        rw [if_pos hle, hstore, Option.bind_some, hnext, Option.bind_some, listmerge_le ts hle]
        have hshift : acc ++ (x :: xs ++ y :: ys) = acc ++ [x] ++ (xs ++ y :: ys) := by simp
        rw [hshift] at hnodup ⊢
        rw [List.append_cons acc x (listmerge _ _ _)]
        obtain _ | ⟨x', xs⟩ := xs
        · obtain ⟨f, hrest, hlinks, hkept'⟩ := storeLink_rest hacc' hys' hnodup
          rw [placeAfter_concat] at hrest
          rw [listmerge_nil_left]
          exact ⟨f, hrest, hlinks, (hkept.mono (by simp)).trans (hkept'.mono (by simp))⟩
        · obtain ⟨f, hrun, hlinks, hkept'⟩ := ih hacc' hxs' hys' hnodup
            (by rw [List.length_cons] at hn; omega)
          rw [placeAfter_concat] at hrun
          exact ⟨f, hrun, hlinks, (hkept.mono (by simp)).trans hkept'⟩
      · have hperm : (acc ++ (x :: xs ++ y :: ys)).Perm (acc ++ (y :: ys ++ x :: xs)) :=
          List.perm_append_comm.append_left acc
        have hsub := (hperm.map Prod.fst).symm.subset
        rw [(hperm.map Prod.fst).nodup_iff] at hnodup
        obtain ⟨e, hstore, hnext, hacc', hys', hxs', hkept⟩ := storeLink_head hacc hys hxs hnodup
        rw [if_neg hle, hstore, Option.bind_some, hnext, Option.bind_some, listmerge_gt ts hle]
        have hshift : acc ++ (y :: ys ++ x :: xs) = acc ++ [y] ++ (ys ++ x :: xs) := by simp
        have hkept := hkept.mono
          (List.map_subset Prod.fst (List.subset_append_left acc (x :: xs ++ y :: ys)))
        rw [hshift] at hnodup hsub
        rw [List.append_cons acc y (listmerge _ _ _)]
        obtain _ | ⟨y', ys⟩ := ys
        · obtain ⟨f, hrest, hlinks, hkept'⟩ := storeLink_rest hacc' hxs' hnodup
          rw [placeAfter_concat] at hrest
          rw [listmerge_nil_right]
          refine ⟨f, hrest, hlinks, hkept.trans (hkept'.mono (List.Subset.trans ?_ hsub))⟩
          exact List.map_subset Prod.fst (List.subset_append_left ..)
        · have hswap : (acc ++ [y] ++ (y' :: ys ++ x :: xs)).Perm
              (acc ++ [y] ++ (x :: xs ++ y' :: ys)) := List.perm_append_comm.append_left _
          rw [(hswap.map Prod.fst).nodup_iff] at hnodup
          obtain ⟨f, hrun, hlinks, hkept'⟩ := ih hacc' hxs' hys' hnodup
            (by rw [List.length_cons] at hn; omega)
          rw [placeAfter_concat] at hrun
          refine ⟨f, hrun, hlinks, hkept.trans (hkept'.mono (List.Subset.trans ?_ hsub))⟩
          exact (hswap.map Prod.fst).symm.subset

theorem listmergeLinks_spec {turns : Nat} (hxs : d.Links xs none) (hys : d.Links ys none)
    (hnodup : ((xs ++ ys).map Prod.fst).Nodup) (hturns : xs.length + ys.length ≤ turns) :
    ∃ e, listmergeLinks ts turns (headAddr xs none) (headAddr ys none) d =
        some (headAddr (listmerge (nodeTime ts) xs ys) none, e) ∧
      e.Links (listmerge (nodeTime ts) xs ys) none ∧
      DList.Kept ((xs ++ ys).map Prod.fst) d e := by
  obtain _ | ⟨x, xs⟩ := xs
  · rw [listmerge_nil_left]
    exact ⟨d, rfl, hys, .refl _ d⟩
  · obtain _ | ⟨y, ys⟩ := ys
    · rw [listmerge_nil_right]
      exact ⟨d, rfl, hxs, .refl _ d⟩
    · exact @mergeLoop_spec _ ts d [] xs ys x y turns none trivial hxs hys hnodup
        (by simp only [List.length_cons] at hturns; omega)

end MergeSpec

section ArraySpec

variable {d : DList α} {tmp : List (List (Addr × α))} {turns : Nat}

/-- The places of the array that hold some lists. -/
def slots (tmp : List (List (Addr × α))) : List (Option (Option Addr)) :=
  tmp.map fun l => some (headAddr l none)

theorem readSlot_append (front back : List (Option (Option Addr))) (l : Option Addr) :
    readSlot (front ++ some l :: back) front.length = some l := by
  rw [readSlot, List.getElem?_append_right (Nat.le_refl _), Nat.sub_self]
  rfl

theorem store_slot (front back : List (Option (Option Addr))) (o l : Option (Option Addr)) :
    store (front ++ o :: back) front.length [l] = some (front ++ l :: back) := by
  simpa using @store_append _ [o] [l] rfl front back

theorem perm_merge_next (l carry : List (Addr × α)) (tmp : List (List (Addr × α))) :
    (listmerge (nodeTime ts) l carry ++ tmp.flatten).Perm (carry ++ (l :: tmp).flatten) := by
  rw [List.flatten_cons, ← List.append_assoc]
  exact ((perm_listmerge ts l carry).trans List.perm_append_comm).append_right _

theorem merge_next {l carry : List (Addr × α)} (htmp : ∀ m ∈ l :: tmp, d.Links m none)
    (hcarry : d.Links carry none) (hnodup : ((carry ++ (l :: tmp).flatten).map Prod.fst).Nodup)
    (hturns : (carry ++ (l :: tmp).flatten).length ≤ turns) :
    ∃ e, listmergeLinks ts turns (headAddr l none) (headAddr carry none) d =
        some (headAddr (listmerge (nodeTime ts) l carry) none, e) ∧
      e.Links (listmerge (nodeTime ts) l carry) none ∧ (∀ m ∈ tmp, e.Links m none) ∧
      DList.Kept ((carry ++ (l :: tmp).flatten).map Prod.fst) d e := by
  rw [List.forall_mem_cons] at htmp
  have hperm : (carry ++ (l :: tmp).flatten).Perm (l ++ carry ++ tmp.flatten) := by
    rw [List.flatten_cons, ← List.append_assoc]
    exact List.perm_append_comm.append_right _
  rw [(hperm.map Prod.fst).nodup_iff, List.map_append, List.nodup_append] at hnodup
  rw [hperm.length_eq] at hturns
  obtain ⟨e, hmerge, hlinks, hkept⟩ := @listmergeLinks_spec _ ts d l carry turns htmp.1 hcarry
    hnodup.1 (by simp only [List.length_append] at hturns ⊢; omega)
  refine ⟨e, hmerge, hlinks, fun m hm => ?_, hkept.mono (List.Subset.trans ?_
    (hperm.map Prod.fst).symm.subset)⟩
  · refine hkept.links (htmp.2 m hm) fun z hz hmem => ?_
    have hflat : z ∈ tmp.flatten := List.mem_flatten.mpr ⟨m, hm, hz⟩
    exact hnodup.2.2 z.1 hmem z.1 (List.mem_map_of_mem hflat) rfl
  · exact List.map_subset Prod.fst (List.subset_append_left _ _)

/-- The places up to an empty one are merged, and become empty. -/
theorem carryLoop_spec {carry : List (Addr × α)} {front junk : List (Option (Option Addr))}
    (htmp : ∀ l ∈ tmp, d.Links l none) (hcarry : d.Links carry none) (hne : carry ≠ [])
    (hnodup : ((carry ++ tmp.flatten).map Prod.fst).Nodup)
    (hturns : (carry ++ tmp.flatten).length ≤ turns)
    (hroom : (carryInto (nodeTime ts) tmp carry).length ≤ tmp.length + junk.length) :
    ∃ k carry' o tmp' junk' e,
      carryLoop ts turns tmp.length front.length (headAddr carry none)
          (front ++ (slots tmp ++ junk)) d =
        some (front.length + k, headAddr carry' none,
          front ++ (List.replicate k (some none) ++ o :: (slots tmp' ++ junk')), e) ∧
      carryInto (nodeTime ts) tmp carry = List.replicate k [] ++ carry' :: tmp' ∧
      (carryInto (nodeTime ts) tmp carry).length =
        (if k = tmp.length then tmp.length + 1 else tmp.length) ∧
      k + 1 + (tmp'.length + junk'.length) = tmp.length + junk.length ∧
      (∀ l ∈ carry' :: tmp', e.Links l none) ∧
      DList.Kept ((carry ++ tmp.flatten).map Prod.fst) d e := by
  induction tmp generalizing carry front d with
  | nil =>
      obtain ⟨o, junk, rfl⟩ := List.exists_cons_of_length_pos
        (show 1 ≤ junk.length by simpa [carryInto] using hroom)
      exact ⟨0, carry, o, [], junk, d, rfl, rfl, rfl, by simp only [List.length_cons]; omega,
        List.forall_mem_cons.mpr ⟨hcarry, List.forall_mem_nil _⟩, .refl _ d⟩
  | cons l tmp ih =>
      obtain _ | ⟨x, l⟩ := l
      · refine ⟨0, carry, some none, tmp, junk, d, ?_, rfl, rfl,
          by simp only [List.length_cons]; omega,
          List.forall_mem_cons.mpr ⟨hcarry, fun m hm => htmp m (List.mem_cons_of_mem _ hm)⟩,
          .refl _ d⟩
        change carryLoop ts turns (tmp.length + 1) front.length (headAddr carry none)
          (front ++ some none :: (slots tmp ++ junk)) d = _
        rw [carryLoop, readSlot_append]
        rfl
      · have hstep : carryInto (nodeTime ts) ((x :: l) :: tmp) carry =
            [] :: carryInto (nodeTime ts) tmp (listmerge (nodeTime ts) (x :: l) carry) := rfl
        have hperm := perm_merge_next ts (x :: l) carry tmp
        obtain ⟨e, hmerge, hlinks, htmp', hkept⟩ := merge_next ts htmp hcarry hnodup hturns
        have hne' : listmerge (nodeTime ts) (x :: l) carry ≠ [] := by
          refine List.ne_nil_of_length_pos ?_
          rw [(perm_listmerge ts _ _).length_eq]
          exact Nat.succ_pos _
        obtain ⟨k, carry', o, tmp', junk', f, hrun, hinto, hlen, hsum, hheld, hkept'⟩ :=
          @ih e _ (front ++ [some none]) htmp' hlinks hne'
            (by rwa [(hperm.map Prod.fst).nodup_iff]) (by rwa [hperm.length_eq])
            (by
              rw [hstep, List.length_cons, List.length_cons] at hroom
              omega)
        refine ⟨k + 1, carry', o, tmp', junk', f, ?_, ?_, ?_,
          by simp only [List.length_cons]; omega,
          hheld, ?_⟩
        · change carryLoop ts turns (tmp.length + 1) front.length (headAddr carry none)
            (front ++ some (some x.1) :: (slots tmp ++ junk)) d = _
          rw [carryLoop, readSlot_append]
          have hmerge' : listmergeLinks ts turns (some x.1) (headAddr carry none) d = _ := hmerge
          simp only [Option.bind_eq_bind, Option.bind_some, hmerge', store_slot]
          rw [List.length_append, List.length_singleton] at hrun
          rw [List.append_cons, hrun, Nat.add_assoc, Nat.add_comm 1 k, List.append_assoc]
          rfl
        · rw [hstep, hinto]
          rfl
        · rw [hstep, List.length_cons, hlen]
          simp only [List.length_cons, Nat.add_right_cancel_iff]
          split_ifs <;> rfl
        · exact hkept.trans (hkept'.mono (hperm.map Prod.fst).subset)

theorem fillTmp_turn {n m : Nat} {x : Addr × α} {rest : List (Addr × α)}
    {junk : List (Option (Option Addr))} (htmp : ∀ l ∈ tmp, d.Links l none)
    (hxs : d.Links (x :: rest) none)
    (hnodup : ((x :: rest ++ tmp.flatten).map Prod.fst).Nodup)
    (hturns : (x :: rest ++ tmp.flatten).length ≤ turns) (hcount : Counter 1 tmp m)
    (hm : m + 1 < 2 ^ 32) (hsize : tmp.length + junk.length = 32) :
    ∃ junk' e, fillTmp ts turns (n + 1) x.1 tmp.length (slots tmp ++ junk) d =
        (match headAddr rest none with
        | none => some ((carryInto (nodeTime ts) tmp [x]).length,
            slots (carryInto (nodeTime ts) tmp [x]) ++ junk', e)
        | some rem => fillTmp ts turns n rem (carryInto (nodeTime ts) tmp [x]).length
            (slots (carryInto (nodeTime ts) tmp [x]) ++ junk') e) ∧
      (carryInto (nodeTime ts) tmp [x]).length + junk'.length = 32 ∧
      (∀ l ∈ carryInto (nodeTime ts) tmp [x], e.Links l none) ∧ e.Links rest none ∧
      DList.Kept ((x :: rest ++ tmp.flatten).map Prod.fst) d e := by
  obtain ⟨⟨p, hx⟩, hrest⟩ := hxs
  have hnext : d.nextOf (some x.1) = some (headAddr rest none) := by
    rw [DList.nextOf, hx]
    rfl
  obtain ⟨e, hset, hlink, hkept⟩ := @DList.setNext_last _ d (headAddr rest none) [] x
    ⟨⟨p, hx⟩, trivial⟩ (List.nodup_singleton _) none
  have hparts := hnodup
  rw [List.cons_append, List.map_cons, List.nodup_cons] at hparts
  have hout : ∀ z ∈ rest ++ tmp.flatten, z.1 ∉ [x.1] := fun z hz hmem =>
    hparts.1 (List.mem_singleton.mp hmem ▸ List.mem_map_of_mem hz)
  rw [List.forall_mem_append] at hout
  have htmp' : ∀ l ∈ tmp, e.Links l none := fun l hl =>
    hkept.links (htmp l hl) fun z hz => hout.2 z (List.mem_flatten.mpr ⟨l, hl, hz⟩)
  -- the array is long enough
  have hlong : (carryInto (nodeTime ts) tmp [x]).length ≤ 32 := by
    have hcount' := hcount.carryInto (nodeTime ts) Nat.one_pos (List.length_singleton (a := x))
    have hle := hcount'.bounds.2 (carryInto_ne_nil _ _ _)
    by_contra hlong
    have hpow : 2 ^ 33 ≤ 2 ^ (carryInto (nodeTime ts) tmp [x]).length :=
      Nat.pow_le_pow_right (by decide) (by omega)
    omega
  have hsplit : ((x :: rest) ++ tmp.flatten).Perm ([x] ++ tmp.flatten ++ rest) := by
    rw [List.cons_append, List.singleton_append, List.cons_append]
    exact List.perm_append_comm.cons x
  rw [(hsplit.map Prod.fst).nodup_iff, List.map_append, List.nodup_append] at hnodup
  obtain ⟨k, carry, o, tmp', junk', f, hrun, hinto, hlen, hsum, hheld, hkept'⟩ :=
    @carryLoop_spec _ ts e tmp turns [x] [] junk htmp' hlink (List.cons_ne_nil _ _) hnodup.1
      (by
        rw [hsplit.length_eq, List.length_append] at hturns
        omega)
      (by omega)
  rw [List.nil_append, List.nil_append, List.length_nil, Nat.zero_add] at hrun
  have hk : k + 1 + tmp'.length = (carryInto (nodeTime ts) tmp [x]).length := by
    rw [hinto, List.length_append, List.length_replicate, List.length_cons]
    omega
  have hstore : store (List.replicate k (some none) ++ o :: (slots tmp' ++ junk')) k
      [some (headAddr carry none)] = some (slots (carryInto (nodeTime ts) tmp [x]) ++ junk') := by
    have hplace := store_slot (List.replicate k (some none)) (slots tmp' ++ junk') o
      (some (headAddr carry none))
    rw [List.length_replicate] at hplace
    rw [hplace, hinto]
    simp [slots]
  refine ⟨junk', f, ?_, by omega, ?_, ?_, (hkept.mono ?_).trans (hkept'.mono ?_)⟩
  · rw [fillTmp, hnext]
    have hrun' : carryLoop ts turns tmp.length 0 (some x.1) (slots tmp ++ junk) e = _ := hrun
    simp only [Option.bind_eq_bind, Option.bind_some, hset, hrun',
      if_neg (show ¬k = 32 by omega), hstore, ← hlen]
  · intro l hl
    rw [hinto] at hl
    obtain hl | hl := List.mem_append.mp hl
    · rw [List.eq_of_mem_replicate hl]
      trivial
    · exact hheld l hl
  · refine hkept'.links (hkept.links hrest hout.1) fun z hz hmem => ?_
    exact hnodup.2.2 z.1 hmem z.1 (List.mem_map_of_mem hz) rfl
  · simp
  · exact List.map_subset Prod.fst
      (List.cons_subset_cons x (List.subset_append_right rest tmp.flatten))

theorem fillTmp_spec {n m : Nat} {x : Addr × α} {rest : List (Addr × α)}
    {junk : List (Option (Option Addr))} (htmp : ∀ l ∈ tmp, d.Links l none)
    (hsorted : ∀ l ∈ tmp, l.Pairwise fun y z => nodeTime ts y ≤ nodeTime ts z)
    (hxs : d.Links (x :: rest) none)
    (hnodup : ((x :: rest ++ tmp.flatten).map Prod.fst).Nodup)
    (hturns : (x :: rest ++ tmp.flatten).length ≤ turns) (hcount : Counter 1 tmp m)
    (hm : m + (x :: rest).length < 2 ^ 32) (hsize : tmp.length + junk.length = 32)
    (hn : rest.length < n) :
    ∃ tmp' junk' e, fillTmp ts turns n x.1 tmp.length (slots tmp ++ junk) d =
        some (tmp'.length, slots tmp' ++ junk', e) ∧
      tmp' = (x :: rest).foldl (fun tmp x => carryInto (nodeTime ts) tmp [x]) tmp ∧
      (∀ l ∈ tmp', e.Links l none) ∧
      DList.Kept ((x :: rest ++ tmp.flatten).map Prod.fst) d e := by
  induction n generalizing x rest tmp junk d m with
  | zero => exact absurd hn (Nat.not_lt_zero _)
  | succ n ih =>
      rw [List.length_cons] at hm
      obtain ⟨junk', e, hturn, hsize', hheld, hrest, hkept⟩ := @fillTmp_turn _ ts d tmp turns n m x
        rest junk htmp hxs hnodup hturns hcount (by omega) hsize
      rw [hturn]
      obtain _ | ⟨y, rest⟩ := rest
      · exact ⟨_, junk', e, rfl, rfl, hheld, hkept⟩
      · obtain ⟨hsorted', hinto⟩ := carryInto_spec (nodeTime ts) tmp [x] hsorted
          (List.pairwise_singleton ..)
        have hperm : (y :: rest ++ (carryInto (nodeTime ts) tmp [x]).flatten).Perm
            (x :: (y :: rest) ++ tmp.flatten) :=
          (hinto.append_left _).trans List.perm_middle
        obtain ⟨tmp', junk'', f, hrun, hfold, hheld', hkept'⟩ := ih hheld hsorted' hrest
          (by rwa [(hperm.map Prod.fst).nodup_iff]) (by rwa [hperm.length_eq])
          (hcount.carryInto (nodeTime ts) Nat.one_pos (List.length_singleton (a := x)))
          (by rw [List.length_cons] at hm ⊢; omega) hsize'
          (by rw [List.length_cons] at hn; omega)
        exact ⟨tmp', junk'', f, hrun, hfold, hheld',
          hkept.trans (hkept'.mono (hperm.map Prod.fst).subset)⟩

theorem mergeTmp_spec {carry : List (Addr × α)} {front junk : List (Option (Option Addr))}
    (htmp : ∀ l ∈ tmp, d.Links l none) (hcarry : d.Links carry none)
    (hnodup : ((carry ++ tmp.flatten).map Prod.fst).Nodup)
    (hturns : (carry ++ tmp.flatten).length ≤ turns) :
    ∃ e, mergeTmp ts turns (front ++ (slots tmp ++ junk)) tmp.length front.length
        (headAddr carry none) d =
          some (headAddr (tmp.foldl (fun carry l => listmerge (nodeTime ts) l carry) carry) none,
            e) ∧
      e.Links (tmp.foldl (fun carry l => listmerge (nodeTime ts) l carry) carry) none ∧
      DList.Kept ((carry ++ tmp.flatten).map Prod.fst) d e := by
  induction tmp generalizing carry front d with
  | nil => exact ⟨d, rfl, hcarry, .refl _ d⟩
  | cons l tmp ih =>
      have hperm := perm_merge_next ts l carry tmp
      obtain ⟨e, hmerge, hlinks, htmp', hkept⟩ := merge_next ts htmp hcarry hnodup hturns
      obtain ⟨f, hrun, hlinks', hkept'⟩ := @ih e _ (front ++ [some (headAddr l none)]) htmp' hlinks
        (by rwa [(hperm.map Prod.fst).nodup_iff]) (by rwa [hperm.length_eq])
      refine ⟨f, ?_, hlinks', hkept.trans (hkept'.mono (hperm.map Prod.fst).subset)⟩
      change mergeTmp ts turns (front ++ some (headAddr l none) :: (slots tmp ++ junk))
        (tmp.length + 1) front.length (headAddr carry none) d = _
      rw [mergeTmp, readSlot_append]
      simp only [Option.bind_eq_bind, Option.bind_some, hmerge]
      rw [List.length_append, List.length_singleton] at hrun
      rw [List.append_cons, hrun]
      rfl

end ArraySpec

section BackLinks

/-- The links back are restored from the first node on. -/
theorem backLinks_spec {d : DList α} {pre xs : List (Addr × α)} {n : Nat}
    (hpre : d.Seg none pre (headAddr xs none)) (hxs : d.Links xs none)
    (hnodup : ((pre ++ xs).map Prod.fst).Nodup) (hn : xs.length < n) :
    ∃ e, backLinks n (headAddr xs none) (lastAddr none pre) d = some e ∧
      e.Seg none (pre ++ xs) none ∧ e.head = d.head ∧ e.tail = lastAddr none (pre ++ xs) ∧
      ∀ b, (e.node b).isSome ↔ (d.node b).isSome := by
  induction xs generalizing d pre n with
  | nil =>
      obtain ⟨n, rfl⟩ := Nat.exists_eq_succ_of_ne_zero (Nat.ne_zero_of_lt hn)
      rw [List.append_nil]
      exact ⟨_, rfl, hpre.frame fun _ _ => rfl, rfl, rfl, fun _ => Iff.rfl⟩
  | cons x xs ih =>
      obtain ⟨n, rfl⟩ := Nat.exists_eq_succ_of_ne_zero (Nat.ne_zero_of_lt hn)
      rw [List.length_cons] at hn
      obtain ⟨⟨p, hx⟩, hxs⟩ := hxs
      have hnode := fun b => DList.node_insert d x.1 b ⟨lastAddr none pre, headAddr xs none, x.2⟩
      have hparts := hnodup
      rw [List.map_append, List.map_cons, List.nodup_append, List.nodup_cons] at hparts
      have hpre' : ∀ y ∈ pre, y.1 ≠ x.1 := fun y hy =>
        hparts.2.2 y.1 (List.mem_map_of_mem hy) x.1 List.mem_cons_self
      have hxs' : ∀ y ∈ xs, y.1 ≠ x.1 := fun y hy h =>
        hparts.2.1.1 (h ▸ List.mem_map_of_mem hy)
      set e : DList α :=
        { d with nodes := d.nodes.insert x.1 ⟨lastAddr none pre, headAddr xs none, x.2⟩ } with he
      have hset : d.setPrev (some x.1) (lastAddr none pre) = some e := by
        rw [DList.setPrev, hx]
        rfl
      have hnext : e.nextOf (some x.1) = some (headAddr xs none) := by
        rw [DList.nextOf, hnode, if_pos rfl]
        rfl
      have hseg : e.Seg none (pre ++ [x]) (headAddr xs none) := by
        refine DList.seg_append.mpr ⟨hpre.frame fun y hy => ?_, ?_, trivial⟩
        · rw [hnode, if_neg (hpre' y hy)]
        · rw [hnode, if_pos rfl]
          rfl
      obtain ⟨f, hrun, hsegs, hhead, htail, hsome⟩ := @ih e (pre ++ [x]) n hseg
        (hxs.frame fun y hy => by rw [hnode, if_neg (hxs' y hy)]) (by simpa using hnodup)
        (by omega)
      rw [← List.append_cons] at hsegs htail
      refine ⟨f, ?_, hsegs, hhead, htail, fun b => ?_⟩
      · rw [headAddr_cons, backLinks, hset]
        simp only [Option.bind_eq_bind, Option.bind_some, hnext]
        rwa [lastAddr_append] at hrun
      · rw [hsome, hnode]
        split_ifs with hb
        · rw [hb, hx]
          rfl
        · rfl

end BackLinks

section Stability

variable {β : Type} (time : β → Int) (now : Int)

/-- The nodes with one timestamp, in the order in which they are on a list. -/
def atTime (xs : List β) : List β :=
  xs.filter fun x => time x = now

theorem atTime_append (xs ys : List β) :
    atTime time now (xs ++ ys) = atTime time now xs ++ atTime time now ys :=
  List.filter_append ..

/-- Of two nodes with the same timestamp, the one of the first list comes first. -/
theorem atTime_listmerge {xs : List β} (ys : List β)
    (hxs : xs.Pairwise fun x y => time x ≤ time y) :
    atTime time now (listmerge time xs ys) = atTime time now xs ++ atTime time now ys := by
  induction xs generalizing ys with
  | nil =>
      rw [listmerge, List.nil_merge]
      rfl
  | cons x xs ih =>
      have hrest := List.pairwise_cons.mp hxs
      induction ys with
      | nil => rw [listmerge, List.merge_right, ← atTime_append, List.append_nil]
      | cons y ys ihys =>
          rw [listmerge, List.cons_merge_cons]
          split_ifs with hle
          · have hmerge : atTime time now (listmerge time xs (y :: ys)) = _ := ih (y :: ys) hrest.2
            rw [listmerge] at hmerge
            rw [← List.singleton_append, atTime_append, hmerge, ← List.append_assoc,
              ← atTime_append, List.singleton_append]
          · have hlt : time y < time x := lt_of_not_ge fun h => hle (decide_eq_true h)
            rw [listmerge] at ihys
            rw [← List.singleton_append, atTime_append, ihys, ← List.singleton_append (l := ys),
              atTime_append time now [y] ys, ← List.append_assoc, ← List.append_assoc]
            congr 1
            by_cases hy : time y = now
            · -- the nodes of the first list are all newer
              have hnone : atTime time now (x :: xs) = [] := by
                refine List.filter_eq_nil_iff.mpr fun z hz => ?_
                rw [decide_eq_true_iff]
                obtain rfl | hz := List.mem_cons.mp hz
                · omega
                · have := hrest.1 z hz
                  omega
              rw [hnone, List.append_nil, List.nil_append]
            · have hnone : atTime time now [y] = [] := by
                rw [atTime, List.filter_cons_of_neg (by simpa using hy), List.filter_nil]
              rw [hnone, List.append_nil, List.nil_append]

/-- The lists of the array hold the older nodes the higher their place is. -/
theorem atTime_carryInto (tmp : List (List β)) (carry : List β)
    (htmp : ∀ l ∈ tmp, l.Pairwise fun x y => time x ≤ time y) :
    atTime time now (carryInto time tmp carry).reverse.flatten =
      atTime time now (tmp.reverse.flatten ++ carry) := by
  fun_induction carryInto time tmp carry with
  | case1 carry => simp
  | case2 carry tmp => simp
  | case3 l tmp carry hne ih =>
      rw [List.forall_mem_cons] at htmp
      rw [List.reverse_cons, List.flatten_append, atTime_append, ih htmp.2]
      simp only [List.reverse_cons, List.flatten_append, List.flatten_singleton, atTime_append,
        atTime_listmerge time now carry htmp.1, List.append_assoc]
      simp [atTime]

theorem atTime_foldl_carryInto (xs : List β) (tmp : List (List β))
    (htmp : ∀ l ∈ tmp, l.Pairwise fun x y => time x ≤ time y) :
    atTime time now (xs.foldl (fun tmp x => carryInto time tmp [x]) tmp).reverse.flatten =
      atTime time now (tmp.reverse.flatten ++ xs) := by
  induction xs generalizing tmp with
  | nil => rw [List.foldl_nil, List.append_nil]
  | cons x xs ih =>
      have hsorted := (carryInto_spec time tmp [x] htmp (List.pairwise_singleton ..)).1
      rw [List.foldl_cons, ih _ hsorted, atTime_append, atTime_carryInto time now tmp [x] htmp,
        ← atTime_append, List.append_assoc, List.singleton_append]

theorem atTime_foldl_listmerge (tmp : List (List β)) (carry : List β)
    (htmp : ∀ l ∈ tmp, l.Pairwise fun x y => time x ≤ time y) :
    atTime time now (tmp.foldl (fun carry l => listmerge time l carry) carry) =
      atTime time now (tmp.reverse.flatten ++ carry) := by
  induction tmp generalizing carry with
  | nil => rfl
  | cons l tmp ih =>
      rw [List.forall_mem_cons] at htmp
      rw [List.foldl_cons, ih _ htmp.2, atTime_append, atTime_listmerge time now carry htmp.1]
      simp [atTime_append]

/-- `sort_rrl` is stable. -/
theorem atTime_mergeOrder {xs ys : List β} (h : mergeOrder time xs = some ys) :
    atTime time now ys = atTime time now xs := by
  simp only [mergeOrder] at h
  split_ifs at h
  obtain rfl := Option.some.inj h
  have hsorted := (foldl_carryInto_spec time xs [] (List.forall_mem_nil _)).1
  rw [atTime_foldl_listmerge time now _ [] hsorted, List.append_nil,
    atTime_foldl_carryInto time now xs [] (List.forall_mem_nil _)]
  rfl

end Stability

section Sorted

variable {d : DList α} {xs : List (Addr × α)}

/-- `sort_rrl` leaves the nodes in the order of `mergeOrder`, with all links in place. -/
theorem sortRrlLinks_represents (h : d.Represents xs) (hlen : xs.length < 2 ^ 32) :
    ∃ e ys, sortRrlLinks ts d = some e ∧ mergeOrder (nodeTime ts) xs = some ys ∧
      e.Represents ys := by
  obtain _ | ⟨x, _ | ⟨y, rest⟩⟩ := xs
  · refine ⟨d, [], ?_, rfl, h⟩
    rw [sortRrlLinks, h.head]
    rfl
  · refine ⟨d, [x], ?_, by simp [mergeOrder, carryInto, listmerge], h⟩
    have hnext := @DList.Represents.nextOf_eq _ d [x] [] h
    rw [lastAddr_cons, lastAddr_nil] at hnext
    rw [sortRrlLinks, h.head, headAddr_cons]
    simp only [hnext, Option.bind_eq_bind, Option.bind_some, headAddr_nil]
  · obtain ⟨ys, hys⟩ := Option.isSome_iff_exists.mp
      ((mergeOrder_isSome_iff (nodeTime ts) (x :: y :: rest)).mpr hlen)
    have hperm := (mergeOrder_spec (nodeTime ts) hys).1
    have hnext := @DList.Represents.nextOf_eq _ d [x] (y :: rest) h
    rw [lastAddr_cons, lastAddr_nil, headAddr_cons] at hnext
    have hroom := h.length_le
    obtain ⟨tmp, junk, e, hfill, hfold, hheld, hkept⟩ := @fillTmp_spec _ ts d []
      (d.nodes.keys.length + 1) (d.nodes.keys.length + 1) 0 x (y :: rest)
      (List.replicate 32 none) (List.forall_mem_nil _)
      (List.forall_mem_nil _) h.seg.links (by simpa using h.nodup)
      (by rw [List.flatten_nil, List.append_nil]; omega) (.nil 1) (by omega) rfl
      (by rw [List.length_cons] at hroom; omega)
    -- the array holds the nodes
    obtain ⟨hsorted, hflat⟩ := foldl_carryInto_spec (nodeTime ts) (x :: y :: rest) []
      (List.forall_mem_nil _)
    rw [← hfold, List.flatten_nil, List.append_nil] at hflat
    obtain _ | ⟨l, tmp⟩ := tmp
    · exact absurd hflat.length_eq (by simp)
    · rw [List.flatten_cons] at hflat
      rw [List.forall_mem_cons] at hheld
      obtain ⟨f, hmerge, hlinks, hkept'⟩ := @mergeTmp_spec _ ts e tmp (d.nodes.keys.length + 1) l
        [some (headAddr l none)] junk hheld.2 hheld.1
        (by rw [(hflat.map Prod.fst).nodup_iff]; exact h.nodup)
        (by rw [hflat.length_eq]; omega)
      have horder : tmp.foldl (fun carry l => listmerge (nodeTime ts) l carry) l = ys := by
        have hlast := hys
        simp only [mergeOrder, ← hfold, List.foldl_cons, listmerge_nil_right] at hlast
        split_ifs at hlast
        exact Option.some.inj hlast
      rw [horder] at hmerge hlinks
      have hnodup : (ys.map Prod.fst).Nodup := (hperm.map Prod.fst).nodup_iff.mpr h.nodup
      obtain ⟨g, hback, hseg, hhead, htail, hsome⟩ := @backLinks_spec _
        { f with head := headAddr ys none } [] ys (d.nodes.keys.length + 1) trivial
        (hlinks.frame fun _ _ => rfl) hnodup (by rw [hperm.length_eq]; omega)
      refine ⟨g, ys, ?_, hys, hseg, hhead, htail, hnodup, fun a ha => ?_⟩
      · rw [sortRrlLinks, h.head, headAddr_cons]
        have hfill' : fillTmp ts (d.nodes.keys.length + 1) (d.nodes.keys.length + 1) x.1 0
            (List.replicate 32 none) d = _ := hfill
        have hslot : readSlot (slots (l :: tmp) ++ junk) 0 = some (headAddr l none) := rfl
        have hmerge' : mergeTmp ts (d.nodes.keys.length + 1) (slots (l :: tmp) ++ junk) tmp.length 1
            (headAddr l none) e = _ := hmerge
        simp only [hnext, Option.bind_eq_bind, Option.bind_some, hfill', hslot, List.length_cons,
          Nat.add_sub_cancel, hmerge']
        exact hback
      · rw [(hperm.map Prod.fst).mem_iff]
        refine h.allocated a ?_
        rw [← hkept.allocated, ← hkept'.allocated]
        exact (hsome a).mp ha

/-- `sort_rrl` sorts the list by the timestamps, keeps the order of nodes with the same one, and
leaves the links both ways, the head and the tail in place. -/
theorem sortRrlLinks_sorts (h : d.Represents xs) (hlen : xs.length < 2 ^ 32) :
    ∃ e ys, sortRrlLinks ts d = some e ∧ e.Represents ys ∧ ys.Perm xs ∧
      (ys.Pairwise fun x y => ts x.2 ≤ ts y.2) ∧
      ∀ now, ys.filter (fun x => ts x.2 = now) = xs.filter fun x => ts x.2 = now := by
  obtain ⟨e, ys, hrun, horder, hrep⟩ := sortRrlLinks_represents ts h hlen
  obtain ⟨hperm, hsorted⟩ := mergeOrder_spec (nodeTime ts) horder
  exact ⟨e, ys, hrun, hrep, hperm, hsorted, fun now => atTime_mergeOrder (nodeTime ts) now horder⟩

/-- Two nodes, the newer one first. -/
theorem sortRrlLinks_sorts_two :
    ∃ d : DList Int, d.Represents [(1, 5), (2, 3)] ∧
      ∃ e ys, sortRrlLinks (fun t => t) d = some e ∧ e.Represents ys ∧
        ys.Perm [(1, 5), (2, 3)] ∧ (ys.Pairwise fun x y => x.2 ≤ y.2) ∧
        ∀ now, ys.filter (fun x => x.2 = now) =
          [(1, 5), (2, 3)].filter fun x : Addr × Int => x.2 = now := by
  obtain ⟨c, -, hc⟩ := @DList.Represents.insertBetween Int DList.empty [] []
    DList.empty_represents 1 rfl 5
  have hfree : c.node 2 = none := by
    by_contra hsome
    have hmem := hc.allocated 2 (Option.isSome_iff_ne_none.mpr hsome)
    exact absurd hmem (by decide)
  obtain ⟨d, -, hd⟩ := @DList.Represents.insertBetween Int c [(1, 5)] [] hc 2 hfree 3
  exact ⟨d, hd, sortRrlLinks_sorts (fun t => t) hd (by decide)⟩

end Sorted

end TorAndroid.Dns
