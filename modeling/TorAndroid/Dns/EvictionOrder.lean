import TorAndroid.Dns.EntryEffects

namespace TorAndroid.Dns

open TorAndroid.Lib.LinkedCells TorAndroid.Lib.DoublyLinked

/-- The timestamp of a record set, or of a negative entry. -/
def Cent.tsOf (c : Cent) : Option Slot → Option Int
  | none =>
      match c.arm with
      | .neg _ _ ts => some ts
      | .rr _ => none
  | some i => (c.rrset i).map RrSet.ts

theorem lentTs_eq (s : Cache) (le : Lent) :
    lentTs s le = (s.find le.cent).bind fun c => c.tsOf le.idx := by
  obtain ⟨k, o⟩ := le
  rw [lentTs]
  cases s.find k with
  | none => rfl
  | some c =>
      obtain ⟨qname, cs, numRrs, dflags, arm, cNs, cSoa⟩ := c
      cases o with
      | none => cases arm <;> rfl
      | some i => rfl

/-- The timestamp by which `sort_rrl` and `insert_rrl` compare a node. -/
def Cache.nodeTs (s : Cache) (x : Addr × Lent) : Int :=
  (lentTs s x.2).getD 0

/-- While the list is kept sorted, the oldest nodes come first. -/
def Cache.OldestFirst (s : Cache) : Prop :=
  s.insertSort = true → s.rrl.toList.Pairwise fun x y => s.nodeTs x ≤ s.nodeTs y

/-- Only nodes were taken off the list, and the rest have the timestamps they had. -/
structure Cache.Keeps (s t : Cache) : Prop where
  insertSort : t.insertSort = s.insertSort
  sublist : t.rrl.toList.Sublist s.rrl.toList
  ts : ∀ x ∈ t.rrl.toList, t.nodeTs x = s.nodeTs x

theorem Cache.Keeps.refl (s : Cache) : s.Keeps s :=
  ⟨rfl, List.Sublist.refl _, fun _ _ => rfl⟩

theorem Cache.Keeps.trans {s t u : Cache} (h₁ : s.Keeps t) (h₂ : t.Keeps u) : s.Keeps u := by
  refine ⟨h₂.insertSort.trans h₁.insertSort, h₂.sublist.trans h₁.sublist, fun x hx => ?_⟩
  rw [h₂.ts x hx, h₁.ts x (h₂.sublist.subset hx)]

theorem Cache.Keeps.oldestFirst {s t : Cache} (h : s.Keeps t) (hs : s.OldestFirst) :
    t.OldestFirst := by
  intro hsort
  have hold := (hs (h.insertSort ▸ hsort)).sublist h.sublist
  refine hold.imp_of_mem fun hx hy hle => ?_
  rw [h.ts _ hx, h.ts _ hy]
  exact hle

/-- A node goes behind one that is not newer, and before the nodes that are newer. -/
theorem pairwise_insert {β : Type} {ts : β → Int} {pre post : List β} {x : β}
    (h : (pre ++ post).Pairwise fun y z => ts y ≤ ts z)
    (hpre : ∀ y ∈ pre.getLast?, ts y ≤ ts x) (hpost : ∀ y ∈ post, ts x < ts y) :
    (pre ++ x :: post).Pairwise fun y z => ts y ≤ ts z := by
  rw [List.pairwise_append] at h ⊢
  obtain ⟨hl, hr, hlr⟩ := h
  have hle : ∀ y ∈ pre, ts y ≤ ts x := by
    intro y hy
    rcases List.eq_nil_or_concat' pre with rfl | ⟨init, z, rfl⟩
    · cases hy
    · have hz : ts z ≤ ts x := hpre z (by simp)
      rw [List.pairwise_append] at hl
      rcases List.mem_append.mp hy with hy | hy
      · exact (hl.2.2 y hy z (by simp)).trans hz
      · obtain rfl := List.mem_singleton.mp hy
        exact hz
  refine ⟨hl, List.pairwise_cons.mpr ⟨fun y hy => (hpost y hy).le, hr⟩, fun y hy z hz => ?_⟩
  rcases List.mem_cons.mp hz with rfl | hz
  · exact hle y hy
  · exact hlr y hy z hz

section MergeSort

variable {β : Type} (ts : β → Int)

theorem pairwise_listmerge {p q : List β} (hp : p.Pairwise fun x y => ts x ≤ ts y)
    (hq : q.Pairwise fun x y => ts x ≤ ts y) :
    (listmerge ts p q).Pairwise fun x y => ts x ≤ ts y := by
  have hdec : ∀ {l : List β}, l.Pairwise (fun x y => ts x ≤ ts y) ↔
      l.Pairwise fun x y => decide (ts x ≤ ts y) = true := by simp
  rw [hdec] at hp hq ⊢
  refine List.pairwise_merge (fun a b c hab hbc => ?_) (fun a b => ?_) p q hp hq
  · exact decide_eq_true ((of_decide_eq_true hab).trans (of_decide_eq_true hbc))
  · simpa using Int.le_total (ts a) (ts b)

theorem carryInto_spec (tmp : List (List β)) (carry : List β)
    (htmp : ∀ l ∈ tmp, l.Pairwise fun x y => ts x ≤ ts y)
    (hcarry : carry.Pairwise fun x y => ts x ≤ ts y) :
    (∀ l ∈ carryInto ts tmp carry, l.Pairwise fun x y => ts x ≤ ts y) ∧
      (carryInto ts tmp carry).flatten.Perm (carry ++ tmp.flatten) := by
  fun_induction carryInto ts tmp carry with
  | case1 carry => simpa using hcarry
  | case2 carry tmp =>
      rw [List.forall_mem_cons] at htmp
      exact ⟨List.forall_mem_cons.mpr ⟨hcarry, htmp.2⟩, by simp⟩
  | case3 l tmp carry hne ih =>
      rw [List.forall_mem_cons] at htmp
      obtain ⟨hsorted, hperm⟩ := ih htmp.2 (pairwise_listmerge ts htmp.1 hcarry)
      refine ⟨List.forall_mem_cons.mpr ⟨List.Pairwise.nil, hsorted⟩, ?_⟩
      have hmerge : (listmerge ts l carry).Perm (carry ++ l) :=
        (List.merge_perm_append ..).trans List.perm_append_comm
      simpa using hperm.trans (hmerge.append_right tmp.flatten)

theorem foldl_carryInto_spec (xs : List β) (tmp : List (List β))
    (htmp : ∀ l ∈ tmp, l.Pairwise fun x y => ts x ≤ ts y) :
    (∀ l ∈ xs.foldl (fun tmp x => carryInto ts tmp [x]) tmp,
      l.Pairwise fun x y => ts x ≤ ts y) ∧
      (xs.foldl (fun tmp x => carryInto ts tmp [x]) tmp).flatten.Perm (xs ++ tmp.flatten) := by
  induction xs generalizing tmp with
  | nil => exact ⟨htmp, .refl _⟩
  | cons x xs ih =>
      obtain ⟨hsorted, hperm⟩ := carryInto_spec ts tmp [x] htmp (List.pairwise_singleton ..)
      obtain ⟨hsorted', hperm'⟩ := ih (carryInto ts tmp [x]) hsorted
      refine ⟨hsorted', hperm'.trans ((hperm.append_left xs).trans ?_)⟩
      simp

theorem foldl_listmerge_spec (tmp : List (List β)) (carry : List β)
    (htmp : ∀ l ∈ tmp, l.Pairwise fun x y => ts x ≤ ts y)
    (hcarry : carry.Pairwise fun x y => ts x ≤ ts y) :
    (tmp.foldl (fun carry l => listmerge ts l carry) carry).Perm (carry ++ tmp.flatten) ∧
      (tmp.foldl (fun carry l => listmerge ts l carry) carry).Pairwise
        fun x y => ts x ≤ ts y := by
  induction tmp generalizing carry with
  | nil => exact ⟨by simp, hcarry⟩
  | cons l tmp ih =>
      rw [List.forall_mem_cons] at htmp
      obtain ⟨hperm, hsorted⟩ := ih (listmerge ts l carry) htmp.2
        (pairwise_listmerge ts htmp.1 hcarry)
      refine ⟨hperm.trans ?_, hsorted⟩
      have hmerge : (listmerge ts l carry).Perm (carry ++ l) :=
        (List.merge_perm_append ..).trans List.perm_append_comm
      simpa using hmerge.append_right tmp.flatten

/-- `sort_rrl` leaves the nodes there are, in the order of their timestamps. -/
theorem mergeOrder_spec {xs ys : List β} (h : mergeOrder ts xs = some ys) :
    ys.Perm xs ∧ ys.Pairwise fun x y => ts x ≤ ts y := by
  simp only [mergeOrder] at h
  split_ifs at h
  obtain rfl := Option.some.inj h
  obtain ⟨hsorted, hperm⟩ := foldl_carryInto_spec ts xs [] (by simp)
  obtain ⟨hperm', hsorted'⟩ := foldl_listmerge_spec ts _ [] hsorted List.Pairwise.nil
  refine ⟨hperm'.trans ?_, hsorted'⟩
  simpa using hperm

/-- The array `tmp` counts in binary: its places are empty or hold lists of length `w`,
`2 * w` and so on, the last one is not empty, and all lists together have length `n`. -/
inductive Counter : Nat → List (List β) → Nat → Prop
  | nil (w : Nat) : Counter w [] 0
  | zero {w n : Nat} {tmp : List (List β)} (hne : tmp ≠ []) (h : Counter (2 * w) tmp n) :
      Counter w ([] :: tmp) n
  | one {w n : Nat} {l : List β} {tmp : List (List β)} (hl : l.length = w)
      (h : Counter (2 * w) tmp n) : Counter w (l :: tmp) (w + n)

theorem carryInto_ne_nil (tmp : List (List β)) (carry : List β) :
    carryInto ts tmp carry ≠ [] := by
  fun_cases carryInto ts tmp carry <;> simp

theorem Counter.carryInto {w n : Nat} {tmp : List (List β)} (h : Counter w tmp n) (hw : 0 < w)
    {carry : List β} (hcarry : carry.length = w) :
    Counter w (carryInto ts tmp carry) (n + w) := by
  induction h generalizing carry with
  | nil w => exact Nat.add_comm 0 w ▸ .one hcarry (.nil _)
  | @zero w n tmp hne h ih => exact Nat.add_comm w n ▸ .one hcarry h
  | @one w n l tmp hl h ih =>
      have hcons : Dns.carryInto ts (l :: tmp) carry =
          [] :: Dns.carryInto ts tmp (listmerge ts l carry) := by
        cases l with
        | nil => exact absurd hl (by simp; omega)
        | cons x l => rfl
      have hlength : (listmerge ts l carry).length = 2 * w := by
        rw [listmerge, List.length_merge, hl, hcarry]
        omega
      have hrest := ih (by omega) hlength
      rw [show n + 2 * w = w + n + w by omega] at hrest
      rw [hcons]
      exact .zero (carryInto_ne_nil ts _ _) hrest

theorem counter_foldl (xs : List β) {n : Nat} {tmp : List (List β)} (h : Counter 1 tmp n) :
    Counter 1 (xs.foldl (fun tmp x => carryInto ts tmp [x]) tmp) (n + xs.length) := by
  induction xs generalizing n tmp with
  | nil => exact h
  | cons x xs ih =>
      have hnext := ih (h.carryInto ts Nat.one_pos (List.length_singleton (a := x)))
      rwa [Nat.add_assoc, Nat.add_comm 1] at hnext

/-- The length of the array is the number of binary digits. -/
theorem Counter.bounds {w n : Nat} {tmp : List (List β)} (h : Counter w tmp n) :
    n + w ≤ w * 2 ^ tmp.length ∧ (tmp ≠ [] → w * 2 ^ tmp.length ≤ 2 * n) := by
  have hpow : ∀ w k : Nat, w * 2 ^ (k + 1) = 2 * w * 2 ^ k := by
    intro w k
    rw [Nat.pow_succ', ← Nat.mul_assoc, Nat.mul_comm w 2]
  induction h with
  | nil w => exact ⟨by simp, fun hne => absurd rfl hne⟩
  | @zero w n tmp hne h ih =>
      rw [List.length_cons, hpow]
      exact ⟨by omega, fun _ => ih.2 hne⟩
  | @one w n l tmp hl h ih =>
      rw [List.length_cons, hpow]
      refine ⟨by omega, fun _ => ?_⟩
      cases tmp with
      | nil =>
          rw [List.length_nil, Nat.pow_zero]
          omega
      | cons l' tmp =>
          have hge := ih.2 (List.cons_ne_nil _ _)
          omega

/-- The array of `sort_rrl` is long enough for fewer than `2 ^ 32` nodes. -/
theorem mergeOrder_isSome_iff (xs : List β) :
    (mergeOrder ts xs).isSome ↔ xs.length < 2 ^ 32 := by
  have hcount := counter_foldl ts xs (.nil 1)
  obtain ⟨hlt, hle⟩ := hcount.bounds
  rw [Nat.zero_add, Nat.one_mul] at hlt hle
  simp only [mergeOrder]
  set tmp := xs.foldl (fun tmp x => carryInto ts tmp [x]) []
  split_ifs with hlong
  · have hne : tmp ≠ [] := by
      rintro hnil
      rw [hnil] at hlong
      cases hlong
    have hpow : 2 ^ 33 ≤ 2 ^ tmp.length := Nat.pow_le_pow_right (by decide) hlong
    have := hle hne
    simp only [Option.isSome_none, Bool.false_eq_true, false_iff, not_lt]
    omega
  · have hpow : 2 ^ tmp.length ≤ 2 ^ 32 := Nat.pow_le_pow_right (by decide) (by omega)
    simp only [Option.isSome_some, true_iff]
    omega

end MergeSort

/-- A fold that does not fail relates its start to its end by what every turn does. -/
theorem foldlM_rel {α β : Type} {R : β → β → Prop} (hrefl : ∀ b, R b b)
    (htrans : ∀ a b c, R a b → R b c → R a c) {f : β → α → Option β}
    (hf : ∀ b x b', f b x = some b' → R b b') {xs : List α} {b b' : β}
    (h : xs.foldlM f b = some b') : R b b' := by
  induction xs generalizing b with
  | nil =>
      obtain rfl := Option.some.inj h
      exact hrefl b
  | cons x xs ih =>
      rw [List.foldlM_cons, Option.bind_eq_bind, Option.bind_eq_some_iff] at h
      obtain ⟨c, hc, hrest⟩ := h
      exact htrans b c b' (hf b x c hc) (ih hrest)

/-- The second list is the first with some nodes taken off. -/
def Shrinks (l l' : Rrl) : Prop :=
  ∀ xs, l.Represents xs → ∃ ys, l'.Represents ys ∧ ys.Sublist xs

section Shrinks

variable {l l' l'' : Rrl} {sz : Sizes} {cfg : CacheConfig} {c d : Cent} {i : Slot}
  {now : Int} {s t : Cache} {k : Key}

theorem Shrinks.refl (l : Rrl) : Shrinks l l :=
  fun xs hxs => ⟨xs, hxs, List.Sublist.refl xs⟩

theorem Shrinks.trans (h₁ : Shrinks l l') (h₂ : Shrinks l' l'') : Shrinks l l'' := by
  intro xs hxs
  obtain ⟨ys, hys, hsub⟩ := h₁ xs hxs
  obtain ⟨zs, hzs, hsub'⟩ := h₂ ys hys
  exact ⟨zs, hzs, hsub'.trans hsub⟩

theorem shrinks_removeRrl {lent : Option Addr} (h : removeRrl l lent = some l') :
    Shrinks l l' := by
  cases lent with
  | none =>
      obtain rfl := Option.some.inj h
      exact .refl l
  | some a =>
      intro xs hxs
      have hnode : ∃ n, l.node a = some n := by
        change l.remove a = some l' at h
        rw [DList.remove, Option.bind_eq_bind, Option.bind_eq_some_iff] at h
        obtain ⟨n, hn, -⟩ := h
        exact ⟨n, hn⟩
      obtain ⟨n, hn⟩ := hnode
      obtain ⟨e, he, hrep⟩ := hxs.remove (hxs.val_of_node hn)
      obtain rfl : e = l' := Option.some.inj (he.symm.trans h)
      exact ⟨_, hrep, List.filter_sublist⟩

theorem shrinks_freeCent (h : freeCent sz l c = some l') : Shrinks l l' := by
  rw [freeCent_eq, removeEach] at h
  exact foldlM_rel Shrinks.refl (fun _ _ _ => Shrinks.trans)
    (fun _ _ _ hturn => shrinks_removeRrl hturn) h

theorem shrinks_delCentRrsetByIndex {n : Nat}
    (h : delCentRrsetByIndex sz l c i = some (l', d, n)) : Shrinks l l' := by
  rw [delCentRrsetByIndex_eq, Option.map_eq_some_iff] at h
  obtain ⟨m, hm, heq⟩ := h
  cases heq
  exact shrinks_removeRrl hm

theorem shrinks_addCentRrsetByIndex {ttl ts : Int} {flags : CFlags}
    (h : addCentRrsetByIndex sz l c i ttl ts flags = some (l', d)) : Shrinks l l' := by
  rw [addCentRrsetByIndex_eq, Option.map_eq_some_iff] at h
  obtain ⟨m, hm, heq⟩ := h
  cases heq
  exact shrinks_removeRrl hm

theorem shrinks_dropConflict {x y : Rrl × Cent} {z : Slot × RrSet}
    (h : dropConflict cfg x z = some y) : Shrinks x.1 y.1 := by
  simp only [dropConflict, Option.bind_eq_bind, Option.bind_eq_some_iff] at h
  obtain ⟨⟨m, e, n⟩, hdel, heq⟩ := h
  cases heq
  exact shrinks_delCentRrsetByIndex hdel

theorem shrinks_crCheckAdd {ttl : Int} {flags : CFlags} {ok : Bool}
    (h : crCheckAdd cfg now l c i ttl flags = some (l', d, ok)) : Shrinks l l' := by
  have hstay : ∀ b : Bool, some (l, c, b) = some (l', d, ok) → Shrinks l l' := by
    rintro b ⟨⟩
    exact .refl l
  simp only [crCheckAdd, Option.bind_eq_bind] at h
  split_ifs at h <;> try exact hstay _ h
  -- only here are record sets taken away
  rw [Option.bind_eq_some_iff] at h
  obtain ⟨⟨m, e⟩, hfold, heq⟩ := h
  cases heq
  exact foldlM_rel (R := fun x y : Rrl × Cent => Shrinks x.1 y.1) (fun _ => .refl _)
    (fun _ _ _ => Shrinks.trans) (fun _ _ _ => shrinks_dropConflict) hfold

theorem shrinks_delSlot (h : delSlot cfg s k c i = some t) : Shrinks s.rrl t.rrl := by
  simp only [delSlot, Option.bind_eq_bind, Option.bind_eq_some_iff] at h
  obtain ⟨⟨m, e, n⟩, hdel, heq⟩ := h
  cases heq
  exact shrinks_delCentRrsetByIndex hdel

theorem shrinks_delCacheEnt (h : delCacheEnt cfg s k c = some t) : Shrinks s.rrl t.rrl := by
  simp only [delCacheEnt, Option.bind_eq_bind, Option.bind_eq_some_iff] at h
  obtain ⟨m, hfree, heq⟩ := h
  cases heq
  exact shrinks_freeCent hfree

theorem shrinks_purgeStep {x y : Cache × Nat × Nat} (h : purgeStep cfg now k x i = some y) :
    Shrinks x.1.rrl y.1.rrl := by
  simp only [purgeStep, Option.bind_eq_bind, Option.bind_eq_some_iff] at h
  obtain ⟨e, -, hturn⟩ := h
  split at hturn
  · cases hturn
    exact .refl _
  · split at hturn
    · rw [Option.bind_eq_some_iff] at hturn
      obtain ⟨u, hdel, heq⟩ := hturn
      cases heq
      exact shrinks_delSlot hdel
    · cases hturn
      exact .refl _

theorem shrinks_purgeAllRrsets {n : Nat} (h : purgeAllRrsets cfg now s k = some (t, n)) :
    Shrinks s.rrl t.rrl := by
  simp only [purgeAllRrsets, Option.bind_eq_bind, Option.bind_eq_some_iff] at h
  obtain ⟨⟨u, n', m'⟩, hfold, e, -, hend⟩ := h
  have hloop : Shrinks s.rrl u.rrl :=
    foldlM_rel (R := fun x y : Cache × Nat × Nat => Shrinks x.1.rrl y.1.rrl)
      (fun _ => .refl _) (fun _ _ _ => Shrinks.trans) (fun _ _ _ => shrinks_purgeStep) hfold
  split_ifs at hend <;> cases hend <;> exact hloop

theorem shrinks_purgeCent {delete b : Bool} (h : purgeCent cfg now delete s k = some (t, b)) :
    Shrinks s.rrl t.rrl := by
  simp only [purgeCent, Option.bind_eq_bind, Option.bind_eq_some_iff] at h
  obtain ⟨⟨u, n⟩, hall, e, -, hend⟩ := h
  have hfirst := shrinks_purgeAllRrsets hall
  split_ifs at hend
  · rw [Option.bind_eq_some_iff] at hend
    obtain ⟨v, hdel, heq⟩ := hend
    cases heq
    exact hfirst.trans (shrinks_delCacheEnt hdel)
  · cases hend
    exact hfirst
  · cases hend
    exact hfirst

theorem shrinks_purgeRrset (h : purgeRrset cfg now s k i = some t) : Shrinks s.rrl t.rrl := by
  simp only [purgeRrset, Option.bind_eq_bind, Option.bind_eq_some_iff] at h
  obtain ⟨e, -, hend⟩ := h
  split_ifs at hend
  · exact shrinks_delSlot hend
  · cases hend
    exact .refl _

theorem shrinks_purgeOld {le : Lent} (h : purgeOld cfg now s le = some t) :
    Shrinks s.rrl t.rrl := by
  simp only [purgeOld, Option.bind_eq_bind, Option.bind_eq_some_iff] at h
  obtain ⟨e, -, hturn⟩ := h
  split at hturn
  · cases hturn
    exact .refl _
  obtain ⟨u, hfirst, e', hend⟩ : ∃ u, Shrinks s.rrl u.rrl ∧ ∃ e',
      (if (decide (e'.numRrs = 0) && e'.needless now) = true then delCacheEnt cfg u e'.qname.fold e'
        else some u) = some t := by
    split at hturn
    · simp only [Option.bind_eq_some_iff] at hturn
      obtain ⟨u, hset, e', -, hend⟩ := hturn
      exact ⟨u, shrinks_purgeRrset hset, e', hend⟩
    · simp only [Option.bind_some, Option.bind_eq_some_iff] at hturn
      obtain ⟨e', -, hend⟩ := hturn
      exact ⟨s, .refl _, e', hend⟩
  split at hend
  · exact hfirst.trans (shrinks_delCacheEnt hend)
  · cases hend
    exact hfirst

theorem shrinks_purgeAny {le : Lent} (h : purgeAny cfg s le = some t) :
    Shrinks s.rrl t.rrl := by
  simp only [purgeAny, Option.bind_eq_bind, Option.bind_eq_some_iff] at h
  obtain ⟨e, -, hturn⟩ := h
  split at hturn
  · cases hturn
    exact .refl _
  obtain ⟨u, hfirst, e', hend⟩ : ∃ u, Shrinks s.rrl u.rrl ∧ ∃ e',
      (if e'.numRrs = 0 then delCacheEnt cfg u e'.qname.fold e' else some u) = some t := by
    split at hturn
    · simp only [Option.bind_eq_some_iff] at hturn
      obtain ⟨u, hset, e', -, hend⟩ := hturn
      exact ⟨u, shrinks_delSlot hset, e', hend⟩
    · simp only [Option.bind_some, Option.bind_eq_some_iff] at hturn
      obtain ⟨e', -, hend⟩ := hturn
      exact ⟨s, .refl _, e', hend⟩
  split at hend
  · exact hfirst.trans (shrinks_delCacheEnt hend)
  · cases hend
    exact hfirst

theorem shrinks_walkRrl {cond : Cache → Bool} {body : Cache → Lent → Option Cache}
    (hbody : ∀ s le t, body s le = some t → Shrinks s.rrl t.rrl) {n : Nat} {a : Option Addr}
    (h : walkRrl cond body n s a = some t) : Shrinks s.rrl t.rrl := by
  induction n generalizing s a with
  | zero => cases h
  | succ n ih =>
      cases a with
      | none =>
          cases h
          exact .refl _
      | some a =>
          rw [walkRrl] at h
          split at h
          · simp only [Option.bind_eq_bind, Option.bind_eq_some_iff] at h
            obtain ⟨le, -, u, hu, hrest⟩ := h
            exact (hbody s le.val u hu).trans (ih hrest)
          · cases h
            exact .refl _

end Shrinks

end TorAndroid.Dns
