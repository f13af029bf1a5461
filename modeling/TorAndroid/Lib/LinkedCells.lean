import Mathlib.Data.List.AList
import Mathlib.Data.List.Perm.Subperm
import Mathlib.Logic.Function.Basic

/-!
Singly linked lists in a store of allocated cells.

Links are held in a table of roots or in the `next` field of a cell, and a
`Place` names the variable a link is held in, so that code which walks with a
pointer to the link it came through can be followed step by step.  Reading a
cell that is not allocated has no result.
-/

namespace TorAndroid.Lib.LinkedCells

abbrev Addr := Nat

structure Cell (α : Type*) where
  next : Option Addr
  val : α

/-- Where a link is stored. -/
inductive Place (ρ : Type*) where
  | root (i : ρ)
  | next (a : Addr)

structure Store (ρ α : Type*) where
  root : ρ → Option Addr
  cells : AList (fun _ : Addr => Cell α)

variable {ρ α : Type*}

/-- The place that follows `pre` in the chain of root `i`. -/
def placeAfter (i : ρ) : List (Addr × α) → Place ρ
  | [] => .root i
  | [x] => .next x.1
  | _ :: y :: pre => placeAfter i (y :: pre)

@[simp]
theorem placeAfter_nil (i : ρ) : placeAfter i ([] : List (Addr × α)) = .root i :=
  rfl

@[simp]
theorem placeAfter_concat (i : ρ) (pre : List (Addr × α)) (x : Addr × α) :
    placeAfter i (pre ++ [x]) = .next x.1 := by
  induction pre with
  | nil => rfl
  | cons y pre ih =>
      cases pre with
      | nil => rfl
      | cons z pre => exact ih

namespace Store

def cell (s : Store ρ α) (a : Addr) : Option (Cell α) :=
  s.cells.lookup a

/-- The link stored at a place. -/
def link (s : Store ρ α) : Place ρ → Option (Option Addr)
  | .root i => some (s.root i)
  | .next a => (s.cell a).map Cell.next

def setLink [DecidableEq ρ] (s : Store ρ α) (p : Place ρ) (l : Option Addr) :
    Option (Store ρ α) :=
  match p with
  | .root i => some { s with root := Function.update s.root i l }
  | .next a => (s.cell a).map fun c =>
      { s with cells := s.cells.insert a { c with next := l } }

def alloc (s : Store ρ α) (a : Addr) (c : Cell α) : Store ρ α :=
  { s with cells := s.cells.insert a c }

def free (s : Store ρ α) (a : Addr) : Store ρ α :=
  { s with cells := s.cells.erase a }

/-- The cells met from a link on, at most `n` of them. -/
def follow (s : Store ρ α) : Nat → Option Addr → List (Addr × α)
  | 0, _ => []
  | _ + 1, none => []
  | n + 1, some a =>
      match s.cell a with
      | none => []
      | some c => (a, c.val) :: follow s n c.next

/-- Following `l` meets exactly the cells `xs` and ends in the null link. -/
def Chain (s : Store ρ α) : Option Addr → List (Addr × α) → Prop
  | l, [] => l = none
  | l, x :: xs => l = some x.1 ∧ ∃ n, s.cell x.1 = some ⟨n, x.2⟩ ∧ Chain s n xs

theorem Chain.cell_some {s : Store ρ α} {l : Option Addr} {xs : List (Addr × α)}
    (h : s.Chain l xs) {x : Addr × α} (hx : x ∈ xs) : (s.cell x.1).isSome := by
  induction xs generalizing l with
  | nil => cases hx
  | cons y xs ih =>
      obtain ⟨-, n, hcell, hrest⟩ := h
      rcases List.mem_cons.mp hx with rfl | hx
      · simp [hcell]
      · exact ih hrest hx

/-- A chain survives any change that leaves its own cells alone. -/
theorem Chain.frame {s t : Store ρ α} {l : Option Addr} {xs : List (Addr × α)}
    (h : s.Chain l xs) (hsame : ∀ x ∈ xs, t.cell x.1 = s.cell x.1) : t.Chain l xs := by
  induction xs generalizing l with
  | nil => exact h
  | cons y xs ih =>
      obtain ⟨hl, n, hcell, hrest⟩ := h
      refine ⟨hl, n, ?_, ih hrest fun x hx => hsame x (List.mem_cons_of_mem _ hx)⟩
      rw [hsame y List.mem_cons_self, hcell]

theorem Chain.follow_eq {s : Store ρ α} {l : Option Addr} {xs : List (Addr × α)}
    (h : s.Chain l xs) {n : Nat} (hn : xs.length ≤ n) : s.follow n l = xs := by
  induction xs generalizing l n with
  | nil =>
      obtain rfl : l = none := h
      cases n <;> rfl
  | cons y xs ih =>
      obtain ⟨rfl, next, hcell, hrest⟩ := h
      obtain _ | n := n
      · simp at hn
      · simp only [follow, hcell]
        rw [ih hrest (by simpa using hn)]

/-- The link at the place after `pre` leads to the rest of the chain. -/
theorem Chain.link_placeAfter {s : Store ρ α} {i : ρ} {pre post : List (Addr × α)}
    (h : s.Chain (s.root i) (pre ++ post)) :
    ∃ l, s.link (placeAfter i pre) = some l ∧ s.Chain l post := by
  suffices hgen : ∀ (l : Option Addr) (done : List (Addr × α)),
      s.link (placeAfter i done) = some l → s.Chain l (pre ++ post) →
        ∃ l', s.link (placeAfter i (done ++ pre)) = some l' ∧ s.Chain l' post from by
    simpa using hgen (s.root i) [] rfl h
  clear h
  induction pre with
  | nil =>
      intro l done hl h
      exact ⟨l, by simpa using hl, h⟩
  | cons x pre ih =>
      intro l done hl h
      obtain ⟨-, n, hcell, hrest⟩ := h
      have hnext : s.link (placeAfter i (done ++ [x])) = some n := by
        simp [link, hcell]
      simpa using ih n (done ++ [x]) hnext hrest

/-- Storing a new link at a cell of a chain replaces what came after it. -/
theorem Chain.relink {s t : Store ρ α} {l l' : Option Addr} {x : Addr × α}
    {pre post post' : List (Addr × α)} (h : s.Chain l (pre ++ x :: post))
    (hx : t.cell x.1 = some ⟨l', x.2⟩) (hpre : ∀ y ∈ pre, t.cell y.1 = s.cell y.1)
    (hpost : t.Chain l' post') : t.Chain l (pre ++ x :: post') := by
  induction pre generalizing l with
  | nil => exact ⟨h.1, l', hx, hpost⟩
  | cons y pre ih =>
      obtain ⟨hl, n, hcell, hrest⟩ := h
      refine ⟨hl, n, ?_, ih hrest fun z hz => hpre z (List.mem_cons_of_mem _ hz)⟩
      rw [hpre y List.mem_cons_self, hcell]

theorem cell_alloc (s : Store ρ α) (a b : Addr) (c : Cell α) :
    (s.alloc a c).cell b = if b = a then some c else s.cell b := by
  by_cases h : b = a
  · subst h
    simp [cell, alloc]
  · simp [cell, alloc, h]

theorem cell_free (s : Store ρ α) (a b : Addr) :
    (s.free a).cell b = if b = a then none else s.cell b := by
  by_cases h : b = a
  · subst h
    simp [cell, free]
  · simp [cell, free, h]

/-- The chain of every root is the list `L` gives for it, and no cell is on two
chains or twice on one. -/
structure Represents (s : Store ρ α) (L : ρ → List (Addr × α)) : Prop where
  chain : ∀ i, s.Chain (s.root i) (L i)
  nodup : ∀ i, ((L i).map Prod.fst).Nodup
  apart : ∀ i j, i ≠ j → ∀ x ∈ L i, ∀ y ∈ L j, x.1 ≠ y.1

namespace Represents

variable {s t : Store ρ α} {L : ρ → List (Addr × α)}

theorem length_le (h : s.Represents L) (i : ρ) : (L i).length ≤ s.cells.keys.length := by
  have hsub : (L i).map Prod.fst ⊆ s.cells.keys := by
    intro a ha
    obtain ⟨x, hx, rfl⟩ := List.mem_map.mp ha
    exact AList.mem_keys.mp (AList.lookup_isSome.mp ((h.chain i).cell_some hx))
  simpa using (List.subperm_of_subset (h.nodup i) hsub).length_le

theorem frame (h : s.Represents L) (hroot : t.root = s.root)
    (hsame : ∀ i, ∀ x ∈ L i, t.cell x.1 = s.cell x.1) : t.Represents L where
  chain i := by
    rw [hroot]
    exact (h.chain i).frame (hsame i)
  nodup := h.nodup
  apart := h.apart

theorem alloc (h : s.Represents L) {a : Addr} (hfresh : s.cell a = none) (c : Cell α) :
    (s.alloc a c).Represents L := by
  refine h.frame rfl fun i x hx => ?_
  have hne : x.1 ≠ a := by
    intro heq
    have hsome := (h.chain i).cell_some hx
    rw [heq, hfresh] at hsome
    cases hsome
  rw [cell_alloc, if_neg hne]

theorem free (h : s.Represents L) {a : Addr} (hout : ∀ i, ∀ x ∈ L i, x.1 ≠ a) :
    (s.free a).Represents L := by
  refine h.frame rfl fun i x hx => ?_
  rw [cell_free, if_neg (hout i x hx)]

variable [DecidableEq ρ]

theorem update (h : s.Represents L) {i : ρ} {new : List (Addr × α)}
    (hroot : ∀ j, j ≠ i → t.root j = s.root j) (hnew : t.Chain (t.root i) new)
    (hnodup : (new.map Prod.fst).Nodup)
    (hcells : ∀ j, j ≠ i → ∀ y ∈ L j, t.cell y.1 = s.cell y.1)
    (hout : ∀ j, j ≠ i → ∀ x ∈ new, ∀ y ∈ L j, x.1 ≠ y.1) :
    t.Represents (Function.update L i new) := by
  refine ⟨fun j => ?_, fun j => ?_, fun j k hjk x hx y hy => ?_⟩
  · by_cases hj : j = i
    · subst hj
      simpa using hnew
    · rw [Function.update_of_ne hj, hroot j hj]
      exact (h.chain j).frame (hcells j hj)
  · by_cases hj : j = i
    · subst hj
      simpa using hnodup
    · rw [Function.update_of_ne hj]
      exact h.nodup j
  · by_cases hj : j = i
    · subst hj
      rw [Function.update_self] at hx
      rw [Function.update_of_ne hjk.symm] at hy
      exact hout k hjk.symm x hx y hy
    · rw [Function.update_of_ne hj] at hx
      by_cases hk : k = i
      · subst hk
        rw [Function.update_self] at hy
        exact (hout j hj y hy x hx).symm
      · rw [Function.update_of_ne hk] at hy
        exact h.apart j k hjk x hx y hy

theorem relink (h : s.Represents L) {i : ρ} {pre post post' : List (Addr × α)}
    (hL : L i = pre ++ post) {l : Option Addr} (hl : s.Chain l post')
    (hnodup : ((pre ++ post').map Prod.fst).Nodup)
    (hout : ∀ j, j ≠ i → ∀ x ∈ post', ∀ y ∈ L j, x.1 ≠ y.1) :
    ∃ t, s.setLink (placeAfter i pre) l = some t ∧
      t.Represents (Function.update L i (pre ++ post')) ∧
      ∀ a, (∀ x ∈ pre, a ≠ x.1) → t.cell a = s.cell a := by
  have hchain := h.chain i
  rw [hL] at hchain
  have hout' : ∀ j, j ≠ i → ∀ x ∈ pre ++ post', ∀ y ∈ L j, x.1 ≠ y.1 := by
    intro j hj x hx y hy
    rcases List.mem_append.mp hx with hx | hx
    · exact h.apart i j hj.symm x (by rw [hL]; exact List.mem_append_left _ hx) y hy
    · exact hout j hj x hx y hy
  rcases List.eq_nil_or_concat' pre with rfl | ⟨q, x, rfl⟩
  · refine ⟨{ s with root := Function.update s.root i l }, rfl, ?_, fun a _ => rfl⟩
    refine h.update (fun j hj => ?_) ?_ hnodup (fun _ _ _ _ => rfl) hout'
    · simp [hj]
    · have hl' : Chain { s with root := Function.update s.root i l } l post' :=
        hl.frame fun _ _ => rfl
      simpa using hl'
  · rw [List.append_assoc, List.singleton_append] at hchain
    rw [List.append_assoc, List.singleton_append, List.map_append, List.map_cons,
      List.nodup_append, List.nodup_cons] at hnodup
    obtain ⟨n, hcell⟩ : ∃ n, s.cell x.1 = some ⟨n, x.2⟩ := by
      obtain ⟨-, -, -, n, hcell, -⟩ := hchain.link_placeAfter
      exact ⟨n, hcell⟩
    have halloc := fun b => cell_alloc s x.1 b ⟨l, x.2⟩
    refine ⟨s.alloc x.1 ⟨l, x.2⟩, ?_, ?_, ?_⟩
    · simp [setLink, hcell, Store.alloc]
    · refine h.update (fun _ _ => rfl) ?_ ?_ (fun j hj y hy => ?_) hout'
      · rw [List.append_assoc, List.singleton_append]
        refine hchain.relink (by rw [halloc, if_pos rfl]) (fun y hy => ?_)
          (hl.frame fun y hy => ?_)
        · rw [halloc, if_neg]
          exact hnodup.2.2 y.1 (List.mem_map_of_mem hy) x.1 List.mem_cons_self
        · rw [halloc, if_neg]
          intro heq
          exact hnodup.2.1.1 (heq ▸ List.mem_map_of_mem hy)
      · rw [List.append_assoc, List.singleton_append, List.map_append, List.map_cons,
          List.nodup_append, List.nodup_cons]
        exact hnodup
      · rw [halloc, if_neg (hout' j hj x (by simp) y hy).symm]
    · intro a ha
      rw [halloc, if_neg (ha x (by simp))]

theorem insertAt (h : s.Represents L) {i : ρ} {pre post : List (Addr × α)}
    (hL : L i = pre ++ post) {a : Addr} (hfresh : s.cell a = none) (v : α) :
    ∃ l t, s.link (placeAfter i pre) = some l ∧
      (s.alloc a ⟨l, v⟩).setLink (placeAfter i pre) (some a) = some t ∧
      t.Represents (Function.update L i (pre ++ (a, v) :: post)) := by
  have hchain := h.chain i
  rw [hL] at hchain
  obtain ⟨l, hlink, hpost⟩ := hchain.link_placeAfter
  have hne : ∀ j, ∀ x ∈ L j, x.1 ≠ a := by
    intro j x hx heq
    have hsome := (h.chain j).cell_some hx
    rw [heq, hfresh] at hsome
    cases hsome
  have hnodup := h.nodup i
  rw [hL] at hnodup
  have hnew : (s.alloc a ⟨l, v⟩).Chain (some a) ((a, v) :: post) := by
    refine ⟨rfl, l, by rw [cell_alloc, if_pos rfl], hpost.frame fun x hx => ?_⟩
    rw [cell_alloc, if_neg (hne i x (by rw [hL]; exact List.mem_append_right _ hx))]
  obtain ⟨t, hset, hrep, -⟩ := (h.alloc hfresh ⟨l, v⟩).relink hL hnew
    (by
      rw [List.map_append, List.map_cons, List.nodup_middle, ← List.map_append]
      refine List.nodup_cons.mpr ⟨fun hmem => ?_, hnodup⟩
      obtain ⟨x, hx, heq⟩ := List.mem_map.mp hmem
      exact hne i x (by rw [hL]; exact hx) heq)
    (by
      intro j hj x hx y hy
      rcases List.mem_cons.mp hx with rfl | hx
      · exact (hne j y hy).symm
      · exact h.apart i j hj.symm x (by rw [hL]; exact List.mem_append_right _ hx) y hy)
  exact ⟨l, t, hlink, hset, hrep⟩

theorem removeAt (h : s.Represents L) {i : ρ} {pre post : List (Addr × α)} {x : Addr × α}
    (hL : L i = pre ++ x :: post) :
    ∃ n t, s.link (placeAfter i pre) = some (some x.1) ∧ s.cell x.1 = some ⟨n, x.2⟩ ∧
      s.setLink (placeAfter i pre) n = some t ∧
      (t.free x.1).Represents (Function.update L i (pre ++ post)) ∧
      ∀ a, (∀ y ∈ pre ++ [x], a ≠ y.1) → (t.free x.1).cell a = s.cell a := by
  have hchain := h.chain i
  rw [hL] at hchain
  obtain ⟨l, hlink, rfl, n, hcell, hpost⟩ := hchain.link_placeAfter
  have hnodup := h.nodup i
  rw [hL, List.map_append, List.map_cons, List.nodup_middle, ← List.map_append,
    List.nodup_cons] at hnodup
  obtain ⟨t, hset, hrep, hcells⟩ := h.relink hL hpost hnodup.2 (by
    intro j hj y hy z hz
    exact h.apart i j hj.symm y (by rw [hL]; simp [hy]) z hz)
  refine ⟨n, t, hlink, hcell, hset, hrep.free fun j y hy heq => ?_, fun a ha => ?_⟩
  · by_cases hj : j = i
    · subst hj
      rw [Function.update_self] at hy
      exact hnodup.1 (heq ▸ List.mem_map_of_mem hy)
    · rw [Function.update_of_ne hj] at hy
      exact h.apart i j (Ne.symm hj) x (by rw [hL]; simp) y hy heq.symm
  · rw [cell_free, if_neg (ha x (by simp))]
    exact hcells a fun y hy => ha y (List.mem_append_left _ hy)

end Represents
end Store
end TorAndroid.Lib.LinkedCells
