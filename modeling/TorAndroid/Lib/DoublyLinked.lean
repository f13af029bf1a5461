import TorAndroid.Lib.LinkedCells
import Mathlib.Data.List.Induction

namespace TorAndroid.Lib.DoublyLinked

open TorAndroid.Lib.LinkedCells

structure Node (α : Type) where
  prev : Option Addr
  next : Option Addr
  val : α

structure DList (α : Type) where
  head : Option Addr
  tail : Option Addr
  nodes : AList (fun _ : Addr => Node α)

variable {α : Type}

/-- The address the list `xs` starts with, or `n` when it is empty. -/
def headAddr (xs : List (Addr × α)) (n : Option Addr) : Option Addr :=
  match xs with
  | [] => n
  | x :: _ => some x.1

/-- The address the list `xs` ends with, or `p` when it is empty. -/
def lastAddr (p : Option Addr) : List (Addr × α) → Option Addr
  | [] => p
  | x :: xs => lastAddr (some x.1) xs

@[simp]
theorem headAddr_cons (x : Addr × α) (xs : List (Addr × α)) (n : Option Addr) :
    headAddr (x :: xs) n = some x.1 := rfl

@[simp]
theorem headAddr_nil (n : Option Addr) : headAddr ([] : List (Addr × α)) n = n := rfl

@[simp]
theorem headAddr_append (xs ys : List (Addr × α)) (n : Option Addr) :
    headAddr (xs ++ ys) n = headAddr xs (headAddr ys n) := by
  cases xs <;> rfl

@[simp]
theorem lastAddr_nil (p : Option Addr) : lastAddr p ([] : List (Addr × α)) = p := rfl

@[simp]
theorem lastAddr_append (p : Option Addr) (xs ys : List (Addr × α)) :
    lastAddr p (xs ++ ys) = lastAddr (lastAddr p xs) ys := by
  induction xs generalizing p with
  | nil => rfl
  | cons x xs ih => exact ih (some x.1)

@[simp]
theorem lastAddr_cons (p : Option Addr) (x : Addr × α) (xs : List (Addr × α)) :
    lastAddr p (x :: xs) = lastAddr (some x.1) xs := rfl

namespace DList

def empty : DList α := ⟨none, none, ∅⟩

def node (d : DList α) (a : Addr) : Option (Node α) :=
  d.nodes.lookup a

def setNext (d : DList α) (p n : Option Addr) : Option (DList α) :=
  match p with
  | none => some { d with head := n }
  | some a => (d.node a).map fun c =>
      { d with nodes := d.nodes.insert a { c with next := n } }

def setPrev (d : DList α) (n p : Option Addr) : Option (DList α) :=
  match n with
  | none => some { d with tail := p }
  | some a => (d.node a).map fun c =>
      { d with nodes := d.nodes.insert a { c with prev := p } }

/-- Link a new node in between two neighbours. -/
def insertBetween (d : DList α) (p n : Option Addr) (a : Addr) (v : α) : Option (DList α) := do
  let d₁ ← { d with nodes := d.nodes.insert a ⟨p, n, v⟩ }.setPrev n (some a)
  d₁.setNext p (some a)

/-- Unlink a node and free it. -/
def remove (d : DList α) (a : Addr) : Option (DList α) := do
  let c ← d.node a
  let d₁ ← d.setPrev c.next c.prev
  let d₂ ← d₁.setNext c.prev c.next
  some { d₂ with nodes := d₂.nodes.erase a }

/-- The nodes met from a link on, at most `n` of them. -/
def follow (d : DList α) : Nat → Option Addr → List (Addr × α)
  | 0, _ => []
  | _ + 1, none => []
  | n + 1, some a =>
      match d.node a with
      | none => []
      | some c => (a, c.val) :: follow d n c.next

def toList (d : DList α) : List (Addr × α) :=
  d.follow d.nodes.keys.length d.head

/-- Walk back from `le` to the first node that `stop` accepts.  The result is the
link to it, or the null link when there is none. -/
def findBack (d : DList α) (stop : α → Option Bool) : Nat → Option Addr → Option (Option Addr)
  | 0, _ => none
  | _ + 1, none => some none
  | n + 1, some le => do
      let c ← d.node le
      if ← stop c.val then some (some le) else findBack d stop n c.prev

/-- The next link of a node, or the head of the list for the null link. -/
def nextOf (d : DList α) : Option Addr → Option (Option Addr)
  | none => some d.head
  | some a => (d.node a).map Node.next

/-- An address that is not in use. -/
def fresh (d : DList α) : Addr :=
  d.nodes.keys.foldr max 0 + 1

/-- Store the links of a list of nodes, the links between them and to `p` before
them. -/
def relinkFrom (p : Option Addr) :
    List (Addr × α) → AList (fun _ : Addr => Node α) → AList (fun _ : Addr => Node α)
  | [], nodes => nodes
  | x :: xs, nodes =>
      relinkFrom (some x.1) xs (nodes.insert x.1 ⟨p, headAddr xs none, x.2⟩)

/-- Put the nodes of the list into another order. -/
def relink (d : DList α) (xs : List (Addr × α)) : DList α :=
  ⟨headAddr xs none, lastAddr none xs, relinkFrom none xs d.nodes⟩

/-- The nodes of a piece of a list have these values and are linked to each
other, to `p` before them and to `n` after them. -/
def Seg (d : DList α) : Option Addr → List (Addr × α) → Option Addr → Prop
  | _, [], _ => True
  | p, x :: xs, n => d.node x.1 = some ⟨p, headAddr xs n, x.2⟩ ∧ Seg d (some x.1) xs n

theorem seg_append {d : DList α} {p n : Option Addr} {xs ys : List (Addr × α)} :
    d.Seg p (xs ++ ys) n ↔ d.Seg p xs (headAddr ys n) ∧ d.Seg (lastAddr p xs) ys n := by
  induction xs generalizing p with
  | nil => simp [Seg]
  | cons x xs ih => simp [Seg, ih, and_assoc]

theorem Seg.frame {d e : DList α} {p n : Option Addr} {xs : List (Addr × α)}
    (h : d.Seg p xs n) (hsame : ∀ x ∈ xs, e.node x.1 = d.node x.1) : e.Seg p xs n := by
  induction xs generalizing p with
  | nil => trivial
  | cons x xs ih =>
      rw [List.forall_mem_cons] at hsame
      exact ⟨hsame.1.trans h.1, ih h.2 hsame.2⟩

theorem Seg.node_isSome {d : DList α} {p n : Option Addr} {xs : List (Addr × α)}
    (h : d.Seg p xs n) {x : Addr × α} (hx : x ∈ xs) : (d.node x.1).isSome := by
  induction xs generalizing p with
  | nil => cases hx
  | cons y xs ih =>
      rcases List.mem_cons.mp hx with rfl | hx
      · simp [h.1]
      · exact ih h.2 hx

/-- The list holds exactly the nodes `xs`, in this order, linked both ways. -/
structure Represents (d : DList α) (xs : List (Addr × α)) : Prop where
  seg : d.Seg none xs none
  head : d.head = headAddr xs none
  tail : d.tail = lastAddr none xs
  nodup : (xs.map Prod.fst).Nodup
  allocated : ∀ a, (d.node a).isSome → a ∈ xs.map Prod.fst

theorem empty_represents : (empty : DList α).Represents [] :=
  ⟨trivial, rfl, rfl, List.nodup_nil, fun a h => by simp [node, empty] at h⟩

theorem node_insert (d : DList α) (a b : Addr) (c : Node α) :
    node { d with nodes := d.nodes.insert a c } b = if b = a then some c else d.node b := by
  by_cases h : b = a
  · subst h
    simp [node]
  · simp [node, h]

theorem node_erase (d : DList α) (a b : Addr) :
    node { d with nodes := d.nodes.erase a } b = if b = a then none else d.node b := by
  by_cases h : b = a
  · subst h
    simp [node]
  · simp [node, h]

theorem setNext_spec {d : DList α} {xs : List (Addr × α)} {n : Option Addr}
    (h : d.Seg none xs n) (hnodup : (xs.map Prod.fst).Nodup) (n' : Option Addr) :
    ∃ e, d.setNext (lastAddr none xs) n' = some e ∧ e.Seg none xs n' ∧ e.tail = d.tail ∧
      e.head = (if xs = [] then n' else d.head) ∧
      (∀ b ∉ xs.map Prod.fst, e.node b = d.node b) ∧
      ∀ b, (e.node b).isSome ↔ (d.node b).isSome := by
  rcases List.eq_nil_or_concat' xs with rfl | ⟨q, x, rfl⟩
  · exact ⟨_, rfl, trivial, rfl, by simp, fun _ _ => rfl, fun _ => Iff.rfl⟩
  · obtain ⟨hq, hx, -⟩ := seg_append.mp h
    have hnode := fun b => node_insert d x.1 b ⟨lastAddr none q, n', x.2⟩
    rw [List.map_append, List.nodup_append] at hnodup
    refine ⟨{ d with nodes := d.nodes.insert x.1 ⟨lastAddr none q, n', x.2⟩ }, ?_, ?_, rfl,
      by simp, ?_, ?_⟩
    · simp [setNext, hx]
    · refine seg_append.mpr ⟨hq.frame fun y hy => ?_, by rw [hnode, if_pos rfl]; rfl, trivial⟩
      rw [hnode, if_neg (hnodup.2.2 y.1 (List.mem_map_of_mem hy) x.1 (by simp))]
    · intro b hb
      rw [hnode, if_neg (by rintro rfl; exact hb (by simp))]
    · intro b
      rw [hnode]
      split_ifs with hbx
      · simp [hbx, hx]
      · rfl

theorem setPrev_spec {d : DList α} {xs : List (Addr × α)} {p : Option Addr}
    (h : d.Seg p xs none) (hnodup : (xs.map Prod.fst).Nodup) (p' : Option Addr) :
    ∃ e, d.setPrev (headAddr xs none) p' = some e ∧ e.Seg p' xs none ∧ e.head = d.head ∧
      e.tail = (if xs = [] then p' else d.tail) ∧
      (∀ b ∉ xs.map Prod.fst, e.node b = d.node b) ∧
      ∀ b, (e.node b).isSome ↔ (d.node b).isSome := by
  cases xs with
  | nil => exact ⟨_, rfl, trivial, rfl, by simp, fun _ _ => rfl, fun _ => Iff.rfl⟩
  | cons x xs =>
      obtain ⟨hx, hxs⟩ := h
      have hnode := fun b => node_insert d x.1 b ⟨p', headAddr xs none, x.2⟩
      rw [List.map_cons, List.nodup_cons] at hnodup
      refine ⟨{ d with nodes := d.nodes.insert x.1 ⟨p', headAddr xs none, x.2⟩ }, ?_, ?_, rfl,
        by simp, ?_, ?_⟩
      · simp [setPrev, hx]
      · refine ⟨by rw [hnode, if_pos rfl], hxs.frame fun y hy => ?_⟩
        rw [hnode, if_neg]
        intro heq
        exact hnodup.1 (heq ▸ List.mem_map_of_mem hy)
      · intro b hb
        rw [hnode, if_neg (by rintro rfl; exact hb (by simp))]
      · intro b
        rw [hnode]
        split_ifs with hbx
        · simp [hbx, hx]
        · rfl

namespace Represents

variable {d : DList α} {xs : List (Addr × α)}

theorem node_of_mem (h : d.Represents xs) {pre post : List (Addr × α)} {x : Addr × α}
    (hxs : xs = pre ++ x :: post) :
    d.node x.1 = some ⟨lastAddr none pre, headAddr post none, x.2⟩ := by
  have hseg := h.seg
  rw [hxs] at hseg
  exact (seg_append.mp hseg).2.1

theorem val_of_node (h : d.Represents xs) {a : Addr} {c : Node α} (hc : d.node a = some c) :
    (a, c.val) ∈ xs := by
  obtain ⟨x, hx, rfl⟩ := List.mem_map.mp (h.allocated a (by simp [hc]))
  obtain ⟨pre, post, rfl⟩ := List.append_of_mem hx
  rw [h.node_of_mem rfl] at hc
  cases hc
  simp

theorem eq_of_mem (h : d.Represents xs) {a : Addr} {v w : α} (hv : (a, v) ∈ xs)
    (hw : (a, w) ∈ xs) : v = w := by
  have hinj := List.inj_on_of_nodup_map h.nodup hv hw rfl
  exact congrArg Prod.snd hinj

theorem length_le (h : d.Represents xs) : xs.length ≤ d.nodes.keys.length := by
  have hsub : xs.map Prod.fst ⊆ d.nodes.keys := by
    intro a ha
    obtain ⟨x, hx, rfl⟩ := List.mem_map.mp ha
    exact AList.mem_keys.mp (AList.lookup_isSome.mp (h.seg.node_isSome hx))
  simpa using (List.subperm_of_subset h.nodup hsub).length_le

theorem insertBetween {pre post : List (Addr × α)} (h : d.Represents (pre ++ post)) {a : Addr}
    (hfresh : d.node a = none) (v : α) :
    ∃ e, d.insertBetween (lastAddr none pre) (headAddr post none) a v = some e ∧
      e.Represents (pre ++ (a, v) :: post) := by
  have hnot : a ∉ (pre ++ post).map Prod.fst := by
    intro hmem
    obtain ⟨x, hx, rfl⟩ := List.mem_map.mp hmem
    have := h.seg.node_isSome hx
    simp [hfresh] at this
  rw [List.map_append, List.mem_append, not_or] at hnot
  have hnodup := h.nodup
  rw [List.map_append, List.nodup_append] at hnodup
  obtain ⟨hpre, hpost⟩ := seg_append.mp h.seg
  -- the new node, then the link before `post`, then the link after `pre`
  set d₀ : DList α :=
    { d with nodes := d.nodes.insert a ⟨lastAddr none pre, headAddr post none, v⟩ } with hd₀
  have hd₀node := fun b => node_insert d a b ⟨lastAddr none pre, headAddr post none, v⟩
  have hne : ∀ ys : List (Addr × α), a ∉ ys.map Prod.fst → ∀ y ∈ ys, d₀.node y.1 = d.node y.1 := by
    intro ys hys y hy
    rw [hd₀node, if_neg]
    intro heq
    exact hys (heq ▸ List.mem_map_of_mem hy)
  obtain ⟨d₁, hset₁, hpost₁, hhead₁, htail₁, hsame₁, hsome₁⟩ :=
    setPrev_spec (hpost.frame (hne post hnot.2)) hnodup.2.1 (some a)
  have hpre₁ : d₁.Seg none pre (headAddr post none) := by
    refine (hpre.frame (hne pre hnot.1)).frame fun x hx => hsame₁ x.1 fun hmem => ?_
    exact hnodup.2.2 x.1 (List.mem_map_of_mem hx) x.1 hmem rfl
  obtain ⟨d₂, hset₂, hpre₂, htail₂, hhead₂, hsame₂, hsome₂⟩ :=
    setNext_spec hpre₁ hnodup.1 (some a)
  refine ⟨d₂, by simp [DList.insertBetween, ← hd₀, hset₁, hset₂], ?_⟩
  refine ⟨seg_append.mpr ⟨hpre₂, ?_, ?_⟩, ?_, ?_, ?_, ?_⟩
  · rw [hsame₂ a hnot.1, hsame₁ a hnot.2, hd₀node, if_pos rfl]
  · refine hpost₁.frame fun y hy => hsame₂ y.1 fun hmem => ?_
    exact hnodup.2.2 y.1 hmem y.1 (List.mem_map_of_mem hy) rfl
  · rw [hhead₂, hhead₁]
    cases pre with
    | nil => rfl
    | cons x pre => exact h.head
  · rw [htail₂, htail₁]
    cases post with
    | nil => simp
    | cons y post => simpa using h.tail
  · rw [List.map_append, List.map_cons, List.nodup_middle, List.nodup_cons,
      List.mem_append, not_or, List.nodup_append]
    exact ⟨hnot, hnodup⟩
  · intro b hb
    rw [hsome₂, hsome₁, hd₀node] at hb
    rw [List.map_append, List.map_cons, List.mem_append, List.mem_cons]
    split_ifs at hb with hba
    · exact Or.inr (Or.inl hba)
    · have := h.allocated b hb
      rw [List.map_append, List.mem_append] at this
      tauto

theorem remove_split {pre post : List (Addr × α)} {x : Addr × α}
    (h : d.Represents (pre ++ x :: post)) :
    ∃ e, d.remove x.1 = some e ∧ e.Represents (pre ++ post) := by
  have hnodup := h.nodup
  rw [List.map_append, List.map_cons, List.nodup_append, List.nodup_cons] at hnodup
  have hxpre : x.1 ∉ pre.map Prod.fst := fun hmem =>
    hnodup.2.2 x.1 hmem x.1 List.mem_cons_self rfl
  have hdisj : ∀ y ∈ pre, y.1 ∉ post.map Prod.fst := fun y hy hmem =>
    hnodup.2.2 y.1 (List.mem_map_of_mem hy) y.1 (List.mem_cons_of_mem _ hmem) rfl
  obtain ⟨hpre, hx, hpost⟩ := seg_append.mp h.seg
  obtain ⟨d₁, hset₁, hpost₁, hhead₁, htail₁, hsame₁, hsome₁⟩ :=
    setPrev_spec hpost hnodup.2.1.2 (lastAddr none pre)
  have hpre₁ : d₁.Seg none pre (some x.1) :=
    hpre.frame fun y hy => hsame₁ y.1 (hdisj y hy)
  obtain ⟨d₂, hset₂, hpre₂, htail₂, hhead₂, hsame₂, hsome₂⟩ :=
    setNext_spec hpre₁ hnodup.1 (headAddr post none)
  have herase := fun b => node_erase d₂ x.1 b
  refine ⟨{ d₂ with nodes := d₂.nodes.erase x.1 }, by simp [DList.remove, hx, hset₁, hset₂], ?_⟩
  refine ⟨seg_append.mpr ⟨?_, ?_⟩, ?_, ?_, ?_, ?_⟩
  · refine hpre₂.frame fun y hy => ?_
    rw [herase, if_neg]
    intro heq
    exact hxpre (heq ▸ List.mem_map_of_mem hy)
  · refine hpost₁.frame fun y hy => ?_
    rw [herase, if_neg (by
      intro heq
      exact hnodup.2.1.1 (heq ▸ List.mem_map_of_mem hy))]
    refine hsame₂ y.1 fun hmem => ?_
    obtain ⟨z, hz, heq⟩ := List.mem_map.mp hmem
    exact hdisj z hz (heq ▸ List.mem_map_of_mem hy)
  · change d₂.head = _
    rw [hhead₂, hhead₁]
    cases pre with
    | nil => simp
    | cons y pre => exact h.head
  · change d₂.tail = _
    rw [htail₂, htail₁]
    cases post with
    | nil => simp
    | cons y post => simpa using h.tail
  · rw [List.map_append, List.nodup_append]
    exact ⟨hnodup.1, hnodup.2.1.2,
      fun a ha b hb => hnodup.2.2 a ha b (List.mem_cons_of_mem _ hb)⟩
  · intro b hb
    rw [herase] at hb
    split_ifs at hb with hbx
    · cases hb
    · rw [hsome₂, hsome₁] at hb
      have := h.allocated b hb
      rw [List.map_append, List.map_cons, List.mem_append, List.mem_cons] at this
      rw [List.map_append, List.mem_append]
      tauto

theorem filter_split {pre post : List (Addr × α)} {x : Addr × α}
    (h : d.Represents (pre ++ x :: post)) :
    (pre ++ x :: post).filter (fun y => y.1 ≠ x.1) = pre ++ post := by
  have hnodup := h.nodup
  rw [List.map_append, List.map_cons, List.nodup_middle, List.nodup_cons, ← List.map_append]
    at hnodup
  have hall : ∀ y ∈ pre ++ post, y.1 ≠ x.1 := fun y hy heq =>
    hnodup.1 (heq ▸ List.mem_map_of_mem hy)
  rw [List.forall_mem_append] at hall
  rw [List.filter_append, List.filter_cons_of_neg (by simp),
    List.filter_eq_self.mpr (by simpa using hall.1),
    List.filter_eq_self.mpr (by simpa using hall.2)]

theorem remove (h : d.Represents xs) {x : Addr × α} (hx : x ∈ xs) :
    ∃ e, d.remove x.1 = some e ∧ e.Represents (xs.filter fun y => y.1 ≠ x.1) := by
  obtain ⟨pre, post, rfl⟩ := List.append_of_mem hx
  rw [h.filter_split]
  exact h.remove_split

end Represents

theorem fresh_node (d : DList α) : d.node d.fresh = none := by
  rw [node, AList.lookup_eq_none, AList.mem_keys]
  have hle : ∀ (l : List Addr), ∀ a ∈ l, a ≤ l.foldr max 0 := by
    intro l
    induction l with
    | nil => simp
    | cons b l ih =>
        intro a ha
        rcases List.mem_cons.mp ha with rfl | ha
        · exact Nat.le_max_left _ _
        · exact Nat.le_trans (ih a ha) (Nat.le_max_right _ _)
  intro hmem
  exact absurd (hle _ _ hmem) (Nat.not_le.mpr (Nat.lt_succ_self _))

theorem Seg.follow_eq {d : DList α} {p : Option Addr} {xs : List (Addr × α)}
    (h : d.Seg p xs none) {n : Nat} (hn : xs.length ≤ n) :
    d.follow n (headAddr xs none) = xs := by
  induction xs generalizing p n with
  | nil => cases n <;> rfl
  | cons x xs ih =>
      obtain _ | n := n
      · simp at hn
      · simp only [headAddr_cons, follow, h.1]
        rw [ih h.2 (by simpa using hn)]

theorem Represents.toList_eq {d : DList α} {xs : List (Addr × α)} (h : d.Represents xs) :
    d.toList = xs := by
  rw [toList, h.head]
  exact h.seg.follow_eq h.length_le

/-- The walk stops at the last node of `pre` that `stop` accepts. -/
theorem Represents.findBack_spec {d : DList α} {xs : List (Addr × α)} (h : d.Represents xs)
    {stop : α → Option Bool} (hstop : ∀ x ∈ xs, (stop x.2).isSome) {pre post : List (Addr × α)}
    (hxs : xs = pre ++ post) {n : Nat} (hn : pre.length < n) :
    ∃ pre' mid, pre = pre' ++ mid ∧
      d.findBack stop n (lastAddr none pre) = some (lastAddr none pre') ∧
      (∀ x ∈ pre'.getLast?, stop x.2 = some true) ∧ ∀ x ∈ mid, stop x.2 = some false := by
  induction pre using List.reverseRecOn generalizing post n with
  | nil =>
      obtain _ | n := n
      · simp at hn
      · exact ⟨[], [], rfl, rfl, by simp, by simp⟩
  | append_singleton pre x ih =>
      obtain _ | n := n
      · simp at hn
      · have hsplit : xs = pre ++ x :: post := by simpa using hxs
        obtain ⟨b, hb⟩ := Option.isSome_iff_exists.mp (hstop x (by simp [hsplit]))
        rw [lastAddr_append, lastAddr_cons, lastAddr_nil]
        simp only [findBack, h.node_of_mem hsplit, Option.bind_eq_bind, Option.bind_some, hb]
        cases b with
        | true => exact ⟨pre ++ [x], [], by simp, by simp, by simpa using hb, by simp⟩
        | false =>
            obtain ⟨pre', mid, hpre, hfind, hlast, hmid⟩ := ih hsplit (by simpa using hn)
            refine ⟨pre', mid ++ [x], by simp [hpre], by simpa using hfind, hlast, fun y hy => ?_⟩
            rcases List.mem_append.mp hy with hy | hy
            · exact hmid y hy
            · obtain rfl := List.mem_singleton.mp hy
              exact hb

theorem Represents.nextOf_eq {d : DList α} {pre post : List (Addr × α)}
    (h : d.Represents (pre ++ post)) :
    d.nextOf (lastAddr none pre) = some (headAddr post none) := by
  rcases List.eq_nil_or_concat' pre with rfl | ⟨q, x, rfl⟩
  · exact congrArg some h.head
  · rw [lastAddr_append, lastAddr_cons, lastAddr_nil]
    have hsplit : q ++ [x] ++ post = q ++ x :: post := by simp
    simp [nextOf, h.node_of_mem hsplit]

theorem relinkFrom_lookup_of_notMem {xs : List (Addr × α)} {p : Option Addr}
    {nodes : AList (fun _ : Addr => Node α)} {a : Addr} (ha : a ∉ xs.map Prod.fst) :
    (relinkFrom p xs nodes).lookup a = nodes.lookup a := by
  induction xs generalizing p nodes with
  | nil => rfl
  | cons x xs ih =>
      rw [List.map_cons, List.mem_cons, not_or] at ha
      rw [relinkFrom, ih ha.2, AList.lookup_insert_ne ha.1]

/-- The list in another order. -/
theorem Represents.relink {d : DList α} {xs ys : List (Addr × α)} (h : d.Represents xs)
    (hperm : ys.Perm xs) : (d.relink ys).Represents ys := by
  have hnodup : (ys.map Prod.fst).Nodup := (hperm.map Prod.fst).nodup_iff.mpr h.nodup
  refine ⟨?_, rfl, rfl, hnodup, ?_⟩
  · suffices hgen : ∀ (zs : List (Addr × α)) (p : Option Addr) (nodes), (zs.map Prod.fst).Nodup →
        Seg ⟨headAddr ys none, lastAddr none ys, relinkFrom p zs nodes⟩ p zs none from
      hgen ys none d.nodes hnodup
    intro zs
    induction zs with
    | nil => exact fun _ _ _ => trivial
    | cons z zs ih =>
        intro p nodes hz
        rw [List.map_cons, List.nodup_cons] at hz
        refine ⟨?_, ih (some z.1) _ hz.2⟩
        rw [node, relinkFrom, relinkFrom_lookup_of_notMem hz.1, AList.lookup_insert]
  · intro a ha
    by_contra hnot
    rw [node, DList.relink, relinkFrom_lookup_of_notMem hnot] at ha
    exact hnot ((hperm.map Prod.fst).mem_iff.mpr (h.allocated a ha))

end DList
end TorAndroid.Lib.DoublyLinked
