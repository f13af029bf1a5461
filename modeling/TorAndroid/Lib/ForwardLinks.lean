import TorAndroid.Lib.DoublyLinked

namespace TorAndroid.Lib.DoublyLinked

open TorAndroid.Lib.LinkedCells

namespace DList

variable {α : Type} {d e : DList α}

/-- The nodes of a piece follow each other, and `n` follows the last one. -/
def Links (d : DList α) : List (Addr × α) → Option Addr → Prop
  | [], _ => True
  | x :: xs, n => (∃ p, d.node x.1 = some ⟨p, headAddr xs n, x.2⟩) ∧ Links d xs n

theorem links_append {n : Option Addr} {xs ys : List (Addr × α)} :
    d.Links (xs ++ ys) n ↔ d.Links xs (headAddr ys n) ∧ d.Links ys n := by
  induction xs with
  | nil => simp [Links]
  | cons x xs ih => simp [Links, ih, and_assoc]

theorem Seg.links {p n : Option Addr} {xs : List (Addr × α)} (h : d.Seg p xs n) :
    d.Links xs n := by
  induction xs generalizing p with
  | nil => trivial
  | cons x xs ih => exact ⟨⟨p, h.1⟩, ih h.2⟩

theorem Links.frame {n : Option Addr} {xs : List (Addr × α)} (h : d.Links xs n)
    (hsame : ∀ x ∈ xs, e.node x.1 = d.node x.1) : e.Links xs n := by
  induction xs with
  | nil => trivial
  | cons x xs ih =>
      rw [List.forall_mem_cons] at hsame
      obtain ⟨p, hp⟩ := h.1
      exact ⟨⟨p, hsame.1.trans hp⟩, ih h.2 hsame.2⟩

/-- Only links of the nodes at some addresses differ. -/
structure Kept (as : List Addr) (d e : DList α) : Prop where
  head : e.head = d.head
  tail : e.tail = d.tail
  node : ∀ b ∉ as, e.node b = d.node b
  allocated : ∀ b, (e.node b).isSome ↔ (d.node b).isSome

namespace Kept

variable {as bs : List Addr} {f : DList α}

theorem refl (as : List Addr) (d : DList α) : Kept as d d :=
  ⟨rfl, rfl, fun _ _ => rfl, fun _ => Iff.rfl⟩

theorem mono (h : Kept as d e) (hsub : as ⊆ bs) : Kept bs d e :=
  ⟨h.head, h.tail, fun b hb => h.node b fun hmem => hb (hsub hmem), h.allocated⟩

theorem trans (h : Kept as d e) (h' : Kept as e f) : Kept as d f :=
  ⟨h'.head.trans h.head, h'.tail.trans h.tail, fun b hb => (h'.node b hb).trans (h.node b hb),
    fun b => (h'.allocated b).trans (h.allocated b)⟩

theorem links {n : Option Addr} {xs : List (Addr × α)} (h : Kept as d e) (hxs : d.Links xs n)
    (hdisj : ∀ x ∈ xs, x.1 ∉ as) : e.Links xs n :=
  hxs.frame fun x hx => h.node x.1 (hdisj x hx)

end Kept

theorem setNext_last {n : Option Addr} {xs : List (Addr × α)} {x : Addr × α}
    (h : d.Links (xs ++ [x]) n) (hnodup : ((xs ++ [x]).map Prod.fst).Nodup) (v : Option Addr) :
    ∃ e, d.setNext (some x.1) v = some e ∧ e.Links (xs ++ [x]) v ∧ Kept [x.1] d e := by
  obtain ⟨hxs, ⟨p, hx⟩, -⟩ := links_append.mp h
  have hnode := fun b => node_insert d x.1 b ⟨p, v, x.2⟩
  refine ⟨{ d with nodes := d.nodes.insert x.1 ⟨p, v, x.2⟩ }, ?_, ?_, rfl, rfl, ?_, ?_⟩
  · rw [setNext, hx]
    rfl
  · refine links_append.mpr ⟨hxs.frame fun y hy => ?_, ⟨p, by rw [hnode, if_pos rfl]; rfl⟩, trivial⟩
    rw [List.map_append, List.nodup_append] at hnodup
    rw [hnode, if_neg (hnodup.2.2 y.1 (List.mem_map_of_mem hy) x.1 List.mem_cons_self)]
  · intro b hb
    rw [hnode, if_neg (List.ne_of_not_mem_cons hb)]
  · intro b
    rw [hnode]
    split_ifs with hbx
    · simp [hbx, hx]
    · rfl

end DList

end TorAndroid.Lib.DoublyLinked
