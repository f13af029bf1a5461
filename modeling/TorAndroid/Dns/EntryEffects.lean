import TorAndroid.Dns.Cache

namespace TorAndroid.Dns

open TorAndroid.Lib.LinkedCells TorAndroid.Lib.DoublyLinked

namespace Cent

/-- The address of the node for a place of an entry. -/
def lentOf (c : Cent) : Option Slot → Option Addr
  | none =>
      match c.arm with
      | .neg lent _ _ => lent
      | .rr _ => none
  | some i => (c.rrset i).bind RrSet.lent

/-- A place belongs on the list if it holds a record set or a negative entry that is
not local. -/
def listed (c : Cent) : Option Slot → Bool
  | none => c.negative && !c.flags.isLocal
  | some i => (c.rrset i).any (fun r => !r.flags.isLocal) && !c.flags.isLocal

/-- The sum of a quantity over the record sets of an entry. -/
def measure (c : Cent) (g : RrSet → Int) : Int :=
  ∑ i, (c.rrset i).elim 0 g

/-- The number of record sets of an entry. -/
def count (c : Cent) : Int :=
  c.measure fun _ => 1

/-- The memory the array `rrext` of an entry takes. -/
def extSize (c : Cent) (sz : Sizes) : Int :=
  if c.ext then sz.pointer * nrrext else 0

/-- The memory an entry takes. -/
def size (c : Cent) (sz : Sizes) : Int :=
  sz.cent + rhnlen c.qname.wire + c.extSize sz + c.measure fun r => r.size sz

/-- How far the two counters of an entry are above what it holds. -/
def surplus (c : Cent) (sz : Sizes) : Int × Int :=
  (c.numRrs - c.count, c.cs - c.size sz)

/-- The entry with an empty record set at an index. -/
def withRrset (c : Cent) (sz : Sizes) (i : Slot) (ttl ts : Int) (flags : CFlags) : Cent :=
  let a := match c.arm with
    | .neg .. => RrArray.empty
    | .rr a => a
  { c with
    arm := .rr (a.put i ⟨none, ttl, ts, flags, []⟩)
    cs := (if nrrmu ≤ i.val ∧ a.ext = false then c.cs + sz.pointer * nrrext else c.cs) + sz.rrset
    numRrs := c.numRrs + 1 }

/-- The entry without its record set at an index. -/
def withoutRrset (c : Cent) (sz : Sizes) (i : Slot) : Cent :=
  match c.arm with
  | .neg .. => c
  | .rr a =>
      match a.slots i with
      | none => c
      | some r => { c with
          arm := .rr (a.clear i)
          numRrs := c.numRrs - 1
          cs := c.cs - r.size sz
          flags := { c.flags with auth := false } }

variable {c : Cent} {sz : Sizes} {i : Slot}

@[simp]
theorem lentOf_some (c : Cent) (i : Slot) : c.lentOf (some i) = (c.rrset i).bind RrSet.lent :=
  rfl

theorem rrset_withRrset {ttl ts : Int} {flags : CFlags} :
    (c.withRrset sz i ttl ts flags).rrset =
      Function.update c.rrset i (some ⟨none, ttl, ts, flags, []⟩) := by
  obtain ⟨qname, cs, numRrs, dflags, arm, cNs, cSoa⟩ := c
  cases arm <;> rfl

theorem ext_withRrset {ttl ts : Int} {flags : CFlags} :
    (c.withRrset sz i ttl ts flags).ext = (c.ext || decide (nrrmu ≤ i.val)) := by
  obtain ⟨qname, cs, numRrs, dflags, arm, cNs, cSoa⟩ := c
  cases arm <;> rfl

theorem rrset_withoutRrset : (c.withoutRrset sz i).rrset = Function.update c.rrset i none := by
  obtain ⟨qname, cs, numRrs, dflags, arm, cNs, cSoa⟩ := c
  cases arm with
  | neg => simp [withoutRrset, Cent.rrset]
  | rr a =>
      cases h : a.slots i with
      | none =>
          simp only [withoutRrset, h]
          exact (Function.update_eq_self_iff.mpr h.symm).symm
      | some r =>
          simp only [withoutRrset, h]
          rfl

theorem rrset_modifyRrset {f : RrSet → RrSet} :
    (c.modifyRrset i f).rrset = Function.update c.rrset i ((c.rrset i).map f) := by
  obtain ⟨qname, cs, numRrs, dflags, arm, cNs, cSoa⟩ := c
  cases arm with
  | neg => simp [modifyRrset, Cent.rrset]
  | rr a => rfl

theorem ext_withoutRrset : (c.withoutRrset sz i).ext = c.ext := by
  obtain ⟨qname, cs, numRrs, dflags, arm, cNs, cSoa⟩ := c
  cases arm with
  | neg => rfl
  | rr a => cases h : a.slots i <;> simp [withoutRrset, h, ext, RrArray.clear]

theorem ext_modifyRrset {f : RrSet → RrSet} : (c.modifyRrset i f).ext = c.ext := by
  obtain ⟨qname, cs, numRrs, dflags, arm, cNs, cSoa⟩ := c
  cases arm <;> rfl

theorem modifyRrset_frame (c : Cent) (i : Slot) (f : RrSet → RrSet) :
    (c.modifyRrset i f).qname = c.qname ∧ (c.modifyRrset i f).numRrs = c.numRrs ∧
      (c.modifyRrset i f).cs = c.cs ∧ (c.modifyRrset i f).flags = c.flags ∧
      (c.modifyRrset i f).negative = c.negative := by
  obtain ⟨qname, cs, numRrs, dflags, arm, cNs, cSoa⟩ := c
  cases arm <;> exact ⟨rfl, rfl, rfl, rfl, rfl⟩

theorem withoutRrset_frame (c : Cent) (sz : Sizes) (i : Slot) :
    (c.withoutRrset sz i).qname = c.qname ∧
      (c.withoutRrset sz i).flags.isLocal = c.flags.isLocal ∧
      (c.withoutRrset sz i).negative = c.negative ∧
      (c.withoutRrset sz i).cs = c.cs - (c.rrset i).elim 0 fun r => (r.size sz : Int) := by
  obtain ⟨qname, cs, numRrs, dflags, arm, cNs, cSoa⟩ := c
  cases arm with
  | neg => simp [withoutRrset, negative, Cent.rrset]
  | rr a => cases h : a.slots i <;> simp [withoutRrset, negative, Cent.rrset, h]

theorem withoutRrset_of_negative (h : c.negative = true) : (c.withoutRrset sz i).arm = c.arm := by
  obtain ⟨qname, cs, numRrs, dflags, arm, cNs, cSoa⟩ := c
  cases arm with
  | neg => rfl
  | rr => cases h

theorem lentOf_withoutRrset (c : Cent) (sz : Sizes) (i : Slot) :
    (c.withoutRrset sz i).lentOf = Function.update c.lentOf (some i) none := by
  funext o
  cases o with
  | none =>
      rw [Function.update_of_ne (by simp)]
      obtain ⟨qname, cs, numRrs, dflags, arm, cNs, cSoa⟩ := c
      cases arm with
      | neg => rfl
      | rr a => cases h : a.slots i <;> simp [withoutRrset, lentOf, h]
  | some j =>
      by_cases hji : j = i
      · subst hji
        simp [rrset_withoutRrset]
      · rw [Function.update_of_ne (by simpa using hji)]
        simp [rrset_withoutRrset, hji]

theorem lentOf_modifyRrset {f : RrSet → RrSet} (hf : ∀ r, (f r).lent = r.lent) :
    (c.modifyRrset i f).lentOf = c.lentOf := by
  funext o
  cases o with
  | none =>
      obtain ⟨qname, cs, numRrs, dflags, arm, cNs, cSoa⟩ := c
      cases arm <;> rfl
  | some j =>
      rw [lentOf_some, lentOf_some, rrset_modifyRrset]
      by_cases hji : j = i
      · subst hji
        cases h : c.rrset j <;> simp [hf]
      · rw [Function.update_of_ne hji]

theorem listed_modifyRrset {f : RrSet → RrSet} (hf : ∀ r, (f r).flags.isLocal = r.flags.isLocal) :
    (c.modifyRrset i f).listed = c.listed := by
  funext o
  have hframe := modifyRrset_frame c i f
  cases o with
  | none => simp only [listed, hframe.2.2.2.1, hframe.2.2.2.2]
  | some j =>
      simp only [listed, hframe.2.2.2.1, rrset_modifyRrset]
      by_cases hji : j = i
      · subst hji
        cases h : c.rrset j <;> simp [hf]
      · rw [Function.update_of_ne hji]

theorem lentOf_withRrset {ttl ts : Int} {flags : CFlags} (h : c.rrset i = none) :
    (c.withRrset sz i ttl ts flags).lentOf = Function.update c.lentOf none none := by
  funext o
  cases o with
  | none => simp [withRrset, lentOf]
  | some j =>
      rw [Function.update_of_ne (by simp)]
      by_cases hji : j = i
      · subst hji
        simp [rrset_withRrset, h]
      · simp [rrset_withRrset, hji]

section Measure

variable {d : Cent} {v : Option RrSet}

theorem measure_update (h : d.rrset = Function.update c.rrset i v) (g : RrSet → Int) :
    d.measure g = c.measure g - (c.rrset i).elim 0 g + v.elim 0 g := by
  have hrest : ∀ e : Cent, e.measure g =
      (e.rrset i).elim 0 g + ∑ j ∈ Finset.univ.erase i, (e.rrset j).elim 0 g :=
    fun e => (Finset.add_sum_erase _ _ (Finset.mem_univ i)).symm
  have hsame : ∑ j ∈ Finset.univ.erase i, (d.rrset j).elim 0 g =
      ∑ j ∈ Finset.univ.erase i, (c.rrset j).elim 0 g := by
    refine Finset.sum_congr rfl fun j hj => ?_
    rw [h, Function.update_of_ne (Finset.ne_of_mem_erase hj)]
  rw [hrest d, hrest c, hsame, h, Function.update_self]
  omega

/-- A change of the record sets that the two counters follow. -/
theorem surplus_update (h : d.rrset = Function.update c.rrset i v) (hname : d.qname = c.qname)
    (hnum : d.numRrs = c.numRrs - (c.rrset i).elim 0 (fun _ => 1) + v.elim 0 fun _ => 1)
    (hcs : d.cs = c.cs - (c.rrset i).elim 0 (fun r => (r.size sz : Int)) +
      v.elim 0 (fun r => (r.size sz : Int)) + (d.extSize sz - c.extSize sz)) :
    d.surplus sz = c.surplus sz := by
  simp only [surplus, count, size, measure_update h, hname, Prod.mk.injEq]
  constructor <;> omega

/-- The surplus depends on the array, the name and the counters only. -/
theorem surplus_congr (h : d.arm = c.arm) (hname : d.qname = c.qname)
    (hnum : d.numRrs = c.numRrs) (hcs : d.cs = c.cs) : d.surplus sz = c.surplus sz := by
  have hrrset : d.rrset = c.rrset := by
    funext j
    rw [rrset, rrset, h]
  have hext : d.ext = c.ext := by rw [ext, ext, h]
  simp only [surplus, count, size, extSize, measure, hrrset, hext, hname, hnum, hcs]

theorem surplus_withRrset (c : Cent) (sz : Sizes) (i : Slot) (ttl ts : Int) (flags : CFlags) :
    (c.withRrset sz i ttl ts flags).surplus sz =
      c.surplus sz + (c.rrset i).elim 0 fun r => (1, (r.size sz : Int)) := by
  have hcs : (c.withRrset sz i ttl ts flags).cs =
      c.cs + sz.rrset + ((c.withRrset sz i ttl ts flags).extSize sz - c.extSize sz) := by
    rw [extSize, extSize, ext_withRrset]
    obtain ⟨qname, cs, numRrs, dflags, arm, cNs, cSoa⟩ := c
    cases arm with
    | neg =>
        by_cases hi : nrrmu ≤ i.val <;> simp [withRrset, ext, RrArray.empty, hi]
        omega
    | rr a =>
        by_cases hi : nrrmu ≤ i.val <;> cases ha : a.ext <;> simp [withRrset, ext, hi, ha]
        omega
  have hnum : (c.withRrset sz i ttl ts flags).numRrs = c.numRrs + 1 := rfl
  have hname : (c.withRrset sz i ttl ts flags).qname = c.qname := rfl
  simp only [surplus, count, size, measure_update rrset_withRrset, hcs, hnum, hname]
  cases c.rrset i with
  | none => simp [RrSet.size]; omega
  | some r => simp [RrSet.size]; omega

theorem surplus_withoutRrset : (c.withoutRrset sz i).surplus sz = c.surplus sz := by
  have hext : (c.withoutRrset sz i).extSize sz = c.extSize sz := by
    rw [extSize, extSize, ext_withoutRrset]
  refine surplus_update rrset_withoutRrset ?_ ?_ ?_
  · obtain ⟨qname, cs, numRrs, dflags, arm, cNs, cSoa⟩ := c
    cases arm with
    | neg => rfl
    | rr a => cases ha : a.slots i <;> simp [withoutRrset, ha]
  · obtain ⟨qname, cs, numRrs, dflags, arm, cNs, cSoa⟩ := c
    cases arm with
    | neg => simp [withoutRrset, Cent.rrset]
    | rr a => cases ha : a.slots i <;> simp [withoutRrset, Cent.rrset, ha]
  · rw [hext]
    obtain ⟨qname, cs, numRrs, dflags, arm, cNs, cSoa⟩ := c
    cases arm with
    | neg => simp [withoutRrset, Cent.rrset]
    | rr a => cases ha : a.slots i <;> simp [withoutRrset, Cent.rrset, ha]

theorem surplus_modifyRrset {f : RrSet → RrSet} (hf : ∀ r, (f r).size sz = r.size sz) :
    (c.modifyRrset i f).surplus sz = c.surplus sz := by
  have hext : (c.modifyRrset i f).extSize sz = c.extSize sz := by
    rw [extSize, extSize, ext_modifyRrset]
  refine surplus_update rrset_modifyRrset (modifyRrset_frame ..).1 ?_ ?_
  · rw [(modifyRrset_frame c i f).2.1]
    cases c.rrset i <;> simp
  · rw [(modifyRrset_frame c i f).2.2.1, hext]
    cases c.rrset i <;> simp [hf]

theorem rrset_appendRr {data : List UInt8} :
    (appendRr sz c i data).rrset =
      Function.update c.rrset i ((c.rrset i).map fun r => { r with rrs := r.rrs ++ [data] }) :=
  rrset_modifyRrset

theorem surplus_appendRr {data : List UInt8} (h : (c.rrset i).isSome) :
    (appendRr sz c i data).surplus sz = c.surplus sz := by
  obtain ⟨r, hr⟩ := Option.isSome_iff_exists.mp h
  have hext : (appendRr sz c i data).extSize sz = c.extSize sz := by
    rw [extSize, extSize]
    exact congrArg (fun b : Bool => if b then (sz.pointer * nrrext : Int) else 0) ext_modifyRrset
  refine surplus_update rrset_appendRr (modifyRrset_frame ..).1 ?_ ?_
  · rw [hr]
    simp [appendRr, (modifyRrset_frame c i _).2.1]
  · rw [hext, hr]
    simp [appendRr, RrSet.size, Int.add_mul]
    omega

end Measure

end Cent

section Copy

/-- A record set that is not on the list. -/
def RrSet.bare (r : RrSet) : RrSet :=
  { r with lent := none }

namespace Cent

theorem rrset_copyCent (c : Cent) (i : Slot) :
    (copyCent c).rrset i = (c.rrset i).map RrSet.bare := by
  obtain ⟨qname, cs, numRrs, dflags, arm, cNs, cSoa⟩ := c
  cases arm <;> rfl

theorem copyCent_frame (c : Cent) :
    (copyCent c).qname = c.qname ∧ (copyCent c).cs = c.cs ∧ (copyCent c).numRrs = c.numRrs ∧
      (copyCent c).flags = c.flags ∧ (copyCent c).negative = c.negative ∧
      (copyCent c).ext = c.ext := by
  obtain ⟨qname, cs, numRrs, dflags, arm, cNs, cSoa⟩ := c
  cases arm <;> exact ⟨rfl, rfl, rfl, rfl, rfl, rfl⟩

theorem lentOf_copyCent (c : Cent) (o : Option Slot) : (copyCent c).lentOf o = none := by
  cases o with
  | none =>
      obtain ⟨qname, cs, numRrs, dflags, arm, cNs, cSoa⟩ := c
      cases arm <;> rfl
  | some i =>
      rw [lentOf_some, rrset_copyCent]
      cases c.rrset i <;> rfl

theorem listed_copyCent (c : Cent) : (copyCent c).listed = c.listed := by
  obtain ⟨-, -, -, hflags, hneg, -⟩ := copyCent_frame c
  funext o
  cases o with
  | none => simp only [listed, hflags, hneg]
  | some i =>
      simp only [listed, hflags, rrset_copyCent]
      cases c.rrset i <;> rfl

theorem measure_map {c d : Cent} {f : RrSet → RrSet} (h : ∀ i, d.rrset i = (c.rrset i).map f)
    {g : RrSet → Int} (hg : ∀ r, g (f r) = g r) : d.measure g = c.measure g := by
  refine Finset.sum_congr rfl fun i _ => ?_
  rw [h]
  cases c.rrset i with
  | none => rfl
  | some r => exact hg r

theorem surplus_map {c d : Cent} {sz : Sizes} {f : RrSet → RrSet}
    (h : ∀ i, d.rrset i = (c.rrset i).map f) (hf : ∀ r, (f r).size sz = r.size sz)
    (hname : d.qname = c.qname) (hcs : d.cs = c.cs) (hnum : d.numRrs = c.numRrs)
    (hext : d.ext = c.ext) : d.surplus sz = c.surplus sz := by
  simp only [surplus, count, size, extSize, hname, hcs, hnum, hext]
  rw [measure_map h fun _ => rfl,
    measure_map h (g := fun r => (r.size sz : Int)) fun r => by rw [hf]]

theorem surplus_copyCent (c : Cent) (sz : Sizes) : (copyCent c).surplus sz = c.surplus sz := by
  obtain ⟨hname, hcs, hnum, -, -, hext⟩ := copyCent_frame c
  exact surplus_map (rrset_copyCent c) (fun _ => rfl) hname hcs hnum hext

end Cent

end Copy

section Parts

variable (sz : Sizes) (l : Rrl) (c : Cent) (i : Slot)

theorem addCentRrsetByIndex_eq (ttl ts : Int) (flags : CFlags) :
    addCentRrsetByIndex sz l c i ttl ts flags =
      (removeRrl l (c.lentOf none)).map fun l => (l, c.withRrset sz i ttl ts flags) := by
  obtain ⟨qname, cs, numRrs, dflags, arm, cNs, cSoa⟩ := c
  cases arm with
  | neg lent ttl' ts' =>
      simp only [addCentRrsetByIndex, Cent.lentOf, Cent.withRrset]
      cases removeRrl l lent <;> rfl
  | rr a => rfl

theorem delCentRrsetByIndex_eq :
    delCentRrsetByIndex sz l c i =
      (removeRrl l (c.lentOf (some i))).map fun l =>
        (l, c.withoutRrset sz i, (c.rrset i).elim 0 (RrSet.size sz)) := by
  obtain ⟨qname, cs, numRrs, dflags, arm, cNs, cSoa⟩ := c
  cases arm with
  | neg => rfl
  | rr a =>
      cases h : a.slots i with
      | none => simp [delCentRrsetByIndex, Cent.lentOf, Cent.rrset, Cent.withoutRrset, h, removeRrl]
      | some r =>
          simp only [delCentRrsetByIndex, Cent.lentOf, Cent.rrset, Cent.withoutRrset, h, delRrset,
            Option.bind_some]
          cases removeRrl l r.lent <;> rfl

/-- Take the nodes for some places off the list. -/
def removeEach (l : Rrl) (f : Option Slot → Option Addr) (os : List (Option Slot)) : Option Rrl :=
  os.foldlM (fun l o => removeRrl l (f o)) l

theorem removeEach_cons (f : Option Slot → Option Addr) (o : Option Slot)
    (os : List (Option Slot)) :
    removeEach l f (o :: os) = (removeRrl l (f o)).bind fun l => removeEach l f os :=
  rfl

theorem removeEach_none {f : Option Slot → Option Addr} {os : List (Option Slot)}
    (h : ∀ o ∈ os, f o = none) : removeEach l f os = some l := by
  induction os with
  | nil => rfl
  | cons o os ih =>
      rw [List.forall_mem_cons] at h
      rw [removeEach_cons, h.1]
      exact ih h.2

theorem removeEach_congr {f g : Option Slot → Option Addr} {os : List (Option Slot)}
    (h : ∀ o ∈ os, f o = g o) : removeEach l f os = removeEach l g os := by
  induction os generalizing l with
  | nil => rfl
  | cons o os ih =>
      rw [List.forall_mem_cons] at h
      rw [removeEach_cons, removeEach_cons, h.1]
      exact Option.bind_congr fun l' _ => ih l' h.2

theorem delTurn_eq (a : RrArray) (n : Nat) :
    delTurn sz a (l, n) i = (removeRrl l ((a.slots i).bind RrSet.lent)).map fun l =>
      (l, n + (a.slots i).elim 0 (RrSet.size sz)) := by
  cases h : a.slots i with
  | none => simp [delTurn, h, removeRrl]
  | some r =>
      simp only [delTurn, h, delRrset, Option.bind_some, Option.elim_some]
      cases removeRrl l r.lent <;> rfl

theorem delAllRrsets_eq (a : RrArray) :
    delAllRrsets sz l a =
      (removeEach l (fun o => (o.bind a.slots).bind RrSet.lent)
        ((List.finRange _).map some)).map fun l =>
        (l, ((List.finRange _).map fun i => (a.slots i).elim 0 (RrSet.size sz)).sum) := by
  suffices hgen : ∀ (is : List Slot) (l : Rrl) (n : Nat),
      is.foldlM (delTurn sz a) (l, n) =
      (removeEach l (fun o => (o.bind a.slots).bind RrSet.lent) (is.map some)).map fun l =>
        (l, n + (is.map fun i => (a.slots i).elim 0 (RrSet.size sz)).sum) by
    simpa [delAllRrsets] using hgen (List.finRange _) l 0
  intro is
  induction is with
  | nil => exact fun l n => rfl
  | cons i is ih =>
      intro l n
      rw [List.foldlM_cons, delTurn_eq]
      simp only [List.map_cons, removeEach_cons, Option.bind_some]
      cases removeRrl l ((a.slots i).bind RrSet.lent) with
      | none => rfl
      | some l' =>
          rw [List.sum_cons, ← Nat.add_assoc]
          exact ih l' _

/-- The places of an entry. -/
def places : List (Option Slot) :=
  none :: (List.finRange _).map some

theorem mem_places (o : Option Slot) : o ∈ places := by
  cases o <;> simp [places]

theorem places_nodup : places.Nodup := by
  refine List.nodup_cons.mpr ⟨by simp, ?_⟩
  exact (List.nodup_finRange _).map (Option.some_injective _)

theorem freeCent_eq : freeCent sz l c = removeEach l c.lentOf places := by
  obtain ⟨qname, cs, numRrs, dflags, arm, cNs, cSoa⟩ := c
  cases arm with
  | neg lent ttl ts =>
      rw [places, removeEach_cons]
      simp only [freeCent, Cent.lentOf]
      cases removeRrl l lent with
      | none => rfl
      | some l' => exact (removeEach_none l' (by simp [Cent.lentOf, Cent.rrset])).symm
  | rr a =>
      have hfun : Cent.lentOf ⟨qname, cs, numRrs, dflags, .rr a, cNs, cSoa⟩ =
          fun o => (o.bind a.slots).bind RrSet.lent := by
        funext o
        cases o <;> rfl
      rw [places, removeEach_cons, hfun]
      simp only [freeCent, delAllRrsets_eq, Option.bind_none, removeRrl, Option.bind_some]
      cases removeEach l _ _ <;> rfl

end Parts

/-- Two lists hold the same nodes of the other entries. -/
def SameElse (k : Key) (xs ys : List (Addr × Lent)) : Prop :=
  ∀ a le, le.cent ≠ k → ((a, le) ∈ ys ↔ (a, le) ∈ xs)

theorem SameElse.refl (k : Key) (xs : List (Addr × Lent)) : SameElse k xs xs :=
  fun _ _ _ => Iff.rfl

theorem SameElse.trans {k : Key} {xs ys zs : List (Addr × Lent)} (h₁ : SameElse k xs ys)
    (h₂ : SameElse k ys zs) : SameElse k xs zs :=
  fun a le hle => (h₂ a le hle).trans (h₁ a le hle)

/-- The list holds the nodes `xs`, and among them those of the entry `k` are the ones
whose addresses `f` gives. -/
structure Owns (l : Rrl) (xs : List (Addr × Lent)) (k : Key) (f : Option Slot → Option Addr) :
    Prop where
  represents : l.Represents xs
  mem_iff : ∀ a o, (a, ⟨k, o⟩) ∈ xs ↔ f o = some a

namespace Owns

variable {l : Rrl} {xs : List (Addr × Lent)} {k : Key} {f : Option Slot → Option Addr}

theorem removeRrl (h : Owns l xs k f) (o : Option Slot) :
    ∃ l', removeRrl l (f o) = some l' ∧
      Owns l' (xs.filter fun y => f o ≠ some y.1) k (Function.update f o none) ∧
      SameElse k xs (xs.filter fun y => f o ≠ some y.1) := by
  cases hfo : f o with
  | none =>
      have hupdate : Function.update f o none = f := by simp [← hfo]
      refine ⟨l, rfl, ?_, ?_⟩
      · simpa [hupdate] using h
      · simpa using SameElse.refl k xs
  | some b =>
      have hmem : (b, ⟨k, o⟩) ∈ xs := (h.mem_iff b o).mpr hfo
      obtain ⟨l', hl', hrep⟩ := h.represents.remove hmem
      have hfilter : (xs.filter fun y => some b ≠ some y.1) = xs.filter fun y => y.1 ≠ b := by
        refine List.filter_congr fun y _ => ?_
        simp [eq_comm]
      rw [hfilter]
      refine ⟨l', hl', ⟨hrep, fun a o' => ?_⟩, fun a le hle => ?_⟩
      · rw [List.mem_filter, h.mem_iff]
        by_cases ho : o' = o
        · subst ho
          rw [hfo, Function.update_self]
          constructor
          · rintro ⟨heq, hne⟩
            cases heq
            simp at hne
          · intro hnone
            cases hnone
        · rw [Function.update_of_ne ho]
          constructor
          · exact And.left
          · refine fun hf => ⟨hf, ?_⟩
            simp only [ne_eq, decide_eq_true_eq]
            rintro rfl
            have heq := h.represents.eq_of_mem ((h.mem_iff a o').mpr hf) hmem
            exact ho (congrArg Lent.idx heq)
      · rw [List.mem_filter]
        constructor
        · exact And.left
        · refine fun hin => ⟨hin, ?_⟩
          simp only [ne_eq, decide_eq_true_eq]
          rintro rfl
          exact hle (congrArg Lent.cent (h.represents.eq_of_mem hin hmem))

theorem removeEach (h : Owns l xs k f) {os : List (Option Slot)} (hnodup : os.Nodup) :
    ∃ l', removeEach l f os = some l' ∧
      Owns l' (xs.filter fun y => ∀ o ∈ os, f o ≠ some y.1) k
        (fun o => if o ∈ os then none else f o) ∧
      SameElse k xs (xs.filter fun y => ∀ o ∈ os, f o ≠ some y.1) := by
  induction os generalizing l xs f with
  | nil =>
      refine ⟨l, rfl, ?_, ?_⟩
      · simpa using h
      · simpa using SameElse.refl k xs
  | cons o os ih =>
      rw [List.nodup_cons] at hnodup
      obtain ⟨l₁, hl₁, hown₁, hsame₁⟩ := h.removeRrl o
      obtain ⟨l₂, hl₂, hown₂, hsame₂⟩ := ih hown₁ hnodup.2
      have hne : ∀ o' ∈ os, Function.update f o none o' = f o' := fun o' ho' =>
        Function.update_of_ne (ne_of_mem_of_not_mem ho' hnodup.1) _ _
      have hfilter : ((xs.filter fun y => f o ≠ some y.1).filter fun y =>
          ∀ o' ∈ os, Function.update f o none o' ≠ some y.1) =
          xs.filter fun y => ∀ o' ∈ o :: os, f o' ≠ some y.1 := by
        rw [List.filter_filter]
        refine List.filter_congr fun y _ => ?_
        rw [← Bool.decide_and, decide_eq_decide, List.forall_mem_cons, and_comm]
        refine and_congr_right fun _ => forall₂_congr fun o' ho' => ?_
        rw [hne o' ho']
      have hfun : (fun o' => if o' ∈ os then none else Function.update f o none o') =
          fun o' => if o' ∈ o :: os then none else f o' := by
        funext o'
        by_cases ho : o' = o
        · simp [ho]
        · simp [ho]
      rw [hfilter, hfun] at hown₂
      rw [hfilter] at hsame₂
      refine ⟨l₂, ?_, hown₂, hsame₁.trans hsame₂⟩
      rw [removeEach_cons, hl₁]
      exact (removeEach_congr l₁ hne).symm.trans hl₂

end Owns

end TorAndroid.Dns
