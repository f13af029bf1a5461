import TorAndroid.Dns.CacheEntry

namespace TorAndroid.Dns

/-- `rrlkuptab`, from `T_MIN` on. -/
def rrlkuptab : List Nat :=
  [0, 1, 8, 9, 2, 3, 10, 11, 12, 13, 14, 4, 15, 16, 5, 6, 17, 18, 19, 20, 21, 22, 23, 24, 25, 26,
    27, 7, 28, 29, 30, 31, 32, 33, 34, 35, 36, 47, 48, 49, 50, 37, 38, 39, 40, 41, 42, 43, 44, 45,
    46]

/-- `rrmuiterlist`: the most frequently used types in ascending order. -/
def rrmuiterlist : List Nat :=
  [1, 2, 5, 6, 12, 15, 16, 28]

/-- `rrcachiterlist`: the types that can be cached in ascending order. -/
def rrcachiterlist : List Nat :=
  [1, 2, 3, 4, 5, 6, 7, 8, 9, 10, 11, 12, 13, 14, 15, 16, 17, 18, 19, 20, 21, 22, 23, 24, 25, 26,
    27, 28, 29, 30, 31, 32, 33, 34, 35, 36, 37, 42, 43, 44, 45, 46, 47, 48, 49, 50, 51]

/-- The index of a type, unless it is a `PDNSD_NOT_CACHED_TYPE`. -/
def slotOf (tp : Nat) : Option Slot :=
  if tp = 0 then none
  else (rrlkuptab[tp - 1]?).bind fun i =>
    if h : i < nrrmu + nrrext then some ⟨i, h⟩ else none

def Cent.getrrset (c : Cent) (tp : Nat) : Option RrSet :=
  (slotOf tp).bind c.rrset

/-- `RRITERLIST`. -/
def Cent.iterlist (c : Cent) : List Nat :=
  if c.negative then []
  else if c.ext then rrcachiterlist
  else rrmuiterlist

theorem iterlist_ascending (c : Cent) :
    c.iterlist.Pairwise (· < ·) ∧ ∀ tp ∈ c.iterlist, 0 < tp ∧ (slotOf tp).isSome := by
  rw [Cent.iterlist]
  split_ifs <;> decide

theorem iterlist_nodup (c : Cent) : (c.iterlist.filterMap slotOf).Nodup := by
  rw [Cent.iterlist]
  split_ifs <;> decide

theorem Cent.rrset_of_ext {c : Cent} (h : c.ext = false) {i : Slot} (hi : nrrmu ≤ i.val) :
    c.rrset i = none := by
  obtain ⟨qname, cs, numRrs, dflags, arm, cNs, cSoa⟩ := c
  cases arm with
  | neg => rfl
  | rr a => exact a.ext_null h i hi

/-- The list leaves out no type the entry has a record set of. -/
theorem mem_iterlist {c : Cent} {i : Slot} (h : (c.rrset i).isSome) :
    ∃ tp ∈ c.iterlist, slotOf tp = some i := by
  have hall : ∀ i : Slot, ∃ tp ∈ rrcachiterlist, slotOf tp = some i := by decide
  have hmu : ∀ i : Slot, i.val < nrrmu → ∃ tp ∈ rrmuiterlist, slotOf tp = some i := by decide
  have hneg : c.negative = false := by
    obtain ⟨qname, cs, numRrs, dflags, arm, cNs, cSoa⟩ := c
    cases arm with
    | neg => cases h
    | rr => rfl
  cases hext : c.ext with
  | true =>
      simp only [Cent.iterlist, hneg, hext]
      exact hall i
  | false =>
      simp only [Cent.iterlist, hneg, hext]
      refine hmu i (Nat.lt_of_not_le fun hi => ?_)
      rw [Cent.rrset_of_ext hext hi] at h
      cases h

end TorAndroid.Dns
