import TorAndroid.Lib.ByteBuffer
import Mathlib.Data.List.Forall2
import Mathlib.Data.List.Induction
import Mathlib.Algebra.GroupWithZero.Nat

/-!
The lists of `list.c` whose items are not all of one size. A list is one block of memory, in
which each item follows a word that holds the distance to the next one; the word of the last
item is written when the list grows again. The size of the block is not kept.
-/

namespace TorAndroid.Dns.Dlist

open TorAndroid.Lib.ByteBuffer

/-- The data models of the machines that `pdnsd` is built for. -/
inductive Abi
  | ilp32
  | lp64

namespace Abi

/-- The size of a `size_t` as a power of two. -/
def log : Abi → Nat
  | ilp32 => 2
  | lp64 => 3

/-- `sizeof(size_t)`. -/
def word (A : Abi) : Nat := 2 ^ A.log

def bits (A : Abi) : Nat := 8 * A.word

end Abi

abbrev SizeT (A : Abi) := BitVec A.bits

/-- `struct _dynamic_list_head`. -/
structure DynamicListHead (A : Abi) where
  last : SizeT A
  lastsz : SizeT A
  data : List UInt8

variable {A : Abi}

/-- `sizeof(size_t)` as a `size_t`. -/
def wordSize (A : Abi) : SizeT A :=
  BitVec.ofNat _ A.word

def DLISTALIGN (len : SizeT A) : SizeT A :=
  alignUp (BitVec.ofNat _ (2 ^ A.log - 1)) len

/-- A size rounded up to chunks, with `DLISTCHUNKSIZEMASK`. -/
def wholeChunks (sz : SizeT A) : SizeT A :=
  alignUp (BitVec.ofNat _ (2 ^ 10 - 1)) sz

/-- A `size_t` is stored at an offset that suits it. -/
def storeSize (data : List UInt8) (off v : SizeT A) : Option (List UInt8) :=
  if off.toNat % A.word = 0 then store data off.toNat (wordBytes A.word v.toNat) else none

def loadSize (data : List UInt8) (off : SizeT A) : Option (SizeT A) :=
  if off.toNat % A.word = 0 then
    (load data off.toNat A.word).map fun bytes => BitVec.ofNat _ (wordValue bytes)
  else none

/-- The data after `realloc`, which succeeds. It keeps what fits, and has what the heap holds
behind it. -/
def realloc (data : List UInt8) (size : SizeT A) (heap : Nat → UInt8) : Option (List UInt8) :=
  if 2 * A.word ≤ size.toNat then
    some ((List.range (size.toNat - 2 * A.word)).map fun i => data.getD i (heap i))
  else none

/-- What `dlist_grow` computes of a list that it is given: the bytes that are used, the bytes
that must have been allocated, and the data with the size word of the last item. -/
def closeLast : Option (DynamicListHead A) → Option (SizeT A × SizeT A × Option (List UInt8))
  | none => some (0, 0, none)
  | some a => do
      let sz := a.last + a.lastsz
      let data ← storeSize a.data a.last a.lastsz
      some (sz, wholeChunks sz, some data)

/-- The data of a block with room for `newsz` bytes. -/
def reserve (allocsz newsz : SizeT A) (data : Option (List UInt8)) (heap : Nat → UInt8) :
    Option (Option (List UInt8)) :=
  if allocsz < newsz then
    (realloc (data.getD []) (2 * wordSize A + wholeChunks newsz) heap).map some
  else some data

/-- `dlist_grow`. It has no result when it stores beyond the block. -/
def dlistGrow (a : Option (DynamicListHead A)) (len : SizeT A) (heap : Nat → UInt8) :
    Option (Option (DynamicListHead A)) := do
  let (sz, allocsz, data) ← closeLast a
  let szincr := DLISTALIGN (len + wordSize A)
  match ← reserve allocsz (sz + szincr) data heap with
  | none => some none
  | some data =>
      let data ← storeSize data sz 0
      some (some ⟨sz, szincr, data⟩)

/-- References to items are offsets in the data. -/
def dlistNext (data : List UInt8) (ref : SizeT A) : Option (Option (SizeT A)) := do
  let incr ← loadSize data (ref - wordSize A)
  some (if incr ≠ 0 then some (ref + incr) else none)

def dlistLast (a : Option (DynamicListHead A)) : Option (SizeT A) :=
  a.map fun a => a.last + wordSize A

/-- The references that `dlist_next` goes through, at most so many. -/
def iterateFrom (data : List UInt8) : Nat → SizeT A → Option (List (SizeT A))
  | 0, _ => none
  | n + 1, ref => do
      match ← dlistNext data ref with
      | none => some [ref]
      | some next => do
          let refs ← iterateFrom data n next
          some (ref :: refs)

/-- A loop from `dlist_first` with `dlist_next`. -/
def iterate (n : Nat) (a : Option (DynamicListHead A)) : Option (List (SizeT A)) :=
  match a with
  | none => some []
  | some a => iterateFrom a.data n (wordSize A)

/-- A call of `dlist_grow`, with the bytes that the caller writes to the new item. -/
structure Call (A : Abi) where
  len : SizeT A
  bytes : List UInt8
  fits : bytes.length ≤ len.toNat
  heap : Nat → UInt8

/-- The call, and what its caller writes at `dlist_last`. Callers give up on a null pointer. -/
def grow (a : Option (DynamicListHead A)) (c : Call A) :
    Option (Option (DynamicListHead A)) := do
  match ← dlistGrow a c.len c.heap with
  | none => none
  | some a => do
      let data ← store a.data (a.last + wordSize A).toNat c.bytes
      some (some { a with data })

/-- The calls one after the other, from `NULL` on. -/
def build (calls : List (Call A)) : Option (Option (DynamicListHead A)) :=
  calls.foldlM grow none

/-- A part of the data. -/
structure Region where
  start : Nat
  size : Nat

def Region.Before (x y : Region) : Prop :=
  x.start + x.size ≤ y.start

/-- The size word of an item and the item. -/
def Call.regions (c : Call A) (ref : SizeT A) : List Region :=
  [⟨ref.toNat - A.word, A.word⟩, ⟨ref.toNat, c.len.toNat⟩]

def regions (calls : List (Call A)) (refs : List (SizeT A)) : List Region :=
  (List.zipWith Call.regions calls refs).flatten

def dataOf (a : Option (DynamicListHead A)) : List UInt8 :=
  (a.map DynamicListHead.data).getD []

/-- The size that `dlist_grow` takes the block to have. -/
def allocated (a : Option (DynamicListHead A)) : SizeT A :=
  (a.map fun a => wholeChunks (a.last + a.lastsz)).getD 0

/-- The list holds what was written for each call, under the references `refs`. -/
structure Intact (calls : List (Call A)) (a : Option (DynamicListHead A))
    (refs : List (SizeT A)) : Prop where
  iterates : iterate (calls.length + 1) a = some refs
  contents : List.Forall₂ (fun c ref => load (dataOf a) ref.toNat c.bytes.length = some c.bytes)
    calls refs
  last : dlistLast a = refs.getLast?
  apart : (regions calls refs).Pairwise Region.Before
  inside : ∀ x ∈ regions calls refs, x.start % A.word = 0 ∧
    x.start + x.size ≤ (dataOf a).length
  block : (allocated a).toNat = (dataOf a).length

/-- The bytes an item takes with its size word. -/
def Call.span (c : Call A) : Nat :=
  (c.len.toNat + A.word + (A.word - 1)) / A.word * A.word

/-- No `size_t` that `dlist_grow` computes is cut. -/
def Fits (calls : List (Call A)) : Prop :=
  (calls.map Call.span).sum + (2 ^ 10 - 1) < 2 ^ A.bits

section Sizes

theorem toNat_wordSize (A : Abi) : (wordSize A).toNat = A.word := by
  cases A <;> rfl

theorem dvd_bits (A : Abi) : 2 ^ 10 ∣ 2 ^ A.bits :=
  Nat.pow_dvd_pow 2 (by cases A <;> decide)

theorem Call.span_mod (c : Call A) : c.span % A.word = 0 :=
  Nat.mul_mod_left _ _

theorem Call.le_span (c : Call A) : A.word + c.len.toNat ≤ c.span := by
  rw [span]
  cases A <;> simp only [Abi.word, Abi.log] <;> omega

theorem toNat_szincr (c : Call A) (h : c.span < 2 ^ A.bits) :
    (DLISTALIGN (c.len + wordSize A)).toNat = c.span := by
  have hsum : (c.len + wordSize A).toNat = c.len.toNat + A.word := by
    have hle := c.le_span
    rw [BitVec.toNat_add_of_lt (by rw [toNat_wordSize]; omega), toNat_wordSize]
  rw [DLISTALIGN, toNat_alignUp (by cases A <;> decide), hsum]
  · rfl
  · rw [hsum]
    -- sizes below the last multiple of the word do not overflow when they are rounded up
    rw [Call.span] at h
    cases A <;> simp only [Abi.word, Abi.log, Abi.bits] at h ⊢ <;> omega

theorem toNat_wholeChunks {sz : SizeT A} (h : sz.toNat + (2 ^ 10 - 1) < 2 ^ A.bits) :
    (wholeChunks sz).toNat = (sz.toNat + (2 ^ 10 - 1)) / 2 ^ 10 * 2 ^ 10 :=
  toNat_alignUp (by cases A <;> decide) h

theorem wholeChunks_le (sz : SizeT A) : (wholeChunks sz).toNat + 2 ^ 10 ≤ 2 ^ A.bits := by
  obtain ⟨m, hm⟩ := dvd_toNat_alignUp (by cases A <;> decide) sz (k := 10)
  obtain ⟨n, hn⟩ := dvd_bits A
  have hlt := (wholeChunks sz).isLt
  rw [wholeChunks] at *
  omega

/-- Whatever the block is taken to hold, it is a number of chunks that a `size_t` can count. -/
theorem allocated_chunks (a : Option (DynamicListHead A)) :
    (allocated a).toNat % 2 ^ 10 = 0 ∧ (allocated a).toNat + 2 ^ 10 ≤ 2 ^ A.bits := by
  cases a with
  | none => cases A <;> decide
  | some a =>
      exact ⟨Nat.mod_eq_zero_of_dvd (dvd_toNat_alignUp (by cases A <;> decide) _),
        wholeChunks_le _⟩

end Sizes

section Layout

/-- Items that others follow, with their size words. -/
def closed (A : Abi) (slots : List (List UInt8)) : List UInt8 :=
  slots.flatMap fun slot => wordBytes A.word (A.word + slot.length) ++ slot

/-- The slot has the size that was asked for and begins with the bytes that were written. -/
def Call.Holds (c : Call A) (slot : List UInt8) : Prop :=
  A.word + slot.length = c.span ∧ c.bytes <+: slot

/-- Where the items of a list lie. -/
structure Laid (calls : List (Call A)) (a : DynamicListHead A) (front : List (List UInt8))
    (slot tail : List UInt8) : Prop where
  holds : List.Forall₂ Call.Holds calls (front ++ [slot])
  data : a.data = closed A front ++ (wordBytes A.word 0 ++ slot) ++ tail
  last : a.last.toNat = (closed A front).length
  lastsz : a.lastsz.toNat = A.word + slot.length
  block : (wholeChunks (a.last + a.lastsz)).toNat = a.data.length

def Inv (calls : List (Call A)) : Option (DynamicListHead A) → Prop
  | none => calls = []
  | some a => ∃ front slot tail, Laid calls a front slot tail

variable {calls : List (Call A)} {slots front : List (List UInt8)} {slot tail : List UInt8}
  {a : DynamicListHead A} {c : Call A}

theorem closed_append (slots slots' : List (List UInt8)) :
    closed A (slots ++ slots') = closed A slots ++ closed A slots' :=
  List.flatMap_append

theorem closed_cons (slot : List UInt8) (slots : List (List UInt8)) :
    closed A (slot :: slots) = wordBytes A.word (A.word + slot.length) ++ slot ++ closed A slots :=
  List.flatMap_cons

theorem closed_singleton (slot : List UInt8) :
    closed A [slot] = wordBytes A.word (A.word + slot.length) ++ slot :=
  List.flatMap_singleton ..

theorem length_closed (h : List.Forall₂ Call.Holds calls slots) :
    (closed A slots).length = (calls.map Call.span).sum := by
  induction h with
  | nil => rfl
  | cons hc _ ih =>
      rw [closed_cons, List.length_append, List.length_append, length_wordBytes, ih, hc.1,
        List.map_cons, List.sum_cons]

theorem holds_mod (h : List.Forall₂ Call.Holds calls slots) :
    ∀ slot ∈ slots, (A.word + slot.length) % A.word = 0 := by
  induction h with
  | nil => exact List.forall_mem_nil _
  | @cons c slot _ _ hc _ ih => exact List.forall_mem_cons.mpr ⟨hc.1 ▸ c.span_mod, ih⟩

theorem closed_mod (h : ∀ slot ∈ slots, (A.word + slot.length) % A.word = 0) :
    (closed A slots).length % A.word = 0 := by
  induction slots with
  | nil => exact Nat.zero_mod _
  | cons slot slots ih =>
      rw [List.forall_mem_cons] at h
      rw [closed_cons, List.length_append, List.length_append, length_wordBytes, Nat.add_mod, h.1,
        ih h.2, Nat.zero_mod]

theorem Fits.prefix {calls calls' : List (Call A)} (h : Fits (calls ++ calls')) : Fits calls := by
  rw [Fits, List.map_append, List.sum_append] at h
  rw [Fits]
  omega

/-- What `dlist_grow` finds out about the list that it is given. -/
theorem closeLast_spec {a : Option (DynamicListHead A)} (h : Inv calls a) (hfits : Fits calls) :
    ∃ sz allocsz data slots tail, closeLast a = some (sz, allocsz, data) ∧
      List.Forall₂ Call.Holds calls slots ∧ data.getD [] = closed A slots ++ tail ∧
      sz.toNat = (closed A slots).length ∧ allocsz = wholeChunks sz ∧
      allocsz.toNat = (data.getD []).length ∧ (data = none → allocsz = 0) := by
  cases a with
  | none =>
      obtain rfl : calls = [] := h
      exact ⟨0, 0, none, [], [], rfl, .nil, rfl, rfl, by cases A <;> decide, rfl, fun _ => rfl⟩
  | some a =>
      obtain ⟨front, slot, tail, hlaid⟩ := h
      have hclosed : closed A (front ++ [slot]) =
          closed A front ++ (wordBytes A.word (A.word + slot.length) ++ slot) := by
        rw [closed_append, closed_singleton]
      have hlen : (closed A (front ++ [slot])).length =
          (closed A front).length + (A.word + slot.length) := by
        rw [hclosed, List.length_append, List.length_append, length_wordBytes]
      have hstore : storeSize a.data a.last a.lastsz =
        some (closed A (front ++ [slot]) ++ tail) := by
        have hfront : (closed A front).length % A.word = 0 :=
          closed_mod fun x hx => holds_mod hlaid.holds x (List.mem_append_left _ hx)
        rw [storeSize, hlaid.last, if_pos hfront, hlaid.data, hlaid.lastsz, List.append_assoc,
          List.append_assoc, ← List.append_assoc, store_append (by simp), hclosed]
        simp
      refine ⟨a.last + a.lastsz, _, some (closed A (front ++ [slot]) ++ tail),
        front ++ [slot], tail,
        ?_, hlaid.holds, rfl, ?_, rfl, ?_, nofun⟩
      · rw [closeLast, hstore]
        rfl
      · rw [BitVec.toNat_add_of_lt, hlaid.last, hlaid.lastsz, hlen]
        rw [hlaid.last, hlaid.lastsz, ← hlen, length_closed hlaid.holds]
        rw [Fits] at hfits
        omega
      · rw [hlaid.block, hlaid.data, Option.getD_some, hclosed]
        simp

theorem length_realloc {data out : List UInt8} {size : SizeT A} {heap : Nat → UInt8}
    (h : realloc data size heap = some out) : out.length + 2 * A.word = size.toNat := by
  rw [realloc] at h
  split_ifs at h with hsize
  cases h
  rw [List.length_map, List.length_range]
  omega

theorem realloc_append (kept back : List UInt8) (size : SizeT A) (heap : Nat → UInt8)
    (h : kept.length + 2 * A.word ≤ size.toNat) :
    ∃ tail, realloc (kept ++ back) size heap = some (kept ++ tail) := by
  have hsize : 2 * A.word ≤ size.toNat := by omega
  have hsplit : size.toNat - 2 * A.word =
      kept.length + (size.toNat - 2 * A.word - kept.length) := by
    omega
  refine ⟨(List.range (size.toNat - 2 * A.word - kept.length)).map fun i =>
    (kept ++ back).getD (kept.length + i) (heap (kept.length + i)), ?_⟩
  rw [realloc, if_pos hsize, hsplit, List.range_add, List.map_append, List.map_map]
  congr 2
  · refine List.ext_getElem (by simp) fun i hi hi' => ?_
    rw [List.getElem_map, List.getElem_range, List.getD_eq_getElem?_getD,
      List.getElem?_append_left hi', List.getElem?_eq_getElem hi', Option.getD_some]
  · simp

/-- The block is large enough for `n` more bytes, and what it holds is kept. -/
theorem reserve_spec {sz : SizeT A} (szincr : SizeT A) {data : Option (List UInt8)}
    {kept tail : List UInt8} (heap : Nat → UInt8) (hdata : data.getD [] = kept ++ tail)
    (hsz : sz.toNat = kept.length)
    (hblock : (wholeChunks sz).toNat = (data.getD []).length)
    (hnull : data = none → wholeChunks sz = 0) (hpos : 0 < szincr.toNat)
    (hfits : kept.length + szincr.toNat + (2 ^ 10 - 1) < 2 ^ A.bits) :
    ∃ tail', reserve (wholeChunks sz) (sz + szincr) data heap = some (some (kept ++ tail')) ∧
      (kept ++ tail').length = (wholeChunks (sz + szincr)).toNat := by
  have hnewsz : (sz + szincr).toNat = kept.length + szincr.toNat := by
    rw [BitVec.toNat_add_of_lt (by omega), hsz]
  have hnew : (wholeChunks (sz + szincr)).toNat = _ := toNat_wholeChunks (by rwa [hnewsz])
  rw [hnewsz] at hnew
  by_cases hgrow : wholeChunks sz < sz + szincr
  · have htwo : (2 * wordSize A).toNat = 2 * A.word := by cases A <;> rfl
    have hle := wholeChunks_le (sz + szincr)
    have hsize : (2 * wordSize A + wholeChunks (sz + szincr)).toNat =
        2 * A.word + (wholeChunks (sz + szincr)).toNat := by
      rw [BitVec.toNat_add_of_lt, htwo]
      rw [htwo]
      cases A <;> simp only [Abi.word, Abi.log] at * <;> omega
    obtain ⟨tail', hrealloc⟩ := realloc_append kept tail
      (2 * wordSize A + wholeChunks (sz + szincr)) heap (by rw [hsize]; omega)
    refine ⟨tail', by rw [reserve, if_pos hgrow, hdata, hrealloc]; rfl, ?_⟩
    have hlen := length_realloc hrealloc
    omega
  · rw [BitVec.lt_def, hnewsz] at hgrow
    cases data with
    | none =>
        rw [hnull rfl] at hgrow
        exact absurd (Nat.lt_of_lt_of_le hpos (Nat.le_add_left _ _)) hgrow
    | some d =>
        have hold : (wholeChunks sz).toNat = _ := toNat_wholeChunks (by omega)
        rw [hsz] at hold
        rw [Option.getD_some] at hdata hblock
        refine ⟨tail, by rw [reserve, if_neg (by rwa [BitVec.lt_def, hnewsz]), hdata], ?_⟩
        -- what is used ends in the same chunk as before
        rw [← hdata, ← hblock, hnew, hold]
        omega

theorem dlistGrow_spec {a : Option (DynamicListHead A)} (h : Inv calls a)
    (hfits : Fits (calls ++ [c])) :
    ∃ b slots slot tail, dlistGrow a c.len c.heap = some (some b) ∧
      List.Forall₂ Call.Holds calls slots ∧ A.word + slot.length = c.span ∧
      b.data = closed A slots ++ (wordBytes A.word 0 ++ slot) ++ tail ∧
      b.last.toNat = (closed A slots).length ∧ b.lastsz.toNat = c.span ∧
      (wholeChunks (b.last + b.lastsz)).toNat = b.data.length := by
  obtain ⟨sz, allocsz, data, slots, tail, hclose, hholds, hdata, hsz, rfl, hblock, hnull⟩ :=
    closeLast_spec h hfits.prefix
  have hspan := c.le_span
  have hword : 0 < A.word := Nat.two_pow_pos _
  have htotal : (closed A slots).length + c.span + (2 ^ 10 - 1) < 2 ^ A.bits := by
    rw [Fits, List.map_append, List.sum_append, List.map_singleton, List.sum_singleton,
      ← length_closed hholds] at hfits
    exact hfits
  have hincr : (DLISTALIGN (c.len + wordSize A)).toNat = c.span := toNat_szincr c (by omega)
  obtain ⟨rest, hreserve, hlen⟩ := reserve_spec (DLISTALIGN (c.len + wordSize A)) c.heap
    hdata hsz hblock hnull (by omega) (by omega)
  have hnewsz : (sz + DLISTALIGN (c.len + wordSize A)).toNat =
      (closed A slots).length + c.span := by
    rw [BitVec.toNat_add_of_lt (by omega), hsz, hincr]
  have hroom : c.span ≤ rest.length := by
    rw [toNat_wholeChunks (by omega), hnewsz, List.length_append] at hlen
    omega
  -- the new item lies at the start of what is not used
  obtain ⟨old, slot, back, rfl, hold, hslot⟩ : ∃ old slot back, rest = old ++ slot ++ back ∧
      A.word = old.length ∧ A.word + slot.length = c.span := by
    refine ⟨rest.take A.word, (rest.drop A.word).take (c.span - A.word),
      rest.drop c.span, ?_, ?_, ?_⟩
    · have hdrop : rest.drop c.span = (rest.drop A.word).drop (c.span - A.word) := by
        rw [List.drop_drop, Nat.add_sub_cancel' (by omega)]
      rw [hdrop, List.append_assoc, List.take_append_drop, List.take_append_drop]
    · rw [List.length_take]
      omega
    · rw [List.length_take, List.length_drop]
      omega
  have hstore : storeSize (closed A slots ++ (old ++ slot ++ back)) sz 0 =
      some (closed A slots ++ (wordBytes A.word 0 ++ slot) ++ back) := by
    have hwindow := @store_append _ old (wordBytes A.word 0) (by rw [length_wordBytes, hold])
      (closed A slots) (slot ++ back)
    rw [storeSize, hsz, if_pos (closed_mod (holds_mod hholds))]
    simpa using hwindow
  refine ⟨⟨sz, DLISTALIGN (c.len + wordSize A), _⟩, slots, slot, back, ?_, hholds, hslot, rfl, hsz,
    hincr, ?_⟩
  · simp only [dlistGrow, hclose, Option.bind_eq_bind, Option.bind_some, hreserve, hstore]
  · rw [← hlen]
    simp only [List.length_append, length_wordBytes]
    omega

theorem grow_spec {a : Option (DynamicListHead A)} (h : Inv calls a)
    (hfits : Fits (calls ++ [c])) :
    ∃ b, grow a c = some (some b) ∧ Inv (calls ++ [c]) (some b) := by
  obtain ⟨b, slots, slot, tail, hgrow, hholds, hslot, hdata, hlast, hlastsz, hblock⟩ :=
    dlistGrow_spec h hfits
  have hspan := c.le_span
  have hbytes := c.fits
  have htotal : (closed A slots).length + c.span + (2 ^ 10 - 1) < 2 ^ A.bits := by
    rw [Fits, List.map_append, List.sum_append, List.map_singleton, List.sum_singleton,
      ← length_closed hholds] at hfits
    exact hfits
  have hoff : (b.last + wordSize A).toNat = (closed A slots ++ wordBytes A.word 0).length := by
    rw [BitVec.toNat_add_of_lt, hlast, toNat_wordSize, List.length_append, length_wordBytes]
    rw [hlast, toNat_wordSize]
    omega
  -- the caller's bytes come to the start of the item
  have hstore := @store_append _ (slot.take c.bytes.length) c.bytes
    (by rw [List.length_take]; omega) (closed A slots ++ wordBytes A.word 0)
    (slot.drop c.bytes.length ++ tail)
  have hlen : (c.bytes ++ slot.drop c.bytes.length).length = slot.length := by
    rw [List.length_append, List.length_drop]
    omega
  refine ⟨{ b with data := closed A slots ++ (wordBytes A.word 0 ++
    (c.bytes ++ slot.drop c.bytes.length)) ++ tail }, ?_, slots,
    c.bytes ++ slot.drop c.bytes.length,
    tail, ?_, rfl, hlast, ?_, ?_⟩
  · have hsplit : b.data = closed A slots ++ wordBytes A.word 0 ++ slot.take c.bytes.length ++
        (slot.drop c.bytes.length ++ tail) := by
      rw [hdata]
      simp only [List.append_assoc]
      rw [← List.append_assoc (slot.take _), List.take_append_drop]
    simp only [grow, hgrow, Option.bind_eq_bind, Option.bind_some, hoff, hsplit, hstore]
    simp only [List.append_assoc]
  · exact List.rel_append hholds (.cons ⟨by rw [hlen, hslot], List.prefix_append _ _⟩ .nil)
  · rw [hlen, hslot, hlastsz]
  · rw [hblock, hdata]
    simp only [List.length_append, List.length_drop]
    omega

theorem build_spec (hfits : Fits calls) : ∃ a, build calls = some a ∧ Inv calls a := by
  induction calls using List.reverseRecOn with
  | nil => exact ⟨none, rfl, rfl⟩
  | append_singleton calls c ih =>
      obtain ⟨a, ha, hinv⟩ := ih hfits.prefix
      obtain ⟨b, hb, hinv'⟩ := grow_spec hinv hfits
      refine ⟨some b, ?_, hinv'⟩
      rw [build, List.foldlM_append, Option.bind_eq_bind]
      change (build calls).bind _ = _
      rw [ha, Option.bind_some, List.foldlM_cons, hb]
      rfl

end Layout

section References

/-- The references to items that lie behind each other. -/
def refsFrom (A : Abi) (off : Nat) : List (List UInt8) → List (SizeT A)
  | [] => []
  | slot :: slots =>
      BitVec.ofNat _ (off + A.word) :: refsFrom A (off + (A.word + slot.length)) slots

variable {calls : List (Call A)} {slots front : List (List UInt8)} {slot tail : List UInt8}

theorem word_cases (A : Abi) : A.word = 4 ∨ A.word = 8 := by
  cases A <;> decide

theorem pow_word (A : Abi) : 256 ^ A.word = 2 ^ A.bits := by
  cases A <;> rfl

theorem dlistNext_word {pre : List UInt8} (hpre : pre.length % A.word = 0) {v : Nat}
    (hv : v < 2 ^ A.bits) (hlen : pre.length < 2 ^ A.bits) (rest : List UInt8) :
    dlistNext (pre ++ wordBytes A.word v ++ rest) (BitVec.ofNat A.bits (pre.length + A.word)) =
      some (if v ≠ 0 then some (BitVec.ofNat A.bits (pre.length + A.word + v)) else none) := by
  have hoff : BitVec.ofNat A.bits (pre.length + A.word) - wordSize A =
    BitVec.ofNat _ pre.length := by
    rw [BitVec.ofNat_add, wordSize, BitVec.add_sub_cancel]
  have hload := load_append pre (wordBytes A.word v) rest
  rw [length_wordBytes] at hload
  have hzero : BitVec.ofNat A.bits v = 0 ↔ v = 0 := by
    rw [← BitVec.toNat_inj, BitVec.toNat_ofNat, Nat.mod_eq_of_lt hv]
    exact Iff.rfl
  rw [dlistNext, hoff, loadSize, BitVec.toNat_ofNat, Nat.mod_eq_of_lt hlen, if_pos hpre, hload,
    Option.map_some, wordValue_wordBytes (by rwa [pow_word]), Option.bind_eq_bind,
    Option.bind_some]
  simp only [ne_eq, hzero, BitVec.ofNat_add]

theorem iterateFrom_spec (pre : List UInt8) (front : List (List UInt8)) (slot tail : List UInt8)
    (hpre : pre.length % A.word = 0)
    (hmod : ∀ s ∈ front ++ [slot], (A.word + s.length) % A.word = 0)
    (hlen : (pre ++ closed A (front ++ [slot])).length < 2 ^ A.bits) {n : Nat}
    (hn : front.length < n) :
    iterateFrom (pre ++ closed A front ++ (wordBytes A.word 0 ++ slot) ++ tail) n
      (BitVec.ofNat A.bits (pre.length + A.word)) =
        some (refsFrom A pre.length (front ++ [slot])) := by
  induction front generalizing pre n with
  | nil =>
      obtain ⟨n, rfl⟩ := Nat.exists_eq_succ_of_ne_zero (Nat.ne_zero_of_lt hn)
      have hnext := dlistNext_word (v := 0) hpre (Nat.two_pow_pos _)
        (by rw [List.length_append] at hlen; omega) (slot ++ tail)
      rw [if_neg (not_not_intro rfl)] at hnext
      have hdata : pre ++ closed A [] ++ (wordBytes A.word 0 ++ slot) ++ tail =
          pre ++ wordBytes A.word 0 ++ (slot ++ tail) := by
        simp [closed]
      rw [hdata, iterateFrom, hnext]
      rfl
  | cons s front ih =>
      obtain ⟨n, rfl⟩ := Nat.exists_eq_succ_of_ne_zero (Nat.ne_zero_of_lt hn)
      have hword : 0 < A.word := Nat.two_pow_pos _
      rw [List.cons_append, List.forall_mem_cons] at hmod
      rw [List.cons_append, closed_cons, ← List.append_assoc] at hlen
      have hshort : pre.length + (A.word + s.length) < 2 ^ A.bits := by
        simp only [List.length_append, length_wordBytes] at hlen
        omega
      have hnext := dlistNext_word (v := A.word + s.length) hpre (by omega) (by omega)
        (s ++ closed A front ++ (wordBytes A.word 0 ++ slot) ++ tail)
      rw [if_pos (by omega)] at hnext
      have hdata : pre ++ closed A (s :: front) ++ (wordBytes A.word 0 ++ slot) ++ tail =
          pre ++ wordBytes A.word (A.word + s.length) ++
            (s ++ closed A front ++ (wordBytes A.word 0 ++ slot) ++ tail) := by
        simp [closed_cons]
      have hpre' : (pre ++ (wordBytes A.word (A.word + s.length) ++ s)).length =
          pre.length + (A.word + s.length) := by
        rw [List.length_append, List.length_append, length_wordBytes]
      have hrest := ih (pre ++ (wordBytes A.word (A.word + s.length) ++ s))
        (by rw [hpre', Nat.add_mod, hpre, hmod.1, Nat.zero_add, Nat.zero_mod]) hmod.2 hlen
        (Nat.lt_of_succ_lt_succ hn)
      have hdata' : pre ++ (wordBytes A.word (A.word + s.length) ++ s) ++ closed A front ++
          (wordBytes A.word 0 ++ slot) ++ tail = pre ++ wordBytes A.word (A.word + s.length) ++
            (s ++ closed A front ++ (wordBytes A.word 0 ++ slot) ++ tail) := by
        simp
      rw [hdata', hpre', Nat.add_right_comm] at hrest
      rw [hdata, iterateFrom, hnext]
      simp only [Option.bind_eq_bind, Option.bind_some, hrest]
      rfl

theorem refsFrom_append (off : Nat) (slots slots' : List (List UInt8)) :
    refsFrom A off (slots ++ slots') =
      refsFrom A off slots ++ refsFrom A (off + (closed A slots).length) slots' := by
  induction slots generalizing off with
  | nil => rfl
  | cons s slots ih =>
      simp only [List.cons_append, refsFrom, ih, closed_cons, List.length_append, length_wordBytes]
      rw [Nat.add_assoc off]

theorem load_item {c : Call A} {s : List UInt8} (hc : c.Holds s) (pre : List UInt8) {w : List UInt8}
    (hw : w.length = A.word) (hlen : pre.length + A.word < 2 ^ A.bits) (rest : List UInt8) :
    load (pre ++ w ++ s ++ rest) (BitVec.ofNat A.bits (pre.length + A.word)).toNat c.bytes.length =
      some c.bytes := by
  obtain ⟨t, rfl⟩ := hc.2
  have hload := load_append (pre ++ w) c.bytes (t ++ rest)
  rw [List.length_append, hw] at hload
  rw [BitVec.toNat_ofNat, Nat.mod_eq_of_lt hlen, ← List.append_assoc, List.append_assoc _ t]
  exact hload

/-- Under its reference each item has what was written for it. -/
theorem contents_refsFrom (pre : List UInt8) {slot : List UInt8} (tail : List UInt8)
    (h : List.Forall₂ Call.Holds calls (front ++ [slot]))
    (hlen : (pre ++ closed A (front ++ [slot])).length < 2 ^ A.bits) :
    List.Forall₂ (fun c ref => load (pre ++ closed A front ++ (wordBytes A.word 0 ++ slot) ++ tail)
      ref.toNat c.bytes.length = some c.bytes) calls (refsFrom A pre.length (front ++ [slot])) := by
  induction front generalizing pre calls with
  | nil =>
      obtain _ | ⟨hc, hrest⟩ := h
      cases hrest
      refine .cons ?_ .nil
      have hload := load_item hc pre (length_wordBytes A.word 0)
        (by simp [closed] at hlen; omega) tail
      simpa [closed] using hload
  | cons s front ih =>
      obtain _ | ⟨hc, hrest⟩ := h
      rw [List.cons_append, closed_cons, ← List.append_assoc] at hlen
      have hload := load_item hc pre (length_wordBytes A.word (A.word + s.length))
        (by simp at hlen; omega) (closed A front ++ (wordBytes A.word 0 ++ slot) ++ tail)
      refine .cons (by simpa [closed_cons] using hload) ?_
      simpa [closed_cons, Nat.add_assoc] using ih _ hrest hlen

theorem regions_cons (c : Call A) (calls : List (Call A)) (r : SizeT A) (refs : List (SizeT A)) :
    regions (c :: calls) (r :: refs) = c.regions r ++ regions calls refs :=
  rfl

/-- The items and their size words lie behind each other. -/
theorem regions_refsFrom {off : Nat} (h : List.Forall₂ Call.Holds calls slots)
    (hoff : off % A.word = 0) (hlen : off + (closed A slots).length < 2 ^ A.bits) :
    (regions calls (refsFrom A off slots)).Pairwise Region.Before ∧
      ∀ x ∈ regions calls (refsFrom A off slots), off ≤ x.start ∧ x.start % A.word = 0 ∧
        x.start + x.size ≤ off + (closed A slots).length := by
  induction h generalizing off with
  | nil => exact ⟨.nil, List.forall_mem_nil _⟩
  | @cons c s calls slots hc hrest ih =>
      have hspan := c.le_span
      have hslot := hc.1
      have hmod : (off + (A.word + s.length)) % A.word = 0 := by
        rw [hc.1, Nat.add_mod, hoff, c.span_mod, Nat.zero_add, Nat.zero_mod]
      have hclosed : (closed A (s :: slots)).length = A.word + s.length +
        (closed A slots).length := by
        rw [closed_cons, List.length_append, List.length_append, length_wordBytes]
      rw [hclosed] at hlen ⊢
      obtain ⟨hpair, hin⟩ := ih hmod (by omega)
      have href : (BitVec.ofNat A.bits (off + A.word)).toNat = off + A.word := by
        rw [BitVec.toNat_ofNat, Nat.mod_eq_of_lt (by omega)]
      have hregions : c.regions (BitVec.ofNat A.bits (off + A.word)) =
          [⟨off, A.word⟩, ⟨off + A.word, c.len.toNat⟩] := by
        rw [Call.regions, href, Nat.add_sub_cancel]
      rw [refsFrom, regions_cons, hregions]
      refine ⟨List.pairwise_append.mpr ⟨?_, hpair, fun x hx y hy => ?_⟩, fun x hx => ?_⟩
      · exact .cons (by simp [Region.Before]) (List.pairwise_singleton ..)
      · have hy := (hin y hy).1
        simp only [List.mem_cons, List.not_mem_nil, or_false] at hx
        rw [Region.Before]
        rcases hx with rfl | rfl
        · change off + A.word ≤ y.start
          omega
        · change off + A.word + c.len.toNat ≤ y.start
          omega
      · rcases List.mem_append.mp hx with hx | hx
        · simp only [List.mem_cons, List.not_mem_nil, or_false] at hx
          rcases hx with rfl | rfl
          · change off ≤ off ∧ off % A.word = 0 ∧ off + A.word ≤ _
            omega
          · change off ≤ off + A.word ∧ (off + A.word) % A.word = 0 ∧
              off + A.word + c.len.toNat ≤ _
            rw [Nat.add_mod_right]
            omega
        · obtain ⟨hlow, haligned, hhigh⟩ := hin x hx
          exact ⟨by omega, haligned, by omega⟩

theorem intact_of_inv {a : Option (DynamicListHead A)} (h : Inv calls a) (hfits : Fits calls) :
    ∃ refs, Intact calls a refs := by
  cases a with
  | none =>
      obtain rfl : calls = [] := h
      exact ⟨[], rfl, .nil, rfl, .nil, List.forall_mem_nil _, rfl⟩
  | some a =>
      obtain ⟨front, slot, tail, hlaid⟩ := h
      have hlen : (closed A (front ++ [slot])).length < 2 ^ A.bits := by
        rw [length_closed hlaid.holds]
        rw [Fits] at hfits
        omega
      have hcount : front.length < calls.length + 1 := by
        rw [hlaid.holds.length_eq, List.length_append]
        omega
      have hword : (BitVec.ofNat A.bits (0 + A.word)) = wordSize A := by rw [Nat.zero_add, wordSize]
      have hiterate := iterateFrom_spec [] front slot tail (Nat.zero_mod _) (holds_mod hlaid.holds)
        hlen hcount
      rw [List.length_nil, hword] at hiterate
      obtain ⟨hpair, hin⟩ := regions_refsFrom hlaid.holds (Nat.zero_mod _)
        (by rwa [Nat.zero_add])
      have hclosed : (closed A (front ++ [slot])).length ≤ a.data.length := by
        rw [hlaid.data, closed_append, closed_singleton]
        simp only [List.length_append, length_wordBytes]
        omega
      refine ⟨refsFrom A 0 (front ++ [slot]), ?_, ?_, ?_, hpair, fun x hx => ?_, hlaid.block⟩
      · rw [iterate, hlaid.data]
        exact hiterate
      · have hcontents := contents_refsFrom [] tail hlaid.holds hlen
        rw [dataOf, Option.map_some, Option.getD_some, hlaid.data]
        exact hcontents
      · have hlast : a.last = BitVec.ofNat A.bits (closed A front).length := by
          rw [← hlaid.last, BitVec.ofNat_toNat, BitVec.setWidth_eq]
        rw [refsFrom_append, dlistLast, Option.map_some, hlast, Nat.zero_add]
        simp [refsFrom, wordSize, BitVec.ofNat_add]
      · obtain ⟨-, haligned, hhigh⟩ := hin x hx
        rw [Nat.zero_add] at hhigh
        exact ⟨haligned, Nat.le_trans hhigh hclosed⟩

/-- The first multiple of the word behind an item. -/
theorem nextWord {W low r n : Nat} (hW : W = 4 ∨ W = 8) (hlow : low % W = 0) (hr : r % W = 0)
    (hle : low + W ≤ r) :
    ∃ next, next % W = 0 ∧ low + (n + W + (W - 1)) / W * W ≤ next ∧
      ∀ m, m % W = 0 → r + n ≤ m → next ≤ m := by
  refine ⟨(r + n + (W - 1)) / W * W, Nat.mul_mod_left _ _, ?_, fun m hm hlem => ?_⟩
  · rcases hW with rfl | rfl <;> omega
  · rcases hW with rfl | rfl <;> omega

/-- Items that lie behind each other need their spans. -/
theorem spans_le {refs : List (SizeT A)} {low high : Nat}
    (hlen : calls.length = refs.length) (hlow : low % A.word = 0) (hhigh : high % A.word = 0)
    (hle : low ≤ high) (hpair : (regions calls refs).Pairwise Region.Before)
    (hin : ∀ x ∈ regions calls refs, low ≤ x.start ∧ x.start % A.word = 0 ∧
      x.start + x.size ≤ high) :
    low + (calls.map Call.span).sum ≤ high := by
  induction calls generalizing refs low with
  | nil => simpa using hle
  | cons c calls ih =>
      cases refs with
      | nil => cases hlen
      | cons r refs =>
          rw [regions_cons, List.pairwise_append] at hpair
          rw [regions_cons, List.forall_mem_append] at hin
          obtain ⟨hitem, hpair, hcross⟩ := hpair
          obtain ⟨hfirst, hin⟩ := hin
          simp only [Call.regions, Region.Before, List.forall_mem_cons] at hfirst hcross
          have hbefore : r.toNat - A.word + A.word ≤ r.toNat :=
            (List.pairwise_cons.mp hitem).1 _ (List.mem_singleton_self _)
          obtain ⟨⟨hstart, -, -⟩, ⟨-, haligned, hend⟩, -⟩ := hfirst
          obtain ⟨-, hafter, -⟩ := hcross
          obtain ⟨next, hmod, hspan, hleast⟩ := nextWord (word_cases A) (n := c.len.toNat) hlow
            haligned (show low + A.word ≤ r.toNat by omega)
          change low + c.span ≤ next at hspan
          have hrest := ih (Nat.succ.inj hlen) hmod (hleast high hhigh hend) hpair fun x hx =>
            ⟨hleast _ (hin x hx).2.1 (hafter x hx), (hin x hx).2⟩
          rw [List.map_cons, List.sum_cons]
          omega

end References

/-- The list keeps what was written for each call exactly if no size is cut. -/
theorem dlist_intact_iff (calls : List (Call A)) :
    (∃ a refs, build calls = some a ∧ Intact calls a refs) ↔ Fits calls := by
  constructor
  · rintro ⟨a, refs, -, h⟩
    obtain ⟨hchunks, hmax⟩ := allocated_chunks a
    rw [h.block] at hchunks hmax
    have hspans := spans_le h.contents.length_eq (Nat.zero_mod _)
      (by rcases word_cases A with hword | hword <;> rw [hword] <;> omega) (Nat.zero_le _) h.apart
      fun x hx => ⟨Nat.zero_le _, h.inside x hx⟩
    rw [Fits]
    omega
  · intro hfits
    obtain ⟨a, ha, hinv⟩ := build_spec hfits
    obtain ⟨refs, hrefs⟩ := intact_of_inv hinv hfits
    exact ⟨a, refs, ha, hrefs⟩

/-- An item of the largest size there is. -/
def wrappedCall : Call .lp64 :=
  ⟨BitVec.ofNat _ (2 ^ 64 - 1), [], Nat.zero_le _, fun _ => 0⟩

/-- Its size is cut to that of its size word, and no block can hold it. -/
theorem dlist_not_intact_wrapped :
    ¬∃ a refs, build [wrappedCall] = some a ∧ Intact [wrappedCall] a refs := by
  rintro ⟨a, refs, -, h⟩
  obtain _ | ⟨-, hrest⟩ := h.contents
  cases hrest
  rename_i r
  have hitem := (h.inside ⟨r.toNat, wrappedCall.len.toNat⟩ (by simp [regions, Call.regions])).2
  rw [← h.block] at hitem
  obtain ⟨-, hmax⟩ := allocated_chunks a
  change r.toNat + (2 ^ 64 - 1) ≤ _ at hitem
  change _ ≤ 2 ^ 64 at hmax
  omega

end TorAndroid.Dns.Dlist
