import TorAndroid.Dns.BoundedCache
import TorAndroid.Dns.DiskRoundTrip
import TorAndroid.Dns.NameText

namespace TorAndroid.Dns

open TorAndroid.Lib.LinkedCells TorAndroid.Lib.DoublyLinked TorAndroid.Lib.ByteBuffer

section Names

def ascii (cs : List Char) : List UInt8 :=
  cs.map fun c => UInt8.ofNat c.toNat

/-- A label and the dot behind it. -/
def dotted (label : List UInt8) : List UInt8 :=
  label ++ [46]

/-- `"%u"` and `"%x"` -/
def digitText (base : Nat) (b : UInt8) : List UInt8 :=
  ascii (Nat.toDigits base b.toNat)

/-- The loop of `a2ptrstr` over the bytes of an address, the last one first. -/
def nibbleText : List UInt8 → List UInt8 → Option (List UInt8)
  | [], buf => some buf
  | bt :: bytes, buf =>
      let buf := buf ++
        (dotted (digitText 16 (bt &&& 0xf)) ++ dotted (digitText 16 (bt >>> 4 &&& 0xf)))
      if dnsNameBufSize ≤ buf.length then none else nibbleText bytes buf

/-- `a2ptrstr`: nothing where it fails, else the text. It has no result on data that is too
short for an address. -/
def a2ptrstr (data : List UInt8) (tp : Nat) : Option (Option (List UInt8)) :=
  if tp = 1 then
    match data with
    | p0 :: p1 :: p2 :: p3 :: _ =>
        let buf := dotted (digitText 10 p3) ++ dotted (digitText 10 p2) ++
          dotted (digitText 10 p1) ++ dotted (digitText 10 p0) ++
          dotted (ascii ['i', 'n', '-', 'a', 'd', 'd', 'r']) ++ dotted (ascii ['a', 'r', 'p', 'a'])
        some (if dnsNameBufSize ≤ buf.length then none else some buf)
    | _ => none
  else if tp = 28 then
    if data.length < 16 then none
    else
      match nibbleText (data.take 16).reverse [] with
      | none => some none
      | some buf =>
          let buf := buf ++ (dotted (ascii ['i', 'p', '6']) ++ dotted (ascii ['a', 'r', 'p', 'a']))
          some (if dnsNameBufSize ≤ buf.length then none else some buf)
  else some none

/-- The name of the `PTR` record for an address, or nothing where `add_reverse_cache` returns. -/
def ptrName (data : List UInt8) (tp : Nat) : Option (Option Name) := do
  match ← a2ptrstr data tp with
  | none => some none
  | some buf =>
      let (ok, rhn) ← str2rhn (buf ++ [0]) (List.replicate dnsNameBufSize 0)
      if ok then (Name.ofRhn rhn).map some else some none

end Names

section Code

variable (cfg : CacheConfig) (clock : Nat → Int)

def slotPTR : Slot := ⟨4, by decide⟩

/-- Store a pointer to a record set in the array of an entry. -/
def Cent.setRrset (c : Cent) (i : Slot) (v : Option RrSet) : Cent :=
  match c.arm, v with
  | .neg .., _ => c
  | .rr a, none => { c with arm := .rr (a.clear i) }
  | .rr a, some r => { c with arm := .rr (a.put i r) }

/-- `free_cent` for an entry with record sets of another one at some indices, and what is left
of that one. -/
def freeSharing (l : Rrl) (ce cent : Cent) (shared : List Slot) : Option (Rrl × Cent) := do
  let l ← freeCent cfg.sizes l ce
  some (l, (shared.filter fun i => (ce.rrset i).isSome).foldl (fun c i => c.setRrset i none) cent)

/-- The entry for a `PTR` record, up to the record sets that it gets from `cent`. -/
def ptrCent (l : Rrl) (cent : Cent) (rrset : RrSet) (rhn : Name) : Option (Rrl × Cent) := do
  let ce := initCent cfg.sizes rhn false 0 0 cent.flags
  let (l, ce) ← addCentRr cfg.sizes l ce slotPTR rrset.ttl rrset.ts rrset.flags cent.qname.wire
  some (l, (ce.setRrset slotNS (cent.rrset slotNS)).setRrset slotSOA (cent.rrset slotSOA))

/-- One turn of the loop of `add_reverse_cache`: the cache, and the entry it was called with. -/
def addPtr (now : Int) (s : Cache) (cent : Cent) (rrset : RrSet) (rhn : Name) :
    Option (Cache × Cent) := do
  let (l, ce) ← ptrCent cfg s.rrl cent rrset rhn
  let s ← addCache cfg now { s with rrl := l } ce
  let ce := (ce.setRrset slotNS none).setRrset slotSOA none
  let (l, cent) ← freeSharing cfg s.rrl ce cent [slotNS, slotSOA]
  some ({ s with rrl := l }, cent)

/-- The loop over the records of a set. The number counts the calls of `add_cache`, each of
which reads the clock. -/
def addPtrs (rrset : RrSet) (tp : Nat) :
    List (List UInt8) → Nat → Cache → Cent → Option (Bool × Nat × Cache × Cent)
  | [], n, s, cent => some (true, n, s, cent)
  | data :: rrs, n, s, cent => do
      match ← ptrName data tp with
      | none => some (false, n, s, cent)
      | some rhn =>
          let (s, cent) ← addPtr cfg (clock n) s cent rrset rhn
          addPtrs rrset tp rrs (n + 1) s cent

def addPtrSet (o : Option RrSet) (tp n : Nat) (s : Cache) (cent : Cent) :
    Option (Bool × Nat × Cache × Cent) :=
  match o with
  | none => some (true, n, s, cent)
  | some rrset => addPtrs cfg clock rrset tp rrset.rrs n s cent

/-- `add_reverse_cache`, where `ALLOW_LOCAL_AAAA` may be set: what it returns, the cache, and the
entry it was called with. -/
def addReverseCache (allowLocalAaaa : Bool) (s : Cache) (cent : Cent) :
    Option (Bool × Cache × Cent) := do
  let (ok, n, s, cent) ← addPtrSet cfg clock (cent.getrrset 1) 1 0 s cent
  if ok && allowLocalAaaa then
    let (ok, _, s, cent) ← addPtrSet cfg clock (cent.getrrset 28) 28 n s cent
    some (ok, s, cent)
  else some (ok, s, cent)

end Code

section NameSpec

/-- A label that a text can hold as it is. -/
def IsLabel (l : List UInt8) : Prop :=
  (0 < l.length ∧ l.length ≤ 7) ∧ 0 ∉ l ∧ 46 ∉ l

theorem isLabel_digitText {base : Nat} (hbase : base = 10 ∨ base = 16) (b : UInt8) :
    IsLabel (digitText base b) ∧ (digitText base b).length ≤ 3 := by
  have hall : ∀ base ∈ [10, 16], ∀ n < 256, (0 < (ascii (Nat.toDigits base n)).length ∧
      (ascii (Nat.toDigits base n)).length ≤ 3) ∧ 0 ∉ ascii (Nat.toDigits base n) ∧
      46 ∉ ascii (Nat.toDigits base n) := by decide +kernel
  obtain ⟨⟨hpos, hlen⟩, hfree⟩ := hall base (by simpa using hbase) b.toNat b.toNat_lt
  exact ⟨⟨⟨hpos, Nat.le_trans hlen (by decide)⟩, hfree⟩, hlen⟩

theorem nibbleText_eq {bytes buf : List UInt8} (h : buf.length + 8 * bytes.length < 256) :
    ∃ ls, (∀ l ∈ ls, IsLabel l) ∧ (dottedText ls).length ≤ 8 * bytes.length ∧
      nibbleText bytes buf = some (buf ++ dottedText ls) := by
  induction bytes generalizing buf with
  | nil => exact ⟨[], List.forall_mem_nil _, Nat.zero_le _, by rw [nibbleText, dottedText_nil,
      List.append_nil]⟩
  | cons bt bytes ih =>
      obtain ⟨hlow, hlow'⟩ := @isLabel_digitText 16 (Or.inr rfl) (bt &&& 0xf)
      obtain ⟨hhigh, hhigh'⟩ := @isLabel_digitText 16 (Or.inr rfl) (bt >>> 4 &&& 0xf)
      rw [List.length_cons] at h
      have hadd : (dotted (digitText 16 (bt &&& 0xf)) ++
          dotted (digitText 16 (bt >>> 4 &&& 0xf))).length ≤ 8 := by
        simp only [dotted, List.length_append, List.length_singleton]
        omega
      obtain ⟨ls, hls, hlen, hrest⟩ := @ih (buf ++ (dotted (digitText 16 (bt &&& 0xf)) ++
        dotted (digitText 16 (bt >>> 4 &&& 0xf)))) (by rw [List.length_append]; omega)
      refine ⟨digitText 16 (bt &&& 0xf) :: digitText 16 (bt >>> 4 &&& 0xf) :: ls,
        List.forall_mem_cons.mpr ⟨hlow, List.forall_mem_cons.mpr ⟨hhigh, hls⟩⟩, ?_, ?_⟩
      · simp only [dottedText_cons, List.length_append, List.length_cons]
        omega
      · rw [nibbleText, if_neg (by rw [List.length_append, dnsNameBufSize]; omega), hrest]
        simp [dotted, dottedText_cons]

/-- The text of some labels is the name that is read from it. -/
theorem ofRhn_dottedText {ls : List (List UInt8)} (hne : ls ≠ []) (hls : ∀ l ∈ ls, IsLabel l)
    (hlen : (dottedText ls).length ≤ 255) {rhn : List UInt8} (hrhn : rhn.length = 256) :
    ∃ n out, str2rhn (dottedText ls ++ [0]) rhn = some (true, out) ∧ Name.ofRhn out = some n := by
  have hfree : 0 ∉ dottedText ls := by
    rw [dottedText, List.mem_flatMap]
    rintro ⟨l, hl, hmem⟩
    obtain hmem | hmem := List.mem_append.mp hmem
    · exact (hls l hl).2.1 hmem
    · exact absurd hmem (by decide)
  obtain ⟨ok, out, hrun, -, hok, hbytes⟩ := str2rhn_text hfree hrhn
  obtain rfl : ok = true := hok.mpr (Or.inr ⟨ls, hne,
    fun l hl => ⟨(hls l hl).2.2, (hls l hl).1.1, Nat.le_trans (hls l hl).1.2 (by decide)⟩, rfl,
      hlen⟩)
  obtain ⟨-, ms, after, htext, rfl⟩ := hbytes rfl
  obtain ⟨n, -, hwire⟩ := htext.exists_name
  refine ⟨n, _, hrun, ?_⟩
  rw [List.append_cons, ← hwire]
  exact Name.ofRhn_wire n after

theorem isLabel_arpa :
    IsLabel (ascii ['i', 'n', '-', 'a', 'd', 'd', 'r']) ∧ IsLabel (ascii ['i', 'p', '6']) ∧
      IsLabel (ascii ['a', 'r', 'p', 'a']) := by
  refine ⟨⟨?_, ?_⟩, ⟨?_, ?_⟩, ⟨?_, ?_⟩⟩ <;> decide

theorem ptrName_isSome {data : List UInt8} {tp : Nat}
    (h : tp = 1 ∧ 4 ≤ data.length ∨ tp = 28 ∧ 16 ≤ data.length) :
    ∃ n, ptrName data tp = some (some n) := by
  obtain ⟨haddr, hip6, harpa⟩ := isLabel_arpa
  obtain ⟨ls, hne, hls, hlen, htext⟩ : ∃ ls, ls ≠ [] ∧ (∀ l ∈ ls, IsLabel l) ∧
      (dottedText ls).length ≤ 255 ∧ a2ptrstr data tp = some (some (dottedText ls)) := by
    obtain ⟨rfl, hdata⟩ | ⟨rfl, hdata⟩ := h
    · obtain _ | ⟨p0, _ | ⟨p1, _ | ⟨p2, _ | ⟨p3, data⟩⟩⟩⟩ := data
      · exact absurd hdata (by decide)
      · exact absurd hdata (by simp)
      · exact absurd hdata (by simp)
      · exact absurd hdata (by simp)
      · have hdigit := fun b => @isLabel_digitText 10 (Or.inl rfl) b
        have hlen : (dottedText [digitText 10 p3, digitText 10 p2, digitText 10 p1, digitText 10 p0,
            ascii ['i', 'n', '-', 'a', 'd', 'd', 'r'],
              ascii ['a', 'r', 'p', 'a']]).length ≤ 255 := by
          have h0 := (hdigit p0).2
          have h1 := (hdigit p1).2
          have h2 := (hdigit p2).2
          have h3 := (hdigit p3).2
          have ha := haddr.1.2
          have hb := harpa.1.2
          simp only [dottedText_cons, dottedText_nil, List.length_append, List.length_cons,
            List.length_nil]
          omega
        refine ⟨_, List.cons_ne_nil _ _, ?_, hlen, ?_⟩
        · simp only [List.forall_mem_cons]
          exact ⟨(hdigit p3).1, (hdigit p2).1, (hdigit p1).1, (hdigit p0).1, haddr, harpa,
            List.forall_mem_nil _⟩
        · rw [a2ptrstr, if_pos rfl]
          have hbuf : dotted (digitText 10 p3) ++ dotted (digitText 10 p2) ++
              dotted (digitText 10 p1) ++ dotted (digitText 10 p0) ++
              dotted (ascii ['i', 'n', '-', 'a', 'd', 'd', 'r']) ++
              dotted (ascii ['a', 'r', 'p', 'a']) = dottedText [digitText 10 p3, digitText 10 p2,
                digitText 10 p1, digitText 10 p0, ascii ['i', 'n', '-', 'a', 'd', 'd', 'r'],
                ascii ['a', 'r', 'p', 'a']] := by simp [dotted, dottedText_cons]
          simp only [hbuf]
          rw [if_neg (by rw [dnsNameBufSize]; omega)]
    · have hshort : ((data.take 16).reverse).length = 16 := by
        rw [List.length_reverse, List.length_take_of_le hdata]
      obtain ⟨ls, hls, hlen, hnibbles⟩ := @nibbleText_eq (data.take 16).reverse []
        (by rw [hshort]; decide)
      rw [hshort] at hlen
      have hlast : (dottedText (ls ++ [ascii ['i', 'p', '6'], ascii ['a', 'r', 'p', 'a']])).length ≤
          255 := by
        have ha := hip6.1.2
        have hb := harpa.1.2
        simp only [dottedText_append, dottedText_cons, dottedText_nil, List.length_append,
          List.length_cons, List.length_nil]
        omega
      refine ⟨_, List.append_ne_nil_of_right_ne_nil ls (List.cons_ne_nil _ _), ?_, hlast, ?_⟩
      · rw [List.forall_mem_append]
        simp only [List.forall_mem_cons]
        exact ⟨hls, hip6, harpa, List.forall_mem_nil _⟩
      · unfold a2ptrstr
        rw [if_neg (by decide), if_pos rfl, if_neg (by omega), hnibbles]
        have hbuf : [] ++ dottedText ls ++ (dotted (ascii ['i', 'p', '6']) ++
            dotted (ascii ['a', 'r', 'p', 'a'])) =
              dottedText (ls ++ [ascii ['i', 'p', '6'], ascii ['a', 'r', 'p', 'a']]) := by
          simp [dotted, dottedText_append, dottedText_cons]
        simp only [hbuf]
        rw [if_neg (by rw [dnsNameBufSize]; omega)]
  obtain ⟨n, out, hrun, hname⟩ := ofRhn_dottedText hne hls hlen
    (List.length_replicate (n := dnsNameBufSize) (a := (0 : UInt8)))
  refine ⟨n, ?_⟩
  rw [ptrName, htext]
  simp only [Option.bind_eq_bind, Option.bind_some, hrun, if_true, hname, Option.map_some]

end NameSpec

section Entry

variable {cfg : CacheConfig} {c cent : Cent} {i : Slot} {v : Option RrSet} {rrset : RrSet}

theorem setRrset_frame (c : Cent) (i : Slot) (v : Option RrSet) :
    (c.setRrset i v).qname = c.qname ∧ (c.setRrset i v).numRrs = c.numRrs ∧
      (c.setRrset i v).cs = c.cs ∧ (c.setRrset i v).negative = c.negative := by
  obtain ⟨qname, cs, numRrs, dflags, arm, cNs, cSoa⟩ := c
  cases arm <;> cases v <;> exact ⟨rfl, rfl, rfl, rfl⟩

theorem rrset_setRrset (hpos : c.negative = false) :
    (c.setRrset i v).rrset = Function.update c.rrset i v := by
  obtain ⟨qname, cs, numRrs, dflags, arm, cNs, cSoa⟩ := c
  cases arm with
  | neg => cases hpos
  | rr a => cases v <;> rfl

theorem ext_setRrset (hi : i.val < nrrmu) : (c.setRrset i v).ext = c.ext := by
  obtain ⟨qname, cs, numRrs, dflags, arm, cNs, cSoa⟩ := c
  cases arm with
  | neg => cases v <;> rfl
  | rr a =>
      cases v with
      | none => rfl
      | some r => simp [Cent.setRrset, Cent.ext, RrArray.put, hi]

/-- The counters do not follow a record set that is stored. -/
theorem surplus_setRrset (sz : Sizes) (hpos : c.negative = false) (hi : i.val < nrrmu)
    (hnone : c.rrset i = none) :
    (c.setRrset i v).surplus sz =
      c.surplus sz - v.elim 0 fun r => (1, (r.size sz : Int)) := by
  obtain ⟨hname, hnum, hcs, -⟩ := setRrset_frame c i v
  have hext : (c.setRrset i v).extSize sz = c.extSize sz := by
    rw [Cent.extSize, Cent.extSize, ext_setRrset hi]
  simp only [Cent.surplus, Cent.count, Cent.size, Cent.measure_update (rrset_setRrset hpos), hname,
    hnum, hcs, hext, hnone]
  cases v with
  | none => simp
  | some r =>
      simp only [Option.elim_none, Option.elim_some, Prod.mk_sub_mk, Prod.mk.injEq]
      constructor <;> omega

/-- The entry before it gets the record sets of `cent`. -/
def ptrBase (cfg : CacheConfig) (cent : Cent) (rrset : RrSet) (rhn : Name) : Cent :=
  if cent.flags.isLocal && !rrset.flags.isLocal then initCent cfg.sizes rhn false 0 0 cent.flags
  else appendRr cfg.sizes ((initCent cfg.sizes rhn false 0 0 cent.flags).withRrset cfg.sizes slotPTR
    rrset.ttl rrset.ts rrset.flags) slotPTR cent.qname.wire

/-- The entry that is given to `add_cache`. -/
def ptrEntry (cfg : CacheConfig) (cent : Cent) (rrset : RrSet) (rhn : Name) : Cent :=
  ((ptrBase cfg cent rrset rhn).setRrset slotNS (cent.rrset slotNS)).setRrset slotSOA
    (cent.rrset slotSOA)

theorem ptrCent_eq (l : Rrl) (cent : Cent) (rrset : RrSet) (rhn : Name) :
    ptrCent cfg l cent rrset rhn = some (l, ptrEntry cfg cent rrset rhn) := by
  have hunlisted := @unlisted_initCent cfg.sizes rhn false 0 0 cent.flags
  have hadd : addCentRr cfg.sizes l (initCent cfg.sizes rhn false 0 0 cent.flags) slotPTR rrset.ttl
      rrset.ts rrset.flags cent.qname.wire = some (l, ptrBase cfg cent rrset rhn) := by
    have hflags : (initCent cfg.sizes rhn false 0 0 cent.flags).flags = cent.flags := rfl
    have hnone : (initCent cfg.sizes rhn false 0 0 cent.flags).rrset slotPTR = none := rfl
    rw [addCentRr, hflags, ptrBase]
    split_ifs
    · rfl
    · rw [hnone]
      simp only [addCentRrsetByIndex_unlisted cfg.sizes hunlisted, Option.bind_eq_bind,
        Option.bind_some]
  rw [ptrCent, hadd]
  rfl

/-- The entry holds the new record only. -/
structure IsPtrBase (cfg : CacheConfig) (cent : Cent) (rrset : RrSet) (rhn : Name) (b : Cent) :
    Prop where
  name : b.qname = rhn
  negative : b.negative = false
  unlisted : b.Unlisted
  surplus : b.surplus cfg.sizes = 0
  others : ∀ i ≠ slotPTR, b.rrset i = none
  numRrs : b.numRrs = if cent.flags.isLocal && !rrset.flags.isLocal then 0 else 1

theorem isPtrBase (cfg : CacheConfig) (cent : Cent) (rrset : RrSet) (rhn : Name) :
    IsPtrBase cfg cent rrset rhn (ptrBase cfg cent rrset rhn) := by
  have hunlisted := @unlisted_initCent cfg.sizes rhn false 0 0 cent.flags
  have hsurplus := @surplus_initCent cfg.sizes rhn false 0 0 cent.flags
  rw [ptrBase]
  split_ifs with hignore
  · exact ⟨rfl, rfl, hunlisted, hsurplus, fun _ _ => rfl, by rw [if_pos hignore]; rfl⟩
  · refine ⟨rfl, rfl, (hunlisted.withRrset _ _ _ _).appendRr _ _, ?_, fun i hi => ?_, ?_⟩
    · rw [Cent.surplus_appendRr (by simp [Cent.rrset_withRrset]), Cent.surplus_withRrset, hsurplus]
      rfl
    · rw [Cent.rrset_appendRr, Function.update_of_ne hi, Cent.rrset_withRrset,
        Function.update_of_ne hi]
      rfl
    · rw [if_neg hignore]
      rfl

theorem ptrEntry_frame (cfg : CacheConfig) (cent : Cent) (rrset : RrSet) (rhn : Name) :
    (ptrEntry cfg cent rrset rhn).qname = rhn ∧ (ptrEntry cfg cent rrset rhn).negative = false ∧
      (ptrEntry cfg cent rrset rhn).numRrs =
        (if cent.flags.isLocal && !rrset.flags.isLocal then 0 else 1) ∧
      (ptrEntry cfg cent rrset rhn).surplus cfg.sizes =
        0 - ((cent.rrset slotNS).elim 0 fun r => (1, (r.size cfg.sizes : Int))) -
          (cent.rrset slotSOA).elim 0 fun r => (1, (r.size cfg.sizes : Int)) := by
  have hbase := isPtrBase cfg cent rrset rhn
  obtain ⟨hname, hnum, -, hneg⟩ :=
    setRrset_frame (ptrBase cfg cent rrset rhn) slotNS (cent.rrset slotNS)
  obtain ⟨hname', hnum', -, hneg'⟩ := setRrset_frame
    ((ptrBase cfg cent rrset rhn).setRrset slotNS (cent.rrset slotNS)) slotSOA (cent.rrset slotSOA)
  refine ⟨hname'.trans (hname.trans hbase.name), hneg'.trans (hneg.trans hbase.negative),
    hnum'.trans (hnum.trans hbase.numRrs), ?_⟩
  rw [ptrEntry, surplus_setRrset cfg.sizes (hneg.trans hbase.negative) (by decide),
    surplus_setRrset cfg.sizes hbase.negative (by decide) (hbase.others slotNS (by decide)),
    hbase.surplus]
  rw [rrset_setRrset hbase.negative, Function.update_of_ne (by decide)]
  exact hbase.others slotSOA (by decide)

/-- The entry agrees with its counters if it got nothing from `cent`. -/
theorem surplus_ptrEntry_eq_zero_iff (cfg : CacheConfig) (cent : Cent) (rrset : RrSet)
    (rhn : Name) : (ptrEntry cfg cent rrset rhn).surplus cfg.sizes = 0 ↔
      cent.rrset slotNS = none ∧ cent.rrset slotSOA = none := by
  obtain ⟨-, -, -, hsurplus⟩ := ptrEntry_frame cfg cent rrset rhn
  rw [hsurplus]
  cases cent.rrset slotNS <;> cases cent.rrset slotSOA <;> simp

/-- One turn of the loop leaves the entry it was called with. -/
theorem addPtr_eq (now : Int) (s : Cache) (cent : Cent) (rrset : RrSet) (rhn : Name) :
    addPtr cfg now s cent rrset rhn =
      (addCache cfg now s (ptrEntry cfg cent rrset rhn)).map fun t => (t, cent) := by
  obtain ⟨-, hpos, -, -⟩ := ptrEntry_frame cfg cent rrset rhn
  have hpos' := (setRrset_frame (ptrEntry cfg cent rrset rhn) slotNS none).2.2.2.trans hpos
  have hpos'' := (setRrset_frame _ slotSOA none).2.2.2.trans hpos'
  set ce := ((ptrEntry cfg cent rrset rhn).setRrset slotNS none).setRrset slotSOA none with hce
  have hrrset : ce.rrset = Function.update (Function.update (ptrEntry cfg cent rrset rhn).rrset
      slotNS none) slotSOA none := by
    rw [hce, rrset_setRrset hpos', rrset_setRrset hpos]
  -- what is left is the record set that was made for it
  have hunlisted : ce.Unlisted := by
    intro o
    cases o with
    | none =>
        rw [Cent.lentOf]
        split
        · next h => rw [Cent.negative, h] at hpos''; cases hpos''
        · rfl
    | some i =>
        rw [Cent.lentOf_some, hrrset]
        by_cases hsoa : i = slotSOA
        · rw [hsoa, Function.update_self]
          rfl
        · by_cases hns : i = slotNS
          · rw [hns, Function.update_of_ne (by decide), Function.update_self]
            rfl
          · have hbase := isPtrBase cfg cent rrset rhn
            have hneg := (setRrset_frame (ptrBase cfg cent rrset rhn) slotNS
              (cent.rrset slotNS)).2.2.2.trans hbase.negative
            rw [Function.update_of_ne hsoa, Function.update_of_ne hns, ptrEntry,
              rrset_setRrset hneg, Function.update_of_ne hsoa, rrset_setRrset hbase.negative,
              Function.update_of_ne hns]
            exact hbase.unlisted (some i)
  have hfree : ∀ l, freeSharing cfg l ce cent [slotNS, slotSOA] = some (l, cent) := by
    intro l
    have hns : ce.rrset slotNS = none := by
      rw [hrrset, Function.update_of_ne (by decide), Function.update_self]
    have hsoa : ce.rrset slotSOA = none := by rw [hrrset, Function.update_self]
    rw [freeSharing, freeCent_eq, removeEach_none l fun o _ => hunlisted o]
    simp [hns, hsoa]
  rw [addPtr, ptrCent_eq]
  simp only [Option.bind_eq_bind, Option.bind_some, ← hce, hfree]
  cases addCache cfg now s (ptrEntry cfg cent rrset rhn) <;> rfl

end Entry

section Turn

variable {cfg : CacheConfig} {s t : Cache} {cent : Cent} {rrset : RrSet} {rhn : Name} {now : Int}

/-- The turn for one record leaves the counters right: the new entry gets nothing from `cent`, or
the name has an entry that it is merged into, or the record is ignored. -/
def TurnKeeps (cent : Cent) (s : Cache) (rrset : RrSet) (rhn : Name) : Prop :=
  cent.rrset slotNS = none ∧ cent.rrset slotSOA = none ∨ (s.find rhn.fold).isSome ∨
    cent.flags.isLocal = true ∧ rrset.flags.isLocal = false

/-- The counters agree with what the entries hold. -/
abbrev Balanced (x : Int × Int) : Prop :=
  x = 0

theorem Balanced.nonneg {x : Int × Int} (h : Balanced x) : 0 ≤ x.1 :=
  (congrArg Prod.fst h).ge

theorem purge_good (h : Good cfg Balanced s) (limit : Int) :
    ∃ t, purgeCache cfg now s limit true = some t ∧ Good cfg Balanced t := by
  obtain ⟨xs, hinv, hsized, hsort⟩ := h
  obtain ⟨t, ys, ht, hpurged⟩ := purgeCache_spec (p := fun _ => True) (q := fun _ _ => True)
    (fun _ => Balanced.nonneg) hinv hsized hsort (fun _ _ => trivial) (fun _ => trivial) now limit
    true
  exact ⟨t, ht, ys, hpurged.inv, hpurged.sized, hpurged.insertSort.trans hsort⟩

theorem addCache_known {c new : Cent} (h : Good cfg Balanced s)
    (hc : s.find new.qname.fold = some c) (hpos : new.negative = false) :
    ∃ t, addCache cfg now s new = some t ∧ Good cfg Balanced t := by
  obtain ⟨xs, hinv, hsized, hsort⟩ := h
  obtain ⟨u, ys, -, -, -, hu, hinv', hsized', hsort', -⟩ := addExisting_spec (p := fun _ => True)
    (q := fun _ _ => True) now hinv hsized hc (fun _ _ => trivial) fun _ _ _ => trivial
  obtain ⟨t, ht, hgood⟩ := @purge_good cfg u now ⟨ys, hinv', hsized', hsort'.trans hsort⟩
    (cfg.permCache * 1024 + mcsz)
  refine ⟨t, ?_, hgood⟩
  rw [addCache, hc]
  simp only [hpos, Bool.false_eq_true, if_false, Option.bind_eq_bind, hu, Option.bind_some, ht]

theorem addCache_keeps (h : Good cfg Balanced s) (hkeep : TurnKeeps cent s rrset rhn) :
    ∃ t, addCache cfg now s (ptrEntry cfg cent rrset rhn) = some t ∧ Good cfg Balanced t := by
  obtain ⟨hname, hpos, hnum, -⟩ := ptrEntry_frame cfg cent rrset rhn
  cases hfind : s.find (ptrEntry cfg cent rrset rhn).qname.fold with
  | some c => exact addCache_known h hfind hpos
  | none =>
      obtain hbare | hknown | hignored := hkeep
      · obtain ⟨-, t, ht, hgood, -⟩ := addCache_spec (p := fun _ => True) (q := fun _ _ => True)
          (fun _ => Balanced.nonneg) (fun _ _ => trivial) (fun _ => trivial) h
          ((surplus_ptrEntry_eq_zero_iff cfg cent rrset rhn).mpr hbare) now
        exact ⟨t, ht, hgood⟩
      · rw [hname] at hfind
        rw [hfind] at hknown
        cases hknown
      · have hzero : (ptrEntry cfg cent rrset rhn).numRrs = 0 ∧
            !(ptrEntry cfg cent rrset rhn).negative := by
          rw [hnum, hpos, hignored.1, hignored.2]
          exact ⟨rfl, rfl⟩
        obtain ⟨t, ht, hgood⟩ := @purge_good cfg s now h (cfg.permCache * 1024 + mcsz)
        refine ⟨t, ?_, hgood⟩
        rw [addCache, hfind]
        simp only [if_pos hzero, ht]

/-- What `add_cache` does with a positive entry before it purges. -/
def addUnpurged (cfg : CacheConfig) (now : Int) (s : Cache) (new : Cent) : Option Cache :=
  match s.find new.qname.fold with
  | none => if new.numRrs = 0 ∧ !new.negative then some s else addNew cfg s new
  | some _ => addExisting cfg now s new

/-- The cache does not outgrow its limit. -/
def HasRoom (cfg : CacheConfig) (now : Int) (s : Cache) (new : Cent) : Prop :=
  ∀ u, addUnpurged cfg now s new = some u → u.cacheSize ≤ cfg.permCache * 1024 + mcsz

theorem addCache_unpurged {new : Cent} (hpos : new.negative = false) (hroom : HasRoom cfg now s new)
    (h : addUnpurged cfg now s new = some t) : addCache cfg now s new = some t := by
  have hwithin := @purgeCache_within cfg t now _ (hroom t h)
  rw [addUnpurged] at h
  rw [addCache]
  cases hfind : s.find new.qname.fold with
  | none =>
      simp only [hfind] at h ⊢
      by_cases hempty : new.numRrs = 0 ∧ !new.negative
      · rw [if_pos hempty] at h
        cases h
        rw [if_pos hempty, hwithin]
      · rw [if_neg hempty] at h
        simp only [if_neg hempty, Option.bind_eq_bind, h, Option.bind_some, hwithin]
  | some c =>
      simp only [hfind] at h
      simp only [hpos, Bool.false_eq_true, if_false, Option.bind_eq_bind, h, Option.bind_some,
        hwithin]

theorem addCache_room {new : Cent} (h : Good cfg (fun _ => True) s) (hpos : new.negative = false)
    (hroom : HasRoom cfg now s new) :
    ∃ t, addCache cfg now s new = some t ∧ Good cfg (fun _ => True) t ∧
      (∀ k ≠ new.qname.fold, t.find k = s.find k) ∧
      (s.find new.qname.fold = none → new.numRrs ≠ 0 → ∃ d, t.find new.qname.fold = some d ∧
        d.surplus cfg.sizes = new.surplus cfg.sizes) := by
  obtain ⟨xs, hinv, hsized, hsort⟩ := h
  cases hfind : s.find new.qname.fold with
  | none =>
      by_cases hempty : new.numRrs = 0 ∧ !new.negative
      · have hstore : addUnpurged cfg now s new = some s := by
          rw [addUnpurged, hfind]
          exact if_pos hempty
        exact ⟨s, addCache_unpurged hpos hroom hstore, ⟨xs, hinv, hsized, hsort⟩,
          fun _ _ => rfl, fun _ hnum => absurd hempty.1 hnum⟩
      · obtain ⟨t, ys, d, ht, hinv', hsized', hsort', htfind, hcopy, -⟩ :=
          addNew_spec hinv hsized hfind trivial
        have hstore : addUnpurged cfg now s new = some t := by
          rw [addUnpurged, hfind, ← ht]
          exact if_neg hempty
        refine ⟨t, addCache_unpurged hpos hroom hstore, ⟨ys, hinv', hsized', hsort'.trans hsort⟩,
          fun k hk => ?_, fun _ _ => ⟨d, ?_, ?_⟩⟩
        · rw [htfind, Function.update_of_ne hk]
        · rw [htfind, Function.update_self]
        · obtain ⟨-, -, -, -, -, hadjust, -⟩ := adjustCent_frame cfg (copyCent new)
          rw [← Cent.surplus_copyCent, hcopy, Cent.surplus_copyCent, hadjust,
            Cent.surplus_copyCent]
  | some c =>
      obtain ⟨t, ys, -, -, -, ht, hinv', hsized', hsort', -⟩ :=
        addExisting_spec (p := fun _ => True) (q := fun _ _ => True) now hinv hsized hfind
          (fun _ _ => trivial) fun _ _ _ => trivial
      have hstore : addUnpurged cfg now s new = some t := by rw [addUnpurged, hfind, ← ht]
      obtain ⟨d, htfind, -⟩ := find_addExisting ht hfind (hinv.ok _ c hfind).name
      refine ⟨t, addCache_unpurged hpos hroom hstore, ⟨ys, hinv', hsized', hsort'.trans hsort⟩,
        fun k hk => ?_, fun hnone => absurd hnone (Option.some_ne_none c)⟩
      rw [htfind, Function.update_of_ne hk]

end Turn

section Run

variable {cfg : CacheConfig} {clock : Nat → Int} {s t : Cache} {cent : Cent} {n : Nat}
  {xs ys : List (RrSet × Name)}

/-- The calls of `add_cache`, for record sets and names. -/
def addEach (cfg : CacheConfig) (clock : Nat → Int) (cent : Cent) :
    List (RrSet × Name) → Nat → Cache → Option Cache
  | [], _, s => some s
  | x :: xs, n, s => do
      let s ← addCache cfg (clock n) s (ptrEntry cfg cent x.1 x.2)
      addEach cfg clock cent xs (n + 1) s

/-- Every call comes at a cache in which the turn keeps the counters right. -/
def KeepsEach (cfg : CacheConfig) (clock : Nat → Int) (cent : Cent) :
    List (RrSet × Name) → Nat → Cache → Prop
  | [], _, _ => True
  | x :: xs, n, s => TurnKeeps cent s x.1 x.2 ∧
      ∀ t, addCache cfg (clock n) s (ptrEntry cfg cent x.1 x.2) = some t →
        KeepsEach cfg clock cent xs (n + 1) t

/-- Every call comes at a cache that has room for the entry. -/
def HasRoomEach (cfg : CacheConfig) (clock : Nat → Int) (cent : Cent) :
    List (RrSet × Name) → Nat → Cache → Prop
  | [], _, _ => True
  | x :: xs, n, s => HasRoom cfg (clock n) s (ptrEntry cfg cent x.1 x.2) ∧
      ∀ t, addCache cfg (clock n) s (ptrEntry cfg cent x.1 x.2) = some t →
        HasRoomEach cfg clock cent xs (n + 1) t

theorem addEach_append :
    addEach cfg clock cent (xs ++ ys) n s =
      (addEach cfg clock cent xs n s).bind (addEach cfg clock cent ys (n + xs.length)) := by
  induction xs generalizing n s with
  | nil => rfl
  | cons x xs ih =>
      rw [List.cons_append, addEach, addEach, Option.bind_eq_bind, Option.bind_assoc]
      refine Option.bind_congr fun t _ => ?_
      rw [ih, List.length_cons, Nat.add_assoc, Nat.add_comm 1]

/-- The counters stay right in a run of such turns. -/
theorem addEach_keeps (h : Good cfg Balanced s) (hkeep : KeepsEach cfg clock cent xs n s) :
    ∃ t, addEach cfg clock cent xs n s = some t ∧ Good cfg Balanced t := by
  induction xs generalizing n s with
  | nil => exact ⟨s, rfl, h⟩
  | cons x xs ih =>
      obtain ⟨u, hu, hgood⟩ := @addCache_keeps cfg s cent x.1 x.2 (clock n) h hkeep.1
      obtain ⟨t, ht, hgood'⟩ := ih hgood (hkeep.2 u hu)
      exact ⟨t, by rw [addEach, hu]; exact ht, hgood'⟩

/-- An entry of another name is left alone. -/
theorem addEach_room (h : Good cfg (fun _ => True) s)
    (hroom : HasRoomEach cfg clock cent xs n s) :
    ∃ t, addEach cfg clock cent xs n s = some t ∧ Good cfg (fun _ => True) t ∧
      ∀ k ∉ xs.map (fun x => x.2.fold), t.find k = s.find k := by
  induction xs generalizing n s with
  | nil => exact ⟨s, rfl, h, fun _ _ => rfl⟩
  | cons x xs ih =>
      obtain ⟨hname, hpos, -⟩ := ptrEntry_frame cfg cent x.1 x.2
      obtain ⟨u, hu, hgood, hsame, -⟩ := addCache_room h hpos hroom.1
      obtain ⟨t, ht, hgood', hsame'⟩ := ih hgood (hroom.2 u hu)
      refine ⟨t, by rw [addEach, hu]; exact ht, hgood', fun k hk => ?_⟩
      rw [List.map_cons, List.mem_cons, not_or] at hk
      rw [hsame' k hk.2, hsame k (by rw [hname]; exact hk.1)]

/-- In a cache with room the counters are right at the end only if every turn kept them. -/
theorem addEach_iff (h : Good cfg Balanced s) (hroom : HasRoomEach cfg clock cent xs n s)
    (hnodup : (xs.map fun x => x.2.fold).Nodup) :
    ∃ t, addEach cfg clock cent xs n s = some t ∧
      ((∀ k c, t.find k = some c → Balanced (c.surplus cfg.sizes)) ↔
        KeepsEach cfg clock cent xs n s) ∧
      Good cfg (fun _ => True) t := by
  induction xs generalizing n s with
  | nil =>
      obtain ⟨ys, hinv, -⟩ := id h
      exact ⟨s, rfl, iff_of_true (fun k c hc => (hinv.ok k c hc).surplus) trivial,
        h.mono fun _ _ => trivial⟩
  | cons x xs ih =>
      rw [List.map_cons, List.nodup_cons] at hnodup
      obtain ⟨hname, hpos, hnum, -⟩ := ptrEntry_frame cfg cent x.1 x.2
      by_cases hkeep : TurnKeeps cent s x.1 x.2
      · obtain ⟨u, hu, hgood⟩ := @addCache_keeps cfg s cent x.1 x.2 (clock n) h hkeep
        obtain ⟨t, ht, hiff, hgood'⟩ := ih hgood (hroom.2 u hu) hnodup.2
        refine ⟨t, by rw [addEach, hu]; exact ht, hiff.trans ⟨fun hrest => ⟨hkeep, fun v hv => ?_⟩,
          fun hall => hall.2 u hu⟩, hgood'⟩
        cases hu.symm.trans hv
        exact hrest
      · -- the entry that is stored keeps its wrong counters
        have hfail := hkeep
        rw [TurnKeeps, not_or, not_or, ← surplus_ptrEntry_eq_zero_iff cfg cent x.1 x.2,
          Option.not_isSome_iff_eq_none] at hfail
        obtain ⟨u, hu, hgood, -, hstored⟩ :=
          addCache_room (h.mono fun _ _ => trivial) hpos hroom.1
        obtain ⟨d, hd, hsurplus⟩ := hstored (by rw [hname]; exact hfail.2.1) (by
          rw [hnum, if_neg (by simpa using hfail.2.2)]
          exact Int.one_ne_zero)
        obtain ⟨t, ht, hgood', hsame⟩ := addEach_room hgood (hroom.2 u hu)
        refine ⟨t, by rw [addEach, hu]; exact ht, iff_of_false (fun hall => ?_)
          fun hall => hkeep hall.1, hgood'⟩
        rw [hname] at hd
        have hlast := hall x.2.fold d ((hsame _ hnodup.1).trans hd)
        exact hfail.1 (hsurplus.symm.trans hlast)

end Run

section Reverse

variable {cfg : CacheConfig} {clock : Nat → Int} {s t : Cache} {cent : Cent} {rrset : RrSet}
  {tp n : Nat} {rrs : List (List UInt8)} {allowLocalAaaa : Bool}

/-- The names for the records of a set. -/
def ptrItems (rrset : RrSet) (tp : Nat) (rrs : List (List UInt8)) : List (RrSet × Name) :=
  rrs.filterMap fun data => (ptrName data tp).join.map fun rhn => (rrset, rhn)

def ptrSetItems (o : Option RrSet) (tp : Nat) : List (RrSet × Name) :=
  o.elim [] fun rrset => ptrItems rrset tp rrset.rrs

/-- The records that `add_reverse_cache` adds for an entry. -/
def reverseItems (allowLocalAaaa : Bool) (cent : Cent) : List (RrSet × Name) :=
  ptrSetItems (cent.getrrset 1) 1 ++
    if allowLocalAaaa then ptrSetItems (cent.getrrset 28) 28 else []

/-- The records are addresses. -/
def HoldsAddresses (cent : Cent) : Prop :=
  (∀ r ∈ cent.getrrset 1, ∀ data ∈ r.rrs, 4 ≤ data.length) ∧
    ∀ r ∈ cent.getrrset 28, ∀ data ∈ r.rrs, 16 ≤ data.length

theorem addPtrs_eq (h : ∀ data ∈ rrs, ∃ rhn, ptrName data tp = some (some rhn)) :
    addPtrs cfg clock rrset tp rrs n s cent =
      (addEach cfg clock cent (ptrItems rrset tp rrs) n s).map fun t =>
        (true, n + (ptrItems rrset tp rrs).length, t, cent) := by
  induction rrs generalizing n s with
  | nil => rfl
  | cons data rrs ih =>
      rw [List.forall_mem_cons] at h
      obtain ⟨⟨rhn, hrhn⟩, hrest⟩ := h
      have hitems : ptrItems rrset tp (data :: rrs) = (rrset, rhn) :: ptrItems rrset tp rrs := by
        rw [ptrItems, List.filterMap_cons, hrhn]
        rfl
      rw [addPtrs, hitems, addEach, hrhn]
      simp only [Option.bind_eq_bind, Option.bind_some, addPtr_eq]
      cases addCache cfg (clock n) s (ptrEntry cfg cent rrset rhn) with
      | none => rfl
      | some u =>
          have hlen : n + 1 + (ptrItems rrset tp rrs).length =
              n + ((rrset, rhn) :: ptrItems rrset tp rrs).length := by
            rw [List.length_cons, Nat.add_assoc, Nat.add_comm 1]
          simp only [Option.map_some, Option.bind_some, ih hrest, hlen]

theorem addPtrSet_eq {o : Option RrSet}
    (h : ∀ r ∈ o, ∀ data ∈ r.rrs, ∃ rhn, ptrName data tp = some (some rhn)) :
    addPtrSet cfg clock o tp n s cent =
      (addEach cfg clock cent (ptrSetItems o tp) n s).map fun t =>
        (true, n + (ptrSetItems o tp).length, t, cent) := by
  cases o with
  | none => rfl
  | some r => exact addPtrs_eq (h r rfl)

/-- `add_reverse_cache` calls `add_cache` for its records, and leaves the entry it was called
with. -/
theorem addReverseCache_eq (h : HoldsAddresses cent) :
    addReverseCache cfg clock allowLocalAaaa s cent =
      (addEach cfg clock cent (reverseItems allowLocalAaaa cent) 0 s).map fun t =>
        (true, t, cent) := by
  have hfirst := @addPtrSet_eq cfg clock s cent 1 0 (cent.getrrset 1) fun r hr data hdata =>
    ptrName_isSome (Or.inl ⟨rfl, h.1 r hr data hdata⟩)
  have hsecond := fun (u : Cache) (m : Nat) => @addPtrSet_eq cfg clock u cent 28 m
    (cent.getrrset 28) fun r hr data hdata => ptrName_isSome (Or.inr ⟨rfl, h.2 r hr data hdata⟩)
  rw [addReverseCache, hfirst, reverseItems, addEach_append]
  cases addEach cfg clock cent (ptrSetItems (cent.getrrset 1) 1) 0 s with
  | none => rfl
  | some u =>
      cases allowLocalAaaa with
      | false => rfl
      | true =>
          simp only [Option.map_some, Option.bind_eq_bind, Option.bind_some, Bool.and_true,
            if_true, hsecond]
          cases addEach cfg clock cent (ptrSetItems (cent.getrrset 28) 28) _ u <;> rfl

/-- The counters of the entries, and the size of the cache. -/
structure Cache.Counted (sz : Sizes) (s : Cache) : Prop where
  numRrs : ∀ k c, s.find k = some c →
    c.numRrs = (Finset.univ.filter fun i => (c.rrset i).isSome).card
  cs : ∀ k c, s.find k = some c → c.cs = c.size sz
  cacheSize : s.cacheSize = (s.table.entries.map fun e => e.2.cs).sum

theorem counted_of_good (h : Good cfg Balanced s) : Cache.Counted cfg.sizes s :=
  have hcons := consistent_of_good h
  ⟨hcons.numRrs, hcons.cs, hcons.cacheSize⟩

theorem balanced_of_counted {c : Cent} {k : Key} (h : Cache.Counted cfg.sizes s)
    (hc : s.find k = some c) : Balanced (c.surplus cfg.sizes) := by
  rw [Cent.surplus, c.count_eq_card, h.numRrs k c hc, h.cs k c hc, sub_self, sub_self]
  rfl

/-- `add_reverse_cache` leaves the entry it was called with, and keeps the counters right if every
turn does. In a cache with room, and with no name twice, it does so only then. -/
theorem addReverseCache_counted (cfg : CacheConfig) (clock : Nat → Int) (allowLocalAaaa : Bool)
    (s : Cache) (cent : Cent) (h : Good cfg Balanced s) (haddr : HoldsAddresses cent) :
    (KeepsEach cfg clock cent (reverseItems allowLocalAaaa cent) 0 s →
      ∃ t, addReverseCache cfg clock allowLocalAaaa s cent = some (true, t, cent) ∧
        Cache.Counted cfg.sizes t) ∧
    (HasRoomEach cfg clock cent (reverseItems allowLocalAaaa cent) 0 s →
      ((reverseItems allowLocalAaaa cent).map fun x => x.2.fold).Nodup →
      ∃ t, addReverseCache cfg clock allowLocalAaaa s cent = some (true, t, cent) ∧
        (Cache.Counted cfg.sizes t ↔
          KeepsEach cfg clock cent (reverseItems allowLocalAaaa cent) 0 s)) := by
  constructor
  · intro hkeep
    obtain ⟨t, ht, hgood⟩ := addEach_keeps h hkeep
    exact ⟨t, by rw [addReverseCache_eq haddr, ht]; rfl, counted_of_good hgood⟩
  · intro hroom hnodup
    obtain ⟨t, ht, hiff, -⟩ := addEach_iff h hroom hnodup
    refine ⟨t, by rw [addReverseCache_eq haddr, ht]; rfl, fun hcounted => ?_, fun hkeep => ?_⟩
    · exact hiff.mp fun k c hc => balanced_of_counted hcounted hc
    · obtain ⟨t', ht', hgood⟩ := addEach_keeps h hkeep
      cases ht.symm.trans ht'
      exact counted_of_good hgood

/-- Without these record sets every turn keeps the counters right. -/
theorem keepsEach_of_bare {xs : List (RrSet × Name)} (hns : cent.rrset slotNS = none)
    (hsoa : cent.rrset slotSOA = none) : KeepsEach cfg clock cent xs n s := by
  induction xs generalizing n s with
  | nil => exact trivial
  | cons x xs ih => exact ⟨Or.inl ⟨hns, hsoa⟩, fun _ _ => ih⟩

end Reverse

section Example

def cfLocal : CFlags :=
  ⟨false, true, false, false, false, false, false⟩

/-- The entry of an `rr` section with an address, and with a name server or not. -/
def exampleHost (ns : Bool) : Cent :=
  let c := appendRr exampleConfig.sizes ((initCent exampleConfig.sizes exampleName false 0 0
    ⟨true, false, false, false⟩).withRrset exampleConfig.sizes slotA 900 0 cfLocal)
      slotA [127, 0, 0, 1]
  if ns then
    appendRr exampleConfig.sizes (c.withRrset exampleConfig.sizes slotNS 900 0 cfLocal) slotNS
      exampleName.wire
  else c

theorem addReverseCache_counted_host :
    (∃ t, addReverseCache exampleConfig (fun _ => 1000) true Cache.empty (exampleHost false) =
      some (true, t, exampleHost false) ∧ Cache.Counted exampleConfig.sizes t) ∧
    ∃ t, addReverseCache exampleConfig (fun _ => 1000) true Cache.empty (exampleHost true) =
      some (true, t, exampleHost true) ∧
        (Cache.Counted exampleConfig.sizes t ↔ KeepsEach exampleConfig (fun _ => 1000)
          (exampleHost true) (reverseItems true (exampleHost true)) 0 Cache.empty) := by
  have haddr : ∀ ns, HoldsAddresses (exampleHost ns) := by
    intro ns
    cases ns <;> exact ⟨by decide +kernel, by decide +kernel⟩
  obtain ⟨x, hx⟩ : ∃ x, reverseItems true (exampleHost true) = [x] :=
    List.length_eq_one_iff.mp (by decide +kernel)
  have hroom : ∀ x ∈ reverseItems true (exampleHost true), ∀ u ∈ addUnpurged exampleConfig 1000
      Cache.empty (ptrEntry exampleConfig (exampleHost true) x.1 x.2),
        u.cacheSize ≤ exampleConfig.permCache * 1024 + mcsz := by
    decide +kernel
  have hbare : (exampleHost false).rrset slotNS = none ∧
      (exampleHost false).rrset slotSOA = none := by
    decide +kernel
  obtain ⟨hfirst, -⟩ := addReverseCache_counted exampleConfig (fun _ => 1000) true Cache.empty
    (exampleHost false) good_empty (haddr false)
  obtain ⟨-, hsecond⟩ := addReverseCache_counted exampleConfig (fun _ => 1000) true Cache.empty
    (exampleHost true) good_empty (haddr true)
  generalize reverseItems true (exampleHost false) = xs at hfirst
  refine ⟨hfirst (keepsEach_of_bare hbare.1 hbare.2), hsecond ?_ ?_⟩
  · rw [hx]
    exact ⟨hroom x (hx ▸ List.mem_singleton_self x), fun _ _ => trivial⟩
  · rw [hx]
    exact List.nodup_singleton _

/-- The record set that an entry gets from another one is held but not counted. -/
theorem addReverseCache_miscounts :
    ¬∀ s cent, Good exampleConfig Balanced s → HoldsAddresses cent →
      ∃ t, addReverseCache exampleConfig (fun _ => 1000) false s cent = some (true, t, cent) ∧
        Cache.Counted exampleConfig.sizes t := by
  intro h
  obtain ⟨t, ht, hcounted⟩ := h Cache.empty (exampleHost true) good_empty
    ⟨by decide +kernel, by decide +kernel⟩
  have hwrong : (addReverseCache exampleConfig (fun _ => 1000) false Cache.empty
      (exampleHost true)).map (fun x => x.2.1.table.entries.map fun e =>
        decide (e.2.numRrs = ((Finset.univ.filter fun i => (e.2.rrset i).isSome).card : Int))) =
      some [false] := by
    decide +kernel
  rw [ht, Option.map_some, Option.some.injEq] at hwrong
  obtain ⟨e, he, hne⟩ := List.mem_map.mp (hwrong ▸ List.mem_singleton_self false)
  have hfind : t.find e.1 = some e.2 := AList.mem_lookup_iff.mpr he
  exact of_decide_eq_false hne (hcounted.numRrs _ _ hfind)

end Example

end TorAndroid.Dns
