import TorAndroid.Socks.RangeListing

namespace TorAndroid.Socks.Range

open TorAndroid.Socks.Basic

structure Quad where
  a : UInt8
  b : UInt8
  c : UInt8
  d : UInt8
deriving DecidableEq, Repr

namespace Quad

def octets (q : Quad) : List UInt8 := [q.a, q.b, q.c, q.d]

def address (q : Quad) : InetAddress := .v4 q.a q.b q.c q.d

/-- The unsigned number of 32 bits. -/
def number (q : Quad) : Nat := q.octets.foldl (fun n octet => 256 * n + octet.toNat) 0

end Quad

def numeral (digits : List Char) : Nat :=
  digits.foldl (fun n c => 10 * n + (c.toNat - 48)) 0

/-- A number from 0 to 255, perhaps with zeros in front. -/
structure OctetText where
  digits : List Char
  nonempty : digits ≠ []
  isDigit : ∀ c ∈ digits, c.isDigit = true
  small : numeral digits < 256

def OctetText.value (o : OctetText) : UInt8 := UInt8.ofNat (numeral o.digits)

def dotted (parts : List OctetText) : List Char :=
  List.intercalate ['.'] (parts.map OctetText.digits)

structure QuadText where
  a : OctetText
  b : OctetText
  c : OctetText
  d : OctetText

namespace QuadText

def parts (t : QuadText) : List OctetText := [t.a, t.b, t.c, t.d]

def text (t : QuadText) : String := String.ofList (dotted t.parts)

def value (t : QuadText) : Quad := ⟨t.a.value, t.b.value, t.c.value, t.d.value⟩

end QuadText

/-- One to three parts, to be followed by a dot. -/
structure PrefixText where
  parts : List OctetText
  nonempty : parts ≠ []
  short : parts.length ≤ 3

def PrefixText.text (t : PrefixText) : String := String.ofList (dotted t.parts ++ ['.'])

/-- The calls for IPv4 ranges. -/
inductive Ipv4Call where
  | quad (t : QuadText)
  | network (t : PrefixText)
  | pair (low high : QuadText)
  | address (q : Quad)
  | addresses (low high : Quad)
  | remove (s : String)

def pairText (low high : String) : String := low ++ ":" ++ high

def Ipv4Call.call : Ipv4Call → Call
  | .quad t => .addString (some t.text)
  | .network t => .addString (some t.text)
  | .pair low high => .addString (some (pairText low.text high.text))
  | .address q => .addAddress q.address
  | .addresses low high => .addAddresses low.address high.address
  | .remove s => .remove s

/-- An entry as it is meant: its text and the addresses it stands for. -/
structure Meant where
  name : String
  covers : Quad → Prop

section Meaning

variable (platform : Platform) (getHostAddress : InetAddress → String)

def Ipv4Call.change (es : List Meant) : Ipv4Call → List Meant
  | .quad t => es ++ [⟨t.text, fun q => q = t.value⟩]
  | .network t => es ++ [⟨t.text, fun q => t.parts.map OctetText.value <+: q.octets⟩]
  | .pair low high =>
      es ++ [⟨pairText low.text high.text,
        fun q => low.value.number ≤ q.number ∧ q.number ≤ high.value.number⟩]
  | .address ip => es ++ [⟨platform.getHostName ip.address, fun q => q = ip⟩]
  | .addresses low high =>
      es ++ [⟨pairText (getHostAddress low.address) (getHostAddress high.address),
        fun q => low.number ≤ q.number ∧ q.number ≤ high.number⟩]
  | .remove s => es.eraseP fun e => e.name = s

/-- The entries that are listed after the calls. -/
def meant : List Ipv4Call → List Meant
  | [] => []
  | a :: hist => a.change platform getHostAddress (meant hist)

end Meaning

section Texts

variable {parts : List OctetText}

theorem number_eq (q : Quad) : q.number =
    q.a.toNat * 2 ^ 24 + q.b.toNat * 2 ^ 16 + q.c.toNat * 2 ^ 8 + q.d.toNat := by
  simp only [Quad.number, Quad.octets, List.foldl]
  omega

theorem ip2long_address (q : Quad) : ip2long q.address = q.number := by
  rw [number_eq]
  rfl

theorem number_injective {p q : Quad} (h : p.number = q.number) : p = q := by
  rw [number_eq, number_eq] at h
  have := p.b.toNat_lt
  have := p.c.toNat_lt
  have := p.d.toNat_lt
  have := q.b.toNat_lt
  have := q.c.toNat_lt
  have := q.d.toNat_lt
  obtain ⟨a, b, c, d⟩ := p
  obtain ⟨a', b', c', d'⟩ := q
  simp only [Quad.mk.injEq, ← UInt8.toNat_inj] at *
  omega

theorem toNat_value (o : OctetText) : o.value.toNat = numeral o.digits := by
  rw [OctetText.value, UInt8.toNat_ofNat']
  exact Nat.mod_eq_of_lt o.small

theorem notMem_digits {c : Char} (hc : c.isDigit = false) (o : OctetText) : c ∉ o.digits := by
  intro hmem
  rw [o.isDigit c hmem] at hc
  cases hc

theorem parseInt_digits (o : OctetText) : parseInt o.digits = some (numeral o.digits : Int) := by
  have hsmall := o.small
  have hdigits : o.digits.all Char.isDigit = true := List.all_eq_true.mpr o.isDigit
  have hminus := notMem_digits (c := '-') rfl o
  have hplus := notMem_digits (c := '+') rfl o
  have hnonempty := o.nonempty
  revert hsmall hdigits hminus hplus hnonempty
  generalize o.digits = digits
  intro hsmall hdigits hminus hplus hnonempty
  rw [parseInt]
  · rw [numeral] at hsmall ⊢
    simp only [hnonempty, hdigits, ne_eq, not_false_eq_true, and_self, if_true,
      Bool.false_eq_true, if_false]
    rw [if_pos (by omega)]
  · rintro tail rfl
    simp at hminus
  · rintro tail rfl
    simp at hplus

theorem tokens_dotted (hparts : parts ≠ []) {tail : List Char} (htail : tail = [] ∨ tail = ['.']) :
    ((dotted parts ++ tail).splitOn '.').filter (· ≠ []) = parts.map OctetText.digits := by
  have hdots : ∀ l ∈ parts.map OctetText.digits, '.' ∉ l := by
    intro l hl
    obtain ⟨o, -, rfl⟩ := List.mem_map.mp hl
    exact notMem_digits rfl o
  have hsplit : (dotted parts).splitOn '.' = parts.map OctetText.digits :=
    List.splitOn_intercalate '.' hdots (by simpa using hparts)
  have hfilter : (parts.map OctetText.digits).filter (· ≠ []) = parts.map OctetText.digits := by
    rw [List.filter_eq_self]
    intro l hl
    obtain ⟨o, -, rfl⟩ := List.mem_map.mp hl
    simpa using o.nonempty
  rcases htail with rfl | rfl
  · rw [List.append_nil, hsplit, hfilter]
  · rw [List.splitOn_append_cons_self, hsplit, List.filter_append, hfilter, List.splitOn_nil]
    simp

theorem ip2intarray_dotted (hparts : parts ≠ []) (hlen : parts.length ≤ 4) {tail : List Char}
    (htail : tail = [] ∨ tail = ['.']) :
    ip2intarray (String.ofList (dotted parts ++ tail)) =
      some (parts.map fun o => o.value.toNat) := by
  rw [ip2intarray, String.toList_ofList]
  simp only [tokens_dotted hparts htail, List.length_map, Nat.not_lt.mpr hlen, if_false]
  have hpart : ∀ o : OctetText, ((parseInt o.digits).map fun n => (n % 256).toNat) =
      some o.value.toNat := by
    intro o
    have hsmall := o.small
    rw [parseInt_digits, Option.map_some, toNat_value]
    congr 1
    omega
  have hmap : ∀ os : List OctetText,
      (os.map OctetText.digits).mapM (fun token => (parseInt token).map fun n => (n % 256).toNat) =
        some (os.map fun o => o.value.toNat) := by
    intro os
    induction os with
    | nil => rfl
    | cons o os ih => simp [hpart, ih]
  exact hmap parts

/-- The characters of the texts: digits and dots, and the colon between two quads. -/
def Plain (c : Char) : Prop := c.isDigit = true ∨ c = '.' ∨ c = ':'

theorem not_le_space_of_plain {c : Char} (h : Plain c) : ¬c ≤ ' ' := by
  rcases h with h | rfl | rfl
  · rw [Char.isDigit, Bool.and_eq_true, decide_eq_true_eq, decide_eq_true_eq] at h
    intro hle
    have hle : c.val ≤ 32 := hle
    have hge : 48 ≤ c.val := h.1
    rw [UInt32.le_iff_toNat_le] at hle hge
    exact absurd (hge.trans hle) (by decide)
  · decide
  · decide

theorem trim_of_plain {s : String} (h : ∀ c ∈ s.toList, Plain c) : trim s = s := by
  refine String.toList_inj.mp ?_
  have hhead : s.toList.dropWhile (· ≤ ' ') = s.toList := by
    rw [List.dropWhile_eq_self_iff]
    intro hpos
    simpa using not_le_space_of_plain (h _ (List.getElem_mem hpos))
  have hlast : s.toList.rdropWhile (· ≤ ' ') = s.toList := by
    rw [List.rdropWhile_eq_self_iff]
    intro hne
    simpa using not_le_space_of_plain (h _ (List.getLast_mem hne))
  rw [toList_trim, hhead, hlast]

theorem mem_dotted {c : Char} (h : c ∈ dotted parts) : c.isDigit = true ∨ c = '.' := by
  induction parts with
  | nil => cases h
  | cons o parts ih =>
      cases parts with
      | nil =>
          refine Or.inl (o.isDigit c ?_)
          simpa [dotted, List.intercalate] using h
      | cons o' parts =>
          have hcons : dotted (o :: o' :: parts) = o.digits ++ '.' :: dotted (o' :: parts) := by
            simp [dotted, List.intercalate]
          rw [hcons, List.mem_append, List.mem_cons] at h
          rcases h with h | rfl | h
          · exact Or.inl (o.isDigit c h)
          · exact Or.inr rfl
          · exact ih h

theorem plain_dotted {c : Char} (h : c ∈ dotted parts) : Plain c := by
  exact (mem_dotted h).imp_right Or.inl

theorem delimiter_dotted {c : Char} (h : c ∈ dotted parts) : delimiter c = false := by
  rcases mem_dotted h with h | rfl
  · rw [delimiter, decide_eq_false_iff_not]
    simp only [List.mem_cons, List.not_mem_nil, or_false]
    rintro (rfl | rfl | rfl | rfl | rfl | rfl) <;> cases h
  · rfl

theorem toList_text (t : QuadText) : t.text.toList = dotted t.parts := String.toList_ofList

theorem dotted_parts (t : QuadText) : dotted t.parts =
    t.a.digits ++ '.' :: (t.b.digits ++ '.' :: (t.c.digits ++ '.' :: t.d.digits)) := by
  simp [dotted, QuadText.parts, List.intercalate, List.intersperse]

theorem head_text (t : QuadText) : ∃ c cs, t.text.toList = c :: cs ∧ c.isDigit = true := by
  rw [toList_text, dotted_parts]
  cases hdigits : t.a.digits with
  | nil => exact absurd hdigits t.a.nonempty
  | cons c cs => exact ⟨c, _, rfl, t.a.isDigit c (by rw [hdigits]; exact List.mem_cons_self)⟩

theorem getLast_text (t : QuadText) : t.text.toList.getLast? ≠ some '.' := by
  rw [toList_text, dotted_parts]
  intro hlast
  have hmem : '.' ∈ t.d.digits := by
    cases hdigits : t.d.digits with
    | nil => exact absurd hdigits t.d.nonempty
    | cons c cs =>
        rw [hdigits] at hlast
        refine List.mem_of_getLast? ?_
        simpa [List.getLast?_append, List.getLast?_cons] using hlast
  exact notMem_digits rfl t.d hmem

theorem text_ne_empty (t : QuadText) : t.text ≠ "" := by
  obtain ⟨c, cs, hcs, -⟩ := head_text t
  intro hempty
  rw [hempty] at hcs
  cases hcs

theorem trim_text (t : QuadText) : trim t.text = t.text :=
  trim_of_plain fun _ hc => plain_dotted (toList_text t ▸ hc)

theorem host2long_text (t : QuadText) : host2long t.text = some t.value.number := by
  obtain ⟨c, cs, hcs, hdigit⟩ := head_text t
  have harray : ip2intarray t.text = some (t.parts.map fun o => o.value.toNat) := by
    have hparts : t.parts ≠ [] := List.cons_ne_nil _ _
    have harray := ip2intarray_dotted hparts le_rfl (Or.inl rfl)
    rwa [List.append_nil] at harray
  rw [host2long, hcs]
  simp only [hdigit, if_true, harray]
  rfl

theorem text_injective {t t' : QuadText} (h : t.text = t'.text) : t.value = t'.value := by
  have hnumber := (host2long_text t).symm.trans (h ▸ host2long_text t')
  exact number_injective (Option.some.inj hnumber)

theorem toList_text_ne_nil (t : QuadText) : t.text.toList ≠ [] := by
  obtain ⟨c, cs, hcs, -⟩ := head_text t
  rw [hcs]
  exact List.cons_ne_nil c cs

theorem tokens_text (t : QuadText) : tokens t.text = [t.text] := by
  have hsplit : t.text.toList.splitOnP delimiter = [t.text.toList] := by
    refine List.splitOnP_eq_singleton fun c hc => ?_
    rw [toList_text] at hc
    exact delimiter_dotted hc
  rw [tokens, hsplit, List.filter_cons_of_pos (by simpa using toList_text_ne_nil t)]
  simp

theorem tokens_pairText (low high : QuadText) :
    tokens (pairText low.text high.text) = [low.text, high.text] := by
  have hsplit : (pairText low.text high.text).toList.splitOnP delimiter =
      [low.text.toList, high.text.toList] := by
    have hlow : ∀ c ∈ low.text.toList, delimiter c = false := fun c hc =>
      delimiter_dotted (toList_text low ▸ hc)
    have hhigh : ∀ c ∈ high.text.toList, delimiter c = false := fun c hc =>
      delimiter_dotted (toList_text high ▸ hc)
    rw [pairText, String.toList_append, String.toList_append,
      show ":".toList = [':'] from rfl, List.append_assoc, List.singleton_append,
      List.splitOnP_append_cons_of_forall_mem hlow ':' rfl, List.splitOnP_eq_singleton hhigh]
  rw [tokens, hsplit, List.filter_cons_of_pos (by simpa using toList_text_ne_nil low),
    List.filter_cons_of_pos (by simpa using toList_text_ne_nil high)]
  simp

/-- The interval of a prefix consists of the numbers that begin with its parts. -/
theorem networkLoop_covers (t : PrefixText) (q : Quad) :
    (networkLoop 4 (t.parts.map fun o => o.value.toNat) 0).1 ≤ q.number ∧
        q.number ≤ (networkLoop 4 (t.parts.map fun o => o.value.toNat) 0).2 ↔
      t.parts.map OctetText.value <+: q.octets := by
  obtain ⟨parts, hparts, hshort⟩ := t
  have hb := q.b.toNat_lt
  have hc := q.c.toNat_lt
  have hd := q.d.toNat_lt
  rw [number_eq]
  match parts, hparts, hshort with
  | [a], _, _ =>
      simp only [List.map, networkLoop, lastParts, Quad.octets, List.cons_prefix_cons,
        List.nil_prefix, and_true, ← UInt8.toNat_inj]
      omega
  | [a, b], _, _ =>
      have := b.value.toNat_lt
      simp only [List.map, networkLoop, lastParts, Quad.octets, List.cons_prefix_cons,
        List.nil_prefix, and_true, ← UInt8.toNat_inj]
      omega
  | [a, b, c], _, _ =>
      have := b.value.toNat_lt
      have := c.value.toNat_lt
      simp only [List.map, networkLoop, lastParts, Quad.octets, List.cons_prefix_cons,
        List.nil_prefix, and_true, ← UInt8.toNat_inj]
      omega

end Texts

section Calls

variable (l : Listing)

theorem addString_quad (t : QuadText) : (l.addString (some t.text)).1 =
    { l.append .host ⟨t.text, some t.value.number, some t.value.number⟩ with
      host_names := l.host_names.insert t.text } := by
  obtain ⟨c, cs, hcs, hdigit⟩ := head_text t
  have hhead : t.text.toList.head? ≠ some '.' := by
    rw [hcs, List.head?_cons]
    rintro h
    cases Option.some.inj h
    cases hdigit
  simp only [Listing.addString, trim_text, text_ne_empty, getLast_text, hhead, tokens_text,
    host2long_text, if_false]

theorem addString_network (t : PrefixText) : (l.addString (some t.text)).1 =
    l.append .network ⟨t.text, some (networkLoop 4 (t.parts.map fun o => o.value.toNat) 0).1,
      some (networkLoop 4 (t.parts.map fun o => o.value.toNat) 0).2⟩ := by
  have harray : ip2intarray t.text = some (t.parts.map fun o => o.value.toNat) :=
    ip2intarray_dotted t.nonempty (t.short.trans (by decide)) (Or.inr rfl)
  have hlist : t.text.toList = dotted t.parts ++ ['.'] := String.toList_ofList
  have htrim : trim t.text = t.text := by
    refine trim_of_plain fun c hc => ?_
    rw [hlist, List.mem_append, List.mem_singleton] at hc
    rcases hc with hc | rfl
    · exact plain_dotted hc
    · exact Or.inr (Or.inl rfl)
  have hne : t.text ≠ "" := by
    intro hempty
    rw [hempty] at hlist
    exact List.append_ne_nil_of_right_ne_nil _ (List.cons_ne_nil _ _) hlist.symm
  have hlast : t.text.toList.getLast? = some '.' := by
    rw [hlist, List.getLast?_concat]
  simp only [Listing.addString, htrim, hne, hlast, harray, if_true, if_false]

theorem addString_pair (low high : QuadText) :
    (l.addString (some (pairText low.text high.text))).1 =
      l.append .pair ⟨pairText low.text high.text, some low.value.number,
        some high.value.number⟩ := by
  have hlist : (pairText low.text high.text).toList =
      low.text.toList ++ ':' :: high.text.toList := by
    rw [pairText, String.toList_append, String.toList_append]
    simp
  obtain ⟨c, cs, hcs, hdigit⟩ := head_text low
  have htrim : trim (pairText low.text high.text) = pairText low.text high.text := by
    refine trim_of_plain fun c hc => ?_
    rw [hlist, List.mem_append, List.mem_cons] at hc
    rcases hc with hc | rfl | hc
    · exact plain_dotted (toList_text low ▸ hc)
    · exact Or.inr (Or.inr rfl)
    · exact plain_dotted (toList_text high ▸ hc)
  have hne : pairText low.text high.text ≠ "" := by
    intro hempty
    rw [hempty, hcs] at hlist
    cases hlist
  have hhead : (pairText low.text high.text).toList.head? ≠ some '.' := by
    rw [hlist, hcs]
    rintro h
    cases Option.some.inj h
    cases hdigit
  have hlast : (pairText low.text high.text).toList.getLast? ≠ some '.' := by
    rw [hlist, List.getLast?_append_cons, List.getLast?_cons_of_ne_nil (toList_text_ne_nil high)]
    exact getLast_text high
  simp only [Listing.addString, htrim, hne, hlast, hhead, tokens_pairText, pairEnds,
    host2long_text, if_false]

end Calls

section Refinement

variable {platform : Platform} {getHostAddress : InetAddress → String} {l : Listing}
  {es : List Meant}

def Listed.Stands (x : Listed) (e : Meant) : Prop :=
  x.entry.name = e.name ∧ ∀ q : Quad, x.entry.Stands q.number (fun e => e.covers q) e

/-- The entries cover what they are meant to cover, and a host name is the text of an
entry. -/
structure Means (l : Listing) (es : List Meant) : Prop where
  all : List.Forall₂ Listed.Stands l.all es
  hosts : ∀ t : QuadText, t.text ∈ l.host_names → ∃ e ∈ es, e.name = t.text ∧ e.covers t.value
  endings : l.end_names = []

theorem means_append (h : Means l es) {kind : Kind} {entry : Entry} {e : Meant}
    (hstands : Listed.Stands ⟨kind, entry⟩ e) : Means (l.append kind entry) (es ++ [e]) := by
  refine ⟨List.rel_append h.all (.cons hstands .nil), fun t ht => ?_, h.endings⟩
  obtain ⟨e', he', hname⟩ := h.hosts t ht
  exact ⟨e', List.mem_append_left _ he', hname⟩

theorem names_of_stands {all : List Listed} (h : List.Forall₂ Listed.Stands all es) :
    all.map (fun x => x.entry.name) = es.map Meant.name := by
  induction h with
  | nil => rfl
  | cons hstands _ ih => rw [List.map_cons, List.map_cons, hstands.1, ih]

theorem means_eraseP {all : List Listed} (h : List.Forall₂ Listed.Stands all es) (s : String) :
    List.Forall₂ Listed.Stands (all.eraseP fun x => x.entry.name = s)
      (es.eraseP fun e => e.name = s) := by
  induction h with
  | nil => exact .nil
  | @cons x e all es hstands hrest ih =>
      by_cases hname : e.name = s
      · rw [List.eraseP_cons_of_pos (by simpa [hstands.1] using hname),
          List.eraseP_cons_of_pos (by simpa using hname)]
        exact hrest
      · rw [List.eraseP_cons_of_neg (by simpa [hstands.1] using hname),
          List.eraseP_cons_of_neg (by simpa using hname)]
        exact .cons hstands ih

theorem means_remove (h : Means l es) (s : String) :
    Means (l.remove s).1 (es.eraseP fun e => e.name = s) := by
  have herase := means_eraseP h.all s
  rw [Listing.remove]
  split_ifs with hany
  · refine ⟨herase, fun t ht => ?_, ?_⟩
    · rw [List.mem_filter, decide_eq_true_eq] at ht
      obtain ⟨e, he, hname, hcovers⟩ := h.hosts t ht.1
      refine ⟨e, ?_, hname, hcovers⟩
      rw [List.mem_eraseP_of_neg (by simpa [hname] using ht.2)]
      exact he
    · rw [h.endings]
      rfl
  · have hnames : ∀ e ∈ es, ¬e.name = s := by
      intro e he hname
      have hmem := List.mem_map_of_mem (f := Meant.name) he
      rw [← names_of_stands h.all, List.mem_map] at hmem
      obtain ⟨x, hx, hsame⟩ := hmem
      exact hany (List.any_eq_true.mpr ⟨x, hx, by simpa [hsame] using hname⟩)
    rw [List.eraseP_of_forall_not (by simpa using hnames)]
    exact h

theorem means_quad (h : Means l es) (t : QuadText) :
    Means (l.addString (some t.text)).1 (es ++ [⟨t.text, fun q => q = t.value⟩]) := by
  have hstands : Listed.Stands
      ⟨.host, ⟨t.text, some t.value.number, some t.value.number⟩⟩
      ⟨t.text, fun q => q = t.value⟩ := by
    refine ⟨rfl, fun q => ⟨_, _, rfl, rfl, ?_⟩⟩
    constructor
    · rintro ⟨hle, hge⟩
      exact number_injective (le_antisymm hge hle)
    · rintro rfl
      exact ⟨le_rfl, le_rfl⟩
  have happend := means_append h hstands
  rw [addString_quad]
  refine ⟨happend.all, fun t' ht' => ?_, happend.endings⟩
  rcases List.mem_insert_iff.mp ht' with heq | hmem
  · exact ⟨_, List.mem_append_right _ List.mem_cons_self, heq.symm, text_injective heq⟩
  · exact happend.hosts t' hmem

theorem means_network (h : Means l es) (t : PrefixText) :
    Means (l.addString (some t.text)).1
      (es ++ [⟨t.text, fun q => t.parts.map OctetText.value <+: q.octets⟩]) := by
  rw [addString_network]
  exact means_append h ⟨rfl, fun q => ⟨_, _, rfl, rfl, networkLoop_covers t q⟩⟩

theorem means_pair (h : Means l es) (low high : QuadText) :
    Means (l.addString (some (pairText low.text high.text))).1
      (es ++ [⟨pairText low.text high.text,
        fun q => low.value.number ≤ q.number ∧ q.number ≤ high.value.number⟩]) := by
  rw [addString_pair]
  exact means_append h ⟨rfl, fun q => ⟨_, _, rfl, rfl, Iff.rfl⟩⟩

theorem means_address (h : Means l es) (ip : Quad) :
    Means (l.addAddress platform ip.address)
      (es ++ [⟨platform.getHostName ip.address, fun q => q = ip⟩]) := by
  refine means_append h ⟨rfl, fun q => ⟨_, _, rfl, rfl, ?_⟩⟩
  rw [ip2long_address]
  constructor
  · rintro ⟨hle, hge⟩
    exact number_injective (le_antisymm hge hle)
  · rintro rfl
    exact ⟨le_rfl, le_rfl⟩

theorem means_addresses (h : Means l es) (low high : Quad) :
    Means (l.addAddresses getHostAddress low.address high.address)
      (es ++ [⟨pairText (getHostAddress low.address) (getHostAddress high.address),
        fun q => low.number ≤ q.number ∧ q.number ≤ high.number⟩]) := by
  refine means_append h ⟨rfl, fun q => ⟨_, _, rfl, rfl, ?_⟩⟩
  rw [ip2long_address, ip2long_address]

theorem means_apply (h : Means l es) (a : Ipv4Call) :
    Means (apply platform getHostAddress l a.call) (a.change platform getHostAddress es) := by
  cases a with
  | quad t => exact means_quad h t
  | network t => exact means_network h t
  | pair low high => exact means_pair h low high
  | address q => exact means_address h q
  | addresses low high => exact means_addresses h low high
  | remove s => exact means_remove h s

theorem means_after (platform : Platform) (getHostAddress : InetAddress → String)
    (hist : List Ipv4Call) :
    Means (after platform getHostAddress (hist.map Ipv4Call.call))
      (meant platform getHostAddress hist) := by
  induction hist with
  | nil => exact ⟨.nil, by simp [after, Listing.empty], rfl⟩
  | cons a hist ih => exact means_apply ih a

end Refinement

/-- After any calls a quad is contained exactly when an entry that is listed covers it. -/
theorem containsText_iff_covers (platform : Platform) (getHostAddress : InetAddress → String)
    (hist : List Ipv4Call) (h : QuadText) :
    ∃ b, (after platform getHostAddress (hist.map Ipv4Call.call)).range.containsText platform
        h.text false = .ok b ∧
      (b = true ↔ ∃ e ∈ meant platform getHostAddress hist, e.covers h.value) := by
  obtain ⟨hall, hhosts, hendings⟩ := means_after platform getHostAddress hist
  revert hall hhosts hendings
  generalize after platform getHostAddress (hist.map Ipv4Call.call) = l
  generalize meant platform getHostAddress hist = es
  intro hall hhosts hendings
  have hstands : List.Forall₂ (Entry.Stands h.value.number fun e : Meant => e.covers h.value)
      l.range.all es := by
    rw [Listing.range, List.forall₂_map_left_iff]
    exact hall.imp fun x e hx => hx.2 h.value
  obtain ⟨b, hb, hiff⟩ := containsLong_of_stands hstands
  simp only [InetRange.containsText, trim_text, text_ne_empty, host2long_text, if_false]
  split_ifs with hempty hhost hending
  · rw [hempty, List.forall₂_nil_left_iff] at hstands
    exact ⟨false, rfl, by simp [hstands]⟩
  · obtain ⟨e, he, -, hcovers⟩ := hhosts h (of_decide_eq_true hhost)
    exact ⟨true, rfl, by simpa using ⟨e, he, hcovers⟩⟩
  · rw [InetRange.checkHostEnding, Listing.range, hendings] at hending
    cases hending
  · exact ⟨b, hb, hiff⟩

end TorAndroid.Socks.Range
