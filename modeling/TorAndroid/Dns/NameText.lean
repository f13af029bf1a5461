import TorAndroid.Dns.RdataRoundTrip
import TorAndroid.Lib.ByteBuffer

/-!
Names and their text: `str2rhn`, `parsestr2rhn` and `rhn2str`.

A text is a string with a null byte behind it, and the functions read it and write their
buffer by an index. A function has no result when it reads or writes outside of them, or
when the turns that it is given do not suffice.
-/

namespace TorAndroid.Dns

open TorAndroid.Lib.ByteBuffer

section Parsing

variable (str : List UInt8)

/-- `str[j] && str[j]!='.'` -/
def inElement (j : Nat) : Option Bool := do
  let c ← str[j]?
  some (decide (c ≠ 0 ∧ c ≠ 46))

/-- `j<len && str[j] && str[j]!='.'` -/
def inElementBefore (len j : Nat) : Option Bool :=
  if j < len then inElement str j else some false

/-- `j<len && str[j]` -/
def inStringBefore (len j : Nat) : Option Bool :=
  if j < len then do
    let c ← str[j]?
    some (decide (c ≠ 0))
  else some false

/-- The loop over the bytes of an element, which goes on as long as the test succeeds: where it
ends, or nothing where the element is too long. -/
def copyElement (test : Nat → Option Bool) (jlim : Nat) :
    Nat → Nat → List UInt8 → Option (Option Nat × List UInt8)
  | 0, _, _ => none
  | n + 1, j, rhn => do
      if ← test j then
        if jlim ≤ j then some (none, rhn)
        else
          let rhn ← store rhn (j + 1) [← str[j]?]
          copyElement test jlim n (j + 1) rhn
      else some (some j, rhn)

/-- `jlim` for the element at `i`. -/
def elementLimit (i : Nat) : Nat :=
  min (i + 63) (dnsNameBufSize - 2)

/-- `*str=='.' && !*(str+1)` -/
def isRootText : Option Bool := do
  if (← str[0]?) = 46 then
    let c ← str[1]?
    some (decide (c = 0))
  else some false

/-- The loop of `str2rhn` and what follows it. -/
def str2rhnLoop : Nat → Nat → List UInt8 → Option (Bool × List UInt8)
  | 0, _, _ => none
  | n + 1, i, rhn => do
      match ← copyElement str (inElement str) (elementLimit i) (str.length + 1) i rhn with
      | (none, rhn) => some (false, rhn)
      | (some j, rhn) =>
          if (← str[j]?) = 0 then
            let rhn ← store rhn i [0]
            some (decide ¬(j > i ∨ i = 0), rhn)
          else if j ≤ i then some (false, rhn)
          else
            let rhn ← store rhn i [UInt8.ofNat (j - i)]
            str2rhnLoop n (j + 1) rhn

/-- `str2rhn`: whether it is successful, and the buffer. -/
def str2rhn (rhn : List UInt8) : Option (Bool × List UInt8) := do
  if ← isRootText str then
    let rhn ← store rhn 0 [0]
    some (true, rhn)
  else str2rhnLoop str (str.length + 1) 0 rhn

/-- What follows the loop of `parsestr2rhn`. -/
def closeElements (i : Nat) (rhn : List UInt8) : Option (Option String × List UInt8) := do
  let rhn ← store rhn i [0]
  some (if i = 0 then some "Empty domain name not allowed" else none, rhn)

/-- The loop of `parsestr2rhn` and what follows it. -/
def parsestr2rhnLoop (len : Nat) : Nat → Nat → List UInt8 → Option (Option String × List UInt8)
  | 0, _, _ => none
  | n + 1, i, rhn => do
      match ← copyElement str (inElementBefore str len) (elementLimit i) (str.length + 1) i rhn with
      | (none, rhn) => some (some "Domain name element too long", rhn)
      | (some j, rhn) =>
          if j ≤ i then
            if ← inStringBefore str len j then
              some (some "Empty name element in domain name", rhn)
            else closeElements i rhn
          else
            let rhn ← store rhn i [UInt8.ofNat (j - i)]
            if ← inStringBefore str len j then parsestr2rhnLoop len n (j + 1) rhn
            else closeElements (j + 1) rhn

/-- `len>0 && *str=='.' && (len==1 || !*(str+1))` -/
def isRootTextBefore (len : Nat) : Option Bool :=
  if 0 < len then do
    if (← str[0]?) = 46 then
      if len = 1 then some true
      else
        let c ← str[1]?
        some (decide (c = 0))
    else some false
  else some false

/-- `parsestr2rhn`: the message in case of an error, and the buffer. -/
def parsestr2rhn (len : Nat) (rhn : List UInt8) : Option (Option String × List UInt8) := do
  if ← isRootTextBefore str len then
    let rhn ← store rhn 0 [0]
    some (none, rhn)
  else parsestr2rhnLoop str len (str.length + 1) 0 rhn

end Parsing

section Printing

variable (rhn : List UInt8) (size : Nat)

/-- The printable characters other than the blank. -/
def isgraph (c : UInt8) : Bool :=
  decide (33 ≤ c ∧ c ≤ 126)

/-- `"\\%03o"` -/
def octal (c : UInt8) : List UInt8 :=
  [92, 48 + c / 64, 48 + c / 8 % 8, 48 + c % 8]

/-- The loop over the bytes of a label: where it ends, or nothing where the buffer has no room. -/
def printLabel : Nat → Nat → Nat → List UInt8 → Option (Option (Nat × Nat) × List UInt8)
  | 0, i, j, str => some (some (i, j), str)
  | lb + 1, i, j, str =>
      if size ≤ j + 2 then some (none, str)
      else do
        let c ← rhn[i]?
        if isgraph c then
          if c = 46 ∨ c = 92 ∨ c = 34 then
            let str ← store str j [92]
            if size ≤ j + 1 + 2 then some (none, str)
            else
              let str ← store str (j + 1) [c]
              printLabel lb (i + 1) (j + 2) str
          else
            let str ← store str j [c]
            printLabel lb (i + 1) (j + 1) str
        else
          -- `snprintf` cuts what does not fit, and closes it with a null byte
          let str ← store str j ((octal c).take (size - 1 - j - 1) ++ [0])
          if size - 1 - j ≤ (octal c).length then
            let str ← store str j [46]
            some (none, str)
          else printLabel lb (i + 1) (j + (octal c).length) str

/-- The end of `rhn2str` at the label `overflow`. -/
def overflow (str : List UInt8) : Option (List UInt8) := do
  let str ← store str (size - 1) [0]
  let dots := min 3 (size - 1)
  store str (size - 1 - dots) (List.replicate dots 46)

/-- The loop over the labels of `rhn2str`. -/
def printLabels : Nat → UInt8 → Nat → Nat → List UInt8 → Option (List UInt8)
  | 0, _, _, _, _ => none
  | n + 1, lb, i, j, str => do
      match ← printLabel rhn size lb.toNat i j str with
      | (none, str) => overflow size str
      | (some (i, j), str) =>
          let str ← store str j [46]
          let lb ← rhn[i]?
          if lb = 0 then store str (j + 1) [0]
          else printLabels n lb (i + 1) (j + 1) str

/-- `rhn2str`: nothing where it returns the null pointer, else the buffer. -/
def rhn2str (str : List UInt8) : Option (Option (List UInt8)) :=
  if size = 0 then some none
  else do
    let lb ← rhn[0]?
    if lb = 0 then
      if 2 ≤ size then
        let str ← store str 0 [46]
        let str ← store str 1 [0]
        some (some str)
      else
        let str ← store str 0 [0]
        some (some str)
    else
      let str ← printLabels rhn size rhn.length lb 1 0 str
      some (some str)

end Printing

/-- The text of some labels, each followed by a dot. -/
def dottedText (ls : List (List UInt8)) : List UInt8 :=
  ls.flatMap fun l => l ++ [46]

/-- The labels, each with its length byte. -/
def labelBytes (ls : List (List UInt8)) : List UInt8 :=
  ls.flatMap fun l => UInt8.ofNat l.length :: l

@[simp]
theorem dottedText_nil : dottedText [] = [] := rfl

theorem dottedText_cons (l : List UInt8) (ls : List (List UInt8)) :
    dottedText (l :: ls) = l ++ 46 :: dottedText ls := by
  rw [dottedText, List.flatMap_cons, List.append_assoc]
  rfl

theorem dottedText_singleton (l : List UInt8) : dottedText [l] = l ++ [46] := by
  rw [dottedText_cons, dottedText_nil]

@[simp]
theorem labelBytes_nil : labelBytes [] = [] := rfl

theorem labelBytes_cons (l : List UInt8) (ls : List (List UInt8)) :
    labelBytes (l :: ls) = UInt8.ofNat l.length :: (l ++ labelBytes ls) := rfl

/-- The text is a dot, or labels of 1 to 63 bytes that are each followed by a dot, in 255 bytes
at most. -/
def IsDotted (s : List UInt8) : Prop :=
  s = [46] ∨ ∃ ls, ls ≠ [] ∧ (∀ l ∈ ls, 46 ∉ l ∧ 0 < l.length ∧ l.length ≤ 63) ∧
    s = dottedText ls ∧ s.length ≤ 255

section Elements

variable {front e back pre : List UInt8} {test : Nat → Option Bool} {jlim n : Nat}

/-- The bytes of an element come to the buffer one after the other. -/
theorem copyElement_ends {w post : List UInt8} (hpre : pre.length = front.length + 1)
    (hw : w.length = e.length) (htest : ∀ k < e.length, test (front.length + k) = some true)
    (hend : test (front.length + e.length) = some false)
    (hlim : e = [] ∨ front.length + e.length ≤ jlim) (hn : e.length < n) :
    copyElement (front ++ (e ++ back)) test jlim n front.length (pre ++ (w ++ post)) =
      some (some (front.length + e.length), pre ++ (e ++ post)) := by
  induction e generalizing front pre w n with
  | nil =>
      obtain ⟨n, rfl⟩ := Nat.exists_eq_succ_of_ne_zero (Nat.ne_zero_of_lt hn)
      obtain rfl : w = [] := List.eq_nil_of_length_eq_zero hw
      rw [copyElement, show test front.length = some false from hend]
      rfl
  | cons c e ih =>
      obtain ⟨n, rfl⟩ := Nat.exists_eq_succ_of_ne_zero (Nat.ne_zero_of_lt hn)
      obtain ⟨y, w, rfl⟩ := List.exists_cons_of_length_eq_add_one hw
      have hlim : front.length + (c :: e).length ≤ jlim := hlim.resolve_left (List.cons_ne_nil _ _)
      simp only [List.length_cons] at hw hn hlim hend
      have hbyte : (front ++ (c :: e ++ back))[front.length]? = some c := by simp
      have hstore : store (pre ++ (y :: w ++ post)) (front.length + 1) [c] =
          some (pre ++ [c] ++ (w ++ post)) := by
        rw [← hpre]
        simpa using @store_append _ [y] [c] rfl pre (w ++ post)
      have hfront : (front ++ [c]).length = front.length + 1 := List.length_append
      rw [copyElement, show test front.length = some true from htest 0 (Nat.succ_pos _)]
      simp only [Option.bind_eq_bind, Option.bind_some, if_true,
        if_neg (show ¬jlim ≤ front.length by
        omega), hbyte, hstore]
      have hih := @ih (front ++ [c]) (pre ++ [c]) n w (by simp [hpre]) (by omega)
        (fun k hk => by
          rw [hfront, Nat.add_assoc, Nat.add_comm 1 k]
          exact htest (k + 1) (Nat.succ_lt_succ hk))
        (by rwa [hfront, Nat.add_assoc, Nat.add_comm 1])
        (Or.inr (by omega)) (by omega)
      rw [hfront] at hih
      simpa [Nat.add_assoc, Nat.add_comm 1] using hih

/-- An element that goes beyond its limit is refused. -/
theorem copyElement_long {rhn : List UInt8} (hroom : jlim < rhn.length)
    (htest : ∀ k < e.length, test (front.length + k) = some true) (he : e ≠ [])
    (hlim : jlim < front.length + e.length) (hn : e.length < n) :
    ∃ out, copyElement (front ++ (e ++ back)) test jlim n front.length rhn = some (none, out) ∧
      out.length = rhn.length := by
  induction e generalizing front rhn n with
  | nil => exact absurd rfl he
  | cons c e ih =>
      obtain ⟨n, rfl⟩ := Nat.exists_eq_succ_of_ne_zero (Nat.ne_zero_of_lt hn)
      rw [List.length_cons] at hn hlim
      have hbyte : (front ++ (c :: e ++ back))[front.length]? = some c := by simp
      rw [copyElement, show test front.length = some true from htest 0 (Nat.succ_pos _)]
      simp only [Option.bind_eq_bind, Option.bind_some, if_true, hbyte]
      by_cases hj : jlim ≤ front.length
      · rw [if_pos hj]
        exact ⟨rhn, rfl, rfl⟩
      · rw [if_neg hj]
        obtain ⟨out, hstore⟩ : ∃ out, store rhn (front.length + 1) [c] = some out :=
          ⟨_, if_pos (by rw [List.length_singleton]; omega)⟩
        have hfront : (front ++ [c]).length = front.length + 1 := List.length_append
        have hlen := length_store hstore
        have hne : e ≠ [] := List.ne_nil_of_length_pos (by omega)
        obtain ⟨last, hlast, hlength⟩ := @ih (front ++ [c]) n out (by omega)
          (fun k hk => by
            rw [hfront, Nat.add_assoc, Nat.add_comm 1 k]
            exact htest (k + 1) (Nat.succ_lt_succ hk))
          hne (by omega) (by omega)
        refine ⟨last, ?_, hlength.trans hlen⟩
        rw [hstore]
        rw [hfront] at hlast
        simpa using hlast

theorem copyElement_step {post : List UInt8} (hpre : pre.length = front.length)
    (hi : front.length ≤ 255) (hbuf : (pre ++ post).length = 256)
    (htest : ∀ k < e.length, test (front.length + k) = some true)
    (hend : test (front.length + e.length) = some false) (hn : e.length < n) :
    (e = [] ∨ front.length + e.length ≤ elementLimit front.length) ∧
        (∃ x post', copyElement (front ++ (e ++ back)) test (elementLimit front.length) n
            front.length (pre ++ post) =
          some (some (front.length + e.length), pre ++ x :: (e ++ post')) ∧
            (pre ++ x :: (e ++ post')).length = 256) ∨
      (e ≠ [] ∧ elementLimit front.length < front.length + e.length) ∧
        ∃ out, copyElement (front ++ (e ++ back)) test (elementLimit front.length) n
            front.length (pre ++ post) = some (none, out) ∧ out.length = 256 := by
  have hlow : elementLimit front.length ≤ 254 := Nat.min_le_right _ _
  by_cases hlim : e = [] ∨ front.length + e.length ≤ elementLimit front.length
  · refine Or.inl ⟨hlim, ?_⟩
    have hroom : e.length + 1 ≤ post.length := by
      rw [List.length_append] at hbuf
      obtain rfl | hlim := hlim
      · rw [List.length_nil]
        omega
      · omega
    obtain ⟨x, post, rfl⟩ :=
      List.exists_cons_of_length_pos (Nat.lt_of_lt_of_le (Nat.succ_pos _) hroom)
    have hw : (post.take e.length).length = e.length :=
      List.length_take_of_le (Nat.le_of_succ_le_succ hroom)
    have hcopy := @copyElement_ends front e back (pre ++ [x]) test (elementLimit front.length) n
      (post.take e.length) (post.drop e.length) (by simp [hpre]) hw htest hend hlim hn
    rw [List.take_append_drop, ← List.append_cons, ← List.append_cons] at hcopy
    refine ⟨x, post.drop e.length, hcopy, ?_⟩
    rw [← hbuf]
    simp only [List.length_append, List.length_cons, List.length_drop]
    rw [List.length_cons] at hroom
    omega
  · rw [not_or, Nat.not_le] at hlim
    refine Or.inr ⟨hlim, ?_⟩
    rw [← hbuf]
    exact copyElement_long (by omega) htest hlim.1 hlim.2 hn

theorem elementLimit_le_iff {i k : Nat} (hk : 0 < k) :
    i + k ≤ elementLimit i ↔ k ≤ 63 ∧ i + (k + 1) ≤ 255 := by
  rw [elementLimit, dnsNameBufSize]
  omega

end Elements

section Loops

theorem byte_behind (front e back : List UInt8) (c : UInt8) :
    (front ++ (e ++ c :: back))[front.length + e.length]? = some c := by
  rw [← List.length_append, ← List.append_assoc, List.getElem?_append_right (Nat.le_refl _),
    Nat.sub_self]
  rfl

/-- The byte behind an element ends it, and no byte of it does. -/
theorem inElement_element {front e back : List UInt8} {c : UInt8} (he : 0 ∉ e ∧ 46 ∉ e)
    (hc : c = 0 ∨ c = 46) :
    (∀ k < e.length, inElement (front ++ (e ++ c :: back)) (front.length + k) = some true) ∧
      inElement (front ++ (e ++ c :: back)) (front.length + e.length) = some false := by
  constructor
  · intro k hk
    have hbyte : (front ++ (e ++ c :: back))[front.length + k]? = some e[k] := by
      rw [List.getElem?_append_right (Nat.le_add_right _ _), Nat.add_sub_cancel_left,
        List.getElem?_append_left hk, List.getElem?_eq_getElem hk]
    rw [inElement, hbyte, Option.bind_eq_bind, Option.bind_some,
      decide_eq_true ⟨ne_of_mem_of_not_mem (List.getElem_mem hk) he.1,
        ne_of_mem_of_not_mem (List.getElem_mem hk) he.2⟩]
  · rw [inElement, byte_behind, Option.bind_eq_bind, Option.bind_some, decide_eq_false]
    rintro ⟨hnull, hdot⟩
    exact hc.elim hnull hdot

/-- Up to the end of the string the two tests agree. -/
theorem inElementBefore_eq {s : List UInt8} {j : Nat} (hj : j ≤ s.length) :
    inElementBefore (s ++ [0]) s.length j = inElement (s ++ [0]) j := by
  obtain hj | rfl := Nat.lt_or_eq_of_le hj
  · rw [inElementBefore, if_pos hj]
  · rw [inElementBefore, if_neg (Nat.lt_irrefl _), inElement, List.getElem?_concat_length]
    rfl

/-- Labels that have room behind the first `i` bytes of a text. -/
def FitsFrom (i : Nat) (ls : List (List UInt8)) : Prop :=
  (∀ l ∈ ls, 0 < l.length ∧ l.length ≤ 63) ∧ i + (dottedText ls).length ≤ 255 ∧
    i + (dottedText ls).length ≠ 0

theorem fitsFrom_nil {i : Nat} (hi : i ≤ 255) : FitsFrom i [] ↔ i ≠ 0 :=
  ⟨fun h => h.2.2, fun h => ⟨List.forall_mem_nil _, hi, h⟩⟩

theorem not_fitsFrom_empty (i : Nat) (ls : List (List UInt8)) : ¬FitsFrom i ([] :: ls) :=
  fun h => absurd (h.1 [] List.mem_cons_self).1 (Nat.lt_irrefl 0)

theorem fitsFrom_cons {i : Nat} {l : List UInt8} {ls : List (List UInt8)} (hl : l ≠ []) :
    FitsFrom i (l :: ls) ↔
      i + l.length ≤ elementLimit i ∧ FitsFrom (i + l.length + 1) ls := by
  have hpos := List.length_pos_of_ne_nil hl
  rw [elementLimit_le_iff hpos, FitsFrom, FitsFrom, List.forall_mem_cons, dottedText_cons,
    List.length_append, List.length_cons]
  constructor
  · rintro ⟨⟨hfirst, hall⟩, hroom, -⟩
    exact ⟨⟨hfirst.2, by omega⟩, hall, by omega, by omega⟩
  · rintro ⟨⟨hshort, -⟩, hall, hroom, -⟩
    exact ⟨⟨⟨hpos, hshort⟩, hall⟩, by omega, by omega⟩

theorem store_cons {front pre post : List UInt8} {x : UInt8} (hpre : pre.length = front.length)
    (b : UInt8) : store (pre ++ x :: post) front.length [b] = some (pre ++ b :: post) := by
  rw [← hpre]
  simpa using @store_append _ [x] [b] rfl pre post

variable {ls : List (List UInt8)} {rest : List UInt8}

/-- `str2rhn` on a text that is split at its dots. -/
theorem str2rhnLoop_text (hls : ∀ l ∈ ls, 0 ∉ l ∧ 46 ∉ l) (hrest : 0 ∉ rest ∧ 46 ∉ rest)
    {front pre post : List UInt8} {n : Nat} (hpre : pre.length = front.length)
    (hi : front.length ≤ 255) (hbuf : (pre ++ post).length = 256) (hn : ls.length < n) :
    ∃ ok out, str2rhnLoop (front ++ (dottedText ls ++ (rest ++ [0]))) n front.length (pre ++ post) =
        some (ok, out) ∧ out.length = 256 ∧
      (ok = true ↔ rest = [] ∧ FitsFrom front.length ls) ∧
      (ok = true → ∃ post', out = pre ++ (labelBytes ls ++ 0 :: post')) := by
  induction ls generalizing front pre post n with
  | nil =>
      obtain ⟨n, rfl⟩ := Nat.exists_eq_succ_of_ne_zero (Nat.ne_zero_of_lt hn)
      rw [dottedText_nil, List.nil_append, str2rhnLoop]
      obtain ⟨htest, hend⟩ := @inElement_element front rest [] 0 hrest (Or.inl rfl)
      obtain ⟨-, x, post', hcopy, hlen⟩ | ⟨⟨hne, -⟩, out, hcopy, hlen⟩ :=
        @copyElement_step front rest [0] pre _ ((front ++ (rest ++ [0])).length + 1) post hpre hi
          hbuf htest hend (by simp only [List.length_append]; omega)
      · rw [hcopy]
        simp only [Option.bind_eq_bind, Option.bind_some, byte_behind, if_true, store_cons hpre]
        refine ⟨_, _, rfl, ?_, ?_, ?_⟩
        · rw [← hlen]
          simp
        · rw [decide_eq_true_iff, fitsFrom_nil hi, not_or, Nat.not_lt,
            ← List.length_eq_zero_iff]
          exact and_congr_left' ⟨fun h => by omega, fun h => by omega⟩
        · intro hok
          rw [decide_eq_true_iff, not_or, Nat.not_lt] at hok
          obtain rfl : rest = [] := List.eq_nil_of_length_eq_zero (by omega)
          exact ⟨post', rfl⟩
      · rw [hcopy]
        exact ⟨false, out, rfl, hlen, iff_of_false Bool.false_ne_true fun h => hne h.1,
          fun h => absurd h Bool.false_ne_true⟩
  | cons l ls ih =>
      rw [List.forall_mem_cons] at hls
      obtain ⟨n, rfl⟩ := Nat.exists_eq_succ_of_ne_zero (Nat.ne_zero_of_lt hn)
      rw [List.length_cons] at hn
      rw [dottedText_cons, List.append_assoc, List.cons_append, str2rhnLoop]
      obtain ⟨htest, hend⟩ := @inElement_element front l (dottedText ls ++ (rest ++ [0])) 46 hls.1
        (Or.inr rfl)
      obtain ⟨hlim, x, post', hcopy, hlen⟩ | ⟨⟨hne, hlong⟩, out, hcopy, hlen⟩ :=
        @copyElement_step front l (46 :: (dottedText ls ++ (rest ++ [0]))) pre _
          ((front ++ (l ++ 46 :: (dottedText ls ++ (rest ++ [0])))).length + 1) post hpre hi
          hbuf htest hend (by simp only [List.length_append]; omega)
      · rw [hcopy]
        simp only [Option.bind_eq_bind, Option.bind_some, byte_behind,
          if_neg (show ¬(46 : UInt8) = 0 by decide)]
        by_cases hl : l = []
        · subst hl
          rw [if_pos (show front.length + ([] : List UInt8).length ≤
            front.length from Nat.le_refl _)]
          exact ⟨false, _, rfl, hlen,
            iff_of_false Bool.false_ne_true fun h => not_fitsFrom_empty _ _ h.2,
            fun h => absurd h Bool.false_ne_true⟩
        · have hpos := List.length_pos_of_ne_nil hl
          have hlim := hlim.resolve_left hl
          have hfront : (front ++ (l ++ [46])).length = front.length + l.length + 1 := by
            simp [Nat.add_assoc]
          rw [if_neg (show ¬front.length + l.length ≤ front.length by omega), store_cons hpre,
            Option.bind_some, Nat.add_sub_cancel_left]
          have hshort := (elementLimit_le_iff hpos).mp hlim
          obtain ⟨ok, out, hrun, hsize, hok, hbytes⟩ := @ih hls.2 (front ++ (l ++ [46]))
            (pre ++ UInt8.ofNat l.length :: l) post' n (by simp [hpre]) (by omega)
            (by simpa using hlen) (by omega)
          have htext : front ++ (l ++ [46]) ++ (dottedText ls ++ (rest ++ [0])) =
              front ++ (l ++ 46 :: (dottedText ls ++ (rest ++ [0]))) := by simp
          rw [htext, hfront] at hrun
          rw [hfront] at hok
          refine ⟨ok, out, ?_, hsize, ?_, ?_⟩
          · rw [← hrun]
            simp
          · rw [hok, fitsFrom_cons hl, and_iff_right hlim]
          · intro h
            obtain ⟨post'', rfl⟩ := hbytes h
            exact ⟨post'', by simp [labelBytes_cons]⟩
      · rw [hcopy]
        refine ⟨false, out, rfl, hlen, iff_of_false Bool.false_ne_true fun h => ?_,
          fun h => absurd h Bool.false_ne_true⟩
        exact absurd ((fitsFrom_cons hne).mp h.2).1 (Nat.not_le.mpr hlong)

theorem inElementBefore_element {s front e back : List UInt8} {c : UInt8}
    (hs : s ++ [0] = front ++ (e ++ c :: back)) (he : 0 ∉ e ∧ 46 ∉ e) (hc : c = 0 ∨ c = 46) :
    (∀ k < e.length, inElementBefore (s ++ [0]) s.length (front.length + k) = some true) ∧
      inElementBefore (s ++ [0]) s.length (front.length + e.length) = some false := by
  have hlen : front.length + e.length ≤ s.length := by
    have := congrArg List.length hs
    simp only [List.length_append, List.length_cons, List.length_nil] at this
    omega
  obtain ⟨htest, hend⟩ := @inElement_element front e back c he hc
  constructor
  · intro k hk
    rw [inElementBefore_eq (by omega), hs]
    exact htest k hk
  · rw [inElementBefore_eq hlen, hs]
    exact hend

theorem closeElements_eq {front pre post : List UInt8} {x : UInt8}
    (hpre : pre.length = front.length) :
    closeElements front.length (pre ++ x :: post) =
      some (if front.length = 0 then some "Empty domain name not allowed" else none,
        pre ++ 0 :: post) := by
  rw [closeElements, store_cons hpre]
  rfl

/-- The label that stands behind the last dot. -/
def lastLabel (rest : List UInt8) : List (List UInt8) :=
  if rest = [] then [] else [rest]

/-- `parsestr2rhn` on the last element of a text. -/
theorem parsestr2rhnLoop_last (hrest : 0 ∉ rest ∧ 46 ∉ rest) {s front pre post : List UInt8}
    {n : Nat} (hs : s = front ++ rest) (hpre : pre.length = front.length)
    (hi : front.length ≤ 255) (hbuf : (pre ++ post).length = 256) :
    ∃ err out, parsestr2rhnLoop (s ++ [0]) s.length (n + 1) front.length (pre ++ post) =
        some (err, out) ∧ out.length = 256 ∧
      (err = none ↔ FitsFrom front.length (lastLabel rest)) ∧
      (err = none → ∃ post', out = pre ++ (labelBytes (lastLabel rest) ++ 0 :: post')) := by
  have hstr : s ++ [0] = front ++ (rest ++ [0]) := by rw [hs, List.append_assoc]
  have hslen : s.length = front.length + rest.length := by rw [hs, List.length_append]
  obtain ⟨htest, hend⟩ := inElementBefore_element hstr hrest (Or.inl rfl)
  have hstop : inStringBefore (s ++ [0]) s.length (front.length + rest.length) = some false := by
    rw [inStringBefore, if_neg (by omega)]
  rw [parsestr2rhnLoop]
  obtain ⟨hlim, x, post', hcopy, hlen⟩ | ⟨⟨hne, hlong⟩, out, hcopy, hlen⟩ :=
    @copyElement_step front rest [0] pre _ ((s ++ [0]).length + 1) post hpre hi hbuf htest hend
      (by rw [List.length_append]; omega)
  · rw [← hstr] at hcopy
    rw [hcopy]
    simp only [Option.bind_eq_bind, Option.bind_some, hstop]
    by_cases hrest : rest = []
    · subst hrest
      rw [if_pos (show front.length + ([] : List UInt8).length ≤ front.length from Nat.le_refl _)]
      simp only [Bool.false_eq_true, if_false, closeElements_eq hpre]
      refine ⟨_, _, rfl, ?_, ?_, fun _ => ⟨post', rfl⟩⟩
      · rw [← hlen]
        simp
      · rw [lastLabel, if_pos rfl, fitsFrom_nil hi]
        split_ifs with hzero <;> simp [hzero]
    · have hpos := List.length_pos_of_ne_nil hrest
      have hlim := hlim.resolve_left hrest
      have hshort := (elementLimit_le_iff hpos).mp hlim
      rw [if_neg (show ¬front.length + rest.length ≤ front.length by omega), store_cons hpre,
        Option.bind_some, Nat.add_sub_cancel_left]
      have hfront : (front ++ (rest ++ [46])).length = front.length + rest.length + 1 := by
        simp [Nat.add_assoc]
      obtain ⟨y, post', rfl⟩ : ∃ y post'', post' = y :: post'' := by
        refine List.exists_cons_of_length_pos ?_
        simp only [List.length_append, List.length_cons] at hlen
        omega
      have hclose := @closeElements_eq (front ++ (rest ++ [46]))
        (pre ++ UInt8.ofNat rest.length :: rest) post' y (by simp [hpre])
      rw [hfront, if_neg (Nat.succ_ne_zero _)] at hclose
      simp only [Bool.false_eq_true, if_false]
      refine ⟨none, _, by simpa using hclose, ?_, ?_, fun _ => ⟨post', ?_⟩⟩
      · rw [← hlen]
        simp
      · rw [lastLabel, if_neg hrest, fitsFrom_cons hrest, fitsFrom_nil (by omega)]
        exact iff_of_true rfl ⟨hlim, Nat.succ_ne_zero _⟩
      · rw [lastLabel, if_neg hrest]
        simp [labelBytes_cons]
  · rw [← hstr] at hcopy
    rw [hcopy]
    refine ⟨_, out, rfl, hlen, iff_of_false (Option.some_ne_none _) fun h => ?_,
      fun h => absurd h (Option.some_ne_none _)⟩
    rw [lastLabel, if_neg hne] at h
    exact absurd ((fitsFrom_cons hne).mp h).1 (Nat.not_le.mpr hlong)

theorem parsestr2rhnLoop_text (hls : ∀ l ∈ ls, 0 ∉ l ∧ 46 ∉ l) (hrest : 0 ∉ rest ∧ 46 ∉ rest)
    {s front pre post : List UInt8} {n : Nat} (hs : s = front ++ (dottedText ls ++ rest))
    (hpre : pre.length = front.length) (hi : front.length ≤ 255)
    (hbuf : (pre ++ post).length = 256) (hn : ls.length < n) :
    ∃ err out, parsestr2rhnLoop (s ++ [0]) s.length n front.length (pre ++ post) =
        some (err, out) ∧ out.length = 256 ∧
      (err = none ↔ FitsFrom front.length (ls ++ lastLabel rest)) ∧
      (err = none → ∃ post', out = pre ++ (labelBytes (ls ++ lastLabel rest) ++ 0 :: post')) := by
  induction ls generalizing front pre post n with
  | nil =>
      obtain ⟨n, rfl⟩ := Nat.exists_eq_succ_of_ne_zero (Nat.ne_zero_of_lt hn)
      exact parsestr2rhnLoop_last hrest hs hpre hi hbuf
  | cons l ls ih =>
      rw [List.forall_mem_cons] at hls
      obtain ⟨n, rfl⟩ := Nat.exists_eq_succ_of_ne_zero (Nat.ne_zero_of_lt hn)
      rw [List.length_cons] at hn
      rw [dottedText_cons, List.append_assoc, List.cons_append] at hs
      have hstr : s ++ [0] = front ++ (l ++ 46 :: (dottedText ls ++ rest ++ [0])) := by simp [hs]
      have hslen : front.length + l.length < s.length := by
        rw [hs]
        simp only [List.length_append, List.length_cons]
        omega
      obtain ⟨htest, hend⟩ := inElementBefore_element hstr hls.1 (Or.inr rfl)
      have hgo : inStringBefore (s ++ [0]) s.length (front.length + l.length) = some true := by
        rw [inStringBefore, if_pos hslen, hstr, byte_behind]
        rfl
      rw [parsestr2rhnLoop]
      obtain ⟨hlim, x, post', hcopy, hlen⟩ | ⟨⟨hne, hlong⟩, out, hcopy, hlen⟩ :=
        @copyElement_step front l (46 :: (dottedText ls ++ rest ++ [0])) pre _
          ((s ++ [0]).length + 1) post hpre hi hbuf htest hend
          (by rw [List.length_append]; omega)
      · rw [← hstr] at hcopy
        rw [hcopy]
        simp only [Option.bind_eq_bind, Option.bind_some, hgo]
        by_cases hl : l = []
        · subst hl
          rw [if_pos (show front.length + ([] : List UInt8).length ≤
            front.length from Nat.le_refl _)]
          exact ⟨_, _, rfl, hlen,
            iff_of_false (Option.some_ne_none _) fun h => not_fitsFrom_empty _ _ h,
            fun h => absurd h (Option.some_ne_none _)⟩
        · have hpos := List.length_pos_of_ne_nil hl
          have hlim := hlim.resolve_left hl
          have hshort := (elementLimit_le_iff hpos).mp hlim
          have hfront : (front ++ (l ++ [46])).length = front.length + l.length + 1 := by
            simp [Nat.add_assoc]
          rw [if_neg (show ¬front.length + l.length ≤ front.length by omega), store_cons hpre,
            Option.bind_some, Nat.add_sub_cancel_left]
          obtain ⟨err, out, hrun, hsize, herr, hbytes⟩ := @ih hls.2 (front ++ (l ++ [46]))
            (pre ++ UInt8.ofNat l.length :: l) post' n (by simp [hs]) (by simp [hpre]) (by omega)
            (by simpa using hlen) (by omega)
          rw [hfront] at hrun herr
          refine ⟨err, out, ?_, hsize, ?_, ?_⟩
          · rw [← hrun]
            simp
          · rw [herr, List.cons_append, fitsFrom_cons hl, and_iff_right hlim]
          · intro h
            obtain ⟨post'', rfl⟩ := hbytes h
            exact ⟨post'', by simp [labelBytes_cons]⟩
      · rw [← hstr] at hcopy
        rw [hcopy]
        refine ⟨_, out, rfl, hlen, iff_of_false (Option.some_ne_none _) fun h => ?_,
          fun h => absurd h (Option.some_ne_none _)⟩
        exact absurd ((fitsFrom_cons hne).mp h).1 (Nat.not_le.mpr hlong)

end Loops

section Splitting

variable {s : List UInt8} {ls : List (List UInt8)} {rest : List UInt8}

theorem dottedText_append (ls ls' : List (List UInt8)) :
    dottedText (ls ++ ls') = dottedText ls ++ dottedText ls' :=
  List.flatMap_append

theorem exists_dottedText (s : List UInt8) :
    ∃ ls rest, (∀ l ∈ ls, 46 ∉ l) ∧ 46 ∉ rest ∧ s = dottedText ls ++ rest := by
  induction s with
  | nil => exact ⟨[], [], List.forall_mem_nil _, List.not_mem_nil, rfl⟩
  | cons c s ih =>
      obtain ⟨ls, rest, hls, hrest, rfl⟩ := ih
      by_cases hc : c = 46
      · subst hc
        exact ⟨[] :: ls, rest, List.forall_mem_cons.mpr ⟨List.not_mem_nil, hls⟩, hrest, rfl⟩
      · have hcons : ∀ l : List UInt8, 46 ∉ l → 46 ∉ c :: l := fun l hl h =>
          (List.mem_cons.mp h).elim (fun h => hc h.symm) hl
        obtain _ | ⟨l, ls⟩ := ls
        · exact ⟨[], c :: rest, List.forall_mem_nil _, hcons rest hrest, rfl⟩
        · rw [List.forall_mem_cons] at hls
          exact ⟨(c :: l) :: ls, rest, List.forall_mem_cons.mpr ⟨hcons l hls.1, hls.2⟩, hrest, rfl⟩

theorem length_le_dottedText (ls : List (List UInt8)) : ls.length ≤ (dottedText ls).length := by
  induction ls with
  | nil => exact Nat.le_refl _
  | cons l ls ih =>
      rw [dottedText_cons, List.length_append, List.length_cons, List.length_cons]
      omega

theorem exists_split (h0 : 0 ∉ s) :
    ∃ ls rest, (∀ l ∈ ls, 0 ∉ l ∧ 46 ∉ l) ∧ (0 ∉ rest ∧ 46 ∉ rest) ∧ s = dottedText ls ++ rest ∧
      ls.length ≤ s.length := by
  obtain ⟨ls, rest, hls, hrest, rfl⟩ := exists_dottedText s
  rw [List.mem_append, not_or] at h0
  refine ⟨ls, rest, fun l hl => ⟨fun h => h0.1 ?_, hls l hl⟩, ⟨h0.2, hrest⟩, rfl, ?_⟩
  · exact List.mem_flatMap.mpr ⟨l, hl, List.mem_append_left _ h⟩
  · rw [List.length_append]
    exact Nat.le_add_right_of_le (length_le_dottedText ls)

theorem splitOnP_dottedText (hls : ∀ l ∈ ls, 46 ∉ l) (hrest : 46 ∉ rest) :
    (dottedText ls ++ rest).splitOnP (· == 46) = ls ++ [rest] := by
  have hfree : ∀ l : List UInt8, 46 ∉ l → ∀ x ∈ l, (x == 46) = false := fun l hl x hx =>
    beq_false_of_ne (ne_of_mem_of_not_mem hx hl)
  induction ls with
  | nil => exact List.splitOnP_eq_singleton (hfree rest hrest)
  | cons l ls ih =>
      rw [List.forall_mem_cons] at hls
      rw [dottedText_cons, List.append_assoc, List.cons_append,
        List.splitOnP_append_cons_of_forall_mem (hfree l hls.1) 46 (by decide), ih hls.2]
      rfl

theorem isDotted_iff (hls : ∀ l ∈ ls, 46 ∉ l) (hrest : 46 ∉ rest) (hs : s = dottedText ls ++ rest)
    (hroot : s ≠ [46]) : IsDotted s ↔ rest = [] ∧ FitsFrom 0 ls := by
  constructor
  · rintro (h | ⟨ms, hne, hms, hdots, hlen⟩)
    · exact absurd h hroot
    · have hsplit := splitOnP_dottedText hls hrest
      rw [← hs, hdots, ← List.append_nil (dottedText ms),
        splitOnP_dottedText (fun l hl => (hms l hl).1) List.not_mem_nil] at hsplit
      obtain ⟨rfl, h⟩ := List.append_inj' hsplit rfl
      obtain rfl : rest = [] := (List.cons.inj h).1.symm
      obtain ⟨m, ms, rfl⟩ := List.exists_cons_of_ne_nil hne
      rw [hdots] at hlen
      refine ⟨rfl, fun l hl => (hms l hl).2, by omega, ?_⟩
      rw [dottedText_cons, List.length_append, List.length_cons]
      omega
  · rintro ⟨rfl, hall, hroom, hpos⟩
    rw [List.append_nil] at hs
    refine Or.inr ⟨ls, ?_, fun l hl => ⟨hls l hl, hall l hl⟩, hs, by rw [hs]; omega⟩
    rintro rfl
    exact hpos rfl

/-- The texts that may do without their last dot. -/
theorem isDotted_or_iff (hls : ∀ l ∈ ls, 46 ∉ l) (hrest : 46 ∉ rest)
    (hs : s = dottedText ls ++ rest) (hroot : s ≠ [46]) :
    (IsDotted s ∨ (s ≠ [] ∧ IsDotted (s ++ [46]))) ↔ FitsFrom 0 (ls ++ lastLabel rest) := by
  have hdot : s ++ [46] = dottedText (ls ++ [rest]) ++ [] := by
    rw [hs, dottedText_append, dottedText_singleton, List.append_nil, List.append_assoc]
  have hall : ∀ l ∈ ls ++ [rest], 46 ∉ l := by
    intro l hl
    obtain hl | hl := List.mem_append.mp hl
    · exact hls l hl
    · exact List.mem_singleton.mp hl ▸ hrest
  have hwith : s ≠ [] → (IsDotted (s ++ [46]) ↔ FitsFrom 0 (ls ++ [rest])) := by
    intro hne
    rw [isDotted_iff hall List.not_mem_nil hdot fun h => hne (List.append_cancel_right h)]
    exact and_iff_right rfl
  rw [isDotted_iff hls hrest hs hroot, lastLabel]
  split_ifs with hempty
  · rw [List.append_nil, and_iff_right hempty]
    refine or_iff_left ?_
    rintro ⟨hne, h⟩
    have hfits := ((hwith hne).mp h).1 rest (List.mem_append_right _ List.mem_cons_self)
    rw [hempty] at hfits
    exact absurd hfits.1 (Nat.lt_irrefl 0)
  · have hne : s ≠ [] := by
      rw [hs]
      exact List.append_ne_nil_of_right_ne_nil _ hempty
    rw [or_iff_right fun h => hempty h.1, and_iff_right hne, hwith hne]

theorem isRootText_eq (hs : 0 ∉ s) : isRootText (s ++ [0]) = some (decide (s = [46])) := by
  obtain _ | ⟨c, s⟩ := s
  · rfl
  · rw [isRootText, List.cons_append, List.getElem?_cons_zero, Option.bind_eq_bind,
      Option.bind_some]
    by_cases hc : c = 46
    · subst hc
      obtain _ | ⟨d, s⟩ := s
      · rfl
      · have hd : d ≠ 0 := fun h => hs (h ▸ List.mem_cons_of_mem _ List.mem_cons_self)
        simp [hd]
    · simp [hc]

theorem isRootTextBefore_eq (hs : 0 ∉ s) :
    isRootTextBefore (s ++ [0]) s.length = some (decide (s = [46])) := by
  rw [← isRootText_eq hs]
  obtain _ | ⟨c, _ | ⟨d, s⟩⟩ := s
  · rfl
  · simp [isRootTextBefore, isRootText]
  · simp [isRootTextBefore, isRootText]

end Splitting

section Plain

/-- Bytes that are printed as they are. -/
def IsPlain (c : UInt8) : Prop :=
  isgraph c = true ∧ c ≠ 46 ∧ c ≠ 92 ∧ c ≠ 34

variable {size : Nat} {ls : List (List UInt8)} {l : List UInt8}

theorem printLabel_plain {front back pre w post : List UInt8} (hl : ∀ c ∈ l, IsPlain c)
    (hw : w.length = l.length) (hroom : pre.length + l.length + 1 < size) :
    printLabel (front ++ (l ++ back)) size l.length front.length pre.length (pre ++ (w ++ post)) =
      some (some (front.length + l.length, pre.length + l.length), pre ++ (l ++ post)) := by
  induction l generalizing front pre w with
  | nil =>
      obtain rfl : w = [] := List.eq_nil_of_length_eq_zero hw
      rfl
  | cons c l ih =>
      obtain ⟨y, w, rfl⟩ := List.exists_cons_of_length_eq_add_one hw
      rw [List.forall_mem_cons] at hl
      obtain ⟨hgraph, hdot, hback, hquote⟩ := hl.1
      simp only [List.length_cons] at hw hroom
      have hbyte : (front ++ (c :: l ++ back))[front.length]? = some c := by simp
      have hstore : store (pre ++ (y :: w ++ post)) pre.length [c] =
          some (pre ++ [c] ++ (w ++ post)) := by
        simpa using @store_append _ [y] [c] rfl pre (w ++ post)
      have hih := @ih (front ++ [c]) (pre ++ [c]) w hl.2 (by omega) (by
        rw [List.length_append, List.length_singleton]
        omega)
      simp only [List.length_append, List.length_singleton, List.append_assoc,
        List.singleton_append] at hih
      rw [List.length_cons, printLabel, if_neg (by omega), hbyte, Option.bind_eq_bind,
        Option.bind_some, if_pos hgraph, if_neg (by simp [hdot, hback, hquote]), hstore,
        Option.bind_eq_bind, Option.bind_some]
      simpa [Nat.add_assoc, Nat.add_comm 1] using hih

theorem printLabels_label {front back pre post : List UInt8} {lb : UInt8} (n : Nat)
    (hlen : l.length ≤ 63) (hl : ∀ c ∈ l, IsPlain c) (hbuf : (pre ++ post).length = size)
    (hroom : pre.length + l.length + 1 < size) :
    ∃ post', (pre ++ (l ++ 46 :: post')).length = size ∧
      printLabels (front ++ (l ++ lb :: back)) size (n + 1) (UInt8.ofNat l.length) front.length
          pre.length (pre ++ post) =
        if lb = 0 then store (pre ++ (l ++ 46 :: post')) (pre.length + l.length + 1) [0]
        else printLabels (front ++ (l ++ lb :: back)) size n lb (front.length + l.length + 1)
          (pre.length + l.length + 1) (pre ++ (l ++ 46 :: post')) := by
  have hsize : (UInt8.ofNat l.length).toNat = l.length := by
    rw [UInt8.toNat_ofNat']
    omega
  rw [List.length_append] at hbuf
  obtain ⟨x, post', hpost⟩ : ∃ x post', post = post.take l.length ++ x :: post' := by
    obtain ⟨x, post', hdrop⟩ := List.exists_cons_of_length_pos
      (show 0 < (post.drop l.length).length by rw [List.length_drop]; omega)
    exact ⟨x, post', by rw [← hdrop, List.take_append_drop]⟩
  have htake : (post.take l.length).length = l.length := List.length_take_of_le (by omega)
  have hprint := @printLabel_plain size l front (lb :: back) pre (post.take l.length) (x :: post')
    hl htake hroom
  have hstore : store (pre ++ (l ++ x :: post')) (pre.length + l.length) [46] =
      some (pre ++ (l ++ 46 :: post')) := by
    simpa using @store_append _ [x] [46] rfl (pre ++ l) post'
  refine ⟨post', ?_, ?_⟩
  · have hlast := congrArg List.length hpost
    simp only [List.length_append, List.length_cons] at hlast ⊢
    omega
  · rw [printLabels, hsize, hpost, hprint]
    simp only [Option.bind_eq_bind, Option.bind_some, hstore, byte_behind]

theorem printLabels_plain {front back pre post : List UInt8} {n : Nat}
    (hall : ∀ x ∈ l :: ls, (0 < x.length ∧ x.length ≤ 63) ∧ ∀ c ∈ x, IsPlain c)
    (hbuf : (pre ++ post).length = size)
    (hroom : pre.length + (dottedText (l :: ls)).length < size) (hn : ls.length < n) :
    ∃ post', printLabels (front ++ (l ++ (labelBytes ls ++ 0 :: back))) size n
        (UInt8.ofNat l.length) front.length pre.length (pre ++ post) =
      some (pre ++ (dottedText (l :: ls) ++ 0 :: post')) := by
  induction ls generalizing l front pre post n with
  | nil =>
      obtain ⟨n, rfl⟩ := Nat.exists_eq_succ_of_ne_zero (Nat.ne_zero_of_lt hn)
      rw [List.forall_mem_cons] at hall
      rw [dottedText_cons, List.length_append, List.length_cons, dottedText_nil,
        List.length_nil] at hroom
      obtain ⟨post', hsize, hrun⟩ := @printLabels_label size l front back pre post 0 n hall.1.1.2
        hall.1.2 hbuf (by omega)
      obtain ⟨y, post', rfl⟩ : ∃ y post'', post' = y :: post'' := by
        refine List.exists_cons_of_length_pos ?_
        simp only [List.length_append, List.length_cons] at hsize
        omega
      have hstore : store (pre ++ (l ++ 46 :: y :: post')) (pre.length + l.length + 1) [0] =
          some (pre ++ (l ++ 46 :: 0 :: post')) := by
        have hend := @store_cons (pre ++ (l ++ [46])) (pre ++ (l ++ [46])) post' y rfl 0
        simp only [List.append_assoc, List.singleton_append, List.length_append,
          List.length_singleton] at hend
        exact hend
      refine ⟨post', ?_⟩
      rw [labelBytes_nil, List.nil_append, hrun, if_pos rfl, hstore, dottedText_singleton,
        List.append_assoc]
      rfl
  | cons m ls ih =>
      obtain ⟨n, rfl⟩ := Nat.exists_eq_succ_of_ne_zero (Nat.ne_zero_of_lt hn)
      rw [List.length_cons] at hn
      rw [List.forall_mem_cons] at hall
      rw [dottedText_cons, List.length_append, List.length_cons] at hroom
      have hm := (hall.2 m List.mem_cons_self).1
      have hbyte : UInt8.ofNat m.length ≠ 0 := by
        intro h
        have := congrArg UInt8.toNat h
        rw [UInt8.toNat_ofNat', UInt8.toNat_zero] at this
        omega
      obtain ⟨post', hsize, hrun⟩ := @printLabels_label size l front
        (m ++ (labelBytes ls ++ 0 :: back)) pre post (UInt8.ofNat m.length) n hall.1.1.2
        hall.1.2 hbuf (by omega)
      rw [if_neg hbyte] at hrun
      obtain ⟨last, hlast⟩ := @ih m (front ++ (l ++ [UInt8.ofNat m.length])) (pre ++ (l ++ [46]))
        post' n hall.2 (by simpa using hsize) (by
          simp only [List.length_append, List.length_singleton]
          omega) (by omega)
      refine ⟨last, ?_⟩
      rw [labelBytes_cons, List.cons_append, List.append_assoc, hrun, dottedText_cons]
      simpa [Nat.add_assoc] using hlast

/-- Labels of plain bytes are printed with a dot behind each. -/
theorem rhn2str_plain {back str : List UInt8} (hne : ls ≠ [])
    (hall : ∀ x ∈ ls, (0 < x.length ∧ x.length ≤ 63) ∧ ∀ c ∈ x, IsPlain c)
    (hstr : str.length = size) (hroom : (dottedText ls).length < size) :
    ∃ post', rhn2str (labelBytes ls ++ 0 :: back) size str =
      some (some (dottedText ls ++ 0 :: post')) := by
  obtain ⟨l, ls, rfl⟩ := List.exists_cons_of_ne_nil hne
  have hl := (hall l List.mem_cons_self).1
  have hbyte : UInt8.ofNat l.length ≠ 0 := by
    intro h
    have := congrArg UInt8.toNat h
    rw [UInt8.toNat_ofNat', UInt8.toNat_zero] at this
    omega
  have hfuel : ∀ ms : List (List UInt8), ms.length ≤ (labelBytes ms).length := by
    intro ms
    induction ms with
    | nil => exact Nat.le_refl _
    | cons m ms ih =>
        rw [labelBytes_cons, List.length_cons, List.length_cons, List.length_append]
        omega
  obtain ⟨post', hprint⟩ := @printLabels_plain size ls l [UInt8.ofNat l.length] back [] str
    (labelBytes (l :: ls) ++ 0 :: back).length hall hstr (by simpa using hroom) (by
      rw [labelBytes_cons]
      simp only [List.length_append, List.length_cons]
      have := hfuel ls
      omega)
  refine ⟨post', ?_⟩
  rw [rhn2str, if_neg (by omega), labelBytes_cons, List.cons_append, List.getElem?_cons_zero,
    Option.bind_eq_bind, Option.bind_some, if_neg hbyte, List.append_assoc]
  simp only [labelBytes_cons, List.cons_append, List.nil_append, List.append_assoc] at hprint
  exact congrArg (fun r => r.bind fun str => some (some str)) hprint

end Plain

section Conversion

variable {s t : List UInt8} {ls ms : List (List UInt8)}

theorem exists_name_wire (hls : ∀ l ∈ ls, 0 < l.length ∧ l.length ≤ 63)
    (hlen : (dottedText ls).length ≤ 255) :
    ∃ n : Name, n.Valid ∧ n.wire = labelBytes ls ++ [0] := by
  have hlength : ∀ ms : List (List UInt8), (labelBytes ms).length = (dottedText ms).length := by
    intro ms
    induction ms with
    | nil => rfl
    | cons m ms ih =>
        simp only [labelBytes_cons, dottedText_cons, List.length_cons, List.length_append, ih]
        omega
  obtain ⟨labels, rfl⟩ : ∃ labels : List Label, labels.map Label.bytes = ls := by
    clear hlen
    induction ls with
    | nil => exact ⟨[], rfl⟩
    | cons l ls ih =>
        rw [List.forall_mem_cons] at hls
        obtain ⟨labels, rfl⟩ := ih hls.2
        exact ⟨⟨l, hls.1.1, by omega⟩ :: labels, rfl⟩
  have hwire : Name.wire ⟨labels⟩ = labelBytes (labels.map Label.bytes) ++ [0] := by
    rw [Name.wire, labelBytes, List.flatMap_map]
    rfl
  refine ⟨⟨labels⟩, ⟨fun l hl => (hls _ (List.mem_map_of_mem hl)).2, ?_⟩, hwire⟩
  rw [hwire, List.length_append, hlength, List.length_singleton]
  omega

/-- The labels of a name with the given text. -/
def IsTextOf (ls : List (List UInt8)) (t : List UInt8) : Prop :=
  ls = [] ∧ t = [46] ∨ FitsFrom 0 ls ∧ (∀ l ∈ ls, 46 ∉ l) ∧ t = dottedText ls

theorem FitsFrom.ne_nil (h : FitsFrom 0 ls) : ls ≠ [] := by
  rintro rfl
  exact h.2.2 rfl

theorem FitsFrom.dottedText_ne_root (h : FitsFrom 0 ls) : dottedText ls ≠ [46] := by
  obtain ⟨l, ls, rfl⟩ := List.exists_cons_of_ne_nil h.ne_nil
  intro hroot
  have hlen := congrArg List.length hroot
  have hpos := (h.1 l List.mem_cons_self).1
  rw [dottedText_cons, List.length_append, List.length_cons, List.length_singleton] at hlen
  omega

/-- A name as it stands in memory, with at most so many labels. -/
def readLabels : Nat → List UInt8 → Option (List Label)
  | 0, _ => none
  | _ + 1, [] => none
  | n + 1, lb :: rhn =>
      if hzero : lb.toNat = 0 then some []
      else if hlen : lb.toNat ≤ rhn.length then
        (readLabels n (rhn.drop lb.toNat)).map fun ls =>
          ⟨rhn.take lb.toNat, by
            rw [List.length_take_of_le hlen]
            exact Nat.pos_of_ne_zero hzero, by
            rw [List.length_take_of_le hlen]
            exact Nat.le_of_lt_succ lb.toNat_lt⟩ :: ls
      else none

/-- The name that a buffer holds. -/
def Name.ofRhn (rhn : List UInt8) : Option Name :=
  (readLabels (rhn.length + 1) rhn).map Name.mk

theorem readLabels_wire {n : Nat} {labels : List Label} (hn : labels.length < n)
    (rest : List UInt8) : readLabels n (Name.wire ⟨labels⟩ ++ rest) = some labels := by
  induction labels generalizing n with
  | nil =>
      obtain ⟨n, rfl⟩ := Nat.exists_eq_succ_of_ne_zero (Nat.ne_zero_of_lt hn)
      rfl
  | cons l labels ih =>
      obtain ⟨n, rfl⟩ := Nat.exists_eq_succ_of_ne_zero (Nat.ne_zero_of_lt hn)
      have hpos := l.nonempty
      have htake : (l.bytes ++ (Name.wire ⟨labels⟩ ++ rest)).take l.bytes.length = l.bytes :=
        List.take_left
      rw [Name.wire_cons, List.cons_append, List.append_assoc, readLabels,
        dif_neg (by rw [l.lengthByte]; omega),
        dif_pos (by rw [l.lengthByte, List.length_append]; omega)]
      simp only [l.lengthByte, htake, List.drop_left, ih (Nat.lt_of_succ_lt_succ hn),
        Option.map_some]

theorem Name.ofRhn_wire (n : Name) (rest : List UInt8) : Name.ofRhn (n.wire ++ rest) = some n := by
  have hcount : n.labels.length ≤ n.wire.length := by
    obtain ⟨labels⟩ := n
    induction labels with
    | nil => exact Nat.zero_le _
    | cons l labels ih =>
        rw [Name.wire_cons]
        simp only [List.length_cons, List.length_append]
        have := ih
        simp only at this
        omega
  rw [ofRhn, readLabels_wire (by rw [List.length_append]; omega)]
  rfl

theorem IsTextOf.unique (hls : IsTextOf ls t) (hms : IsTextOf ms t) : ls = ms := by
  obtain ⟨rfl, rfl⟩ | ⟨hfits, hfree, rfl⟩ := hls
  · obtain ⟨rfl, -⟩ | ⟨hfits', -, hroot⟩ := hms
    · rfl
    · exact absurd hroot.symm hfits'.dottedText_ne_root
  · obtain ⟨-, hroot⟩ | ⟨-, hfree', heq⟩ := hms
    · exact absurd hroot hfits.dottedText_ne_root
    · have hsplit := splitOnP_dottedText hfree List.not_mem_nil
      rw [heq, splitOnP_dottedText hfree' List.not_mem_nil] at hsplit
      exact (List.append_cancel_right hsplit).symm

theorem IsTextOf.exists_name (h : IsTextOf ls t) :
    ∃ n : Name, n.Valid ∧ n.wire = labelBytes ls ++ [0] := by
  obtain ⟨rfl, -⟩ | ⟨hfits, -, -⟩ := h
  · exact exists_name_wire (List.forall_mem_nil _) (Nat.zero_le _)
  · refine exists_name_wire hfits.1 ?_
    have := hfits.2.1
    omega

theorem IsTextOf.normal (h : IsTextOf ls t) (after : List UInt8) :
    isnormalencdomname (labelBytes ls ++ 0 :: after) = true := by
  obtain ⟨n, hn, hwire⟩ := h.exists_name
  rw [List.append_cons, ← hwire]
  exact isnormalencdomname_wire hn _

/-- What the encoding is in the buffer. -/
theorem IsTextOf.take_rhnlen (h : IsTextOf ls t) (after : List UInt8) :
    (labelBytes ls ++ 0 :: after).take (rhnlen (labelBytes ls ++ 0 :: after)) =
      labelBytes ls ++ [0] := by
  obtain ⟨n, -, hwire⟩ := h.exists_name
  rw [List.append_cons, ← hwire, rhnlen_wire_append, List.take_left]

theorem IsTextOf.printed (h : IsTextOf ls t) (hplain : ∀ c ∈ t, c ≠ 46 → IsPlain c)
    {str : List UInt8} (hstr : str.length = 256) (back : List UInt8) :
    ∃ after, rhn2str (labelBytes ls ++ 0 :: back) 256 str = some (some (t ++ 0 :: after)) := by
  obtain ⟨rfl, rfl⟩ | ⟨hfits, hfree, rfl⟩ := h
  · obtain ⟨x, y, str, rfl⟩ : ∃ x y str', str = x :: y :: str' := by
      obtain ⟨x, str, rfl⟩ := List.exists_cons_of_length_eq_add_one hstr
      obtain ⟨y, str, rfl⟩ := List.exists_cons_of_length_eq_add_one (Nat.succ_inj.mp hstr)
      exact ⟨x, y, str, rfl⟩
    have hdot : store (x :: y :: str) 0 [46] = some (46 :: y :: str) :=
      @store_cons [] [] (y :: str) x rfl 46
    have hnull : store (46 :: y :: str) 1 [0] = some (46 :: 0 :: str) :=
      @store_cons [46] [46] str y rfl 0
    refine ⟨str, ?_⟩
    rw [labelBytes_nil, List.nil_append, rhn2str, if_neg (by decide), List.getElem?_cons_zero,
      Option.bind_eq_bind, Option.bind_some, if_pos rfl, if_pos (by decide), hdot,
      Option.bind_eq_bind, Option.bind_some, hnull]
    rfl
  · refine rhn2str_plain hfits.ne_nil (fun l hl => ⟨hfits.1 l hl, fun c hc => ?_⟩) hstr ?_
    · refine hplain c ?_ (ne_of_mem_of_not_mem hc (hfree l hl))
      exact List.mem_flatMap.mpr ⟨l, hl, List.mem_append_left _ hc⟩
    · have := hfits.2.1
      omega

/-- The text with its final dot. -/
def withDot (s : List UInt8) : List UInt8 :=
  if s.getLast? = some 46 then s else s ++ [46]

theorem withDot_text {rest : List UInt8} (hrest : 46 ∉ rest) (hne : dottedText ls ++ rest ≠ []) :
    withDot (dottedText ls ++ rest) = dottedText (ls ++ lastLabel rest) := by
  rw [withDot, lastLabel]
  split_ifs with hdot hempty hempty
  · rw [hempty, List.append_nil, List.append_nil]
  · rw [List.getLast?_append_of_ne_nil _ hempty] at hdot
    exact absurd (List.mem_of_getLast? hdot) hrest
  · subst hempty
    rw [List.append_nil] at hne hdot
    obtain rfl | ⟨init, l, rfl⟩ := List.eq_nil_or_concat' ls
    · exact absurd rfl hne
    · refine absurd ?_ hdot
      rw [dottedText_append, dottedText_singleton, ← List.append_assoc, List.getLast?_concat]
  · rw [dottedText_append, dottedText_singleton, List.append_assoc]

theorem store_root (x : UInt8) (rhn : List UInt8) : store (x :: rhn) 0 [0] = some (0 :: rhn) :=
  @store_cons [] [] rhn x rfl 0

theorem str2rhn_text {rhn : List UInt8} (h0 : 0 ∉ s) (hrhn : rhn.length = 256) :
    ∃ ok out, str2rhn (s ++ [0]) rhn = some (ok, out) ∧ out.length = 256 ∧
      (ok = true ↔ IsDotted s) ∧
      (ok = true → withDot s = s ∧ ∃ ls after, IsTextOf ls s ∧
        out = labelBytes ls ++ 0 :: after) := by
  by_cases hroot : s = [46]
  · obtain ⟨x, rhn, rfl⟩ := List.exists_cons_of_length_eq_add_one hrhn
    refine ⟨true, 0 :: rhn, ?_, hrhn, iff_of_true rfl (Or.inl hroot), fun _ => ⟨?_, [], rhn,
      Or.inl ⟨rfl, hroot⟩, rfl⟩⟩
    · rw [str2rhn, isRootText_eq h0, decide_eq_true hroot]
      simp only [Option.bind_eq_bind, Option.bind_some, if_true, store_root]
    · rw [withDot, hroot]
      rfl
  · obtain ⟨ls, rest, hls, hrest, hs, hcount⟩ := exists_split h0
    obtain ⟨ok, out, hrun, hlen, hok, hbytes⟩ := @str2rhnLoop_text ls rest hls hrest [] [] rhn
      ((s ++ [0]).length + 1) rfl (Nat.zero_le _) hrhn (by rw [List.length_append]; omega)
    have hdotted := isDotted_iff (fun l hl => (hls l hl).2) hrest.2 hs hroot
    refine ⟨ok, out, ?_, hlen, hok.trans hdotted.symm, fun h => ?_⟩
    · rw [str2rhn, isRootText_eq h0, decide_eq_false hroot]
      rw [List.nil_append, ← List.append_assoc, ← hs] at hrun
      exact hrun
    · obtain ⟨after, hout⟩ := hbytes h
      obtain ⟨rfl, hfits⟩ := hok.mp h
      rw [List.append_nil] at hs
      have hne : dottedText ls ++ [] ≠ [] := by
        intro hnil
        rw [List.append_nil] at hnil
        exact hfits.2.2 (by rw [hnil]; rfl)
      have hdot := withDot_text List.not_mem_nil hne
      rw [lastLabel, if_pos rfl, List.append_nil, List.append_nil, ← hs] at hdot
      exact ⟨hdot, ls, after, Or.inr ⟨hfits, fun l hl => (hls l hl).2, hs⟩, hout⟩

theorem parsestr2rhn_text {rhn : List UInt8} (h0 : 0 ∉ s) (hrhn : rhn.length = 256) :
    ∃ err out, parsestr2rhn (s ++ [0]) s.length rhn = some (err, out) ∧ out.length = 256 ∧
      (err = none ↔ IsDotted s ∨ (s ≠ [] ∧ IsDotted (s ++ [46]))) ∧
      (err = none → ∃ ls after, IsTextOf ls (withDot s) ∧ out = labelBytes ls ++ 0 :: after) := by
  by_cases hroot : s = [46]
  · obtain ⟨x, rhn, rfl⟩ := List.exists_cons_of_length_eq_add_one hrhn
    refine ⟨none, 0 :: rhn, ?_, hrhn, iff_of_true rfl (Or.inl (Or.inl hroot)), fun _ => ⟨[], rhn,
      Or.inl ⟨rfl, ?_⟩, rfl⟩⟩
    · rw [parsestr2rhn, isRootTextBefore_eq h0, decide_eq_true hroot]
      simp only [Option.bind_eq_bind, Option.bind_some, if_true, store_root]
    · rw [withDot, hroot]
      rfl
  · obtain ⟨ls, rest, hls, hrest, hs, hcount⟩ := exists_split h0
    obtain ⟨err, out, hrun, hlen, herr, hbytes⟩ := @parsestr2rhnLoop_text ls rest hls hrest s [] []
      rhn ((s ++ [0]).length + 1) hs rfl (Nat.zero_le _) hrhn (by rw [List.length_append]; omega)
    have hdotted := isDotted_or_iff (fun l hl => (hls l hl).2) hrest.2 hs hroot
    refine ⟨err, out, ?_, hlen, herr.trans hdotted.symm, fun h => ?_⟩
    · rw [parsestr2rhn, isRootTextBefore_eq h0, decide_eq_false hroot]
      exact hrun
    · obtain ⟨after, hout⟩ := hbytes h
      have hfits := herr.mp h
      have hne : dottedText ls ++ rest ≠ [] := by
        intro hnil
        obtain ⟨hdots, rfl⟩ := List.append_eq_nil_iff.mp hnil
        rw [lastLabel, if_pos rfl, List.append_nil] at hfits
        exact hfits.2.2 (by rw [hdots]; rfl)
      refine ⟨ls ++ lastLabel rest, after, Or.inr ⟨hfits, fun l hl => ?_, ?_⟩, hout⟩
      · obtain hl | hl := List.mem_append.mp hl
        · exact (hls l hl).2
        · rw [lastLabel] at hl
          split_ifs at hl
          · exact absurd hl List.not_mem_nil
          · exact List.mem_singleton.mp hl ▸ hrest.2
      · rw [hs]
        exact withDot_text hrest.2 hne

/-- The two parsers accept the dotted texts, the second one also those without the last dot, and
their encoding is a normal name whose text is the one that was parsed. -/
theorem domainText_conversion (s : List UInt8) (hs : 0 ∉ s) (rhn rhn' str : List UInt8)
    (hrhn : rhn.length = 256) (hrhn' : rhn'.length = 256) (hstr : str.length = 256) :
    ∃ ok out err out',
      str2rhn (s ++ [0]) rhn = some (ok, out) ∧ out.length = 256 ∧
      parsestr2rhn (s ++ [0]) s.length rhn' = some (err, out') ∧ out'.length = 256 ∧
      (ok = true ↔ IsDotted s) ∧
      (err = none ↔ IsDotted s ∨ (s ≠ [] ∧ IsDotted (s ++ [46]))) ∧
      (ok = true → err = none → out.take (rhnlen out) = out'.take (rhnlen out')) ∧
      (ok = true → isnormalencdomname out = true) ∧
      (err = none → isnormalencdomname out' = true) ∧
      ((∀ c ∈ s, c ≠ 46 → IsPlain c) →
        (ok = true → ∃ after, rhn2str out 256 str = some (some (s ++ 0 :: after))) ∧
        (err = none → ∃ after, rhn2str out' 256 str = some (some (withDot s ++ 0 :: after)))) := by
  obtain ⟨ok, out, hrun, hlen, hok, hout⟩ := str2rhn_text hs hrhn
  obtain ⟨err, out', hrun', hlen', herr, hout'⟩ := parsestr2rhn_text hs hrhn'
  refine ⟨ok, out, err, out', hrun, hlen, hrun', hlen', hok, herr, ?_, ?_, ?_, ?_⟩
  · intro h h'
    obtain ⟨hdot, ls, after, hls, rfl⟩ := hout h
    obtain ⟨ms, after', hms, rfl⟩ := hout' h'
    rw [hdot] at hms
    rw [hls.take_rhnlen, hms.take_rhnlen, hls.unique hms]
  · intro h
    obtain ⟨-, ls, after, hls, rfl⟩ := hout h
    exact hls.normal after
  · intro h
    obtain ⟨ls, after, hls, rfl⟩ := hout' h
    exact hls.normal after
  · intro hplain
    constructor
    · intro h
      obtain ⟨-, ls, after, hls, rfl⟩ := hout h
      exact hls.printed hplain hstr after
    · intro h
      obtain ⟨ls, after, hls, rfl⟩ := hout' h
      refine hls.printed (fun c hc hdot => ?_) hstr after
      rw [withDot] at hc
      split_ifs at hc
      · exact hplain c hc hdot
      · exact hplain c ((List.mem_append.mp hc).resolve_right fun h =>
          hdot (List.mem_singleton.mp h)) hdot

/-- The text `a.b.`, with buffers full of null bytes. -/
theorem domainText_conversion_ab :
    (0 : UInt8) ∉ [97, 46, 98, 46] ∧ (List.replicate 256 (0 : UInt8)).length = 256 ∧
      ∃ ok out err out',
        str2rhn ([97, 46, 98, 46] ++ [0]) (List.replicate 256 0) = some (ok, out) ∧
        out.length = 256 ∧
        parsestr2rhn ([97, 46, 98, 46] ++ [0]) 4 (List.replicate 256 0) = some (err, out') ∧
        out'.length = 256 ∧ (ok = true ↔ IsDotted [97, 46, 98, 46]) := by
  have hfree : (0 : UInt8) ∉ [97, 46, 98, 46] := by decide
  have hlen : (List.replicate 256 (0 : UInt8)).length = 256 := List.length_replicate
  obtain ⟨ok, out, err, out', hrun, hsize, hrun', hsize', hok, -⟩ :=
    domainText_conversion [97, 46, 98, 46] hfree _ _ _ hlen hlen hlen
  exact ⟨hfree, hlen, ok, out, err, out', hrun, hsize, hrun', hsize', hok⟩

end Conversion

end TorAndroid.Dns
