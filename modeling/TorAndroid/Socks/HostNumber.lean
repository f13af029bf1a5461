import TorAndroid.Socks.RangeIpv4

namespace TorAndroid.Socks.Range

open TorAndroid.Socks.Basic

/-- `Character.digit` with the radix 10: the characters that are digits, which `Character.isDigit`
tells, and their values. Which there are beyond ASCII is up to the version of Unicode. -/
structure DigitTable where
  digit : Char → Option Nat
  lt_ten : ∀ c d, digit c = some d → d < 10
  ascii : ∀ c, c.toNat < 128 → digit c = if c.isDigit then some (c.toNat - 48) else none

/-- The tokens that a dot separates; `StringTokenizer` skips the empty ones. -/
def components (host : String) : List (List Char) :=
  (host.toList.splitOn '.').filter (· ≠ [])

namespace DigitTable

variable (table : DigitTable)

def isDigit (c : Char) : Bool :=
  (table.digit c).isSome

/-- The number that the digits stand for, if they are digits. -/
def number (digits : List Char) : Option Nat :=
  digits.foldlM (fun n c => (table.digit c).map (10 * n + ·)) 0

/-- The number with its sign, if it is an `int`. -/
def signed (negative : Bool) (digits : List Char) : Option Int :=
  if digits = [] then none
  else do
    let value ← table.number digits
    let n : Int := if negative then -value else value
    if -2 ^ 31 ≤ n ∧ n < 2 ^ 31 then some n else none

/-- `Integer.parseInt`; `none` stands for `NumberFormatException`. -/
def parseInt (token : List Char) : Option Int :=
  match token with
  | '-' :: digits => table.signed true digits
  | '+' :: digits => table.signed false digits
  | digits => table.signed false digits

/-- The four parts of an address, of which the missing ones are -1, or `null`. -/
def ip2intarray (host : String) : Option (List Int) :=
  if 4 < (components host).length then none
  else do
    let address ← (components host).mapM fun token => (table.parseInt token).map (· % 256)
    some (address ++ List.replicate (4 - address.length) (-1))

/-- The sum of `ip`, where `i` is the place of the first part. -/
def sumParts : Nat → List Int → Int
  | _, [] => 0
  | i, addr :: rest => (if 0 ≤ addr then addr else 0) * 2 ^ (8 * (3 - i)) + sumParts (i + 1) rest

def host2long (host : String) : Java Int :=
  match host.toList with
  | [] => .error (.unchecked .indexOutOfBounds)
  | c :: _ =>
      if !table.isDigit c then .ok (-1)
      else
        match table.ip2intarray host with
        | none => .ok (-1)
        | some addr => .ok (sumParts 0 addr)

/-- What `contains` does with a host that is a name: it asks the name service if it may. -/
def containsName (range : InetRange) (platform : Platform) (host : String)
    (attemptResolve : Bool) : Java Bool :=
  if attemptResolve then
    match platform.getByName (some host) with
    | some ip => range.contains platform ip
    | none => .ok false
  else .ok false

/-- `contains(String, boolean)` -/
def containsText (range : InetRange) (platform : Platform) (host : String)
    (attemptResolve : Bool) : Java Bool :=
  if range.all = [] then .ok false
  else
    let host := trim host
    if host = "" then .ok false
    else if range.checkHost host then .ok true
    else if range.checkHostEnding host then .ok true
    else do
      let l ← table.host2long host
      if 0 ≤ l then containsLong range.all l.toNat
      else containsName range platform host attemptResolve

end DigitTable

/-- The digits of ASCII and no others. -/
def asciiDigits : DigitTable where
  digit c := if c.isDigit then some (c.toNat - 48) else none
  lt_ten c d h := by
    split_ifs at h with hc
    cases h
    rw [Char.isDigit, Bool.and_eq_true, decide_eq_true_eq, decide_eq_true_eq] at hc
    have hle : c.toNat ≤ 57 := UInt32.le_iff_toNat_le.mp hc.2
    omega
  ascii _ _ := rfl

section Numbers

variable {table : DigitTable} {token digits : List Char} {host : String} {n : Nat}

/-- Digits with a sign or without one, whose number is in the range of `int`. -/
inductive IsInt (table : DigitTable) : List Char → Prop where
  | plain {digits : List Char} {n : Nat} (hne : digits ≠ []) (hn : table.number digits = some n)
      (hlt : n < 2 ^ 31) : IsInt table digits
  | plus {digits : List Char} {n : Nat} (hne : digits ≠ []) (hn : table.number digits = some n)
      (hlt : n < 2 ^ 31) : IsInt table ('+' :: digits)
  | minus {digits : List Char} {n : Nat} (hne : digits ≠ []) (hn : table.number digits = some n)
      (hle : n ≤ 2 ^ 31) : IsInt table ('-' :: digits)

/-- The host begins with a digit and has at most four parts, all of them numbers. -/
structure Numeric (table : DigitTable) (host : String) : Prop where
  head : ∃ c cs, host.toList = c :: cs ∧ table.isDigit c = true
  short : (components host).length ≤ 4
  isInt : ∀ token ∈ components host, IsInt table token

theorem digit_sign {c : Char} (hc : c = '-' ∨ c = '+' ∨ c = '.') : table.digit c = none := by
  obtain rfl | rfl | rfl := hc
  · exact table.ascii '-' (by decide)
  · exact table.ascii '+' (by decide)
  · exact table.ascii '.' (by decide)

theorem number_sign {c : Char} (hc : c = '-' ∨ c = '+' ∨ c = '.') :
    table.number (c :: digits) = none := by
  rw [DigitTable.number, List.foldlM_cons, digit_sign hc]
  rfl

theorem signed_eq_some_iff {negative : Bool} {m : Int} :
    table.signed negative digits = some m ↔ digits ≠ [] ∧ ∃ n, table.number digits = some n ∧
      (if negative then -(n : Int) else n) = m ∧ -2 ^ 31 ≤ m ∧ m < 2 ^ 31 := by
  rw [DigitTable.signed]
  by_cases hempty : digits = []
  · simp [hempty]
  · rw [if_neg hempty, Option.bind_eq_bind, Option.bind_eq_some_iff, and_iff_right hempty]
    refine exists_congr fun n => and_congr_right fun _ => ?_
    constructor
    · intro h
      obtain ⟨hrange, heq⟩ := Option.ite_none_right_eq_some.mp h
      cases heq
      exact ⟨rfl, hrange⟩
    · rintro ⟨rfl, hrange⟩
      exact if_pos hrange

theorem parseInt_isSome_iff : (table.parseInt token).isSome ↔ IsInt table token := by
  rw [Option.isSome_iff_exists]
  constructor
  · rintro ⟨m, hm⟩
    unfold DigitTable.parseInt at hm
    split at hm
    · obtain ⟨hne, n, hn, rfl, hlow, -⟩ := signed_eq_some_iff.mp hm
      rw [if_pos rfl] at hlow
      exact .minus hne hn (by omega)
    · obtain ⟨hne, n, hn, rfl, -, hhigh⟩ := signed_eq_some_iff.mp hm
      rw [if_neg Bool.false_ne_true] at hhigh
      exact .plus hne hn (by omega)
    · obtain ⟨hne, n, hn, rfl, -, hhigh⟩ := signed_eq_some_iff.mp hm
      rw [if_neg Bool.false_ne_true] at hhigh
      exact .plain hne hn (by omega)
  · rintro (@⟨_, n, hne, hn, hlt⟩ | ⟨hne, hn, hlt⟩ | ⟨hne, hn, hle⟩)
    · refine ⟨n, ?_⟩
      unfold DigitTable.parseInt
      split
      · rw [number_sign (Or.inl rfl)] at hn
        cases hn
      · rw [number_sign (Or.inr (Or.inl rfl))] at hn
        cases hn
      · exact signed_eq_some_iff.mpr ⟨hne, n, hn, rfl, by omega⟩
    · exact ⟨_, signed_eq_some_iff.mpr ⟨hne, _, hn, rfl, by
        rw [if_neg Bool.false_ne_true]
        omega⟩⟩
    · exact ⟨_, signed_eq_some_iff.mpr ⟨hne, _, hn, rfl, by
        rw [if_pos rfl]
        omega⟩⟩

theorem ip2intarray_eq_none_iff :
    table.ip2intarray host = none ↔
      ¬((components host).length ≤ 4 ∧ ∀ token ∈ components host, IsInt table token) := by
  have hmap : ∀ tokens : List (List Char),
      (tokens.mapM fun token => (table.parseInt token).map (· % 256)) = none ↔
        ¬∀ token ∈ tokens, IsInt table token := by
    intro tokens
    induction tokens with
    | nil => simp
    | cons token tokens ih =>
        rw [List.forall_mem_cons, List.mapM_cons, ← parseInt_isSome_iff]
        cases hparse : table.parseInt token with
        | none => simp
        | some m =>
            cases hrest : tokens.mapM fun token => (table.parseInt token).map (· % 256) with
            | none => simpa using ih.mp hrest
            | some addr =>
                have hall := mt ih.mpr (by rw [hrest]; exact Option.some_ne_none addr)
                simpa using hall
  rw [DigitTable.ip2intarray]
  by_cases hlong : 4 < (components host).length
  · rw [if_pos hlong]
    exact iff_of_true rfl fun h => Nat.not_le_of_lt hlong h.1
  · rw [if_neg hlong, and_iff_right (Nat.le_of_not_lt hlong), ← hmap]
    cases (components host).mapM fun token => (table.parseInt token).map (· % 256) <;> simp

theorem sumParts_nonneg (i : Nat) (addr : List Int) : 0 ≤ DigitTable.sumParts i addr := by
  induction addr generalizing i with
  | nil => exact Int.le_refl 0
  | cons part addr ih =>
      have hpow : (0 : Int) ≤ 2 ^ (8 * (3 - i)) := Int.pow_nonneg (by decide)
      have hpart : (0 : Int) ≤ if 0 ≤ part then part else 0 := by
        split_ifs with hpart
        · exact hpart
        · exact Int.le_refl 0
      exact Int.add_nonneg (Int.mul_nonneg hpart hpow) (ih (i + 1))

/-- A host that is not empty is a name unless it is numeric. -/
theorem host2long_spec (hne : host ≠ "") :
    ∃ l, table.host2long host = .ok l ∧ (l = -1 ∨ 0 ≤ l) ∧ (0 ≤ l ↔ Numeric table host) := by
  have hlist : host.toList ≠ [] := fun h => hne (String.toList_eq_nil_iff.mp h)
  obtain ⟨c, cs, hcs⟩ := List.exists_cons_of_ne_nil hlist
  have hmake : ∀ {l : Int}, table.host2long host = .ok l → (l = -1 ∨ 0 ≤ l) →
      (0 ≤ l ↔ table.isDigit c = true ∧ table.ip2intarray host ≠ none) →
      ∃ l, table.host2long host = .ok l ∧ (l = -1 ∨ 0 ≤ l) ∧ (0 ≤ l ↔ Numeric table host) := by
    intro l hrun hl hiff
    refine ⟨l, hrun, hl, hiff.trans ?_⟩
    rw [ne_eq, ip2intarray_eq_none_iff, not_not]
    constructor
    · rintro ⟨hdigit, hshort, hint⟩
      exact ⟨⟨c, cs, hcs, hdigit⟩, hshort, hint⟩
    · rintro ⟨⟨c', cs', hcs', hdigit⟩, hshort, hint⟩
      cases hcs.symm.trans hcs'
      exact ⟨hdigit, hshort, hint⟩
  cases hdigit : table.isDigit c with
  | false =>
      have hrun : table.host2long host = .ok (-1) := by
        unfold DigitTable.host2long
        rw [hcs]
        simp [hdigit]
      exact hmake hrun (Or.inl rfl) (by simp [hdigit])
  | true =>
      cases haddr : table.ip2intarray host with
      | none =>
          have hrun : table.host2long host = .ok (-1) := by
            unfold DigitTable.host2long
            rw [hcs]
            simp [hdigit, haddr]
          exact hmake hrun (Or.inl rfl) (by simp [haddr])
      | some addr =>
          have hrun : table.host2long host = .ok (DigitTable.sumParts 0 addr) := by
            unfold DigitTable.host2long
            rw [hcs]
            simp [hdigit, haddr]
          have hnonneg := sumParts_nonneg 0 addr
          exact hmake hrun (Or.inr hnonneg) (by simp [hnonneg, hdigit, haddr])

end Numbers

section Quads

variable {table : DigitTable}

theorem number_ascii {digits : List Char} (h : ∀ c ∈ digits, c.isDigit = true) :
    table.number digits = some (numeral digits) := by
  have hgen : ∀ (digits : List Char) (n : Nat), (∀ c ∈ digits, c.isDigit = true) →
      digits.foldlM (fun n c => (table.digit c).map (10 * n + ·)) n =
        some (digits.foldl (fun n c => 10 * n + (c.toNat - 48)) n) := by
    intro digits
    induction digits with
    | nil => exact fun _ _ => rfl
    | cons c digits ih =>
        intro n h
        rw [List.forall_mem_cons] at h
        have hbound : c.toNat < 128 := by
          have hc := h.1
          rw [Char.isDigit, Bool.and_eq_true, decide_eq_true_eq, decide_eq_true_eq] at hc
          have hle : c.toNat ≤ 57 := UInt32.le_iff_toNat_le.mp hc.2
          omega
        rw [List.foldlM_cons, table.ascii c hbound, if_pos h.1]
        exact ih _ h.2
  exact hgen digits 0 h

theorem parseInt_octet (o : OctetText) :
    (table.parseInt o.digits).map (· % 256) = some (o.value.toNat : Int) := by
  have hsmall := o.small
  have hsigned : table.signed false o.digits = some (numeral o.digits : Int) :=
    signed_eq_some_iff.mpr ⟨o.nonempty, _, number_ascii o.isDigit, rfl, by omega⟩
  have hparse : table.parseInt o.digits = table.signed false o.digits := by
    unfold DigitTable.parseInt
    split
    next digits heq => exact absurd (heq ▸ List.mem_cons_self) (notMem_digits (c := '-') rfl o)
    next digits heq => exact absurd (heq ▸ List.mem_cons_self) (notMem_digits (c := '+') rfl o)
    next => rfl
  rw [hparse, hsigned, Option.map_some, toNat_value]
  congr 1
  omega

theorem components_text (t : QuadText) : components t.text = t.parts.map OctetText.digits := by
  have hparts : t.parts ≠ [] := List.cons_ne_nil _ _
  have htokens := tokens_dotted hparts (Or.inl rfl)
  rw [List.append_nil] at htokens
  rw [components, toList_text, htokens]

theorem sumParts_quad (q : Quad) :
    DigitTable.sumParts 0 (q.octets.map fun octet => (octet.toNat : Int)) = q.number := by
  rw [number_eq]
  simp only [DigitTable.sumParts, Quad.octets, List.map_cons, List.map_nil,
    if_pos (Int.natCast_nonneg _)]
  omega

/-- A dotted quad has its number, whatever digits there are beyond ASCII. -/
theorem host2long_quad (table : DigitTable) (t : QuadText) :
    table.host2long t.text = .ok t.value.number := by
  obtain ⟨c, cs, hcs, hdigit⟩ := head_text t
  have hc : table.isDigit c = true := by
    have hnumber := @number_ascii table [c] (by simpa using hdigit)
    rw [DigitTable.number, List.foldlM_cons, Option.bind_eq_bind] at hnumber
    obtain ⟨n, hn, -⟩ := Option.bind_eq_some_iff.mp hnumber
    obtain ⟨d, hd, -⟩ := Option.map_eq_some_iff.mp hn
    rw [DigitTable.isDigit, hd]
    rfl
  have haddr : table.ip2intarray t.text =
      some (t.value.octets.map fun octet => (octet.toNat : Int)) := by
    rw [DigitTable.ip2intarray, components_text]
    simp [QuadText.parts, parseInt_octet, QuadText.value, Quad.octets]
  unfold DigitTable.host2long
  rw [hcs]
  simp only [hc, haddr, sumParts_quad, Bool.not_true, Bool.false_eq_true, if_false]

/-- A host is taken for the number of the quad that it is, or for a name that is to be resolved. -/
structure Recognised (table : DigitTable) (host : String) : Prop where
  quad : ∀ t : QuadText, t.text = host → table.host2long host = .ok t.value.number
  nonneg : ∀ l, table.host2long host = .ok l → 0 ≤ l → ∃ t : QuadText, t.text = host
  name : host ≠ "" → (∀ t : QuadText, t.text ≠ host) → table.host2long host = .ok (-1)
  resolves : host ≠ "" → (∀ t : QuadText, t.text ≠ host) → ∀ range platform host₀ attemptResolve,
    trim host₀ = host → range.all ≠ [] → range.checkHost host = false →
    range.checkHostEnding host = false →
    table.containsText range platform host₀ attemptResolve =
      DigitTable.containsName range platform host attemptResolve

theorem host2long_empty (table : DigitTable) :
    table.host2long "" = .error (.unchecked .indexOutOfBounds) := rfl

theorem not_numeric_empty (table : DigitTable) : ¬Numeric table "" := by
  rintro ⟨⟨c, cs, hcs, -⟩, -, -⟩
  cases hcs

/-- A host that is not a quad is taken for a name only if it is not numeric. -/
theorem recognised_iff (table : DigitTable) (host : String) :
    Recognised table host ↔ (∃ t : QuadText, t.text = host) ∨ ¬Numeric table host := by
  by_cases hne : host = ""
  · subst hne
    have hempty : Recognised table "" := by
      constructor
      · exact fun t ht => ht ▸ host2long_quad table t
      · intro l hl
        rw [host2long_empty] at hl
        cases hl
      · exact fun h => absurd rfl h
      · exact fun h => absurd rfl h
    exact iff_of_true hempty (Or.inr (not_numeric_empty table))
  obtain ⟨l, hl, hsign, hnumeric⟩ := @host2long_spec table host hne
  constructor
  · intro h
    by_cases hquad : ∃ t : QuadText, t.text = host
    · exact Or.inl hquad
    · have hname := h.name hne fun t ht => hquad ⟨t, ht⟩
      cases hl.symm.trans hname
      exact Or.inr (mt hnumeric.mpr (by decide))
  · intro h
    have hname : (∀ t : QuadText, t.text ≠ host) → table.host2long host = .ok (-1) := by
      intro hquad
      have hnot : ¬0 ≤ l := by
        rw [hnumeric]
        exact h.resolve_left fun ⟨t, ht⟩ => hquad t ht
      rw [hl, hsign.resolve_right hnot]
    constructor
    · exact fun t ht => ht ▸ host2long_quad table t
    · intro l' hl' hnonneg
      cases hl.symm.trans hl'
      exact h.resolve_right (not_not.mpr (hnumeric.mp hnonneg))
    · exact fun _ => hname
    · rintro - hquad range platform host₀ attemptResolve rfl hall hhost hending
      simp only [DigitTable.containsText, if_neg hall, if_neg hne, hhost, hending,
        Bool.false_eq_true, if_false, hname hquad]
      rfl

end Quads

section Ascii

theorem number_asciiDigits (digits : List Char) :
    asciiDigits.number digits =
      if digits.all Char.isDigit then some (numeral digits) else none := by
  split_ifs with hall
  · exact number_ascii (List.all_eq_true.mp hall)
  · suffices hgen : ∀ (digits : List Char) (n : Nat), ¬digits.all Char.isDigit = true →
        digits.foldlM (fun n c => (asciiDigits.digit c).map (10 * n + ·)) n = none from
      hgen digits 0 hall
    intro digits
    induction digits with
    | nil => exact fun _ h => absurd rfl h
    | cons c digits ih =>
        intro n h
        rw [List.all_cons, Bool.and_eq_true, not_and_or] at h
        rw [List.foldlM_cons]
        change ((if c.isDigit then some (c.toNat - 48) else none).map (10 * n + ·)).bind _ = none
        split_ifs with hc
        · exact ih _ (h.resolve_left (not_not.mpr hc))
        · rfl

theorem signed_asciiDigits (negative : Bool) (digits : List Char) :
    asciiDigits.signed negative digits =
      if digits ≠ [] ∧ digits.all Char.isDigit then
        if -2 ^ 31 ≤ (if negative then -(numeral digits : Int) else numeral digits) ∧
            (if negative then -(numeral digits : Int) else numeral digits) < 2 ^ 31 then
          some (if negative then -(numeral digits : Int) else numeral digits)
        else none
      else none := by
  rw [DigitTable.signed, number_asciiDigits]
  by_cases hempty : digits = []
  · simp [hempty]
  · by_cases hall : digits.all Char.isDigit = true
    · simp only [if_neg hempty, if_pos hall, if_pos (And.intro hempty hall)]
      rfl
    · simp only [if_neg hempty, if_neg hall, if_neg (mt And.right hall)]
      rfl

theorem parseInt_asciiDigits (token : List Char) : asciiDigits.parseInt token = parseInt token := by
  unfold DigitTable.parseInt
  split
  next digits => exact signed_asciiDigits true digits
  next digits => exact signed_asciiDigits false digits
  next hminus hplus =>
    rw [signed_asciiDigits, parseInt]
    · rfl
    · exact hminus
    · exact hplus

theorem sumParts_padded {addr : List Nat} (h : addr.length ≤ 4) :
    DigitTable.sumParts 0 (addr.map Int.ofNat ++ List.replicate (4 - addr.length) (-1)) =
      ((addr ++ List.replicate (4 - addr.length) 0).foldl (fun ip n => 256 * ip + n) 0 : Nat) := by
  obtain _ | ⟨a, _ | ⟨b, _ | ⟨c, _ | ⟨d, _ | ⟨e, addr⟩⟩⟩⟩⟩ := addr
  · rfl
  · simp [DigitTable.sumParts]
    omega
  · simp [DigitTable.sumParts]
    omega
  · simp [DigitTable.sumParts]
    omega
  · simp [DigitTable.sumParts]
    omega
  · simp only [List.length_cons] at h
    omega

theorem ip2intarray_asciiDigits (host : String) :
    asciiDigits.ip2intarray host = (ip2intarray host).map fun addr =>
      addr.map Int.ofNat ++ List.replicate (4 - addr.length) (-1) := by
  have hpart : ∀ token, (asciiDigits.parseInt token).map (· % 256) =
      ((parseInt token).map fun n => (n % 256).toNat).map Int.ofNat := by
    intro token
    rw [parseInt_asciiDigits, Option.map_map]
    refine Option.map_congr fun n _ => ?_
    exact (Int.toNat_of_nonneg (Int.emod_nonneg n (by decide))).symm
  have hmap : ∀ tokens : List (List Char),
      (tokens.mapM fun token => (asciiDigits.parseInt token).map (· % 256)) =
        (tokens.mapM fun token => (parseInt token).map fun n => (n % 256).toNat).map
          (List.map Int.ofNat) := by
    intro tokens
    induction tokens with
    | nil => rfl
    | cons token tokens ih =>
        rw [List.mapM_cons, List.mapM_cons, hpart, ih]
        cases (parseInt token).map fun n => (n % 256).toNat with
        | none => rfl
        | some n =>
            cases tokens.mapM fun token => (parseInt token).map fun n => (n % 256).toNat <;> rfl
  rw [DigitTable.ip2intarray, ip2intarray]
  change (if 4 < (components host).length then none else _) =
    (if 4 < (components host).length then none else _).map _
  split_ifs
  · rfl
  · rw [hmap]
    cases haddr : (components host).mapM fun token =>
        (parseInt token).map fun n => (n % 256).toNat with
    | none =>
        rw [components] at haddr
        rw [haddr]
        rfl
    | some addr =>
        rw [components] at haddr
        rw [haddr]
        simp

theorem length_ip2intarray {host : String} {addr : List Nat} (h : ip2intarray host = some addr) :
    addr.length ≤ 4 := by
  have hlength : ∀ {tokens : List (List Char)} {addr : List Nat},
      (tokens.mapM fun token => (parseInt token).map fun n => (n % 256).toNat) = some addr →
        addr.length = tokens.length := by
    intro tokens
    induction tokens with
    | nil =>
        intro addr h
        cases h
        rfl
    | cons token tokens ih =>
        intro addr h
        rw [List.mapM_cons, Option.bind_eq_bind, Option.bind_eq_some_iff] at h
        obtain ⟨n, -, h⟩ := h
        obtain ⟨rest, hrest, h⟩ := Option.bind_eq_some_iff.mp h
        cases h
        exact congrArg Nat.succ (ih hrest)
  rw [ip2intarray] at h
  obtain ⟨hshort, h⟩ := Option.ite_none_left_eq_some.mp h
  rw [hlength h]
  exact Nat.le_of_not_lt hshort

/-- With the digits of ASCII alone the sum is the number of the host. -/
theorem host2long_asciiDigits {host : String} (hne : host ≠ "") :
    asciiDigits.host2long host = .ok ((Range.host2long host).elim (-1) Int.ofNat) := by
  have hlist : host.toList ≠ [] := fun h => hne (String.toList_eq_nil_iff.mp h)
  obtain ⟨c, cs, hcs⟩ := List.exists_cons_of_ne_nil hlist
  have hdigit : asciiDigits.isDigit c = c.isDigit := by
    change (if c.isDigit then some (c.toNat - 48) else none).isSome = _
    cases c.isDigit <;> rfl
  unfold DigitTable.host2long Range.host2long
  rw [hcs]
  simp only [hdigit, ip2intarray_asciiDigits]
  cases c.isDigit with
  | false => rfl
  | true =>
      cases haddr : ip2intarray host with
      | none => rfl
      | some addr => exact congrArg Except.ok (sumParts_padded (length_ip2intarray haddr))

theorem containsText_asciiDigits (range : InetRange) (platform : Platform) (host : String)
    (attemptResolve : Bool) :
    asciiDigits.containsText range platform host attemptResolve =
      range.containsText platform host attemptResolve := by
  rw [DigitTable.containsText, InetRange.containsText]
  by_cases hall : range.all = []
  · rw [if_pos hall, if_pos hall]
  rw [if_neg hall, if_neg hall]
  dsimp only
  by_cases hempty : trim host = ""
  · rw [if_pos hempty, if_pos hempty]
  rw [if_neg hempty, if_neg hempty, host2long_asciiDigits hempty]
  generalize trim host = name
  cases Range.host2long name with
  | none => rfl
  | some ip => simp

/-- Also where only the digits of ASCII are known, a host that is not listed is looked up by its
name unless it is numeric. -/
theorem containsText_of_not_numeric {range : InetRange} {host : String} (hne : trim host ≠ "")
    (hname : ¬Numeric asciiDigits (trim host)) (hall : range.all ≠ [])
    (hhost : range.checkHost (trim host) = false)
    (hending : range.checkHostEnding (trim host) = false) (platform : Platform)
    (attemptResolve : Bool) :
    range.containsText platform host attemptResolve =
      DigitTable.containsName range platform (trim host) attemptResolve := by
  obtain ⟨l, hl, hsign, hnumeric⟩ := @host2long_spec asciiDigits (trim host) hne
  have hl : asciiDigits.host2long (trim host) = .ok (-1) := by
    rw [hl, hsign.resolve_right (mt hnumeric.mp hname)]
  rw [← containsText_asciiDigits]
  simp only [DigitTable.containsText, if_neg hall, if_neg hne, hhost, hending, Bool.false_eq_true,
    if_false, hl]
  rfl

end Ascii

section Example

/-- Missing parts are taken for zeros. -/
theorem not_recognised_short : ¬∀ table host, Recognised table host := by
  intro h
  have hname := (h asciiDigits "1.2.3").name (by decide) (by
    intro t ht
    have hparts := congrArg List.length (components_text t)
    have hfour : (t.parts.map OctetText.digits).length = 4 := rfl
    rw [ht, hfour] at hparts
    exact absurd hparts (by decide +kernel))
  have hnumber : asciiDigits.host2long "1.2.3" = .ok 16909056 := by rfl
  rw [hnumber] at hname
  cases hname

end Example

end TorAndroid.Socks.Range
