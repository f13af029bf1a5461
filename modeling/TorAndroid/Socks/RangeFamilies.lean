import TorAndroid.Socks.RangeListing

namespace TorAndroid.Socks.Range

open TorAndroid.Lib.Throwing
open TorAndroid.Socks.Basic TorAndroid.Socks.Basic.Platform

/-- The unsigned number of all octets. -/
def value (ip : InetAddress) : Nat := ip.octets.foldl (fun n octet => 256 * n + octet.toNat) 0

def IsIpv4 (ip : InetAddress) : Prop := ip.octets.length = 4

instance : DecidablePred IsIpv4 := fun _ => inferInstanceAs (Decidable (_ = _))

def SameFamily (ip ip' : InetAddress) : Prop := IsIpv4 ip ↔ IsIpv4 ip'

/-- The addresses that have the number 0. -/
def Zero (ip : InetAddress) : Prop := ¬IsIpv4 ip ∨ value ip = 0

/-- What is added: an address, or the ends of a range. -/
inductive Added where
  | single (ip : InetAddress)
  | pair (low high : InetAddress)

namespace Added

def call : Added → Call
  | .single ip => .addAddress ip
  | .pair low high => .addAddresses low high

def Covers (b : InetAddress) : Added → Prop
  | .single ip => b = ip
  | .pair low high => SameFamily low high ∧ SameFamily low b ∧
      value low ≤ value b ∧ value b ≤ value high

/-- The numbers of the entry include that of the address because of an IPv6 address or of
`0.0.0.0`. -/
def Confuses (b : InetAddress) : Added → Prop
  | .single ip => Zero ip ∧ Zero b
  | .pair low high => Zero low ∧ Zero b ∨
      ¬IsIpv4 low ∧ IsIpv4 high ∧ IsIpv4 b ∧ value b ≤ value high

/-- The numbers of the entry include that of the address. -/
def Includes (b : InetAddress) : Added → Prop
  | .single ip => ip2long ip ≤ ip2long b ∧ ip2long b ≤ ip2long ip
  | .pair low high => ip2long low ≤ ip2long b ∧ ip2long b ≤ ip2long high

end Added

theorem ip2long_of_ipv4 {ip : InetAddress} (h : IsIpv4 ip) : ip2long ip = value ip := by
  rw [IsIpv4] at h
  rw [ip2long, value]
  revert h
  generalize ip.octets = octets
  intro h
  match octets, h with
  | [a, b, c, d], _ =>
      simp only [List.foldl]
      omega

theorem ip2long_of_not_ipv4 {ip : InetAddress} (h : ¬IsIpv4 ip) : ip2long ip = 0 := by
  rw [IsIpv4] at h
  rw [ip2long]
  split
  · rename_i hoctets
    exact absurd (congrArg List.length hoctets) h
  · rfl

theorem ip2long_eq (ip : InetAddress) : ip2long ip = if IsIpv4 ip then value ip else 0 := by
  split_ifs with h
  · exact ip2long_of_ipv4 h
  · exact ip2long_of_not_ipv4 h

theorem zero_iff (ip : InetAddress) : Zero ip ↔ ip2long ip = 0 := by
  rw [ip2long_eq, Zero]
  by_cases hip : IsIpv4 ip <;> simp [hip]

theorem value_injective {ip ip' : InetAddress} (h : IsIpv4 ip) (h' : IsIpv4 ip')
    (hvalue : value ip = value ip') : ip = ip' := by
  have hoctets : ip.octets = ip'.octets := by
    rw [value, value] at hvalue
    rw [IsIpv4] at h h'
    revert h h' hvalue
    generalize ip.octets = octets
    generalize ip'.octets = octets'
    intro h h' hvalue
    match octets, octets', h, h' with
    | [a, b, c, d], [a', b', c', d'], _, _ =>
        have := b.toNat_lt
        have := c.toNat_lt
        have := d.toNat_lt
        have := b'.toNat_lt
        have := c'.toNat_lt
        have := d'.toNat_lt
        simp only [List.foldl] at hvalue
        simp only [List.cons.injEq, ← UInt8.toNat_inj, and_true]
        omega
  cases ip
  cases ip'
  cases hoctets
  rfl

/-- An entry includes what it covers or confuses, and among IPv4 addresses nothing else. -/
theorem includes_iff (b : InetAddress) (a : Added) (hnot : ¬a.Covers b) :
    a.Includes b ↔ a.Confuses b := by
  cases a with
  | single ip =>
      rw [Added.Includes, Added.Confuses, zero_iff, zero_iff]
      constructor
      · rintro ⟨hle, hge⟩
        have hsame := le_antisymm hle hge
        by_contra hzero
        have hpos : ip2long ip ≠ 0 := fun h => hzero ⟨h, hsame ▸ h⟩
        have hip : IsIpv4 ip := not_not.mp fun h => hpos ((zero_iff ip).mp (Or.inl h))
        have hb : IsIpv4 b := not_not.mp fun h => (hsame ▸ hpos) ((zero_iff b).mp (Or.inl h))
        rw [ip2long_eq, ip2long_eq, if_pos hip, if_pos hb] at hsame
        exact hnot (value_injective hip hb hsame).symm
      · rintro ⟨h, h'⟩
        rw [h, h']
        exact ⟨le_rfl, le_rfl⟩
  | pair low high =>
      rw [Added.Covers, SameFamily, SameFamily] at hnot
      rw [Added.Includes, Added.Confuses, zero_iff, zero_iff, ip2long_eq low, ip2long_eq b,
        ip2long_eq high]
      by_cases hlow : IsIpv4 low <;> by_cases hhigh : IsIpv4 high <;> by_cases hb : IsIpv4 b <;>
        simp only [hlow, hhigh, hb, if_true, if_false, true_iff, iff_true, true_and, and_true,
          not_true, not_false_eq_true, false_and, and_false, or_false, Nat.zero_le,
          and_self] at hnot ⊢ <;>
        omega

section Look

variable (platform : Platform) (getHostAddress : InetAddress → String)

theorem stands_after (b : InetAddress) (hist : List Added) :
    List.Forall₂ (Entry.Stands (ip2long b) (Added.Includes b))
      (after platform getHostAddress (hist.map Added.call)).range.all hist.reverse := by
  rw [Listing.range, List.forall₂_map_left_iff]
  induction hist with
  | nil => exact .nil
  | cons a hist ih =>
      rw [List.reverse_cons]
      cases a with
      | single ip => exact List.rel_append ih (.cons ⟨_, _, rfl, rfl, Iff.rfl⟩ .nil)
      | pair low high => exact List.rel_append ih (.cons ⟨_, _, rfl, rfl, Iff.rfl⟩ .nil)

theorem names_after (hist : List Added) :
    (after platform getHostAddress (hist.map Added.call)).host_names = [] ∧
      (after platform getHostAddress (hist.map Added.call)).end_names = [] := by
  induction hist with
  | nil => exact ⟨rfl, rfl⟩
  | cons a hist ih => cases a <;> exact ih

theorem contains_iff_includes (hist : List Added) (b : InetAddress) :
    ∃ r, (after platform getHostAddress (hist.map Added.call)).range.contains platform b =
        .ok r ∧ (r = true ↔ ∃ a ∈ hist, a.Includes b) := by
  obtain ⟨r, hr, hiff⟩ := containsLong_of_stands (stands_after platform getHostAddress b hist)
  obtain ⟨hhosts, hendings⟩ := names_after platform getHostAddress hist
  refine ⟨r, ?_, by simpa using hiff⟩
  rw [InetRange.contains, InetRange.checkHostEnding, InetRange.checkHost, hr]
  simp [Listing.range, hhosts, hendings]

end Look

/-- An address is contained only if an entry covers it, if and only if one does or none
confuses it with another address. -/
theorem contains_only_covered_iff (platform : Platform)
    (getHostAddress : InetAddress → String) (hist : List Added) (b : InetAddress) :
    ((after platform getHostAddress (hist.map Added.call)).range.contains platform b = .ok true →
        ∃ a ∈ hist, a.Covers b) ↔
      (∃ a ∈ hist, a.Covers b) ∨ ∀ a ∈ hist, ¬a.Confuses b := by
  obtain ⟨r, hr, hiff⟩ := contains_iff_includes platform getHostAddress hist b
  rw [hr]
  by_cases hcovered : ∃ a ∈ hist, a.Covers b
  · simp [hcovered]
  · have hincludes : (∃ a ∈ hist, a.Includes b) ↔ ∃ a ∈ hist, a.Confuses b := by
      refine exists_congr fun a => and_congr_right fun ha => includes_iff b a fun hcovers => ?_
      exact hcovered ⟨a, ha, hcovers⟩
    have hsome : (Except.ok r : Java Bool) = .ok true ↔ ∃ a ∈ hist, a.Confuses b := by
      rw [← hincludes, ← hiff]
      exact ⟨fun h => Except.ok.inj h, fun h => congrArg Except.ok h⟩
    rw [hsome]
    constructor
    · exact fun h => Or.inr fun a ha hconfuses => hcovered (h ⟨a, ha, hconfuses⟩)
    · rintro (h | h) ⟨a, ha, hconfuses⟩
      · exact h
      · exact absurd hconfuses (h a ha)

def loopback6 : InetAddress :=
  ⟨[0, 0, 0, 0, 0, 0, 0, 0, 0, 0, 0, 0, 0, 0, 0, 1], .inr rfl⟩

def remote6 : InetAddress :=
  ⟨[0x20, 1, 0x0d, 0xb8, 0, 0, 0, 0, 0, 0, 0, 0, 0, 0, 0, 1], .inr rfl⟩

/-- Once `::1` has been added, `2001:db8::1` is contained. -/
theorem not_contains_only_covered :
    ¬∀ (hist : List Added) (b : InetAddress),
      (after latin1 (fun _ => "") (hist.map Added.call)).range.contains latin1 b = .ok true →
        ∃ a ∈ hist, a.Covers b := by
  intro h
  have hcontains : (after latin1 (fun _ => "")
      ([Added.single loopback6].map Added.call)).range.contains latin1 remote6 = .ok true := by
    decide +kernel
  obtain ⟨a, ha, hcovers⟩ := h _ _ hcontains
  rw [List.mem_singleton.mp ha] at hcovers
  have hne : remote6 ≠ loopback6 := by decide
  exact hne hcovers

end TorAndroid.Socks.Range
