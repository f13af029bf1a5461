import Mathlib.Data.List.Basic

/-!
A byte stream read in fragments. The stream holds what its reader has not
consumed: a byte pushed back, the bytes the peer sends before it closes, and
the sizes at which the next array reads are cut. An array read of a positive
length returns at least one byte unless the stream has ended, and any number up
to what is there; reading a block to its full length undoes the cuts.
-/

namespace TorAndroid.Lib.Fragments

structure ByteStream where
  pushed : Option UInt8
  bytes : List UInt8
  cuts : List Nat
deriving DecidableEq, Repr

namespace ByteStream

def ofBytes (bytes : List UInt8) (cuts : List Nat) : ByteStream := ⟨none, bytes, cuts⟩

def content (s : ByteStream) : List UInt8 := s.pushed.toList ++ s.bytes

def read (s : ByteStream) : Option UInt8 × ByteStream :=
  match s.pushed, s.bytes with
  | some b, _ => (some b, { s with pushed := none })
  | none, b :: rest => (some b, { s with bytes := rest })
  | none, [] => (none, s)

/-- Push one byte back; there is room for one. -/
def unread (s : ByteStream) (b : UInt8) : Option ByteStream :=
  match s.pushed with
  | none => some { s with pushed := some b }
  | some _ => none

/-- One transfer of at most `len` bytes from below the pushback buffer. -/
def transfer (s : ByteStream) (len : Nat) : List UInt8 × ByteStream :=
  let limit := min len s.bytes.length
  let size :=
    match s.cuts with
    | [] => limit
    | n :: _ => min (max 1 n) limit
  (s.bytes.take size, { s with bytes := s.bytes.drop size, cuts := s.cuts.tail })

/-- One array read of at most `len` bytes; empty at the end of the stream. -/
def readSome (s : ByteStream) (len : Nat) : List UInt8 × ByteStream :=
  match len with
  | 0 => ([], s)
  | n + 1 =>
      match s.pushed with
      | none => s.transfer (n + 1)
      | some b =>
          let s := { s with pushed := none }
          if n = 0 then ([b], s)
          else
            let r := s.transfer n
            (b :: r.1, r.2)

/-- Array reads until `len` bytes are there; `none` when the stream ends
before. Each read returns at least one byte, so `len` reads are enough. -/
def readLoop : Nat → ByteStream → Nat → Option (List UInt8 × ByteStream)
  | _, s, 0 => some ([], s)
  | 0, _, _ + 1 => none
  | fuel + 1, s, len + 1 =>
      match s.readSome (len + 1) with
      | ([], _) => none
      | (b :: data, s') =>
          match readLoop fuel s' (len + 1 - (b :: data).length) with
          | some (rest, s'') => some (b :: data ++ rest, s'')
          | none => none

def readFully (s : ByteStream) (len : Nat) : Option (List UInt8 × ByteStream) :=
  readLoop len s len

@[simp] theorem content_ofBytes (bytes : List UInt8) (cuts : List Nat) :
    (ofBytes bytes cuts).content = bytes := rfl

theorem read_nil {s : ByteStream} (h : s.content = []) : s.read = (none, s) := by
  rcases s with ⟨_ | b, _ | ⟨c, rest⟩, cuts⟩ <;> simp [content] at h
  rfl

theorem read_cons {s : ByteStream} {b : UInt8} {rest : List UInt8}
    (h : s.content = b :: rest) :
    ∃ s', s.read = (some b, s') ∧ s'.content = rest ∧ s'.pushed = none := by
  rcases s with ⟨_ | p, _ | ⟨c, tail⟩, cuts⟩
  · simp [content] at h
  · simp only [content, Option.toList_none, List.nil_append, List.cons.injEq] at h
    obtain ⟨rfl, rfl⟩ := h
    exact ⟨_, rfl, rfl, rfl⟩
  · simp only [content, Option.toList_some, List.singleton_append, List.cons.injEq] at h
    obtain ⟨rfl, rfl⟩ := h
    exact ⟨_, rfl, rfl, rfl⟩
  · simp only [content, Option.toList_some, List.singleton_append, List.cons.injEq] at h
    obtain ⟨rfl, rfl⟩ := h
    exact ⟨_, rfl, rfl, rfl⟩

theorem content_of_read {s s' : ByteStream} {b : UInt8} (h : s.read = (some b, s')) :
    s.content = b :: s'.content := by
  rcases hcontent : s.content with _ | ⟨c, rest⟩
  · simp [read_nil hcontent] at h
  · obtain ⟨s'', hread, hrest, -⟩ := read_cons hcontent
    rw [h] at hread
    cases hread
    rw [hrest]

theorem unread_content {s : ByteStream} (h : s.pushed = none) (b : UInt8) :
    ∃ s', s.unread b = some s' ∧ s'.content = b :: s.content := by
  rcases s with ⟨p, bytes, cuts⟩
  cases h
  exact ⟨_, rfl, rfl⟩

theorem content_of_unread {s s' : ByteStream} {b : UInt8} (h : s.unread b = some s') :
    s'.content = b :: s.content := by
  rcases s with ⟨_ | p, bytes, cuts⟩ <;> simp [unread] at h
  subst h
  rfl

theorem transfer_content (s : ByteStream) (len : Nat) (h : s.pushed = none) :
    (s.transfer len).1 ++ (s.transfer len).2.content = s.bytes := by
  simp [transfer, content, h]

theorem transfer_length_le (s : ByteStream) (len : Nat) :
    (s.transfer len).1.length ≤ len := by
  simp only [transfer, List.length_take]
  split <;> omega

theorem transfer_ne_nil {s : ByteStream} {len : Nat} (hlen : 0 < len) (hs : s.bytes ≠ []) :
    (s.transfer len).1 ≠ [] := by
  have hpos : 0 < s.bytes.length := List.length_pos_iff.mpr hs
  apply List.ne_nil_of_length_pos
  simp only [transfer, List.length_take]
  split <;> omega

theorem readSome_content (s : ByteStream) (len : Nat) :
    (s.readSome len).1 ++ (s.readSome len).2.content = s.content := by
  cases len with
  | zero => rfl
  | succ n =>
      rcases s with ⟨_ | b, bytes, cuts⟩
      · exact transfer_content ⟨none, bytes, cuts⟩ (n + 1) rfl
      · simp only [readSome]
        split
        · rfl
        · have h := transfer_content ⟨none, bytes, cuts⟩ n rfl
          simpa [content] using h

theorem readSome_length_le (s : ByteStream) (len : Nat) :
    (s.readSome len).1.length ≤ len := by
  cases len with
  | zero => simp [readSome]
  | succ n =>
      rcases s with ⟨_ | b, bytes, cuts⟩
      · exact transfer_length_le _ _
      · simp only [readSome]
        split
        · simp
        · have h := transfer_length_le ⟨none, bytes, cuts⟩ n
          simpa using h

theorem readSome_eq_nil_iff (s : ByteStream) {len : Nat} (hlen : 0 < len) :
    (s.readSome len).1 = [] ↔ s.content = [] := by
  constructor
  · intro h
    rcases s with ⟨_ | b, bytes, cuts⟩
    · by_contra hne
      obtain ⟨n, rfl⟩ : ∃ n, len = n + 1 := ⟨len - 1, by omega⟩
      exact transfer_ne_nil hlen (by simpa [content] using hne) h
    · obtain ⟨n, rfl⟩ : ∃ n, len = n + 1 := ⟨len - 1, by omega⟩
      simp only [readSome] at h
      split at h <;> simp at h
  · intro h
    have hcontent := readSome_content s len
    rw [h] at hcontent
    exact (List.append_eq_nil_iff.mp hcontent).1

theorem readLoop_spec (fuel : Nat) (s : ByteStream) (len : Nat) (hfuel : len ≤ fuel) :
    (len ≤ s.content.length → ∃ s', readLoop fuel s len = some (s.content.take len, s') ∧
      s'.content = s.content.drop len) ∧
    (s.content.length < len → readLoop fuel s len = none) := by
  induction fuel generalizing s len with
  | zero =>
      obtain rfl : len = 0 := by omega
      exact ⟨fun _ => ⟨s, by simp [readLoop], by simp⟩, fun h => by omega⟩
  | succ fuel ih =>
      cases len with
      | zero => exact ⟨fun _ => ⟨s, by simp [readLoop], by simp⟩, fun h => by omega⟩
      | succ len =>
          have hcontent := readSome_content s (len + 1)
          have hle := readSome_length_le s (len + 1)
          have hnil := readSome_eq_nil_iff s (Nat.succ_pos len)
          rcases hread : s.readSome (len + 1) with ⟨_ | ⟨b, data⟩, s'⟩
          · rw [hread] at hnil
            have hempty : s.content = [] := hnil.mp rfl
            refine ⟨fun h => ?_, fun _ => by simp [readLoop, hread]⟩
            simp [hempty] at h
          · rw [hread] at hcontent hle
            simp only at hcontent hle
            have hlength : s.content.length = (b :: data).length + s'.content.length := by
              rw [← hcontent, List.length_append]
            obtain ⟨hgot, hshort⟩ := ih s' (len + 1 - (b :: data).length) (by
              simp only [List.length_cons]
              omega)
            constructor
            · intro h
              obtain ⟨s'', hloop, hrest⟩ := hgot (by omega)
              refine ⟨s'', ?_, ?_⟩
              · simp only [readLoop, hread, hloop]
                rw [← hcontent, List.take_append, List.take_of_length_le hle]
              · rw [hrest, ← hcontent, List.drop_append, List.drop_eq_nil_of_le hle]
                rfl
            · intro h
              simp only [readLoop, hread, hshort (by omega)]

/-- Reading a block to its full length takes exactly its bytes. -/
theorem readFully_append {s : ByteStream} {data rest : List UInt8}
    (h : s.content = data ++ rest) :
    ∃ s', s.readFully data.length = some (data, s') ∧ s'.content = rest := by
  obtain ⟨s', hloop, hcontent⟩ :=
    (readLoop_spec data.length s data.length (Nat.le_refl _)).1 (by simp [h])
  refine ⟨s', ?_, ?_⟩
  · rw [readFully, hloop, h, List.take_left]
  · rw [hcontent, h, List.drop_left]

theorem readFully_short {s : ByteStream} {len : Nat} (h : s.content.length < len) :
    s.readFully len = none :=
  (readLoop_spec len s len (Nat.le_refl _)).2 h

end ByteStream

end TorAndroid.Lib.Fragments
