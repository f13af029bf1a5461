import TorAndroid.Lib.ByteBuffer

namespace TorAndroid.Lib.CString

open TorAndroid.Lib.ByteBuffer

/-- The length of the string that the memory begins with, if the string ends within it. -/
def strlen : List UInt8 → Option Nat
  | [] => none
  | b :: mem => if b = 0 then some 0 else (strlen mem).map (· + 1)

/-- The string that the memory begins with. -/
def contents (mem : List UInt8) : Option (List UInt8) :=
  (strlen mem).map mem.take

def memcpy (mem : List UInt8) (dest : Nat) (src : List UInt8) (n : Nat) : Option (List UInt8) :=
  (load src 0 n).bind (store mem dest)

/-- The bytes before the zero. -/
structure Text where
  bytes : List UInt8
  nonzero : 0 ∉ bytes

namespace Text

def length (text : Text) : Nat :=
  text.bytes.length

def append (front back : Text) : Text where
  bytes := front.bytes ++ back.bytes
  nonzero h := (List.mem_append.mp h).elim front.nonzero back.nonzero

/-- Memory that begins with the text and its zero. -/
def stored (text : Text) (rest : List UInt8) : List UInt8 :=
  text.bytes ++ 0 :: rest

theorem length_append (front back : Text) :
    (front.append back).length = front.length + back.length :=
  List.length_append

theorem strlen_bytes_append (text : Text) (mem : List UInt8) :
    strlen (text.bytes ++ mem) = (strlen mem).map (· + text.length) := by
  obtain ⟨bytes, hnonzero⟩ := text
  change strlen (bytes ++ mem) = (strlen mem).map (· + bytes.length)
  induction bytes with
  | nil => exact Option.map_id'.symm
  | cons b bytes ih =>
      rw [List.mem_cons, not_or] at hnonzero
      rw [List.cons_append, strlen, if_neg (Ne.symm hnonzero.1), ih hnonzero.2, Option.map_map]
      rfl

theorem strlen_stored (text : Text) (rest : List UInt8) :
    strlen (text.stored rest) = some text.length := by
  rw [stored, strlen_bytes_append, strlen, if_pos rfl, Option.map_some, Nat.zero_add]

theorem contents_append_iff (text : Text) (b : UInt8) (rest : List UInt8) :
    contents (text.bytes ++ b :: rest) = some text.bytes ↔ b = 0 := by
  rw [contents, strlen_bytes_append, strlen]
  split_ifs with hb
  · refine iff_of_true ?_ hb
    rw [Option.map_some, Option.map_some, Nat.zero_add]
    exact congrArg some List.take_left
  · refine iff_of_false ?_ hb
    intro h
    rw [Option.map_map, Option.map_map] at h
    obtain ⟨m, -, htake⟩ := Option.map_eq_some_iff.mp h
    change (text.bytes ++ b :: rest).take (m + 1 + text.bytes.length) = text.bytes at htake
    -- the string that is read is longer than the text
    have hlength := congrArg List.length htake
    rw [List.length_take, List.length_append, List.length_cons] at hlength
    omega

end Text

/-- Memory that has room for `n` bytes and a zero at an address, whatever is in it. -/
structure Room (n : Nat) where
  front : List UInt8
  window : List UInt8
  last : UInt8
  back : List UInt8
  length_window : window.length = n

namespace Room

variable {n : Nat} (room : Room n)

def memory : List UInt8 :=
  room.front ++ room.window ++ room.last :: room.back

def address : Nat :=
  room.front.length

end Room

/-- As many bytes of memory as the new ones are replaced by them. -/
theorem memcpy_append {window src : List UInt8} (h : src.length = window.length)
    (front back rest : List UInt8) :
    memcpy (front ++ window ++ back) front.length (src ++ rest) src.length =
      some (front ++ src ++ back) := by
  have hload : load (src ++ rest) 0 src.length = some src := load_append [] src rest
  rw [memcpy, hload, Option.bind_some, store_append h]

end TorAndroid.Lib.CString
