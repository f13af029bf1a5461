import TorAndroid.Lib.CString

namespace TorAndroid.Dns

open TorAndroid.Lib.ByteBuffer
open TorAndroid.Lib.CString

/-- What the copying functions do to the memory behind `dest`; they return a pointer into it. -/
abbrev StringCopy := List UInt8 → Nat → List UInt8 → Option (List UInt8 × Nat)

def stpcpy : StringCopy := fun mem dest src => do
  let src_len ← strlen src
  let mem ← memcpy mem dest src src_len
  some (mem, dest + src_len)

/-- The inline `stpcpy` of `helpers.h`, for systems that have none. -/
def stpcpyInline : StringCopy
  | _, _, [] => none
  | mem, d, b :: s => do
      let mem ← store mem d [b]
      if b = 0 then some (mem, d) else stpcpyInline mem (d + 1) s

/-- The literal of the file's name. -/
def pdnsdCache : Text where
  bytes := "/pdnsd.cache".toList.map fun c => UInt8.ofNat c.toNat
  nonzero := by decide

/-- An array of `strlen(cache_dir) + sizeof("/pdnsd.cache")` bytes, which is not initialised. -/
abbrev PathArray (cache_dir : Text) := Room (cache_dir.length + pdnsdCache.length)

/-- The array `path` of `read_disk_cache` and `write_disk_cache` after the two copies. -/
def cachePath (copy : StringCopy) (mem : List UInt8) (path : Nat) (cache_dir : List UInt8) :
    Option (List UInt8) := do
  let (mem, dest) ← copy mem path cache_dir
  let (mem, _) ← copy mem dest (pdnsdCache.stored [])
  some mem

/-- The name of the file that is opened. -/
def openedFile (copy : StringCopy) (mem : List UInt8) (path : Nat) (cache_dir : List UInt8) :
    Option (List UInt8) := do
  let mem ← cachePath copy mem path cache_dir
  contents (mem.drop path)

section Copies

variable {copy : StringCopy} {ending : UInt8 → UInt8}

/-- The text is copied, and a pointer behind it is returned; `ending` is what becomes of the byte
there. -/
def Copies (ending : UInt8 → UInt8) (copy : StringCopy) : Prop :=
  ∀ (src : Text) (front window : List UInt8) (b : UInt8) (back rest : List UInt8),
    window.length = src.length →
      copy (front ++ window ++ b :: back) front.length (src.stored rest) =
        some (front ++ src.bytes ++ ending b :: back, front.length + src.length)

theorem stpcpy_copies : Copies id stpcpy := by
  intro src front window b back rest hwindow
  have hcopy : memcpy (front ++ window ++ b :: back) front.length (src.stored rest) src.length =
      some (front ++ src.bytes ++ b :: back) :=
    memcpy_append hwindow.symm front (b :: back) (0 :: rest)
  simp only [stpcpy, src.strlen_stored, hcopy, Option.bind_eq_bind, Option.bind_some, id_eq]

theorem stpcpyInline_copies : Copies (fun _ => 0) stpcpyInline := by
  rintro ⟨bytes, hnonzero⟩ front window b back rest hwindow
  have hstore : ∀ (front : List UInt8) (old new : UInt8) (back : List UInt8),
      store (front ++ old :: back) front.length [new] = some (front ++ new :: back) := by
    intro front old new back
    have h := @store_append UInt8 [old] [new] rfl front back
    simpa using h
  change window.length = bytes.length at hwindow
  change stpcpyInline _ _ (bytes ++ 0 :: rest) =
    some (front ++ bytes ++ 0 :: back, _ + bytes.length)
  induction bytes generalizing front window with
  | nil =>
      obtain rfl := List.length_eq_zero_iff.mp hwindow
      simp [stpcpyInline, hstore]
  | cons c bytes ih =>
      obtain ⟨old, window, rfl⟩ := List.exists_cons_of_length_eq_add_one hwindow
      rw [List.mem_cons, not_or] at hnonzero
      have hrest := ih hnonzero.2 (front ++ [c]) window (Nat.succ.inj hwindow)
      rw [List.length_append, List.length_singleton] at hrest
      rw [List.append_assoc front, List.cons_append, List.cons_append]
      have hstep : stpcpyInline (front ++ old :: (window ++ b :: back)) front.length
            (c :: (bytes ++ 0 :: rest)) =
          stpcpyInline (front ++ [c] ++ window ++ b :: back) (front.length + 1)
            (bytes ++ 0 :: rest) := by
        simp [stpcpyInline, hstore, Ne.symm hnonzero.1]
      rw [hstep, hrest]
      simp [Nat.add_comm, Nat.add_left_comm]

/-- The path is put together, and `ending` is what becomes of the last byte of the array. -/
theorem cachePath_eq (h : Copies ending copy) (cache_dir : Text) (path : PathArray cache_dir)
    (rest : List UInt8) :
    cachePath copy path.memory path.address (cache_dir.stored rest) =
      some (path.front ++ (cache_dir.append pdnsdCache).bytes ++
        ending path.last :: path.back) := by
  obtain ⟨front, bytes, last, back, hlength⟩ := path
  -- the array is cut where the file's name begins
  have hwindow : (bytes.take cache_dir.length).length = cache_dir.length :=
    List.length_take_of_le (hlength ▸ Nat.le_add_right _ _)
  have htail : (bytes.drop cache_dir.length).length = pdnsdCache.length := by
    rw [List.length_drop, hlength, Nat.add_sub_cancel_left]
  obtain ⟨b, window, hcut⟩ := List.exists_cons_of_length_eq_add_one htail
  rw [hcut] at htail
  have hstack : front ++ bytes ++ last :: back =
      front ++ bytes.take cache_dir.length ++ b :: (window ++ last :: back) := by
    rw [← List.cons_append, ← hcut, ← List.append_assoc (front ++ _),
      List.append_assoc front (bytes.take _), List.take_append_drop]
  have hdir := h cache_dir front _ b (window ++ last :: back) rest hwindow
  have hname := h pdnsdCache (front ++ cache_dir.bytes) (ending b :: window) last back [] htail
  rw [cachePath, Room.memory, Room.address, hstack, hdir, Option.bind_eq_bind,
    Option.bind_some]
  rw [List.append_assoc (front ++ cache_dir.bytes), List.cons_append, List.length_append] at hname
  change (copy _ (front.length + cache_dir.bytes.length) _ >>= _) = _
  rw [hname, Option.bind_eq_bind, Option.bind_some]
  simp [Text.append]

theorem openedFile_eq (h : Copies ending copy) (cache_dir : Text) (path : PathArray cache_dir)
    (rest : List UInt8) :
    openedFile copy path.memory path.address (cache_dir.stored rest) =
      contents ((cache_dir.append pdnsdCache).bytes ++ ending path.last :: path.back) := by
  rw [openedFile, cachePath_eq h, Option.bind_eq_bind, Option.bind_some, Room.address,
    List.append_assoc, List.drop_left]

theorem openedFile_eq_some_iff (h : Copies ending copy) (cache_dir : Text)
    (path : PathArray cache_dir) (rest : List UInt8) :
    openedFile copy path.memory path.address (cache_dir.stored rest) =
      some (cache_dir.append pdnsdCache).bytes ↔ ending path.last = 0 := by
  rw [openedFile_eq h, Text.contents_append_iff]

theorem stpcpy_eq_inline_iff (src : Text) (room : Room src.length) (rest : List UInt8) :
    stpcpy room.memory room.address (src.stored rest) =
      stpcpyInline room.memory room.address (src.stored rest) ↔ room.last = 0 := by
  rw [Room.memory, Room.address,
    stpcpy_copies src room.front room.window room.last room.back rest room.length_window,
    stpcpyInline_copies src room.front room.window room.last room.back rest room.length_window]
  simp

end Copies

/-- Both functions do the same, and the file of the cache is opened, if and only if the zero that
is not copied is there beforehand. -/
theorem stpcpy_right_iff (src : Text) (room : Room src.length) (cache_dir : Text)
    (path : PathArray cache_dir) (rest : List UInt8) :
    (stpcpy room.memory room.address (src.stored rest) =
        stpcpyInline room.memory room.address (src.stored rest) ↔ room.last = 0) ∧
      (openedFile stpcpy path.memory path.address (cache_dir.stored rest) =
        some (cache_dir.append pdnsdCache).bytes ↔ path.last = 0) :=
  ⟨stpcpy_eq_inline_iff src room rest, openedFile_eq_some_iff stpcpy_copies cache_dir path rest⟩

/-- The directory `/c`. -/
def shortDir : Text where
  bytes := [47, 99]
  nonzero := by decide

/-- An array full of the letter `x`. -/
def usedArray : PathArray shortDir where
  front := []
  window := List.replicate 14 120
  last := 120
  back := [0]
  length_window := by decide

theorem openedFile_usedArray :
    openedFile stpcpy usedArray.memory usedArray.address (shortDir.stored []) =
        some ((shortDir.append pdnsdCache).bytes ++ [120]) ∧
      ¬∀ (cache_dir : Text) (path : PathArray cache_dir) (rest : List UInt8),
        openedFile stpcpy path.memory path.address (cache_dir.stored rest) =
          some (cache_dir.append pdnsdCache).bytes := by
  have hopened : openedFile stpcpy usedArray.memory usedArray.address (shortDir.stored []) =
      some ((shortDir.append pdnsdCache).bytes ++ [120]) := by decide
  refine ⟨hopened, fun h => ?_⟩
  have hright := hopened.symm.trans (h shortDir usedArray [])
  exact absurd hright (by decide)

end TorAndroid.Dns
