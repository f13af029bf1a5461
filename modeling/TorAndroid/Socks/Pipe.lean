import TorAndroid.Socks.Basic
import Mathlib.Data.List.Basic

namespace TorAndroid.Socks.Pipe

open TorAndroid.Socks.Basic

def BUF_SIZE : Nat := 8192

/-- What one call of `in.read` stores in the buffer. -/
structure Block where
  bytes : List UInt8
  fits : bytes.length ≤ BUF_SIZE

/-- A call of `in.read(buf)`: its result, with nothing at the end of the stream, what the pipe
of the other direction has stored in `lastReadTime` meanwhile, and the clock afterwards. -/
structure Reading where
  result : Except IOKind (Option Block)
  stored : Option Int
  currentTimeMillis : Int

/-- A block that was read is written at the start of the next turn. -/
structure State where
  buf : List UInt8
  len : Int
  lastReadTime : Int
  written : List UInt8

/-- How a call of `pipe` ends; while `in.read` blocks it does not. -/
inductive Outcome
  | returned
  | thrown (kind : IOKind)
  | reading

/-- `out.write(buf, 0, len)` for a block that was read. -/
def State.forward (s : State) : State :=
  if s.len ≠ 0 then { s with written := s.written ++ s.buf.take s.len.toNat } else s

/-- The loop, and the calls of `in.read` that it does not get to. -/
def pipeLoop (iddleTimeout : Int32) : List Reading → State → Outcome × State × List Reading
  | [], s =>
      if 0 ≤ s.len then (.reading, s.forward, [])
      else (.returned, s, [])
  | r :: rest, s =>
      if 0 ≤ s.len then
        let s := { s.forward with lastReadTime := r.stored.getD s.lastReadTime }
        match r.result with
        | .ok (some block) =>
            pipeLoop iddleTimeout rest
              { s with
                buf := block.bytes ++ s.buf.drop block.bytes.length
                len := block.bytes.length
                lastReadTime := r.currentTimeMillis }
        | .ok none =>
            pipeLoop iddleTimeout rest { s with len := -1, lastReadTime := r.currentTimeMillis }
        | .error .interrupted =>
            if iddleTimeout = 0 then (.returned, s, rest)
            else if (iddleTimeout - 1000).toInt ≤ r.currentTimeMillis - s.lastReadTime then
              (.returned, s, rest)
            else pipeLoop iddleTimeout rest { s with len := 0 }
        | .error kind => (.thrown kind, s, rest)
      else (.returned, s, r :: rest)

def pipe (iddleTimeout : Int32) (currentTimeMillis : Int) (readings : List Reading) :
    Outcome × State × List Reading :=
  pipeLoop iddleTimeout readings ⟨List.replicate BUF_SIZE 0, 0, currentTimeMillis, []⟩

/-- The bytes a call of `in.read` brings. -/
def Reading.bytes (r : Reading) : List UInt8 :=
  match r.result with
  | .ok (some block) => block.bytes
  | _ => []

/-- `lastReadTime` after the call, when it was `t` before. -/
def Reading.stamp (t : Int) (r : Reading) : Int :=
  match r.result with
  | .ok _ => r.currentTimeMillis
  | .error _ => r.stored.getD t

/-- The time of the last read after these calls of `in.read`. -/
def lastRead (t : Int) (readings : List Reading) : Int :=
  readings.foldl Reading.stamp t

/-- Neither the end of the stream nor an exception that `pipe` lets through. -/
def Reading.Passes (r : Reading) : Prop :=
  (∃ block, r.result = .ok (some block)) ∨ r.result = .error .interrupted

/-- Why a call of `pipe` that started at time `t` ends after these calls of `in.read`. -/
def Ends (iddleTimeout : Int32) (t : Int) (readings : List Reading) : Outcome → Prop
  | .returned => ∃ before r, readings = before ++ [r] ∧ (∀ x ∈ before, x.Passes) ∧
      (r.result = .ok none ∨ r.result = .error .interrupted ∧ (iddleTimeout = 0 ∨
        iddleTimeout.toInt - 1000 ≤
          r.currentTimeMillis - r.stored.getD (lastRead t before)))
  | .thrown kind => ∃ before r, readings = before ++ [r] ∧ (∀ x ∈ before, x.Passes) ∧
      r.result = .error kind ∧ kind ≠ .interrupted
  | .reading => ∀ x ∈ readings, x.Passes

section Proofs

variable {iddleTimeout : Int32} {t : Int} {r : Reading} {readings rest : List Reading} {s : State}
  {outcome : Outcome}

/-- The bytes that were read and are not written yet. -/
def State.pending (s : State) : List UInt8 :=
  s.buf.take s.len.toNat

theorem State.written_forward (s : State) : s.forward.written = s.written ++ s.pending := by
  rw [forward, pending]
  split_ifs with hlen
  · rfl
  · rw [not_not.mp hlen, Int.toNat_zero, List.take_zero, List.append_nil]

theorem lastRead_cons (t : Int) (r : Reading) (readings : List Reading) :
    lastRead t (r :: readings) = lastRead (r.stamp t) readings :=
  rfl

theorem Ends.cons (hr : r.Passes) (h : Ends iddleTimeout (r.stamp t) readings outcome) :
    Ends iddleTimeout t (r :: readings) outcome := by
  cases outcome with
  | returned =>
      obtain ⟨before, x, rfl, hpass, hx⟩ := h
      refine ⟨r :: before, x, rfl, List.forall_mem_cons.mpr ⟨hr, hpass⟩, ?_⟩
      rw [lastRead_cons]
      exact hx
  | thrown kind =>
      obtain ⟨before, x, rfl, hpass, hx⟩ := h
      exact ⟨r :: before, x, rfl, List.forall_mem_cons.mpr ⟨hr, hpass⟩, hx⟩
  | reading => exact List.forall_mem_cons.mpr ⟨hr, h⟩

/-- The subtraction in `int` does not make the bound smaller. -/
theorem le_toInt_sub (iddleTimeout : Int32) :
    iddleTimeout.toInt - 1000 ≤ (iddleTimeout - 1000).toInt := by
  have hlow := iddleTimeout.le_toInt
  have hhigh := iddleTimeout.toInt_lt
  rw [Int32.toInt_sub]
  change _ ≤ (iddleTimeout.toInt - 1000).bmod (2 ^ 32)
  rw [Int.bmod_def]
  split_ifs <;> omega

theorem pipeLoop_returned (hlen : s.len < 0) (readings : List Reading) :
    pipeLoop iddleTimeout readings s = (.returned, s, readings) := by
  cases readings <;> rw [pipeLoop, if_neg (Int.not_le.mpr hlen)]

/-- The state in which the result of `in.read` is looked at. -/
def State.await (s : State) (r : Reading) : State :=
  { s.forward with lastReadTime := r.stored.getD s.lastReadTime }

theorem pipeLoop_block (hlen : 0 ≤ s.len) {block : Block} (hr : r.result = .ok (some block)) :
    pipeLoop iddleTimeout (r :: readings) s = pipeLoop iddleTimeout readings { s.await r with
      buf := block.bytes ++ (s.await r).buf.drop block.bytes.length
      len := block.bytes.length
      lastReadTime := r.currentTimeMillis } := by
  rw [pipeLoop, if_pos hlen]
  simp only [hr]
  rfl

theorem pipeLoop_end (hlen : 0 ≤ s.len) (hr : r.result = .ok none) :
    pipeLoop iddleTimeout (r :: readings) s = (.returned,
      { s.await r with len := -1, lastReadTime := r.currentTimeMillis }, readings) := by
  rw [pipeLoop, if_pos hlen]
  simp only [hr]
  exact pipeLoop_returned (by decide : (-1 : Int) < 0) readings

theorem pipeLoop_interrupted (hlen : 0 ≤ s.len) (hr : r.result = .error .interrupted) :
    pipeLoop iddleTimeout (r :: readings) s =
      if iddleTimeout = 0 ∨
          (iddleTimeout - 1000).toInt ≤ r.currentTimeMillis - (s.await r).lastReadTime then
        (.returned, s.await r, readings)
      else pipeLoop iddleTimeout readings { s.await r with len := 0 } := by
  rw [pipeLoop, if_pos hlen]
  simp only [hr]
  by_cases hzero : iddleTimeout = 0
  · rw [if_pos hzero, if_pos (.inl hzero)]
    rfl
  · rw [if_neg hzero]
    simp only [hzero, false_or]
    rfl

theorem pipeLoop_thrown (hlen : 0 ≤ s.len) {kind : IOKind} (hr : r.result = .error kind)
    (hkind : kind ≠ .interrupted) :
    pipeLoop iddleTimeout (r :: readings) s = (.thrown kind, s.await r, readings) := by
  rw [pipeLoop, if_pos hlen]
  simp only [hr]
  cases kind with
  | interrupted => exact absurd rfl hkind
  | _ => rfl

/-- The loop writes what is pending, and then the blocks in the order in which it reads them. -/
theorem pipeLoop_spec (iddleTimeout : Int32) (readings : List Reading) (s : State)
    (hlen : 0 ≤ s.len) :
    ∃ outcome t consumed rest, pipeLoop iddleTimeout readings s = (outcome, t, rest) ∧
      readings = consumed ++ rest ∧
      t.written = s.written ++ s.pending ++ consumed.flatMap Reading.bytes ∧
      Ends iddleTimeout s.lastReadTime consumed outcome ∧ (outcome = .reading → rest = []) := by
  induction readings generalizing s with
  | nil =>
      refine ⟨.reading, s.forward, [], [], by rw [pipeLoop, if_pos hlen], rfl, ?_,
        List.forall_mem_nil _, fun _ => rfl⟩
      rw [s.written_forward, List.flatMap_nil, List.append_nil]
  | cons r readings ih =>
      have hwritten : (s.await r).written = s.written ++ s.pending := s.written_forward
      cases hr : r.result with
      | ok arrival =>
          have hstamp : r.stamp s.lastReadTime = r.currentTimeMillis := by rw [Reading.stamp, hr]
          cases arrival with
          | some block =>
              have hbytes : r.bytes = block.bytes := by rw [Reading.bytes, hr]
              rw [pipeLoop_block hlen hr]
              obtain ⟨outcome, t, consumed, rest, ht, hsplit, hout, hends, hrest⟩ :=
                ih { s.await r with
                buf := block.bytes ++ (s.await r).buf.drop block.bytes.length
                len := block.bytes.length
                lastReadTime := r.currentTimeMillis } (Int.natCast_nonneg block.bytes.length)
              refine ⟨outcome, t, r :: consumed, rest, ht, by rw [hsplit, List.cons_append], ?_,
                .cons (.inl ⟨block, hr⟩) (hstamp ▸ hends), hrest⟩
              rw [hout, State.pending, Int.toNat_natCast, List.take_left', hwritten,
                List.flatMap_cons, hbytes, List.append_assoc _ block.bytes]
              rfl
          | none =>
              have hbytes : r.bytes = [] := by rw [Reading.bytes, hr]
              refine ⟨.returned, _, [r], readings, pipeLoop_end hlen hr, rfl, ?_, ⟨[], r, rfl,
                List.forall_mem_nil _, .inl hr⟩, nofun⟩
              rw [List.flatMap_singleton, hbytes, List.append_nil]
              exact hwritten
      | error kind =>
          have hstamp : r.stamp s.lastReadTime = (s.await r).lastReadTime := by
            rw [Reading.stamp, hr]
            rfl
          have hbytes : r.bytes = [] := by rw [Reading.bytes, hr]
          by_cases hkind : kind = .interrupted
          · subst hkind
            rw [pipeLoop_interrupted hlen hr]
            split_ifs with hidle
            · refine ⟨.returned, _, [r], readings, rfl, rfl, ?_, ⟨[], r, rfl,
                List.forall_mem_nil _,
                .inr ⟨hr, hidle.imp_right (Int.le_trans (le_toInt_sub iddleTimeout))⟩⟩, nofun⟩
              rw [List.flatMap_singleton, hbytes, List.append_nil]
              exact hwritten
            · obtain ⟨outcome, t, consumed, rest, ht, hsplit, hout, hends, hrest⟩ :=
                ih { s.await r with len := 0 } (Int.le_refl 0)
              refine ⟨outcome, t, r :: consumed, rest, ht, by rw [hsplit, List.cons_append], ?_,
                .cons (.inr hr) (hstamp ▸ hends), hrest⟩
              rw [hout, State.pending, Int.toNat_zero, List.take_zero, List.append_nil,
                List.flatMap_cons, hbytes, List.nil_append]
              exact congrArg (· ++ _) hwritten
          · refine ⟨.thrown kind, _, [r], readings, pipeLoop_thrown hlen hr hkind, rfl, ?_, ⟨[], r,
              rfl, List.forall_mem_nil _, hr, hkind⟩, nofun⟩
            rw [List.flatMap_singleton, hbytes, List.append_nil]
            exact hwritten

/-- What `pipe` writes are the blocks that it has read, all of them, once and in order. It ends
when the stream does or when it has been idle for long enough, and it does end when the
stream does. -/
theorem pipe_forwards (iddleTimeout : Int32) (currentTimeMillis : Int) (readings : List Reading) :
    ∃ outcome s consumed rest,
      pipe iddleTimeout currentTimeMillis readings = (outcome, s, rest) ∧
      readings = consumed ++ rest ∧ s.written = consumed.flatMap Reading.bytes ∧
      Ends iddleTimeout currentTimeMillis consumed outcome ∧
      ((∃ r ∈ readings, ¬r.Passes) → outcome ≠ .reading) := by
  obtain ⟨outcome, s, consumed, rest, hs, hsplit, hout, hends, hrest⟩ := pipeLoop_spec iddleTimeout
    readings ⟨List.replicate BUF_SIZE 0, 0, currentTimeMillis, []⟩ (Int.le_refl 0)
  refine ⟨outcome, s, consumed, rest, hs, hsplit, ?_, hends, ?_⟩
  · rw [hout, State.pending, Int.toNat_zero, List.take_zero, List.append_nil, List.nil_append]
  · rintro ⟨r, hr, hpass⟩ rfl
    rw [hsplit, hrest rfl, List.append_nil] at hr
    exact hpass (hends r hr)

end Proofs

end TorAndroid.Socks.Pipe
