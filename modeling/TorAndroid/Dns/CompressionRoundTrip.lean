import TorAndroid.Dns.Decompression

namespace TorAndroid.Dns

/-- A name in the list of `compress_name`.  Its last `shared` segments were
written as a reference. -/
structure Entry where
  index : Nat
  name : Name
  shared : Nat

namespace Entry

def el (g : Entry) : CompEl :=
  ⟨g.index, g.name.wire⟩

/-- The last `k` segments of the entry's name start in the bytes written for it. -/
def Covers (g : Entry) (k : Nat) : Prop :=
  g.shared < k ∧ k ≤ g.name.labels.length

/-- The offset in the message at which the last `k` segments would start. -/
def pos (g : Entry) (k : Nat) : Nat :=
  g.index + g.name.offset k

end Entry

/-- One turn of the loop of `compress_name`, on names. -/
def pick (n : Name) (best : Best) (g : Entry) : Best :=
  if best.longest < n.common g.name ∧ g.pos (n.common g.name) % 2 ^ 32 ≤ 0x3fff then
    ⟨n.common g.name, n.offset (n.common g.name), g.pos (n.common g.name) % 2 ^ 32⟩
  else best

/-- The bytes written for a name. -/
def emit (n : Name) (best : Best) : List UInt8 :=
  if 0 < best.longest then (n.head best.longest).flatMap Label.wire ++ pointerBytes best.coffs
  else n.wire

/-- The entries a call adds. -/
def added (n : Name) (offs : Nat) (best : Best) : List Entry :=
  if 0 < best.longest ∧ n.offset best.longest = 0 then [] else [⟨offs, n, best.longest⟩]

theorem Name.Valid.labels_length {n : Name} (h : n.Valid) : n.labels.length < 128 := by
  have hlen := h.length_le
  have hcount := n.labels_length_le
  rw [Name.wire_length] at hlen
  omega

theorem tryEntry_eq {n : Name} {g : Entry} (hn : n.Valid) (hg : g.name.Valid) (best : Best) :
    tryEntry n.wire best g.el = some (pick n best g) := by
  have hmatch := domainMatch_wire n g.name (Nat.le_of_lt hn.labels_length)
    (Nat.le_of_lt hg.labels_length)
  rw [tryEntry, show domainMatch n.wire g.el.s = _ from hmatch]
  change (if best.longest < n.common g.name then
      if g.pos (n.common g.name) % 2 ^ 32 ≤ 0x3fff then
        some ⟨n.common g.name, n.offset (n.common g.name), g.pos (n.common g.name) % 2 ^ 32⟩
      else some best
    else some best) = some (pick n best g)
  rw [pick]
  grind

theorem foldlM_tryEntry {n : Name} {G : List Entry} (hn : n.Valid)
    (hG : ∀ g ∈ G, g.name.Valid) (best : Best) :
    (G.map Entry.el).foldlM (tryEntry n.wire) best = some (G.foldl (pick n) best) := by
  induction G generalizing best with
  | nil => rfl
  | cons g G ih =>
      rw [List.forall_mem_cons] at hG
      simp only [List.map_cons, List.foldlM_cons, tryEntry_eq hn hG.1, Option.bind_eq_bind,
        Option.bind_some, List.foldl_cons]
      exact ih hG.2 _

/-- The reference chosen is to a part of the name of this length. -/
def Best.Fits (n : Name) (best : Best) : Prop :=
  best.longest ≤ n.labels.length ∧ (0 < best.longest → best.lrem = n.offset best.longest)

theorem foldl_pick_fits (n : Name) (G : List Entry) {best : Best} (h : best.Fits n) :
    (G.foldl (pick n) best).Fits n := by
  induction G generalizing best with
  | nil => exact h
  | cons g G ih =>
      refine ih ?_
      rw [pick]
      split_ifs
      · exact ⟨(Name.le_common.mp (Nat.le_refl _)).1, fun _ => rfl⟩
      · exact h

theorem Name.take_offset (n : Name) (k : Nat) :
    n.wire.take (n.offset k) = (n.head k).flatMap Label.wire := by
  rw [Name.wire, ← n.head_append_tail k, List.flatMap_append, List.append_assoc,
    ← n.labelsLen_head, ← flatMap_wire_length, List.take_left]

theorem Name.offset_add_two_lt {n : Name} {k : Nat} (hk : 0 < k) (hle : k ≤ n.labels.length) :
    n.offset k + 2 < n.wire.length := by
  have hsum := n.offset_add_tail k
  have hcount := Name.labels_length_le ⟨n.tail k⟩
  simp only [n.tail_length hle] at hcount
  rw [Name.wire_length]
  omega

/-- No assertion fires, and this is what a call writes and adds. -/
theorem compressName_eq {n : Name} {G : List Entry} (hn : n.Valid)
    (hG : ∀ g ∈ G, g.name.Valid) (offs : Nat) :
    compressName n.wire offs (G.map Entry.el) =
      some (emit n (G.foldl (pick n) ⟨0, 0, 0⟩),
        (G ++ added n offs (G.foldl (pick n) ⟨0, 0, 0⟩)).map Entry.el) := by
  have hstart : Best.Fits n ⟨0, 0, 0⟩ := ⟨Nat.zero_le _, fun h => absurd h (Nat.lt_irrefl 0)⟩
  obtain ⟨hle, hlrem⟩ := foldl_pick_fits n G hstart
  have hlen := hn.length_le
  simp only [compressName, rhnlen_wire, foldlM_tryEntry hn hG, Option.bind_eq_bind,
    Option.bind_some, emit, added, List.take_length]
  generalize G.foldl (pick n) ⟨0, 0, 0⟩ = best at hle hlrem ⊢
  rw [if_neg (by simp [dnsNameBufSize]; omega)]
  by_cases hlong : 0 < best.longest
  · have hfit := Name.offset_add_two_lt hlong hle
    rw [if_pos hlong, if_pos hlong, hlrem hlong, if_neg (by omega), n.take_offset]
    by_cases hzero : n.offset best.longest = 0
    · rw [if_neg (by simpa using hzero), if_pos ⟨hlong, hzero⟩, List.append_nil]
    · rw [if_pos hzero, if_neg fun h => hzero h.2, List.map_append]
      rfl
  · rw [if_neg hlong, if_neg hlong, if_neg fun h => hlong h.1, List.map_append]
    rfl

theorem emit_length_le {n : Name} {best : Best} (hbest : best.Fits n) :
    (emit n best).length ≤ n.wire.length := by
  rw [emit]
  split_ifs with hlong
  · have hfit := Name.offset_add_two_lt hlong hbest.1
    rw [List.length_append, flatMap_wire_length, n.labelsLen_head]
    simp only [pointerBytes, List.length_cons, List.length_nil]
    omega
  · exact Nat.le_refl _

/-- The offsets, within the bytes written for a name, at which a segment or a
reference starts. -/
def itemStarts : Nat → Nat → List UInt8 → List Nat
  | _, _, [] => []
  | 0, p, b :: bs =>
      if b = 0 then []
      else if 0x3f < b then [p]
      else p :: itemStarts b.toNat (p + 1) bs
  | skip + 1, p, _ :: bs => itemStarts skip (p + 1) bs

/-- The offset a written name refers to, if it ends in a reference. -/
def pointerIn : Nat → List UInt8 → Option Nat
  | _, [] => none
  | 0, b :: bs =>
      if b = 0 then none
      else if 0x3f < b then bs.head?.map fun lo => pointerOffset b lo
      else pointerIn b.toNat bs
  | skip + 1, _ :: bs => pointerIn skip bs

theorem itemStarts_skip (p : Nat) (as bs : List UInt8) :
    itemStarts as.length p (as ++ bs) = itemStarts 0 (p + as.length) bs := by
  induction as generalizing p with
  | nil => rfl
  | cons a as ih =>
      rw [List.length_cons, List.cons_append, itemStarts, ih]
      congr 1
      omega

theorem pointerIn_skip (as bs : List UInt8) :
    pointerIn as.length (as ++ bs) = pointerIn 0 bs := by
  induction as with
  | nil => rfl
  | cons a as ih => exact ih

theorem itemStarts_label {l : Label} (h : l.bytes.length ≤ 63) (p : Nat) (bs : List UInt8) :
    itemStarts 0 p (l.wire ++ bs) = p :: itemStarts 0 (p + l.wire.length) bs := by
  obtain ⟨hne, hsmall⟩ := l.byte_facts h
  rw [Label.wire, List.cons_append, itemStarts, if_neg hne, if_neg hsmall, l.lengthByte,
    itemStarts_skip, List.length_cons]
  congr 2
  omega

theorem pointerIn_labels {ls : List Label} (h : ∀ l ∈ ls, l.bytes.length ≤ 63)
    (bs : List UInt8) : pointerIn 0 (ls.flatMap Label.wire ++ bs) = pointerIn 0 bs := by
  induction ls with
  | nil => rfl
  | cons l ls ih =>
      rw [List.forall_mem_cons] at h
      obtain ⟨hne, hsmall⟩ := l.byte_facts h.1
      rw [List.flatMap_cons, List.append_assoc, Label.wire, List.cons_append, pointerIn,
        if_neg hne, if_neg hsmall, l.lengthByte, pointerIn_skip, ih h.2]

theorem mem_itemStarts (p : Nat) (as : List Label) (b : Label) (bs : List Label)
    (rest : List UInt8) (h : ∀ l ∈ as ++ b :: bs, l.bytes.length ≤ 63) :
    p + labelsLen as ∈ itemStarts 0 p ((as ++ b :: bs).flatMap Label.wire ++ rest) := by
  induction as generalizing p with
  | nil =>
      rw [List.nil_append, List.flatMap_cons, List.append_assoc,
        itemStarts_label (h b (by simp))]
      simp
  | cons a as ih =>
      rw [List.cons_append, List.forall_mem_cons] at h
      rw [List.cons_append, List.flatMap_cons, List.append_assoc, itemStarts_label h.1,
        labelsLen_cons, List.mem_cons]
      right
      have := ih (p + a.wire.length) h.2
      rwa [Nat.add_assoc] at this

/-- What the bytes of the message and the entries have to do with each other.
`done` lists the offsets and the bytes written so far, which end before `bound`. -/
structure Consistent (msg : List UInt8) (G : List Entry) (done : List (Nat × List UInt8))
    (bound : Nat) : Prop where
  valid : ∀ g ∈ G, g.name.Valid
  small : ∀ g ∈ G, g.index + g.name.wire.length ≤ 2 ^ 32
  /-- What an entry wrote out can be read where it stands. -/
  reads : ∀ g ∈ G, ∀ k, g.Covers k → ∃ ls h, Reads msg (g.pos k) ls h ∧
    ls.map Label.fold = (g.name.tail k).map Label.fold ∧ h < k
  starts : ∀ g ∈ G, ∀ k, g.Covers k →
    ∃ x ∈ done, ∃ s ∈ itemStarts 0 0 x.2, g.pos k = x.1 + s
  below : ∀ g ∈ G, ∀ k, g.Covers k → g.pos k < bound
  ordered : G.Pairwise fun f g => ∀ k, f.Covers k → f.pos k < g.index
  /-- What an entry did not write out, an earlier one did. -/
  earlier : ∀ pre g post, G = pre ++ g :: post → ∀ k, 0 < k → k ≤ g.shared →
    ∃ f ∈ pre, f.Covers k ∧ k ≤ g.name.common f.name

theorem Name.offset_anti (n : Name) {j k : Nat} (h : j ≤ k) : n.offset k ≤ n.offset j := by
  rw [Name.offset, Name.offset, ← labelsLen_take_add_drop (n.labels.reverse.drop j) (k - j),
    List.drop_drop, show j + (k - j) = k by omega]
  omega

theorem Name.common_trans {a b c : Name} {k : Nat} (hab : k ≤ a.common b) (hbc : k ≤ b.common c) :
    k ≤ a.common c := by
  rw [Name.le_common] at hab hbc ⊢
  exact ⟨hab.1, hbc.2.1, hab.2.2.trans hbc.2.2⟩

theorem Name.offset_lt_wire (n : Name) (k : Nat) : n.offset k < n.wire.length := by
  have := n.offset_add_tail k
  rw [Name.wire_length]
  omega

/-- The state of the search after the entries `pre`: the reference is to bytes
that were written out, and no entry of `pre` offers a longer one. -/
structure Searched (n : Name) (pre : List Entry) (best : Best) : Prop where
  found : 0 < best.longest → ∃ g ∈ pre, g.Covers best.longest ∧
    best.longest ≤ n.common g.name ∧ best.coffs = g.pos best.longest ∧ best.coffs ≤ 0x3fff
  longest : ∀ g ∈ pre, ∀ k, g.Covers k → k ≤ n.common g.name → g.pos k ≤ 0x3fff →
    k ≤ best.longest

theorem Searched.step {n : Name} {pre : List Entry} {best : Best} {g : Entry}
    (h : Searched n pre best) (hsmall : g.index + g.name.wire.length ≤ 2 ^ 32)
    (hordered : ∀ f ∈ pre, ∀ k, f.Covers k → f.pos k < g.index)
    (hearlier : ∀ k, 0 < k → k ≤ g.shared → ∃ f ∈ pre, f.Covers k ∧
      k ≤ g.name.common f.name) :
    Searched n (pre ++ [g]) (pick n best g) := by
  have hcommon := Name.le_common.mp (Nat.le_refl (n.common g.name))
  have hnowrap : g.pos (n.common g.name) % 2 ^ 32 = g.pos (n.common g.name) := by
    have := g.name.offset_lt_wire (n.common g.name)
    refine Nat.mod_eq_of_lt ?_
    rw [Entry.pos]
    omega
  rw [pick, hnowrap]
  split_ifs with hpick
  · have hcovers : g.Covers (n.common g.name) := by
      refine ⟨Nat.lt_of_not_le fun hshared => ?_, hcommon.2.1⟩
      -- an earlier entry wrote these segments out, at a smaller offset
      obtain ⟨f, hf, hcov, hfg⟩ := hearlier _ (Nat.zero_lt_of_lt hpick.1) hshared
      have hpos := hordered f hf _ hcov
      have hle := h.longest f hf _ hcov (Name.common_trans (Nat.le_refl _) hfg) (by
        have := hpick.2
        rw [Entry.pos] at this
        omega)
      exact absurd hpick.1 (Nat.not_lt.mpr hle)
    refine ⟨fun _ => ⟨g, by simp, hcovers, Nat.le_refl _, rfl, hpick.2⟩, ?_⟩
    intro f hf k hcov hk hpos
    rcases List.mem_append.mp hf with hf | hf
    · exact Nat.le_trans (h.longest f hf k hcov hk hpos) (Nat.le_of_lt hpick.1)
    · obtain rfl : f = g := by simpa using hf
      exact hk
  · refine ⟨fun hpos => ?_, ?_⟩
    · obtain ⟨f, hf, hrest⟩ := h.found hpos
      exact ⟨f, List.mem_append_left _ hf, hrest⟩
    · intro f hf k hcov hk hpos
      rcases List.mem_append.mp hf with hf | hf
      · exact h.longest f hf k hcov hk hpos
      · obtain rfl : f = g := by simpa using hf
        refine Nat.le_of_not_lt fun hlt => hpick ⟨Nat.lt_of_lt_of_le hlt hk, ?_⟩
        have := f.name.offset_anti hk
        rw [Entry.pos] at hpos ⊢
        omega

theorem Consistent.searched {msg : List UInt8} {G : List Entry}
    {done : List (Nat × List UInt8)} {bound : Nat} (h : Consistent msg G done bound)
    (n : Name) : Searched n G (G.foldl (pick n) ⟨0, 0, 0⟩) := by
  suffices hgen : ∀ pre post best, G = pre ++ post → Searched n pre best →
      Searched n G (post.foldl (pick n) best) from
    hgen [] G ⟨0, 0, 0⟩ rfl ⟨fun hpos => absurd hpos (Nat.lt_irrefl 0), by simp⟩
  intro pre post
  induction post generalizing pre with
  | nil =>
      intro best hG hs
      rwa [hG, List.append_nil]
  | cons g post ih =>
      intro best hG hs
      have hordered := h.ordered
      rw [hG, List.pairwise_append] at hordered
      refine ih (pre ++ [g]) (pick n best g) (by simp [hG]) (hs.step ?_ ?_ ?_)
      · exact h.small g (by simp [hG])
      · exact fun f hf => hordered.2.2 f hf g List.mem_cons_self
      · exact h.earlier pre g post hG

theorem labelsLen_of_fold {ls ms : List Label} (h : ls.map Label.fold = ms.map Label.fold) :
    labelsLen ls = labelsLen ms := by
  have hlens := congrArg (List.map fun l => List.length l + 1) h
  simpa [labelsLen, Label.fold, Function.comp_def] using congrArg List.sum hlens

theorem emit_eq (n : Name) (best : Best) :
    ∃ rest, emit n best = (n.head best.longest).flatMap Label.wire ++ rest := by
  rw [emit]
  split_ifs with hlong
  · exact ⟨_, rfl⟩
  · rw [Nat.eq_zero_of_not_pos hlong, Name.head_zero]
    exact ⟨[0], rfl⟩

namespace Consistent

variable {msg : List UInt8} {G : List Entry} {done : List (Nat × List UInt8)} {bound : Nat}
variable {n : Name} {offs : Nat} {best : Best}

/-- Where the segments that were written out end, the others can be read. -/
theorem emit_reads (h : Consistent msg G done bound) (hs : Searched n G best)
    (hat : StandsAt msg offs (emit n best)) :
    ∃ ls k, Reads msg (offs + n.offset best.longest) ls k ∧
      ls.map Label.fold = (n.tail best.longest).map Label.fold ∧ k ≤ best.longest := by
  by_cases hlong : 0 < best.longest
  · obtain ⟨g, hg, hcov, hcommon, hcoffs, hle⟩ := hs.found hlong
    obtain ⟨ls, k, hreads, hfold, hk⟩ := h.reads g hg _ hcov
    rw [emit, if_pos hlong] at hat
    have hptr := hat.append.2
    rw [flatMap_wire_length, n.labelsLen_head] at hptr
    rw [← hcoffs] at hreads
    exact ⟨ls, k + 1, Reads.jump hptr hle hreads,
      hfold.trans (Name.le_common.mp hcommon).2.2.symm, hk⟩
  · rw [emit, if_neg hlong] at hat
    have hnull := hat.append.2
    rw [Nat.eq_zero_of_not_pos hlong, n.tail_zero]
    rw [flatMap_wire_length, ← n.head_zero, n.labelsLen_head] at hnull
    exact ⟨[], 0, Reads.stop hnull, rfl, Nat.le_refl 0⟩

theorem decompress_emit (h : Consistent msg G done bound) (hn : n.Valid)
    (hbest : best.Fits n) (hs : Searched n G best) (hat : StandsAt msg offs (emit n best))
    {sz : Nat} (hsz : (emit n best).length ≤ sz) :
    ∃ n' : Name, decompressName msg offs sz = .ok (n'.wire, sz - (emit n best).length) ∧
      n'.fold = n.fold := by
  by_cases hlong : 0 < best.longest
  · obtain ⟨g, hg, hcov, hcommon, hcoffs, hle⟩ := hs.found hlong
    obtain ⟨ls, k, hreads, hfold, hk⟩ := h.reads g hg _ hcov
    rw [← hcoffs] at hreads
    have hfold' := hfold.trans (Name.le_common.mp hcommon).2.2.symm
    rw [emit, if_pos hlong] at hat hsz ⊢
    have hcount := hn.labels_length
    have hlen := hn.length_le
    have hsplit := n.offset_add_tail best.longest
    have hlist : (n.head best.longest).length + (n.tail best.longest).length =
        n.labels.length := by
      rw [← List.length_append, n.head_append_tail]
    have hlslen : ls.length = (n.tail best.longest).length := by
      simpa using congrArg List.length hfold'
    rw [Name.wire_length] at hlen
    refine ⟨⟨n.head best.longest ++ ls⟩, ?_, ?_⟩
    · rw [List.length_append, flatMap_wire_length] at hsz ⊢
      refine decompressName_pointer hat hle (fun l hl => hn.labels_le l ?_) hreads ?_ ?_ ?_ hsz
      · rw [← n.head_append_tail best.longest]
        exact List.mem_append_left _ hl
      · have := hbest.1
        omega
      · rw [n.labelsLen_head, labelsLen_of_fold hfold']
        omega
      · omega
    · rw [Name.fold, Name.fold, ← n.head_append_tail best.longest, List.map_append,
        List.map_append, hfold']
  · rw [emit, if_neg hlong] at hat hsz ⊢
    exact ⟨n, decompressName_wire hat hn hsz, rfl⟩

/-- A reference of a call is to the start of a segment written before. -/
theorem pointer_target (h : Consistent msg G done bound) (hn : n.Valid)
    (hs : Searched n G best) {c : Nat} (hc : pointerIn 0 (emit n best) = some c) :
    c ≤ 0x3fff ∧ ∃ x ∈ done, ∃ s ∈ itemStarts 0 0 x.2, c = x.1 + s := by
  by_cases hlong : 0 < best.longest
  · obtain ⟨g, hg, hcov, -, hcoffs, hle⟩ := hs.found hlong
    obtain ⟨hi, lo, hbytes, hbig, hge, hoffs⟩ := pointerBytes_byte best.coffs
    have hhead : ∀ l ∈ n.head best.longest, l.bytes.length ≤ 63 := by
      intro l hl
      refine hn.labels_le l ?_
      rw [← n.head_append_tail best.longest]
      exact List.mem_append_left _ hl
    have hne : hi ≠ 0 := by
      rintro rfl
      exact absurd hbig (by decide)
    rw [emit, if_pos hlong, pointerIn_labels hhead, hbytes, pointerIn, if_neg hne,
      if_pos hbig] at hc
    obtain rfl : best.coffs = c := by simpa [hoffs hle] using hc
    obtain ⟨x, hx, s, hsx, hpos⟩ := h.starts g hg _ hcov
    exact ⟨hle, x, hx, s, hsx, hcoffs.trans hpos⟩
  · have hnone : pointerIn 0 (emit n best) = none := by
      rw [emit, if_neg hlong, Name.wire, pointerIn_labels hn.labels_le]
      rfl
    rw [hnone] at hc
    cases hc

theorem grow (h : Consistent msg G done bound) (x : Nat × List UInt8) {bound' : Nat}
    (hbound : bound ≤ bound') : Consistent msg G (done ++ [x]) bound' where
  valid := h.valid
  small := h.small
  reads := h.reads
  starts g hg k hk := by
    obtain ⟨y, hy, hrest⟩ := h.starts g hg k hk
    exact ⟨y, List.mem_append_left _ hy, hrest⟩
  below g hg k hk := Nat.lt_of_lt_of_le (h.below g hg k hk) hbound
  ordered := h.ordered
  earlier := h.earlier

/-- The new entry has what it covers in the bytes just written. -/
theorem covers_new (hn : n.Valid) {k : Nat} (hlt : best.longest < k)
    (hle : k ≤ n.labels.length) :
    n.offset k < (emit n best).length ∧ n.offset k ∈ itemStarts 0 0 (emit n best) := by
  obtain ⟨rest, hrest⟩ := emit_eq n best
  have hhead := n.head_eq_append_between (Nat.le_of_lt hlt) hle
  obtain ⟨b, bs, hbetween⟩ : ∃ b bs, n.between best.longest k = b :: bs := by
    refine List.exists_cons_of_ne_nil fun hnil => ?_
    have htail := congrArg List.length (n.tail_eq_between_append (Nat.le_of_lt hlt))
    rw [hnil, List.nil_append, n.tail_length hle, n.tail_length (by omega)] at htail
    omega
  rw [hbetween] at hhead
  rw [hrest, hhead]
  constructor
  · rw [List.length_append, flatMap_wire_length, labelsLen_append, n.labelsLen_head,
      labelsLen_cons]
    omega
  · have hmem := mem_itemStarts 0 (n.head k) b bs rest (by
      intro l hl
      refine hn.labels_le l ?_
      rw [← n.head_append_tail best.longest, hhead]
      exact List.mem_append_left _ hl)
    rwa [Nat.zero_add, n.labelsLen_head] at hmem

theorem reads_new (h : Consistent msg G done bound) (hn : n.Valid) (hs : Searched n G best)
    (hat : StandsAt msg offs (emit n best)) {k : Nat} (hlt : best.longest < k)
    (hle : k ≤ n.labels.length) :
    ∃ ls m, Reads msg (offs + n.offset k) ls m ∧
      ls.map Label.fold = (n.tail k).map Label.fold ∧ m < k := by
  obtain ⟨ls, m, hreads, hfold, hm⟩ := h.emit_reads hs hat
  obtain ⟨rest, hrest⟩ := emit_eq n best
  have hhead := n.head_eq_append_between (Nat.le_of_lt hlt) hle
  rw [hrest, hhead, List.flatMap_append, List.append_assoc] at hat
  have hmid := hat.append.2.append.1
  rw [flatMap_wire_length, n.labelsLen_head] at hmid
  have hoffset : n.offset best.longest = n.offset k + labelsLen (n.between best.longest k) := by
    rw [← n.labelsLen_head, hhead, labelsLen_append, n.labelsLen_head]
  refine ⟨n.between best.longest k ++ ls, m, Reads.labels ?_ hmid ?_, ?_,
    Nat.lt_of_le_of_lt hm hlt⟩
  · intro l hl
    refine hn.labels_le l ?_
    rw [← n.head_append_tail best.longest, hhead]
    exact List.mem_append_left _ (List.mem_append_right _ hl)
  · rwa [Nat.add_assoc, ← hoffset]
  · rw [n.tail_eq_between_append (Nat.le_of_lt hlt), List.map_append, List.map_append, hfold]

theorem earlier_new (h : Consistent msg G done bound) (hs : Searched n G best) {k : Nat}
    (hpos : 0 < k) (hk : k ≤ best.longest) :
    ∃ f ∈ G, f.Covers k ∧ k ≤ n.common f.name := by
  obtain ⟨g, hg, hcov, hcommon, -, -⟩ := hs.found (Nat.lt_of_lt_of_le hpos hk)
  by_cases hshared : g.shared < k
  · exact ⟨g, hg, ⟨hshared, Nat.le_trans hk hcov.2⟩, Nat.le_trans hk hcommon⟩
  · obtain ⟨pre, post, rfl⟩ := List.append_of_mem hg
    obtain ⟨f, hf, hfcov, hfg⟩ := h.earlier pre g post rfl k hpos (Nat.le_of_not_lt hshared)
    exact ⟨f, List.mem_append_left _ hf, hfcov,
      Name.common_trans (Nat.le_trans hk hcommon) hfg⟩

theorem add (h : Consistent msg G done bound) (hn : n.Valid)
    (hsmall : offs + n.wire.length ≤ 2 ^ 32) (hbound : bound ≤ offs)
    (hs : Searched n G best) (hat : StandsAt msg offs (emit n best)) :
    Consistent msg (G ++ [⟨offs, n, best.longest⟩]) (done ++ [(offs, emit n best)])
      (offs + (emit n best).length) := by
  have hgrow := h.grow (offs, emit n best) (Nat.le_trans hbound (Nat.le_add_right offs
    (emit n best).length))
  refine ⟨?_, ?_, ?_, ?_, ?_, ?_, ?_⟩
  · exact List.forall_mem_append.mpr ⟨h.valid, by simpa using hn⟩
  · exact List.forall_mem_append.mpr ⟨h.small, by simpa using hsmall⟩
  · refine List.forall_mem_append.mpr ⟨h.reads, ?_⟩
    rw [List.forall_mem_singleton]
    exact fun k hcov => h.reads_new hn hs hat hcov.1 hcov.2
  · refine List.forall_mem_append.mpr ⟨hgrow.starts, ?_⟩
    rw [List.forall_mem_singleton]
    exact fun k hcov => ⟨(offs, emit n best), by simp, n.offset k,
      (covers_new hn hcov.1 hcov.2).2, rfl⟩
  · refine List.forall_mem_append.mpr ⟨hgrow.below, ?_⟩
    rw [List.forall_mem_singleton]
    exact fun k hcov => Nat.add_lt_add_left (covers_new hn hcov.1 hcov.2).1 offs
  · rw [List.pairwise_append]
    refine ⟨h.ordered, List.pairwise_singleton _ _, fun f hf g hg k hcov => ?_⟩
    obtain rfl : g = ⟨offs, n, best.longest⟩ := by simpa using hg
    exact Nat.lt_of_lt_of_le (h.below f hf k hcov) hbound
  · intro pre g post hsplit k hpos hk
    rcases List.eq_nil_or_concat' post with rfl | ⟨post, last, rfl⟩
    · obtain ⟨rfl, hg⟩ := List.append_inj' hsplit rfl
      obtain rfl : (⟨offs, n, best.longest⟩ : Entry) = g := by simpa using hg
      exact h.earlier_new hs hpos hk
    · rw [← List.cons_append, ← List.append_assoc] at hsplit
      obtain ⟨hG, -⟩ := List.append_inj' hsplit rfl
      exact h.earlier pre g post hG k hpos hk

theorem call (h : Consistent msg G done bound) (hn : n.Valid)
    (hsmall : offs + n.wire.length ≤ 2 ^ 32) (hbound : bound ≤ offs)
    (hs : Searched n G best) (hat : StandsAt msg offs (emit n best)) :
    Consistent msg (G ++ added n offs best) (done ++ [(offs, emit n best)])
      (offs + (emit n best).length) := by
  rw [added]
  split_ifs
  · rw [List.append_nil]
    exact h.grow _ (Nat.le_trans hbound (Nat.le_add_right _ _))
  · exact h.add hn hsmall hbound hs hat

end Consistent

/-- The calls of `compress_name` for the names of one message, each with the
offset it was given: the bytes each call wrote. -/
def compressAll : List (Name × Nat) → List CompEl → Option (List (List UInt8))
  | [], _ => some []
  | (n, offs) :: calls, cb => do
      let (out, cb') ← compressName n.wire offs cb
      let outs ← compressAll calls cb'
      some (out :: outs)

/-- The bytes of each call stand where it said they would, one after the other. -/
structure LaidOut (msg : List UInt8) (written : List ((Name × Nat) × List UInt8)) : Prop where
  ordered : written.Pairwise fun x y => x.1.2 + x.2.length ≤ y.1.2
  stands : ∀ x ∈ written, StandsAt msg x.1.2 x.2

/-- Every reference is to the start of a segment or a reference of a name written
before, and every name is read back up to the case of its letters. -/
structure ReadBack (msg : List UInt8) (before : List (Nat × List UInt8))
    (written : List ((Name × Nat) × List UInt8)) : Prop where
  pointers : ∀ pre x post, written = pre ++ x :: post → ∀ c, pointerIn 0 x.2 = some c →
    c ≤ 0x3fff ∧ ∃ y ∈ before ++ pre.map (fun z => (z.1.2, z.2)),
      ∃ s ∈ itemStarts 0 0 y.2, c = y.1 + s
  names : ∀ x ∈ written, ∀ sz, x.2.length ≤ sz →
    ∃ n : Name, decompressName msg x.1.2 sz = .ok (n.wire, sz - x.2.length) ∧
      n.fold = x.1.1.fold

theorem compressAll_spec (calls : List (Name × Nat)) (G : List Entry)
    (hG : ∀ g ∈ G, g.name.Valid) (hvalid : ∀ c ∈ calls, c.1.Valid)
    (hsmall : ∀ c ∈ calls, c.2 + c.1.wire.length ≤ 2 ^ 32) :
    ∃ outs, compressAll calls (G.map Entry.el) = some outs ∧ outs.length = calls.length ∧
      (∀ x ∈ calls.zip outs, x.2.length ≤ rhnlen x.1.1.wire) ∧
      ∀ msg done bound, Consistent msg G done bound → LaidOut msg (calls.zip outs) →
        (∀ x ∈ calls.zip outs, bound ≤ x.1.2) → ReadBack msg done (calls.zip outs) := by
  induction calls generalizing G with
  | nil =>
      refine ⟨[], rfl, rfl, by simp, fun msg done bound _ _ _ => ⟨?_, by simp⟩⟩
      intro pre x post hnil
      simp at hnil
  | cons call calls ih =>
      obtain ⟨n, offs⟩ := call
      rw [List.forall_mem_cons] at hvalid hsmall
      set best := G.foldl (pick n) ⟨0, 0, 0⟩ with hbest
      have hfits : best.Fits n :=
        foldl_pick_fits n G ⟨Nat.zero_le _, fun h => absurd h (Nat.lt_irrefl 0)⟩
      have hcall := compressName_eq hvalid.1 hG offs
      rw [← hbest] at hcall
      have hG' : ∀ g ∈ G ++ added n offs best, g.name.Valid := by
        refine List.forall_mem_append.mpr ⟨hG, ?_⟩
        rw [added]
        split_ifs
        · simp
        · simpa using hvalid.1
      obtain ⟨outs, hrun, hlen, hle, hread⟩ := ih _ hG' hvalid.2 hsmall.2
      refine ⟨emit n best :: outs, ?_, by simp [hlen], ?_, ?_⟩
      · simp only [compressAll, hcall, Option.bind_eq_bind, Option.bind_some, hrun]
      · rw [List.zip_cons_cons, List.forall_mem_cons, rhnlen_wire]
        exact ⟨emit_length_le hfits, hle⟩
      · intro msg done bound hcons hlaid hbound
        rw [List.zip_cons_cons, List.forall_mem_cons] at hbound
        rw [List.zip_cons_cons] at hlaid ⊢
        obtain ⟨hordered, hstands⟩ := hlaid
        rw [List.pairwise_cons] at hordered
        rw [List.forall_mem_cons] at hstands
        have hs : Searched n G best := hcons.searched n
        have hnext := hcons.call hvalid.1 hsmall.1 hbound.1 hs hstands.1
        have hrest := hread msg _ _ hnext ⟨hordered.2, hstands.2⟩ hordered.1
        refine ⟨fun pre x post hsplit c hc => ?_, ?_⟩
        · obtain _ | ⟨y, pre⟩ := pre
          · obtain ⟨rfl, -⟩ := List.cons.inj hsplit
            simpa using hcons.pointer_target hvalid.1 hs hc
          · obtain ⟨rfl, htail⟩ := List.cons.inj hsplit
            simpa using hrest.pointers pre x post htail c hc
        · rw [List.forall_mem_cons]
          exact ⟨fun sz hsz => hcons.decompress_emit hvalid.1 hfits hs hstands.1 hsz,
            hrest.names⟩

/-- Names compressed with one list, and written where the calls said, are read
back by `decompress_name`. -/
theorem compressName_roundTrip (calls : List (Name × Nat)) (hvalid : ∀ c ∈ calls, c.1.Valid)
    (hsmall : ∀ c ∈ calls, c.2 + rhnlen c.1.wire ≤ 2 ^ 32) :
    ∃ outs, compressAll calls [] = some outs ∧ outs.length = calls.length ∧
      (∀ x ∈ calls.zip outs, x.2.length ≤ rhnlen x.1.1.wire) ∧
      ∀ msg, LaidOut msg (calls.zip outs) → ReadBack msg [] (calls.zip outs) := by
  simp only [rhnlen_wire] at hsmall
  obtain ⟨outs, hrun, hlen, hle, hread⟩ := compressAll_spec calls [] (by simp) hvalid hsmall
  refine ⟨outs, hrun, hlen, hle, fun msg hlaid => ?_⟩
  have hempty : Consistent msg [] [] 0 :=
    ⟨by simp, by simp, by simp, by simp, by simp, List.Pairwise.nil, by simp⟩
  exact hread msg [] 0 hempty hlaid fun _ _ => Nat.zero_le _

/-- The names `ab.c` and `D.C` in one message: the second ends in a reference to
the `c` of the first. -/
theorem compressName_roundTrip_two :
    ∃ outs, compressAll [(⟨[⟨[97, 98], by decide, by decide⟩, ⟨[99], by decide, by decide⟩]⟩, 2),
        (⟨[⟨[68], by decide, by decide⟩, ⟨[67], by decide, by decide⟩]⟩, 9)] [] = some outs ∧
      outs = [[2, 97, 98, 1, 99, 0], [1, 68, 0xc0, 5]] ∧
      ReadBack [7, 7, 2, 97, 98, 1, 99, 0, 7, 1, 68, 0xc0, 5, 7] []
        ([(⟨[⟨[97, 98], by decide, by decide⟩, ⟨[99], by decide, by decide⟩]⟩, 2),
          (⟨[⟨[68], by decide, by decide⟩, ⟨[67], by decide, by decide⟩]⟩, 9)].zip outs) := by
  obtain ⟨outs, hrun, -, -, hread⟩ := compressName_roundTrip
    [(⟨[⟨[97, 98], by decide, by decide⟩, ⟨[99], by decide, by decide⟩]⟩, 2),
      (⟨[⟨[68], by decide, by decide⟩, ⟨[67], by decide, by decide⟩]⟩, 9)]
    (by
      rw [List.forall_mem_cons, List.forall_mem_singleton]
      exact ⟨⟨by decide, by decide⟩, ⟨by decide, by decide⟩⟩)
    (by
      rw [List.forall_mem_cons, List.forall_mem_singleton]
      exact ⟨by decide, by decide⟩)
  obtain rfl : [[2, 97, 98, 1, 99, 0], [1, 68, 0xc0, 5]] = outs := by
    have hout : compressAll
        [(⟨[⟨[97, 98], by decide, by decide⟩, ⟨[99], by decide, by decide⟩]⟩, 2),
          (⟨[⟨[68], by decide, by decide⟩, ⟨[67], by decide, by decide⟩]⟩, 9)] [] =
        some [[2, 97, 98, 1, 99, 0], [1, 68, 0xc0, 5]] := by decide
    exact Option.some.inj (hout.symm.trans hrun)
  refine ⟨_, hrun, rfl, hread _ ⟨?_, ?_⟩⟩
  · simp [List.pairwise_cons]
  · simp [StandsAt, copyBytes]

end TorAndroid.Dns
