import TorAndroid.Dns.AddRr
import TorAndroid.Dns.CompressionRoundTrip
import TorAndroid.Dns.DecompressionExact

namespace TorAndroid.Dns

/-- The list of names of a message that has these bytes at these offsets, all before
`bound`. -/
structure Sound (cb : List CompEl) (done : List (Nat × List UInt8)) (bound : Nat) : Prop where
  exists_entries : ∃ G : List Entry, cb = G.map Entry.el ∧ (∀ g ∈ G, g.name.Valid) ∧
    ∀ msg, (∀ x ∈ done, StandsAt msg x.1 x.2) → Consistent msg G done bound

theorem sound_nil : Sound [] [] 0 :=
  ⟨[], rfl, by simp, fun _ _ => ⟨by simp, by simp, by simp, by simp, by simp, List.Pairwise.nil,
    by simp⟩⟩

theorem added_valid {n : Name} (hn : n.Valid) (offs : Nat) (best : Best) :
    ∀ g ∈ added n offs best, g.name.Valid := by
  rw [added]
  split_ifs
  · simp
  · simpa using hn

theorem emit_ne_nil (n : Name) (best : Best) : emit n best ≠ [] := by
  rw [emit]
  split_ifs
  · simp [pointerBytes]
  · simp [Name.wire]

theorem Sound.compress {cb : List CompEl} {done : List (Nat × List UInt8)} {bound : Nat}
    (h : Sound cb done bound) {n : Name} (hn : n.Valid) {offs : Nat} (hbound : bound ≤ offs)
    (hsmall : offs + n.wire.length ≤ 2 ^ 32) :
    ∃ out cb', compressName n.wire offs cb = some (out, cb') ∧ out ≠ [] ∧
      out.length ≤ n.wire.length ∧ Sound cb' (done ++ [(offs, out)]) (offs + out.length) ∧
      ∀ msg, (∀ x ∈ done, StandsAt msg x.1 x.2) → StandsAt msg offs out →
        ∀ sz, out.length ≤ sz → ∃ n' : Name,
          decompressName msg offs sz = .ok (n'.wire, sz - out.length) ∧ n'.fold = n.fold := by
  obtain ⟨G, rfl, hG, hcons⟩ := h.exists_entries
  have hfits : (G.foldl (pick n) ⟨0, 0, 0⟩).Fits n :=
    foldl_pick_fits n G ⟨Nat.zero_le _, fun h => absurd h (Nat.lt_irrefl 0)⟩
  refine ⟨_, _, compressName_eq hn hG offs, emit_ne_nil _ _, emit_length_le hfits, ⟨_, rfl, ?_, ?_⟩,
    ?_⟩
  · exact List.forall_mem_append.mpr ⟨hG, added_valid hn offs _⟩
  · intro msg hdone
    rw [List.forall_mem_append, List.forall_mem_singleton] at hdone
    have hbefore := hcons msg hdone.1
    exact hbefore.call hn hsmall hbound (hbefore.searched n) hdone.2
  · intro msg hdone hat sz hsz
    have hbefore := hcons msg hdone
    exact hbefore.decompress_emit hn hfits (hbefore.searched n) hat hsz

section Shapes

/-- The first bytes of a `NAPTR` record: the numbers and the three texts. -/
def Texts (ts : List UInt8) : Prop :=
  textsLen ts 0 ts.length = some ts.length

/-- Data that consists of these fields. -/
inductive Shaped : List Field → List UInt8 → Prop
  | nil : Shaped [] []
  | bytes {fs : List Field} {bs d : List UInt8} (hd : Shaped fs d) :
      Shaped (.bytes bs.length :: fs) (bs ++ d)
  | name {fs : List Field} {n : Name} {d : List UInt8} (hn : n.Valid) (hd : Shaped fs d) :
      Shaped (.name :: fs) (n.wire ++ d)
  | texts {fs : List Field} {ts d : List UInt8} (hts : Texts ts) (hd : Shaped fs d) :
      Shaped (.texts :: fs) (ts ++ d)
  | rest (d : List UInt8) : Shaped [.rest] d

/-- How the fields follow each other in the table: texts come first, bytes before a name or
at the end, and nothing comes behind all that is left. -/
def Tabled : List Field → Prop
  | [] => True
  | .bytes _ :: fs => (fs = [] ∨ fs.head? = some .name) ∧ .texts ∉ fs ∧ Tabled fs
  | .name :: fs => .texts ∉ fs ∧ Tabled fs
  | .texts :: fs => fs.head? = some .name ∧ .texts ∉ fs ∧ Tabled fs
  | .rest :: fs => fs = []

theorem tabled_fieldsOf {tp : Nat} {fs : List Field} (h : fieldsOf tp = some fs) : Tabled fs := by
  unfold fieldsOf at h
  split at h <;> cases h <;> simp [Tabled]

variable {msg : List UInt8} {p left : Nat}

theorem standsAt_copyBytes {n : Nat} (h : p + n ≤ msg.length) :
    StandsAt msg p (copyBytes msg p n) := by
  rw [StandsAt]
  congr 1
  simp only [copyBytes, List.length_take, List.length_drop]
  omega

theorem length_copyBytes {n : Nat} (h : p + n ≤ msg.length) : (copyBytes msg p n).length = n := by
  simp only [copyBytes, List.length_take, List.length_drop]
  omega

theorem byteAt_of_standsAt {bs : List UInt8} (h : StandsAt msg p bs) {i : Nat}
    (hi : i < bs.length) :
    byteAt msg (p + i) = byteAt bs i := by
  have hsplit : bs = bs.take i ++ bs.drop i := (List.take_append_drop i bs).symm
  rw [hsplit] at h
  have hlen : (bs.take i).length = i := by
    rw [List.length_take]
    omega
  have hrest := h.append.2
  rw [hlen, List.drop_eq_getElem_cons hi] at hrest
  rw [hrest.cons.1]
  simp [byteAt, List.getD, hi]

theorem textsLen_eq_some {k : Nat} : textsLen msg p left = some k ↔
    ∃ a b, a = 4 + (byteAt msg (p + 4)).toNat + 1 ∧ b = a + (byteAt msg (p + a)).toNat + 1 ∧
      k = b + (byteAt msg (p + b)).toNat + 1 ∧ 4 < left ∧ a < left ∧ b < left ∧ k ≤ left := by
  rw [textsLen]
  simp only [Option.bind_eq_bind]
  constructor
  · intro h
    obtain ⟨a, ha, h⟩ := Option.bind_eq_some_iff.mp h
    obtain ⟨b, hb, h⟩ := Option.bind_eq_some_iff.mp h
    obtain ⟨c, hc, h⟩ := Option.bind_eq_some_iff.mp h
    split_ifs at ha hb hc h
    cases ha
    cases hb
    cases hc
    cases h
    exact ⟨_, _, rfl, rfl, rfl, by omega, by omega, by omega, by omega⟩
  · rintro ⟨a, b, ha, hb, hk, h4, hleft, hleft', hle⟩
    rw [if_neg (by omega), Option.bind_some, ← ha, if_neg (by omega), Option.bind_some, ← hb,
      if_neg (by omega), Option.bind_some, ← hk, if_neg (by omega)]

theorem textsLen_of_standsAt {ts : List UInt8} (hts : Texts ts) (h : StandsAt msg p ts)
    (hle : ts.length ≤ left) : textsLen msg p left = some ts.length := by
  obtain ⟨a, b, ha, hb, hk, h4, hleft, hleft', -⟩ := textsLen_eq_some.mp hts
  simp only [Nat.zero_add] at ha hb hk
  refine textsLen_eq_some.mpr ⟨a, b, ?_, ?_, ?_, by omega, by omega, by omega, hle⟩
  · rw [byteAt_of_standsAt h h4, ha]
  · rw [byteAt_of_standsAt h hleft, hb]
  · rw [byteAt_of_standsAt h hleft', hk]

theorem texts_copyBytes {k : Nat} (h : textsLen msg p left = some k) (hin : p + left ≤ msg.length) :
    Texts (copyBytes msg p k) := by
  obtain ⟨a, b, ha, hb, hk, h4, hleft, hleft', hle⟩ := textsLen_eq_some.mp h
  have hstands : StandsAt msg p (copyBytes msg p k) := standsAt_copyBytes (by omega)
  have hlen : (copyBytes msg p k).length = k := length_copyBytes (by omega)
  rw [Texts, textsLen_eq_some, hlen]
  refine ⟨a, b, ?_, ?_, ?_, by omega, by omega, by omega, le_rfl⟩
  · rw [Nat.zero_add, ← byteAt_of_standsAt hstands (by omega), ha]
  · rw [Nat.zero_add, ← byteAt_of_standsAt hstands (by omega), hb]
  · rw [Nat.zero_add, ← byteAt_of_standsAt hstands (by omega), hk]

theorem Shaped.ne_nil_of_name {fs : List Field} {d : List UInt8} (h : Shaped fs d)
    (hfs : fs.head? = some .name) : d ≠ [] := by
  cases h with
  | name hn hd => simp [Name.wire]
  | nil => cases hfs
  | bytes => cases hfs
  | texts => cases hfs
  | rest => cases hfs

/-- What `rrs2cent` stores consists of the fields it reads. -/
theorem shaped_readFields {fs : List Field} (htab : Tabled fs) {data : List UInt8}
    (hin : p + left ≤ msg.length) (h : readFields msg p left fs = some data) : Shaped fs data := by
  induction fs generalizing p left data with
  | nil =>
      rw [readFields] at h
      split_ifs at h
      cases h
      exact .nil
  | cons f fs ih =>
      rw [readFields] at h
      obtain ⟨⟨bs, left'⟩, hfield, h⟩ := Option.bind_eq_some_iff.mp h
      obtain ⟨more, hmore, h⟩ := Option.bind_eq_some_iff.mp h
      cases h
      cases f with
      | bytes n =>
          rw [readField] at hfield
          split_ifs at hfield with hleft
          cases hfield
          have hlen : (copyBytes msg p n).length = n := length_copyBytes (by omega)
          have hd := ih htab.2.2 (by omega) hmore
          have hshape : Shaped (.bytes (copyBytes msg p n).length :: fs)
            (copyBytes msg p n ++ more) :=
            .bytes hd
          rwa [hlen] at hshape
      | name =>
          rw [readField] at hfield
          cases hname : decompressName msg p left with
          | error e =>
              rw [hname] at hfield
              cases hfield
          | ok x =>
              rw [hname] at hfield
              cases hfield
              obtain ⟨n, hn, rfl⟩ := decompressName_valid hname
              obtain ⟨ls, k, m, -, -, hm, hleft, -, -⟩ := decompressName_iff.mp hname
              exact .name hn (ih htab.2 (by omega) hmore)
      | texts =>
          rw [readField] at hfield
          obtain ⟨k, hk, hpair⟩ := Option.map_eq_some_iff.mp hfield
          cases hpair
          obtain ⟨a, b, -, -, -, -, -, -, hle⟩ := textsLen_eq_some.mp hk
          exact .texts (texts_copyBytes hk hin) (ih htab.2.2 (by omega) hmore)
      | rest =>
          rw [readField] at hfield
          cases hfield
          have hnil : fs = [] := htab
          subst hnil
          rw [readFields] at hmore
          split_ifs at hmore
          cases hmore
          rw [List.append_nil]
          exact .rest _

end Shapes

/-- The data with the letters of its names in lower case. -/
def foldFields : List Field → List UInt8 → List UInt8
  | [], d => d
  | .bytes n :: fs, d => d.take n ++ foldFields fs (d.drop n)
  | .name :: fs, d => (d.take (rhnlen d)).map tolower ++ foldFields fs (d.drop (rhnlen d))
  | .texts :: fs, d =>
      let n := (textsLen d 0 d.length).getD 0
      d.take n ++ foldFields fs (d.drop n)
  | .rest :: _, d => d

def foldRdata (tp : Nat) (data : List UInt8) : List UInt8 :=
  match fieldsOf tp with
  | some fs => foldFields fs data
  | none => data

section Writing

theorem map_tolower_wire {n n' : Name} (h : n'.fold = n.fold) :
    n'.wire.map tolower = n.wire.map tolower := by
  obtain ⟨ls⟩ := n
  obtain ⟨ls'⟩ := n'
  induction ls generalizing ls' with
  | nil =>
      have hnil : ls' = [] := List.map_eq_nil_iff.mp h
      rw [hnil]
  | cons l ls ih =>
      cases ls' with
      | nil => cases h
      | cons l' ls' =>
          obtain ⟨hl, hls⟩ := List.cons.inj h
          have hlen : l'.bytes.length = l.bytes.length := by
            simpa [Label.fold] using congrArg List.length hl
          have hbytes : l'.bytes.map tolower = l.bytes.map tolower := hl
          rw [Name.wire_cons, Name.wire_cons, List.map_cons, List.map_append, List.map_cons,
            List.map_append, hlen, hbytes, ih ls' hls]

theorem foldFields_name (fs : List Field) (n : Name) (d : List UInt8) :
    foldFields (.name :: fs) (n.wire ++ d) = n.wire.map tolower ++ foldFields fs d := by
  rw [foldFields, rhnlen_wire_append, List.take_left, List.drop_left]

theorem foldFields_texts (fs : List Field) {ts : List UInt8} (hts : Texts ts) (d : List UInt8) :
    foldFields (.texts :: fs) (ts ++ d) = ts ++ foldFields fs d := by
  have hstands : StandsAt (ts ++ d) 0 ts := by
    rw [StandsAt, copyBytes, List.drop_zero, List.take_left]
  rw [foldFields, textsLen_of_standsAt hts hstands (by simp)]
  simp

theorem foldFields_bytes (fs : List Field) (bs d : List UInt8) :
    foldFields (.bytes bs.length :: fs) (bs ++ d) = bs ++ foldFields fs d := by
  rw [foldFields, List.take_left, List.drop_left]

theorem guard_bind {α : Type} {p : Prop} [Decidable p] (hp : p) (x : Option α) :
    (guard p >>= fun _ => x) = x := by
  simp [guard, hp]

theorem drop_take_of_append {pre bs d : List UInt8} :
    ((pre ++ (bs ++ d)).drop pre.length).take bs.length = bs := by
  rw [List.drop_left, List.take_left]

theorem putTextsLen_texts {ts d : List UInt8} (hts : Texts ts) (hd : d ≠ []) :
    putTextsLen (ts ++ d) 3 4 = some ts.length := by
  obtain ⟨a, b, ha, hb, hk, h4, hleft, hleft', -⟩ := textsLen_eq_some.mp hts
  simp only [Nat.zero_add] at ha hb hk
  have hstands : StandsAt (ts ++ d) 0 ts := by
    rw [StandsAt, copyBytes, List.drop_zero, List.take_left]
  have hbyte : ∀ i, i < ts.length → byteAt (ts ++ d) i = byteAt ts i := by
    intro i hi
    rw [← byteAt_of_standsAt hstands hi, Nat.zero_add]
  have hpos := List.length_pos_iff.mpr hd
  have hlen : (ts ++ d).length = ts.length + d.length := List.length_append
  simp only [putTextsLen, hbyte 4 h4, ← ha]
  rw [if_neg (by omega)]
  simp only [hbyte a hleft, ← hb]
  rw [if_neg (by omega)]
  simp only [hbyte b hleft', ← hk]
  rw [if_neg (by omega)]

/-- What was written at offset `p` is read as the data it was written for. -/
def ReadsBack (done done' : List (Nat × List UInt8)) (fs : List Field) (p : Nat)
    (w d : List UInt8) : Prop :=
  ∀ msg, (∀ x ∈ done, StandsAt msg x.1 x.2) → StandsAt msg p w →
    (∀ x ∈ done', StandsAt msg x.1 x.2) ∧ ∃ d', readFields msg p w.length fs = some d' ∧
      d'.length = d.length ∧ foldFields fs d' = foldFields fs d

/-- What the fields that are still to come write, and that no assertion fails. -/
structure Putting (data : List UInt8) (start : Nat) (s : Put) (fs : List Field)
    (done : List (Nat × List UInt8)) (d : List UInt8) (s' : Put) (w : List UInt8)
    (done' : List (Nat × List UInt8)) : Prop where
  run : putFields data start s fs = some s'
  out : s'.out = s.out ++ w
  length_le : w.length ≤ d.length
  sound : Sound s'.cb (done ++ done') (start + s'.out.length)
  reads : ReadsBack done done' fs (start + s.out.length) w d

theorem Sound.mono {cb : List CompEl} {done : List (Nat × List UInt8)} {bound bound' : Nat}
    (h : Sound cb done bound) (hle : bound ≤ bound') : Sound cb done bound' := by
  obtain ⟨G, hcb, hG, hcons⟩ := h.exists_entries
  refine ⟨G, hcb, hG, fun msg hdone => ?_⟩
  have hbefore := hcons msg hdone
  exact { hbefore with below := fun g hg k hk => (hbefore.below g hg k hk).trans_le hle }

theorem readFields_cons {msg : List UInt8} {p left left' : Nat} {f : Field} {fs : List Field}
    {bs d : List UInt8} (hfield : readField msg p left f = some (bs, left'))
    (hmore : readFields msg (p + (left - left')) left' fs = some d) :
    readFields msg p left (f :: fs) = some (bs ++ d) := by
  simp only [readFields, hfield, hmore, Option.bind_eq_bind, Option.bind_some]

theorem putFields_spec {data : List UInt8} {start : Nat} {fs : List Field} {d : List UInt8}
    (hshape : Shaped fs d) (htab : Tabled fs) {pre : List UInt8} (hdata : data = pre ++ d)
    {s : Put} (hilen : s.ilen = pre.length) (htexts : .texts ∈ fs → pre = [])
    (hout : s.out.length ≤ s.ilen) {done : List (Nat × List UInt8)}
    (hsound : Sound s.cb done (start + s.out.length)) (hsmall : start + data.length ≤ 2 ^ 32) :
    ∃ s' w done', Putting data start s fs done d s' w done' := by
  induction hshape generalizing pre s done with
  | nil =>
      refine ⟨s, [], [], rfl, by simp, le_rfl, by simpa using hsound, fun msg hdone _ => ?_⟩
      exact ⟨by simp, [], rfl, rfl, rfl⟩
  | @bytes fs bs d hd ih =>
      have hlen : data.length = pre.length + (bs.length + d.length) := by
        rw [hdata, List.length_append, List.length_append]
      have hfollow : fs ≠ [] → bs.length < data.length := by
        intro hne
        have hname := htab.1.resolve_left hne
        have hpos := List.length_pos_iff.mpr (hd.ne_nil_of_name hname)
        omega
      have hput : putBytes data bs.length s = some ⟨s.out ++ bs, s.ilen + bs.length, s.cb⟩ := by
        rw [putBytes, if_neg (by omega), hilen, hdata, drop_take_of_append]
      obtain ⟨s', w, done', hrun, hs', hle, hsound', hreads⟩ :=
        ih (s := ⟨s.out ++ bs, s.ilen + bs.length, s.cb⟩) htab.2.2
          (hdata.trans (List.append_assoc ..).symm) (by simp [hilen])
          (fun hmem => absurd hmem htab.2.1) (by simpa using hout)
          (hsound.mono (by simp))
      refine ⟨s', bs ++ w, done', ?_, by rw [hs', List.append_assoc], by simpa using hle, hsound',
        fun msg hdone hat => ?_⟩
      · rw [putFields, guard_bind hfollow, hput, Option.bind_eq_bind, Option.bind_some,
          guard_bind (fun _ => by simp; omega)]
        exact hrun
      · obtain ⟨hbs, hw⟩ := hat.append
        obtain ⟨hstands, d', hread, hlen', hfold⟩ :=
          hreads msg hdone (by simpa [Nat.add_assoc] using hw)
        refine ⟨hstands, bs ++ d', ?_, by simp [hlen'], ?_⟩
        · have hfield : readField msg (start + s.out.length) (bs ++ w).length (.bytes bs.length) =
              some (bs, w.length) := by
            rw [readField, if_neg (by simp), hbs]
            simp
          refine readFields_cons hfield ?_
          simpa [Nat.add_assoc] using hread
        · rw [foldFields_bytes, foldFields_bytes, hfold]
  | @name fs n d hn hd ih =>
      have hlen : data.length = pre.length + (n.wire.length + d.length) := by
        rw [hdata, List.length_append, List.length_append]
      obtain ⟨out, cb, hcompress, -, houtlen, hsound₁, hname⟩ :=
        hsound.compress hn le_rfl (by omega)
      have hput : putName data start s = some ⟨s.out ++ out, s.ilen + n.wire.length, cb⟩ := by
        have hdrop : data.drop s.ilen = n.wire ++ d := by
          rw [hdata, hilen, List.drop_left]
        rw [putName, hdrop, rhnlenIn_wire, Option.bind_eq_bind, Option.bind_some, List.take_left,
          hcompress]
        rfl
      have hshort : (s.out ++ out).length ≤
          if fs = [] then data.length else s.ilen + n.wire.length := by
        rw [List.length_append]
        split_ifs <;> omega
      obtain ⟨s', w, done', hrun, hs', hle, hsound', hreads⟩ :=
        ih (s := ⟨s.out ++ out, s.ilen + n.wire.length, cb⟩) htab.2
          (hdata.trans (List.append_assoc ..).symm) (by simp [hilen])
          (fun hmem => absurd hmem htab.1) (by simp only [List.length_append]; omega)
          (hsound₁.mono (by simp [Nat.add_assoc]))
      refine ⟨s', out ++ w, (start + s.out.length, out) :: done', ?_,
        by rw [hs', List.append_assoc], ?_, by simpa using hsound', fun msg hdone hat => ?_⟩
      · rw [putFields, hput, Option.bind_eq_bind, Option.bind_some, guard_bind hshort]
        exact hrun
      · rw [List.length_append, List.length_append]
        omega
      · obtain ⟨hout', hw⟩ := hat.append
        obtain ⟨n', hn', hfold'⟩ := hname msg hdone hout' (out ++ w).length (by simp)
        have hdone' : ∀ x ∈ done ++ [(start + s.out.length, out)], StandsAt msg x.1 x.2 :=
          List.forall_mem_append.mpr ⟨hdone, by simpa using hout'⟩
        obtain ⟨hstands, d', hread, hlen', hfold⟩ :=
          hreads msg hdone' (by simpa [Nat.add_assoc] using hw)
        refine ⟨List.forall_mem_cons.mpr ⟨hout', hstands⟩, n'.wire ++ d', ?_, ?_, ?_⟩
        · have hfield : readField msg (start + s.out.length) (out ++ w).length .name =
              some (n'.wire, w.length) := by
            rw [readField, hn', Except.toOption, List.length_append, Nat.add_sub_cancel_left]
          refine readFields_cons hfield ?_
          simpa [Nat.add_assoc] using hread
        · have hwire := congrArg List.length (map_tolower_wire hfold')
          rw [List.length_map, List.length_map] at hwire
          rw [List.length_append, List.length_append, hwire, hlen']
        · rw [foldFields_name, foldFields_name, map_tolower_wire hfold', hfold]
  | @texts fs ts d hts hd ih =>
      obtain rfl : pre = [] := htexts List.mem_cons_self
      obtain rfl : data = ts ++ d := hdata
      have hnil : d ≠ [] := hd.ne_nil_of_name htab.1
      have hilen' : s.ilen = 0 := hilen
      have hnone : s.out = [] := List.length_eq_zero_iff.mp (by omega)
      obtain ⟨a, b, -, -, -, h4, -⟩ := textsLen_eq_some.mp hts
      have hput : putBytes (ts ++ d) ts.length s =
        some ⟨s.out ++ ts, s.ilen + ts.length, s.cb⟩ := by
        rw [putBytes, if_neg (by simp [hilen']), hilen', List.drop_zero, List.take_left]
      obtain ⟨s', w, done', hrun, hs', hle, hsound', hreads⟩ :=
        ih (s := ⟨s.out ++ ts, s.ilen + ts.length, s.cb⟩) htab.2.2 rfl
          (by simp [hilen']) (fun hmem => absurd hmem htab.2.1)
          (by simp only [List.length_append]; omega) (hsound.mono (by simp))
      refine ⟨s', ts ++ w, done', ?_, by rw [hs', List.append_assoc], by simpa using hle, hsound',
        fun msg hdone hat => ?_⟩
      · rw [putFields, guard_bind (by rw [List.length_append]; omega), putTextsLen_texts hts hnil]
        simp only [Option.bind_eq_bind, Option.bind_some, hput]
        exact hrun
      · obtain ⟨htexts', hw⟩ := hat.append
        obtain ⟨hstands, d', hread, hlen', hfold⟩ :=
          hreads msg hdone (by simpa [Nat.add_assoc] using hw)
        refine ⟨hstands, ts ++ d', ?_, by simp [hlen'], ?_⟩
        · have hfield : readField msg (start + s.out.length) (ts ++ w).length .texts =
              some (ts, w.length) := by
            rw [readField, textsLen_of_standsAt hts htexts' (by simp), Option.map_some, htexts']
            simp
          refine readFields_cons hfield ?_
          simpa [Nat.add_assoc] using hread
        · rw [foldFields_texts _ hts, foldFields_texts _ hts, hfold]
  | rest d =>
      have hlen : data.length = pre.length + d.length := by
        rw [hdata, List.length_append]
      have hput : putBytes data (data.length - s.ilen) s =
        some ⟨s.out ++ d, data.length, s.cb⟩ := by
        rw [putBytes, if_neg (by omega),
          show s.ilen + (data.length - s.ilen) = data.length by omega]
        congr 3
        rw [hdata, hilen, List.drop_left, List.take_of_length_le (by simp)]
      refine ⟨⟨s.out ++ d, data.length, s.cb⟩, d, [], ?_, rfl, le_rfl, ?_, fun msg _ hat => ?_⟩
      · rw [putFields, guard_bind (by omega), hput]
        rfl
      · simpa using hsound.mono (by simp)
      · refine ⟨by simp, d, ?_, rfl, rfl⟩
        rw [readFields, readField, Option.bind_eq_bind, Option.bind_some, hat]
        simp [readFields]

end Writing

section Normal

theorem normalLoop_skip (bs rest : List UInt8) :
    normalLoop bs.length (bs ++ rest) = normalLoop 0 rest := by
  induction bs with
  | nil => rfl
  | cons b bs ih => exact ih

theorem normalLoop_short {k : Nat} {bs : List UInt8} (h : bs.length ≤ k) :
    normalLoop k bs = false := by
  induction bs generalizing k with
  | nil => rw [normalLoop]
  | cons b bs ih =>
      obtain _ | k := k
      · simp at h
      · exact ih (by simpa using h)

theorem normalLoop_wire {n : Name} (hn : ∀ l ∈ n.labels, l.bytes.length ≤ 63) (rest : List UInt8) :
    normalLoop 0 (n.wire ++ rest) = true := by
  obtain ⟨ls⟩ := n
  induction ls with
  | nil => simp [Name.wire_nil, normalLoop]
  | cons l ls ih =>
      rw [List.forall_mem_cons] at hn
      obtain ⟨hne, hsmall⟩ := l.byte_facts hn.1
      rw [Name.wire_cons, List.cons_append, normalLoop, if_neg hne, if_neg hsmall, l.lengthByte,
        List.append_assoc, normalLoop_skip]
      exact ih hn.2

/-- A name that is cut short has no null byte. -/
theorem normalLoop_take {n : Name} (hn : ∀ l ∈ n.labels, l.bytes.length ≤ 63) {k : Nat}
    (hk : k < n.wire.length) : normalLoop 0 (n.wire.take k) = false := by
  obtain ⟨ls⟩ := n
  induction ls generalizing k with
  | nil =>
      obtain rfl : k = 0 := by simpa [Name.wire_nil] using hk
      rfl
  | cons l ls ih =>
      rw [List.forall_mem_cons] at hn
      obtain ⟨hne, hsmall⟩ := l.byte_facts hn.1
      rw [Name.wire_cons] at hk ⊢
      obtain _ | k := k
      · rfl
      · rw [List.take_succ_cons, normalLoop, if_neg hne, if_neg hsmall, l.lengthByte]
        by_cases hle : k ≤ l.bytes.length
        · exact normalLoop_short (by rw [List.length_take]; omega)
        · rw [List.take_append, List.take_of_length_le (by omega), normalLoop_skip]
          refine ih hn.2 ?_
          simp only [List.length_cons, List.length_append] at hk
          omega

theorem isnormalencdomname_wire {n : Name} (hn : n.Valid) (rest : List UInt8) :
    isnormalencdomname (n.wire ++ rest) = true := by
  have hlen := hn.length_le
  rw [isnormalencdomname, dnsNameBufSize, List.take_append, List.take_of_length_le hlen]
  exact normalLoop_wire hn.labels_le _

theorem isnormalencdomname_take {n : Name} (hn : n.Valid) {k : Nat} (hk : k < n.wire.length) :
    isnormalencdomname (n.wire.take k) = false := by
  rw [isnormalencdomname, List.take_take]
  exact normalLoop_take hn.labels_le (by omega)

/-- A name does not fit a data field that ends before its null byte. -/
theorem decompressName_short {msg : List UInt8} {p sz : Nat} {n : Name} (hn : n.Valid)
    (hat : StandsAt msg p n.wire) (hsz : sz < n.wire.length) :
    (decompressName msg p sz).toOption = none := by
  cases hname : decompressName msg p sz with
  | error e => rfl
  | ok x =>
      obtain ⟨bs, left⟩ := x
      obtain ⟨ls, h, m, hexpands, hhops, hm, -, hbs, hlen⟩ := decompressName_iff.mp hname
      have hwhole : decompressName msg p n.wire.length = .ok (bs, n.wire.length - m) :=
        decompressName_iff.mpr ⟨ls, h, m, hexpands, hhops, by omega, rfl, hbs, hlen⟩
      rw [decompressName_wire hat hn le_rfl] at hwhole
      have hleft := congrArg Prod.snd (Except.ok.inj hwhole)
      simp only at hleft
      omega

end Normal

section Kept

/-- Data that is stored as it stands. -/
def Kept (tp : Nat) (data : List UInt8) : Prop :=
  ∀ msg p, StandsAt msg p data → readRdata msg tp p data.length = some data

/-- Data that `rrs2cent` stores for a record. -/
def Producible (tp : Nat) (data : List UInt8) : Prop :=
  ∃ msg p n, p + n ≤ msg.length ∧ n < 65536 ∧ readRdata msg tp p n = some data

variable {msg msg' : List UInt8} {p p' n skip : Nat} {data : List UInt8}

/-- The bytes before the name are copied; then comes a name that is not compressed. If it was,
the data is longer than it was, but not by the whole name. -/
theorem writeOutName_cases (hin : p + n ≤ msg.length)
    (h : writeOutName msg p n skip = some data) :
    skip ≤ n ∧ ∃ tl, data = copyBytes msg p skip ++ tl ∧ isnormalencdomname tl = true ∧
      (data.length = n ∨ ∃ (name : Name) (rest : List UInt8), name.Valid ∧
        tl = name.wire ++ rest ∧ data.length < n + name.wire.length) := by
  rw [writeOutName] at h
  split_ifs at h with hskip hnormal
  · cases h
    have hlen := length_copyBytes hin
    refine ⟨by omega, copyBytes msg (p + skip) (n - skip), ?_, hnormal, Or.inl hlen⟩
    rw [copyBytes, copyBytes, copyBytes, ← List.drop_drop, ← List.take_add]
    congr 1
    omega
  · obtain ⟨⟨name, left⟩, hname, h⟩ := Option.bind_eq_some_iff.mp h
    cases hres : decompressName msg (p + skip) (n - skip) with
    | error e =>
        rw [hres] at hname
        cases hname
    | ok x =>
        rw [hres] at hname
        cases hname
        cases h
        obtain ⟨nm, hnm, rfl⟩ := decompressName_valid hres
        obtain ⟨ls, k, m, hexpands, -, hm, hleft, -, -⟩ := decompressName_iff.mp hres
        have hpos := hexpands.length_pos
        refine ⟨by omega, nm.wire ++ copyBytes msg (p + (n - left)) left, by
          rw [List.append_assoc], isnormalencdomname_wire hnm _, Or.inr ⟨nm, _, hnm, rfl, ?_⟩⟩
        have hhead : (copyBytes msg p skip).length = skip := length_copyBytes (by omega)
        have hrest : (copyBytes msg (p + (n - left)) left).length = left :=
          length_copyBytes (by omega)
        simp only [List.length_append, hhead, hrest]
        omega

theorem writeOutName_kept {hd tl : List UInt8} (hnormal : isnormalencdomname tl = true)
    (hat : StandsAt msg p (hd ++ tl)) :
    writeOutName msg p (hd ++ tl).length hd.length = some (hd ++ tl) := by
  obtain ⟨-, htl⟩ := hat.append
  have hcopy : copyBytes msg (p + hd.length) ((hd ++ tl).length - hd.length) = tl := by
    rw [List.length_append, Nat.add_sub_cancel_left]
    exact htl
  rw [writeOutName, if_neg (by simp), hcopy, if_pos hnormal, hat]

theorem writeOutName_cut {hd rest : List UInt8} {name : Name} (hn : name.Valid)
    (hat : StandsAt msg p (hd ++ (name.wire ++ rest))) {m : Nat} (hm : m < name.wire.length) :
    writeOutName msg p m hd.length = none := by
  obtain ⟨-, htl⟩ := hat.append
  obtain ⟨hname, -⟩ := htl.append
  rw [writeOutName]
  split_ifs with hskip hnormal
  · rfl
  · have hcopy : copyBytes msg (p + hd.length) (m - hd.length) =
        name.wire.take (m - hd.length) := by
      have htake := congrArg (List.take (m - hd.length)) hname
      rw [copyBytes, List.take_take, Nat.min_eq_left (by omega)] at htake
      exact htake
    rw [hcopy, isnormalencdomname_take hn (by omega)] at hnormal
    cases hnormal
  · rw [decompressName_short hn hname (by omega)]
    rfl

/-- Data that is too long for its length field is not read any more. -/
def CutShort (tp : Nat) (data : List UInt8) : Prop :=
  65535 < data.length → ∀ msg p, StandsAt msg p data →
    readRdata msg tp p (data.length % 65536) = none

theorem copied_spec {tp : Nat} (hin : p + n ≤ msg.length) (hn : n < 65536)
    (hkept : ∀ msg' p', StandsAt msg' p' (copyBytes msg p n) →
      readRdata msg' tp p' n = some (copyBytes msg' p' n)) :
    Kept tp (copyBytes msg p n) ∧ CutShort tp (copyBytes msg p n) := by
  have hlen : (copyBytes msg p n).length = n := length_copyBytes hin
  refine ⟨fun msg' p' hat => ?_, fun hlong => by omega⟩
  have hsame := hat
  rw [StandsAt, hlen] at hsame
  rw [hlen, hkept msg' p' hat, hsame]

theorem writtenOut_spec {tp : Nat} (hin : p + n ≤ msg.length) (hn : n < 65536)
    (hread : ∀ msg' p' m, StandsAt msg' p' (copyBytes msg p skip) →
      readRdata msg' tp p' m = writeOutName msg' p' m skip ∨
        (readRdata msg' tp p' m = none ∧ m < skip))
    (h : writeOutName msg p n skip = some data) : Kept tp data ∧ CutShort tp data := by
  obtain ⟨hskip, tl, rfl, hnormal, hlong⟩ := writeOutName_cases hin h
  have hhead : (copyBytes msg p skip).length = skip := length_copyBytes (by omega)
  constructor
  · intro msg' p' hat
    rcases hread msg' p' (copyBytes msg p skip ++ tl).length hat.append.1 with hsame | ⟨-, hshort⟩
    · rw [hsame]
      have hkept := writeOutName_kept hnormal hat
      rwa [hhead] at hkept
    · rw [List.length_append] at hshort
      omega
  · intro hlarge msg' p' hat
    rcases hlong with hlen | ⟨name, rest, hname, rfl, hlen⟩
    · omega
    · have hbound := hname.length_le
      rcases hread msg' p' _ hat.append.1 with hsame | ⟨hnone, -⟩
      · rw [hsame]
        have hcut := writeOutName_cut hname hat
          (m := (copyBytes msg p skip ++ (name.wire ++ rest)).length % 65536) (by omega)
        rwa [hhead] at hcut
      · exact hnone

theorem byteAt_copyBytes {i : Nat} (hi : i < n) (hin : p + n ≤ msg.length) :
    byteAt (copyBytes msg p n) i = byteAt msg (p + i) :=
  (byteAt_of_standsAt (standsAt_copyBytes hin) (by rwa [length_copyBytes hin])).symm

theorem readRdata_other {tp : Nat} (hfields : fieldsOf tp = none) (h1 : tp ≠ 1) (h28 : tp ≠ 28)
    (h45 : tp ≠ 45) (h46 : tp ≠ 46) (h47 : tp ≠ 47) (msg : List UInt8) (p n : Nat) :
    readRdata msg tp p n = some (copyBytes msg p n) := by
  rw [readRdata, hfields]
  · exact h1
  · exact h28
  · exact h45
  · exact h46
  · exact h47

theorem readIpseckey_kept (hin : p + n ≤ msg.length) (hn : n < 65536)
    (h : readIpseckey msg p n = some data) : Kept 45 data ∧ CutShort 45 data := by
  have hplain : ∀ msg p n, readRdata msg 45 p n = readIpseckey msg p n := fun _ _ _ => rfl
  rw [readIpseckey] at h
  by_cases hshort : n < 3
  · rw [if_pos hshort] at h
    cases h
  rw [if_neg hshort] at h
  have hbyte : ∀ k, 3 ≤ k → k ≤ n → ∀ msg' p', StandsAt msg' p' (copyBytes msg p k) →
      byteAt msg' (p' + 1) = byteAt msg (p + 1) := by
    intro k hk hkn msg' p' hat
    rw [byteAt_of_standsAt hat (by rw [length_copyBytes (by omega)]; omega),
      byteAt_copyBytes (by omega) (by omega)]
  -- the types of the gateway: none, an address of either family, a name
  split at h
  · rename_i hgate
    cases h
    refine copied_spec hin hn fun msg' p' hat => ?_
    simp only [hplain, readIpseckey, if_neg hshort, hbyte n (by omega) le_rfl msg' p' hat, hgate]
  · rename_i hgate
    split_ifs at h with hlen
    cases h
    refine copied_spec hin hn fun msg' p' hat => ?_
    simp only [hplain, readIpseckey, if_neg hshort, hbyte n (by omega) le_rfl msg' p' hat, hgate,
      if_neg hlen]
  · rename_i hgate
    split_ifs at h with hlen
    cases h
    refine copied_spec hin hn fun msg' p' hat => ?_
    simp only [hplain, readIpseckey, if_neg hshort, hbyte n (by omega) le_rfl msg' p' hat, hgate,
      if_neg hlen]
  · rename_i hgate
    refine writtenOut_spec hin hn (fun msg' p' m hat => ?_) h
    by_cases hm : m < 3
    · exact Or.inr ⟨by simp only [hplain, readIpseckey, if_pos hm], hm⟩
    · left
      simp only [hplain, readIpseckey, if_neg hm, hbyte 3 le_rfl (by omega) msg' p' hat, hgate]
  · cases h

/-- Data of a type without fields is stored as it is to be written, and cut when it is too
long for its length field. -/
theorem kept_of_readRdata {tp : Nat} (hfields : fieldsOf tp = none) (hin : p + n ≤ msg.length)
    (hn : n < 65536) (h : readRdata msg tp p n = some data) : Kept tp data ∧ CutShort tp data := by
  by_cases h1 : tp = 1
  · subst h1
    have hlen : n = 4 := not_not.mp fun hne => by
      rw [show readRdata msg 1 p n = none from if_pos hne] at h
      cases h
    subst hlen
    cases h
    exact copied_spec hin hn fun msg' p' _ => rfl
  by_cases h28 : tp = 28
  · subst h28
    have hlen : n = 16 := not_not.mp fun hne => by
      rw [show readRdata msg 28 p n = none from if_pos hne] at h
      cases h
    subst hlen
    cases h
    exact copied_spec hin hn fun msg' p' _ => rfl
  by_cases h45 : tp = 45
  · subst h45
    exact readIpseckey_kept hin hn h
  by_cases h46 : tp = 46
  · subst h46
    exact writtenOut_spec hin hn (fun _ _ _ _ => Or.inl rfl) h
  by_cases h47 : tp = 47
  · subst h47
    exact writtenOut_spec hin hn (fun _ _ _ _ => Or.inl rfl) h
  rw [readRdata_other hfields h1 h28 h45 h46 h47] at h
  cases h
  exact copied_spec hin hn fun msg' p' _ => readRdata_other hfields h1 h28 h45 h46 h47 msg' p' n

end Kept

section Rdata

/-- The length of data with these fields, none of which is all that is left. -/
def capacity : List Field → Nat
  | [] => 0
  | .bytes n :: fs => n + capacity fs
  | .name :: fs => 256 + capacity fs
  | .texts :: fs => 772 + capacity fs
  | .rest :: fs => capacity fs

theorem texts_length_le {ts : List UInt8} (hts : Texts ts) : ts.length ≤ 772 := by
  obtain ⟨a, b, ha, hb, hk, -⟩ := textsLen_eq_some.mp hts
  have h1 := (byteAt ts (0 + 4)).toNat_lt
  have h2 := (byteAt ts (0 + a)).toNat_lt
  have h3 := (byteAt ts (0 + b)).toNat_lt
  omega

theorem Shaped.length_le {fs : List Field} {d : List UInt8} (h : Shaped fs d)
    (hrest : .rest ∉ fs) : d.length ≤ capacity fs := by
  induction h with
  | nil => exact le_rfl
  | bytes hd ih =>
      have := ih fun hmem => hrest (List.mem_cons_of_mem _ hmem)
      rw [List.length_append, capacity]
      omega
  | name hn hd ih =>
      have := ih fun hmem => hrest (List.mem_cons_of_mem _ hmem)
      have := hn.length_le
      rw [List.length_append, capacity]
      omega
  | texts hts hd ih =>
      have := ih fun hmem => hrest (List.mem_cons_of_mem _ hmem)
      have := texts_length_le hts
      rw [List.length_append, capacity]
      omega
  | rest d => exact absurd List.mem_cons_self hrest

theorem fieldsOf_short {tp : Nat} {fs : List Field} (h : fieldsOf tp = some fs) :
    tp = 30 ∨ (.rest ∉ fs ∧ capacity fs ≤ 1040) := by
  unfold fieldsOf at h
  split at h <;> cases h <;> simp [capacity]

theorem fields_of_readRdata {tp p n : Nat} {fs : List Field} {msg data : List UInt8}
    (hfields : fieldsOf tp = some fs) (hin : p + n ≤ msg.length)
    (h : readRdata msg tp p n = some data) : Shaped fs data ∧ data.length ≤ 1040 := by
  rw [readRdata.eq_def, hfields] at h
  obtain ⟨hread, hshort⟩ := Option.filter_eq_some_iff.mp h
  have hshape := shaped_readFields (tabled_fieldsOf hfields) hin hread
  refine ⟨hshape, ?_⟩
  rcases fieldsOf_short hfields with rfl | ⟨hrest, hcap⟩
  · simpa using hshort
  · exact (hshape.length_le hrest).trans hcap

end Rdata

end TorAndroid.Dns
