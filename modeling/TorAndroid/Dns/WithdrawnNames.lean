import TorAndroid.Dns.Reencoding

namespace TorAndroid.Dns

/-- The search of `compress_name`. -/
def searchName (inn : List UInt8) (cb : List CompEl) : Option Best :=
  cb.foldlM (tryEntry inn) ⟨0, 0, 0⟩

/-- The names in the data that are given to `compress_name`. -/
def dataNames (data : List UInt8) : Nat → List Field → List (List UInt8)
  | _, [] => []
  | ilen, .bytes n :: fs => dataNames data (ilen + n) fs
  | ilen, .name :: fs =>
      (rhnlenIn 0 (data.drop ilen)).elim [] fun len =>
        (data.drop ilen).take len :: dataNames data (ilen + len) fs
  | ilen, .texts :: fs => (putTextsLen data 3 4).elim [] fun n => dataNames data (ilen + n) fs
  | _, .rest :: fs => dataNames data data.length fs

/-- The names of a record that are given to `compress_name`. -/
def Record.names (r : Record) : List (List UInt8) :=
  r.owner.wire :: (fieldsOf r.tp).elim [] (dataNames r.data 0)

section Alike

variable {cb present own : List CompEl} {inn out : List UInt8} {offs start : Nat}
  {data : List UInt8}

/-- A name for which the search finds the same is written the same. -/
theorem compressName_alike (hsearch : searchName inn cb = searchName inn present)
    {cb' : List CompEl}
    (h : compressName inn offs (cb ++ own) = some (out, cb')) :
    ∃ own', cb' = cb ++ own' ∧
      compressName inn offs (present ++ own) = some (out, present ++ own') := by
  have hsame : (cb ++ own).foldlM (tryEntry inn) ⟨0, 0, 0⟩ =
      (present ++ own).foldlM (tryEntry inn) ⟨0, 0, 0⟩ := by
    rw [List.foldlM_append, List.foldlM_append]
    exact congrArg (· >>= fun best => own.foldlM (tryEntry inn) best) hsearch
  simp only [compressName, hsame] at h ⊢
  split_ifs at h ⊢ with hlen
  obtain ⟨best, hbest, h⟩ := Option.bind_eq_some_iff.mp h
  simp only [hbest, Option.bind_eq_bind, Option.bind_some]
  split_ifs at h ⊢ <;> cases h
  · exact ⟨own ++ [⟨offs, inn.take (rhnlen inn)⟩], by simp, by simp⟩
  · exact ⟨own, rfl, rfl⟩
  · exact ⟨own ++ [⟨offs, inn.take (rhnlen inn)⟩], by simp, by simp⟩

theorem bind_guard_eq_some {α : Type} {p : Prop} [Decidable p] {x : Option α} {y : α} :
    (guard p >>= fun _ => x) = some y ↔ p ∧ x = some y := by
  by_cases hp : p <;> simp [guard, hp]

theorem putBytes_eq_some {n : Nat} {s s' : Put} (h : putBytes data n s = some s') :
    s' = ⟨s.out ++ (data.drop s.ilen).take n, s.ilen + n, s.cb⟩ ∧
      ∀ cb, putBytes data n { s with cb := cb } = some { s' with cb := cb } := by
  rw [putBytes] at h
  split_ifs at h with hlen
  cases h
  exact ⟨rfl, fun cb => by rw [putBytes, if_neg hlen]⟩

theorem putFields_alike {fs : List Field} {s s' : Put} (hcb : s.cb = cb ++ own)
    (hnames : ∀ n ∈ dataNames data s.ilen fs, searchName n cb = searchName n present)
    (h : putFields data start s fs = some s') :
    ∃ own', s'.cb = cb ++ own' ∧ putFields data start { s with cb := present ++ own } fs =
      some { s' with cb := present ++ own' } := by
  induction fs generalizing s own with
  | nil =>
      cases h
      exact ⟨own, hcb, rfl⟩
  | cons f fs ih =>
      cases f with
      | bytes n =>
          rw [putFields] at h ⊢
          obtain ⟨hfollow, h⟩ := bind_guard_eq_some.mp h
          obtain ⟨s₁, hput, h⟩ := Option.bind_eq_some_iff.mp h
          obtain ⟨hend, h⟩ := bind_guard_eq_some.mp h
          obtain ⟨hs₁, hput'⟩ := putBytes_eq_some hput
          obtain ⟨own', hown, hrest⟩ :=
            ih (s := s₁) (by rw [hs₁]; exact hcb) (by rw [hs₁]; exact hnames) h
          refine ⟨own', hown, ?_⟩
          rw [guard_bind hfollow, hput', Option.bind_eq_bind, Option.bind_some, guard_bind hend]
          exact hrest
      | name =>
          rw [putFields] at h ⊢
          obtain ⟨s₁, hput, h⟩ := Option.bind_eq_some_iff.mp h
          obtain ⟨hend, h⟩ := bind_guard_eq_some.mp h
          rw [putName] at hput
          obtain ⟨len, hlen, hput⟩ := Option.bind_eq_some_iff.mp hput
          obtain ⟨⟨out, cb'⟩, hcompress, hput⟩ := Option.bind_eq_some_iff.mp hput
          cases hput
          rw [dataNames, hlen, Option.elim_some, List.forall_mem_cons] at hnames
          rw [hcb] at hcompress
          obtain ⟨own₁, rfl, hcompress'⟩ := compressName_alike hnames.1 hcompress
          obtain ⟨own', hown, hrest⟩ :=
            ih (s := ⟨s.out ++ out, s.ilen + len, cb ++ own₁⟩) rfl hnames.2 h
          refine ⟨own', hown, ?_⟩
          rw [putName]
          simp only [hlen, hcompress', Option.bind_eq_bind, Option.bind_some]
          rw [← Option.bind_eq_bind, guard_bind hend]
          exact hrest
      | texts =>
          rw [putFields] at h ⊢
          obtain ⟨hfollow, h⟩ := bind_guard_eq_some.mp h
          obtain ⟨n, hn, h⟩ := Option.bind_eq_some_iff.mp h
          obtain ⟨s₁, hput, h⟩ := Option.bind_eq_some_iff.mp h
          obtain ⟨hs₁, hput'⟩ := putBytes_eq_some hput
          rw [dataNames, hn, Option.elim_some] at hnames
          obtain ⟨own', hown, hrest⟩ :=
            ih (s := s₁) (by rw [hs₁]; exact hcb) (by rw [hs₁]; exact hnames) h
          refine ⟨own', hown, ?_⟩
          rw [guard_bind hfollow]
          simp only [hn, hput', Option.bind_eq_bind, Option.bind_some]
          exact hrest
      | rest =>
          rw [putFields] at h ⊢
          obtain ⟨hfollow, h⟩ := bind_guard_eq_some.mp h
          obtain ⟨s₁, hput, h⟩ := Option.bind_eq_some_iff.mp h
          obtain ⟨hs₁, hput'⟩ := putBytes_eq_some hput
          have hilen : s₁.ilen = data.length := by
            rw [hs₁]
            exact Nat.add_sub_cancel' hfollow
          rw [dataNames, ← hilen] at hnames
          obtain ⟨own', hown, hrest⟩ := ih (s := s₁) (by rw [hs₁]; exact hcb) hnames h
          refine ⟨own', hown, ?_⟩
          rw [guard_bind hfollow, hput', Option.bind_eq_bind, Option.bind_some]
          exact hrest

theorem putRdata_alike {tp : Nat} {rdata : List UInt8} {cb' : List CompEl}
    (hnames : ∀ n ∈ (fieldsOf tp).elim [] (dataNames data 0),
      searchName n cb = searchName n present)
    (h : putRdata tp data start (cb ++ own) = some (rdata, cb')) :
    ∃ own', cb' = cb ++ own' ∧
      putRdata tp data start (present ++ own) = some (rdata, present ++ own') := by
  rw [putRdata] at h ⊢
  cases hfields : fieldsOf tp with
  | some fs =>
      simp only [hfields, Option.elim_some] at h hnames
      obtain ⟨s', hs', hpair⟩ := Option.map_eq_some_iff.mp h
      obtain ⟨own', hown, hrest⟩ := putFields_alike (s := ⟨[], 0, cb ++ own⟩) rfl hnames hs'
      cases hpair
      exact ⟨own', hown, by simp only [hrest, Option.map_some]⟩
  | none =>
      simp only [hfields] at h
      cases h
      exact ⟨own, rfl, rfl⟩

theorem addRr_alike {ans ans' : Response} {sect : RrSection} {r : Record}
    (hnames : ∀ n ∈ r.names, searchName n ans.cb = searchName n present)
    (h : addRr none ans sect r = some ans') :
    ∃ own, ans'.cb = ans.cb ++ own ∧ addRr none { ans with cb := present } sect r =
      some { ans' with cb := present ++ own } := by
  rw [Record.names, List.forall_mem_cons] at hnames
  rw [addRr] at h ⊢
  obtain ⟨⟨nbuf, cb₁⟩, hcompress, h⟩ := Option.bind_eq_some_iff.mp h
  obtain ⟨⟨rdata, cb₂⟩, hput, h⟩ := Option.bind_eq_some_iff.mp h
  rw [← List.append_nil ans.cb] at hcompress
  obtain ⟨own₁, rfl, hcompress'⟩ := compressName_alike hnames.1 hcompress
  obtain ⟨own₂, rfl, hput'⟩ := putRdata_alike hnames.2 hput
  rw [List.append_nil] at hcompress'
  have hans : ans' = ({ ans with
      bytes := ans.bytes ++ nbuf ++ putHead r.tp r.ttl rdata.length ++ rdata
      cb := ans.cb ++ own₂ } : Response).count sect := by
    simpa using h.symm
  refine ⟨own₂, by rw [hans, Response.cb_count], ?_⟩
  simp only [hcompress', hput', Option.bind_eq_bind, Option.bind_some]
  rw [hans]
  cases sect <;> rfl

end Alike

/-- The list of `compress_name` has names in it that can be compressed. -/
def Named (cb : List CompEl) : Prop :=
  ∃ G : List Entry, cb = G.map Entry.el ∧ ∀ g ∈ G, g.name.Valid

theorem Sound.named {cb : List CompEl} {done : List (Nat × List UInt8)} {bound : Nat}
    (h : Sound cb done bound) : Named cb := by
  obtain ⟨G, hcb, hG, -⟩ := h.exists_entries
  exact ⟨G, hcb, hG⟩

/-- Nothing is asked of names that would have to stand at one offset with different bytes. -/
theorem Named.sound {cb : List CompEl} (h : Named cb) (bound : Nat) :
    Sound cb [(0, [0]), (0, [1])] bound := by
  obtain ⟨G, hcb, hG⟩ := h
  refine ⟨G, hcb, hG, fun msg hdone => ?_⟩
  have hzero := (hdone _ List.mem_cons_self).cons.1
  have hone := (hdone _ (List.mem_cons_of_mem _ List.mem_cons_self)).cons.1
  rw [hzero] at hone
  cases hone

/-- No assertion fails, whichever names are in the list. -/
theorem addRr_named {ans : Response} (h : Named ans.cb) {r : Record} (hr : r.Storable)
    (sect : RrSection) (hsmall : ans.bytes.length + r.size ≤ 2 ^ 32) :
    ∃ ans', addRr none ans sect r = some ans' ∧ Named ans'.cb ∧ ans'.bytes ≠ ans.bytes := by
  obtain ⟨ans', w, done', hadd, hbytes, hne, -, hsound, -⟩ :=
    addRr_spec (h.sound ans.bytes.length) hr sect hsmall
  exact ⟨ans', hadd, hsound.named, by simpa [hbytes] using hne⟩

/-- With a limit the record is withdrawn, or it is not. -/
theorem addRr_limit (udp : Option Nat) (ans : Response) (sect : RrSection) (r : Record) :
    addRr udp ans sect r = (addRr none ans sect r).map fun ans' =>
      if (udp.any fun limit => limit < ans'.bytes.length) && sect = .additional then
        { ans with cb := ans'.cb }
      else ans' := by
  rw [addRr, addRr]
  cases compressName r.owner.wire ans.bytes.length ans.cb with
  | none => rfl
  | some x =>
      simp only [Option.bind_eq_bind, Option.bind_some]
      cases putRdata r.tp r.data (ans.bytes.length + x.1.length + 10) x.2 with
      | none => rfl
      | some y =>
          simp only [Option.bind_some, Option.any_none, Bool.false_and,
            Bool.false_eq_true, if_false,
            Option.map_some, Response.bytes_count, Response.cb_count]
          split_ifs <;> rfl

end TorAndroid.Dns
