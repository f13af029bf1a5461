import TorAndroid.Dns.FullCache
import Mathlib.Order.Bounds.Basic

namespace TorAndroid.Dns

open TorAndroid.Lib.TornInput TorAndroid.Lib.ByteBuffer

section Loop

variable {w : Nat} {memory : Nat → Bool} {cfg : CacheConfig} {clock : Nat → Int} {c : Cent}
  {cs : List Cent} {k m : Nat}

/-- The entries as they are read, with the times at which they are added; `n` are added before. -/
def timed (clock : Nat → Int) (n : Nat) (cs : List Cent) : List (Int × DiskEntry) :=
  (cs.zipIdx n).map fun x => (clock x.2, x.1.diskEntry)

/-- The numbers of entries that are completely in the first `k` bytes. -/
def wholeEntries (w k : Nat) (cs : List Cent) : Set Nat :=
  {m | m ≤ cs.length ∧ ((cs.take m).flatMap (entryBytes w)).length ≤ k}

theorem isGreatest_wholeEntries_torn (hk : k < (entryBytes w c).length) :
    IsGreatest (wholeEntries w k (c :: cs)) 0 := by
  refine ⟨⟨Nat.zero_le _, Nat.zero_le _⟩, ?_⟩
  rintro (_ | m) ⟨-, hfits⟩
  · exact Nat.le_refl 0
  · rw [List.take_succ_cons, List.flatMap_cons, List.length_append] at hfits
    omega

theorem length_entryBytes_pos (w : Nat) (c : Cent) : 0 < (entryBytes w c).length := by
  rw [entryBytes, List.length_append]
  exact Nat.add_pos_left (Nat.succ_pos 5) _

theorem isGreatest_wholeEntries_zero (w : Nat) (cs : List Cent) :
    IsGreatest (wholeEntries w 0 cs) 0 := by
  cases cs with
  | nil => exact ⟨⟨Nat.le_refl 0, Nat.le_refl 0⟩, fun m hm => hm.1⟩
  | cons c cs => exact isGreatest_wholeEntries_torn (length_entryBytes_pos w c)

theorem isGreatest_wholeEntries_cons (hk : (entryBytes w c).length ≤ k)
    (h : IsGreatest (wholeEntries w (k - (entryBytes w c).length) cs) m) :
    IsGreatest (wholeEntries w k (c :: cs)) (m + 1) := by
  obtain ⟨⟨hlength, hfits⟩, hmax⟩ := h
  constructor
  · refine ⟨Nat.succ_le_succ hlength, ?_⟩
    rw [List.take_succ_cons, List.flatMap_cons, List.length_append]
    omega
  · rintro (_ | m') ⟨hlength', hfits'⟩
    · exact Nat.zero_le _
    · rw [List.take_succ_cons, List.flatMap_cons, List.length_append] at hfits'
      exact Nat.succ_le_succ (hmax ⟨Nat.le_of_succ_le_succ hlength', by omega⟩)

/-- Reading adds the entries that are completely there, and stops at the one that is cut. -/
theorem readLoop_torn (hmemory : ∀ n, memory n = true) (hfits : ∀ c ∈ cs, c.FitsFile w) (k n : Nat)
    (x : ReadState) (s : Cache) :
    ∃ m, IsGreatest (wholeEntries w k cs) m ∧
      readLoop w memory cfg clock cs.length n (x, (cs.flatMap (entryBytes w)).take k) s =
        ((timed clock n (cs.take m)).foldlM (readEntry cfg) s).map .loaded := by
  induction cs generalizing k n x s with
  | nil => exact ⟨0, ⟨⟨Nat.le_refl 0, Nat.zero_le k⟩, fun m hm => hm.1⟩, rfl⟩
  | cons c cs ih =>
      rw [List.forall_mem_cons] at hfits
      have htakes := takes_readDiskEntry hmemory hfits.1
      rw [List.flatMap_cons, List.take_append]
      obtain htorn | hwhole := Nat.lt_or_ge k (entryBytes w c).length
      · -- nothing is read of an entry that is cut
        refine ⟨0, isGreatest_wholeEntries_torn htorn, ?_⟩
        obtain ⟨e, hstops, hrun⟩ := htakes.torn x k htorn
        rw [Nat.sub_eq_zero_of_le (Nat.le_of_lt htorn), List.take_zero, List.append_nil,
          List.length_cons, readLoop, hrun]
        cases e with
        | stop what => rfl
        | exit => exact hstops.elim
      · obtain ⟨y, hrun⟩ := htakes.whole x
          ((cs.flatMap (entryBytes w)).take (k - (entryBytes w c).length))
        rw [List.take_of_length_le hwhole, List.length_cons, readLoop, hrun]
        change ∃ m, _ ∧ (readEntry cfg s (clock n, c.diskEntry)).bind _ = _
        have hfold : ∀ m, (timed clock n ((c :: cs).take (m + 1))).foldlM (readEntry cfg) s =
            (readEntry cfg s (clock n, c.diskEntry)).bind
              ((timed clock (n + 1) (cs.take m)).foldlM (readEntry cfg)) := fun m => rfl
        cases hadd : readEntry cfg s (clock n, c.diskEntry) with
        | none =>
            obtain ⟨m, hgreatest, -⟩ := ih hfits.2 (k - (entryBytes w c).length) (n + 1) y s
            refine ⟨m + 1, isGreatest_wholeEntries_cons hwhole hgreatest, ?_⟩
            rw [hfold, hadd]
            rfl
        | some t =>
            obtain ⟨m, hgreatest, hrest⟩ := ih hfits.2 (k - (entryBytes w c).length) (n + 1) y t
            refine ⟨m + 1, isGreatest_wholeEntries_cons hwhole hgreatest, ?_⟩
            rw [Option.bind_some, hrest, hfold, hadd]
            rfl

/-- The number of entries is read if it is in the range of `unsigned long`. -/
theorem takes_readFileHead {n : Nat} (hn : n < 256 ^ w) :
    Takes ReadEnd.Stops (readFileHead w) (headBytes w n) n := by
  rw [readFileHead, headBytes]
  refine (takes_next rfl).bind ?_
  rw [if_neg (not_not.mpr rfl)]
  refine (takes_next (length_wordBytes w n)).before ?_
  rw [wordValue_wordBytes hn]
  exact .pure n

/-- The numbers of entries that are completely in the first `k` bytes of the file. -/
def containedEntries (w k : Nat) (cs : List Cent) : Set Nat :=
  {m | m ≤ cs.length ∧
    (m = 0 ∨ (headBytes w cs.length ++ (cs.take m).flatMap (entryBytes w)).length ≤ k)}

theorem containedEntries_eq (w k : Nat) (cs : List Cent) :
    containedEntries w k cs = wholeEntries w (k - (headBytes w cs.length).length) cs := by
  ext m
  refine and_congr_right fun hm => ?_
  rw [List.length_append]
  cases m with
  | zero => simp
  | succ m =>
      obtain ⟨c, cs, rfl⟩ := List.exists_cons_of_length_pos (Nat.zero_lt_of_lt hm)
      have hpos := length_entryBytes_pos w c
      rw [List.take_succ_cons, List.flatMap_cons, List.length_append]
      omega

/-- Nothing but the whole entries of a file that was cut counts. -/
theorem readDiskFile_eq (hmemory : ∀ n, memory n = true) (hfits : ∀ c ∈ cs, c.FitsFile w)
    (hcount : cs.length < 256 ^ w) (k : Nat) (s : Cache) :
    ∃ m, IsGreatest (containedEntries w k cs) m ∧
      readDiskFile w memory cfg clock
          ((headBytes w cs.length ++ cs.flatMap (entryBytes w)).take k) s =
        ((timed clock 0 (cs.take m)).foldlM (readEntry cfg) { s with insertSort := false }).bind
          fun u => (finishReading u).map .loaded := by
  have hhead := takes_readFileHead hcount
  simp only [containedEntries_eq]
  rw [readDiskFile, if_pos (hmemory 0), List.take_append]
  obtain htorn | hwhole := Nat.lt_or_ge k (headBytes w cs.length).length
  · obtain ⟨e, hstops, hrun⟩ := hhead.torn ⟨512, 1⟩ k htorn
    have hnone := Nat.sub_eq_zero_of_le (Nat.le_of_lt htorn)
    refine ⟨0, by rw [hnone]; exact isGreatest_wholeEntries_zero w cs, ?_⟩
    rw [hnone, List.take_zero, List.append_nil, hrun]
    cases e with
    | stop what => rfl
    | exit => exact hstops.elim
  · obtain ⟨y, hrun⟩ := hhead.whole ⟨512, 1⟩
      ((cs.flatMap (entryBytes w)).take (k - (headBytes w cs.length).length))
    obtain ⟨m, hgreatest, hloop⟩ := @readLoop_torn w memory cfg clock cs hmemory hfits
      (k - (headBytes w cs.length).length) 0 y { s with insertSort := false }
    refine ⟨m, hgreatest, ?_⟩
    rw [List.take_of_length_le hwhole, hrun]
    dsimp only
    rw [hloop]
    cases (timed clock 0 (cs.take m)).foldlM (readEntry cfg) { s with insertSort := false } <;> rfl

end Loop

section Torn

variable {w : Nat} {memory : Nat → Bool} {cfg : CacheConfig} {clock : Nat → Int} {s t u v : Cache}

/-- The values of the fields are in the range of their types. -/
structure Cache.FitsFile (w : Nat) (s : Cache) : Prop where
  entry : ∀ k c, s.find k = some c → c.FitsFile w
  count : s.table.entries.length < 256 ^ w

theorem Cent.FitsFile.thins {p : RrSet → Prop} {c d : Cent} (h : c.FitsFile w)
    (hthins : c.Thins p d) : d.FitsFile w := by
  refine ⟨hthins.name ▸ h.name, fun x hx => ?_, fun i r hr => ?_⟩
  · have hneg : d.negative = true := by
      by_contra hpos
      rw [Cent.negTimes_eq_none_iff.mpr (by simpa using hpos)] at hx
      cases hx
    have harm := hthins.arm (hthins.negative.symm.trans hneg)
    refine h.times x ?_
    rw [Cent.negTimes, ← harm]
    exact hx
  · obtain heq | ⟨hnone, -⟩ := hthins.rrset i
    · exact h.sets i r (heq ▸ hr)
    · rw [hnone] at hr
      cases hr

theorem Cache.FitsFile.thins (h : s.FitsFile w) (hthins : s.ThinsAny t) : t.FitsFile w := by
  have hkept : ∀ k d, t.find k = some d → ∃ c, s.find k = some c ∧ c.Thins (fun _ => True) d := by
    intro k d hd
    have hk := hthins k
    rw [hd] at hk
    generalize hc : s.find k = v at hk
    cases hk with
    | kept hthin => exact ⟨_, rfl, hthin⟩
  constructor
  · intro k d hd
    obtain ⟨c, hc, hthin⟩ := hkept k d hd
    exact (h.entry k c hc).thins hthin
  · have hlength := @Cache.length_entries_le t s.table.keys fun k d hd => by
      obtain ⟨c, hc, -⟩ := hkept k d hd
      exact AList.mem_keys.mp (AList.lookup_isSome.mp (Option.isSome_iff_exists.mpr ⟨c, hc⟩))
    change _ ≤ (s.table.entries.map Sigma.fst).length at hlength
    rw [List.length_map] at hlength
    exact Nat.lt_of_le_of_lt hlength h.count

theorem Cache.FitsFile.written (h : s.FitsFile w) :
    (∀ c ∈ s.written, c.FitsFile w) ∧ s.written.length < 256 ^ w := by
  constructor
  · intro c hc
    obtain ⟨e, he, rfl⟩ := List.mem_map.mp (List.mem_of_mem_filter hc)
    exact h.entry e.1 e.2 (List.mem_dlookup s.table.nodupKeys he)
  · refine Nat.lt_of_le_of_lt (List.length_filter_le _ _) ?_
    rw [List.length_map]
    exact h.count

/-- The list is sorted, and nothing else is changed. -/
structure Cache.Sorted (u v : Cache) : Prop where
  same : v = { u with rrl := v.rrl, insertSort := true }
  perm : v.rrl.toList.Perm u.rrl.toList
  insertSort : v.insertSort = true
  oldest : v.rrl.toList.Pairwise fun x y => v.nodeTs x ≤ v.nodeTs y

theorem sorted_finishReading (h : Linked cfg u) (hold : u.OldestFirst)
    (hv : finishReading u = some v) : u.Sorted v := by
  rw [finishReading] at hv
  split_ifs at hv with hsort
  · cases hv
    refine ⟨?_, .refl _, hsort, hold hsort⟩
    rw [← hsort]
  · obtain ⟨t, ht, rfl⟩ := Option.map_eq_some_iff.mp hv
    obtain ⟨-, -, hold'⟩ := linked_sortRrl h ht
    obtain ⟨order, horder, heq⟩ := Option.bind_eq_some_iff.mp ht
    cases heq
    obtain ⟨xs, hinv, -⟩ := h
    rw [hinv.represents.toList_eq] at horder
    obtain ⟨hperm, -⟩ := mergeOrder_spec _ horder
    refine ⟨rfl, ?_, rfl, hold' rfl⟩
    have hlist : (u.rrl.relink order).toList = order := (hinv.represents.relink hperm).toList_eq
    change (u.rrl.relink order).toList.Perm _
    rw [hlist, hinv.represents.toList_eq]
    exact hperm

/-- A file is written, and what is left of it after it was cut off at any byte is loaded: the
entries that are completely there, one after the other, and then the list is sorted. -/
theorem readDiskFile_torn (hmemory : ∀ n, memory n = true) (hgood : Good cfg NoDeficit s)
    (hfits : s.FitsFile w) (now : Int) :
    ∃ t file, writeDiskFile w cfg now s = some (t, file) ∧ ∀ k, ∃ m,
      IsGreatest (containedEntries w k t.written) m ∧
      (((t.written.take m).flatMap fun c => c.diskEntry.places).length < 2 ^ 32 →
        ∃ u v, (timed clock 0 (t.written.take m)).foldlM (readEntry cfg)
            { Cache.empty with insertSort := false } = some u ∧
          readDiskFile w memory cfg clock (file.take k) Cache.empty = some (.loaded v) ∧
          u.Sorted v) := by
  obtain ⟨xs, hinv, hsized, hsort⟩ := hgood
  obtain ⟨t, ys, ht, -⟩ := purgeCache_spec (p := fun _ => True) (q := fun _ _ => True)
    (fun _ => NoDeficit.fst) hinv hsized hsort (fun _ _ => trivial) (fun _ => trivial) now
    (cfg.permCache * 1024) false
  obtain ⟨-, hthins, -⟩ := purgeCache_linked ⟨xs, hinv, hsized⟩ ht
  obtain ⟨hwritten, hcount⟩ := (hfits.thins hthins).written
  refine ⟨t, _, by rw [writeDiskFile, ht]; rfl, fun k => ?_⟩
  obtain ⟨m, hgreatest, hread⟩ :=
    @readDiskFile_eq w memory cfg clock t.written hmemory hwritten hcount k Cache.empty
  refine ⟨m, hgreatest, fun hroom => ?_⟩
  have hstart : Linked cfg { Cache.empty with insertSort := false } := linked_unsorted good_empty
  have hempty : Cache.HeldIn [] { Cache.empty with insertSort := false } := by
    intro k c hc
    cases hc
  have hplaces : ((timed clock 0 (t.written.take m)).flatMap fun x => x.2.places).length <
      2 ^ 32 := by
    have hentries := List.flatMap_map Prod.fst (fun c : Cent => c.diskEntry.places)
      ((t.written.take m).zipIdx 0)
    rw [List.zipIdx_map_fst] at hentries
    rw [timed, List.flatMap_map, ← hentries]
    exact hroom
  obtain ⟨u, hu, hheld⟩ := readEntries_total hstart hempty ((Nat.zero_add _).trans_lt hplaces)
  obtain ⟨hlinked, hold⟩ := readEntries_linked hstart hu
  have hshort := Nat.lt_of_le_of_lt (hheld.length_le hlinked) hplaces
  obtain ⟨v, hv⟩ : ∃ v, finishReading u = some v := by
    rw [finishReading]
    split_ifs
    · exact ⟨u, rfl⟩
    · obtain ⟨v, hv⟩ := Option.isSome_iff_exists.mp ((sortRrl_isSome_iff u).mpr hshort)
      exact ⟨_, congrArg (Option.map _) hv⟩
  refine ⟨u, v, hu, ?_, sorted_finishReading hlinked (hold fun h => by cases h) hv⟩
  rw [hread, hu, Option.bind_some, hv]
  rfl

end Torn

section Overlong

variable {w : Nat} {memory : Nat → Bool} {cfg : CacheConfig} {name : Nat → Name} {s : Cache}
  {n : Nat}

theorem Numbered.fitsFile (h : Numbered cfg name n s) (hvalid : ∀ i < n, (name i).Valid)
    (hfits : FitsTime w (boundTtl cfg true 0)) (hn : n < 256 ^ w) : s.FitsFile w := by
  constructor
  · intro k c hc
    obtain ⟨i, hi, -, hneg⟩ := h.only k c hc
    refine ⟨hneg.qname ▸ hvalid i hi, fun x hx => ?_, fun j r hr => ?_⟩
    · rw [hneg.negTimes] at hx
      cases hx
      exact ⟨hfits, .zero w⟩
    · rw [h.rrset hc] at hr
      cases hr
  · exact Nat.lt_of_le_of_lt h.length_entries_le hn

theorem Numbered.purge (h : Numbered cfg name n s) (hsize : s.cacheSize ≤ cfg.permCache * 1024) :
    purgeCache cfg 0 s (cfg.permCache * 1024) false = some s := by
  obtain ⟨xs, hinv, hsized, -⟩ := h.good
  exact purgeCache_fresh ⟨xs, hinv, hsized⟩ h.fresh hsize false

theorem Numbered.length_places (h : Numbered cfg name n s) (m : Nat) :
    ((s.written.take m).flatMap fun c => c.diskEntry.places).length ≤ n := by
  have hplaces : ∀ c ∈ s.written.take m, c.diskEntry.places.length = 1 := by
    intro c hc
    obtain ⟨e, he, rfl⟩ := List.mem_map.mp (List.mem_of_mem_filter (List.mem_of_mem_take hc))
    have hfind : s.find e.1 = some e.2 := List.mem_dlookup s.table.nodupKeys he
    obtain ⟨i, -, -, hneg⟩ := h.only _ _ hfind
    have hsets : e.2.diskSets = [] := by
      refine List.filterMap_eq_nil_iff.mpr fun j _ => ?_
      rw [Cent.diskSet, h.rrset hfind]
      rfl
    simp [DiskEntry.places, Cent.diskEntry, hneg.negative, hsets]
  rw [List.length_flatMap, List.map_congr_left hplaces, List.map_const', List.sum_replicate,
    smul_eq_mul, Nat.mul_one]
  refine Nat.le_trans (List.length_take_le' _ _) (Nat.le_trans (List.length_filter_le _ _) ?_)
  rw [List.length_map]
  exact h.length_entries_le

theorem readable_written (cs : List Cent) :
    readable (cs.map writeEntry) = cs.map Cent.diskEntry := by
  induction cs with
  | nil => rfl
  | cons c cs ih =>
      rw [List.map_cons, readable, read_writeEntry, ih]
      rfl

/-- A file of more entries than the array of `sort_rrl` has room for cannot be loaded. -/
theorem Numbered.not_loaded (h : Numbered cfg name n s) (hmemory : ∀ n, memory n = true)
    (hinj : ∀ i j, i < j → j < n → (name i).fold ≠ (name j).fold) (hfits : s.FitsFile w)
    (hsize : s.cacheSize ≤ cfg.permCache * 1024) (hn : 2 ^ 32 ≤ n) :
    ∃ file, writeDiskFile w cfg 0 s = some (s, file) ∧
      readDiskFile w memory cfg (fun _ => 0) file Cache.empty = none := by
  obtain ⟨xs, hinv, hsized, hsort⟩ := h.good
  have hlinked : Linked cfg s := ⟨xs, hinv, hsized⟩
  refine ⟨_, by rw [writeDiskFile, h.purge hsize]; rfl, ?_⟩
  obtain ⟨hwritten, hcount⟩ := hfits.written
  obtain ⟨m, hgreatest, hread⟩ := @readDiskFile_eq w memory cfg (fun _ => 0) s.written hmemory
    hwritten hcount (headBytes w s.written.length ++ s.written.flatMap (entryBytes w)).length
    Cache.empty
  have hall : m = s.written.length :=
    Nat.le_antisymm hgreatest.1.1 (hgreatest.2 ⟨Nat.le_refl _, Or.inr (by rw [List.take_length])⟩)
  rw [List.take_length, hall, List.take_length] at hread
  obtain ⟨hmem, hwritable, hkeys⟩ := writable_of_perm hlinked
    (show s.written.Perm _ by rw [Cache.written, List.filter_map]; exact .refl _)
  have hstart : Loaded cfg [] { Cache.empty with insertSort := false } :=
    ⟨linked_unsorted good_empty, by simp, fun k d hd => by cases hd⟩
  have hlimit : s.cacheSize ≤ cfg.permCache * 1024 + mcsz :=
    Int.le_trans hsize (Int.le_add_of_nonneg_right (by decide))
  obtain ⟨u, hu, hloaded, hunsorted⟩ :=
    Loaded.readAll hlinked hlimit 0 s.written hstart (by simp) hwritable hkeys (by simp)
  have htimed : timed (fun _ => 0) 0 s.written =
      (readable (s.written.map writeEntry)).map fun e => (0, e) := by
    rw [readable_written, List.map_map]
    have hentries := List.map_map (f := Prod.fst) (g := fun c : Cent => ((0 : Int), c.diskEntry))
      (l := s.written.zipIdx 0)
    rw [List.zipIdx_map_fst] at hentries
    exact hentries.symm
  have hlong : ¬u.rrl.toList.length < 2 ^ 32 := by
    rw [hloaded.length_rrl hlinked (by simpa using hmem)]
    exact Nat.not_lt.mpr (Nat.le_trans hn (h.le_length_rrl hinj))
  have hnone : sortRrl u = none := by
    rw [← sortRrl_isSome_iff] at hlong
    simpa using hlong
  rw [hread, htimed, hu, Option.bind_some, finishReading, if_neg (by rw [hunsorted]; decide), hnone]
  rfl

end Overlong

section Example

/-- Names of one label, whose letters are the bits of a number. -/
def numberedName (i : Nat) : Name :=
  ⟨[⟨(List.range 32).map fun j => if i.testBit j then 98 else 97, by simp, by simp⟩]⟩

theorem numberedName_fold_ne {i j : Nat} (hij : i < j) (hj : j < 2 ^ 32) :
    (numberedName i).fold ≠ (numberedName j).fold := by
  intro heq
  have hbits : ∀ b < 32, i.testBit b = j.testBit b := by
    intro b hb
    have hlabel := congrArg (fun l : List (List UInt8) => (l.head?.getD [])[b]?) heq
    simp only [Name.fold, numberedName, List.map_cons, List.head?_cons,
      Option.getD_some, Label.fold,
      List.getElem?_map, List.getElem?_range hb, Option.map_some, Option.some.injEq] at hlabel
    revert hlabel
    cases i.testBit b <;> cases j.testBit b <;> decide
  refine Nat.ne_of_lt hij (Nat.eq_of_testBit_eq fun b => ?_)
  obtain hb | hb := Nat.lt_or_ge b 32
  · exact hbits b hb
  · have hpow : 2 ^ 32 ≤ 2 ^ b := Nat.pow_le_pow_right (by decide) hb
    rw [Nat.testBit_lt_two_pow (by omega), Nat.testBit_lt_two_pow (by omega)]

theorem numberedName_valid (i : Nat) : (numberedName i).Valid := by
  constructor
  · simp [numberedName]
  · simp [numberedName, Name.wire, Label.wire]

theorem rhnlen_numberedName (i : Nat) : rhnlen (numberedName i).wire = 34 := by
  rw [rhnlen_wire]
  simp [numberedName, Name.wire, Label.wire]

/-- A cache that may have a size of 2 ^ 40 bytes. -/
def largeConfig : CacheConfig :=
  { exampleConfig with permCache := 2 ^ 30 }

theorem exists_numberedName {n : Nat} (hn : n ≤ 2 ^ 32) :
    ∃ s, Numbered largeConfig numberedName n s ∧ s.FitsFile 8 ∧
      s.cacheSize ≤ largeConfig.permCache * 1024 := by
  have hname : ∀ i < n, rhnlen (numberedName i).wire ≤ 34 :=
    fun i _ => Nat.le_of_eq (rhnlen_numberedName i)
  have hroom : (n : Int) * (largeConfig.sizes.cent + 34 : Nat) ≤ largeConfig.permCache * 1024 := by
    change (n : Int) * (138 : Nat) ≤ 2 ^ 30 * 1024
    omega
  obtain ⟨s, hs⟩ := exists_numbered
    (fun i j hij hj => numberedName_fold_ne hij (Nat.lt_of_lt_of_le hj hn)) hname
    (Int.le_trans hroom (Int.le_add_of_nonneg_right (by decide)))
  exact ⟨s, hs, hs.fitsFile (fun i _ => numberedName_valid i)
    (by rw [FitsTime]; decide) (Nat.lt_of_le_of_lt hn (by decide)),
    Int.le_trans (hs.cacheSize_le hname) hroom⟩

/-- The process ends if there is no memory, or if the list is too long to be sorted. -/
theorem readDiskFile_not_loaded :
    (¬∀ cfg s, Good cfg NoDeficit s → s.FitsFile 8 → ∀ now clock, ∃ t file,
      writeDiskFile 8 cfg now s = some (t, file) ∧ ∀ k, ∃ v,
        readDiskFile 8 (fun _ => true) cfg clock (file.take k) Cache.empty = some (.loaded v)) ∧
      ∀ cfg clock file,
        readDiskFile 8 (fun _ => false) cfg clock file Cache.empty = some .exited := by
  refine ⟨fun h => ?_, fun _ _ _ => rfl⟩
  obtain ⟨s, hs, hfits, hsize⟩ := exists_numberedName (Nat.le_refl (2 ^ 32))
  obtain ⟨file, hwrite, hnone⟩ := @Numbered.not_loaded 8 (fun _ => true) _ _ s _ hs (fun _ => rfl)
    (fun i j => numberedName_fold_ne) hfits hsize (Nat.le_refl _)
  obtain ⟨t, file', hwrite', hread⟩ := h largeConfig s hs.good hfits 0 fun _ => 0
  cases hwrite.symm.trans hwrite'
  obtain ⟨v, hv⟩ := hread file.length
  rw [List.take_length, hnone] at hv
  cases hv

/-- Three entries, cut at any byte. -/
theorem readDiskFile_torn_three :
    ∃ s, Numbered largeConfig numberedName 3 s ∧ ∃ t file,
      writeDiskFile 8 largeConfig 0 s = some (t, file) ∧ ∀ k, ∃ m u v,
        IsGreatest (containedEntries 8 k t.written) m ∧
          (timed (fun _ => 0) 0 (t.written.take m)).foldlM (readEntry largeConfig)
              { Cache.empty with insertSort := false } = some u ∧
            readDiskFile 8 (fun _ => true) largeConfig (fun _ => 0) (file.take k) Cache.empty =
              some (.loaded v) ∧
            u.Sorted v := by
  obtain ⟨s, hs, hfits, hsize⟩ := exists_numberedName (show 3 ≤ 2 ^ 32 by decide)
  obtain ⟨t, file, hwrite, hread⟩ :=
    @readDiskFile_torn 8 (fun _ => true) largeConfig (fun _ => 0) s (fun _ => rfl) hs.good hfits 0
  refine ⟨s, hs, t, file, hwrite, fun k => ?_⟩
  obtain ⟨m, hgreatest, hload⟩ := hread k
  obtain ⟨u, v, hall⟩ := hload (by
    rw [writeDiskFile, hs.purge hsize] at hwrite
    cases hwrite
    have hlength := hs.length_places m
    omega)
  exact ⟨m, u, v, hgreatest, hall⟩

end Example

end TorAndroid.Dns
