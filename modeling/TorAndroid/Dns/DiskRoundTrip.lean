import TorAndroid.Dns.DiskEntries

namespace TorAndroid.Dns

open TorAndroid.Lib.GuardedRun

section Load

variable {cfg : CacheConfig} {t v : Cache} {now : Int}

theorem purgeCache_within {limit : Int} (h : v.cacheSize ≤ limit) :
    purgeCache cfg now v limit true = some v := by
  have hwalk : walkAll (fun s => !true || decide (limit < s.cacheSize)) (purgeOld cfg now) v =
      some v := by
    rw [walkAll]
    cases v.rrl.head with
    | none => rfl
    | some a => simp [walkRrl, Int.not_lt.mpr h]
  simp only [purgeCache]
  rw [hwalk]
  simp [h]

theorem Linked.surplus_nonneg (h : Linked cfg t) {k : Key} {c : Cent} (hc : t.find k = some c) :
    0 ≤ c.surplus cfg.sizes := by
  obtain ⟨xs, hinv, -⟩ := h
  exact (hinv.ok k c hc).surplus

theorem Cent.cs_nonneg {c : Cent} {sz : Sizes} (h : 0 ≤ c.surplus sz) : 0 ≤ c.cs := by
  have hcs : 0 ≤ c.cs - c.size sz := (Prod.le_def.mp h).2
  have hext : 0 ≤ c.extSize sz := by
    rw [extSize]
    split_ifs
    · exact Int.mul_nonneg (Int.natCast_nonneg _) (Int.natCast_nonneg _)
    · exact Int.le_refl 0
  have hmeasure : 0 ≤ c.measure fun r => (r.size sz : Int) := by
    refine Finset.sum_nonneg fun i _ => ?_
    cases c.rrset i with
    | none => exact Int.le_refl 0
    | some r => exact Int.natCast_nonneg _
  have hsize : 0 ≤ c.size sz := by
    rw [Cent.size]
    omega
  omega

/-- The entries of `t` that have been read so far, and nothing else. -/
structure Loaded (cfg : CacheConfig) (done : List Cent) (v : Cache) : Prop where
  linked : Linked cfg v
  find : ∀ c ∈ done, ∃ d, v.find c.qname.fold = some d ∧ c.ReadBack cfg d
  only : ∀ k d, v.find k = some d → ∃ c ∈ done, c.qname.fold = k

/-- An entry that can be written and read back. -/
structure Writable (t : Cache) (c : Cent) : Prop where
  find : t.find c.qname.fold = some c
  toWrite : c.toWrite = true

theorem Loaded.cacheSize_le {done : List Cent} (h : Loaded cfg done v) (ht : Linked cfg t)
    (hdone : ∀ c ∈ done, Writable t c) : v.cacheSize ≤ t.cacheSize := by
  obtain ⟨xs, -, hsized⟩ := id ht
  obtain ⟨ys, -, hsized'⟩ := id h.linked
  rw [hsized.cacheSize, hsized'.cacheSize]
  refine Cache.total_le (fun k d hd => ?_) fun k c hc => Cent.cs_nonneg (ht.surplus_nonneg hc)
  obtain ⟨c, hc, rfl⟩ := h.only k d hd
  obtain ⟨d', hd', hback⟩ := h.find c hc
  cases hd.symm.trans hd'
  exact ⟨c, (hdone c hc).find, hback.cs⟩

theorem Loaded.read {done : List Cent} {c : Cent} (h : Loaded cfg done v) (now : Int)
    (ht : Linked cfg t)
    (hlimit : t.cacheSize ≤ cfg.permCache * 1024 + mcsz)
    (hdone : ∀ c ∈ done, Writable t c) (hc : Writable t c)
    (hnew : ∀ c' ∈ done, c'.qname.fold ≠ c.qname.fold) :
    ∃ e w, (writeEntry c).read = some e ∧ readEntry cfg v (now, e) = some w ∧
      Loaded cfg (c :: done) w ∧ w.insertSort = v.insertSort := by
  have hsurplus := ht.surplus_nonneg hc.find
  obtain ⟨e, b, he, hb, hrebuilt⟩ := rebuild_spec cfg.sizes c
  have hnone : v.find b.qname.fold = none := by
    rw [hrebuilt.qname]
    by_contra hsome
    obtain ⟨d, hd⟩ := Option.ne_none_iff_exists'.mp hsome
    obtain ⟨c', hc', hkey⟩ := h.only _ d hd
    exact hnew c' hc' hkey
  obtain ⟨xs, hinv, hsized⟩ := h.linked
  obtain ⟨w, ys, d, hw, hwinv, hwsized, hwsort, hwfind, hcopy, -⟩ :=
    addNew_spec (E := NoDeficit) hinv hsized hnone (by rw [hrebuilt.surplus]; exact le_refl 0)
  have hloaded : Loaded cfg (c :: done) w := by
    rw [hrebuilt.qname] at hwfind
    refine ⟨⟨ys, hwinv, hwsized⟩, ?_, Cache.forall_find_update hwfind (fun k _ d' hd' => ?_)
      ⟨c, List.mem_cons_self, rfl⟩⟩
    · rw [List.forall_mem_cons]
      refine ⟨⟨d, by rw [hwfind, Function.update_self], hrebuilt.readBack hsurplus hcopy⟩, ?_⟩
      intro c' hc'
      rw [hwfind, Function.update_of_ne (hnew c' hc')]
      exact h.find c' hc'
    · obtain ⟨c', hc', hkey⟩ := h.only k d' hd'
      exact ⟨c', List.mem_cons_of_mem c hc', hkey⟩
  have hsize : w.cacheSize ≤ cfg.permCache * 1024 + mcsz :=
    Int.le_trans (hloaded.cacheSize_le ht (List.forall_mem_cons.mpr ⟨hc, hdone⟩)) hlimit
  refine ⟨e, w, he, ?_, hloaded, hwsort⟩
  have hholds : ¬(b.numRrs = 0 ∧ (!b.negative) = true) := by
    rintro ⟨hnum, hneg⟩
    exact hrebuilt.numRrs_ne_zero hc.toWrite (by simpa using hneg) hnum
  simp only [readEntry, hb, Option.bind_eq_bind, Option.bind_some, addCache]
  rw [hnone]
  simp only [if_neg hholds, hw, Option.bind_some]
  exact purgeCache_within hsize

end Load

section RoundTrip

variable {cfg : CacheConfig} {t v : Cache} {c d : Cent} {now : Int}

theorem Loaded.readAll (ht : Linked cfg t) (hlimit : t.cacheSize ≤ cfg.permCache * 1024 + mcsz)
    (now : Int) (cs : List Cent) {done : List Cent} (h : Loaded cfg done v)
    (hdone : ∀ c ∈ done, Writable t c) (hcs : ∀ c ∈ cs, Writable t c)
    (hkeys : (cs.map fun c => c.qname.fold).Nodup)
    (hnew : ∀ c ∈ cs, ∀ c' ∈ done, c'.qname.fold ≠ c.qname.fold) :
    ∃ w, ((readable (cs.map writeEntry)).map fun e => (now, e)).foldlM (readEntry cfg) v = some w ∧
      Loaded cfg (cs.reverse ++ done) w ∧ w.insertSort = v.insertSort := by
  induction cs generalizing v done with
  | nil => exact ⟨v, rfl, h, rfl⟩
  | cons c cs ih =>
      rw [List.forall_mem_cons] at hcs hnew
      rw [List.map_cons, List.nodup_cons] at hkeys
      obtain ⟨e, w, he, hw, hloaded, hsort⟩ := h.read now ht hlimit hdone hcs.1 hnew.1
      obtain ⟨u, hu, hloaded', hsort'⟩ := ih hloaded (List.forall_mem_cons.mpr ⟨hcs.1, hdone⟩)
        hcs.2 hkeys.2 (by
          intro c₁ hc₁
          rw [List.forall_mem_cons]
          refine ⟨fun heq => ?_, hnew.2 c₁ hc₁⟩
          exact hkeys.1 (List.mem_map.mpr ⟨c₁, hc₁, heq.symm⟩))
      refine ⟨u, ?_, by simpa using hloaded', hsort'.trans hsort⟩
      rw [List.map_cons, readable, he, List.map_cons, List.foldlM_cons, hw]
      exact hu

theorem Cent.ReadBack.listed (h : c.ReadBack cfg d) (o : Option Slot) :
    d.listed o = c.listed o := by
  cases o with
  | none =>
      have hneg : d.negative = c.negative := by
        rw [Bool.eq_iff_iff, ← not_iff_not, Bool.not_eq_true, Bool.not_eq_true,
          ← negTimes_eq_none_iff, ← negTimes_eq_none_iff, h.negTimes, Option.map_eq_none_iff]
      simp only [Cent.listed, hneg, h.isLocal]
  | some i =>
      have hset := h.rrset i
      simp only [Cent.listed, h.isLocal]
      congr 1
      cases hr : c.rrset i with
      | none =>
          rw [hr, Option.filter_none, Option.map_none, Option.map_eq_none_iff] at hset
          rw [hset]
      | some r =>
          rw [hr] at hset
          cases hlocal : r.flags.isLocal with
          | true =>
              simp only [Option.filter, hlocal, Bool.not_true, Bool.false_eq_true, if_false,
                Option.map_none, Option.map_eq_none_iff] at hset
              simp [hset, hlocal]
          | false =>
              simp only [Option.filter, hlocal, Bool.not_false, if_true, Option.map_some] at hset
              obtain ⟨r', hr', hbare⟩ := Option.map_eq_some_iff.mp hset
              have hlocal' : r'.flags.isLocal = r.flags.isLocal :=
                (congrArg (fun r => r.flags.isLocal) hbare).trans (adjustTtl_frame cfg _).2.1
              simp [hr', hlocal, hlocal']

theorem toWrite_of_listed {o : Option Slot} (h : c.listed o = true) : c.toWrite = true := by
  cases o with
  | none =>
      obtain ⟨hneg, hlocal⟩ : c.negative = true ∧ c.flags.isLocal = false := by
        simpa [Cent.listed] using h
      simp [Cent.toWrite, hneg, hlocal]
  | some i =>
      cases hr : c.rrset i with
      | none => simp [Cent.listed, hr] at h
      | some r =>
          obtain ⟨hlocal, -⟩ : r.flags.isLocal = false ∧ c.flags.isLocal = false := by
            simpa [Cent.listed, hr] using h
          exact (toWrite_iff (Cent.negative_of_rrset (i := i) (by rw [hr]; rfl))).mpr
            ⟨i, r, hr, hlocal⟩

theorem boundTtl_eq_iff (cfg : CacheConfig) (negative : Bool) (ttl : Int) :
    boundTtl cfg negative ttl = ttl ↔ WithinTtl cfg negative ttl := by
  cases negative <;> simp only [boundTtl, WithinTtl] <;> split_ifs <;> simp_all <;> omega

/-- A record set is read back unchanged only if it is within the bounds. -/
theorem adjustTtl_eq_iff (cfg : CacheConfig) {r : RrSet} (hnocache : r.flags.nocache = false)
    (rrs : List (List UInt8)) :
    adjustTtl cfg { r.bare with rrs := rrs } = r.bare ↔
      WithinTtl cfg r.flags.negative r.ttl ∧ rrs = r.rrs := by
  obtain ⟨lent, ttl, ts, flags, rrs'⟩ := r
  rw [← boundTtl_eq_iff]
  simp only at hnocache
  simp [adjustTtl, RrSet.bare, hnocache]

theorem writeRr_short {data : List UInt8} (h : data.length < 256 ^ 2) :
    (writeRr data).data = data := by
  change data.take (data.length % 256 ^ 2) = data
  rw [Nat.mod_eq_of_lt h, List.take_length]

/-- The records are read back unchanged only if their lengths can be written. -/
theorem readRrs_eq_iff {r : RrSet} (isLocal : Bool) (hfew : r.rrs.length ≤ 255)
    (hnodup : r.rrs.Nodup) :
    r.readRrs isLocal = r.rrs ↔
      (isLocal = true → r.rrs = []) ∧ ∀ data ∈ r.rrs, data.length < 256 ^ 2 := by
  cases isLocal with
  | true =>
      rw [RrSet.readRrs, if_pos rfl]
      constructor
      · intro heq
        rw [← heq]
        exact ⟨fun _ => rfl, fun data hdata => by cases hdata⟩
      · exact fun h => (h.1 rfl).symm
  | false =>
      rw [RrSet.readRrs, if_neg Bool.false_ne_true, RrSet.writtenRrs, List.take_of_length_le hfew]
      constructor
      · refine fun heq => ⟨fun hfalse => absurd hfalse Bool.false_ne_true, fun data hdata => ?_⟩
        rw [← heq] at hdata
        obtain ⟨d, -, rfl⟩ := List.mem_map.mp ((addNewRrs_sublist _ _).subset hdata)
        exact (writeRr d).rdlen_lt
      · rintro ⟨-, hshort⟩
        rw [List.map_congr_left fun data hdata => writeRr_short (hshort data hdata), List.map_id']
        exact addNewRrs_of_nodup hnodup

theorem settled_of_not_toWrite (h : c.toWrite = false) : c.Settled cfg := by
  cases hneg : c.negative with
  | true =>
      have hlocal : c.flags.isLocal = true := by simpa [Cent.toWrite, hneg] using h
      have hnone := Cent.rrset_of_negative hneg
      refine ⟨fun i r hr => ?_, fun _ i r hr => ?_, fun i r hr => ?_, fun x _ hfalse => ?_⟩
      · rw [hnone] at hr
        cases hr
      · rw [hnone] at hr
        cases hr
      · rw [hnone] at hr
        cases hr
      · rw [hlocal] at hfalse
        cases hfalse
  | false =>
      have hnone : ∀ i r, c.rrset i = some r → r.flags.isLocal = false → False := by
        intro i r hr hlocal
        rw [(toWrite_iff hneg).mpr ⟨i, r, hr, hlocal⟩] at h
        cases h
      refine ⟨fun i r hr hlocal => (hnone i r hr hlocal).elim,
        fun _ i r hr hlocal => (hnone i r hr hlocal).elim,
        fun i r hr hlocal => (hnone i r hr hlocal).elim, fun x hx => ?_⟩
      rw [Cent.negTimes_eq_none_iff.mpr hneg] at hx
      cases hx

/-- An entry is read back as it was only if it is settled. -/
theorem Cent.ReadBack.content_iff (h : c.ReadBack cfg d) (hwrite : c.toWrite = true)
    (hfew : c.Few) (htidy : ∀ i, ∀ r ∈ c.rrset i, r.Tidy) :
    some d.content = c.nonLocal ↔ c.Settled cfg := by
  have hsets : (∀ i, (d.rrset i).map RrSet.bare =
      ((c.rrset i).filter fun r => !r.flags.isLocal).map RrSet.bare) ↔
      ∀ i, ∀ r ∈ c.rrset i, r.flags.isLocal = false →
        WithinTtl cfg r.flags.negative r.ttl ∧ (c.flags.isLocal = true → r.rrs = []) ∧
          ∀ data ∈ r.rrs, data.length < 256 ^ 2 := by
    refine forall_congr' fun i => ?_
    rw [h.rrset i]
    cases hr : c.rrset i with
    | none => simp
    | some r =>
        cases hlocal : r.flags.isLocal with
        | true => simp [Option.filter, hlocal]
        | false =>
            have hset := adjustTtl_eq_iff cfg (htidy i r hr).nocache
              (r.readRrs c.flags.isLocal)
            have hrrs := readRrs_eq_iff c.flags.isLocal (hfew i r hr hlocal) (htidy i r hr).nodup
            simp only [Option.filter, hlocal, Bool.not_false, if_true, Option.map_some,
              Option.some.injEq, hset, Option.mem_def, forall_eq', true_implies, hrrs]
  have htimes : d.negTimes = c.negTimes ↔ ∀ x ∈ c.negTimes, c.flags.isLocal = false →
      if c.flags.nocache then x.1 = 0 else WithinTtl cfg true x.1 := by
    rw [h.negTimes]
    cases hx : c.negTimes with
    | none => simp
    | some x =>
        have hneg : c.negative = true := by
          by_contra hfalse
          rw [Cent.negTimes_eq_none_iff.mpr (by simpa using hfalse)] at hx
          cases hx
        have hlocal : c.flags.isLocal = false := by simpa [Cent.toWrite, hneg] using hwrite
        obtain ⟨ttl, ts⟩ := x
        cases c.flags.nocache with
        | true => simp [hlocal, eq_comm]
        | false => simp [hlocal, boundTtl_eq_iff]
  have hcontent : some d.content = c.nonLocal ↔ d.negTimes = c.negTimes ∧
      ∀ i, (d.rrset i).map RrSet.bare =
        ((c.rrset i).filter fun r => !r.flags.isLocal).map RrSet.bare := by
    rw [Cent.nonLocal, if_pos hwrite]
    simp only [Cent.content, Option.some.injEq, Content.mk.injEq, h.qname, h.cNs, h.cSoa, true_and,
      funext_iff]
  rw [hcontent, hsets, htimes]
  constructor
  · rintro ⟨hneg, hall⟩
    exact ⟨fun i r hr hlocal => (hall i r hr hlocal).1,
      fun hcent i r hr hlocal => (hall i r hr hlocal).2.1 hcent,
      fun i r hr hlocal => (hall i r hr hlocal).2.2, hneg⟩
  · rintro ⟨httl, hrrs, hdata, hneg⟩
    exact ⟨hneg, fun i r hr hlocal =>
      ⟨httl i r hr hlocal, fun hcent => hrrs hcent i r hr hlocal, hdata i r hr hlocal⟩⟩

/-- The entries of the file, in the order in which the hash table gives them. -/
theorem writable_of_perm {cs : List Cent} (hinv : Linked cfg t)
    (hcs : cs.Perm ((t.table.entries.filter fun e => e.2.toWrite).map Sigma.snd)) :
    (∀ c, c ∈ cs ↔ t.find c.qname.fold = some c ∧ c.toWrite = true) ∧
      (∀ c ∈ cs, Writable t c) ∧ (cs.map fun c => c.qname.fold).Nodup := by
  obtain ⟨xs, hinv, -⟩ := hinv
  have hentry : ∀ e ∈ t.table.entries, t.find e.1 = some e.2 ∧ e.2.qname.fold = e.1 := by
    intro e he
    have hfind : t.find e.1 = some e.2 := List.mem_dlookup t.table.nodupKeys he
    exact ⟨hfind, (hinv.ok _ _ hfind).name⟩
  have hmem : ∀ c, c ∈ cs ↔ t.find c.qname.fold = some c ∧ c.toWrite = true := by
    intro c
    rw [hcs.mem_iff, List.mem_map]
    constructor
    · rintro ⟨e, he, rfl⟩
      obtain ⟨he, hwrite⟩ := List.mem_filter.mp he
      obtain ⟨hfind, hname⟩ := hentry e he
      exact ⟨hname ▸ hfind, hwrite⟩
    · rintro ⟨hfind, hwrite⟩
      exact ⟨⟨c.qname.fold, c⟩, List.mem_filter.mpr ⟨List.of_mem_dlookup hfind, hwrite⟩, rfl⟩
  refine ⟨hmem, fun c hc => ?_, ?_⟩
  · obtain ⟨hfind, hwrite⟩ := (hmem c).mp hc
    exact ⟨hfind, hwrite⟩
  · rw [(hcs.map _).nodup_iff, List.map_map]
    have hkeys : ((t.table.entries.filter fun e => e.2.toWrite).map
        ((fun c => c.qname.fold) ∘ Sigma.snd)) =
        (t.table.entries.filter fun e => e.2.toWrite).map Sigma.fst := by
      refine List.map_congr_left fun e he => ?_
      exact (hentry e (List.mem_filter.mp he).1).2
    rw [hkeys]
    exact (List.Nodup.sublist (List.filter_sublist.map Sigma.fst) t.table.nodupKeys)

theorem Loaded.length_rrl {cs : List Cent} (h : Loaded cfg cs v) (ht : Linked cfg t)
    (hcs : ∀ c, c ∈ cs ↔ t.find c.qname.fold = some c ∧ c.toWrite = true) :
    v.rrl.toList.length = t.rrl.toList.length := by
  obtain ⟨ys, hinv', -⟩ := id h.linked
  obtain ⟨xs, hinv, -⟩ := ht
  suffices hperm : (ys.map Prod.snd).Perm (xs.map Prod.snd) by
    rw [hinv.represents.toList_eq, hinv'.represents.toList_eq]
    simpa using hperm.length_eq
  refine (List.perm_ext_iff_of_nodup hinv'.nodup hinv.nodup).mpr fun le => ?_
  rw [hinv'.mem_listed, hinv.mem_listed]
  constructor
  · rintro ⟨d, hd, hlisted⟩
    obtain ⟨c, hc, hkey⟩ := h.only _ d hd
    obtain ⟨d', hd', hback⟩ := h.find c hc
    rw [hkey] at hd'
    cases hd.symm.trans hd'
    exact ⟨c, hkey ▸ ((hcs c).mp hc).1, hback.listed _ ▸ hlisted⟩
  · rintro ⟨c, hc, hlisted⟩
    have hname := (hinv.ok _ c hc).name
    have hwrite : c.toWrite = true := toWrite_of_listed hlisted
    obtain ⟨d, hd, hback⟩ := h.find c ((hcs c).mpr ⟨hname.symm ▸ hc, hwrite⟩)
    exact ⟨d, hname ▸ hd, (hback.listed _).symm ▸ hlisted⟩

theorem Loaded.reproduces_iff {cs : List Cent} {u : Cache} (h : Loaded cfg cs v)
    (ht : Linked cfg t) (hfew : ∀ k c, t.find k = some c → c.Few) (htidy : t.Tidy)
    (hfind : u.find = v.find)
    (hcs : ∀ c, c ∈ cs ↔ t.find c.qname.fold = some c ∧ c.toWrite = true) :
    u.Reproduces t ↔ ∀ k c, t.find k = some c → c.Settled cfg := by
  have hname : ∀ k c, t.find k = some c → c.qname.fold = k := by
    obtain ⟨xs, hinv, -⟩ := ht
    exact fun k c hc => (hinv.ok k c hc).name
  refine forall_congr' fun k => ?_
  rw [hfind]
  -- an entry that was not written was not read either
  have hnone : (∀ c, t.find k = some c → c.toWrite = false) → v.find k = none := by
    intro hall
    by_contra hsome
    obtain ⟨d, hd⟩ := Option.ne_none_iff_exists'.mp hsome
    obtain ⟨c, hc, hkey⟩ := h.only k d hd
    obtain ⟨hc, hwrite⟩ := (hcs c).mp hc
    rw [hall c (hkey ▸ hc)] at hwrite
    cases hwrite
  cases hc : t.find k with
  | none =>
      rw [hnone fun c hc' => by rw [hc] at hc'; cases hc']
      simp
  | some c =>
      simp only [Option.bind_some, Option.some.injEq, forall_eq']
      cases hwrite : c.toWrite with
      | false =>
          rw [hnone fun c' hc' => by cases hc.symm.trans hc'; exact hwrite]
          simp [Cent.nonLocal, hwrite, settled_of_not_toWrite hwrite]
      | true =>
          obtain ⟨d, hd, hback⟩ := h.find c ((hcs c).mpr ⟨(hname k c hc).symm ▸ hc, hwrite⟩)
          rw [hname k c hc] at hd
          rw [hd, Option.map_some]
          exact hback.content_iff hwrite (hfew k c hc) (htidy k c hc)

theorem sortRrl_isSome_iff (s : Cache) :
    (sortRrl s).isSome ↔ s.rrl.toList.length < 2 ^ 32 := by
  rw [← mergeOrder_isSome_iff fun x => (lentTs s x.2).getD 0, sortRrl]
  cases mergeOrder (fun x => (lentTs s x.2).getD 0) s.rrl.toList <;> rfl

theorem cacheSize_le_of_thins {s : Cache} (hs : Linked cfg s) (ht : Linked cfg t)
    (h : s.ThinsAny t) : t.cacheSize ≤ s.cacheSize := by
  obtain ⟨xs, -, hsized⟩ := id hs
  obtain ⟨ys, -, hsized'⟩ := ht
  rw [hsized.cacheSize, hsized'.cacheSize]
  refine Cache.total_le (fun k d hd => ?_) fun k c hc => Cent.cs_nonneg (hs.surplus_nonneg hc)
  have hk := h k
  rw [hd] at hk
  generalize hc : s.find k = v at hk
  cases hk with
  | kept hthins => exact ⟨_, rfl, hthins.cs⟩

theorem few_of_thins {s : Cache} (h : s.ThinsAny t) (hs : ∀ k c, s.find k = some c → c.Few) :
    ∀ k c, t.find k = some c → c.Few := by
  intro k d hd i r hr
  have hk := h k
  rw [hd] at hk
  generalize hc : s.find k = v at hk
  cases hk with
  | kept hthins =>
      rcases hthins.rrset i with heq | ⟨hnone, -⟩
      · exact hs k _ hc i r (heq ▸ hr)
      · rw [hnone] at hr
        cases hr

end RoundTrip

/-- What is read back is what was written, but for entries that are not settled and for
lists that are too long to be sorted. -/
theorem disk_roundTrip_iff (cfg : CacheConfig) {hist : List Call} {s : Cache}
    (hrun : Run (call cfg) Always Cache.empty hist s)
    (hlimit : s.cacheSize ≤ cfg.permCache * 1024 + mcsz)
    (hfew : ∀ k c, s.find k = some c → c.Few) (now : Int) :
    ∃ t file, writeDiskCache cfg now s = some (t, file) ∧ ∀ file' : List FileEntry,
      file'.Perm file →
      ((∃ u, reload cfg now file' = some u ∧ u.Reproduces t) ↔
        (∀ k c, t.find k = some c → c.Settled cfg) ∧ t.rrl.toList.length < 2 ^ 32) := by
  obtain ⟨⟨xs, hinv, hsized, hsort⟩, htidy⟩ := tidy_run hrun
  obtain ⟨t, ys, ht, -⟩ := purgeCache_spec (p := fun _ => True) (q := fun _ _ => True)
    (fun _ => NoDeficit.fst) hinv hsized hsort (fun _ _ => trivial) (fun _ => trivial) now
    (cfg.permCache * 1024) false
  obtain ⟨hlinked, hthins, -⟩ := purgeCache_linked ⟨xs, hinv, hsized⟩ ht
  have htidy' := tidy_of_thins hthins htidy
  have hlimit' : t.cacheSize ≤ cfg.permCache * 1024 + mcsz :=
    Int.le_trans (cacheSize_le_of_thins ⟨xs, hinv, hsized⟩ hlinked hthins) hlimit
  refine ⟨t, _, by rw [writeDiskCache, ht]; rfl, fun file hperm => ?_⟩
  -- the file in terms of the entries it is written from
  rw [← Function.comp_def writeEntry, ← List.map_map] at hperm
  obtain ⟨cs, rfl, hcs⟩ : ∃ cs : List Cent, file = cs.map writeEntry ∧
      cs.Perm ((t.table.entries.filter fun e => e.2.toWrite).map Sigma.snd) := by
    have hcomp := congrFun (congrFun (List.eq_map_comp_perm writeEntry) file)
      ((t.table.entries.filter fun e => e.2.toWrite).map Sigma.snd)
    exact hcomp.mpr hperm
  obtain ⟨hmem, hwritable, hkeys⟩ := writable_of_perm hlinked hcs
  have hstart : Loaded cfg [] { Cache.empty with insertSort := false } := by
    refine ⟨linked_unsorted good_empty, by simp, fun k d hd => ?_⟩
    simp [Cache.find, Cache.empty] at hd
  obtain ⟨w, hw, hloaded, hwsort⟩ :=
    Loaded.readAll hlinked hlimit' now cs hstart (by simp) hwritable hkeys (by simp)
  have hcs' : ∀ c, c ∈ cs.reverse ++ [] ↔ t.find c.qname.fold = some c ∧ c.toWrite = true := by
    simpa using hmem
  have hreload : reload cfg now (cs.map writeEntry) =
      (sortRrl w).map fun s => { s with insertSort := true } := by
    simp only [reload, readDiskCache, hw, Option.bind_eq_bind, Option.bind_some]
    rw [if_neg (by rw [hwsort]; simp)]
  rw [hreload, ← hloaded.length_rrl hlinked hcs', ← sortRrl_isSome_iff]
  cases hsorted : sortRrl w with
  | none => simp
  | some u =>
      obtain ⟨-, hfind, -⟩ := linked_sortRrl hloaded.linked hsorted
      simpa using hloaded.reproduces_iff hlinked (few_of_thins hthins hfew) htidy' hfind hcs'

section Example

/-- An entry with one address, which may be held for the cache latency only. -/
def addressRecipe (nocache : Bool) : Recipe where
  qname := letterName 97
  negative := false
  ttl := 0
  ts := 0
  flags := ⟨false, false, false, false⟩
  ops := [.rr slotA 300 1000 ⟨false, false, false, nocache, false, false, false⟩ [10, 0, 0, 1]]

/-- The conditions on the cache that is written. -/
def fits (s : Cache) : Bool :=
  decide (s.cacheSize ≤ exampleConfig.permCache * 1024 + mcsz) &&
    s.table.entries.all fun e => (List.finRange _).all fun i =>
      (e.2.rrset i).all fun r => decide (r.rrs.length ≤ 255)

theorem conditions_of_fits {s : Cache} (h : fits s = true) :
    s.cacheSize ≤ exampleConfig.permCache * 1024 + mcsz ∧
      ∀ k c, s.find k = some c → c.Few := by
  rw [fits, Bool.and_eq_true, decide_eq_true_eq] at h
  refine ⟨h.1, fun k c hc i r hr _ => ?_⟩
  have hentry := List.all_eq_true.mp h.2 ⟨k, c⟩ (List.of_mem_dlookup hc)
  have hset := List.all_eq_true.mp hentry i (List.mem_finRange i)
  rw [Option.mem_def.mp hr] at hset
  simpa using hset

theorem disk_roundTrip_iff_address :
    ∃ s, Run (call exampleConfig) Always Cache.empty [.op (.add 1000 (addressRecipe false))] s ∧
      ∃ t file, writeDiskCache exampleConfig 1000 s = some (t, file) ∧
        ∀ file' : List FileEntry, file'.Perm file →
        ((∃ u, reload exampleConfig 1000 file' = some u ∧ u.Reproduces t) ↔
          (∀ k c, t.find k = some c → c.Settled exampleConfig) ∧
            t.rrl.toList.length < 2 ^ 32) := by
  have hfits : (execute (call exampleConfig) Always Cache.empty
      [.op (.add 1000 (addressRecipe false))]).map fits = some true := by
    decide +kernel
  obtain ⟨s, hs, hfits⟩ := Option.map_eq_some_iff.mp hfits
  obtain ⟨hlimit, hfew⟩ := conditions_of_fits hfits
  exact ⟨s, run_of_execute hs,
    disk_roundTrip_iff exampleConfig (run_of_execute hs) hlimit hfew 1000⟩

def ttlOfAddress (s : Cache) : Option Int :=
  ((s.find (letterName 97).fold).bind fun c => c.rrset slotA).map RrSet.ttl

theorem ttl_of_reproduces {t u : Cache} (h : u.Reproduces t) {ttl : Int}
    (hu : ttlOfAddress u = some ttl) : ttlOfAddress t = some ttl := by
  have hcontent := h (letterName 97).fold
  obtain ⟨r, hr, rfl⟩ := Option.map_eq_some_iff.mp hu
  obtain ⟨d, hd, hr⟩ := Option.bind_eq_some_iff.mp hr
  rw [hd, Option.map_some, eq_comm, Option.bind_eq_some_iff] at hcontent
  obtain ⟨c, hc, hcontent⟩ := hcontent
  rw [Cent.nonLocal] at hcontent
  split_ifs at hcontent
  have hset := congrFun (congrArg Content.rrset (Option.some.inj hcontent)) slotA
  simp only [Cent.content, hr, Option.map_some, Option.map_eq_some_iff,
    Option.filter_eq_some_iff] at hset
  obtain ⟨r', ⟨hr', -⟩, hbare⟩ := hset
  rw [ttlOfAddress, hc, Option.bind_some, hr', Option.map_some]
  exact congrArg (fun r => some r.ttl) hbare

/-- A record set that is not to be used again gets the smallest time to live when it is
read back. -/
theorem disk_not_reproduced_nocache :
    ¬ ∀ hist s, Run (call exampleConfig) Always Cache.empty hist s →
      s.cacheSize ≤ exampleConfig.permCache * 1024 + mcsz →
      (∀ k c, s.find k = some c → c.Few) → ∀ now, ∃ t file u,
        writeDiskCache exampleConfig now s = some (t, file) ∧
        reload exampleConfig now file = some u ∧ u.Reproduces t := by
  intro h
  have hvalues : (execute (call exampleConfig) Always Cache.empty
      [.op (.add 1000 (addressRecipe true))]).map (fun s => (fits s,
        (writeDiskCache exampleConfig 1000 s).bind fun x =>
          (reload exampleConfig 1000 x.2).map fun u => (ttlOfAddress x.1, ttlOfAddress u))) =
      some (true, some (some 0, some 120)) := by
    decide +kernel
  obtain ⟨s, hs, hvalues⟩ := Option.map_eq_some_iff.mp hvalues
  obtain ⟨hfits, hread⟩ := Prod.mk.inj hvalues
  obtain ⟨hlimit, hfew⟩ := conditions_of_fits hfits
  obtain ⟨t, file, u, hwrite, hreload, hsame⟩ := h _ s (run_of_execute hs) hlimit hfew 1000
  simp only [hwrite, Option.bind_some, hreload, Option.map_some, Option.some.injEq,
    Prod.mk.injEq] at hread
  have httl := ttl_of_reproduces hsame hread.2
  rw [hread.1] at httl
  cases httl

end Example

end TorAndroid.Dns
