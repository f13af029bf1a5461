import TorAndroid.Dns.DiskFormat
import TorAndroid.Dns.DiskRoundTrip

namespace TorAndroid.Dns

open TorAndroid.Lib.LinkedCells TorAndroid.Lib.DoublyLinked

section Held

variable {cfg : CacheConfig} {sz : Sizes} {s t u : Cache} {c d new : Cent} {L M : List Lent}

/-- The entries hold something at these places only. -/
def Cache.HeldIn (L : List Lent) (s : Cache) : Prop :=
  ∀ k c, s.find k = some c → ∀ o, c.has o = true → (⟨k, o⟩ : Lent) ∈ L

theorem Cache.HeldIn.length_le (h : s.HeldIn L) (hs : Linked cfg s) :
    s.rrl.toList.length ≤ L.length := by
  obtain ⟨xs, hinv, -⟩ := hs
  rw [hinv.represents.toList_eq, ← List.length_map (f := Prod.snd)]
  refine (List.subperm_of_subset hinv.nodup fun le hle => ?_).length_le
  obtain ⟨c, hc, hlisted⟩ := (hinv.mem_listed le).mp hle
  rw [Cent.listed_eq, Bool.and_eq_true] at hlisted
  exact h le.cent c hc le.idx hlisted.1

theorem Cent.Thins.has_of_has {p : RrSet → Prop} (h : c.Thins p d) {o : Option Slot}
    (hd : d.has o = true) : c.has o = true := by
  cases o with
  | none => exact h.negative.symm.trans hd
  | some i =>
      change (d.rrset i).isSome = true at hd
      obtain heq | ⟨hnone, -⟩ := h.rrset i
      · exact (congrArg Option.isSome heq).symm.trans hd
      · rw [hnone] at hd
        cases hd

theorem Cache.HeldIn.thins (h : s.HeldIn L) (hthins : s.ThinsAny t) : t.HeldIn L := by
  intro k d hd o ho
  have hk := hthins k
  rw [hd] at hk
  generalize hc : s.find k = v at hk
  cases hk with
  | kept hthin => exact h k _ hc o (hthin.has_of_has ho)

theorem has_copyCent (c : Cent) (o : Option Slot) : (copyCent c).has o = c.has o := by
  cases o with
  | none => exact (Cent.copyCent_frame c).2.2.2.2.1
  | some i =>
      change ((copyCent c).rrset i).isSome = (c.rrset i).isSome
      rw [Cent.rrset_copyCent, Option.isSome_map]

theorem has_adjustCent (cfg : CacheConfig) (c : Cent) (o : Option Slot) :
    (adjustCent cfg c).has o = c.has o := by
  obtain ⟨-, -, hneg, -, -, -, hrrset⟩ := adjustCent_frame cfg c
  cases o with
  | none => exact hneg
  | some i =>
      change ((adjustCent cfg c).rrset i).isSome = (c.rrset i).isSome
      rw [hrrset, Option.isSome_map]

theorem Cent.Merges.has_of_has (h : Cent.Merges cfg new c d) {o : Option Slot}
    (hd : d.has o = true) : c.has o = true ∨ new.has o = true := by
  cases o with
  | none =>
      have harm := h.arm hd
      refine Or.inl ?_
      change c.negative = true
      rw [Cent.negative, ← harm]
      exact hd
  | some i =>
      change (d.rrset i).isSome = true at hd
      obtain hold | hnone | ⟨r, hr, -⟩ := h.rrset i
      · refine Or.inl ?_
        change (c.rrset i).isSome = true
        rw [← Option.isSome_map (f := RrSet.bare), ← hold, Option.isSome_map]
        exact hd
      · rw [hnone] at hd
        cases hd
      · exact Or.inr (by change (new.rrset i).isSome = true; rw [hr]; rfl)

/-- What `add_cache` adds is held where the new entry held it. -/
theorem Cache.HeldIn.adds (h : s.HeldIn L) (hnew : ∀ o, new.has o = true → ⟨new.qname.fold, o⟩ ∈ M)
    (hadds : s.AddsAny cfg new t) : t.HeldIn (L ++ M) := by
  have hpick : ∀ {v : Cache} {d : Cent}, v.HeldIn L →
      (∀ o, d.has o = true → (⟨new.qname.fold, o⟩ : Lent) ∈ L ++ M) →
      t.find = Function.update v.find new.qname.fold (some d) → t.HeldIn (L ++ M) := by
    intro v d hv hd hfind
    refine Cache.forall_find_update hfind (fun k _ c hc o ho => ?_) hd
    exact List.mem_append_left M (hv k c hc o ho)
  cases hadds with
  | same => exact fun k c hc o ho => List.mem_append_left M (h k c hc o ho)
  | stored hold hfind hcopy =>
      refine hpick h (fun o ho => List.mem_append_right L (hnew o ?_)) hfind
      rw [← has_copyCent, hcopy, has_copyCent, has_adjustCent, has_copyCent] at ho
      exact ho
  | merged hthins hc hpos hfind hmerge =>
      refine hpick (h.thins hthins) (fun o ho => ?_) hfind
      obtain hold | hgiven := hmerge.has_of_has ho
      · exact List.mem_append_left M (h.thins hthins _ _ hc o hold)
      · exact List.mem_append_right L (hnew o hgiven)

end Held

section Total

variable {cfg : CacheConfig} {s t u : Cache} {new : Cent} {now limit : Int} {lazy : Bool}

theorem length_toList_le_of_shrinks {v w : Cache} (hv : Linked cfg v) (h : Shrinks v.rrl w.rrl) :
    w.rrl.toList.length ≤ v.rrl.toList.length := by
  obtain ⟨xs, hinv, -⟩ := hv
  obtain ⟨ys, hys, hsub⟩ := h xs hinv.represents
  rw [hinv.represents.toList_eq, hys.toList_eq]
  exact hsub.length_le

/-- A purge ends if `sort_rrl` can sort the list. -/
theorem purgeCache_total (h : Linked cfg s) (hlen : s.rrl.toList.length < 2 ^ 32)
    (now limit : Int) (lazy : Bool) : ∃ t, purgeCache cfg now s limit lazy = some t := by
  obtain ⟨xs, hinv, hsized⟩ := id h
  obtain ⟨u, ys, hu, hpurged⟩ := walkAll_spec (fun s => !lazy || decide (limit < s.cacheSize))
    (purgeOld cfg now) (J := Purge cfg s) (fun _ _ hJ => hJ.inv.represents)
    (fun _ _ _ _ _ hJ => hJ.purgeOld (fun _ => NoDeficit.fst) (fun _ _ => trivial)
      fun _ _ _ => trivial) (Purged.of_inv hinv hsized)
  have hwalk : ∀ v, Linked cfg v →
      ∃ t, walkAll (fun s => decide (limit < s.cacheSize)) (purgeAny cfg) v = some t := by
    rintro v ⟨zs, hinv', hsized'⟩
    obtain ⟨t, -, ht, -⟩ := walkAll_spec (fun s => decide (limit < s.cacheSize)) (purgeAny cfg)
      (J := Purge cfg v) (fun _ _ hJ => hJ.inv.represents)
      (fun _ _ _ _ _ hJ => hJ.purgeAny (fun _ => NoDeficit.fst) (fun _ _ => trivial)
        fun _ => trivial) (Purged.of_inv hinv' hsized')
    exact ⟨t, ht⟩
  have hlinked : Linked cfg u := ⟨ys, hpurged.inv, hpurged.sized⟩
  have hshrinks : Shrinks s.rrl u.rrl := shrinks_walkRrl (fun _ _ _ => shrinks_purgeOld) hu
  have hshort := Nat.lt_of_le_of_lt (length_toList_le_of_shrinks h hshrinks) hlen
  obtain ⟨v, hv⟩ := Option.isSome_iff_exists.mp ((sortRrl_isSome_iff u).mpr hshort)
  rw [purgeCache, hu]
  simp only [Option.bind_eq_bind, Option.bind_some, hv, Option.map_some]
  split_ifs
  · exact ⟨u, rfl⟩
  · exact hwalk u hlinked
  · exact hwalk _ (linked_sortRrl hlinked hv).1

/-- `add_cache` ends if `sort_rrl` could sort the list with the new entry. -/
theorem addCache_total (h : Linked cfg s) (hsurplus : 0 ≤ new.surplus cfg.sizes)
    (hroom : ∀ u, Linked cfg u → s.AddsAny cfg new u → u.rrl.toList.length < 2 ^ 32) :
    ∃ t, addCache cfg now s new = some t := by
  have hpurge : ∀ {u : Cache}, Linked cfg u → s.AddsAny cfg new u →
      ∃ t, purgeCache cfg now u (cfg.permCache * 1024 + mcsz) true = some t :=
    fun hu hadds => purgeCache_total hu (hroom _ hu hadds) now _ true
  obtain ⟨xs, hinv, hsized⟩ := id h
  rw [addCache]
  cases hfind : s.find new.qname.fold with
  | none =>
      obtain ⟨u, ys, d, hu, huinv, husized, -, hufind, hcopy, -⟩ :=
        addNew_spec hinv hsized hfind hsurplus
      simp only [hu, Option.bind_eq_bind, Option.bind_some]
      split_ifs
      · exact hpurge h .same
      · refine hpurge ⟨ys, huinv, husized⟩ (.stored (fun c hc => ?_) hufind hcopy)
        cases hfind.symm.trans hc
  | some c =>
      cases hneg : new.negative with
      | true =>
          obtain ⟨u, hu, huinv, husized, hufind, -⟩ := hinv.delCacheEnt hsized hfind
          obtain ⟨v, ys, d, hv, hvinv, hvsized, -, hvfind, hcopy, -⟩ :=
            addNew_spec huinv husized (by rw [hufind, Function.update_self]) hsurplus
          simp only [if_true, hu, Option.bind_eq_bind, Option.bind_some, hv]
          split_ifs with hany
          · exact ⟨s, rfl⟩
          · refine hpurge ⟨ys, hvinv, hvsized⟩ (.stored (fun c' hc' => ⟨hneg, ?_⟩) ?_ hcopy)
            · cases hfind.symm.trans hc'
              exact foreign_of_not_any hany
            · rw [hvfind, hufind, Function.update_idem]
      | false =>
          obtain ⟨u, ys, s₁, c₁, d, hu, huinv, husized, -, hthins, hc₁, hufind, hmerge, -⟩ :=
            addExisting_spec (p := fun _ => True) (q := fun _ _ => True) now hinv hsized hfind
              (fun _ _ => trivial) fun _ _ _ => trivial
          simp only [Bool.false_eq_true, if_false, hu, Option.bind_eq_bind, Option.bind_some]
          exact hpurge ⟨ys, huinv, husized⟩ (.merged hthins hc₁ hneg hufind hmerge)

end Total

section Build

variable {sz : Sizes} {c d : Cent} {l m : Rrl} {i : Slot} {op : BuildOp}

/-- The record set that an operation adds to. -/
def BuildOp.index : BuildOp → Option Slot
  | .rrset i .. => some i
  | .rr i .. => some i
  | .negate .. => none

theorem has_of_update {v : Option RrSet} (hrrset : d.rrset = Function.update c.rrset i v)
    (hneg : d.negative = true → c.negative = true) {o : Option Slot} (h : d.has o = true) :
    c.has o = true ∨ o = some i := by
  cases o with
  | none => exact Or.inl (hneg h)
  | some j =>
      by_cases hj : j = i
      · exact Or.inr (congrArg some hj)
      · change (d.rrset j).isSome = true at h
        rw [hrrset, Function.update_of_ne hj] at h
        exact Or.inl h

theorem modifyRrset_frame (c : Cent) (i : Slot) (f : RrSet → RrSet) :
    (c.modifyRrset i f).qname = c.qname ∧ (c.modifyRrset i f).negative = c.negative := by
  obtain ⟨qname, cs, numRrs, dflags, arm, cNs, cSoa⟩ := c
  cases arm <;> exact ⟨rfl, rfl⟩

theorem qname_withRrset (c : Cent) (i : Slot) (ttl ts : Int) (flags : CFlags) :
    (c.withRrset sz i ttl ts flags).qname = c.qname := by
  obtain ⟨qname, cs, numRrs, dflags, arm, cNs, cSoa⟩ := c
  cases arm <;> rfl

theorem qname_appendRr (c : Cent) (i : Slot) (data : List UInt8) :
    (appendRr sz c i data).qname = c.qname :=
  (modifyRrset_frame c i _).1

theorem has_of_withRrset {ttl ts : Int} {flags : CFlags} {o : Option Slot}
    (h : (c.withRrset sz i ttl ts flags).has o = true) : c.has o = true ∨ o = some i := by
  refine has_of_update Cent.rrset_withRrset (fun hneg => ?_) h
  have hpos := @Cent.negative_of_rrset (c.withRrset sz i ttl ts flags) i (by
    rw [Cent.rrset_withRrset, Function.update_self]
    rfl)
  rw [hpos] at hneg
  cases hneg

theorem has_of_appendRr {data : List UInt8} {o : Option Slot}
    (h : (appendRr sz c i data).has o = true) : c.has o = true ∨ o = some i :=
  has_of_update Cent.rrset_appendRr (fun hneg => (modifyRrset_frame c i _).2.symm.trans hneg) h

theorem BuildOp.run_holds (hop : op.index = some i) (hrun : op.run sz (l, c) = some (m, d)) :
    d.qname = c.qname ∧ ∀ o, d.has o = true → c.has o = true ∨ o = some i := by
  cases op with
  | rrset j ttl ts flags =>
      cases hop
      rw [BuildOp.run, addCentRrsetByIndex_eq, Option.map_eq_some_iff] at hrun
      obtain ⟨l', -, heq⟩ := hrun
      cases heq
      exact ⟨qname_withRrset c i ttl ts flags, fun o => has_of_withRrset⟩
  | rr j ttl ts flags data =>
      cases hop
      simp only [BuildOp.run, addCentRr] at hrun
      split at hrun
      · cases hrun
        exact ⟨rfl, fun _ => Or.inl⟩
      split at hrun
      · rename_i r hr
        have hlower : (if ttl < r.ttl then c.modifyRrset i fun r => { r with ttl := ttl }
            else c).qname = c.qname ∧
              ∀ o, (if ttl < r.ttl then c.modifyRrset i fun r => { r with ttl := ttl }
                else c).has o = true → c.has o = true ∨ o = some i := by
          split_ifs
          · exact ⟨(modifyRrset_frame c i _).1, fun o => has_of_update Cent.rrset_modifyRrset
              fun hneg => (modifyRrset_frame c i _).2.symm.trans hneg⟩
          · exact ⟨rfl, fun _ => Or.inl⟩
        split at hrun
        · cases hrun
          exact hlower
        · cases hrun
          exact ⟨(qname_appendRr _ i data).trans hlower.1,
            fun o ho => (has_of_appendRr ho).elim (hlower.2 o) Or.inr⟩
      · rw [addCentRrsetByIndex_eq] at hrun
        simp only [Option.bind_eq_bind, Option.bind_eq_some_iff, Option.map_eq_some_iff] at hrun
        obtain ⟨-, ⟨l', -, rfl⟩, heq⟩ := hrun
        cases heq
        exact ⟨(qname_appendRr _ i data).trans (qname_withRrset c i ttl ts flags),
          fun o ho => (has_of_appendRr ho).elim has_of_withRrset Or.inr⟩
  | negate ttl ts => cases hop

/-- The operations add to some record sets only. -/
theorem runs_hold {ops : List BuildOp} {is : List Slot}
    (hops : ∀ op ∈ ops, ∃ i ∈ is, op.index = some i)
    (hrun : ops.foldlM (BuildOp.run sz) (l, c) = some (m, d)) :
    d.qname = c.qname ∧ ∀ o, d.has o = true → c.has o = true ∨ ∃ i ∈ is, o = some i := by
  induction ops generalizing l c with
  | nil =>
      cases hrun
      exact ⟨rfl, fun _ => Or.inl⟩
  | cons op ops ih =>
      rw [List.forall_mem_cons] at hops
      rw [List.foldlM_cons, Option.bind_eq_bind, Option.bind_eq_some_iff] at hrun
      obtain ⟨⟨l', c'⟩, hstep, hrest⟩ := hrun
      obtain ⟨i, hi, hop⟩ := hops.1
      obtain ⟨hname, hhas⟩ := BuildOp.run_holds hop hstep
      obtain ⟨hname', hhas'⟩ := ih hops.2 hrest
      refine ⟨hname'.trans hname, fun o ho => ?_⟩
      obtain hold | hnew := hhas' o ho
      · exact (hhas o hold).imp_right fun heq => ⟨i, hi, heq⟩
      · exact Or.inr hnew

/-- The places that an entry of the file can hold something at. -/
def DiskEntry.places (e : DiskEntry) : List Lent :=
  ((if e.negative then [none] else []) ++ e.sets.map fun x : DiskSet => some x.index).map
    fun o => ⟨e.qname.fold, o⟩

theorem DiskEntry.holds_build {e : DiskEntry} (h : e.build sz l = some (m, c)) :
    ∀ o, c.has o = true → ⟨c.qname.fold, o⟩ ∈ e.places := by
  rw [DiskEntry.build, Option.bind_eq_bind, Option.bind_eq_some_iff] at h
  obtain ⟨⟨l', b⟩, hbuild, heq⟩ := h
  cases heq
  obtain ⟨hname, hhas⟩ := @runs_hold sz _ b l m _ (e.sets.map DiskSet.index) (fun op hop => by
    obtain ⟨x, hx, hop⟩ := List.mem_flatMap.mp hop
    refine ⟨x.index, List.mem_map_of_mem hx, ?_⟩
    obtain rfl | hop := List.mem_cons.mp hop
    · rfl
    · obtain ⟨data, -, rfl⟩ := List.mem_map.mp hop
      rfl) hbuild
  intro o ho
  have hkey : b.qname.fold = e.qname.fold := congrArg Name.fold hname
  refine List.mem_map.mpr ⟨o, List.mem_append.mpr ?_, congrArg (Lent.mk · o) hkey.symm⟩
  have hb : b.has o = true := by
    cases o <;> exact ho
  obtain hinit | ⟨i, hi, rfl⟩ := hhas o hb
  · refine Or.inl ?_
    cases o with
    | none =>
        have hneg : e.negative = true := by
          change (initCent sz e.qname e.negative e.ttl e.ts e.flags).negative = true at hinit
          cases hneg : e.negative with
          | true => rfl
          | false =>
              rw [hneg] at hinit
              cases hinit
        rw [hneg]
        exact List.mem_singleton_self none
    | some i =>
        change ((initCent sz e.qname e.negative e.ttl e.ts e.flags).rrset i).isSome = true at hinit
        rw [rrset_initCent] at hinit
        cases hinit
  · obtain ⟨x, hx, rfl⟩ := List.mem_map.mp hi
    exact Or.inr (List.mem_map.mpr ⟨x, hx, rfl⟩)

end Build

section Load

variable {cfg : CacheConfig} {s t : Cache} {L : List Lent}

/-- Reading ends if `sort_rrl` could sort a list of all that the entries hold. -/
theorem readEntries_total {es : List (Int × DiskEntry)} (h : Linked cfg s) (hheld : s.HeldIn L)
    (hroom : L.length + (es.flatMap fun x => x.2.places).length < 2 ^ 32) :
    ∃ t, es.foldlM (readEntry cfg) s = some t ∧
      t.HeldIn (L ++ es.flatMap fun x => x.2.places) := by
  induction es generalizing s L with
  | nil => exact ⟨s, rfl, by rwa [List.flatMap_nil, List.append_nil]⟩
  | cons x es ih =>
      rw [List.flatMap_cons, List.length_append] at hroom
      obtain ⟨c, hc, hsurplus⟩ := x.2.build_spec cfg.sizes
      have hnew := DiskEntry.holds_build (hc s.rrl)
      obtain ⟨u, hu⟩ := @addCache_total cfg s c x.1 h hsurplus fun v hv hadds =>
        Nat.lt_of_le_of_lt ((hheld.adds hnew hadds).length_le hv) (by
          rw [List.length_append]
          omega)
      obtain ⟨hlinked, ⟨v, hadds, hthins⟩, -⟩ := addCache_linked h hsurplus hu
      obtain ⟨t, ht, hall⟩ := ih hlinked ((hheld.adds hnew hadds).thins hthins) (by
        rw [List.length_append]
        omega)
      refine ⟨t, ?_, by rwa [List.flatMap_cons, ← List.append_assoc]⟩
      rw [List.foldlM_cons, readEntry, hc]
      simp only [Option.bind_eq_bind, Option.bind_some, hu]
      exact ht

end Load

end TorAndroid.Dns
