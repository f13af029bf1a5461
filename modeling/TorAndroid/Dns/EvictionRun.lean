import TorAndroid.Dns.CacheRun
import TorAndroid.Lib.GuardedRun

namespace TorAndroid.Dns

open TorAndroid.Lib.LinkedCells TorAndroid.Lib.DoublyLinked
open TorAndroid.Lib.GuardedRun

/-- `rr_fset_t` with the records behind it, by the index of its type. -/
structure DiskSet where
  index : Slot
  ttl : Int
  ts : Int
  flags : CFlags
  rrs : List (List UInt8)

/-- `dns_file_t` with what follows it.  The times are zero unless the entry is
negative. -/
structure DiskEntry where
  qname : Name
  negative : Bool
  flags : DFlags
  ttl : Int
  ts : Int
  cNs : UInt8
  cSoa : UInt8
  sets : List DiskSet

/-- How `read_disk_cache` adds a record set: its header in any case, then the records. -/
def DiskSet.ops (x : DiskSet) : List BuildOp :=
  .rrset x.index x.ttl x.ts x.flags :: x.rrs.map (.rr x.index x.ttl x.ts x.flags)

def DiskEntry.recipe (e : DiskEntry) : Recipe :=
  ⟨e.qname, e.negative, e.ttl, e.ts, e.flags, e.sets.flatMap DiskSet.ops⟩

/-- The entry that is read.  What is added to it does not depend on the references. -/
def DiskEntry.build (sz : Sizes) (l : Rrl) (e : DiskEntry) : Option (Rrl × Cent) := do
  let (l, c) ← e.recipe.build sz l
  some (l, { c with cNs := e.cNs, cSoa := e.cSoa })

/-- What there is to read: nothing if the file cannot be opened, else the entries up to
its end or to the first error, with the time at which each is added. -/
abbrev DiskFile := Option (List (Int × DiskEntry))

variable (cfg : CacheConfig)

def readEntry (s : Cache) (x : Int × DiskEntry) : Option Cache := do
  let (l, c) ← x.2.build cfg.sizes s.rrl
  addCache cfg x.1 { s with rrl := l } c

def readDiskCache (s : Cache) : DiskFile → Option Cache
  | none => some s
  | some entries => do
      let s ← entries.foldlM (readEntry cfg) { s with insertSort := false }
      -- a purge may have sorted the list already
      if s.insertSort then some s
      else (sortRrl s).map fun s => { s with insertSort := true }

/-- The operations, and `read_disk_cache`, which runs before any other thread is started and so is
one operation. -/
inductive Call where
  | op (op : Op)
  | readDisk (file : DiskFile)

def call (s : Cache) : Call → Option Cache
  | .op op => step cfg s op
  | .readDisk file => readDiskCache cfg s file

/-- The nodes of the entry can count as the oldest there are: those of other entries
before them are not newer than the time `invalidate_record` stores, and those behind
them are not older. -/
def Cache.MayInvalidate (s : Cache) (name : Name) : Prop :=
  s.insertSort = true → (s.find name.fold).isSome →
    s.rrl.toList.Pairwise fun x y =>
      (x.2.cent ≠ name.fold → y.2.cent = name.fold → s.nodeTs x ≤ 0) ∧
      (x.2.cent = name.fold → y.2.cent ≠ name.fold → 0 ≤ s.nodeTs y)

/-- `invalidate_record` is only called where it does not spoil the order. -/
def Orderly (s : Cache) : Call → Prop
  | .op (.invalidate name) => s.MayInvalidate name
  | _ => True

section Order

variable {cfg : CacheConfig} {s t : Cache}

/-- An entry counts no less than it holds. -/
def NoDeficit (x : Int × Int) : Prop := 0 ≤ x

theorem NoDeficit.fst {x : Int × Int} (h : NoDeficit x) : 0 ≤ x.1 :=
  (Prod.le_def.mp h).1

/-- The invariant, also while the list is not kept sorted. -/
def Linked (cfg : CacheConfig) (s : Cache) : Prop :=
  ∃ xs, Inv cfg.sizes NoDeficit s xs ∅ ∧ Sized s

theorem linked_sortRrl (h : Linked cfg s) (ht : sortRrl s = some t) :
    Linked cfg { t with insertSort := true } ∧ { t with insertSort := true }.find = s.find ∧
      { t with insertSort := true }.OldestFirst := by
  obtain ⟨xs, hinv, hsized⟩ := h
  simp only [sortRrl, Option.bind_eq_bind, Option.bind_eq_some_iff] at ht
  obtain ⟨order, horder, heq⟩ := ht
  cases heq
  rw [hinv.represents.toList_eq] at horder
  obtain ⟨hperm, hsorted⟩ := mergeOrder_spec _ horder
  have hrep := hinv.represents.relink hperm
  refine ⟨⟨order, ⟨hrep, fun a le => ?_, hinv.ok⟩, ⟨hsized.cacheSize, hsized.entNum⟩⟩, rfl, ?_⟩
  · rw [hperm.mem_iff]
    exact hinv.mem_iff a le
  · intro _
    rw [hrep.toList_eq]
    exact hsorted

/-- What a purge may leave of `s₀`, whatever it takes away. -/
abbrev Purge (cfg : CacheConfig) (s₀ t : Cache) (ys : List (Addr × Lent)) : Prop :=
  Purged cfg.sizes NoDeficit (fun _ => True) (fun _ _ => True) s₀ t ys

/-- Anything may be taken away. -/
abbrev Cache.ThinsAny (s t : Cache) : Prop :=
  s.Thins (fun _ => True) (fun _ _ => True) t

abbrev Cache.AddsAny (cfg : CacheConfig) (new : Cent) (s t : Cache) : Prop :=
  Cache.Adds cfg (fun _ => True) (fun _ _ => True) new s t

theorem linked_walk {cond : Cache → Bool} {body : Cache → Lent → Option Cache}
    (hbody : ∀ s₀ s pre a le post, Purge cfg s₀ s (pre ++ (a, le) :: post) →
      ∃ t pre', body s le = some t ∧ Purge cfg s₀ t (pre' ++ post))
    (hshrinks : ∀ s le t, body s le = some t → Shrinks s.rrl t.rrl)
    (h : Linked cfg s) (ht : walkAll cond body s = some t) :
    Linked cfg t ∧ s.ThinsAny t ∧ s.Keeps t := by
  obtain ⟨xs, hinv, hsized⟩ := h
  obtain ⟨u, ys, hu, hpurged⟩ := walkAll_spec cond body (J := Purge cfg s)
    (fun _ _ hJ => hJ.inv.represents) (fun t pre a le post hJ => hbody s t pre a le post hJ)
    (Purged.of_inv hinv hsized)
  cases hu.symm.trans ht
  exact ⟨⟨ys, hpurged.inv, hpurged.sized⟩, hpurged.thins,
    hpurged.keeps hinv (shrinks_walkRrl hshrinks ht)⟩

/-- `purge_cache` keeps the order, or sorts the list before it goes by the order. -/
theorem purgeCache_linked (h : Linked cfg s) {now limit : Int} {lazy : Bool}
    (ht : purgeCache cfg now s limit lazy = some t) :
    Linked cfg t ∧ s.ThinsAny t ∧ (s.OldestFirst → t.OldestFirst) := by
  simp only [purgeCache, Option.bind_eq_bind, Option.bind_eq_some_iff] at ht
  obtain ⟨u, hu, hrest⟩ := ht
  obtain ⟨hlinked, hthins, hkeeps⟩ := linked_walk
    (fun _ _ _ _ _ _ hJ => hJ.purgeOld (fun _ => NoDeficit.fst) (fun _ _ => trivial)
      fun _ _ _ => trivial) (fun _ _ _ => shrinks_purgeOld) h hu
  -- the second walk, from a list in order
  have hsecond : ∀ v : Cache, Linked cfg v → u.ThinsAny v → (s.OldestFirst → v.OldestFirst) →
      walkAll (fun s => decide (limit < s.cacheSize)) (purgeAny cfg) v = some t →
      Linked cfg t ∧ s.ThinsAny t ∧ (s.OldestFirst → t.OldestFirst) := by
    intro v hv hsame hvold hwalk
    obtain ⟨hlinked', hthins', hkeeps'⟩ := linked_walk
      (fun _ _ _ _ _ _ hJ => hJ.purgeAny (fun _ => NoDeficit.fst) (fun _ _ => trivial)
        fun _ => trivial) (fun _ _ _ => shrinks_purgeAny) hv hwalk
    exact ⟨hlinked', (hthins.trans hsame).trans hthins',
      fun hold => hkeeps'.oldestFirst (hvold hold)⟩
  split at hrest
  · cases hrest
    exact ⟨hlinked, hthins, fun hold => hkeeps.oldestFirst hold⟩
  split at hrest
  · exact hsecond u hlinked (.refl u) (fun hold => hkeeps.oldestFirst hold) hrest
  · simp only [Option.bind_eq_some_iff, Option.map_eq_some_iff] at hrest
    obtain ⟨-, ⟨v, hv, rfl⟩, hwalk⟩ := hrest
    obtain ⟨hlinked', hfind, holdest'⟩ := linked_sortRrl hlinked hv
    refine hsecond _ hlinked' (fun k => ?_) (fun _ => holdest') hwalk
    rw [hfind]
    exact ThinsTo.refl _

theorem addCache_linked {new : Cent} {now : Int} (h : Linked cfg s)
    (hsurplus : 0 ≤ new.surplus cfg.sizes) (ht : addCache cfg now s new = some t) :
    Linked cfg t ∧ (∃ s₁, s.AddsAny cfg new s₁ ∧ s₁.ThinsAny t) ∧
      (s.OldestFirst → t.OldestFirst) := by
  obtain ⟨xs, hinv, hsized⟩ := h
  -- the purge at the end
  have hpurge : ∀ {u : Cache}, Linked cfg u → s.AddsAny cfg new u →
      (s.OldestFirst → u.OldestFirst) →
      purgeCache cfg now u (cfg.permCache * 1024 + mcsz) true = some t →
      Linked cfg t ∧ (∃ s₁, s.AddsAny cfg new s₁ ∧ s₁.ThinsAny t) ∧
        (s.OldestFirst → t.OldestFirst) := by
    intro u hu hadds horder hrest
    obtain ⟨hlinked, hthins, horder'⟩ := purgeCache_linked hu hrest
    exact ⟨hlinked, ⟨u, hadds, hthins⟩, fun hold => horder' (horder hold)⟩
  rw [addCache] at ht
  cases hfind : s.find new.qname.fold with
  | none =>
      simp only [hfind] at ht
      split at ht
      · exact hpurge ⟨xs, hinv, hsized⟩ .same id ht
      · rw [Option.bind_eq_bind, Option.bind_eq_some_iff] at ht
        obtain ⟨u, hu, hrest⟩ := ht
        obtain ⟨u', ys, d, hu', huinv, husized, -, hufind, hcopy, horder⟩ :=
          addNew_spec hinv hsized hfind hsurplus
        cases hu'.symm.trans hu
        refine hpurge ⟨ys, huinv, husized⟩ (.stored (fun c hc => ?_) hufind hcopy) horder hrest
        cases hfind.symm.trans hc
  | some c =>
      simp only [hfind] at ht
      split at ht
      · rename_i hneg
        split at ht
        · cases ht
          exact ⟨⟨xs, hinv, hsized⟩, ⟨s, .same, .refl s⟩, id⟩
        · rename_i hany
          simp only [Option.bind_eq_bind, Option.bind_eq_some_iff] at ht
          obtain ⟨u, hu, v, hv, hrest⟩ := ht
          obtain ⟨u', hu', huinv, husized, hufind, husort⟩ := hinv.delCacheEnt hsized hfind
          cases hu'.symm.trans hu
          have hkeeps := hinv.keeps_of_erase huinv husort (shrinks_delCacheEnt hu) hufind
          obtain ⟨v', ys, d, hv', hvinv, hvsized, -, hvfind, hcopy, horder⟩ :=
            addNew_spec huinv husized (by rw [hufind, Function.update_self]) hsurplus
          cases hv'.symm.trans hv
          refine hpurge ⟨ys, hvinv, hvsized⟩ (.stored (fun c' hc' => ⟨hneg, ?_⟩) ?_ hcopy)
            (fun hold => horder (hkeeps.oldestFirst hold)) hrest
          · cases hfind.symm.trans hc'
            exact foreign_of_not_any hany
          · rw [hvfind, hufind, Function.update_idem]
      · rename_i hneg
        rw [Option.bind_eq_bind, Option.bind_eq_some_iff] at ht
        obtain ⟨u, hu, hrest⟩ := ht
        obtain ⟨u', ys, s₁, c₁, d, hu', huinv, husized, -, hthins, hc₁, hufind, hmerge, horder⟩ :=
          addExisting_spec (p := fun _ => True) (q := fun _ _ => True) now hinv hsized hfind
            (fun _ _ => trivial) fun _ _ _ => trivial
        cases hu'.symm.trans hu
        exact hpurge ⟨ys, huinv, husized⟩
          (.merged hthins hc₁ (by simpa using hneg) hufind hmerge) horder hrest

/-- An entry is built without a change of the list, and counts what it holds. -/
theorem DiskEntry.build_spec (sz : Sizes) (e : DiskEntry) :
    ∃ c, (∀ l, e.build sz l = some (l, c)) ∧ 0 ≤ c.surplus sz := by
  obtain ⟨c, hc, -, hweak, -⟩ := e.recipe.build_spec sz
  refine ⟨{ c with cNs := e.cNs, cSoa := e.cSoa }, fun l => ?_, ?_⟩
  · rw [DiskEntry.build, hc]
    rfl
  · have hsame : { c with cNs := e.cNs, cSoa := e.cSoa }.surplus sz = c.surplus sz :=
      Cent.surplus_congr rfl rfl rfl rfl
    rw [hsame]
    exact hweak

theorem readEntry_linked {x : Int × DiskEntry} (h : Linked cfg s)
    (ht : readEntry cfg s x = some t) : Linked cfg t ∧ (s.OldestFirst → t.OldestFirst) := by
  obtain ⟨c, hc, hsurplus⟩ := x.2.build_spec cfg.sizes
  rw [readEntry, hc] at ht
  obtain ⟨hlinked, -, horder⟩ := addCache_linked h hsurplus ht
  exact ⟨hlinked, horder⟩

theorem readEntries_linked {entries : List (Int × DiskEntry)} (h : Linked cfg s)
    (ht : entries.foldlM (readEntry cfg) s = some t) :
    Linked cfg t ∧ (s.OldestFirst → t.OldestFirst) := by
  induction entries generalizing s with
  | nil =>
      cases ht
      exact ⟨h, id⟩
  | cons x entries ih =>
      rw [List.foldlM_cons, Option.bind_eq_bind, Option.bind_eq_some_iff] at ht
      obtain ⟨u, hu, hrest⟩ := ht
      obtain ⟨hlinked, horder⟩ := readEntry_linked h hu
      obtain ⟨hlinked', horder'⟩ := ih hlinked hrest
      exact ⟨hlinked', fun hold => horder' (horder hold)⟩

theorem linked_unsorted (h : Good cfg NoDeficit s) : Linked cfg { s with insertSort := false } := by
  obtain ⟨xs, hinv, hsized, -⟩ := h
  exact ⟨xs, ⟨hinv.represents, hinv.mem_iff, hinv.ok⟩, ⟨hsized.cacheSize, hsized.entNum⟩⟩

theorem readDiskCache_linked {file : DiskFile} (h : Good cfg NoDeficit s)
    (ht : readDiskCache cfg s file = some t) :
    Good cfg NoDeficit t ∧ (s.OldestFirst → t.OldestFirst) := by
  cases file with
  | none =>
      cases ht
      exact ⟨h, id⟩
  | some entries =>
      simp only [readDiskCache, Option.bind_eq_bind, Option.bind_eq_some_iff] at ht
      obtain ⟨u, hu, hend⟩ := ht
      have hstart := linked_unsorted h
      obtain ⟨hlinked, horder⟩ := readEntries_linked hstart hu
      split at hend
      · rename_i hsort
        cases hend
        obtain ⟨ys, hinv', hsized'⟩ := hlinked
        exact ⟨⟨ys, hinv', hsized', hsort⟩, fun _ => horder nofun⟩
      · rw [Option.map_eq_some_iff] at hend
        obtain ⟨v, hv, rfl⟩ := hend
        obtain ⟨⟨ys, hinv', hsized'⟩, -, holdest'⟩ := linked_sortRrl hlinked hv
        exact ⟨⟨ys, hinv', hsized', rfl⟩, fun _ => holdest'⟩

theorem setCentFlags_order (hold : s.OldestFirst) (name : Name) (auth nocache wild : Bool) :
    (setCentFlags s name auth nocache wild).OldestFirst := by
  rw [setCentFlags]
  cases hc : s.find name.fold with
  | none => exact hold
  | some c =>
      intro hsort
      rw [Cache.nodeTs_update (Cache.find_put _ _ _) hc (by funext o; cases o <;> rfl)]
      exact hold hsort

theorem lookupCache_order {now : Int} {name : Name} {wild : Bool} (h : Good cfg NoDeficit s)
    (hold : s.OldestFirst) (ht : lookupCache cfg now s name wild = some t) :
    t.OldestFirst := by
  obtain ⟨u, hu, ⟨ys, hinv', -, hsort'⟩, hthins⟩ :=
    lookupCache_spec (p := fun _ => True) (q := fun _ _ => True) h (fun _ _ => trivial)
      (fun _ _ _ => trivial) name wild
  cases hu.symm.trans ht
  obtain ⟨xs, hinv, -, hsort⟩ := h
  have hshrinks : Shrinks s.rrl t.rrl := by
    rw [lookupCache] at ht
    split at ht
    · cases ht
      exact .refl _
    · split at ht
      · simp only [Option.bind_eq_bind, Option.bind_eq_some_iff] at ht
        obtain ⟨⟨v, b⟩, hpurge, heq⟩ := ht
        cases heq
        exact shrinks_purgeCent hpurge
      · cases ht
        exact .refl _
  exact (hinv.keeps_of_thins hinv' (hsort'.trans hsort.symm) hshrinks hthins).oldestFirst hold

/-- The nodes of an invalidated entry have the time 0, and stay where they are. -/
theorem nodeTs_invalidateRecord {name : Name} (hc : (s.find name.fold).isSome)
    (x : Addr × Lent) :
    (invalidateRecord s name).nodeTs x =
      if x.2.cent = name.fold then 0 else s.nodeTs x := by
  obtain ⟨c, hc⟩ := Option.isSome_iff_exists.mp hc
  obtain ⟨a, k, o⟩ := x
  simp only [invalidateRecord, hc, Cache.nodeTs, lentTs_eq, Cache.find_put]
  by_cases hk : k = name.fold
  · rw [if_pos hk, hk, Function.update_self, Option.bind_some]
    cases harm : c.arm with
    | neg lent ttl ts => cases o <;> rfl
    | rr b =>
        cases o with
        | none => rfl
        | some i =>
            simp only [Cent.tsOf, Cent.rrset, RrArray.modifyAll]
            cases b.slots i <;> rfl
  · rw [if_neg hk, Function.update_of_ne hk]

theorem rrl_invalidateRecord (s : Cache) (name : Name) :
    (invalidateRecord s name).rrl = s.rrl ∧
      (invalidateRecord s name).insertSort = s.insertSort := by
  rw [invalidateRecord]
  cases s.find name.fold <;> exact ⟨rfl, rfl⟩

theorem invalidateRecord_order {name : Name} (hold : s.OldestFirst)
    (hmay : s.MayInvalidate name) : (invalidateRecord s name).OldestFirst := by
  intro hsort
  obtain ⟨hrrl, hsame⟩ := rrl_invalidateRecord s name
  rw [hsame] at hsort
  rw [hrrl]
  cases hc : (s.find name.fold).isSome with
  | false =>
      rw [Option.isSome_eq_false_iff, Option.isNone_iff_eq_none] at hc
      simp only [invalidateRecord, hc]
      exact hold hsort
  | true =>
      refine (hold hsort).imp₂ (fun x y hle hpair => ?_) (hmay hsort hc)
      rw [nodeTs_invalidateRecord hc, nodeTs_invalidateRecord hc]
      split_ifs with hx hy hy
      · exact Int.le_refl 0
      · exact hpair.2 hx hy
      · exact hpair.1 hx hy
      · exact hle

theorem mayInvalidate_of_order {name : Name} (h : (invalidateRecord s name).OldestFirst) :
    s.MayInvalidate name := by
  intro hsort hc
  obtain ⟨hrrl, hsame⟩ := rrl_invalidateRecord s name
  have hsorted := h (hsame.trans hsort)
  rw [hrrl] at hsorted
  refine hsorted.imp fun {x y} hle => ⟨fun hx hy => ?_, fun hx hy => ?_⟩
  · rwa [nodeTs_invalidateRecord hc, nodeTs_invalidateRecord hc, if_neg hx, if_pos hy] at hle
  · rwa [nodeTs_invalidateRecord hc, nodeTs_invalidateRecord hc, if_pos hx, if_neg hy] at hle

theorem good_of_step {op : Op} (h : Good cfg NoDeficit s) (ht : step cfg s op = some t) :
    Good cfg NoDeficit t := by
  obtain ⟨u, hu, hgood⟩ := good_step (fun _ => NoDeficit.fst) h op fun now e hop l c hbuild => by
    obtain ⟨d, hd, -, hweak, -⟩ := e.build_spec cfg.sizes
    cases (hd s.rrl).symm.trans hbuild
    exact hweak
  cases hu.symm.trans ht
  exact hgood

theorem call_order {a : Call} (h : Good cfg NoDeficit s) (hold : s.OldestFirst)
    (hok : Orderly s a) (ht : call cfg s a = some t) : Good cfg NoDeficit t ∧ t.OldestFirst := by
  cases a with
  | readDisk file =>
      obtain ⟨hgood, horder⟩ := readDiskCache_linked h ht
      exact ⟨hgood, horder hold⟩
  | op op =>
      refine ⟨good_of_step h ht, ?_⟩
      cases op with
      | add now e =>
          obtain ⟨c, hc, -, hweak, -⟩ := e.build_spec cfg.sizes
          obtain ⟨xs, hinv, hsized, -⟩ := h
          simp only [call, step, hc, Option.bind_eq_bind, Option.bind_some] at ht
          exact (addCache_linked ⟨xs, hinv, hsized⟩ hweak ht).2.2 hold
      | del name =>
          obtain ⟨v, hv, -, hkeeps, -⟩ := good_delCache h name
          cases hv.symm.trans ht
          exact hkeeps.oldestFirst hold
      | invalidate name =>
          cases ht
          exact invalidateRecord_order hold hok
      | setFlags name auth nocache wild =>
          cases ht
          exact setCentFlags_order hold name auth nocache wild
      | empty sla =>
          obtain ⟨v, hv, -, hkeeps, -⟩ := good_emptyCache h sla
          cases hv.symm.trans ht
          exact hkeeps.oldestFirst hold
      | lookup now name wild => exact lookupCache_order h hold ht
      | purge now limit lazy =>
          obtain ⟨xs, hinv, hsized, -⟩ := h
          exact (purgeCache_linked ⟨xs, hinv, hsized⟩ ht).2.2 hold

theorem orderly_run {hist : List Call}
    (hrun : Run (call cfg) Orderly Cache.empty hist s) :
    Good cfg NoDeficit s ∧ s.OldestFirst :=
  hrun.invariant (I := fun _ s => Good cfg NoDeficit s ∧ s.OldestFirst)
    ⟨good_empty, fun _ => List.Pairwise.nil⟩
    fun _ _ _ _ hI hok ht => call_order hI.1 hI.2 hok ht

theorem not_oldestFirst_of_not_orderly {a : Call} (ht : call cfg s a = some t)
    (hnot : ¬ Orderly s a) : ¬ t.OldestFirst := by
  intro hold
  cases a with
  | readDisk file => exact hnot trivial
  | op op =>
      cases op with
      | invalidate name =>
          cases ht
          exact hnot (mayInvalidate_of_order hold)
      | _ => exact hnot trivial

end Order

/-- The list is in order in all states of a run if and only if every
`invalidate_record` of the run finds the entry where it can count as the oldest. -/
theorem oldestFirst_iff_orderly (cfg : CacheConfig) {hist : List Call} {s : Cache}
    (hrun : Run (call cfg) Always Cache.empty hist s) :
    (∀ older t, older <:+ hist → Run (call cfg) Always Cache.empty older t → t.OldestFirst) ↔
      Run (call cfg) Orderly Cache.empty hist s :=
  Run.visits_iff_guarded (fun _ => List.Pairwise.nil)
    (fun _ _ _ _ hguarded hok ht =>
      (call_order (orderly_run hguarded).1 (orderly_run hguarded).2 hok ht).2)
    (fun _ _ _ _ ht hnot => not_oldestFirst_of_not_orderly ht hnot) hrun

section Example

/-- A name of one label of one letter. -/
def letterName (b : UInt8) : Name :=
  ⟨[⟨[b], Nat.one_pos, by simp⟩]⟩

/-- An entry with one record set of the given time. -/
def agedRecipe (b : UInt8) (ts : Int) : Recipe where
  qname := letterName b
  negative := false
  ttl := 0
  ts := 0
  flags := ⟨false, false, false, false⟩
  ops := [.rrset slotNS 300 ts ⟨true, false, false, false, false, false, false⟩]

/-- The newer of two entries is invalidated. -/
def spoiling : List Call :=
  [.op (.add 1000 (agedRecipe 97 1000)), .op (.add 1100 (agedRecipe 98 1100)),
    .op (.invalidate (letterName 98))]

theorem oldestFirst_iff_orderly_spoiling :
    ∃ s, Run (call exampleConfig) Always Cache.empty spoiling.reverse s ∧
      ((∀ older t, older <:+ spoiling.reverse →
        Run (call exampleConfig) Always Cache.empty older t → t.OldestFirst) ↔
        Run (call exampleConfig) Orderly Cache.empty spoiling.reverse s) := by
  have hsome : (execute (call exampleConfig) Always Cache.empty spoiling).isSome := by
    decide +kernel
  obtain ⟨s, hs⟩ := Option.isSome_iff_exists.mp hsome
  exact ⟨s, run_of_execute hs, oldestFirst_iff_orderly exampleConfig (run_of_execute hs)⟩

/-- The node of the invalidated entry stays last, with the time 0. -/
theorem not_oldestFirst_spoiling :
    ¬ ∀ hist s, Run (call exampleConfig) Always Cache.empty hist s → s.OldestFirst := by
  intro h
  have htimes : (execute (call exampleConfig) Always Cache.empty spoiling).map
      (fun s => (s.insertSort, s.rrl.toList.map s.nodeTs)) = some (true, [1000, 0]) := by
    decide +kernel
  obtain ⟨s, hs, heq⟩ := Option.map_eq_some_iff.mp htimes
  simp only [Prod.mk.injEq] at heq
  have hsorted := h _ s (run_of_execute hs) heq.1
  rw [← List.pairwise_map (f := s.nodeTs) (R := fun x y => x ≤ y), heq.2] at hsorted
  simp at hsorted

end Example

end TorAndroid.Dns
