import TorAndroid.Dns.PurgeDryRun

namespace TorAndroid.Dns

open TorAndroid.Lib.LinkedCells TorAndroid.Lib.DoublyLinked TorAndroid.Lib.GuardedRun

/-- A turn of a walk along the list: its node, and the cache before and after it. -/
structure PurgeTurn where
  node : Lent
  before : Cache
  after : Cache

/-- Whether the record set or the negative entry of a node is timed out. -/
def lentExpired (now : Int) (s : Cache) (le : Lent) : Bool :=
  (s.find le.cent).any fun c =>
    match le.idx, c.arm with
    | none, .neg _ ttl ts => timedout now ts ttl
    | none, .rr _ => false
    | some i, _ => (c.rrset i).any fun r => timedout now r.ts r.ttl

namespace PurgeTurn

def evicts (x : PurgeTurn) : Bool :=
  (lentTs x.before x.node).isSome && (lentTs x.after x.node).isNone

def ts (x : PurgeTurn) : Int :=
  (lentTs x.before x.node).getD 0

/-- What is evicted is not timed out. -/
def evictsLive (now : Int) (x : PurgeTurn) : Bool :=
  x.evicts && !lentExpired now x.before x.node

end PurgeTurn

section Trace

variable (cond : Cache → Bool) (body : Cache → Lent → Option Cache)

/-- `walkRrl` with its turns. -/
def walkTurns : Nat → Cache → Option Addr → Option (List PurgeTurn × Cache)
  | 0, _, _ => none
  | _ + 1, s, none => some ([], s)
  | n + 1, s, some a =>
      if cond s then do
        let le ← s.rrl.node a
        let t ← body s le.val
        let (turns, u) ← walkTurns n t le.next
        some (⟨le.val, s, t⟩ :: turns, u)
      else some ([], s)

def walkAllTurns (s : Cache) : Option (List PurgeTurn × Cache) :=
  walkTurns cond body (s.rrl.nodes.keys.length + 1) s s.rrl.head

/-- The turns follow each other. -/
def Chained : Cache → List PurgeTurn → Cache → Prop
  | s, [], t => s = t
  | s, x :: xs, t => x.before = s ∧ Chained x.after xs t

end Trace

/-- `purge_cache` with the turns of its two walks. -/
def purgeTurns (cfg : CacheConfig) (now : Int) (s : Cache) (limit : Int) (lazy : Bool) :
    Option (List PurgeTurn × Cache) := do
  let (old, s) ← walkAllTurns (fun s => !lazy || decide (limit < s.cacheSize)) (purgeOld cfg now) s
  if s.cacheSize ≤ limit then some (old, s)
  else
    let s ← if s.insertSort then some s
      else (sortRrl s).map fun s => { s with insertSort := true }
    let (any, s) ← walkAllTurns (fun s => decide (limit < s.cacheSize)) (purgeAny cfg) s
    some (old ++ any, s)

/-- The entry is local, or it holds a record set. -/
def Cent.HasLocal (c : Cent) : Prop :=
  c.flags.isLocal = true ∨ ∃ i, ∃ r ∈ c.rrset i, r.flags.isLocal = true

/-- What is asked of a purge: what it may take away, when, in which order, and where it
ends. -/
structure PurgeBounds (cfg : CacheConfig) (now : Int) (s : Cache) (limit : Int) (lazy : Bool)
    (turns : List PurgeTurn) (t : Cache) : Prop where
  run : purgeTurns cfg now s limit lazy = some (turns, t)
  purge : purgeCache cfg now s limit lazy = some t
  localRrset : ∀ k c, s.find k = some c → ∀ i, ∀ r ∈ c.rrset i, r.flags.isLocal = true →
    ∃ d, t.find k = some d ∧ d.rrset i = some r
  localNegative : ∀ k c, s.find k = some c → c.negative = true → c.flags.isLocal = true →
    ∃ d, t.find k = some d ∧ d.arm = c.arm ∧ d.flags.isLocal = true
  traced : ∀ le, (lentTs s le).isSome → lentTs t le = none → ∃ x ∈ turns, x.node = le ∧ x.evicts
  above : ∀ x ∈ turns, x.evictsLive now = true → limit < x.before.cacheSize
  ordered : (turns.filter (PurgeTurn.evictsLive now)).Pairwise fun x y => x.ts ≤ y.ts
  bound : t.cacheSize ≤ limit ∨ ∀ k c, t.find k = some c → c.HasLocal

section Walks

variable (cond : Cache → Bool) (body : Cache → Lent → Option Cache)

theorem walkTurns_snd (n : Nat) (s : Cache) (a : Option Addr) :
    (walkTurns cond body n s a).map Prod.snd = walkRrl cond body n s a := by
  induction n generalizing s a with
  | zero => rfl
  | succ n ih =>
      cases a with
      | none => rfl
      | some a =>
          rw [walkTurns, walkRrl]
          split_ifs
          · cases s.rrl.node a with
            | none => rfl
            | some le =>
                simp only [Option.bind_eq_bind, Option.bind_some]
                cases body s le.val with
                | none => rfl
                | some t =>
                    rw [Option.bind_some, Option.bind_some, ← ih]
                    cases walkTurns cond body n t le.next <;> rfl
          · rfl

theorem purgeTurns_snd (cfg : CacheConfig) (now : Int) (s : Cache) (limit : Int) (lazy : Bool) :
    (purgeTurns cfg now s limit lazy).map Prod.snd = purgeCache cfg now s limit lazy := by
  rw [purgeTurns, purgeCache, walkAll, ← walkTurns_snd, walkAllTurns]
  cases walkTurns _ (purgeOld cfg now) _ s s.rrl.head with
  | none => rfl
  | some x =>
      obtain ⟨old, t⟩ := x
      simp only [Option.bind_eq_bind, Option.bind_some, Option.map_some]
      split_ifs with hsize
      · rfl
      · simp only [walkAll, ← walkTurns_snd, walkAllTurns]
        cases walkTurns _ (purgeAny cfg) _ t t.rrl.head <;> rfl
      · cases sortRrl t with
        | none => rfl
        | some u =>
            simp only [Option.map_some, Option.bind_some, walkAll, ← walkTurns_snd, walkAllTurns]
            cases walkTurns _ (purgeAny cfg) _ _ _ <;> rfl

/-- A walk whose turns keep the nodes that are still ahead, and of each of which `K` holds. -/
theorem walkTurns_spec {J : Cache → List (Addr × Lent) → Prop} {K : PurgeTurn → Prop}
    (hrep : ∀ s xs, J s xs → s.rrl.Represents xs)
    (hbody : ∀ s pre a le post, J s (pre ++ (a, le) :: post) →
      ∃ t pre', body s le = some t ∧ J t (pre' ++ post) ∧ K ⟨le, s, t⟩)
    {n : Nat} {s : Cache} {pre post : List (Addr × Lent)} (hJ : J s (pre ++ post))
    (hn : post.length < n) :
    ∃ turns t ys, walkTurns cond body n s (headAddr post none) = some (turns, t) ∧ J t ys ∧
      Chained s turns t ∧ (∀ x ∈ turns, cond x.before = true ∧ K x) ∧
      turns.map PurgeTurn.node <+: post.map Prod.snd ∧
      (cond t = true → turns.map PurgeTurn.node = post.map Prod.snd) := by
  induction n generalizing s pre post with
  | zero => simp at hn
  | succ n ih =>
      cases post with
      | nil =>
          exact ⟨[], s, pre ++ [], rfl, hJ, rfl, List.forall_mem_nil _, List.prefix_rfl,
            fun _ => rfl⟩
      | cons y post =>
          obtain ⟨a, le⟩ := y
          have hnode := (hrep s _ hJ).node_of_mem rfl
          obtain ⟨t, pre', ht, hJt, hK⟩ := hbody s pre a le post hJ
          cases hcond : cond s with
          | true =>
              obtain ⟨turns, u, ys, hu, hJu, hchain, hall, hvisited, hend⟩ :=
                ih hJt (by simpa using hn)
              refine ⟨⟨le, s, t⟩ :: turns, u, ys, ?_, hJu, ⟨rfl, hchain⟩,
                List.forall_mem_cons.mpr ⟨⟨hcond, hK⟩, hall⟩, ?_, fun hlast => ?_⟩
              · simp only [headAddr_cons, walkTurns, hcond, if_true, hnode, Option.bind_eq_bind,
                  Option.bind_some, ht, hu]
              · exact List.cons_prefix_cons.mpr ⟨rfl, hvisited⟩
              · rw [List.map_cons, List.map_cons, hend hlast]
          | false =>
              refine ⟨[], s, _, ?_, hJ, rfl, List.forall_mem_nil _, List.nil_prefix, fun h => ?_⟩
              · simp [headAddr_cons, walkTurns, hcond]
              · rw [hcond] at h
                cases h

end Walks

section Chains

/-- A turn changes nothing but what its node is for. -/
def PurgeTurn.Single (x : PurgeTurn) : Prop :=
  ∀ le, le ≠ x.node → lentTs x.after le = lentTs x.before le

variable {s t u : Cache} {turns turns' : List PurgeTurn}

theorem Chained.append (h₁ : Chained s turns t) (h₂ : Chained t turns' u) :
    Chained s (turns ++ turns') u := by
  induction turns generalizing s with
  | nil =>
      cases h₁
      exact h₂
  | cons x turns ih => exact ⟨h₁.1, ih h₁.2⟩

/-- What is gone after some turns was evicted by one of them. -/
theorem Chained.traced (h : Chained s turns t) (hsingle : ∀ x ∈ turns, x.Single) {le : Lent}
    (hs : (lentTs s le).isSome) (ht : lentTs t le = none) :
    ∃ x ∈ turns, x.node = le ∧ x.evicts := by
  induction turns generalizing s with
  | nil =>
      cases h
      rw [ht] at hs
      cases hs
  | cons x turns ih =>
      obtain ⟨rfl, hrest⟩ := h
      rw [List.forall_mem_cons] at hsingle
      by_cases hgone : lentTs x.after le = none
      · have hnode : le = x.node := by
          by_contra hne
          rw [← hsingle.1 le hne, hgone] at hs
          cases hs
        subst hnode
        exact ⟨x, List.mem_cons_self, rfl, by simp [PurgeTurn.evicts, hs, hgone]⟩
      · obtain ⟨y, hy, hey⟩ := ih hrest hsingle.2 (Option.isSome_iff_ne_none.mpr hgone)
        exact ⟨y, List.mem_cons_of_mem _ hy, hey⟩

/-- In its turn a node has the timestamp that it had at the start. -/
theorem Chained.ts_eq (h : Chained s turns t) (hsingle : ∀ x ∈ turns, x.Single)
    (hnodup : (turns.map PurgeTurn.node).Nodup) :
    ∀ x ∈ turns, lentTs x.before x.node = lentTs s x.node := by
  induction turns generalizing s with
  | nil => exact List.forall_mem_nil _
  | cons x turns ih =>
      obtain ⟨rfl, hrest⟩ := h
      rw [List.forall_mem_cons] at hsingle
      rw [List.map_cons, List.nodup_cons] at hnodup
      refine List.forall_mem_cons.mpr ⟨rfl, fun y hy => ?_⟩
      rw [ih hrest hsingle.2 hnodup.2 y hy]
      refine hsingle.1 _ fun heq => hnodup.1 ?_
      rw [← heq]
      exact List.mem_map_of_mem hy

/-- What each turn evicts stays away. -/
theorem Chained.stays (h : Chained s turns t) (hsingle : ∀ x ∈ turns, x.Single)
    (hevict : ∀ x ∈ turns, lentTs x.after x.node = none) :
    (∀ le, lentTs s le = none → lentTs t le = none) ∧ ∀ x ∈ turns, lentTs t x.node = none := by
  induction turns generalizing s with
  | nil =>
      cases h
      exact ⟨fun _ hle => hle, List.forall_mem_nil _⟩
  | cons x turns ih =>
      obtain ⟨rfl, hrest⟩ := h
      rw [List.forall_mem_cons] at hsingle hevict
      obtain ⟨hstay, hgone⟩ := ih hrest hsingle.2 hevict.2
      refine ⟨fun le hle => hstay le ?_, List.forall_mem_cons.mpr ⟨hstay _ hevict.1, hgone⟩⟩
      by_cases heq : le = x.node
      · rw [heq]
        exact hevict.1
      · rw [hsingle.1 le heq]
        exact hle

end Chains

section Drops

/-- The counter `num_rrs` of an entry is right. -/
def Exact (x : Int × Int) : Prop :=
  x.1 = 0 ∧ 0 ≤ x.2

theorem Exact.nonneg {x : Int × Int} (h : Exact x) : 0 ≤ x.1 :=
  Int.le_of_eq h.1.symm

theorem Exact.noDeficit {x : Int × Int} (h : Exact x) : NoDeficit x :=
  Prod.le_def.mpr ⟨h.nonneg, h.2⟩

/-- The entry is local, or it holds something that can be evicted. -/
def Cent.Filled (c : Cent) : Prop :=
  c.flags.isLocal = true ∨ ∃ o, (c.tsOf o).isSome

def Cache.Filled (s : Cache) : Prop :=
  ∀ k c, s.find k = some c → c.Filled

variable {sz : Sizes} {c d : Cent}

theorem Cent.tsOf_none_isSome (c : Cent) : (c.tsOf none).isSome = c.negative := by
  obtain ⟨qname, cs, numRrs, dflags, arm, cNs, cSoa⟩ := c
  cases arm <;> rfl

theorem Cent.filled_iff :
    c.Filled ↔ c.flags.isLocal = true ∨ c.negative = true ∨ ∃ i, (c.rrset i).isSome := by
  refine or_congr_right ⟨?_, ?_⟩
  · rintro ⟨_ | i, ho⟩
    · exact .inl (c.tsOf_none_isSome.symm.trans ho)
    · exact .inr ⟨i, by simpa [tsOf] using ho⟩
  · rintro (hneg | ⟨i, hi⟩)
    · exact ⟨none, c.tsOf_none_isSome.trans hneg⟩
    · exact ⟨some i, by simpa [tsOf] using hi⟩

theorem Cent.Filled.congr (h : c.Filled) (hlocal : d.flags.isLocal = c.flags.isLocal)
    (hneg : d.negative = c.negative) (hrrset : ∀ i, (d.rrset i).isSome = (c.rrset i).isSome) :
    d.Filled := by
  rw [filled_iff] at h ⊢
  simpa only [hlocal, hneg, hrrset] using h

theorem Cent.tsOf_withoutRrset (i : Slot) :
    (c.withoutRrset sz i).tsOf = Function.update c.tsOf (some i) none := by
  funext o
  cases o with
  | none =>
      rw [Function.update_of_ne (by simp)]
      obtain ⟨qname, cs, numRrs, dflags, arm, cNs, cSoa⟩ := c
      cases arm with
      | neg => rfl
      | rr a => cases h : a.slots i <;> simp [withoutRrset, h, tsOf]
  | some j =>
      rw [tsOf, rrset_withoutRrset]
      by_cases hj : j = i
      · subst hj
        simp
      · rw [Function.update_of_ne hj, Function.update_of_ne (by simpa using hj), tsOf]

/-- What a turn makes of an entry: a place is emptied, and the entry is removed if it was the
last one. -/
inductive Cent.Drops (c : Cent) (o : Option Slot) : Option Cent → Prop
  | all (hrest : ∀ o' ≠ o, c.tsOf o' = none) : Drops c o none
  | one {d : Cent} (hgone : d.tsOf o = none) (hrest : ∀ o' ≠ o, d.tsOf o' = c.tsOf o')
      (hfilled : d.Filled) : Drops c o (some d)

variable {s t : Cache} {k : Key} {o : Option Slot} {v : Option Cent}

theorem Cent.Drops.lentTs (h : c.Drops o v) (hc : s.find k = some c)
    (hfind : t.find = Function.update s.find k v) :
    Dns.lentTs t ⟨k, o⟩ = none ∧ ∀ le, le ≠ ⟨k, o⟩ → Dns.lentTs t le = Dns.lentTs s le := by
  have hself : ∀ o', Dns.lentTs t ⟨k, o'⟩ = v.bind fun d => d.tsOf o' := fun o' => by
    rw [lentTs_eq, hfind, Function.update_self]
  refine ⟨?_, fun le hne => ?_⟩
  · rw [hself]
    cases h with
    | all hrest => rfl
    | one hgone hrest hfilled => exact hgone
  · obtain ⟨k', o'⟩ := le
    by_cases hk : k' = k
    · subst hk
      have ho : o' ≠ o := fun heq => hne (heq ▸ rfl)
      rw [hself, lentTs_eq, hc, Option.bind_some]
      cases h with
      | all hrest => exact (hrest o' ho).symm
      | one hgone hrest hfilled => exact hrest o' ho
    · rw [lentTs_eq, lentTs_eq, hfind, Function.update_of_ne hk]

theorem Cent.Drops.filled (h : c.Drops o v) (hs : s.Filled)
    (hfind : t.find = Function.update s.find k v) : t.Filled := by
  intro k' d hd
  rw [hfind] at hd
  by_cases hk : k' = k
  · subst hk
    rw [Function.update_self] at hd
    cases h with
    | all hrest => cases hd
    | one hgone hrest hfilled =>
        cases hd
        exact hfilled
  · rw [Function.update_of_ne hk] at hd
    exact hs k' d hd

theorem Cent.Ok.numRrs_eq {pend : Option Slot → Prop} (h : c.Ok sz Exact k pend) :
    c.numRrs = c.count :=
  Int.sub_eq_zero.mp h.surplus.1

theorem Cent.exists_rrset_of_count (h : c.count ≠ 0) : ∃ i, (c.rrset i).isSome := by
  by_contra hnone
  refine h (measure_eq_zero (fun i => ?_) _)
  by_contra hne
  exact hnone ⟨i, Option.isSome_iff_ne_none.mpr hne⟩

variable {cfg : CacheConfig} {xs : List (Addr × Lent)} {P : Set Lent}

/-- A record set is deleted, and then the entry unless it holds another one. -/
theorem Inv.drops_rrset (h : Inv cfg.sizes Exact s xs P) (hc : s.find k = some c) {i : Slot}
    (hi : (c.rrset i).isSome) {u : Cache} (hu : Dns.delSlot cfg s k c i = some u)
    (ht : (if (c.withoutRrset cfg.sizes i).numRrs = 0 then
      Dns.delCacheEnt cfg u (c.withoutRrset cfg.sizes i).qname.fold (c.withoutRrset cfg.sizes i)
        else some u) = some t) :
    ∃ v, t.find = Function.update s.find k v ∧ c.Drops (some i) v := by
  have hok := (h.ok k c hc).withoutRrset (i := i)
  have hfind := Counted.find_delSlot hu
  have hts : (c.withoutRrset cfg.sizes i).tsOf = Function.update c.tsOf (some i) none :=
    Cent.tsOf_withoutRrset i
  split_ifs at ht with hnum
  · refine ⟨none, ?_, .all fun o' ho' => ?_⟩
    · rw [Counted.find_delCacheEnt ht, hok.name, hfind, Function.update_idem]
    · cases o' with
      | none =>
          have hneg := Cent.negative_of_rrset hi
          rw [← Option.not_isSome_iff_eq_none, Cent.tsOf_none_isSome, hneg]
          decide
      | some j =>
          have hj : (c.withoutRrset cfg.sizes i).tsOf (some j) = none := by
            rw [Cent.tsOf, hok.rrset_eq_none (fun _ => Exact.nonneg) hnum j]
            rfl
          rwa [hts, Function.update_of_ne ho'] at hj
  · cases ht
    refine ⟨some _, hfind, .one ?_ (fun o' ho' => ?_) ?_⟩
    · rw [hts, Function.update_self]
    · rw [hts, Function.update_of_ne ho']
    · rw [hok.numRrs_eq] at hnum
      exact Cent.filled_iff.mpr (.inr (.inr (Cent.exists_rrset_of_count hnum)))

theorem Inv.drops_negative (h : Inv cfg.sizes Exact s xs P) (hc : s.find k = some c)
    (hneg : c.negative = true) (ht : Dns.delCacheEnt cfg s c.qname.fold c = some t) :
    ∃ v, t.find = Function.update s.find k v ∧ c.Drops none v := by
  refine ⟨none, ?_, .all fun o' ho' => ?_⟩
  · rw [Counted.find_delCacheEnt ht, (h.ok k c hc).name]
  · cases o' with
    | none => exact absurd rfl ho'
    | some i =>
        rw [Cent.tsOf, Cent.rrset_of_negative hneg]
        rfl

theorem Cent.Ok.numRrs_of_negative {pend : Option Slot → Prop} (h : c.Ok sz Exact k pend)
    (hneg : c.negative = true) : c.numRrs = 0 := by
  rw [h.numRrs_eq, count]
  exact measure_eq_zero (fun i => rrset_of_negative hneg i) _

/-- A node on the list is for something that is not local. -/
theorem Inv.listed_node (h : Inv cfg.sizes Exact s xs ∅) {a : Addr} {le : Lent}
    (hmem : (a, le) ∈ xs) :
    ∃ c, s.find le.cent = some c ∧ c.has le.idx = true ∧ c.localAt le.idx = false := by
  obtain ⟨c, hc, hlent⟩ := (h.mem_iff a le).mp hmem
  have hlisted := (((h.ok _ c hc).linked le.idx).mp (by simp [hlent])).1
  rw [Cent.listed_eq, Bool.and_eq_true, Bool.not_eq_true'] at hlisted
  exact ⟨c, hc, hlisted⟩

/-- A turn of the second walk evicts what its node is for. -/
theorem Inv.drops_any (h : Inv cfg.sizes Exact s xs ∅) {a : Addr} {le : Lent}
    (hmem : (a, le) ∈ xs) (ht : Dns.purgeAny cfg s le = some t) :
    ∃ c v, s.find le.cent = some c ∧ t.find = Function.update s.find le.cent v ∧
      c.Drops le.idx v := by
  obtain ⟨c, hc, hhas, hlocal⟩ := h.listed_node hmem
  obtain ⟨k, o⟩ := le
  simp only [Dns.purgeAny, hc, hlocal, Option.bind_eq_bind, Option.bind_some, Bool.false_eq_true,
    if_false] at ht
  cases o with
  | none =>
      have hnum := (h.ok k c hc).numRrs_of_negative hhas
      simp only [if_pos hnum] at ht
      obtain ⟨v, hfind, hdrops⟩ := h.drops_negative hc hhas ht
      exact ⟨c, v, hc, hfind, hdrops⟩
  | some i =>
      obtain ⟨u, hu, ht⟩ := Option.bind_eq_some_iff.mp ht
      rw [Counted.find_delSlot hu, Function.update_self, Option.bind_some] at ht
      obtain ⟨v, hfind, hdrops⟩ := h.drops_rrset hc hhas hu ht
      exact ⟨c, v, hc, hfind, hdrops⟩

/-- A turn of the first walk changes nothing, or it evicts what its node is for because it is
timed out. -/
theorem Inv.drops_old (h : Inv cfg.sizes Exact s xs ∅) {a : Addr} {le : Lent} {now : Int}
    (hmem : (a, le) ∈ xs) (ht : Dns.purgeOld cfg now s le = some t) :
    t = s ∨ lentExpired now s le = true ∧ ∃ c v, s.find le.cent = some c ∧
      t.find = Function.update s.find le.cent v ∧ c.Drops le.idx v := by
  obtain ⟨c, hc, hhas, hlocal⟩ := h.listed_node hmem
  obtain ⟨k, o⟩ := le
  simp only [Dns.purgeOld, hc, hlocal, Option.bind_eq_bind, Option.bind_some, Bool.false_eq_true,
    if_false] at ht
  cases o with
  | none =>
      have hnum := (h.ok k c hc).numRrs_of_negative hhas
      simp only [hnum, decide_true, Bool.true_and] at ht
      split_ifs at ht with hneedless
      · obtain ⟨v, hfind, hdrops⟩ := h.drops_negative hc hhas ht
        refine .inr ⟨?_, c, v, hc, hfind, hdrops⟩
        rw [lentExpired, hc, Option.any_some]
        obtain ⟨qname, cs, numRrs, dflags, arm, cNs, cSoa⟩ := c
        cases arm with
        | neg lent ttl ts =>
            simp only [Cent.needless, Bool.and_eq_true] at hneedless
            exact hneedless.2
        | rr a => cases hhas
      · exact .inl (Option.some.inj ht).symm
  | some i =>
      obtain ⟨r, hr⟩ := Option.isSome_iff_exists.mp hhas
      simp only [purgeRrset, hc, Option.bind_eq_bind, Option.bind_some] at ht
      split_ifs at ht with hpurge
      · obtain ⟨u, hu, ht⟩ := Option.bind_eq_some_iff.mp ht
        have hpositive : (c.withoutRrset cfg.sizes i).needless now = true := by
          have hneg := (Cent.withoutRrset_frame c cfg.sizes i).2.2.1.trans
            (Cent.negative_of_rrset hhas)
          revert hneg
          cases c.withoutRrset cfg.sizes i with
          | mk qname cs numRrs dflags arm cNs cSoa =>
              cases arm <;> simp [Cent.negative, Cent.needless]
        rw [Counted.find_delSlot hu, Function.update_self, Option.bind_some, hpositive,
          Bool.and_true] at ht
        simp only [decide_eq_true_eq] at ht
        obtain ⟨v, hfind, hdrops⟩ := h.drops_rrset hc hhas hu ht
        refine .inr ⟨?_, c, v, hc, hfind, hdrops⟩
        rw [hr, Option.any_some] at hpurge
        simp only [lentExpired, hc, Option.any_some, hr]
        exact Counted.timedout_of_purgeable hpurge
      · have hpos := Cent.count_pos_of_rrset hhas
        rw [← (h.ok k c hc).numRrs_eq] at hpos
        simp only [Option.bind_some, hc, decide_eq_false (show ¬c.numRrs = 0 by omega),
          Bool.false_and, Bool.false_eq_true, if_false, Option.some.injEq] at ht
        exact .inl ht.symm

end Drops

section Purge

variable {cfg : CacheConfig} {s t u : Cache} {xs ys : List (Addr × Lent)} {now limit : Int}
  {lazy : Bool} {turns : List PurgeTurn}

/-- What holds in every turn of a purge that started in `s₀`. -/
structure Purging (cfg : CacheConfig) (s₀ t : Cache) (ys : List (Addr × Lent)) : Prop where
  purged : Purged cfg.sizes Exact (fun r => r.flags.isLocal = false) (fun b _ => b = false) s₀ t ys
  filled : t.Filled

/-- What is known of the turns of the first walk. -/
structure PurgeTurn.Old (now : Int) (x : PurgeTurn) : Prop where
  single : x.Single
  expired : x.evicts = true → lentExpired now x.before x.node = true

/-- What is known of the turns of the second walk. -/
structure PurgeTurn.Any (x : PurgeTurn) : Prop where
  single : x.Single
  gone : lentTs x.after x.node = none

theorem Purging.old (h : Purging cfg s t ys) (now limit : Int) (lazy : Bool) :
    ∃ turns u zs, walkAllTurns (fun s => !lazy || decide (limit < s.cacheSize))
        (purgeOld cfg now) t = some (turns, u) ∧ Purging cfg s u zs ∧ Chained t turns u ∧
      ∀ x ∈ turns, (!lazy || decide (limit < x.before.cacheSize)) = true ∧ x.Old now := by
  have hrep := h.purged.inv.represents
  obtain ⟨turns, u, zs, hu, hJ, hchain, hall, -⟩ := walkTurns_spec
    (fun s => !lazy || decide (limit < s.cacheSize)) (purgeOld cfg now) (J := Purging cfg s)
    (K := PurgeTurn.Old now)
    (fun _ _ h => h.purged.inv.represents) (fun v pre a le post hv => by
      obtain ⟨w, pre', hw, hpurged⟩ := hv.purged.purgeOld (fun _ => Exact.nonneg)
        (fun r hr => RrSet.isLocal_of_purgeable hr)
        fun c hneg hc => Cent.isLocal_of_needless hc hneg
      refine ⟨w, pre', hw, ?_⟩
      rcases hv.purged.inv.drops_old (List.mem_append_right _ List.mem_cons_self) hw with
        rfl | ⟨hexpired, c, x, hc, hfind, hdrops⟩
      · refine ⟨⟨hpurged, hv.filled⟩, fun _ _ => rfl, fun hevict => ?_⟩
        rw [PurgeTurn.evicts, Bool.and_eq_true, Option.isNone_iff_eq_none] at hevict
        rw [hevict.2] at hevict
        cases hevict.1
      · obtain ⟨hgone, hsingle⟩ := hdrops.lentTs hc hfind
        exact ⟨⟨hpurged, hdrops.filled hv.filled hfind⟩, hsingle, fun _ => hexpired⟩)
    (show Purging cfg s t ([] ++ ys) from h) (Nat.lt_succ_of_le hrep.length_le)
  rw [walkAllTurns, hrep.head]
  exact ⟨turns, u, zs, hu, hJ, hchain, hall⟩

theorem Purging.any (h : Purging cfg s t ys) (limit : Int) :
    ∃ turns u zs, walkAllTurns (fun s => decide (limit < s.cacheSize)) (purgeAny cfg) t =
        some (turns, u) ∧ Purging cfg s u zs ∧ Chained t turns u ∧
      (∀ x ∈ turns, limit < x.before.cacheSize ∧ x.Any) ∧
      turns.map PurgeTurn.node <+: ys.map Prod.snd ∧
      (limit < u.cacheSize → turns.map PurgeTurn.node = ys.map Prod.snd) := by
  have hrep := h.purged.inv.represents
  obtain ⟨turns, u, zs, hu, hJ, hchain, hall, hvisited, hend⟩ := walkTurns_spec
    (fun s => decide (limit < s.cacheSize)) (purgeAny cfg) (J := Purging cfg s) (K := PurgeTurn.Any)
    (fun _ _ h => h.purged.inv.represents) (fun v pre a le post hv => by
      obtain ⟨w, pre', hw, hpurged⟩ := hv.purged.purgeAny (fun _ => Exact.nonneg)
        (fun r hr => hr) fun _ => rfl
      obtain ⟨c, x, hc, hfind, hdrops⟩ :=
        hv.purged.inv.drops_any (List.mem_append_right _ List.mem_cons_self) hw
      obtain ⟨hgone, hsingle⟩ := hdrops.lentTs hc hfind
      exact ⟨w, pre', hw, ⟨hpurged, hdrops.filled hv.filled hfind⟩, hsingle, hgone⟩)
    (show Purging cfg s t ([] ++ ys) from h) (Nat.lt_succ_of_le hrep.length_le)
  rw [walkAllTurns, hrep.head]
  exact ⟨turns, u, zs, hu, hJ, hchain, fun x hx => ⟨of_decide_eq_true (hall x hx).1, (hall x hx).2⟩,
    hvisited, fun hlimit => hend (decide_eq_true hlimit)⟩

theorem Purging.locals (h : Purging cfg s t ys) {k : Key} {c : Cent} (hc : s.find k = some c) :
    (∀ i, ∀ r ∈ c.rrset i, r.flags.isLocal = true → ∃ d, t.find k = some d ∧ d.rrset i = some r) ∧
      (c.negative = true → c.flags.isLocal = true →
        ∃ d, t.find k = some d ∧ d.arm = c.arm ∧ d.flags.isLocal = true) := by
  have hto := h.purged.thins k
  rw [hc] at hto
  generalize hd : t.find k = v at hto
  cases hto with
  | gone hrrset hneg =>
      refine ⟨fun i r hr hlocal => ?_, fun hnegative hlocal => ?_⟩
      · rw [hrrset i r hr] at hlocal
        cases hlocal
      · rw [hneg hnegative] at hlocal
        cases hlocal
  | kept hthins =>
      refine ⟨fun i r hr hlocal => ⟨_, rfl, ?_⟩, fun hnegative hlocal =>
        ⟨_, rfl, hthins.arm hnegative, hthins.isLocal.trans hlocal⟩⟩
      rcases hthins.rrset i with heq | ⟨-, hp⟩
      · exact heq.trans hr
      · rw [hp r hr] at hlocal
        cases hlocal

/-- When nothing is left on the list, only local entries and record sets are left. -/
theorem Purging.hasLocal (h : Purging cfg s t ys)
    (hnone : ∀ le ∈ ys.map Prod.snd, lentTs t le = none) {k : Key} {c : Cent}
    (hc : t.find k = some c) : c.HasLocal := by
  rcases h.filled k c hc with hlocal | ⟨o, ho⟩
  · exact .inl hlocal
  · by_contra hnot
    have hlisted : c.listed o = true := by
      rw [Cent.HasLocal, not_or, not_exists] at hnot
      cases o with
      | none =>
          rw [Cent.tsOf_none_isSome] at ho
          simp [Cent.listed, ho, hnot.1]
      | some i =>
          obtain ⟨r, hr⟩ := Option.isSome_iff_exists.mp (show (c.rrset i).isSome by
            simpa [Cent.tsOf] using ho)
          have hforeign : ¬r.flags.isLocal = true := fun hlocal => hnot.2 i ⟨r, hr, hlocal⟩
          simp [Cent.listed, hr, hnot.1, hforeign]
    have hgone := hnone ⟨k, o⟩ ((h.purged.inv.mem_listed ⟨k, o⟩).mpr ⟨c, hc, hlisted⟩)
    rw [lentTs_eq, hc, Option.bind_some] at hgone
    rw [hgone] at ho
    cases ho

/-- The turns of the second walk are in the order of the list. -/
theorem ordered_of_chained (h : Inv cfg.sizes Exact s xs ∅) (hold : s.OldestFirst)
    (hsort : s.insertSort = true) (hchain : Chained s turns t) (hsingle : ∀ x ∈ turns, x.Single)
    (hvisited : turns.map PurgeTurn.node <+: xs.map Prod.snd) :
    turns.Pairwise fun x y => x.ts ≤ y.ts := by
  have hsorted := hold hsort
  rw [h.represents.toList_eq] at hsorted
  have hnodes : (turns.map PurgeTurn.node).Pairwise fun le le' =>
      (lentTs s le).getD 0 ≤ (lentTs s le').getD 0 := by
    refine (List.pairwise_map.mpr ?_).sublist hvisited.sublist
    exact hsorted
  rw [List.pairwise_map] at hnodes
  have hts := hchain.ts_eq hsingle (h.nodup.sublist hvisited.sublist)
  refine hnodes.imp_of_mem fun {x y} hx hy hle => ?_
  rwa [PurgeTurn.ts, PurgeTurn.ts, hts x hx, hts y hy]

/-- A purge does what is asked of it, if every entry is local or holds something. -/
theorem purgeCache_bounds (h : Good cfg Exact s) (hfilled : s.Filled) (hold : s.OldestFirst)
    (now limit : Int) (lazy : Bool) :
    ∃ turns t, PurgeBounds cfg now s limit lazy turns t ∧ Good cfg Exact t ∧ t.Filled ∧
      t.OldestFirst := by
  obtain ⟨xs, hinv, hsized, hsort⟩ := h
  have hstart : Purging cfg s s xs := ⟨Purged.of_inv hinv hsized, hfilled⟩
  obtain ⟨old, u, ys, hu, hpurging, hchain, hturns⟩ := hstart.old now limit lazy
  have husort : u.insertSort = true := hpurging.purged.insertSort.trans hsort
  have huold : u.OldestFirst := by
    have hwalk := walkTurns_snd (fun s => !lazy || decide (limit < s.cacheSize))
      (purgeOld cfg now) (s.rrl.nodes.keys.length + 1) s s.rrl.head
    rw [← walkAllTurns, hu] at hwalk
    exact (hpurging.purged.keeps hinv
      (shrinks_walkRrl (fun _ _ _ => shrinks_purgeOld) hwalk.symm)).oldestFirst hold
  have hlive : ∀ x ∈ old, x.evictsLive now = false := by
    intro x hx
    rw [PurgeTurn.evictsLive, Bool.and_eq_false_iff]
    cases hevicts : x.evicts with
    | false => exact .inl rfl
    | true => exact .inr (by rw [(hturns x hx).2.expired hevicts]; rfl)
  have hfilter : old.filter (PurgeTurn.evictsLive now) = [] := by
    rw [List.filter_eq_nil_iff]
    intro x hx
    rw [hlive x hx]
    decide
  have hpurge := purgeTurns_snd cfg now s limit lazy
  rw [purgeTurns, hu] at hpurge
  simp only [Option.bind_eq_bind, Option.bind_some] at hpurge
  by_cases hsize : u.cacheSize ≤ limit
  · rw [if_pos hsize] at hpurge
    refine ⟨old, u, ⟨?_, hpurge.symm, fun k c hc => (hpurging.locals hc).1,
      fun k c hc => (hpurging.locals hc).2,
      fun le => hchain.traced fun x hx => (hturns x hx).2.single, fun x hx hevicts => ?_, ?_,
      .inl hsize⟩, ⟨ys, hpurging.purged.inv, hpurging.purged.sized, husort⟩, hpurging.filled, huold⟩
    · simp only [purgeTurns, hu, Option.bind_eq_bind, Option.bind_some, if_pos hsize]
    · rw [hlive x hx] at hevicts
      cases hevicts
    · rw [hfilter]
      exact List.Pairwise.nil
  · have hrestart : Purging cfg u u ys :=
      ⟨Purged.of_inv hpurging.purged.inv hpurging.purged.sized, hpurging.filled⟩
    obtain ⟨any, t, zs, ht, hpurged, hchain', hturns', hvisited, hend⟩ :=
      hrestart.any limit
    have hpurging' : Purging cfg s t zs :=
      ⟨⟨hpurged.purged.inv, hpurged.purged.sized,
        hpurging.purged.thins.trans hpurged.purged.thins,
        hpurged.purged.insertSort.trans hpurging.purged.insertSort⟩, hpurged.filled⟩
    simp only [if_neg hsize, husort, if_true, Option.bind_some, ht, Option.map_some] at hpurge
    have hshrinks : Shrinks u.rrl t.rrl := by
      have hwalk := walkTurns_snd (fun s => decide (limit < s.cacheSize))
        (purgeAny cfg) (u.rrl.nodes.keys.length + 1) u u.rrl.head
      rw [← walkAllTurns, ht] at hwalk
      exact shrinks_walkRrl (fun _ _ _ => shrinks_purgeAny) hwalk.symm
    have hsingle : ∀ x ∈ any, x.Single := fun x hx => (hturns' x hx).2.single
    refine ⟨old ++ any, t, ⟨?_, hpurge.symm, fun k c hc => (hpurging'.locals hc).1,
      fun k c hc => (hpurging'.locals hc).2, fun le => (hchain.append hchain').traced
        (List.forall_mem_append.mpr ⟨fun x hx => (hturns x hx).2.single, hsingle⟩), ?_, ?_, ?_⟩,
      ⟨zs, hpurging'.purged.inv, hpurging'.purged.sized, hpurging'.purged.insertSort.trans hsort⟩,
      hpurging'.filled, (hpurged.purged.keeps hpurging.purged.inv hshrinks).oldestFirst huold⟩
    · simp only [purgeTurns, hu, Option.bind_eq_bind, Option.bind_some, if_neg hsize, husort,
        if_true, ht]
    · refine List.forall_mem_append.mpr ⟨fun x hx hevicts => ?_, fun x hx _ => (hturns' x hx).1⟩
      rw [hlive x hx] at hevicts
      cases hevicts
    · rw [List.filter_append, hfilter, List.nil_append]
      exact (ordered_of_chained hpurging.purged.inv huold husort hchain' hsingle hvisited).filter _
    · by_cases hbelow : t.cacheSize ≤ limit
      · exact .inl hbelow
      · -- all nodes had their turn, and no node came to the list
        refine .inr fun k c hc => hpurging'.hasLocal (fun le hle => ?_) hc
        obtain ⟨zs', hzs', hsub⟩ := hshrinks ys hpurging.purged.inv.represents
        rw [← hpurged.purged.inv.represents.toList_eq, hzs'.toList_eq] at hle
        have hnode : le ∈ any.map PurgeTurn.node := by
          rw [hend (Int.not_le.mp hbelow)]
          exact (hsub.map Prod.snd).subset hle
        obtain ⟨x, hx, rfl⟩ := List.mem_map.mp hnode
        exact (hchain'.stays hsingle fun x hx => (hturns' x hx).2.gone).2 x hx

end Purge

end TorAndroid.Dns
