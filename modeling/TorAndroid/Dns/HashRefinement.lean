import TorAndroid.Dns.HashTable
import Mathlib.Data.Fintype.EquivFin

namespace TorAndroid.Dns

open TorAndroid.Lib.LinkedCells

variable {w : Nat} {ε : Type} {qname : ε → Name} {t : Table w ε}
variable {L : Bucket → List (Addr × HashEnt w ε)}

/-- Where the search loop stops in the chain it walks. -/
theorem searchLoop_spec (qname : ε → Name) (key : Name) (rh : BitVec w) {i : Bucket}
    {l : Option Addr} {done xs : List (Addr × HashEnt w ε)} {fuel : Nat}
    (hlink : t.link (placeAfter i done) = some l) (hchain : t.Chain l xs)
    (hfuel : xs.length < fuel) :
    ∃ pre post found, xs = pre ++ post ∧
      searchLoop qname t key.wire rh fuel (placeAfter i done) =
        some (placeAfter i (done ++ pre), found) ∧
      (∀ x ∈ pre, x.2.rhash ≤ rh) ∧
      (∀ x ∈ pre, ¬(x.2.rhash = rh ∧ key.fold = (qname x.2.data).fold)) ∧
      ((found = none ∧ ∀ y ∈ post.head?, rh < y.2.rhash) ∨
        ∃ y n, y ∈ post.head? ∧ y.2.rhash = rh ∧ key.fold = (qname y.2.data).fold ∧
          found = some (y.1, ⟨n, y.2⟩) ∧ t.cell y.1 = some ⟨n, y.2⟩) := by
  induction xs generalizing l done fuel with
  | nil =>
      obtain rfl : l = none := hchain
      obtain _ | fuel := fuel
      · simp at hfuel
      · exact ⟨[], [], none, rfl, by simp [searchLoop, hlink], by simp, by simp, by simp⟩
  | cons x xs ih =>
      obtain ⟨rfl, n, hcell, hrest⟩ := hchain
      obtain _ | fuel := fuel
      · simp at hfuel
      · by_cases hle : x.2.rhash ≤ rh
        · by_cases hmatch : x.2.rhash = rh ∧ key.fold = (qname x.2.data).fold
          · refine ⟨[], x :: xs, some (x.1, ⟨n, x.2⟩), rfl, ?_, by simp, by simp,
              Or.inr ⟨x, n, rfl, hmatch.1, hmatch.2, rfl, hcell⟩⟩
            simp [searchLoop, hlink, hcell, hmatch.1, (rhnicmp_wire _ _).mpr hmatch.2]
          · have hnext : t.link (placeAfter i (done ++ [x])) = some n := by
              simp [Store.link, hcell]
            obtain ⟨pre, post, found, rfl, hrun, hbound, hmiss, hend⟩ :=
              ih hnext hrest (by simpa using hfuel)
            refine ⟨x :: pre, post, found, rfl, ?_, ?_, ?_, hend⟩
            · rw [placeAfter_concat] at hrun
              rw [List.append_assoc, List.singleton_append] at hrun
              rw [← hrun]
              have hcond : ¬(x.2.rhash = rh ∧
                  rhnicmp key.wire (qname x.2.data).wire = true) := by
                rwa [rhnicmp_wire]
              simp only [searchLoop, hlink, hcell, Option.bind_eq_bind, Option.bind_some]
              rw [if_pos hle, if_neg hcond]
            · simpa [hle] using hbound
            · exact List.forall_mem_cons.mpr ⟨hmatch, hmiss⟩
        · refine ⟨[], x :: xs, none, rfl, ?_, by simp, by simp, Or.inl ⟨rfl, ?_⟩⟩
          · simp [searchLoop, hlink, hcell, hle]
          · simpa [BitVec.not_le] using hle

/-- Among entries of distinct names, the one of a given name is found. -/
theorem find?_fold_eq_some {es : List ε} {k : List (List UInt8)} {e : ε}
    (hdistinct : es.Pairwise fun d e => (qname d).fold ≠ (qname e).fold) :
    es.find? (fun d => (qname d).fold = k) = some e ↔ e ∈ es ∧ (qname e).fold = k := by
  induction es with
  | nil => simp
  | cons d es ih =>
      rw [List.pairwise_cons] at hdistinct
      by_cases hd : (qname d).fold = k
      · rw [List.find?_cons_of_pos (by simpa using hd), List.mem_cons]
        constructor
        · rintro ⟨rfl⟩
          exact ⟨Or.inl rfl, hd⟩
        · rintro ⟨rfl | he, hk⟩
          · rfl
          · exact absurd (hd.trans hk.symm) (hdistinct.1 e he)
      · rw [List.find?_cons_of_neg (by simpa using hd)]
        refine (ih hdistinct.2).trans ?_
        constructor
        · rintro ⟨he, hk⟩
          exact ⟨List.mem_cons_of_mem _ he, hk⟩
        · rintro ⟨he, hk⟩
          rcases List.mem_cons.mp he with rfl | he
          · exact absurd hk hd
          · exact ⟨he, hk⟩

namespace Ordered

variable (h : Ordered qname t L)
include h

theorem hash_of_fold {key : Name} {i : Bucket} {x : Addr × HashEnt w ε} (hx : x ∈ L i)
    (hfold : (qname x.2.data).fold = key.fold) :
    dnsHash w key.wire = (i, x.2.rhash) :=
  (dnsHash_congr w hfold.symm).trans (h.placed i x hx)

/-- The search ends at the entry of the name, or at the place a new entry of
this name belongs to when there is none. -/
theorem search_spec (key : Name) :
    (∃ pre x post n, L (dnsHash w key.wire).1 = pre ++ x :: post ∧
      (qname x.2.data).fold = key.fold ∧ t.cell x.1 = some ⟨n, x.2⟩ ∧
      search qname t key.wire =
        some (placeAfter (dnsHash w key.wire).1 pre, some (x.1, ⟨n, x.2⟩))) ∨
    ∃ pre post, L (dnsHash w key.wire).1 = pre ++ post ∧
      (∀ i, ∀ x ∈ L i, (qname x.2.data).fold ≠ key.fold) ∧
      (∀ x ∈ pre, x.2.rhash ≤ (dnsHash w key.wire).2) ∧
      (∀ x ∈ post, (dnsHash w key.wire).2 ≤ x.2.rhash) ∧
      search qname t key.wire = some (placeAfter (dnsHash w key.wire).1 pre, none) := by
  have hfuel := Nat.lt_succ_of_le (h.represents.length_le (dnsHash w key.wire).1)
  have hroot : t.link (placeAfter (dnsHash w key.wire).1 ([] : List (Addr × HashEnt w ε))) =
      some (t.root (dnsHash w key.wire).1) := rfl
  obtain ⟨pre, post, found, hL, hrun, hbound, hmiss, hend⟩ :=
    searchLoop_spec qname key (dnsHash w key.wire).2 hroot
      (h.represents.chain (dnsHash w key.wire).1) hfuel
  rcases hend with ⟨rfl, hbeyond⟩ | ⟨y, n, hy, hrhash, hfold, rfl, hcell⟩
  · have hpost : ∀ x ∈ post, (dnsHash w key.wire).2 < x.2.rhash := by
      intro x hx
      have hsorted := h.sorted (dnsHash w key.wire).1
      rw [hL, List.pairwise_append] at hsorted
      obtain _ | ⟨y, post⟩ := post
      · cases hx
      · have hy := hbeyond y rfl
        rcases List.mem_cons.mp hx with rfl | hx
        · exact hy
        · have hle := List.rel_of_pairwise_cons hsorted.2.1 hx
          rw [BitVec.lt_def] at hy ⊢
          rw [BitVec.le_def] at hle
          omega
    refine Or.inr ⟨pre, post, hL, ?_, hbound, fun x hx => BitVec.le_of_lt (hpost x hx),
      by simpa [search] using hrun⟩
    intro i x hx hfold
    have hhash := h.hash_of_fold hx hfold
    rw [show i = (dnsHash w key.wire).1 by rw [hhash], hL, List.mem_append] at hx
    rcases hx with hx | hx
    · exact hmiss x hx ⟨by rw [hhash], hfold.symm⟩
    · have hlt := hpost x hx
      rw [hhash] at hlt
      exact BitVec.lt_irrefl _ hlt
  · obtain ⟨post, rfl⟩ : ∃ post', post = y :: post' := by
      obtain _ | ⟨z, post⟩ := post
      · cases hy
      · exact ⟨post, by simpa using hy⟩
    exact Or.inl ⟨pre, y, post, n, hL, hfold.symm, hcell, by simpa [search] using hrun⟩

theorem chain_eq (i : Bucket) : chain t i = L i :=
  (h.represents.chain i).follow_eq (h.represents.length_le i)

theorem mem_entries {e : ε} : e ∈ entries t ↔ ∃ i, ∃ x ∈ L i, x.2.data = e := by
  simp [entries, h.chain_eq]

theorem entries_distinct :
    (entries t).Pairwise fun d e => (qname d).fold ≠ (qname e).fold := by
  rw [entries, List.pairwise_flatMap]
  constructor
  · intro i _
    rw [h.chain_eq, List.pairwise_map]
    exact h.distinct i
  · refine (List.nodup_finRange _).imp fun {i j} hij d hd e he hfold => ?_
    rw [h.chain_eq, List.mem_map] at hd he
    obtain ⟨x, hx, rfl⟩ := hd
    obtain ⟨y, hy, rfl⟩ := he
    have hhash := h.hash_of_fold hx hfold
    rw [h.placed j y hy] at hhash
    exact hij (congrArg Prod.fst hhash).symm

theorem entry_eq_some {k : List (List UInt8)} {e : ε} :
    entry qname t k = some e ↔ e ∈ entries t ∧ (qname e).fold = k :=
  find?_fold_eq_some h.entries_distinct

theorem entry_eq_none {k : List (List UInt8)} :
    entry qname t k = none ↔ ∀ i, ∀ x ∈ L i, (qname x.2.data).fold ≠ k := by
  rw [entry, List.find?_eq_none]
  constructor
  · intro hnone i x hx
    simpa using hnone x.2.data (h.mem_entries.mpr ⟨i, x, hx, rfl⟩)
  · intro hne e he
    obtain ⟨i, x, hx, rfl⟩ := h.mem_entries.mp he
    simpa using hne i x hx

/-- Replacing the chain of one bucket by a list of other entries of that bucket. -/
theorem update {t' : Table w ε} {i : Bucket} {new : List (Addr × HashEnt w ε)}
    (hrep : t'.Represents (Function.update L i new))
    (hsorted : new.Pairwise fun x y => x.2.rhash ≤ y.2.rhash)
    (hplaced : ∀ x ∈ new, dnsHash w (qname x.2.data).wire = (i, x.2.rhash))
    (hdistinct : new.Pairwise fun x y => (qname x.2.data).fold ≠ (qname y.2.data).fold) :
    Ordered qname t' (Function.update L i new) := by
  refine ⟨hrep, fun j => ?_, fun j => ?_, fun j => ?_⟩ <;>
    rcases eq_or_ne j i with rfl | hj
  · simpa using hsorted
  · simpa [hj] using h.sorted j
  · simpa using hplaced
  · simpa [hj] using h.placed j
  · simpa using hdistinct
  · simpa [hj] using h.distinct j

/-- What a lookup returns, with what its location is good for. -/
theorem lookup_cases (key : Name) :
    (∃ pre x post n, L (dnsHash w key.wire).1 = pre ++ x :: post ∧
      (qname x.2.data).fold = key.fold ∧ t.cell x.1 = some ⟨n, x.2⟩ ∧
      entry qname t key.fold = some x.2.data ∧
      dnsLookup qname t key.wire = some (some x.2.data,
        ⟨placeAfter (dnsHash w key.wire).1 pre, (dnsHash w key.wire).2⟩)) ∨
    ∃ pre post, L (dnsHash w key.wire).1 = pre ++ post ∧
      entry qname t key.fold = none ∧
      (∀ x ∈ pre, x.2.rhash ≤ (dnsHash w key.wire).2) ∧
      (∀ x ∈ post, (dnsHash w key.wire).2 ≤ x.2.rhash) ∧
      dnsLookup qname t key.wire = some (none,
        ⟨placeAfter (dnsHash w key.wire).1 pre, (dnsHash w key.wire).2⟩) := by
  rcases h.search_spec key with
    ⟨pre, x, post, n, hL, hfold, hcell, hrun⟩ | ⟨pre, post, hL, hmiss, hpre, hpost, hrun⟩
  · refine Or.inl ⟨pre, x, post, n, hL, hfold, hcell, ?_, by simp [dnsLookup, hrun]⟩
    have hx : x ∈ L (dnsHash w key.wire).1 := by
      rw [hL]
      simp
    exact h.entry_eq_some.mpr ⟨h.mem_entries.mpr ⟨_, x, hx, rfl⟩, hfold⟩
  · exact Or.inr ⟨pre, post, hL, h.entry_eq_none.mpr hmiss, hpre, hpost,
      by simp [dnsLookup, hrun]⟩

theorem lookup_eq (key : Name) :
    ∃ loc, dnsLookup qname t key.wire = some (entry qname t key.fold, loc) := by
  rcases h.lookup_cases key with
    ⟨pre, x, post, n, -, -, -, hentry, hrun⟩ | ⟨pre, post, -, hentry, -, -, hrun⟩
  · exact ⟨_, by rw [hrun, hentry]⟩
  · exact ⟨_, by rw [hrun, hentry]⟩

theorem insert {t' : Table w ε} {i : Bucket} {pre post : List (Addr × HashEnt w ε)}
    {x : Addr × HashEnt w ε} (hL : L i = pre ++ post)
    (hrep : t'.Represents (Function.update L i (pre ++ x :: post)))
    (hplaced : dnsHash w (qname x.2.data).wire = (i, x.2.rhash))
    (hmiss : ∀ y ∈ L i, (qname y.2.data).fold ≠ (qname x.2.data).fold)
    (hpre : ∀ y ∈ pre, y.2.rhash ≤ x.2.rhash) (hpost : ∀ y ∈ post, x.2.rhash ≤ y.2.rhash) :
    Ordered qname t' (Function.update L i (pre ++ x :: post)) := by
  have hsorted := h.sorted i
  have hdistinct := h.distinct i
  have hold := h.placed i
  rw [hL] at hmiss hsorted hdistinct hold
  rw [List.forall_mem_append] at hmiss hold
  rw [List.pairwise_append] at hsorted hdistinct
  refine h.update hrep ?_ ?_ ?_
  · rw [List.pairwise_append, List.pairwise_cons]
    refine ⟨hsorted.1, ⟨hpost, hsorted.2.1⟩, fun y hy => ?_⟩
    exact List.forall_mem_cons.mpr ⟨hpre y hy, hsorted.2.2 y hy⟩
  · rw [List.forall_mem_append, List.forall_mem_cons]
    exact ⟨hold.1, hplaced, hold.2⟩
  · rw [List.pairwise_append, List.pairwise_cons]
    refine ⟨hdistinct.1, ⟨fun y hy => (hmiss.2 y hy).symm, hdistinct.2.1⟩, fun y hy => ?_⟩
    exact List.forall_mem_cons.mpr ⟨hmiss.1 y hy, hdistinct.2.2 y hy⟩

theorem remove {t' : Table w ε} {i : Bucket} {pre post : List (Addr × HashEnt w ε)}
    {x : Addr × HashEnt w ε} (hL : L i = pre ++ x :: post)
    (hrep : t'.Represents (Function.update L i (pre ++ post))) :
    Ordered qname t' (Function.update L i (pre ++ post)) := by
  have hsub : (pre ++ post).Sublist (L i) := by
    rw [hL]
    exact List.Sublist.append_left (List.sublist_cons_self x post) pre
  exact h.update hrep ((h.sorted i).sublist hsub)
    (fun y hy => h.placed i y (hsub.subset hy)) ((h.distinct i).sublist hsub)

omit h in
theorem mem_entries_update {t' : Table w ε} {i : Bucket} {new : List (Addr × HashEnt w ε)}
    (h' : Ordered qname t' (Function.update L i new)) {e : ε} :
    e ∈ entries t' ↔ (∃ x ∈ new, x.2.data = e) ∨ ∃ j, j ≠ i ∧ ∃ x ∈ L j, x.2.data = e := by
  rw [h'.mem_entries]
  constructor
  · rintro ⟨j, x, hx, rfl⟩
    rcases eq_or_ne j i with rfl | hj
    · rw [Function.update_self] at hx
      exact Or.inl ⟨x, hx, rfl⟩
    · rw [Function.update_of_ne hj] at hx
      exact Or.inr ⟨j, hj, x, hx, rfl⟩
  · rintro (⟨x, hx, rfl⟩ | ⟨j, hj, x, hx, rfl⟩)
    · exact ⟨i, x, by rwa [Function.update_self], rfl⟩
    · exact ⟨j, x, by rwa [Function.update_of_ne hj], rfl⟩

theorem mem_entries_split (i : Bucket) {e : ε} :
    e ∈ entries t ↔ (∃ x ∈ L i, x.2.data = e) ∨ ∃ j, j ≠ i ∧ ∃ x ∈ L j, x.2.data = e := by
  have hself : Ordered qname t (Function.update L i (L i)) := by
    rwa [Function.update_eq_self]
  exact mem_entries_update hself

theorem entry_insert {t' : Table w ε} {i : Bucket} {pre post : List (Addr × HashEnt w ε)}
    {x : Addr × HashEnt w ε} (hL : L i = pre ++ post)
    (h' : Ordered qname t' (Function.update L i (pre ++ x :: post))) :
    entry qname t' =
      Function.update (entry qname t) (qname x.2.data).fold (some x.2.data) := by
  have hmem : ∀ e, e ∈ entries t' ↔ e = x.2.data ∨ e ∈ entries t := by
    intro e
    rw [mem_entries_update h', h.mem_entries_split i, hL]
    simp only [List.mem_append, List.mem_cons]
    grind
  funext k
  rcases eq_or_ne k (qname x.2.data).fold with rfl | hk
  · rw [Function.update_self, h'.entry_eq_some, hmem]
    exact ⟨Or.inl rfl, rfl⟩
  · rw [Function.update_of_ne hk]
    refine Option.ext fun e => ?_
    rw [h'.entry_eq_some, h.entry_eq_some, hmem]
    constructor
    · rintro ⟨rfl | he, hfold⟩
      · exact absurd hfold.symm hk
      · exact ⟨he, hfold⟩
    · rintro ⟨he, hfold⟩
      exact ⟨Or.inr he, hfold⟩

theorem entry_remove {t' : Table w ε} {i : Bucket} {pre post : List (Addr × HashEnt w ε)}
    {x : Addr × HashEnt w ε} (hL : L i = pre ++ x :: post)
    (h' : Ordered qname t' (Function.update L i (pre ++ post))) :
    entry qname t' = Function.update (entry qname t) (qname x.2.data).fold none := by
  have hx : x ∈ L i := by
    rw [hL]
    simp
  have hrest : ∀ y ∈ pre ++ post, (qname y.2.data).fold ≠ (qname x.2.data).fold := by
    have hdistinct := h.distinct i
    rw [hL, List.pairwise_append, List.pairwise_cons] at hdistinct
    rw [List.forall_mem_append]
    exact ⟨fun y hy => hdistinct.2.2 y hy x List.mem_cons_self,
      fun y hy => (hdistinct.2.1.1 y hy).symm⟩
  have hothers : ∀ j, j ≠ i → ∀ y ∈ L j, (qname y.2.data).fold ≠ (qname x.2.data).fold := by
    intro j hj y hy hfold
    have hhash := h.hash_of_fold hy hfold
    rw [h.placed i x hx] at hhash
    exact hj (congrArg Prod.fst hhash).symm
  funext k
  rcases eq_or_ne k (qname x.2.data).fold with rfl | hk
  · rw [Function.update_self, h'.entry_eq_none]
    intro j y hy
    rcases eq_or_ne j i with rfl | hj
    · rw [Function.update_self] at hy
      exact hrest y hy
    · rw [Function.update_of_ne hj] at hy
      exact hothers j hj y hy
  · rw [Function.update_of_ne hk]
    refine Option.ext fun e => ?_
    rw [h'.entry_eq_some, h.entry_eq_some, mem_entries_update h', h.mem_entries_split i, hL]
    simp only [List.mem_append, List.mem_cons]
    grind

theorem add_spec {key : Name} {data : ε} {loc : HashLoc w} {a : Addr}
    (hlookup : dnsLookup qname t key.wire = some (none, loc))
    (hname : (qname data).fold = key.fold) (hfresh : t.cell a = none) :
    ∃ t' L', addDnsHash t data loc (some a) = some (true, t') ∧ Ordered qname t' L' ∧
      entry qname t' = Function.update (entry qname t) key.fold (some data) := by
  rcases h.lookup_cases key with
    ⟨pre, x, post, n, -, -, -, -, hrun⟩ | ⟨pre, post, hL, hentry, hpre, hpost, hrun⟩
  · rw [hrun] at hlookup
    cases hlookup
  · obtain rfl : ⟨placeAfter (dnsHash w key.wire).1 pre, (dnsHash w key.wire).2⟩ = loc := by
      simpa [hrun] using hlookup
    have hmiss := h.entry_eq_none.mp hentry
    rw [← hname] at hmiss
    obtain ⟨l, t', hlink, hset, hrep⟩ :=
      h.represents.insertAt hL hfresh ⟨(dnsHash w key.wire).2, data⟩
    have h' := h.insert hL hrep (dnsHash_congr w hname) (hmiss _) hpre hpost
    refine ⟨t', _, by simp [addDnsHash, hlink, hset], h', ?_⟩
    rw [h.entry_insert hL h', hname]

/-- `del_dns_hash_ent` at the location a successful lookup returned.  The links
the deleted cell was not reached through stay. -/
theorem delEnt_spec {key : Name} {e : ε} {loc : HashLoc w}
    (hlookup : dnsLookup qname t key.wire = some (some e, loc)) :
    ∃ t' i pre x post, delDnsHashEnt t loc = some (e, t') ∧ x.2.data = e ∧
      L i = pre ++ x :: post ∧ (qname e).fold = key.fold ∧
      Ordered qname t' (Function.update L i (pre ++ post)) ∧
      (∀ b, (∀ y ∈ pre ++ [x], b ≠ y.1) → t'.cell b = t.cell b) ∧
      entry qname t' = Function.update (entry qname t) key.fold none := by
  rcases h.lookup_cases key with
    ⟨pre, x, post, n, hL, hfold, hcell, -, hrun⟩ | ⟨pre, post, -, -, -, -, hrun⟩
  · obtain ⟨rfl, rfl⟩ : x.2.data = e ∧
        ⟨placeAfter (dnsHash w key.wire).1 pre, (dnsHash w key.wire).2⟩ = loc := by
      simpa [hrun] using hlookup
    obtain ⟨n', t', hlink, hcell', hset, hrep, hframe⟩ := h.represents.removeAt hL
    have h' := h.remove hL hrep
    refine ⟨t'.free x.1, _, pre, x, post, ?_, rfl, hL, hfold, h', hframe, ?_⟩
    · simp [delDnsHashEnt, hlink, hcell', hset]
    · rw [h.entry_remove hL h', hfold]
  · rw [hrun] at hlookup
    cases hlookup

/-- `del_dns_hash` does what a lookup and the deletion of what it found do. -/
theorem delDnsHash_eq (key : Name) :
    (∃ e loc t', dnsLookup qname t key.wire = some (some e, loc) ∧
      delDnsHashEnt t loc = some (e, t') ∧
      delDnsHash qname t key.wire = some (some e, t')) ∨
    ∃ loc, dnsLookup qname t key.wire = some (none, loc) ∧
      delDnsHash qname t key.wire = some (none, t) := by
  rcases h.search_spec key with
    ⟨pre, x, post, n, hL, -, hcell, hrun⟩ | ⟨pre, post, -, -, -, -, hrun⟩
  · obtain ⟨n', t', hlink, hcell', hset, -, -⟩ := h.represents.removeAt hL
    obtain rfl : n' = n := by
      rw [hcell] at hcell'
      cases hcell'
      rfl
    refine Or.inl ⟨x.2.data,
      ⟨placeAfter (dnsHash w key.wire).1 pre, (dnsHash w key.wire).2⟩, t'.free x.1, ?_, ?_, ?_⟩
    · simp [dnsLookup, hrun]
    · simp [delDnsHashEnt, hlink, hcell, hset]
    · simp [delDnsHash, hrun, hset]
  · refine Or.inr ⟨⟨placeAfter (dnsHash w key.wire).1 pre, (dnsHash w key.wire).2⟩, ?_, ?_⟩
    · simp [dnsLookup, hrun]
    · simp [delDnsHash, hrun]

end Ordered

/-- The tables that calls of the four functions can produce.  A location is used
on the table it was looked up in, `add_dns_hash` for an entry of the name that was
not found, and `malloc` returns an address that is not in use, or none. -/
inductive Reachable (qname : ε → Name) : Table w ε → Prop
  | init : Reachable qname mkDnsHash
  | add {t t' : Table w ε} {key : Name} {data : ε} {loc : HashLoc w}
      {malloc : Option Addr} {ok : Bool} (h : Reachable qname t)
      (hlookup : dnsLookup qname t key.wire = some (none, loc))
      (hname : (qname data).fold = key.fold) (hmalloc : ∀ a ∈ malloc, t.cell a = none)
      (hrun : addDnsHash t data loc malloc = some (ok, t')) : Reachable qname t'
  | delEnt {t t' : Table w ε} {key : Name} {e d : ε} {loc : HashLoc w}
      (h : Reachable qname t) (hlookup : dnsLookup qname t key.wire = some (some e, loc))
      (hrun : delDnsHashEnt t loc = some (d, t')) : Reachable qname t'
  | del {t t' : Table w ε} {key : Name} {r : Option ε} (h : Reachable qname t)
      (hrun : delDnsHash qname t key.wire = some (r, t')) : Reachable qname t'

theorem mkDnsHash_ordered : Ordered qname (mkDnsHash : Table w ε) fun _ => [] where
  represents := ⟨fun _ => rfl, fun _ => List.nodup_nil, fun _ _ _ _ hx => by cases hx⟩
  sorted _ := List.Pairwise.nil
  placed _ _ hx := by cases hx
  distinct _ := List.Pairwise.nil

theorem Reachable.ordered (h : Reachable qname t) : ∃ L, Ordered qname t L := by
  induction h with
  | init => exact ⟨_, mkDnsHash_ordered⟩
  | @add t t' key data loc malloc ok _ hlookup hname hmalloc hrun ih =>
      obtain ⟨L, hL⟩ := ih
      cases malloc with
      | none =>
          obtain ⟨-, rfl⟩ : false = ok ∧ t = t' := by simpa [addDnsHash] using hrun
          exact ⟨L, hL⟩
      | some a =>
          obtain ⟨t'', L', hadd, hL', -⟩ := hL.add_spec hlookup hname (hmalloc a rfl)
          rw [hadd] at hrun
          cases hrun
          exact ⟨L', hL'⟩
  | delEnt _ hlookup hrun ih =>
      obtain ⟨L, hL⟩ := ih
      obtain ⟨t'', i, pre, x, post, hdel, -, -, -, hL', -⟩ := hL.delEnt_spec hlookup
      rw [hdel] at hrun
      cases hrun
      exact ⟨_, hL'⟩
  | del _ hrun ih =>
      obtain ⟨L, hL⟩ := ih
      rcases hL.delDnsHash_eq _ with ⟨e, loc, t'', hlookup, hent, hdel⟩ | ⟨loc, -, hdel⟩
      · rw [hdel] at hrun
        cases hrun
        obtain ⟨t₂, i, pre, x, post, hent', -, -, -, hL', -⟩ := hL.delEnt_spec hlookup
        rw [hent] at hent'
        cases hent'
        exact ⟨_, hL'⟩
      · rw [hdel] at hrun
        cases hrun
        exact ⟨L, hL⟩

theorem finRange_tail {n m : Nat} {i : Fin n} {js ks : List (Fin n)}
    (h : (List.finRange n).drop m = js ++ i :: ks) :
    ks = (List.finRange n).drop (i + 1) := by
  obtain ⟨before, hall⟩ : ∃ before, List.finRange n = before ++ i :: ks := by
    refine ⟨(List.finRange n).take m ++ js, ?_⟩
    rw [List.append_assoc, ← h, List.take_append_drop]
  have hget : (List.finRange n)[before.length]? = some i := by
    rw [hall]
    simp
  obtain ⟨hlt, hi⟩ := List.getElem?_eq_some_iff.mp hget
  have hval : (i : Nat) = before.length := by
    rw [← hi]
    simp
  rw [hval, hall]
  simp

theorem finRange_drop_notMem {n : Nat} (i : Fin n) : i ∉ (List.finRange n).drop (i + 1) := by
  intro hi
  obtain ⟨k, hk, heq⟩ := List.mem_iff_getElem.mp hi
  have := congrArg Fin.val heq
  simp at this
  omega

theorem flatMap_bucketsAfter_update (L : Bucket → List (Addr × HashEnt w ε)) (i : Bucket)
    (new : List (Addr × HashEnt w ε)) :
    (bucketsAfter i).flatMap (Function.update L i new) = (bucketsAfter i).flatMap L := by
  refine List.flatMap_congr fun j hj => Function.update_of_ne (fun hji => ?_) _ _
  rw [hji] at hj
  exact finRange_drop_notMem i hj

/-- The walk stands in a bucket before the cells `r`, and `rest` is still to come. -/
structure Cursor (t : Table w ε) (L : Bucket → List (Addr × HashEnt w ε)) (pos : HashPos)
    (r rest : List (Addr × HashEnt w ε)) : Prop where
  chain : t.Chain pos.ent r
  rest_eq : rest = r ++ (bucketsAfter pos.bucket).flatMap L

theorem fetchScan_spec (hrep : t.Represents L) (is : List Bucket) :
    (is.flatMap L = [] ∧ fetchScan t is = some none) ∨
    ∃ js i ks x r n, is = js ++ i :: ks ∧ is.flatMap L = x :: r ++ ks.flatMap L ∧
      L i = x :: r ∧ t.Chain n r ∧ fetchScan t is = some (some (x.2.data, ⟨i, n⟩)) := by
  induction is with
  | nil => exact Or.inl ⟨rfl, rfl⟩
  | cons i is ih =>
      have hchain := hrep.chain i
      rcases hL : L i with _ | ⟨x, r⟩
      · rw [hL] at hchain
        have hroot : t.root i = none := hchain
        rcases ih with ⟨hnil, hrun⟩ | ⟨js, j, ks, x, r, n, rfl, hflat, hj, hr, hrun⟩
        · exact Or.inl ⟨by simp [hL, hnil], by simp [fetchScan, hroot, hrun]⟩
        · exact Or.inr ⟨i :: js, j, ks, x, r, n, rfl,
            by rw [List.flatMap_cons, hL, hflat, List.nil_append], hj, hr,
            by simp [fetchScan, hroot, hrun]⟩
      · rw [hL] at hchain
        obtain ⟨hroot, n, hcell, hr⟩ := hchain
        exact Or.inr ⟨[], i, is, x, r, n, rfl, by rw [List.flatMap_cons, hL], hL, hr,
          by simp [fetchScan, hroot, hcell]⟩

theorem fetchNext_spec (hrep : t.Represents L) {pos : HashPos}
    {q r rest : List (Addr × HashEnt w ε)} (hL : L pos.bucket = q ++ r)
    (hcur : Cursor t L pos r rest) :
    (rest = [] ∧ fetchNext t pos = some none) ∨
    ∃ x pos' q' r' rest', rest = x :: rest' ∧
      fetchNext t pos = some (some (x.2.data, pos')) ∧
      L pos'.bucket = q' ++ x :: r' ∧ Cursor t L pos' r' rest' := by
  obtain ⟨hchain, rfl⟩ := hcur
  obtain _ | ⟨x, r⟩ := r
  · have hent : pos.ent = none := hchain
    rcases fetchScan_spec hrep (bucketsAfter pos.bucket) with
      ⟨hnil, hrun⟩ | ⟨js, i, ks, x, r, n, his, hflat, hi, hr, hrun⟩
    · exact Or.inl ⟨by simp [hnil], by simp [fetchNext, hent, hrun]⟩
    · refine Or.inr ⟨x, ⟨i, n⟩, [], r, _, by rw [List.nil_append, hflat, List.cons_append],
        by simp [fetchNext, hent, hrun], hi, hr, ?_⟩
      rw [finRange_tail his, bucketsAfter]
  · obtain ⟨hent, n, hcell, hr⟩ := hchain
    exact Or.inr ⟨x, ⟨pos.bucket, n⟩, q, r, _, rfl, by simp [fetchNext, hent, hcell], hL, hr,
      rfl⟩

namespace Ordered

theorem split_unique (h : Ordered qname t L) {i j : Bucket}
    {q r pre post : List (Addr × HashEnt w ε)} {x y : Addr × HashEnt w ε}
    (hi : L i = q ++ x :: r) (hj : L j = pre ++ y :: post)
    (hfold : (qname x.2.data).fold = (qname y.2.data).fold) :
    j = i ∧ pre = q ∧ y = x ∧ post = r := by
  have hx : x ∈ L i := by
    rw [hi]
    simp
  have hy : y ∈ L j := by
    rw [hj]
    simp
  have hhash := h.hash_of_fold hx hfold
  rw [h.placed j y hy] at hhash
  obtain rfl : j = i := congrArg Prod.fst hhash
  have hdistinct := h.distinct j
  rw [hi, List.pairwise_append, List.pairwise_cons] at hdistinct
  have hnotq : y ∉ q := fun hyq =>
    hdistinct.2.2 y hyq x List.mem_cons_self hfold.symm
  have hnotr : y ∉ r := fun hyr => hdistinct.2.1.1 y hyr hfold
  obtain ⟨hq, hxy, hr⟩ := (List.append_cons_inj_of_notMem hnotq hnotr).mp (hi.symm.trans hj)
  exact ⟨rfl, hq.symm, hxy.symm, hr.symm⟩

/-- Deleting the entry just returned leaves the cells the walk goes on to. -/
theorem visit_spec (h : Ordered qname t L) {pos : HashPos}
    {q r rest : List (Addr × HashEnt w ε)} {x : Addr × HashEnt w ε}
    (hL : L pos.bucket = q ++ x :: r) (hcur : Cursor t L pos r rest) (v : Visit) :
    ∃ t' L' q', visit qname t x.2.data v = some t' ∧ Ordered qname t' L' ∧
      L' pos.bucket = q' ++ r ∧ Cursor t' L' pos r rest := by
  have hx : x ∈ L pos.bucket := by
    rw [hL]
    simp
  obtain ⟨loc, hlookup⟩ := h.lookup_eq (qname x.2.data)
  rw [h.entry_eq_some.mpr ⟨h.mem_entries.mpr ⟨_, x, hx, rfl⟩, rfl⟩] at hlookup
  obtain ⟨t', i, pre, y, post, hdel, hdata, hi, -, h', hframe, -⟩ := h.delEnt_spec hlookup
  obtain ⟨rfl, rfl, rfl, rfl⟩ := h.split_unique hL hi (by rw [hdata])
  have hcur' : Cursor t' (Function.update L pos.bucket (pre ++ post)) pos post rest := by
    refine ⟨hcur.chain.frame fun z hz => hframe z.1 fun y' hy' => ?_, ?_⟩
    · have hnodup := h.represents.nodup pos.bucket
      rw [hL, ← List.singleton_append, ← List.append_assoc, List.map_append,
        List.nodup_append] at hnodup
      exact (hnodup.2.2 _ (List.mem_map_of_mem hy') _ (List.mem_map_of_mem hz)).symm
    · rw [hcur.rest_eq, flatMap_bucketsAfter_update]
  cases v with
  | keep => exact ⟨t, L, pre ++ [y], rfl, h, by simpa using hL, hcur⟩
  | del =>
      rcases h.delDnsHash_eq (qname y.2.data) with ⟨e, loc', t₂, hl, hd, hrun⟩ | ⟨loc', hl, -⟩
      · rw [hlookup] at hl
        cases hl
        rw [hdel] at hd
        cases hd
        exact ⟨t', _, pre, by simp [visit, hrun], h', by simp, hcur'⟩
      · rw [hlookup] at hl
        cases hl
  | delEnt => exact ⟨t', _, pre, by simp [visit, hlookup, hdel], h', by simp, hcur'⟩

theorem iterateFrom_spec (choose : List ε → Visit) {rest : List (Addr × HashEnt w ε)}
    (h : Ordered qname t L) {pos : HashPos} {q r : List (Addr × HashEnt w ε)}
    {x : Addr × HashEnt w ε} (hL : L pos.bucket = q ++ x :: r) (hcur : Cursor t L pos r rest)
    {fuel : Nat} (hfuel : rest.length < fuel) (seen : List ε) :
    ∃ t' L', Ordered qname t' L' ∧
      iterateFrom qname choose fuel t (some (x.2.data, pos)) seen =
        some (seen ++ (x :: rest).map (fun y => y.2.data), t') := by
  induction rest generalizing t L pos q r x fuel seen with
  | nil =>
      obtain _ | fuel := fuel
      · simp at hfuel
      · obtain ⟨t', L', q', hvisit, h', hL', hcur'⟩ :=
          h.visit_spec hL hcur (choose (seen ++ [x.2.data]))
        rcases fetchNext_spec h'.represents hL' hcur' with
          ⟨-, hrun⟩ | ⟨y, pos', q'', r', rest', hrest, -⟩
        · exact ⟨t', L', h', by simp [iterateFrom, hvisit, hrun]⟩
        · cases hrest
  | cons y rest ih =>
      obtain _ | fuel := fuel
      · simp at hfuel
      · obtain ⟨t', L', q', hvisit, h', hL', hcur'⟩ :=
          h.visit_spec hL hcur (choose (seen ++ [x.2.data]))
        rcases fetchNext_spec h'.represents hL' hcur' with
          ⟨hrest, -⟩ | ⟨z, pos', q'', r', rest', hrest, hrun, hL'', hcur''⟩
        · cases hrest
        · cases hrest
          obtain ⟨t₂, L₂, h₂, hgo⟩ :=
            ih h' hL'' hcur'' (by simpa using hfuel) (seen ++ [x.2.data])
          exact ⟨t₂, L₂, h₂, by simp [iterateFrom, hvisit, hrun, hgo]⟩

theorem cells_length_le (h : Ordered qname t L) :
    ((List.finRange _).flatMap L).length ≤ t.cells.keys.length := by
  have hnodup : (((List.finRange _).flatMap L).map Prod.fst).Nodup := by
    rw [List.map_flatMap, List.nodup_flatMap]
    refine ⟨fun i _ => h.represents.nodup i, (List.nodup_finRange _).imp ?_⟩
    intro i j hij a hi hj
    obtain ⟨x, hx, rfl⟩ := List.mem_map.mp hi
    obtain ⟨y, hy, heq⟩ := List.mem_map.mp hj
    exact h.represents.apart i j hij x hx y hy heq.symm
  have hsub : ((List.finRange _).flatMap L).map Prod.fst ⊆ t.cells.keys := by
    intro a ha
    obtain ⟨x, hx, rfl⟩ := List.mem_map.mp ha
    obtain ⟨i, -, hx⟩ := List.mem_flatMap.mp hx
    exact AList.mem_keys.mp (AList.lookup_isSome.mp ((h.represents.chain i).cell_some hx))
  simpa using (List.subperm_of_subset hnodup hsub).length_le

/-- A walk over the table visits its entries in order, whatever is deleted on
the way. -/
theorem iterate_eq (h : Ordered qname t L) (choose : List ε → Visit) :
    ∃ t' L', Ordered qname t' L' ∧ iterate qname choose t = some (entries t, t') := by
  have hentries : entries t = ((List.finRange _).flatMap L).map fun y => y.2.data := by
    simp [entries, h.chain_eq, List.map_flatMap]
  rcases fetchScan_spec h.represents (List.finRange _) with
    ⟨hnil, hrun⟩ | ⟨js, i, ks, x, r, n, his, hflat, hi, hr, hrun⟩
  · refine ⟨t, L, h, ?_⟩
    rw [hentries, hnil]
    simp [iterate, fetchFirst, hrun, iterateFrom]
  · have hdrop : (List.finRange _).drop 0 = js ++ i :: ks := by
      rw [List.drop_zero]
      exact his
    have hks : ks = bucketsAfter i := finRange_tail hdrop
    have hlen := h.cells_length_le
    rw [hflat] at hlen
    have hcur : Cursor t L ⟨i, n⟩ r (r ++ ks.flatMap L) :=
      ⟨hr, congrArg (fun is => r ++ is.flatMap L) hks⟩
    obtain ⟨t', L', h', hgo⟩ := iterateFrom_spec choose h (q := []) hi hcur
      (Nat.lt_of_succ_le hlen) []
    refine ⟨t', L', h', ?_⟩
    rw [hentries, hflat]
    simp only [iterate, fetchFirst, hrun, Option.bind_eq_bind, Option.bind_some]
    exact hgo

end Ordered

/-- What the table offers its callers: chains in order, and a finite map from
names, with their case forgotten, to entries. -/
structure MapView (qname : ε → Name) (t : Table w ε) : Prop where
  linked : ∀ i, t.Chain (t.root i) (chain t i)
  sorted : ∀ i, (chain t i).Pairwise fun x y => x.2.rhash ≤ y.2.rhash
  placed : ∀ i, ∀ x ∈ chain t i, dnsHash w (qname x.2.data).wire = (i, x.2.rhash)
  distinct : (entries t).Pairwise fun d e => (qname d).fold ≠ (qname e).fold
  lookup : ∀ key : Name,
    ∃ loc, dnsLookup qname t key.wire = some (entry qname t key.fold, loc)
  add : ∀ (key : Name) (data : ε) (loc : HashLoc w) (a : Addr),
    dnsLookup qname t key.wire = some (none, loc) → (qname data).fold = key.fold →
    t.cell a = none →
    ∃ t', addDnsHash t data loc (some a) = some (true, t') ∧
      entry qname t' = Function.update (entry qname t) key.fold (some data)
  delEnt : ∀ (key : Name) (e : ε) (loc : HashLoc w),
    dnsLookup qname t key.wire = some (some e, loc) →
    ∃ t', delDnsHashEnt t loc = some (e, t') ∧
      entry qname t' = Function.update (entry qname t) key.fold none
  del : ∀ key : Name,
    ∃ t', delDnsHash qname t key.wire = some (entry qname t key.fold, t') ∧
      entry qname t' = Function.update (entry qname t) key.fold none
  iterate : ∀ choose : List ε → Visit,
    ∃ visited t', iterate qname choose t = some (visited, t') ∧
      ∀ k, visited.filter (fun e => (qname e).fold = k) = (entry qname t k).toList

theorem filter_fold_eq {es : List ε} (k : List (List UInt8))
    (hdistinct : es.Pairwise fun d e => (qname d).fold ≠ (qname e).fold) :
    es.filter (fun e => (qname e).fold = k) =
      (es.find? fun e => (qname e).fold = k).toList := by
  induction es with
  | nil => rfl
  | cons d es ih =>
      rw [List.pairwise_cons] at hdistinct
      by_cases hd : (qname d).fold = k
      · have hrest : es.filter (fun e => (qname e).fold = k) = [] := by
          rw [List.filter_eq_nil_iff]
          intro e he hk
          exact hdistinct.1 e he (hd.trans (of_decide_eq_true hk).symm)
        simp [hd, hrest]
      · simpa [hd] using ih hdistinct.2

theorem Ordered.mapView (h : Ordered qname t L) : MapView qname t where
  linked i := by
    rw [h.chain_eq]
    exact h.represents.chain i
  sorted i := by
    rw [h.chain_eq]
    exact h.sorted i
  placed i := by
    rw [h.chain_eq]
    exact h.placed i
  distinct := h.entries_distinct
  lookup := h.lookup_eq
  add key data loc a hlookup hname hfresh := by
    obtain ⟨t', L', hrun, -, hentry⟩ := h.add_spec hlookup hname hfresh
    exact ⟨t', hrun, hentry⟩
  delEnt key e loc hlookup := by
    obtain ⟨t', i, pre, x, post, hrun, -, -, -, -, -, hentry⟩ := h.delEnt_spec hlookup
    exact ⟨t', hrun, hentry⟩
  del key := by
    obtain ⟨loc, hlookup⟩ := h.lookup_eq key
    rcases h.delDnsHash_eq key with ⟨e, loc', t', hl, hdel, hrun⟩ | ⟨loc', hl, hrun⟩
    · obtain ⟨t₂, i, pre, x, post, hdel', -, -, -, -, -, hentry⟩ := h.delEnt_spec hl
      rw [hdel] at hdel'
      cases hdel'
      rw [hl] at hlookup
      obtain ⟨hsome, -⟩ : some e = entry qname t key.fold ∧ loc' = loc := by
        simpa using hlookup
      exact ⟨t', by rw [hrun, ← hsome], hentry⟩
    · rw [hl] at hlookup
      obtain ⟨hnone, -⟩ : none = entry qname t key.fold ∧ loc' = loc := by
        simpa using hlookup
      refine ⟨t, by rw [hrun, ← hnone], ?_⟩
      rw [hnone, Function.update_eq_self]
  iterate choose := by
    obtain ⟨t', -, -, hrun⟩ := h.iterate_eq choose
    exact ⟨entries t, t', hrun, fun k => filter_fold_eq k h.entries_distinct⟩

theorem exists_free (t : Table w ε) : ∃ a, t.cell a = none := by
  obtain ⟨a, ha⟩ := Infinite.exists_notMem_finset t.cells.keys.toFinset
  refine ⟨a, AList.lookup_eq_none.mpr fun hmem => ha ?_⟩
  exact List.mem_toFinset.mpr (AList.mem_keys.mp hmem)

/-- A name that is not in the table can be added. -/
theorem Reachable.exists_add {t : Table w ε} (ht : Reachable qname t) {data : ε}
    (hnew : entry qname t (qname data).fold = none) :
    ∃ t' : Table w ε, Reachable qname t' ∧
      entry qname t' = Function.update (entry qname t) (qname data).fold (some data) := by
  obtain ⟨L, hL⟩ := ht.ordered
  obtain ⟨loc, hlookup⟩ := hL.lookup_eq (qname data)
  rw [hnew] at hlookup
  obtain ⟨a, ha⟩ := exists_free t
  obtain ⟨t', hadd, hentry⟩ := hL.mapView.add (qname data) data loc a hlookup rfl ha
  refine ⟨t', ht.add hlookup rfl ?_ hadd, hentry⟩
  rintro _ ⟨⟩
  exact ha

/-- The hash table refines a finite map on names compared without regard to case. -/
theorem hashTable_refines_map (qname : ε → Name) :
    (∀ a b : Name, a.fold = b.fold → dnsHash w a.wire = dnsHash w b.wire) ∧
    ∀ t : Table w ε, Reachable qname t → MapView qname t := by
  refine ⟨fun a b => dnsHash_congr w, fun t ht => ?_⟩
  obtain ⟨L, hL⟩ := ht.ordered
  exact hL.mapView

/-- Two names in one chain, with the same long hash, one of which is found in capital letters. -/
theorem hashTable_refines_map_oneChain :
    dnsHash 32 (Name.wire ⟨[⟨[97, 98], by decide, by decide⟩]⟩) =
        dnsHash 32 (Name.wire ⟨[⟨[99, 97], by decide, by decide⟩]⟩) ∧
      ∃ t : Table 32 Name, Reachable id t ∧ MapView id t ∧
        (∃ loc, dnsLookup id t (Name.wire ⟨[⟨[65, 66], by decide, by decide⟩]⟩) =
          some (some ⟨[⟨[97, 98], by decide, by decide⟩]⟩, loc)) ∧
        ∃ loc, dnsLookup id t (Name.wire ⟨[⟨[99, 97], by decide, by decide⟩]⟩) =
          some (some ⟨[⟨[99, 97], by decide, by decide⟩]⟩, loc) := by
  have hnone : ∀ k, entry id (mkDnsHash : Table 32 Name) k = none := fun k =>
    mkDnsHash_ordered.entry_eq_none.mpr fun _ _ hx => by cases hx
  obtain ⟨t, ht, hentry⟩ := @Reachable.exists_add 32 Name id mkDnsHash .init
    ⟨[⟨[97, 98], by decide, by decide⟩]⟩ (hnone _)
  obtain ⟨u, hu, hentry'⟩ := @Reachable.exists_add 32 Name id t ht
    ⟨[⟨[99, 97], by decide, by decide⟩]⟩
    (by rw [hentry, Function.update_of_ne (by decide)]; exact hnone _)
  have hview := (hashTable_refines_map (w := 32) (id : Name → Name)).2 u hu
  obtain ⟨loc, hfirst⟩ := hview.lookup ⟨[⟨[65, 66], by decide, by decide⟩]⟩
  obtain ⟨loc', hsecond⟩ := hview.lookup ⟨[⟨[99, 97], by decide, by decide⟩]⟩
  refine ⟨by decide, u, hu, hview, ⟨loc, ?_⟩, loc', ?_⟩
  · rw [hfirst, hentry', hentry]
    rfl
  · rw [hsecond, hentry']
    rfl

end TorAndroid.Dns
