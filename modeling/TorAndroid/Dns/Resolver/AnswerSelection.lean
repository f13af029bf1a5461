import TorAndroid.Dns.Resolver.ServersCustody
import Mathlib.Data.List.MinMax

namespace TorAndroid.Dns.Resolver

open TorAndroid.Lib.Interaction

/-- An answer that `auth_ok` has judged, with the query it is from. -/
structure Judged where
  st : QueryServ
  authok : Bool
  ent : Cent

def Judged.quality (j : Judged) : Nat :=
  j.st.quality j.authok

/-- An answer for which nobody else is asked. -/
def Judged.good (j : Judged) : Bool :=
  j.authok && j.st.failed = 0 && !(j.st.qm = .udpTcp && j.st.tc)

/-- The answers that were judged, in the order in which they came. -/
def judging : Contract (Joined NetOp AskOp) (List Judged) where
  pre := fun {_} _ _ => True
  post := fun {_} _ _ => True
  next := fun {_} op b log =>
    match op, b with
    | .inr (.authOk _ ent st _), .verdict authok _ => log ++ [⟨st, authok, ent⟩]
    | _, _ => log

/-- What was saved is the first of the best answers so far, of which none is good. -/
structure Selecting (s : Sched) (log : List Judged) : Prop where
  bad : ∀ j ∈ log, j.good = false
  empty : s.saved = none → log = []
  best : ∀ saved, s.saved = some saved → ∃ j, log.argmax Judged.quality = some j ∧
    saved.found.ent.val = j.ent ∧ saved.qualval = j.quality

/-- The first good answer ends the loops. -/
def StopsAt : Stop → List Judged → Prop
  | .answer _ found, log => ∃ before j, log = before ++ [j] ∧ (∀ k ∈ before, k.good = false) ∧
      j.good = true ∧ found.ent.val = j.ent
  | _, log => ∀ j ∈ log, j.good = false

variable {s : Sched} {log : List Judged} {cfg : ResolverConfig}

theorem judging_beside {α : Type} {R : α → Prop} {p : Prog NetOp α} (hp : p.Yields R) :
    Ensures judging (fun a log' => log' = log ∧ R a) p.beside log :=
  hp.beside (fun _ => trivial) fun _ _ => rfl

theorem unreachable_yields {α : Type} {R : α → Prop} : (unreachable : Prog NetOp α).Yields R :=
  fun b => b.elim

/-- Either the old answer is at least as good, or it is replaced. -/
def SavedBest (s : Sched) (found : Found) (qval : Nat) (s' : Sched) : Prop :=
  (s' = s ∧ ∃ old, s.saved = some old ∧ qval ≤ old.qualval) ∨
    ((∀ old, s.saved = some old → old.qualval < qval) ∧
      ∃ saved, s' = { s with saved := some saved } ∧ saved.found.ent = found.ent ∧
        saved.qualval = qval)

theorem saveQueryResult_yields {i : Nat} {st : QueryServ} {found : Found} {authok : Bool} :
    (saveQueryResult s i st found authok).Yields (SavedBest s found (st.quality authok)) := by
  have hnew : (∀ old, s.saved = some old → old.qualval < st.quality authok) →
      Prog.Yields (SavedBest s found (st.quality authok))
        (if found.serv.items.isEmpty then do
          freeBlock found.ns.block
          pure { s with saved := some ⟨{ found with ns := noNs }, st.quality authok, i⟩ }
        else pure { s with saved := some ⟨found, st.quality authok, i⟩ } : Prog NetOp Sched) := by
    intro hless
    split_ifs
    · exact (yields_trivial _).bind fun _ _ => .inr ⟨hless, _, rfl, rfl, rfl⟩
    · exact .inr ⟨hless, _, rfl, rfl, rfl⟩
  rw [saveQueryResult]
  cases hsaved : s.saved with
  | none =>
      refine hnew ?_
      rw [hsaved]
      rintro old ⟨⟩
  | some old =>
      dsimp only [Option.any_some, Option.elim_some]
      split
      · rename_i hold
        exact (yields_trivial _).bind fun _ _ => .inl ⟨rfl, old, hsaved, by simpa using hold⟩
      · rename_i hold
        refine (yields_trivial _).bind fun _ _ => hnew ?_
        rw [hsaved]
        rintro _ ⟨⟩
        simpa using hold

/-- One more answer that is not good. -/
theorem Selecting.judged {found : Found} {j : Judged} {s' : Sched} (h : Selecting s log)
    (hbad : j.good = false) (hent : found.ent.val = j.ent)
    (hsave : SavedBest s found j.quality s') :
    Selecting s' (log ++ [j]) := by
  have hall : ∀ k ∈ log ++ [j], k.good = false := by
    intro k hk
    rcases List.mem_append.mp hk with hk | hk
    · exact h.bad k hk
    · rw [List.mem_singleton.mp hk]
      exact hbad
  rcases hsave with ⟨rfl, old, hold, hle⟩ | ⟨hless, saved, rfl, hsavedEnt, hqual⟩
  · refine ⟨hall, fun hnone => ?_, fun saved hsaved => ?_⟩
    · rw [hold] at hnone
      cases hnone
    · obtain ⟨k, hk, hkent, hkqual⟩ := h.best saved hsaved
      rw [hold] at hsaved
      obtain rfl : old = saved := Option.some.inj hsaved
      refine ⟨k, ?_, hkent, hkqual⟩
      rw [List.argmax_concat, hk]
      exact if_neg (hkqual ▸ hle).not_gt
  · refine ⟨hall, ?_, ?_⟩
    · rintro ⟨⟩
    · rintro _ ⟨⟩
      refine ⟨j, ?_, by rw [hsavedEnt, hent], hqual⟩
      rw [List.argmax_concat]
      cases hold : s.saved with
      | none =>
          rw [h.empty hold]
          rfl
      | some old =>
          obtain ⟨k, hk, -, hkqual⟩ := h.best old hold
          rw [hk]
          exact if_pos (hkqual ▸ hless old hold)

theorem Selecting.of_saved {s' : Sched} (h : Selecting s log) (hs : s'.saved = s.saved) :
    Selecting s' log :=
  ⟨h.bad, fun hn => h.empty (hs ▸ hn), fun saved hsaved => h.best saved (hs ▸ hsaved)⟩

/-- What is true after a part of the loops. -/
def Selected {σ : Type} (sched : σ → Sched) (r : σ × Option Stop) (log : List Judged) : Prop :=
  r.2.elim (Selecting (sched r.1) log) fun stop => StopsAt stop log

theorem tryServer_selects {i times : Nat} (h : Selecting s log) :
    Ensures judging (Selected id) (tryServer i times s) log := by
  induction times generalizing s log with
  | zero =>
    exact (judging_beside (R := fun _ => False) unreachable_yields).weaken fun _ _ hr => hr.2.elim
  | succ times ih =>
      rw [tryServer]
      cases s.q[i]? with
      | none =>
        exact (judging_beside (R := fun _ => False) unreachable_yields).weaken
          fun _ _ hr => hr.2.elim
      | some st =>
          refine ensures_ask_bind trivial fun r _ => ?_
          change Ensures judging _ _ log
          have hsame : ∀ rv, Selecting
            { s with q := s.q.set i r.st, rv := rv, cSoa := r.cSoa } log :=
            fun rv => h.of_saved rfl
          dsimp only
          cases r.rv with
          | again => exact ensures_pure (hsame .again)
          | rc code =>
              cases r.ent with
              | none =>
                  dsimp only
                  split_ifs
                  · exact ensures_pure h.bad
                  · exact ensures_pure (hsame (.rc code))
              | some ent =>
                  dsimp only
                  refine ensures_ask_bind trivial ?_
                  rintro (_ | ⟨authok, serv⟩) -
                  · exact ensures_pure h.bad
                  · change Ensures judging _ _ (log ++ [⟨r.st, authok, ent.val⟩])
                    dsimp only
                    split
                    · rename_i hgood
                      exact ensures_pure ⟨log, _, rfl, h.bad, hgood, rfl⟩
                    · rename_i hgood
                      refine (judging_beside saveQueryResult_yields).bind ?_
                      rintro s' _ ⟨rfl, hsave⟩
                      have hjudged := @Selecting.judged _ log ⟨ent, serv, r.ns⟩
                        ⟨r.st, authok, ent.val⟩ s' (hsame (.rc code))
                          (by simpa [Judged.good] using hgood)
                        rfl hsave
                      split
                      · exact ih (hjudged.of_saved rfl)
                      · exact ensures_pure hjudged

theorem noteDone_saved {i : Nat} : (noteDone i s).saved = s.saved := by
  rw [noteDone]
  split_ifs <;> rfl

theorem sendTurn_selects {j i : Nat} (h : Selecting s log) :
    Ensures judging (fun r log => r.2.elim (Selecting r.1 log) fun p => StopsAt p.2 log)
      (sendTurn j i s) log := by
  rw [sendTurn]
  split_ifs
  · refine (tryServer_selects h).bind ?_
    rintro ⟨s', stop⟩ log' hs'
    cases stop with
    | some stop => exact ensures_pure hs'
    | none =>
        have hs' : Selecting s' log' := hs'
        exact ensures_pure (hs'.of_saved noteDone_saved)
  · exact ensures_pure (h.of_saved noteDone_saved)

theorem retryByUdp_selects {i count : Nat} {st : QueryServ} (h : Selecting s log) :
    Ensures judging (Selected Prod.fst)
      (do
        net (.close st.sock)
        let st ← (switchToUdp st).beside
        let (s, stop) ← tryServer i 2 (s.setQuery i st)
        pure ((s, count + 1), stop)) log := by
  refine ensures_ask_bind trivial fun _ _ => ?_
  refine (judging_beside (yields_trivial _)).bind ?_
  rintro st' _ ⟨rfl, -⟩
  have hnext : Selecting (s.setQuery i st') _ := h.of_saved rfl
  refine (tryServer_selects hnext).bind ?_
  rintro ⟨s', stop⟩ log' hs'
  exact ensures_pure hs'

theorem timeoutTurn_selects {i : Nat} {x : Sched × Nat} (h : Selecting x.1 log) :
    Ensures judging (Selected Prod.fst) (timeoutTurn i x) log := by
  obtain ⟨s, count⟩ := x
  rw [timeoutTurn]
  dsimp only
  cases s.q[i]? with
  | none =>
    exact (judging_beside (R := fun _ => False) unreachable_yields).weaken fun _ _ hr => hr.2.elim
  | some st =>
      dsimp only
      split_ifs
      · exact retryByUdp_selects h
      · exact ensures_pure (h.of_saved rfl)
      · exact retryByUdp_selects h
      · exact ensures_pure (h.of_saved rfl)

theorem eventTurn_selects {i : Nat} {x : Sched × Polls × Int} (h : Selecting x.1 log) :
    Ensures judging (Selected Prod.fst) (eventTurn i x) log := by
  obtain ⟨s, polls, nevents⟩ := x
  rw [eventTurn]
  dsimp only
  cases s.q[i]? with
  | none =>
    exact (judging_beside (R := fun _ => False) unreachable_yields).weaken fun _ _ hr => hr.2.elim
  | some st =>
      dsimp only
      split_ifs
      · exact ensures_pure (h.of_saved noteDone_saved)
      · cases polls.dropWhile fun p => p.1 ≠ st.sock with
        | nil =>
          exact (judging_beside (R := fun _ => False) unreachable_yields).weaken
            fun _ _ hr => hr.2.elim
        | cons p polls =>
            dsimp only
            split_ifs
            · refine (tryServer_selects h).bind ?_
              rintro ⟨s', stop⟩ log' hs'
              cases stop with
              | some stop => exact ensures_pure hs'
              | none =>
                  have hs' : Selecting s' log' := hs'
                  exact ensures_pure (hs'.of_saved noteDone_saved)
            · exact ensures_pure (h.of_saved noteDone_saved)

/-- What is true after a turn of the loop around `poll`. -/
def PollSelected (r : Sched × PollEnd) (log : List Judged) : Prop :=
  match r.2 with
  | .stop stop => StopsAt stop log
  | _ => Selecting r.1 log

theorem pollTurn_selects {j mc : Nat} {ts0 ts : Int} (h : Selecting s log) :
    Ensures judging PollSelected (pollTurn cfg j mc ts0 ts s) log := by
  have hfail : Selecting { s with rv := .rc rcServfail } log := h.of_saved rfl
  rw [pollTurn]
  dsimp only
  split_ifs
  · exact ensures_pure (h.of_saved rfl)
  · refine ensures_ask_bind trivial fun now _ => ?_
    refine ensures_ask_bind trivial ?_
    change ∀ a, _ → Ensures judging _ _ log
    rintro (_ | ⟨nevents, revents⟩) -
    · exact ensures_pure h.bad
    · cases nevents with
      | zero =>
          refine (ensures_untilStop (I := fun x log => Selecting x.1 log) (T := StopsAt)
            (fun i x log hx => timeoutTurn_selects hx) hfail).bind ?_
          rintro ⟨⟨s', count⟩, stop⟩ log' hx
          cases stop with
          | some stop => exact ensures_pure hx
          | none =>
              have hx : Selecting s' log' := hx
              dsimp only
              split_ifs
              · refine ensures_ask_bind trivial fun now _ => ensures_pure ?_
                change PollSelected _ log'
                split_ifs <;> exact hx
              · exact ensures_pure hx
      | succ nevents =>
          refine (ensures_untilStop (I := fun x log => Selecting x.1 log) (T := StopsAt)
            (fun i x log hx => eventTurn_selects hx) hfail).bind ?_
          rintro ⟨⟨s', polls, left⟩, stop⟩ log' hx
          cases stop with
          | some stop => exact ensures_pure hx
          | none =>
              have hx : Selecting s' log' := hx
              dsimp only
              split_ifs
              · exact ensures_pure hx.bad
              · exact ensures_pure hx

theorem pollLoop_selects {j mc rounds : Nat} {ts0 ts : Int} (h : Selecting s log) :
    Ensures judging (fun r log => r.2.elim (Selecting r.1 log) fun p => StopsAt p.2 log)
      (pollLoop cfg j mc ts0 ts rounds s) log := by
  induction rounds generalizing s log with
  | zero => exact ensures_pure h.bad
  | succ rounds ih =>
      rw [pollLoop]
      refine (pollTurn_selects h).bind ?_
      rintro ⟨s', turn⟩ log' hx
      cases turn with
      | stop stop => exact ensures_pure hx
      | leave => exact ensures_pure hx
      | again =>
          have hx : Selecting s' log' := hx
          dsimp only
          split_ifs
          · exact ih hx
          · exact ensures_pure hx

theorem askGroup_selects {rounds j : Nat} {ts0 : Int} (h : Selecting s log) :
    Ensures judging (fun r log => r.2.elim (Selecting r.1 log) fun p => StopsAt p.2 log)
      (askGroup cfg rounds ts0 j s) log := by
  rw [askGroup]
  dsimp only
  refine (ensures_untilStop (I := Selecting) (T := fun p log => StopsAt p.2 log)
    (fun i x log hx => sendTurn_selects hx) h).bind ?_
  rintro ⟨s', stop⟩ log' hx
  cases stop with
  | some stop => exact ensures_pure hx
  | none =>
      have hx : Selecting s' log' := hx
      dsimp only
      split_ifs
      · refine ensures_ask_bind trivial fun ts _ => ?_
        exact pollLoop_selects hx
      · exact ensures_pure hx

theorem stopQueries_yields {mc : Nat} : (stopQueries mc s).Yields fun s' => s'.saved = s.saved := by
  rw [stopQueries]
  refine Prog.Yields.bind (R := fun s' => s'.saved = s.saved) ?_ fun s' hs' =>
    (yields_trivial _).bind fun _ _ => yields_pure hs'
  refine Prog.Yields.foldlM (fun i s' hs' => ?_) rfl
  cases s'.q[i]? with
  | none => exact unreachable_yields
  | some st => exact (yields_trivial _).bind fun _ _ => yields_pure hs'

/-- The answer of all that were judged. -/
def Chosen (log : List Judged) (found : Found) : Prop :=
  (∃ before j, log = before ++ [j] ∧ (∀ k ∈ before, k.good = false) ∧ j.good = true ∧
    found.ent.val = j.ent) ∨
  ((∀ k ∈ log, k.good = false) ∧ ∃ j, log.argmax Judged.quality = some j ∧
    found.ent.val = if j.quality < goodQual then markNocache j.ent else j.ent)

/-- What is reported in the end: the answer that is chosen, or an error when no answer was good. -/
def ChosenFrom (asked : Asked) (log : List Judged) : Prop :=
  (∀ found i, asked.outcome = .ok (found, i) → Chosen log found) ∧
    ∀ rv, asked.outcome = .error rv → ∀ j ∈ log, j.good = false

theorem chosenFrom_ok {q : List QueryServ} {cSoa : Option UInt8} {found : Found} {i : Nat}
    (h : Chosen log found) : ChosenFrom ⟨q, cSoa, .ok (found, i)⟩ log := by
  refine ⟨?_, ?_⟩
  · rintro _ _ ⟨⟩
    exact h
  · rintro rv ⟨⟩

theorem chosenFrom_error {q : List QueryServ} {cSoa : Option UInt8} {rv : Rv}
    (h : ∀ j ∈ log, j.good = false) : ChosenFrom ⟨q, cSoa, .error rv⟩ log := by
  refine ⟨?_, fun _ _ => h⟩
  rintro _ _ ⟨⟩

/-- Whichever servers answer, in whatever order: the first good answer is taken. If there is none,
the first of the best answers is taken, and marked so that it is not used from the cache later if
its quality is not good. An error is reported only if there was no good answer. -/
theorem askServers_chooses (cfg : ResolverConfig) (rounds : Nat) (q : List QueryServ)
    (cSoa : Option UInt8) :
    Ensures judging ChosenFrom (askServers cfg rounds q cSoa) [] := by
  have hstart : Selecting ⟨q, 0, none, .rc rcServfail, cSoa⟩ [] :=
    ⟨fun _ hj => (by cases hj), fun _ => rfl, fun _ h => (by cases h)⟩
  rw [askServers]
  refine ensures_ask_bind trivial fun ts0 _ => ?_
  refine (ensures_untilStop (I := Selecting) (T := fun p log => StopsAt p.2 log)
    (fun j x log hx => askGroup_selects hx) hstart).bind ?_
  rintro ⟨s, _ | ⟨mc, stop⟩⟩ log hx
  · have hx : Selecting s log := hx
    refine (judging_beside stopQueries_yields).bind ?_
    rintro s' _ ⟨rfl, hsaved⟩
    refine ensures_pure ?_
    rw [hsaved]
    cases hsave : s.saved with
    | none => exact chosenFrom_error hx.bad
    | some saved =>
        obtain ⟨j, hj, hent, hqual⟩ := hx.best saved hsave
        refine chosenFrom_ok (.inr ⟨hx.bad, j, hj, ?_⟩)
        rw [Saved.use, ← hqual, ← hent]
        split_ifs <;> rfl
  · have hx : StopsAt stop log := hx
    have hquiet : ∀ {α : Type} (p : Prog NetOp α),
      Ensures judging (fun _ log' => log' = log) p.beside log :=
      fun p => (judging_beside (yields_trivial p)).weaken fun _ _ h => h.1
    cases stop with
    | answer i found =>
        refine (hquiet _).bind ?_
        rintro - _ rfl
        refine (hquiet _).bind ?_
        rintro s' _ rfl
        exact ensures_pure (chosenFrom_ok (.inl hx))
    | code code =>
        refine (hquiet _).bind ?_
        rintro - _ rfl
        refine (hquiet _).bind ?_
        rintro s' _ rfl
        exact ensures_pure (chosenFrom_error hx)
    | noMemory ent ns =>
        refine ensures_ask_bind trivial fun _ _ => ?_
        refine (hquiet _).bind ?_
        rintro - _ rfl
        refine (hquiet _).bind ?_
        rintro s' _ rfl
        refine (hquiet _).bind ?_
        rintro - _ rfl
        exact ensures_pure (chosenFrom_error hx)

end TorAndroid.Dns.Resolver
