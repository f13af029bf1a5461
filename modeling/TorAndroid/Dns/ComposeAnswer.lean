import TorAndroid.Dns.QueryDecoding
import TorAndroid.Lib.Interaction

/-!
The answer to a query (`compose_answer` of `dns_answer.c`).

What `compose_answer` asks the cache and the resolver for and what it adds to the message are
operations, so that the answer can be followed both as bytes and as a list of records. The
memory for the message and the lists never runs out.
-/

namespace TorAndroid.Dns

open TorAndroid.Lib.Interaction

/-- Types, as the code names them. -/
def tA : Nat := 1
def tNS : Nat := 2
def tCNAME : Nat := 5
def tSOA : Nat := 6
def tAAAA : Nat := 28
def qtMailB : Nat := 253
def qtMailA : Nat := 254

/-- `MAX_HOPS`. -/
def maxHops : Nat := 20

/-- What `compose_answer` does outside of its own lists. -/
inductive AnswerOp : Type → Type where
  /-- `dns_cached_resolve`: an entry, or a return code and `c_soa`. -/
  | resolve (qname : Name) (qtype : Nat) : AnswerOp (Except (Nat × UInt8) Cent)
  /-- `lookup_cache` without wildcards. -/
  | lookup (name : Name) : AnswerOp (Option Cent)
  /-- `getlocalowner`. -/
  | localOwner (name : Name) (tp : Nat) : AnswerOp (Option Name)
  | random : AnswerOp Nat
  | question (q : Question) : AnswerOp Unit
  /-- `add_rr`. -/
  | rr (sect : RrSection) (r : Record) : AnswerOp Unit
  /-- `add_opt_pseudo_rr` with a return code. -/
  | opt (rcode : Nat) : AnswerOp Unit
  /-- Whether an `OPT` pseudo record fits. -/
  | room : AnswerOp Bool

abbrev Composing := Prog AnswerOp

/-- An element of the list `sva`, of the records that were added. -/
structure Sva where
  tp : Nat
  nm : Name
  data : List UInt8
  deriving DecidableEq

/-- `rr_ext_t`. The type is `RRETP_ADD` when only addresses are to be added, and then there is
no owner. -/
structure RrExt where
  tp : Nat
  ttl : Nat
  tnm : List UInt8
  nm : Name

/-- `RRETP_ADD`. -/
def rretpAdd : Nat := 0

structure AnswerLists where
  sva : List Sva
  ar : List RrExt

/-- `ans_ttl`, as the `uint32_t` that `add_rr` takes. -/
def ansTtl (rrset : RrSet) (queryts : Int) : Nat :=
  let ttl := if rrset.flags.isLocal then rrset.ttl
    else max (rrset.ttl - max (queryts - rrset.ts) 0) 0
  (ttl % 2 ^ 32).toNat

/-- `have_rr`. -/
def Cent.haveRr (c : Cent) (tp : Nat) : Bool :=
  (c.getrrset tp).any fun rrset => !rrset.rrs.isEmpty

/-- The record set of an entry unless it is negative. -/
def positiveRrset (cached : Cent) (tp : Nat) : Option RrSet :=
  (cached.getrrset tp).filter fun rrset => !rrset.flags.negative

/-- `follow_cname_chain`. -/
def followCnameChain (c : Cent) : Option Name :=
  (c.getrrset tCNAME).bind fun rrset => rrset.rrs.head?.map Name.ofWire

/-- `randrr` and the loops that go on from the record it chose: the records from it on, and
then those before it. -/
def randrr (rndRecs : Bool) (rrs : List (List UInt8)) : Composing (List (List UInt8)) :=
  if rndRecs && !rrs.isEmpty then do
    let n ← Prog.ask .random
    let cnt := n % rrs.length
    pure (rrs.drop cnt ++ rrs.take cnt)
  else pure rrs

/-- `ar_recs` and `ar_offs`: where a server is named in the data. -/
def arOffs (tp : Nat) : Option Nat :=
  [(2, 0), (3, 0), (4, 0), (7, 0), (15, 2), (33, 6)].lookup tp

section Answer

variable (rndRecs : Bool) (queryts : Int)

/-- A turn of the loop of `add_rrset`. -/
def addAnswerRr (rrn : Name) (tp : Nat) (rrset : RrSet) (l : AnswerLists) (data : List UInt8) :
    Composing AnswerLists := do
  Prog.ask (.rr .answer ⟨rrn, tp, ansTtl rrset queryts, data⟩)
  let sva := if tp = tNS ∨ tp = tA ∨ tp = tAAAA then l.sva ++ [⟨tp, rrn, data⟩] else l.sva
  let ar := (arOffs tp).elim l.ar fun offs => l.ar ++ [⟨rretpAdd, 0, data.drop offs, ⟨[]⟩⟩]
  pure ⟨sva, ar⟩

/-- `add_rrset`. -/
def addRrset (rrn : Name) (tp : Nat) (cached : Cent) (l : AnswerLists) : Composing AnswerLists :=
  match cached.getrrset tp with
  | none => pure l
  | some rrset => do
      let rrs ← randrr rndRecs rrset.rrs
      rrs.foldlM (addAnswerRr queryts rrn tp rrset) l

/-- The types that `add_to_response` adds for a type that was asked for. Nothing where it
fails. -/
def responseTypes (qtype : Nat) (cached : Cent) : Option (List Nat) :=
  let cname := if qtype ≠ tCNAME ∧ qtype ≠ qtAll ∧
      ¬(1 ≤ qtype ∧ qtype ≤ 51 ∧ cached.haveRr qtype) then [tCNAME] else []
  if qtype = 252 ∨ qtype = 251 then none
  else if qtype = qtMailB then some (cname ++ [7, 8, 9])
  else if qtype = qtMailA then some (cname ++ [3, 4])
  else if qtype = qtAll then some (cname ++ cached.iterlist)
  else if 1 ≤ qtype ∧ qtype ≤ 51 then some (cname ++ [qtype])
  else none

/-- `add_to_response`. -/
def addToResponse (rrn : Name) (qtype : Nat) (cached : Cent) (l : AnswerLists) :
    Composing (Option AnswerLists) :=
  match responseTypes qtype cached with
  | none => pure none
  | some tps => do
      let l ← tps.foldlM (fun l tp => addRrset rndRecs queryts rrn tp cached l) l
      pure (some l)

/-- `add_additional_rr`. A record that does not fit counts as added. -/
def addAdditionalRr (rhn : Name) (tp ttl : Nat) (sect : RrSection) (sva : List Sva)
    (data : List UInt8) : Composing (List Sva) :=
  if sva.any fun st => st.tp = tp && rhnicmp st.nm.wire rhn.wire && st.data = data then pure sva
  else do
    Prog.ask (.rr sect ⟨rhn, tp, ttl, data⟩)
    pure (sva ++ [⟨tp, rhn, data⟩])

/-- The part of `add_additional_a` for one type, with `add_additional_rrs`. -/
def addAdditionalRrs (rhn : Name) (tp : Nat) (ae : Cent) (sva : List Sva) :
    Composing (List Sva) :=
  match ae.getrrset tp with
  | none => pure sva
  | some rrset => do
      let rrs ← randrr rndRecs rrset.rrs
      rrs.foldlM (addAdditionalRr rhn tp (ansTtl rrset queryts) .additional) sva

/-- `add_additional_a`. -/
def addAdditionalA (rhn : Name) (sva : List Sva) : Composing (List Sva) := do
  match ← Prog.ask (.lookup rhn) with
  | none => pure sva
  | some ae =>
      let sva ← addAdditionalRrs rndRecs queryts rhn tA ae sva
      addAdditionalRrs rndRecs queryts rhn tAAAA ae sva

/-- How the loop over the questions goes on: with the next question, by `goto cleanup_return`
with a return code, or without an answer. -/
inductive Outcome where
  | goOn (l : AnswerLists) (aa : Bool)
  | finished (rcode : Nat)
  | failed

/-- The `SOA` records of the enclosing domain `c_soa` says there are. -/
def addSoa (qname : Name) (cSoa : UInt8) : Composing Unit :=
  if cSoa ≠ cundef ∧ cSoa.toNat < qname.labels.length then do
    match ← Prog.ask (.lookup (qname.suffix cSoa.toNat)) with
    | none => pure ()
    | some cached =>
        match positiveRrset cached tSOA with
        | none => pure ()
        | some rrset => rrset.rrs.foldlM (fun _ data =>
            Prog.ask (.rr .authority ⟨cached.qname, tSOA, ansTtl rrset queryts, data⟩)) ()
  else pure ()

/-- What is done after `dns_cached_resolve` failed. -/
def resolveFailed (edns : Bool) (qname : Name) (rc : Nat) (cSoa : UInt8) : Composing Outcome :=
  if rc = rcNameerr then do
    addSoa queryts qname cSoa
    if edns then do
      Prog.ask (.opt rc)
      pure (.finished rc)
    else pure (.finished rc)
  else pure (.finished rc)

/-- Whether the answer has no record of the type that was asked for, so that a `SOA` record is
to be named and not name servers. -/
def nothingFound (qtype : Nat) (cached : Cent) : Bool :=
  (1 ≤ qtype && qtype ≤ 51 && !cached.haveRr qtype) ||
    (qtype = qtMailB && !cached.haveRr 7 && !cached.haveRr 8 && !cached.haveRr 9) ||
    (qtype = qtMailA && !cached.haveRr 3 && !cached.haveRr 4)

/-- Where the record set with the authority is if the entry does not have it. -/
def authorityName (rretp : Nat) (prev : Cent) : Name :=
  let tcnt := if rretp = tNS then prev.cNs else prev.cSoa
  if tcnt ≠ cundef ∧ tcnt.toNat < prev.qname.labels.length then prev.qname.suffix tcnt.toNat
  else prev.qname

/-- The search for the record set with the authority, in the entry itself, higher up the
hierarchy, and in local data. -/
def authoritySet (rretp : Nat) (prev : Cent) : Composing (Option (Cent × RrSet)) :=
  match positiveRrset prev rretp with
  | some rrset => pure (some (prev, rrset))
  | none => do
      let cached ← Prog.ask (.lookup (authorityName rretp prev))
      match cached.bind fun c => (positiveRrset c rretp).map fun rrset => (c, rrset) with
      | some x => pure (some x)
      | none =>
          if prev.flags.isLocal then do
            match ← Prog.ask (.localOwner prev.qname rretp) with
            | none => pure none
            | some nm => do
                let cached ← Prog.ask (.lookup nm)
                pure (cached.bind fun c => (c.getrrset rretp).map fun rrset => (c, rrset))
          else pure none

/-- The records of `authoritySet` are put on the list `ar`. -/
def noteAuthority (qtype : Nat) (cached : Cent) (l : AnswerLists) : Composing AnswerLists := do
  let rretp := if nothingFound qtype cached then tSOA else tNS
  match ← authoritySet rretp cached with
  | none => pure l
  | some (c, rrset) =>
      pure { l with ar := l.ar ++ rrset.rrs.map fun data =>
        ⟨rretp, ansTtl rrset queryts, data, c.qname⟩ }

/-- The body of the loop over the names of a chain of aliases; `again` is the next turn. -/
def answerTurn (rd edns : Bool) (qtype : Nat)
    (again : Name → AnswerLists → Bool → Composing Outcome) (qname : Name) (l : AnswerLists)
    (aa : Bool) : Composing Outcome := do
  match ← Prog.ask (.resolve qname qtype) with
  | .error (rc, cSoa) => resolveFailed queryts edns qname rc cSoa
  | .ok cached =>
      match ← addToResponse rndRecs queryts qname qtype cached l with
      | none => pure .failed
      | some l =>
          let aa := aa && cached.flags.isLocal
          let next := if rd ∧ qtype ≠ tCNAME ∧ qtype ≠ qtAll ∧
              ¬(1 ≤ qtype ∧ qtype ≤ 51 ∧ cached.haveRr qtype) then followCnameChain cached
            else none
          match next with
          | some target => again target l aa
          | none => do
              let l ← noteAuthority queryts qtype cached l
              pure (.goOn l aa)

/-- The loop, which goes on as long as `--hops>=0`. -/
def answerChain (rd edns : Bool) (qtype : Nat) :
    Nat → Name → AnswerLists → Bool → Composing Outcome
  | 0 => answerTurn rndRecs queryts rd edns qtype fun _ l aa => pure (.goOn l aa)
  | hops + 1 => answerTurn rndRecs queryts rd edns qtype (answerChain rd edns qtype hops)

/-- The loop over the questions for the answer section. -/
def answerQuestions (rd edns : Bool) : List Question → AnswerLists → Bool → Composing Outcome
  | [], l, aa => pure (.goOn l aa)
  | qe :: ql, l, aa => do
      match ← answerChain rndRecs queryts rd edns qe.qtype.toNat maxHops qe.qname l aa with
      | .goOn l aa => answerQuestions rd edns ql l aa
      | .finished rcode => pure (.finished rcode)
      | .failed => pure .failed

/-- The authority section. -/
def addAuthority (ar : List RrExt) (sva : List Sva) : Composing (List Sva) :=
  ar.foldlM (fun sva rre =>
    if rre.tp = tNS ∨ rre.tp = tSOA then
      addAdditionalRr rre.nm rre.tp rre.ttl .authority sva rre.tnm
    else pure sva) sva

/-- The addresses in the additional section. -/
def addAddresses (ar : List RrExt) (sva : List Sva) : Composing (List Sva) :=
  ar.foldlM (fun sva rre =>
    if rre.tp = tNS ∨ rre.tp = rretpAdd then
      addAdditionalA rndRecs queryts (Name.ofWire rre.tnm) sva
    else pure sva) sva

/-- The additional section, if an `OPT` pseudo record fits. -/
def addAdditionalSection (edns : Bool) (ar : List RrExt) (sva : List Sva) (room : Bool) :
    Composing Unit :=
  if room then do
    if edns then do
      Prog.ask (.opt rcOk)
      let _ ← addAddresses rndRecs queryts ar sva
      pure ()
    else do
      let _ ← addAddresses rndRecs queryts ar sva
      pure ()
  else pure ()

/-- A question that cannot be answered. -/
def Question.unsupported (qe : Question) : Bool :=
  ((slotOf qe.qtype.toNat).isNone && qe.qtype.toNat ≠ qtMailB && qe.qtype.toNat ≠ qtMailA &&
    qe.qtype.toNat ≠ qtAll) || (qe.qclass.toNat ≠ 1 && qe.qclass.toNat ≠ 255)

/-- The answer and authority sections. -/
def composeSections (rd edns : Bool) (ql : List Question) : Composing Outcome := do
  if ql.any Question.unsupported then pure (.finished rcNotsupp)
  else do
    match ← answerQuestions rndRecs queryts rd edns ql ⟨[], []⟩ true with
    | .goOn l aa => do
        let sva ← addAuthority l.ar l.sva
        pure (.goOn { l with sva := sva } aa)
    | o => pure o

/-- The part of `compose_answer` before the additional section. -/
def composeFront (rd edns : Bool) (ql : List Question) : Composing Outcome := do
  ql.foldlM (fun _ qe => Prog.ask (.question qe)) ()
  composeSections rndRecs queryts rd edns ql

/-- The rest of it: the return code and the bit `aa` of the answer, unless there is none. -/
def composeRest (edns : Bool) : Outcome → Composing (Option (Nat × Bool))
  | .failed => pure none
  | .finished rcode => pure (some (rcode, false))
  | .goOn l aa => do
      addAdditionalSection rndRecs queryts edns l.ar l.sva (← Prog.ask .room)
      pure (some (rcOk, aa))

/-- `compose_answer`. -/
def composeAnswer (rd edns : Bool) (ql : List Question) : Composing (Option (Nat × Bool)) := do
  composeRest rndRecs queryts edns (← composeFront rndRecs queryts rd edns ql)

end Answer

end TorAndroid.Dns
