import BeeLlama.Batch.Alloc

/-!
# The splitters (`split_simple`, `split_seq`, `split_equal`, `ubatch_add`)

A splitter picks unused tokens, marks them and makes a ubatch of them; the empty ubatch says that
no token is left. A scan of the batch is a recursion over the tokens that are left to look at.

`Splits` is a caller's loop: the same splitter until it returns the empty ubatch.
-/

namespace BeeLlama

/-- `llama_ubatch`: `pos` has a section of `n_tokens` entries for each position input, `seqIdData`
the ids of the rows, one row after the other. -/
structure LlamaUbatch (E : Type) where
  equalSeqs : Bool
  nTokens : Nat
  nSeqTokens : Nat
  nSeqs : Nat
  nPos : Nat
  token : Option (List Int)
  embd : Option (List E)
  pos : List Int
  nSeqId : List Nat
  seqIdData : List Int
  seqIdUnq : List Nat
  output : List Int

/-- The ids of row `r`: `seq_id[r]` points behind the ids of the rows before it. -/
def LlamaUbatch.seqId {E : Type} (u : LlamaUbatch E) (r : Nat) : List Int :=
  (u.seqIdData.drop (u.nSeqId.take r).sum).take (u.nSeqId.getD r 0)

/-- Where a splitter stops. -/
inductive SplitFail where
  /-- A read past an array of the batch. -/
  | outOfBounds
  /-- `GGML_ASSERT(n_ubatch > n_keep_tail)`. -/
  | keepTail
deriving DecidableEq

/-- Entries of an array, in the order of `is`. -/
def readAll {α : Type} (l : List α) : List Nat → Option (List α)
  | [] => some []
  | i :: is =>
    match l[i]?, readAll l is with
    | some x, some r => some (x :: r)
    | _, _ => none

/-- An array that may be null. -/
def readOpt {α : Type} (l : Option (List α)) (is : List Nat) : Option (Option (List α)) :=
  match l with
  | none => some none
  | some l => (readAll l is).map some

namespace BatchAllocr

variable {E : Type}

/-- `split_reset`. -/
def splitReset (a : BatchAllocr E) : BatchAllocr E :=
  { a with outIds := [], nUsed := 0, used := fun _ => false }

/-- `used[i] = true; ++n_used`. -/
def mark (a : BatchAllocr E) (idxs : List Nat) : BatchAllocr E :=
  { a with used := fun i => a.used i || decide (i ∈ idxs), nUsed := a.nUsed + idxs.length }

/-- `used[i] = false; --n_used`. -/
def unmark (a : BatchAllocr E) (idxs : List Nat) : BatchAllocr E :=
  { a with used := fun i => a.used i && !decide (i ∈ idxs), nUsed := a.nUsed - idxs.length }

/-- `batch.logits[i]`, as a flag. -/
def isOutput (a : BatchAllocr E) (i : Nat) : Bool := a.batch.logits.getD i 0 != 0

/-- The entries of `batch.embd` that the rows copy. -/
def embdIdx (a : BatchAllocr E) (idxs : List Nat) : List Nat :=
  idxs.flatMap fun i => (List.range a.nEmbd).map fun e => i * a.nEmbd + e

/-- The entries of `batch.pos` that the rows copy, section by section: a text token has the same
position in all of them. -/
def posIdx (a : BatchAllocr E) (idxs : List Nat) : List Nat :=
  (List.range a.nPosPerEmbd).flatMap fun j => idxs.map fun i =>
    (if a.batch.token.isSome then 0 else j * a.batch.nTokens) + i

/-- `ubatch_add`. -/
def ubatchAdd (a : BatchAllocr E) (idxs : List Nat) (nSeqs : Nat) (equalSeqs : Bool) :
    Except SplitFail (Option (LlamaUbatch E) × BatchAllocr E) :=
  match readOpt a.batch.token idxs, readOpt a.batch.embd (a.embdIdx idxs),
      readAll a.batch.pos (a.posIdx idxs), readAll a.batch.seqId idxs,
      readAll a.batch.logits idxs with
  | some token, some embd, some pos, some seqId, some output =>
    .ok (some {
        equalSeqs
        nTokens := idxs.length
        nSeqTokens := idxs.length / nSeqs
        nSeqs
        nPos := a.nPosPerEmbd
        token, embd, pos
        nSeqId := seqId.map List.length
        seqIdData := seqId.flatten
        seqIdUnq := (List.range a.nSeqMax).filter fun s => decide ((s : Int) ∈ seqId.flatten)
        output },
      { a with outIds := a.outIds ++ idxs.filter a.isOutput })
  | _, _, _, _, _ => .error .outOfBounds

/-- The first unused token. -/
def firstUnused (a : BatchAllocr E) : Option Nat :=
  (List.range a.batch.nTokens).find? fun i => !a.used i

/-- The tokens from `cur` on. -/
def tokensFrom (a : BatchAllocr E) (cur : Nat) : List Nat :=
  List.range' cur (a.batch.nTokens - cur)

/-- The loop of `split_simple`. -/
def simpleLoop (nUbatch : Nat) : List Nat → List Nat → List Nat
  | [], idxs => idxs
  | i :: rest, idxs =>
    let idxs := idxs ++ [i]
    if idxs.length ≥ nUbatch then idxs else simpleLoop nUbatch rest idxs

/-- `split_simple`. -/
def splitSimple (a : BatchAllocr E) (nUbatch : Nat) :
    Except SplitFail (Option (LlamaUbatch E) × BatchAllocr E) :=
  match a.firstUnused with
  | none => .ok (none, a)
  | some cur =>
    let idxs := simpleLoop nUbatch (a.tokensFrom cur) []
    (a.mark idxs).ubatchAdd idxs idxs.length false

/-- The loop of `split_seq`: the next token has a subset of the sequences of the last one. -/
def seqLoop (a : BatchAllocr E) (nUbatch : Nat) :
    List Nat → Finset Nat → List Nat → List Nat
  | [], _, idxs => idxs
  | i :: rest, curSeqSet, idxs =>
    if a.used i ∨ curSeqSet ∩ a.batch.seqSet i ≠ a.batch.seqSet i then
      seqLoop a nUbatch rest curSeqSet idxs
    else
      let idxs := idxs ++ [i]
      if idxs.length ≥ nUbatch then idxs
      else seqLoop a nUbatch rest (a.batch.seqSet i) idxs

/-- `split_seq`. -/
def splitSeq (a : BatchAllocr E) (nUbatch : Nat) :
    Except SplitFail (Option (LlamaUbatch E) × BatchAllocr E) :=
  match a.firstUnused with
  | none => .ok (none, a)
  | some cur =>
    let idxs := a.seqLoop nUbatch (a.tokensFrom cur) (a.batch.seqSet cur) []
    (a.mark idxs).ubatchAdd idxs 1 true

/-- The sequence sets of the next ubatch of `split_equal`; no two of them share a sequence. -/
def curSeqSets (a : BatchAllocr E) (nUbatch : Nat) (sequential : Bool) :
    List Nat → List (Finset Nat) → Int → List (Finset Nat)
  | [], sets, _ => sets
  | i :: rest, sets, lastSeqId =>
    if a.used i then curSeqSets a nUbatch sequential rest sets lastSeqId
    else
      let seqId := (a.batch.seqId.getD i []).headD 0
      if (∀ set ∈ sets, set ∩ a.batch.seqSet i = ∅) ∧
          (sequential → sets = [] ∨ seqId = lastSeqId + 1) then
        let sets := sets ++ [a.batch.seqSet i]
        if sets.length > nUbatch then sets
        else curSeqSets a nUbatch sequential rest sets seqId
      else curSeqSets a nUbatch sequential rest sets lastSeqId

/-- The tokens of a sequence set: `idxs_per_seq[s]`, and `seq_set_map` from `cur_idx[s]` on. -/
structure SeqIdxs where
  idxs : List Nat := []
  rest : List Nat
deriving DecidableEq

def SeqIdxs.push (p : SeqIdxs) : SeqIdxs := ⟨p.idxs ++ p.rest.take 1, p.rest.drop 1⟩

/-- The loop of `split_equal`: one token of each set in a round. -/
def expand (nUbatch : Nat) : Nat → List SeqIdxs → List SeqIdxs
  | 0, ps => ps
  | fuel + 1, ps =>
    if ∀ p ∈ ps, p.rest ≠ [] then
      let ps := ps.map SeqIdxs.push
      if ((ps.map fun p => p.idxs.length).headD 0 + 1) * ps.length > nUbatch then ps
      else expand nUbatch fuel ps
    else ps

/-- The sequences that end in this ubatch or have `n_keep_tail` tokens left: the longest prefix. -/
def nKeep (nKeepTail : Nat) (ps : List SeqIdxs) : Nat :=
  (ps.takeWhile fun p => p.rest.length == 0 || decide (nKeepTail ≤ p.rest.length)).length

/-- The tokens of the sets, one set after the other. -/
def concat (ps : List SeqIdxs) : List Nat := ps.flatMap SeqIdxs.idxs

/-- Keep the last `n_keep_tail` tokens of a sequence together. -/
def keepTail (a : BatchAllocr E) (nUbatch nKeepTail : Nat) :
    List SeqIdxs → BatchAllocr E × List SeqIdxs
  | [] => (a, [])
  | p :: ps =>
    let n := nKeep nKeepTail (p :: ps)
    if n = 0 then
      if p.idxs.length + p.rest.length ≤ nUbatch then
        ((a.mark p.rest).unmark (concat ps), [⟨p.idxs ++ p.rest, []⟩])
      else
        let k := p.idxs.length - (nKeepTail - p.rest.length)
        ((a.unmark (p.idxs.drop k)).unmark (concat ps), [⟨p.idxs.take k, p.idxs.drop k ++ p.rest⟩])
    else (a.unmark (concat ((p :: ps).drop n)), (p :: ps).take n)

/-- `split_equal`. -/
def splitEqual (a : BatchAllocr E) (nUbatch : Nat) (sequential : Bool) (nKeepTail : Nat) :
    Except SplitFail (Option (LlamaUbatch E) × BatchAllocr E) :=
  if sequential && a.hasCpl then .ok (none, a)
  else
    let sets := a.curSeqSets nUbatch sequential (List.range a.batch.nTokens) [] (-1)
    if sets = [] then .ok (none, a)
    else
      let ps := expand nUbatch a.batch.nTokens
        (sets.map fun set => { rest := (a.batch.seqSetMap set).dropWhile a.used })
      let a := a.mark (concat ps)
      if nKeepTail > 0 then
        if ¬ nUbatch > nKeepTail then .error .keepTail
        else
          let r := a.keepTail nUbatch nKeepTail ps
          r.1.ubatchAdd (concat r.2) r.2.length true
      else a.ubatchAdd (concat ps) ps.length true

end BatchAllocr

/-- A splitter with its arguments. -/
inductive Splitter where
  | simple
  | seq
  | equal (sequential : Bool) (nKeepTail : Nat)

def Splitter.split {E : Type} (sp : Splitter) (a : BatchAllocr E) (nUbatch : Nat) :
    Except SplitFail (Option (LlamaUbatch E) × BatchAllocr E) :=
  match sp with
  | .simple => a.splitSimple nUbatch
  | .seq => a.splitSeq nUbatch
  | .equal sequential nKeepTail => a.splitEqual nUbatch sequential nKeepTail

/-- The same splitter, until it returns the empty ubatch. -/
inductive Splits {E : Type} (sp : Splitter) (nUbatch : Nat) :
    BatchAllocr E → List (LlamaUbatch E) → BatchAllocr E → Prop where
  | done {a a' : BatchAllocr E} : sp.split a nUbatch = .ok (none, a') → Splits sp nUbatch a [] a'
  | more {a a₁ a' : BatchAllocr E} {u : LlamaUbatch E} {us : List (LlamaUbatch E)} :
      sp.split a nUbatch = .ok (some u, a₁) → Splits sp nUbatch a₁ us a' →
      Splits sp nUbatch a (u :: us) a'

end BeeLlama
