import Mathlib.Tactic

/-!
# The basic NFA matcher of `bnfa_search.c`

Compiling a pattern list and stepping through the compiled table.

* `_bnfa_add_pattern_states` builds a trie of transition lists, `_bnfa_build_nfa` adds fail states
  breadth first and copies match lists along them, `_bnfa_opt_nfa` shortens fail links.
* `_bnfa_conv_list_to_csparse_array` packs rows, fail states and flags into one array of words.
* `_bnfa_get_next_state_csparse_nfa` walks that array.

`int` results that stand for failure (`-1`, `BNFA_FAIL_STATE`) are `none`.  Memory is never short.
A `while` loop that follows fail links carries fuel and is `none` when it runs out.
-/

namespace Snort.Bnfa

/-! ### Constants -/

/-- `BNFA_SPARSE_MAX_STATE`. -/
def sparseMaxState : ℕ := 0x00ffffff

/-- `BNFA_SPARSE_COUNT_SHIFT`. -/
def sparseCountShift : ℕ := 24

/-- `BNFA_SPARSE_VALUE_SHIFT`. -/
def sparseValueShift : ℕ := 24

/-- `BNFA_SPARSE_MATCH_BIT`. -/
def sparseMatchBit : ℕ := 0x80000000

/-- `BNFA_SPARSE_FULL_BIT`. -/
def sparseFullBit : ℕ := 0x40000000

/-- `BNFA_SPARSE_COUNT_BITS`. -/
def sparseCountBits : ℕ := 0x3f000000

/-- `BNFA_SPARSE_MAX_ROW_TRANSITIONS`. -/
def sparseMaxRowTransitions : ℕ := 0x3f

/-- `BNFA_SPARSE_LINEAR_SEARCH_LIMIT`. -/
def sparseLinearSearchLimit : ℕ := 6

/-- `BNFA_MAX_ALPHABET_SIZE`. -/
def maxAlphabetSize : ℕ := 256

/-- The inputs in the order of `for(i=0;i<bnfaAlphabetSize;i++)`. -/
def alphabet : List UInt8 := (List.range maxAlphabetSize).map UInt8.ofNat

/-- `xlatcase`: `toupper` of the C locale. -/
def xlatcase (c : UInt8) : UInt8 := if 97 ≤ c ∧ c ≤ 122 then c - 32 else c

/-! ### Data -/

/-- `bnfaCaseMode`. -/
inductive CaseMode
  | perPatCase
  | case
  | nocase
  deriving DecidableEq

/-- A `bnfa_pattern_t`; `U` is the type of the user's data. -/
structure BnfaPattern (U : Type*) where
  casepatrn : List UInt8
  nocase : Bool
  negative : Bool
  userdata : U

/-- A `bnfa_trans_node_t`. -/
structure BnfaTransNode where
  key : UInt8
  nextState : ℕ

/-- The fields of a `bnfa_struct_t` that compiling and searching use.  Row 0 of
`bnfaTransTable` is an array, the others are lists. -/
structure BnfaStruct (U : Type*) where
  caseMode : CaseMode := .perPatCase
  opt : Bool := false
  patterns : List (BnfaPattern U) := []
  maxStates : ℕ := 0
  numStates : ℕ := 0
  zeroRow : UInt8 → ℕ := fun _ => 0
  transTable : ℕ → List BnfaTransNode := fun _ => []
  matchList : ℕ → List (BnfaPattern U) := fun _ => []
  failState : ℕ → ℕ := fun _ => 0
  transList : List ℕ := []

variable {U : Type*}

/-- `bnfaNew`. -/
def bnfaNew : BnfaStruct U := {}

/-- `bnfaSetOpt`. -/
def bnfaSetOpt (b : BnfaStruct U) (flag : Bool) : BnfaStruct U := { b with opt := flag }

/-- `bnfaAddPattern`: insert at the front of the list. -/
def bnfaAddPattern (b : BnfaStruct U) (pat : List UInt8) (nocase negative : Bool) (userdata : U) :
    BnfaStruct U :=
  { b with patterns := ⟨pat, nocase, negative, userdata⟩ :: b.patterns }

/-! ### Transition lists -/

/-- The walk of `_bnfa_list_get_next_state` along a transition list. -/
def findNext (input : UInt8) : List BnfaTransNode → Option ℕ
  | [] => none
  | t :: ts => if t.key = input then some t.nextState else findNext input ts

/-- `_bnfa_list_get_next_state`. -/
def listGetNextState (b : BnfaStruct U) (state : ℕ) (input : UInt8) : Option ℕ :=
  if state = 0 then some (b.zeroRow input) else findNext input (b.transTable state)

/-- Reset the next state of an existing transition. -/
def resetNext (input : UInt8) (nextState : ℕ) : List BnfaTransNode → Option (List BnfaTransNode)
  | [] => none
  | t :: ts =>
    if t.key = input then some (⟨t.key, nextState⟩ :: ts)
    else (resetNext input nextState ts).map (t :: ·)

/-- `_bnfa_list_put_next_state`. -/
def listPutNextState (b : BnfaStruct U) (state : ℕ) (input : UInt8) (nextState : ℕ) : Option (BnfaStruct U) :=
  if state ≥ b.maxStates then none
  else if state = 0 then some { b with zeroRow := Function.update b.zeroRow input nextState }
  else
    let row := match resetNext input nextState (b.transTable state) with
      | some row => row
      | none => ⟨input, nextState⟩ :: b.transTable state
    some { b with transTable := Function.update b.transTable state row }

/-! ### The trie -/

/-- A pattern byte as the trie stores it. -/
def foldCase (b : BnfaStruct U) (c : UInt8) : UInt8 := if b.caseMode = .case then c else xlatcase c

/-- The first loop of `_bnfa_add_pattern_states`: the existing states that match, and the bytes
left over. -/
def matchStates (b : BnfaStruct U) : ℕ → List UInt8 → ℕ × List UInt8
  | state, [] => (state, [])
  | state, c :: cs =>
    match listGetNextState b state (foldCase b c) with
    | none | some 0 => (state, c :: cs)
    | some next => matchStates b next cs

/-- The second loop of `_bnfa_add_pattern_states`: one new state for each byte.  `none` is the
return value `-1`, with the states added so far. -/
def newStates : BnfaStruct U → ℕ → List UInt8 → BnfaStruct U × Option ℕ
  | b, state, [] => (b, some state)
  | b, state, c :: cs =>
    let b := { b with numStates := b.numStates + 1 }
    match listPutNextState b state (foldCase b c) b.numStates with
    | none => (b, none)
    | some b =>
      if b.numStates ≥ b.maxStates then (b, none) else newStates b b.numStates cs

/-- `_bnfa_add_pattern_states`; the caller ignores its return value. -/
def addPatternStates (b : BnfaStruct U) (p : BnfaPattern U) : BnfaStruct U :=
  let (state, rest) := matchStates b 0 p.casepatrn
  match newStates b state rest with
  | (b, none) => b
  | (b, some state) =>
    { b with matchList := Function.update b.matchList state (p :: b.matchList state) }

/-! ### Fail states -/

/-- "Locate the next valid state for 'i' starting at fs". -/
def locateNext (b : BnfaStruct U) (i : UInt8) : ℕ → ℕ → Option ℕ
  | 0, _ => none
  | fuel + 1, fs =>
    match listGetNextState b fs i with
    | some next => some next
    | none => locateNext b i fuel (b.failState fs)

/-- The body of the inner loop of `_bnfa_build_nfa`: queue the state behind `i`, set its fail
state and copy the match list of that state. -/
def linkState (r : ℕ) (bq : BnfaStruct U × List ℕ) (i : UInt8) : Option (BnfaStruct U × List ℕ) :=
  let (b, queue) := bq
  match listGetNextState b r i with
  | none => some (b, queue)
  | some s =>
    match locateNext b i b.numStates (b.failState r) with
    | none => none
    | some next =>
      let mlist := (b.matchList next).foldl (fun l p => p :: l) (b.matchList s)
      some ({ b with failState := Function.update b.failState s next
                     matchList := Function.update b.matchList s mlist }, queue ++ [s])

/-- The outer loop of `_bnfa_build_nfa`. -/
def buildLoop : ℕ → BnfaStruct U → List ℕ → Option (BnfaStruct U)
  | _, b, [] => some b
  | 0, _, _ :: _ => none
  | fuel + 1, b, r :: queue =>
    match alphabet.foldlM (linkState r) (b, queue) with
    | none => none
    | some (b, queue) => buildLoop fuel b queue

/-- `_bnfa_conv_node_to_full`: the row as a function of the input, zero where there is no
transition. -/
def convNodeToFull (t : List BnfaTransNode) : UInt8 → ℕ :=
  t.foldl (fun full n => Function.update full n.key n.nextState) fun _ => 0

/-- `KcontainsJ`. -/
def kContainsJ (tk tj : List BnfaTransNode) : Bool :=
  -- "emtpy state"
  if tk.length = 0 then true
  else tj.all fun t => convNodeToFull tk t.key ≠ 0

/-- The `while` loop of `_bnfa_opt_nfa`. -/
def skipFail (b : BnfaStruct U) (k : ℕ) : ℕ → ℕ → Option ℕ
  | 0, _ => none
  | fuel + 1, fs =>
    if fs ≠ 0 ∧ kContainsJ (b.transTable k) (b.transTable fs) then
      skipFail b k fuel (b.failState fs)
    else some fs

/-- `_bnfa_opt_nfa`. -/
def optNfa (b : BnfaStruct U) : Option (BnfaStruct U) :=
  (List.range' 2 (b.numStates - 2)).foldlM (fun b k =>
    match skipFail b k b.numStates (b.failState k) with
    | none => none
    | some fs => some { b with failState := Function.update b.failState k fs }) b

/-- `_bnfa_build_nfa`. -/
def buildNfa (b : BnfaStruct U) : Option (BnfaStruct U) :=
  let queue := (alphabet.map b.zeroRow).filter (· ≠ 0)
  let b := { b with failState := fun s => if s ∈ queue then 0 else b.failState s }
  match buildLoop b.numStates b queue with
  | none => none
  | some b => if b.opt then optNfa b else some b

/-! ### The packed array -/

/-- `_bnfa_list_conv_row_to_full`. -/
def convRowToFull (b : BnfaStruct U) (state : ℕ) : UInt8 → ℕ :=
  if state = 0 then b.zeroRow else convNodeToFull (b.transTable state)

/-- The inputs with a transition in a full row. -/
def rowInputs (full : UInt8 → ℕ) : List UInt8 :=
  alphabet.filter fun i => full i &&& sparseMaxState ≠ 0

/-- State 0 and rows of more than 63 transitions are stored in full. -/
def storedFull (b : BnfaStruct U) (k : ℕ) : Bool :=
  k = 0 ∨ (rowInputs (convRowToFull b k)).length > sparseMaxRowTransitions

/-- The first loop of `_bnfa_conv_list_to_csparse_array`: the number of words needed. -/
def csparseSize (b : BnfaStruct U) : ℕ :=
  ((List.range b.numStates).map fun k =>
    2 + if storedFull b k then maxAlphabetSize else (rowInputs (convRowToFull b k)).length).sum

/-- The words of one state: the state, the control word, the transitions. -/
def csparseRow (b : BnfaStruct U) (k : ℕ) : List ℕ :=
  let full := convRowToFull b k
  let matchBit := if (b.matchList k).isEmpty then 0 else sparseMatchBit
  if storedFull b k then
    k :: (sparseFullBit ||| (b.failState k &&& sparseMaxState) ||| matchBit) :: alphabet.map full
  else
    k :: ((rowInputs full).length <<< sparseCountShift ||| (b.failState k &&& sparseMaxState) |||
        matchBit) ::
      (rowInputs full).map fun i => i.toNat <<< sparseValueShift ||| (full i &&& sparseMaxState)

/-- "Build the Transition List Array": the words, and the index of each state's first word. -/
def packStates (b : BnfaStruct U) : List ℕ × (ℕ → ℕ) :=
  (List.range b.numStates).foldl
    (fun (ps, pi) k => (ps ++ csparseRow b k, Function.update pi k ps.length)) ([], fun _ => 0)

/-- The low 24 bits of a word become the index of the state they name. -/
def replaceWord (pi : ℕ → ℕ) (w : ℕ) : ℕ := (w &&& 0xff000000) ||| pi (w &&& sparseMaxState)

/-- "Replace Transition states with Transition Indices": a walk over the words of the states from
`k` on, `n` of them left. -/
def replaceStates (pi : ℕ → ℕ) : ℕ → List ℕ → List ℕ
  | n + 1, sw :: cw :: rest =>
    let len :=
      if cw &&& sparseFullBit ≠ 0 then maxAlphabetSize
      else (cw &&& sparseCountBits) >>> sparseCountShift
    sw :: replaceWord pi cw :: ((rest.take len).map (replaceWord pi) ++
      replaceStates pi n (rest.drop len))
  | _, ps => ps

/-- `_bnfa_conv_list_to_csparse_array`. -/
def convListToCsparseArray (b : BnfaStruct U) : Option (BnfaStruct U) :=
  if csparseSize b > sparseMaxState then none
  else
    let (ps, pi) := packStates b
    if ps.length > csparseSize b then none
    else if (List.range b.numStates).any fun k => pi k ≥ csparseSize b then none
    else some { b with transList := replaceStates pi b.numStates ps }

/-- The first half of `bnfaCompile`: the states of all patterns. -/
def addStates (b : BnfaStruct U) : BnfaStruct U :=
  let maxStates := b.maxStates + (b.patterns.map fun p => p.casepatrn.length).sum + 1
  let b := b.patterns.foldl addPatternStates { b with maxStates := maxStates, numStates := 0 }
  { b with numStates := b.numStates + 1 }

/-- `bnfaCompile`. -/
def bnfaCompile (b : BnfaStruct U) : Option (BnfaStruct U) :=
  let b := addStates b
  if b.numStates > sparseMaxState then none
  else
    match buildNfa { b with failState := fun _ => 0 } with
    | none => none
    | some b => convListToCsparseArray b

/-! ### Searching -/

/-- The loop of `_bnfa_binearch` between `l` and `r`. -/
def binearchLoop (a : ℕ → ℕ) (val : ℕ) (l r : ℤ) : Option ℕ :=
  if r ≥ l then
    let m := (r + l) / 2
    let c := a m.toNat >>> sparseValueShift
    if val = c then some m.toNat
    else if val < c then binearchLoop a val l (m - 1)
    else binearchLoop a val (m + 1) r
  else none
termination_by (r + 1 - l).toNat

/-- `_bnfa_binearch`. -/
def binearch (a : ℕ → ℕ) (len val : ℕ) : Option ℕ := binearchLoop a val 0 (len - 1)

/-- One round of `_bnfa_get_next_state_csparse_nfa`: the transition of the state at `sindex`. -/
def csparseTransition (ps : List ℕ) (sindex : ℕ) (input : UInt8) : Option ℕ :=
  let pcs : ℕ → ℕ := fun k => ps.getD (sindex + 1 + k) 0
  if pcs 0 &&& sparseFullBit ≠ 0 then
    if sindex = 0 then some (pcs (1 + input.toNat) &&& sparseMaxState)
    else if pcs (1 + input.toNat) &&& sparseMaxState ≠ 0 then
      some (pcs (1 + input.toNat) &&& sparseMaxState)
    else none
  else
    let nc := (pcs 0 >>> sparseCountShift) &&& sparseMaxRowTransitions
    if nc > sparseLinearSearchLimit then
      (binearch (fun k => pcs (k + 1)) nc input.toNat).map fun index =>
        pcs (index + 1) &&& sparseMaxState
    else
      ((List.range nc).find? fun k => pcs (k + 1) >>> sparseValueShift = input.toNat).map fun k =>
        pcs (k + 1) &&& sparseMaxState

/-- `_bnfa_get_next_state_csparse_nfa`. -/
def getNextStateCsparseNfa (ps : List ℕ) (input : UInt8) : ℕ → ℕ → Option ℕ
  | 0, _ => none
  | fuel + 1, sindex =>
    match csparseTransition ps sindex input with
    | some next => some next
    | none => getNextStateCsparseNfa ps input fuel (ps.getD (sindex + 1) 0 &&& sparseMaxState)

/-- The index reached from index 0 over the upper-cased bytes of a text. -/
def searchIndex (b : BnfaStruct U) (T : List UInt8) : Option ℕ :=
  T.foldlM (fun sindex c => getNextStateCsparseNfa b.transList (xlatcase c) b.numStates sindex) 0

/-- The match list of the state at an index, `MatchList[ transList[sindex] ]`. -/
def matchesAt (b : BnfaStruct U) (sindex : ℕ) : List (BnfaPattern U) :=
  b.matchList (b.transList.getD sindex 0)

end Snort.Bnfa
