import Snort.Bnfa.Model

/-!
# The Aho-Corasick matcher of `acsmx2.c`

* `acsmAddPattern2`, and `acsmCompile2`: `addPatternStates` builds a trie of transition lists, `buildNfa`
  adds fail states and match lists breadth first, `convertNfaToDfa` fills the lists up.
* `convRow` turns a list into a row of words: in full format, sparse, banded or in sparse bands.
* `acsmSearch2` and its search loops read the rows.

Transition nodes, and the walks along lists of them, are those of `bnfa_search.c`.  Memory is never short,
and `int` counts do not overflow.  `ACSM_FAIL_STATE2` is `none` or `Next.fail`.  A `while` loop that
follows fail states, and the loops over a queue, carry fuel and are `none` when it runs out; a search is
`none` where the code reads outside of the rows.  States are compressed in full format only.
-/

namespace Snort.Acsm

open Bnfa (BnfaTransNode findNext resetNext alphabet xlatcase)

/-! ### Data -/

/-- `ConvertCaseEx`. -/
def convertCaseEx (s : List UInt8) : List UInt8 := s.map xlatcase

/-- An `ACSM_PATTERN2`; `U` is the type of the user's data. -/
structure AcsmPattern (U : Type*) where
  patrn : List UInt8
  casepatrn : List UInt8
  nocase : Bool
  offset : ℤ
  depth : ℤ
  negative : Bool
  udata : U
  iid : ℤ
  patrn_eq : patrn = convertCaseEx casepatrn

/-- The storage formats of the rows. -/
inductive Format
  | full
  | sparse
  | banded
  | sparseBands
  deriving DecidableEq

/-- The types of machines. -/
inductive Fsa
  | nfa
  | dfa
  deriving DecidableEq

/-- The fields of an `ACSM_STRUCT2` that compiling and searching use. -/
structure AcsmStruct (U : Type*) where
  patterns : List (AcsmPattern U) := []
  numStates : ℕ := 0
  transTable : ℕ → List BnfaTransNode := fun _ => []
  matchList : ℕ → List (AcsmPattern U) := fun _ => []
  failState : ℕ → ℕ := fun _ => 0
  nextState : ℕ → List ℕ := fun _ => []
  fsa : Fsa := .dfa
  format : Format := .full
  sparseMaxRowNodes : ℤ := 256
  sparseMaxZcnt : ℤ := 10
  compressStates : Bool := false
  sizeofstate : ℕ := 4

variable {U : Type*}

/-- `acsmNew2`. -/
def acsmNew2 : AcsmStruct U := {}

/-- `acsmAddPattern2`: insert at the front of the list. -/
def acsmAddPattern2 (p : AcsmStruct U) (pat : List UInt8) (nocase : Bool) (offset depth : ℤ)
    (negative : Bool) (id : U) (iid : ℤ) : AcsmStruct U :=
  { p with
    patterns :=
      ⟨convertCaseEx pat, pat, nocase, offset, depth, negative, id, iid, rfl⟩ :: p.patterns }

/-- `acsmSelectFormat2`. -/
def acsmSelectFormat2 (p : AcsmStruct U) (m : Format) : AcsmStruct U := { p with format := m }

/-- `acsmSelectFSA2`. -/
def acsmSelectFSA2 (p : AcsmStruct U) (m : Fsa) : AcsmStruct U := { p with fsa := m }

/-- `acsmSetMaxSparseBandZeros2`. -/
def acsmSetMaxSparseBandZeros2 (p : AcsmStruct U) (n : ℤ) : AcsmStruct U := { p with sparseMaxZcnt := n }

/-- `acsmSetMaxSparseElements2`. -/
def acsmSetMaxSparseElements2 (p : AcsmStruct U) (n : ℤ) : AcsmStruct U :=
  { p with sparseMaxRowNodes := n }

/-- `acsmCompressStates`. -/
def acsmCompressStates (p : AcsmStruct U) (flag : Bool) : AcsmStruct U := { p with compressStates := flag }

/-! ### Transition lists -/

variable (a : AcsmStruct U)

/-- `List_GetNextState`. -/
def listGetNextState (state : ℕ) (input : UInt8) : Option ℕ :=
  match findNext input (a.transTable state) with
  | some next => some next
  | none => if state = 0 then some 0 else none

/-- `List_GetNextState2`. -/
def listGetNextState2 (state : ℕ) (input : UInt8) : ℕ := (findNext input (a.transTable state)).getD 0

/-- A transition is reset, or added at the front. -/
def putRow (input : UInt8) (nextState : ℕ) (row : List BnfaTransNode) : List BnfaTransNode :=
  match resetNext input nextState row with
  | some row => row
  | none => ⟨input, nextState⟩ :: row

/-- `List_PutNextState`. -/
def listPutNextState (state : ℕ) (input : UInt8) (nextState : ℕ) : AcsmStruct U :=
  { a with
    transTable :=
      Function.update a.transTable state (putRow input nextState (a.transTable state)) }

/-! ### The trie -/

/-- The first loop of `AddPatternStates`: the existing states that match, and the bytes left over. -/
def matchStates : ℕ → List UInt8 → ℕ × List UInt8
  | state, [] => (state, [])
  | state, c :: cs =>
    match listGetNextState a state c with
    | none | some 0 => (state, c :: cs)
    | some next => matchStates next cs

/-- The second loop of `AddPatternStates`: one new state for each byte. -/
def newStates : AcsmStruct U → ℕ → List UInt8 → AcsmStruct U × ℕ
  | a, state, [] => (a, state)
  | a, state, c :: cs =>
    let a := { a with numStates := a.numStates + 1 }
    newStates (listPutNextState a state c a.numStates) a.numStates cs

/-- `AddPatternStates`, and `AddMatchListEntry`. -/
def addPatternStates (p : AcsmPattern U) : AcsmStruct U :=
  let (state, rest) := matchStates a 0 p.patrn
  let (a, state) := newStates a state rest
  { a with matchList := Function.update a.matchList state (p :: a.matchList state) }

/-! ### The queue -/

/-- `queue_add`. -/
def queueAdd (queue : List ℕ) (state : ℕ) : List ℕ :=
  if state ∈ queue then queue else queue ++ [state]

/-! ### Fail states -/

/-- The body of the first loop of `Build_NFA`. -/
def firstState (aq : AcsmStruct U × List ℕ) (i : UInt8) : AcsmStruct U × List ℕ :=
  let (a, queue) := aq
  let s := listGetNextState2 a 0 i
  if s ≠ 0 then ({ a with failState := Function.update a.failState s 0 }, queueAdd queue s)
  else (a, queue)

/-- The first loop of `Build_NFA`. -/
def firstLayer : AcsmStruct U × List ℕ := alphabet.foldl firstState (a, [])

/-- "Locate the next valid state for 'i' starting at fs". -/
def locateNext (i : UInt8) : ℕ → ℕ → Option ℕ
  | 0, _ => none
  | fuel + 1, fs =>
    match listGetNextState a fs i with
    | some next => some next
    | none => locateNext i fuel (a.failState fs)

/-- The body of the inner loop of `Build_NFA`: queue the state behind `i`, set its fail state and copy
the match list of that state. -/
def linkState (r : ℕ) (aq : AcsmStruct U × List ℕ) (i : UInt8) : Option (AcsmStruct U × List ℕ) :=
  let (a, queue) := aq
  match listGetNextState a r i with
  | none => some (a, queue)
  | some s =>
    match locateNext a i a.numStates (a.failState r) with
    | none => none
    | some next =>
      let mlist := (a.matchList next).foldl (fun l p => p :: l) (a.matchList s)
      some ({ a with failState := Function.update a.failState s next
                     matchList := Function.update a.matchList s mlist }, queueAdd queue s)

/-- The outer loop of `Build_NFA`. -/
def buildLoop : ℕ → AcsmStruct U → List ℕ → Option (AcsmStruct U)
  | _, a, [] => some a
  | 0, _, _ :: _ => none
  | fuel + 1, a, r :: queue =>
    match alphabet.foldlM (linkState r) (a, queue) with
    | none => none
    | some (a, queue) => buildLoop fuel a queue

/-- `Build_NFA`. -/
def buildNfa : Option (AcsmStruct U) :=
  let (a, queue) := firstLayer a
  buildLoop a.numStates a queue

/-! ### Filling up the lists -/

/-- The body of the first loop of `Convert_NFA_To_DFA`. -/
def addFirst (queue : List ℕ) (i : UInt8) : List ℕ :=
  match listGetNextState a 0 i with
  | none | some 0 => queue
  | some s => queueAdd queue s

/-- The first loop of `Convert_NFA_To_DFA`. -/
def firstStates : List ℕ := alphabet.foldl (addFirst a) []

/-- The body of the inner loop of `Convert_NFA_To_DFA`. -/
def fillState (r : ℕ) (aq : AcsmStruct U × List ℕ) (i : UInt8) : AcsmStruct U × List ℕ :=
  let (a, queue) := aq
  match listGetNextState a r i with
  | none | some 0 =>
    match listGetNextState a (a.failState r) i with
    | none | some 0 => (a, queue)
    | some cFailState => (listPutNextState a r i cFailState, queue)
  | some s => (a, queueAdd queue s)

/-- The outer loop of `Convert_NFA_To_DFA`. -/
def fillLoop : ℕ → AcsmStruct U → List ℕ → Option (AcsmStruct U)
  | _, a, [] => some a
  | 0, _, _ :: _ => none
  | fuel + 1, a, r :: queue =>
    let (a, queue) := alphabet.foldl (fillState r) (a, queue)
    fillLoop fuel a queue

/-- `Convert_NFA_To_DFA`. -/
def convertNfaToDfa : Option (AcsmStruct U) := fillLoop a.numStates a (firstStates a)

/-! ### Rows of words -/

/-- A state as a word of its row. -/
def narrow (sizeofstate state : ℕ) : ℕ :=
  if sizeofstate = 1 then state % 2 ^ 8
  else if sizeofstate = 2 then state % 2 ^ 16
  else state

/-- `List_ConvToFull`. -/
def listConvToFull (state : ℕ) : UInt8 → ℕ :=
  (a.transTable state).foldl
    (fun full t => Function.update full t.key (narrow a.sizeofstate t.nextState)) fun _ => 0

/-- A row in full format: `ACF_FULL`, no match yet, the states. -/
def fullRow (full : UInt8 → ℕ) : List ℕ := 0 :: 0 :: alphabet.map full

/-- The inputs with a transition. -/
def rowInputs (full : UInt8 → ℕ) : List UInt8 := alphabet.filter fun i => full i ≠ 0

/-- A row of `Conv_Full_DFA_To_Sparse`: `ACF_SPARSE`, the number of pairs, the pairs. -/
def sparseRow (maxRowNodes : ℤ) (k : ℕ) (full : UInt8 → ℕ) : List ℕ :=
  let cnt := (rowInputs full).length
  if k = 0 ∨ (cnt : ℤ) > maxRowNodes then fullRow full
  else 1 :: 0 :: cnt :: (rowInputs full).flatMap fun i => [i.toNat, full i]

/-- The states of the inputs from `first` to `last`. -/
def band (full : UInt8 → ℕ) (first last : UInt8) : List ℕ :=
  (List.range' first.toNat (last.toNat + 1 - first.toNat)).map fun i => full (UInt8.ofNat i)

/-- A row of `Conv_Full_DFA_To_Banded`: `ACF_BANDED`, the width of the band, its first input, its
states.  A row without transitions has the first input -1. -/
def bandedRow (full : UInt8 → ℕ) : List ℕ :=
  match (rowInputs full).head?, (rowInputs full).getLast? with
  | some first, some last =>
    2 :: 0 :: (last.toNat + 1 - first.toNat) :: first.toNat :: band full first last
  | _, _ => [2, 0, 0, 0xffffffff]

/-- `calcSparseBands`, the outer loop outside of a band, the inner loop in one: its first input, the
last one with a transition and the number of inputs without one since. -/
def calcSparseBands (next : UInt8 → ℕ) (zmax : ℤ) :
    Option (UInt8 × UInt8 × ℕ) → List UInt8 → List (UInt8 × UInt8)
  | none, [] => []
  | some (first, last, _), [] => [(first, last)]
  | none, i :: is =>
    if next i ≠ 0 then calcSparseBands next zmax (some (i, i, 0)) is
    else calcSparseBands next zmax none is
  | some (first, last, zcnt), i :: is =>
    if next i ≠ 0 then calcSparseBands next zmax (some (first, i, 0)) is
    else if (zcnt + 1 : ℕ) > zmax then (first, last) :: calcSparseBands next zmax none is
    else calcSparseBands next zmax (some (first, last, zcnt + 1)) is

/-- A row of `Conv_Full_DFA_To_SparseBands`: `ACF_SPARSEBANDS`, the number of bands, and for each band
its width, its first input and its states. -/
def sparseBandsRow (zmax : ℤ) (full : UInt8 → ℕ) : List ℕ :=
  let bands := calcSparseBands full zmax none alphabet
  3 :: 0 :: bands.length :: bands.flatMap fun (first, last) =>
    (last.toNat + 1 - first.toNat) :: first.toNat :: band full first last

/-- The row of a state in the format of the machine. -/
def convRow (k : ℕ) : List ℕ :=
  let full := listConvToFull a k
  match a.format with
  | .full => fullRow full
  | .sparse => sparseRow a.sparseMaxRowNodes k full
  | .banded => bandedRow full
  | .sparseBands => sparseBandsRow a.sparseMaxZcnt full

/-- The rows of all states. -/
def convRows : AcsmStruct U :=
  { a with nextState := fun k => if k < a.numStates then convRow a k else [] }

/-- `acsmUpdateMatchStates`. -/
def acsmUpdateMatchStates : AcsmStruct U :=
  { a with
    nextState := fun k =>
      if k < a.numStates ∧ a.matchList k ≠ [] then (a.nextState k).set 1 1 else a.nextState k }

/-! ### Compiling -/

/-- The first part of `acsmCompile2`: the states of all patterns. -/
def addStates : AcsmStruct U :=
  let a := a.patterns.foldl addPatternStates { a with numStates := 0 }
  { a with numStates := a.numStates + 1 }

/-- The size of the words. -/
def stateSize : ℕ :=
  if a.compressStates then
    if a.numStates < 255 then 1 else if a.numStates < 65535 then 2 else 4
  else 4

/-- `acsmCompile2`. -/
def acsmCompile2 : Option (AcsmStruct U) := do
  let a := addStates a
  let a := { a with sizeofstate := stateSize a, failState := fun _ => 0 }
  let a ← buildNfa a
  let a ← if a.fsa = .dfa then convertNfaToDfa a else some a
  some (acsmUpdateMatchStates (convRows a))

/-! ### Reading a row -/

/-- What a row says about an input: `ACSM_FAIL_STATE2`, or a state. -/
inductive Next
  | fail
  | state (s : ℕ)
  deriving DecidableEq

/-- The state that is returned where there is no transition. -/
def noTransition (state : ℕ) : Next := if state = 0 then .state 0 else .fail

/-- A word of a row that stands for a transition. -/
def transition (state word : ℕ) : Next := if word = 0 ∧ state ≠ 0 then .fail else .state word

/-- `SparseGetNextStateNFA`, the loop over the pairs of a sparse row. -/
def sparsePairsNfa (state input : ℕ) : ℕ → List ℕ → Option Next
  | 0, _ => some (noTransition state)
  | n + 1, key :: next :: ps =>
    if key > input then some .fail
    else if key = input then some (.state next)
    else sparsePairsNfa state input n ps
  | _ + 1, _ => none

/-- `SparseGetNextStateNFA`, the loop over the bands of a row. -/
def sparseBandsNfa (state input : ℕ) : ℕ → List ℕ → Option Next
  | 0, _ => some (noTransition state)
  | nb + 1, n :: index :: ps =>
    if input < index then some (noTransition state)
    else if input < index + n then ps[input - index]?.map (transition state)
    else sparseBandsNfa state input nb (ps.drop n)
  | _ + 1, _ => none

/-- `SparseGetNextStateNFA`. -/
def sparseGetNextStateNfa (ps : List ℕ) (state input : ℕ) : Option Next :=
  match ps with
  | 2 :: _ :: ps =>
    match ps with
    | n :: index :: _ =>
      if input < index ∨ input ≥ index + n then some (noTransition state)
      else ps[input - index]?.map (transition state)
    | _ => none
  | 1 :: _ :: n :: ps => sparsePairsNfa state input n ps
  | 3 :: _ :: nb :: ps => sparseBandsNfa state input nb ps
  | 0 :: _ :: ps => ps[input]?.map (transition state)
  | _ => none

/-- `SparseGetNextStateDFA`, the loop over the pairs of a sparse row. -/
def sparsePairsDfa (input : ℕ) : ℕ → List ℕ → Option ℕ
  | 0, _ => some 0
  | n + 1, key :: next :: ps =>
    if input < key then some 0
    else if key = input then some next
    else sparsePairsDfa input n ps
  | _ + 1, _ => none

/-- `SparseGetNextStateDFA`, the loop over the bands of a row. -/
def sparseBandsDfa (input : ℕ) : ℕ → List ℕ → Option ℕ
  | 0, _ => some 0
  | nb + 1, n :: index :: ps =>
    if input < index then some 0
    else if input < index + n then ps[input - index]?
    else sparseBandsDfa input nb (ps.drop n)
  | _ + 1, _ => none

/-- A banded row, as `SparseGetNextStateDFA` and `acsmSearchSparseDFA_Banded` read it. -/
def bandedDfa (ps : List ℕ) (input : ℕ) : Option ℕ :=
  match ps with
  | _ :: _ :: n :: index :: ps =>
    if input < index ∨ input ≥ index + n then some 0 else ps[input - index]?
  | _ => none

/-- `SparseGetNextStateDFA`. -/
def sparseGetNextStateDfa (ps : List ℕ) (input : ℕ) : Option ℕ :=
  match ps with
  | 2 :: _ => bandedDfa ps input
  | 0 :: _ :: ps => ps[input]?
  | 1 :: _ :: n :: ps => sparsePairsDfa input n ps
  | 3 :: _ :: nb :: ps => sparseBandsDfa input nb ps
  | _ => none

/-! ### Searching -/

/-- The count of a search and the data of its callback. -/
structure Search (D : Type*) where
  nfound : ℕ
  data : D

/-- The callback of a search: it gets a match list, an index and the data. -/
abbrev Callback (U D : Type*) := List (AcsmPattern U) → ℤ → D → ℤ × D

section Search

variable {D : Type*} (Match : Callback U D)

/-- `Match` is called for a match list that is not empty, `pos` bytes into the text, and says if the
search ends here. -/
def callMatch (mlist : List (AcsmPattern U)) (pos : ℕ) (s : Search D) : Bool × Search D :=
  match mlist with
  | [] => (false, s)
  | p :: _ =>
    let (r, data) := Match mlist (pos - p.patrn.length) s.data
    (r > 0, ⟨s.nfound + 1, data⟩)

/-- The test of the match flag of a state, and the call of `Match`. -/
def testState (state pos : ℕ) (s : Search D) : Option (Bool × Search D) :=
  (a.nextState state)[1]?.map fun flag =>
    if flag ≠ 0 then callMatch Match (a.matchList state) pos s else (false, s)

/-- `acsmSearchSparseDFA_Full`: the search, and the state that is stored. -/
def searchSparseDfaFull : List UInt8 → ℕ → ℕ → Search D → Option (Search D × ℕ)
  | [], pos, state, s => some ((callMatch Match (a.matchList state) pos s).2, state)
  | c :: T, pos, state, s =>
    match testState a Match state pos s with
    | none => none
    | some (true, s) => some (s, state)
    | some (false, s) =>
      match (a.nextState state)[2 + (xlatcase c).toNat]? with
      | none => none
      | some next => searchSparseDfaFull T (pos + 1) next s

/-- `acsmSearchSparseDFA`. -/
def searchSparseDfa : List UInt8 → ℕ → ℕ → Search D → Option (Search D × ℕ)
  | [], _, state, s => some (s, state)
  | c :: T, pos, state, s =>
    match sparseGetNextStateDfa (a.nextState state) (xlatcase c).toNat with
    | none => none
    | some next =>
      match testState a Match next (pos + 1) s with
      | none => none
      | some (true, s) => some (s, next)
      | some (false, s) => searchSparseDfa T (pos + 1) next s

/-- `acsmSearchSparseDFA_Banded`; `current` is what the state is that is not overwritten at the end of
the text. -/
def searchSparseDfaBanded (current : ℕ) : List UInt8 → ℕ → ℕ → Search D → Option (Search D × ℕ)
  | [], pos, state, s =>
    let (stop, s) := callMatch Match (a.matchList state) pos s
    some (s, if stop then state else current)
  | c :: T, pos, state, s =>
    match testState a Match state pos s with
    | none => none
    | some (true, s) => some (s, state)
    | some (false, s) =>
      match bandedDfa (a.nextState state) (xlatcase c).toNat with
      | none => none
      | some next => searchSparseDfaBanded current T (pos + 1) next s

/-- The loop of `acsmSearchSparseNFA` over fail states, which are freed where the format is full. -/
def followFail (input : ℕ) : ℕ → ℕ → Option ℕ
  | 0, _ => none
  | fuel + 1, state =>
    match sparseGetNextStateNfa (a.nextState state) state input with
    | none => none
    | some (.state nstate) => some nstate
    | some .fail => if a.format = .full then none else followFail input fuel (a.failState state)

/-- `acsmSearchSparseNFA`; `current` as in `acsmSearchSparseDFA_Banded`.  The index does not count the
byte that has just been read. -/
def searchSparseNfa (current : ℕ) : List UInt8 → ℕ → ℕ → Search D → Option (Search D × ℕ)
  | [], _, _, s => some (s, current)
  | c :: T, pos, state, s =>
    match followFail a (xlatcase c).toNat a.numStates state with
    | none => none
    | some state =>
      match callMatch Match (a.matchList state) pos s with
      | (true, s) => some (s, state)
      | (false, s) => searchSparseNfa current T (pos + 1) state s

/-- `acsmSearch2`, with `*current_state`. -/
def acsmSearch2 (T : List UInt8) (data : D) (current : ℕ) : Option (Search D × ℕ) :=
  match a.fsa, a.format with
  | .dfa, .full => searchSparseDfaFull a Match T 0 current ⟨0, data⟩
  | .dfa, .banded => searchSparseDfaBanded a Match current T 0 current ⟨0, data⟩
  | .dfa, _ => searchSparseDfa a Match T 0 current ⟨0, data⟩
  | .nfa, _ => searchSparseNfa a Match current T 0 current ⟨0, data⟩

end Search

end Snort.Acsm
