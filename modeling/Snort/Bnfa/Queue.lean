import Snort.Bnfa.Opt

/-!
# The queued search

`_bnfa_search_csparse_nfa` calls `Match` in every match state it comes to.
`_bnfa_search_csparse_nfa_q` puts the match lists into a queue of `MAX_INQ` entries and calls
`Match` for all of them when the queue is full and at the end of the text.

A match list is named by its state, `MatchList[state]`; the list of a state without matches is
`NULL`.
-/

namespace Snort.Bnfa

variable {U : Type*}

/-! ### Definitions -/

/-- `MAX_INQ`. -/
def maxInq : ℕ := 32

/-- `LAST_STATE_INIT`. -/
def lastStateInit : ℕ := 0xffffffff

/-- A call of `Match`: the match list, and the user's data and the index that are passed. -/
structure MatchCall (U : Type*) where
  mlist : ℕ
  userdata : U
  index : ℤ

/-- `Match`: the result of a call, from all calls made so far. -/
abbrev Match (U : Type*) := List (MatchCall U) → ℤ

/-- `transList[sindex+1] & BNFA_SPARSE_MATCH_BIT`. -/
def matchBitAt (b : BnfaStruct U) (sindex : ℕ) : Bool :=
  b.transList.getD (sindex + 1) 0 &&& sparseMatchBit ≠ 0

/-- `_add_queue`: the queue, and whether it is full. -/
def addQueue (q : List ℕ) (mlist : ℕ) : List ℕ × Bool :=
  if mlist ∈ q then (q, false)
  else
    let q := if q.length < maxInq then q ++ [mlist] else q
    (q, q.length = maxInq)

/-- `_process_queue`: the calls, and whether `Match` terminates matching.  The queue is empty
afterwards. -/
def processQueue (b : BnfaStruct U) (M : Match U) (calls : List (MatchCall U)) :
    List ℕ → List (MatchCall U) × Bool
  | [] => (calls, false)
  | mlist :: q =>
    match b.matchList mlist with
    | [] => processQueue b M calls q
    | patrn :: _ =>
      let calls := calls ++ [⟨mlist, patrn.userdata, 0⟩]
      if M calls > 0 then (calls, true) else processQueue b M calls q

/-- What a search does: the calls of `Match`, the value left in `*current_state` if it is set, and
the result. -/
structure SearchResult (U : Type*) where
  calls : List (MatchCall U)
  currentState : Option ℕ
  ret : ℕ

/-- The loop of `_bnfa_search_csparse_nfa_q`. -/
def searchLoopQ (b : BnfaStruct U) (M : Match U) :
    List UInt8 → ℕ → List ℕ → List (MatchCall U) → Option (SearchResult U)
  | [], sindex, q, calls =>
    let (calls, stop) := processQueue b M calls q
    some ⟨calls, some sindex, stop.toNat⟩
  | c :: T, lastSindex, q, calls =>
    match getNextStateCsparseNfa b.transList (xlatcase c) b.numStates lastSindex with
    | none => none
    | some sindex =>
      if sindex ≠ 0 ∧ matchBitAt b sindex = true then
        -- "Test for same as last state"
        if sindex = lastSindex then searchLoopQ b M T sindex q calls
        else if b.matchList (b.transList.getD sindex 0) = [] then searchLoopQ b M T sindex q calls
        else
          let (q, full) := addQueue q (b.transList.getD sindex 0)
          if full then
            let (calls, stop) := processQueue b M calls q
            if stop then some ⟨calls, some sindex, 1⟩ else searchLoopQ b M T sindex [] calls
          else searchLoopQ b M T sindex q calls
      else searchLoopQ b M T sindex q calls

/-- `_bnfa_search_csparse_nfa_q`. -/
def bnfaSearchCsparseNfaQ (b : BnfaStruct U) (M : Match U) (T : List UInt8) (sindex : ℕ) :
    Option (SearchResult U) :=
  searchLoopQ b M T sindex [] []

/-- The loop of `_bnfa_search_csparse_nfa`; `pos` is `T - Tx`.  `mlist->data` is read without a
test for `NULL`. -/
def searchLoop (b : BnfaStruct U) (M : Match U) :
    ℕ → List UInt8 → ℕ → ℕ → ℕ → List (MatchCall U) → Option (SearchResult U)
  | _, [], _, _, nfound, calls => some ⟨calls, none, nfound⟩
  | pos, c :: T, sindex, lastMatch, nfound, calls =>
    match getNextStateCsparseNfa b.transList (xlatcase c) b.numStates sindex with
    | none => none
    | some sindex =>
      if sindex ≠ 0 ∧ matchBitAt b sindex = true then
        if sindex = lastMatch then searchLoop b M (pos + 1) T sindex lastMatch nfound calls
        else
          match b.matchList (b.transList.getD sindex 0) with
          | [] => none
          | patrn :: _ =>
            let index := (pos : ℤ) - patrn.casepatrn.length + 1
            let calls := calls ++ [⟨b.transList.getD sindex 0, patrn.userdata, index⟩]
            if M calls > 0 then some ⟨calls, some sindex, nfound + 1⟩
            else
              -- a negative result takes the new last match back
              let lastMatch := if M calls < 0 then lastMatch else sindex
              searchLoop b M (pos + 1) T sindex lastMatch (nfound + 1) calls
      else searchLoop b M (pos + 1) T sindex lastMatch nfound calls

/-- `_bnfa_search_csparse_nfa`. -/
def bnfaSearchCsparseNfa (b : BnfaStruct U) (M : Match U) (T : List UInt8) (sindex : ℕ) :
    Option (SearchResult U) :=
  searchLoop b M 0 T sindex lastStateInit 0 []

/-- The match lists `Match` is called for. -/
def matchLists (calls : List (MatchCall U)) : Set ℕ := {mlist | ∃ call ∈ calls, call.mlist = mlist}

/-- The match states visited over a text. -/
def visited (b : BnfaStruct U) (T : List UInt8) : Set ℕ :=
  {s | ∃ u v sindex, T = u ++ v ∧ u ≠ [] ∧ searchIndex b u = some sindex ∧ sindex ≠ 0 ∧
    s = b.transList.getD sindex 0 ∧ b.matchList s ≠ []}

/-! ### The calls of a queue -/

theorem matchLists_nil : matchLists ([] : List (MatchCall U)) = ∅ := by
  simp [matchLists]

theorem matchLists_concat (calls : List (MatchCall U)) (call : MatchCall U) :
    matchLists (calls ++ [call]) = insert call.mlist (matchLists calls) := by
  ext s
  simp [matchLists, or_comm, eq_comm]

/-- `Match` is called for every list in the queue. -/
theorem processQueue_spec {b : BnfaStruct U} {M : Match U} (hM : ∀ calls, M calls ≤ 0) (q : List ℕ)
    (hq : ∀ s ∈ q, b.matchList s ≠ []) : ∀ calls, ∃ calls',
      processQueue b M calls q = (calls', false) ∧
        matchLists calls' = matchLists calls ∪ {s | s ∈ q} := by
  induction q with
  | nil => exact fun calls => ⟨calls, rfl, by simp⟩
  | cons s q ih =>
    intro calls
    cases hs : b.matchList s with
    | nil => exact absurd hs (hq s List.mem_cons_self)
    | cons patrn rest =>
      obtain ⟨calls', heq, hlists⟩ := ih (fun t ht => hq t (List.mem_cons_of_mem s ht))
        (calls ++ [⟨s, patrn.userdata, 0⟩])
      refine ⟨calls', ?_, ?_⟩
      · rw [processQueue, hs]
        simp only [if_neg (not_lt.2 (hM _)), gt_iff_lt]
        exact heq
      · rw [hlists, matchLists_concat]
        ext t
        simp only [Set.mem_union, Set.mem_insert_iff, Set.mem_ofPred_eq, List.mem_cons]
        tauto

/-- `_add_queue` on a queue that is not full. -/
theorem addQueue_spec {q : List ℕ} (hlen : q.length < maxInq) (s : ℕ) :
    (∀ t, t ∈ (addQueue q s).1 ↔ t = s ∨ t ∈ q) ∧
      ((addQueue q s).2 = false → (addQueue q s).1.length < maxInq) := by
  rw [addQueue]
  by_cases hs : s ∈ q
  · rw [if_pos hs]
    refine ⟨fun t => ⟨Or.inr, ?_⟩, fun _ => hlen⟩
    rintro (rfl | ht)
    · exact hs
    · exact ht
  · rw [if_neg hs, if_pos hlen]
    refine ⟨fun t => by simp [or_comm], fun hfull => ?_⟩
    have hne : ¬ (q ++ [s]).length = maxInq := by simpa using hfull
    have hlt : (q ++ [s]).length = q.length + 1 := by simp
    show (q ++ [s]).length < maxInq
    omega

/-! ### A compiled matcher -/

/-- What a search needs of the trie that was packed. -/
structure Compiled (b : BnfaStruct U) (word : ℕ → List UInt8) : Prop where
  packable : Packable b
  spelled : Spelled b word b.numStates
  keys : KeysNodup b
  back : ∀ s, 0 < s → s < b.numStates → FailBack b word b.numStates s

/-- What `bnfaCompile` returns is such a trie with its array. -/
theorem exists_compiled_of_compile {ps : List (BnfaPattern U)} {flag : Bool} {b' : BnfaStruct U}
    (h : bnfaCompile (bnfaSetOpt (addPatterns ps) flag) = some b') :
    ∃ b word, Compiled b word ∧ b' = { b with transList := packed b } := by
  have hN : ¬ (addStates (addPatterns ps)).numStates > sparseMaxState := by
    intro hN
    have hN' : (addStates (bnfaSetOpt (addPatterns ps) flag)).numStates > sparseMaxState := by
      rw [addStates_setOpt]
      exact hN
    rw [bnfaCompile] at h
    simp only [if_pos hN'] at h
    exact absurd h.symm (Option.some_ne_none _)
  obtain ⟨b, word, hnfa, -, hfail, -, hcompile⟩ := exists_nfa_of_states ps flag hN
  rw [hcompile] at h
  have hskips : ∀ s, 0 < s → s < b.numStates → FailSkips b word b.numStates s :=
    fun s h0 hs => (hfail s h0 hs).skips hnfa.spelled h0 hs
  -- a trie that is too large is not packed
  have hfits : ∀ b₁ : BnfaStruct U, convListToCsparseArray b₁ = some b' →
      csparseSize b₁ ≤ sparseMaxState := by
    intro b₁ hconv
    by_contra hsize
    rw [convListToCsparseArray, if_pos (by omega)] at hconv
    exact absurd hconv.symm (Option.some_ne_none _)
  cases flag with
  | false =>
    have hconv : convListToCsparseArray b = some b' := h
    have hpack := hnfa.packable (fun s h0 hs => (hskips s h0 hs).1) (hfits b hconv)
    refine ⟨b, word, ⟨hpack, hnfa.spelled, hnfa.keys, fun s h0 hs => (hskips s h0 hs).back⟩, ?_⟩
    rw [hpack.convListToCsparseArray_eq] at hconv
    exact (Option.some.inj hconv).symm
  | true =>
    obtain ⟨b₁, hopt, hsame, hzero, hback, -, -⟩ := optNfa_spec hnfa hfail
    generalize b₁.failState = failState at hsame
    subst hsame
    have hconv : convListToCsparseArray { b with failState := failState } = some b' := by
      rw [if_pos rfl, hopt] at h
      exact h
    have h₁ : Nfa { b with failState := failState } ps word :=
      ⟨hnfa.spelled.of_get fun _ _ => rfl, hnfa.keys, hnfa.words, hnfa.lists, hzero⟩
    have hpack := h₁.packable (fun s h0 hs => (hback s h0 hs).1) (hfits _ hconv)
    refine ⟨_, word, ⟨hpack, h₁.spelled, h₁.keys, hback⟩, ?_⟩
    rw [hpack.convListToCsparseArray_eq] at hconv
    exact (Option.some.inj hconv).symm

/-- The match bit in the control word of a state. -/
theorem controlByte_match (b : BnfaStruct U) (k : ℕ) :
    controlByte b k &&& 0x80 = if (b.matchList k).isEmpty then 0 else 0x80 := by
  have hbits : ∀ n < 65, ∀ m ∈ [0, 0x80], (n ||| m) &&& 0x80 = m := by decide
  have hle : (if storedFull b k then 0x40 else (rowInputs (convRowToFull b k)).length) < 65 := by
    split_ifs with hfull
    · decide
    · simp only [storedFull, decide_eq_true_eq, not_or, not_lt] at hfull
      have h63 : (rowInputs (convRowToFull b k)).length ≤ 63 := hfull.2
      omega
  rw [controlByte]
  refine hbits _ hle _ ?_
  split_ifs <;> simp

theorem Packable.matchBitAt_index {b : BnfaStruct U} (h : Packable b) {s : ℕ}
    (hs : s < b.numStates) :
    matchBitAt { b with transList := packed b } (index b s) = true ↔ b.matchList s ≠ [] := by
  have hbit : (packed b).getD (index b s + 1) 0 &&& sparseMatchBit =
      (controlByte b s &&& 0x80) <<< 24 := by
    rw [packed_control hs]
    exact Rows.field_and (h.index_lt (h.fail s hs)) 0x80
  rw [matchBitAt]
  simp only [hbit, controlByte_match]
  cases b.matchList s with
  | nil => simp
  | cons patrn rest => simp

section Compiled

variable {b : BnfaStruct U} {word : ℕ → List UInt8}

/-- A step of the search. -/
theorem Compiled.exists_next (h : Compiled b word) {s : ℕ} (hs : s < b.numStates) (c : UInt8) :
    ∃ t < b.numStates, locateNext b (xlatcase c) b.numStates s = some t ∧
      getNextStateCsparseNfa (packed b) (xlatcase c) b.numStates (index b s) =
        some (index b t) := by
  have hlen := h.spelled.length_word_le hs
  obtain ⟨t, hloc, ht, -⟩ :=
    locateNext_back h.spelled h.back (xlatcase c) b.numStates hs (by omega)
  refine ⟨t, ht, hloc, ?_⟩
  rw [h.packable.getNextStateCsparseNfa_eq h.spelled h.keys _ _ hs, hloc]
  rfl

theorem index_inj {s t : ℕ} (hs : s < b.numStates)
    (ht : t < b.numStates) : index b s = index b t ↔ s = t := by
  refine ⟨fun heq => ?_, fun heq => by rw [heq]⟩
  rw [← packed_state hs, heq, packed_state ht]

/-- The match states visited from a state. -/
def visitedFrom (b : BnfaStruct U) (s : ℕ) (T : List UInt8) : Set ℕ :=
  {t | ∃ u v, T = u ++ v ∧ u ≠ [] ∧
    u.foldlM (fun s c => locateNext b (xlatcase c) b.numStates s) s = some t ∧ t ≠ 0 ∧
    b.matchList t ≠ []}

theorem visitedFrom_nil (b : BnfaStruct U) (s : ℕ) : visitedFrom b s [] = ∅ := by
  refine Set.eq_empty_iff_forall_notMem.2 ?_
  rintro t ⟨u, v, hT, hu, -⟩
  exact hu (List.append_eq_nil_iff.1 hT.symm).1

theorem visitedFrom_cons {s t : ℕ} {c : UInt8}
    (hloc : locateNext b (xlatcase c) b.numStates s = some t) (T : List UInt8) :
    visitedFrom b s (c :: T) = {r | r = t ∧ t ≠ 0 ∧ b.matchList t ≠ []} ∪ visitedFrom b t T := by
  ext r
  constructor
  · rintro ⟨u, v, hT, hu, hfold, h0, hr⟩
    cases u with
    | nil => exact absurd rfl hu
    | cons d u =>
      obtain ⟨rfl, rfl⟩ := List.cons.inj hT
      rw [List.foldlM_cons, hloc] at hfold
      cases u with
      | nil =>
        obtain rfl : t = r := Option.some.inj hfold
        exact .inl ⟨rfl, h0, hr⟩
      | cons e u => exact .inr ⟨e :: u, v, rfl, List.cons_ne_nil e u, hfold, h0, hr⟩
  · rintro (⟨rfl, h0, hr⟩ | ⟨u, v, rfl, hu, hfold, h0, hr⟩)
    · refine ⟨[c], T, rfl, List.cons_ne_nil c [], ?_, h0, hr⟩
      rw [List.foldlM_cons, hloc]
      rfl
    · refine ⟨c :: u, v, rfl, List.cons_ne_nil c u, ?_, h0, hr⟩
      rw [List.foldlM_cons, hloc]
      exact hfold

/-- The visited states by their indices. -/
theorem Compiled.visited_eq (h : Compiled b word) (T : List UInt8) :
    visited { b with transList := packed b } T = visitedFrom b 0 T := by
  ext s
  constructor
  · rintro ⟨u, v, sindex, hT, hu, hsearch, h0, hs, hlist⟩
    rw [searchIndex_eq h.packable h.spelled h.keys] at hsearch
    obtain ⟨t, ht, rfl⟩ := Option.map_eq_some_iff.1 hsearch
    obtain ⟨t', heq, hN, -⟩ := searchState_back h.spelled h.back (T := []) rfl h.packable.pos u
    obtain rfl : t = t' := Option.some.inj (ht.symm.trans heq)
    obtain rfl : s = t := hs.trans (packed_state hN)
    exact ⟨u, v, hT, hu, ht, fun hz => h0 (index_eq_zero.2 hz), hlist⟩
  · rintro ⟨u, v, hT, hu, ht, h0, hlist⟩
    obtain ⟨t', heq, hN, -⟩ := searchState_back h.spelled h.back (T := []) rfl h.packable.pos u
    obtain rfl : s = t' := Option.some.inj (ht.symm.trans heq)
    refine ⟨u, v, index b s, hT, hu, ?_, fun hz => h0 (index_eq_zero.1 hz),
      (packed_state hN).symm, hlist⟩
    rw [searchIndex_eq h.packable h.spelled h.keys]
    exact congrArg (Option.map (index b)) ht

/-! ### Both searches -/

/-- The round of a search in a state that is no match state, or at which `Match` has been called. -/
theorem visitedFrom_cons_of_mem {s t : ℕ} {c : UInt8} {T : List UInt8} {R : Set ℕ}
    (hloc : locateNext b (xlatcase c) b.numStates s = some t)
    (h : t ≠ 0 → b.matchList t ≠ [] → t ∈ R) :
    R ∪ visitedFrom b t T = R ∪ visitedFrom b s (c :: T) := by
  rw [visitedFrom_cons hloc, ← Set.union_assoc]
  refine congrArg (· ∪ _) (Set.union_eq_left.2 ?_).symm
  rintro r ⟨rfl, h0, hlist⟩
  exact h h0 hlist

/-- The round of a search that adds a match state. -/
theorem visitedFrom_cons_of_insert {s t : ℕ} {c : UInt8} {T : List UInt8} {R R' : Set ℕ}
    (hloc : locateNext b (xlatcase c) b.numStates s = some t) (h0 : t ≠ 0)
    (hlist : b.matchList t ≠ []) (hR : R' = insert t R) :
    R' ∪ visitedFrom b t T = R ∪ visitedFrom b s (c :: T) := by
  rw [visitedFrom_cons hloc, ← Set.union_assoc, hR]
  refine congrArg (· ∪ _) ?_
  ext r
  simp only [Set.mem_insert_iff, Set.mem_union, Set.mem_ofPred_eq]
  constructor
  · rintro (rfl | hr)
    · exact .inr ⟨rfl, h0, hlist⟩
    · exact .inl hr
  · rintro (hr | ⟨rfl, -⟩)
    · exact .inr hr
    · exact .inl rfl

variable {M : Match U}

/-- The queued search: what has been called or is in the queue grows by the states visited.  The
state it starts in has been called or is in the queue, if it is a match state. -/
theorem Compiled.searchLoopQ_spec (h : Compiled b word) (hM : ∀ calls, M calls ≤ 0)
    (T : List UInt8) : ∀ {s : ℕ} (q : List ℕ) (calls : List (MatchCall U)), s < b.numStates →
      q.length < maxInq → (∀ t ∈ q, b.matchList t ≠ []) →
      (s ≠ 0 → b.matchList s ≠ [] → s ∈ matchLists calls ∪ {t | t ∈ q}) →
      ∃ r, searchLoopQ { b with transList := packed b } M T (index b s) q calls = some r ∧
        matchLists r.calls = matchLists calls ∪ {t | t ∈ q} ∪ visitedFrom b s T := by
  induction T with
  | nil =>
    intro s q calls _ _ hq _
    obtain ⟨calls', heq, hlists⟩ := processQueue_spec (b := { b with transList := packed b }) hM q hq
      calls
    refine ⟨⟨calls', some (index b s), 0⟩, ?_, ?_⟩
    · rw [searchLoopQ, heq]
      rfl
    · rw [visitedFrom_nil, Set.union_empty]
      exact hlists
  | cons c T ih =>
    intro s q calls hs hlen hq hlast
    obtain ⟨t, ht, hloc, hnext⟩ := h.exists_next hs c
    have hstate : (packed b).getD (index b t) 0 = t := packed_state ht
    rw [searchLoopQ]
    simp only [hnext, hstate]
    by_cases hmatch : t ≠ 0 ∧ b.matchList t ≠ []
    · have hcond : index b t ≠ 0 ∧
          matchBitAt { b with transList := packed b } (index b t) = true :=
        ⟨fun hz => hmatch.1 (index_eq_zero.1 hz), (h.packable.matchBitAt_index ht).2 hmatch.2⟩
      rw [if_pos hcond]
      by_cases hsame : t = s
      · -- the same state as before
        subst hsame
        rw [if_pos rfl]
        obtain ⟨r, hr, hcalls⟩ := ih q calls ht hlen hq hlast
        exact ⟨r, hr, hcalls.trans (visitedFrom_cons_of_mem hloc hlast)⟩
      · obtain ⟨hmem, hfull⟩ := addQueue_spec hlen t
        have hq' : ∀ r ∈ (addQueue q t).1, b.matchList r ≠ [] := by
          intro r hr
          rcases (hmem r).1 hr with rfl | hr
          · exact hmatch.2
          · exact hq r hr
        have hinsert : matchLists calls ∪ {r | r ∈ (addQueue q t).1} =
            insert t (matchLists calls ∪ {r | r ∈ q}) := by
          ext r
          simp only [Set.mem_union, Set.mem_ofPred_eq, Set.mem_insert_iff, hmem r]
          tauto
        rw [if_neg fun heq => hsame ((index_inj ht hs).1 heq), if_neg hmatch.2]
        cases hf : (addQueue q t).2 with
        | false =>
          obtain ⟨r, hr, hcalls⟩ := ih _ calls ht (hfull hf) hq' (fun _ _ => .inr ((hmem t).2 (.inl rfl)))
          refine ⟨r, by simpa [hf] using hr, hcalls.trans ?_⟩
          exact visitedFrom_cons_of_insert hloc hmatch.1 hmatch.2 hinsert
        | true =>
          -- the queue is emptied in the middle of the text
          obtain ⟨calls', heq, hlists⟩ := processQueue_spec
            (b := { b with transList := packed b }) hM (addQueue q t).1 hq' calls
          have hcalls' : matchLists calls' ∪ {r | r ∈ ([] : List ℕ)} = matchLists calls' := by
            simp
          obtain ⟨r, hr, hcalls⟩ := ih [] calls' ht (by decide) (by simp)
            (fun _ _ => by
              rw [hcalls', hlists]
              exact .inr ((hmem t).2 (.inl rfl)))
          refine ⟨r, by simpa [hf, heq] using hr, hcalls.trans ?_⟩
          rw [hcalls', hlists]
          exact visitedFrom_cons_of_insert hloc hmatch.1 hmatch.2 hinsert
    · have hcond : ¬ (index b t ≠ 0 ∧
          matchBitAt { b with transList := packed b } (index b t) = true) := by
        rintro ⟨h0, hbit⟩
        exact hmatch ⟨fun hz => h0 (index_eq_zero.2 hz), (h.packable.matchBitAt_index ht).1 hbit⟩
      have hno : t ≠ 0 → b.matchList t ≠ [] → t ∈ matchLists calls ∪ {r | r ∈ q} :=
        fun h0 hlist => absurd ⟨h0, hlist⟩ hmatch
      rw [if_neg hcond]
      obtain ⟨r, hr, hcalls⟩ := ih q calls ht hlen hq hno
      exact ⟨r, hr, hcalls.trans (visitedFrom_cons_of_mem hloc hno)⟩

/-- The immediate search: `Match` has been called for the last match. -/
theorem Compiled.searchLoop_spec (h : Compiled b word) (hM : ∀ calls, M calls ≤ 0)
    (T : List UInt8) : ∀ {s : ℕ} (pos lastMatch nfound : ℕ) (calls : List (MatchCall U)),
      s < b.numStates →
      (∀ t < b.numStates, index b t = lastMatch → t ∈ matchLists calls) →
      ∃ r, searchLoop { b with transList := packed b } M pos T (index b s) lastMatch nfound calls =
          some r ∧
        matchLists r.calls = matchLists calls ∪ visitedFrom b s T := by
  induction T with
  | nil =>
    intro s _ _ _ calls _ _
    refine ⟨_, rfl, ?_⟩
    rw [visitedFrom_nil, Set.union_empty]
  | cons c T ih =>
    intro s pos lastMatch nfound calls hs hlast
    obtain ⟨t, ht, hloc, hnext⟩ := h.exists_next hs c
    have hstate : (packed b).getD (index b t) 0 = t := packed_state ht
    rw [searchLoop]
    simp only [hnext, hstate]
    by_cases hmatch : t ≠ 0 ∧ b.matchList t ≠ []
    · have hcond : index b t ≠ 0 ∧
          matchBitAt { b with transList := packed b } (index b t) = true :=
        ⟨fun hz => hmatch.1 (index_eq_zero.1 hz), (h.packable.matchBitAt_index ht).2 hmatch.2⟩
      rw [if_pos hcond]
      by_cases hsame : index b t = lastMatch
      · rw [if_pos hsame]
        obtain ⟨r, hr, hcalls⟩ := ih (pos + 1) lastMatch nfound calls ht hlast
        exact ⟨r, hr, hcalls.trans (visitedFrom_cons_of_mem hloc fun _ _ => hlast t ht hsame)⟩
      · rw [if_neg hsame]
        cases hlist : b.matchList t with
        | nil => exact absurd hlist hmatch.2
        | cons patrn rest =>
          simp only [gt_iff_lt, if_neg (not_lt.2 (hM _))]
          have hlast' : ∀ lastMatch' ∈ [lastMatch, index b t], ∀ r < b.numStates,
              index b r = lastMatch' → r ∈ insert t (matchLists calls) := by
            intro lastMatch' hmem r hr heq
            rcases List.mem_pair.1 hmem with rfl | rfl
            · exact .inr (hlast r hr heq)
            · exact .inl ((index_inj hr ht).1 heq)
          obtain ⟨r, hr, hcalls⟩ := ih (pos + 1) (if M _ < 0 then lastMatch else index b t)
            (nfound + 1) (calls ++ [⟨t, patrn.userdata, (pos : ℤ) - patrn.casepatrn.length + 1⟩]) ht
            (by
              rw [matchLists_concat]
              refine hlast' _ ?_
              split_ifs <;> simp)
          refine ⟨r, hr, hcalls.trans ?_⟩
          exact visitedFrom_cons_of_insert hloc hmatch.1 hmatch.2 (matchLists_concat _ _)
    · have hcond : ¬ (index b t ≠ 0 ∧
          matchBitAt { b with transList := packed b } (index b t) = true) := by
        rintro ⟨h0, hbit⟩
        exact hmatch ⟨fun hz => h0 (index_eq_zero.2 hz), (h.packable.matchBitAt_index ht).1 hbit⟩
      rw [if_neg hcond]
      obtain ⟨r, hr, hcalls⟩ := ih (pos + 1) lastMatch nfound calls ht hlast
      exact ⟨r, hr, hcalls.trans (visitedFrom_cons_of_mem hloc
        fun h0 hlist => absurd ⟨h0, hlist⟩ hmatch)⟩

end Compiled

/-- **The queue loses and invents no match list.**  Over every text both searches of a compiled
matcher call `Match` for the match lists of the match states visited. -/
theorem queue_matchLists {ps : List (BnfaPattern U)} {flag : Bool} {b : BnfaStruct U}
    (hb : bnfaCompile (bnfaSetOpt (addPatterns ps) flag) = some b) {M : Match U}
    (hM : ∀ calls, M calls ≤ 0) (T : List UInt8) :
    ∃ rq r, bnfaSearchCsparseNfaQ b M T 0 = some rq ∧ bnfaSearchCsparseNfa b M T 0 = some r ∧
      matchLists rq.calls = matchLists r.calls ∧ matchLists r.calls = visited b T := by
  obtain ⟨b, word, h, rfl⟩ := exists_compiled_of_compile hb
  obtain ⟨rq, hrq, hcallsq⟩ := h.searchLoopQ_spec hM T [] [] h.packable.pos
    (by decide) (by simp) (fun h0 => absurd rfl h0)
  obtain ⟨r, hr, hcalls⟩ := h.searchLoop_spec hM T 0 lastStateInit 0 [] h.packable.pos (fun t ht heq => by
      have hlt := h.packable.index_lt ht
      rw [heq] at hlt
      exact absurd hlt (by decide))
  rw [matchLists_nil, Set.empty_union] at hcalls
  refine ⟨rq, r, hrq, hr, ?_, hcalls.trans (h.visited_eq T).symm⟩
  rw [hcallsq, hcalls, matchLists_nil]
  simp

/-- The patterns `he` and `she`, over `ushe`. -/
theorem queue_matchLists_she :
    ∃ b, bnfaCompile (bnfaSetOpt (addPatterns
        [pattern 0 [104, 101], pattern 1 [115, 104, 101]]) false) = some b ∧
      ∃ rq r, bnfaSearchCsparseNfaQ b (fun _ => 0) [117, 115, 104, 101] 0 = some rq ∧
        bnfaSearchCsparseNfa b (fun _ => 0) [117, 115, 104, 101] 0 = some r ∧
        matchLists rq.calls = matchLists r.calls ∧
        matchLists r.calls = visited b [117, 115, 104, 101] := by
  have hsome : (bnfaCompile (bnfaSetOpt (addPatterns
      [pattern 0 [104, 101], pattern 1 [115, 104, 101]]) false)).isSome = true := by
    decide +kernel
  obtain ⟨b, hb⟩ := Option.isSome_iff_exists.1 hsome
  exact ⟨b, hb, queue_matchLists hb (fun _ => le_rfl) _⟩

end Snort.Bnfa
