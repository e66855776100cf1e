import Snort.Bnfa.Search

/-!
# What a compiled matcher reports

Over a text the matcher is in the state that spells the longest suffix which is a prefix of a
pattern, and the match list of that state holds the patterns that end there.
-/

namespace Snort.Bnfa

open AhoCorasick

variable {U : Type*}

/-- A new matcher with patterns added in order. -/
def addPatterns (ps : List (BnfaPattern U)) : BnfaStruct U :=
  ps.foldl (fun b p => bnfaAddPattern b p.casepatrn p.nocase p.negative p.userdata) bnfaNew

theorem addPatterns_eq (ps : List (BnfaPattern U)) :
    addPatterns ps = { (bnfaNew : BnfaStruct U) with patterns := ps.reverse } := by
  have hfold : ∀ (ps : List (BnfaPattern U)) (b : BnfaStruct U),
      ps.foldl (fun b p => bnfaAddPattern b p.casepatrn p.nocase p.negative p.userdata) b =
        { b with patterns := ps.reverse ++ b.patterns } := by
    intro ps
    induction ps with
    | nil => exact fun _ => rfl
    | cons p ps ih =>
      intro b
      rw [List.foldl_cons, ih, bnfaAddPattern, List.reverse_cons, List.append_assoc]
      rfl
  rw [addPatterns, hfold]
  exact congrArg (fun l => { (bnfaNew : BnfaStruct U) with patterns := l }) (List.append_nil _)

theorem bnfaSetOpt_addPatterns (ps : List (BnfaPattern U)) :
    bnfaSetOpt (addPatterns ps) false = addPatterns ps := by
  rw [addPatterns_eq]
  rfl

/-! ### Compiling -/

/-- The trie of `ps`, before its states are counted. -/
theorem exists_built (ps : List (BnfaPattern U)) (flag : Bool) :
    ∃ b word, Built b ps word ∧ addStates (bnfaSetOpt (addPatterns ps) flag) =
      { b with numStates := b.numStates + 1 } ∧ b.opt = flag ∧ b.failState = fun _ => 0 := by
  let b₀ : BnfaStruct U :=
    { (bnfaNew : BnfaStruct U) with
      patterns := ps.reverse
      opt := flag
      maxStates := 0 + (ps.reverse.map fun p => p.casepatrn.length).sum + 1 }
  have h₀ : Built b₀ [] fun _ => [] := built_empty rfl rfl rfl rfl rfl
  obtain ⟨⟨word, h⟩, hsetup⟩ := foldl_addPatternStates_built ps.reverse h₀ (by
    show 0 + _ < 0 + _ + 1
    omega)
  refine ⟨_, word, h.congr fun p => ?_, ?_, hsetup.2.1, hsetup.2.2⟩
  · rw [List.append_nil, List.reverse_reverse]
  · rw [addPatterns_eq]
    rfl

theorem csparseSize_congr {b b' : BnfaStruct U} (hN : b'.numStates = b.numStates)
    (hzero : b'.zeroRow = b.zeroRow) (htrans : b'.transTable = b.transTable) :
    csparseSize b' = csparseSize b := by
  have hrow : convRowToFull b' = convRowToFull b := by
    funext k
    rw [convRowToFull, convRowToFull, hzero, htrans]
  have hfull : storedFull b' = storedFull b := by
    funext k
    rw [storedFull, storedFull, hrow]
  rw [csparseSize, csparseSize, hN, hrow, hfull]

theorem Nfa.packable {b : BnfaStruct U} {pats : List (BnfaPattern U)} {word : ℕ → List UInt8}
    (h : Nfa b pats word) (hfail : ∀ s, 0 < s → s < b.numStates → b.failState s < b.numStates)
    (hsize : csparseSize b ≤ sparseMaxState) : Packable b where
  pos := h.spelled.pos
  fail k hk := by
    rcases Nat.eq_zero_or_pos k with rfl | h0
    · rw [h.failZero]
      exact hk
    · exact hfail k h0 hk
  next k hk c := by
    have heq := listGetNextState_eq h.spelled h.keys hk c
    split_ifs at heq with hz
    · rw [hz.2]
      exact h.spelled.pos
    · exact (h.spelled.next_word hk heq).1
  size := hsize

/-! ### The optimisation flag -/

theorem matchStates_setOpt (b : BnfaStruct U) (flag : Bool) (cs : List UInt8) :
    ∀ s, matchStates (bnfaSetOpt b flag) s cs = matchStates b s cs := by
  induction cs with
  | nil => exact fun _ => rfl
  | cons c cs ih =>
    intro s
    have hget : listGetNextState (bnfaSetOpt b flag) s (foldCase (bnfaSetOpt b flag) c) =
        listGetNextState b s (foldCase b c) := rfl
    rw [matchStates, matchStates, hget]
    simp only [ih]

theorem listPutNextState_setOpt (b : BnfaStruct U) (flag : Bool) (s next : ℕ) (c : UInt8) :
    listPutNextState (bnfaSetOpt b flag) s c next =
      (listPutNextState b s c next).map (bnfaSetOpt · flag) := by
  have hmax : (bnfaSetOpt b flag).maxStates = b.maxStates := rfl
  rw [listPutNextState, listPutNextState, hmax]
  by_cases h : s ≥ b.maxStates
  · rw [if_pos h, if_pos h]
    rfl
  · rw [if_neg h, if_neg h]
    by_cases h0 : s = 0
    · rw [if_pos h0, if_pos h0]
      rfl
    · rw [if_neg h0, if_neg h0]
      rfl

theorem newStates_cons (b : BnfaStruct U) (s : ℕ) (c : UInt8) (cs : List UInt8) :
    newStates b s (c :: cs) =
      (listPutNextState { b with numStates := b.numStates + 1 } s (foldCase b c)
          (b.numStates + 1)).elim ({ b with numStates := b.numStates + 1 }, none) fun b =>
        if b.numStates ≥ b.maxStates then (b, none) else newStates b b.numStates cs := by
  have hfold : foldCase { b with numStates := b.numStates + 1 } c = foldCase b c := rfl
  rw [newStates, hfold]
  cases listPutNextState { b with numStates := b.numStates + 1 } s (foldCase b c)
      (b.numStates + 1) with
  | none => rfl
  | some _ => rfl

theorem newStates_setOpt (flag : Bool) (cs : List UInt8) : ∀ (b : BnfaStruct U) (s : ℕ),
    newStates (bnfaSetOpt b flag) s cs =
      (bnfaSetOpt (newStates b s cs).1 flag, (newStates b s cs).2) := by
  induction cs with
  | nil => exact fun _ _ => rfl
  | cons c cs ih =>
    intro b s
    have hput : listPutNextState
        { bnfaSetOpt b flag with numStates := (bnfaSetOpt b flag).numStates + 1 } s
        (foldCase (bnfaSetOpt b flag) c) ((bnfaSetOpt b flag).numStates + 1) =
      (listPutNextState { b with numStates := b.numStates + 1 } s (foldCase b c)
        (b.numStates + 1)).map (bnfaSetOpt · flag) :=
      listPutNextState_setOpt { b with numStates := b.numStates + 1 } flag s _ _
    rw [newStates_cons, newStates_cons, hput]
    cases listPutNextState { b with numStates := b.numStates + 1 } s (foldCase b c)
        (b.numStates + 1) with
    | none => rfl
    | some b₁ =>
      show (if b₁.numStates ≥ b₁.maxStates then (bnfaSetOpt b₁ flag, none)
        else newStates (bnfaSetOpt b₁ flag) b₁.numStates cs) =
        (bnfaSetOpt (if b₁.numStates ≥ b₁.maxStates then (b₁, none)
          else newStates b₁ b₁.numStates cs).1 flag, (if b₁.numStates ≥ b₁.maxStates then (b₁, none)
          else newStates b₁ b₁.numStates cs).2)
      by_cases h : b₁.numStates ≥ b₁.maxStates
      · rw [if_pos h, if_pos h]
      · rw [if_neg h, if_neg h]
        exact ih b₁ b₁.numStates

theorem addPatternStates_setOpt (flag : Bool) (b : BnfaStruct U) (p : BnfaPattern U) :
    addPatternStates (bnfaSetOpt b flag) p = bnfaSetOpt (addPatternStates b p) flag := by
  rw [addPatternStates, addPatternStates, matchStates_setOpt]
  simp only [newStates_setOpt]
  rcases newStates b (matchStates b 0 p.casepatrn).1 (matchStates b 0 p.casepatrn).2 with ⟨b₁, _ | s⟩
  · rfl
  · rfl

/-- The trie does not depend on the flag. -/
theorem addStates_setOpt (flag : Bool) (b : BnfaStruct U) :
    addStates (bnfaSetOpt b flag) = bnfaSetOpt (addStates b) flag := by
  have hfold : ∀ (ps : List (BnfaPattern U)) (b : BnfaStruct U),
      ps.foldl addPatternStates (bnfaSetOpt b flag) =
        bnfaSetOpt (ps.foldl addPatternStates b) flag := by
    intro ps
    induction ps with
    | nil => exact fun _ => rfl
    | cons p ps ih =>
      intro b
      rw [List.foldl_cons, List.foldl_cons, addPatternStates_setOpt, ih]
  have := hfold b.patterns { b with
    maxStates := b.maxStates + (b.patterns.map fun p => p.casepatrn.length).sum + 1
    numStates := 0 }
  exact congrArg (fun b : BnfaStruct U => { b with numStates := b.numStates + 1 }) this

theorem bnfaCompile_eq {b : BnfaStruct U} (hN : ¬ (addStates b).numStates > sparseMaxState) :
    bnfaCompile b =
      (buildNfa { addStates b with failState := fun _ => 0 }).bind convListToCsparseArray := by
  rw [bnfaCompile]
  simp only [if_neg hN]
  cases buildNfa { addStates b with failState := fun _ => 0 } with
  | none => rfl
  | some _ => rfl

theorem buildNfa_eq (b : BnfaStruct U) :
    buildNfa b =
      (buildLoop b.numStates
        { b with failState := fun s => if s ∈ firstStates b then 0 else b.failState s }
        (firstStates b)).bind fun b => if b.opt then optNfa b else some b := by
  rw [buildNfa]
  show _ = (buildLoop b.numStates _ _).bind _
  rw [firstStates]
  cases buildLoop b.numStates { b with
      failState := fun s => if s ∈ (alphabet.map b.zeroRow).filter (· ≠ 0) then 0
        else b.failState s } ((alphabet.map b.zeroRow).filter (· ≠ 0)) with
  | none => rfl
  | some _ => rfl

/-- The automaton that `bnfaCompile` optimises and packs. -/
theorem exists_nfa_of_states (ps : List (BnfaPattern U)) (flag : Bool)
    (hN : ¬ (addStates (addPatterns ps)).numStates > sparseMaxState) :
    ∃ b word, Nfa b ps word ∧ csparseSize b = csparseSize (addStates (addPatterns ps)) ∧
      (∀ s, 0 < s → s < b.numStates → FailLongest b word b.numStates s) ∧
      Spelled (addStates (addPatterns ps)) word b.numStates ∧
      bnfaCompile (bnfaSetOpt (addPatterns ps) flag) =
        (if flag then optNfa b else some b).bind convListToCsparseArray := by
  obtain ⟨b₀, word, hbuilt, hadd, hopt, -⟩ := exists_built ps flag
  have hset := addStates_setOpt flag (addPatterns ps)
  obtain ⟨b, hloop, ⟨failState, matchList, rfl⟩, hnfa, hfail⟩ := hbuilt.buildLoop
  have hN' : ¬ (addStates (bnfaSetOpt (addPatterns ps) flag)).numStates > sparseMaxState := by
    rw [hset]
    exact hN
  have hbuild := buildNfa_eq { addStates (bnfaSetOpt (addPatterns ps) flag) with
    failState := fun _ => 0 }
  rw [hadd] at hbuild
  refine ⟨_, word, hnfa, ?_, hfail, ?_, ?_⟩
  · have hsize : csparseSize (addStates (bnfaSetOpt (addPatterns ps) flag)) =
        csparseSize (addStates (addPatterns ps)) := by
      rw [hset]
      rfl
    rw [← hsize, hadd]
    exact csparseSize_congr rfl rfl rfl
  · have hget : ∀ s c, listGetNextState (addStates (addPatterns ps)) s c =
        listGetNextState b₀ s c := fun s c => by
      have : listGetNextState (bnfaSetOpt (addStates (addPatterns ps)) flag) s c =
          listGetNextState b₀ s c := by
        rw [← hset, hadd]
        rfl
      exact this
    exact hbuilt.spelled.of_get hget
  · have hflag : (startNfa b₀).opt = flag := hopt
    rw [bnfaCompile_eq hN', hadd, hbuild]
    refine (congrArg (fun r => (Option.bind r _).bind convListToCsparseArray) hloop).trans ?_
    rw [Option.bind_some, hflag]

theorem exists_nfa (ps : List (BnfaPattern U)) (flag : Bool)
    (hsize : csparseSize (addStates (addPatterns ps)) ≤ sparseMaxState) :
    ∃ b word, Nfa b ps word ∧ csparseSize b ≤ sparseMaxState ∧
      (∀ s, 0 < s → s < b.numStates → FailLongest b word b.numStates s) ∧
      Spelled (addStates (addPatterns ps)) word b.numStates ∧
      bnfaCompile (bnfaSetOpt (addPatterns ps) flag) =
        (if flag then optNfa b else some b).bind convListToCsparseArray := by
  have hN := two_mul_le_csparseSize (addStates (addPatterns ps))
  obtain ⟨b, word, hnfa, heq, hrest⟩ := exists_nfa_of_states ps flag (by omega)
  exact ⟨b, word, hnfa, heq ▸ hsize, hrest⟩

/-! ### The state after a text -/

/-- `w` is a prefix of an upper-cased pattern, or empty. -/
def IsPrefix (ps : List (BnfaPattern U)) (w : List UInt8) : Prop :=
  w = [] ∨ ∃ p ∈ ps, w <+: upper p.casepatrn

theorem Nfa.words_eq {b : BnfaStruct U} {ps : List (BnfaPattern U)} {word : ℕ → List UInt8}
    (h : Nfa b ps word) : Words word b.numStates = IsPrefix ps :=
  funext fun w => propext (h.words w)

/-- The walk from state 0 along the transitions of the trie. -/
def trieState (b : BnfaStruct U) (w : List UInt8) : Option ℕ :=
  w.foldlM (fun s c => (listGetNextState b s c).filter (· ≠ 0)) 0

theorem Spelled.trieState_word {b : BnfaStruct U} {word : ℕ → List UInt8} {N : ℕ}
    (h : Spelled b word N) : ∀ {s : ℕ}, s < N → trieState b (word s) = some s := by
  intro s
  induction s using Nat.strong_induction_on with
  | _ s ih =>
    intro hs
    rcases Nat.eq_zero_or_pos s with rfl | h0
    · rw [h.zero]
      rfl
    · obtain ⟨t, c, hts, hn, hw⟩ := h.word_parent h0 hs
      have hstep : (listGetNextState b t c).filter (· ≠ 0) = some s := by
        rw [hn]
        simp [h0.ne']
      rw [hw, trieState, List.foldlM_append]
      have := ih t hts (hts.trans hs)
      rw [trieState] at this
      rw [this]
      simpa using hstep

/-- **Over a text the automaton is in the state of the longest suffix.** -/
theorem searchState_longest {b : BnfaStruct U} {word : ℕ → List UInt8}
    (h : Spelled b word b.numStates)
    (hfail : ∀ s, 0 < s → s < b.numStates → FailSkips b word b.numStates s) (T : List UInt8) :
    ∃ s, searchState b T = some s ∧ s < b.numStates ∧
      word s = longest (Words word b.numStates) (upper T) := by
  induction T using List.reverseRecOn with
  | nil => exact ⟨0, rfl, h.pos, h.zero⟩
  | append_singleton T c ih =>
    obtain ⟨s, heq, hs, hw⟩ := ih
    have hlen := h.length_word_le hs
    obtain ⟨t, hloc, ht, hwt⟩ := locateNext_spec (D := b.numStates) h
      (fun r h0 hr _ => hfail r h0 hr) (xlatcase c) b.numStates hs (by omega) (by omega)
    refine ⟨t, ?_, ht, ?_⟩
    · rw [searchState] at heq
      rw [searchState, List.foldlM_append, heq]
      simpa using hloc
    · rw [hwt, hw, upper_concat]
      exact (longest_concat h.prefixClosed _ _).symm

/-- `w` is the longest suffix of `T` that is a prefix of an upper-cased pattern. -/
structure LongestSuffix (ps : List (BnfaPattern U)) (T w : List UInt8) : Prop where
  isPrefix : IsPrefix ps w
  suffix : w <:+ T
  longest : ∀ v, IsPrefix ps v → v <:+ T → v.length ≤ w.length

theorem longestSuffix_longest (ps : List (BnfaPattern U)) (T : List UInt8) :
    LongestSuffix ps T (longest (IsPrefix ps) T) where
  isPrefix := longest_mem (Or.inl rfl) T
  suffix := longest_suffix T
  longest _ hv hsuf := (suffix_longest hv hsuf).length_le

theorem isPrefix_pattern {ps : List (BnfaPattern U)} {p : BnfaPattern U} (hp : p ∈ ps) :
    IsPrefix ps (upper p.casepatrn) :=
  Or.inr ⟨p, hp, List.prefix_refl _⟩

/-- **Compiled patterns are matched.**  Over every text the packed array leads to the state of the
trie that spells the longest suffix which is a prefix of a pattern; its match list holds the patterns
that are suffixes. -/
theorem search_longest_suffix (ps : List (BnfaPattern U)) (hne : ∀ p ∈ ps, p.casepatrn ≠ [])
    (hsize : csparseSize (addStates (addPatterns ps)) ≤ sparseMaxState) :
    ∃ b, bnfaCompile (addPatterns ps) = some b ∧ ∀ T, ∃ sindex w,
      searchIndex b T = some sindex ∧ LongestSuffix ps (upper T) w ∧
      trieState (addStates (addPatterns ps)) w = some (b.transList.getD sindex 0) ∧
      ∀ p, p ∈ matchesAt b sindex ↔ p ∈ ps ∧ upper p.casepatrn <:+ upper T := by
  obtain ⟨b, word, hnfa, hsize', hfail, htrie, hcompile⟩ := exists_nfa ps false hsize
  rw [bnfaSetOpt_addPatterns] at hcompile
  have hpack := hnfa.packable (fun s h0 hs => (hfail s h0 hs).1) hsize'
  refine ⟨{ b with transList := packed b }, ?_, fun T => ?_⟩
  · exact hcompile.trans hpack.convListToCsparseArray_eq
  · obtain ⟨s, heq, hs, hw⟩ := searchState_longest hnfa.spelled
      (fun s h0 hs => (hfail s h0 hs).skips hnfa.spelled h0 hs) T
    rw [hnfa.words_eq] at hw
    refine ⟨index b s, _, ?_, longestSuffix_longest ps (upper T), ?_, fun p => ?_⟩
    · rw [searchIndex_eq hpack hnfa.spelled hnfa.keys, heq]
      rfl
    · rw [← hw, htrie.trieState_word hs]
      exact congrArg some (packed_state hs).symm
    · rw [matchesAt_index hs, hnfa.lists s hs p, hw, hnfa.words_eq]
      refine and_congr_right fun hp => ?_
      rw [reported_of_ne_nil (hne p hp), suffix_longest_iff (isPrefix_pattern hp)]

/-- The pattern of a string of small letters. -/
def pattern (id : ℕ) (w : List UInt8) : BnfaPattern ℕ := ⟨w, true, false, id⟩

/-- The patterns `he`, `she`, `his` and `hers`. -/
theorem search_longest_suffix_hers :
    let ps := [pattern 0 [104, 101], pattern 1 [115, 104, 101], pattern 2 [104, 105, 115],
      pattern 3 [104, 101, 114, 115]]
    ∃ b, bnfaCompile (addPatterns ps) = some b ∧ ∀ T, ∃ sindex w,
      searchIndex b T = some sindex ∧ LongestSuffix ps (upper T) w ∧
      trieState (addStates (addPatterns ps)) w = some (b.transList.getD sindex 0) ∧
      ∀ p, p ∈ matchesAt b sindex ↔ p ∈ ps ∧ upper p.casepatrn <:+ upper T :=
  search_longest_suffix _ (by decide) (by decide +kernel)

end Snort.Bnfa
