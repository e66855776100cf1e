import Snort.Bnfa.Match

/-!
# The fail-state optimisation

`_bnfa_opt_nfa` skips a fail state whose transitions are all among those of the state itself.
`KcontainsJ` takes this to hold for a state without transitions, whatever the fail state has: such a
state is left with fail state 0.

* No match is lost when every suffix of a dead end of the trie is a dead end.
* Otherwise there is a text over which a pattern is lost.
-/

namespace Snort.Bnfa

open AhoCorasick

variable {U : Type*} {b : BnfaStruct U} {word : ℕ → List UInt8} {N : ℕ}

/-! ### Fail states that go back -/

/-- The fail state of `s` spells a proper suffix. -/
def FailBack (b : BnfaStruct U) (word : ℕ → List UInt8) (N s : ℕ) : Prop :=
  b.failState s < N ∧ word (b.failState s) <:+ word s ∧
    (word (b.failState s)).length < (word s).length

theorem FailSkips.back {s : ℕ} (h : FailSkips b word N s) : FailBack b word N s :=
  ⟨h.1, h.2.suffix, h.2.lt⟩

theorem suffix_concat {u w : List UInt8} (h : u <:+ w) (c : UInt8) : u ++ [c] <:+ w ++ [c] := by
  obtain ⟨t, rfl⟩ := h
  exact ⟨t, by rw [List.append_assoc]⟩

/-- The state found spells a suffix, whatever fail states are followed. -/
theorem locateNext_back (h : Spelled b word N)
    (hfail : ∀ s, 0 < s → s < N → FailBack b word N s) (c : UInt8) :
    ∀ (fuel : ℕ) {s : ℕ}, s < N → (word s).length < fuel →
      ∃ next, locateNext b c fuel s = some next ∧ next < N ∧ word next <:+ word s ++ [c] := by
  intro fuel
  induction fuel with
  | zero => exact fun _ hlt => absurd hlt (Nat.not_lt_zero _)
  | succ fuel ih =>
    intro s hs hlt
    rw [locateNext]
    cases hn : listGetNextState b s c with
    | some t =>
      obtain ⟨ht, hw⟩ := h.next_word hs hn
      exact ⟨t, rfl, ht, hw ▸ longest_suffix _⟩
    | none =>
      have h0 : 0 < s := Nat.pos_of_ne_zero fun h0 => by
        rw [h0, listGetNextState, if_pos rfl] at hn
        cases hn
      obtain ⟨hfN, hsuf, hlen⟩ := hfail s h0 hs
      obtain ⟨next, heq, hnN, hw⟩ := ih hfN (by omega)
      exact ⟨next, heq, hnN, hw.trans (suffix_concat hsuf c)⟩

/-! ### Skipping -/

theorem kContainsJ_iff {tk tj : List BnfaTransNode} (hk : (tk.map BnfaTransNode.key).Nodup)
    (hpos : ∀ c, findNext c tk ≠ some 0) :
    kContainsJ tk tj = true ↔
      tk = [] ∨ ∀ c, findNext c tj ≠ none → findNext c tk ≠ none := by
  have hfull : ∀ c, convNodeToFull tk c ≠ 0 ↔ findNext c tk ≠ none := fun c => by
    have heq : convNodeToFull tk c = (findNext c tk).getD 0 := foldl_update_eq tk hk c
    rw [heq]
    have hc := hpos c
    cases hf : findNext c tk with
    | none => simp
    | some t => simpa [hf] using hc
  have hkeys : ∀ c, (∃ t ∈ tj, t.key = c) ↔ findNext c tj ≠ none := fun c => by
    rw [← List.mem_map]
    exact ⟨fun hm hnone => findNext_none hnone hm, fun hne => by
      obtain ⟨t, ht⟩ := Option.ne_none_iff_exists'.1 hne
      exact findNext_mem ht⟩
  rw [kContainsJ]
  cases tk with
  | nil => simp
  | cons t ts =>
    simp only [List.length_cons, Nat.succ_ne_zero, if_false, List.all_eq_true, decide_eq_true_eq,
      reduceCtorEq, false_or]
    exact ⟨fun h c hc => by
      obtain ⟨t', ht', rfl⟩ := (hkeys c).2 hc
      exact (hfull _).1 (h t' ht'), fun h t' ht' => (hfull _).2 (h _ ((hkeys _).1 ⟨t', ht', rfl⟩))⟩

theorem Spelled.findNext_ne_none (h : Spelled b word N) {s : ℕ} (h0 : 0 < s) (hs : s < N)
    (c : UInt8) : findNext c (b.transTable s) ≠ none ↔ Words word N (word s ++ [c]) := by
  have := h.next_none_iff h0 hs c
  rw [listGetNextState, if_neg h0.ne'] at this
  rw [Ne, this, not_not]

theorem Spelled.transTable_eq_nil (h : Spelled b word N) {s : ℕ} (h0 : 0 < s) (hs : s < N) :
    b.transTable s = [] ↔ DeadEnd (Words word N) (word s) := by
  constructor
  · intro hnil c hc
    have := (h.findNext_ne_none h0 hs c).2 hc
    rw [hnil] at this
    exact this rfl
  · intro hdead
    cases hrow : b.transTable s with
    | nil => rfl
    | cons t ts =>
      refine absurd ((h.findNext_ne_none h0 hs t.key).1 ?_) (hdead t.key)
      rw [hrow, findNext, if_pos rfl]
      exact Option.some_ne_none _

/-- What `KcontainsJ` tells about two states. -/
theorem Spelled.kContainsJ_iff (h : Spelled b word N) (hk : KeysNodup b) {k fs : ℕ} (hk0 : 0 < k)
    (hkN : k < N) (hf0 : 0 < fs) (hfN : fs < N) :
    kContainsJ (b.transTable k) (b.transTable fs) = true ↔
      DeadEnd (Words word N) (word k) ∨
        ∀ c, Words word N (word fs ++ [c]) → Words word N (word k ++ [c]) := by
  have hpos : ∀ c, findNext c (b.transTable k) ≠ some 0 := fun c hc =>
    h.nonzero k c hk0 hkN (by rw [listGetNextState, if_neg hk0.ne', hc])
  rw [Bnfa.kContainsJ_iff (hk k) hpos, h.transTable_eq_nil hk0 hkN]
  simp only [h.findNext_ne_none hk0 hkN, h.findNext_ne_none hf0 hfN]

/-- The loop of `_bnfa_opt_nfa` for state `k`. -/
theorem skipFail_spec (h : Spelled b word N) (hk : KeysNodup b)
    (hfail : ∀ s, 0 < s → s < N → FailBack b word N s) {k : ℕ} (hk0 : 0 < k) (hkN : k < N) :
    ∀ (fuel : ℕ) {fs : ℕ}, fs < N → word fs <:+ word k → (word fs).length < (word k).length →
      (word fs).length < fuel →
      ∃ fs', skipFail b k fuel fs = some fs' ∧ fs' < N ∧ word fs' <:+ word k ∧
        (word fs').length < (word k).length ∧
        (DeadEnd (Words word N) (word k) → fs' = 0) ∧
        (DeadEndsClosed (Words word N) → (∀ s, 0 < s → s < N → FailSkips b word N s) →
          Skips (Words word N) (word k) (word fs) → Skips (Words word N) (word k) (word fs')) := by
  intro fuel
  induction fuel with
  | zero => exact fun _ _ _ hlt => absurd hlt (Nat.not_lt_zero _)
  | succ fuel ih =>
    intro fs hfN hsuf hlen hlt
    rw [skipFail]
    by_cases hcond : fs ≠ 0 ∧ kContainsJ (b.transTable k) (b.transTable fs) = true
    · have hf0 := Nat.pos_of_ne_zero hcond.1
      obtain ⟨hN', hsuf', hlen'⟩ := hfail fs hf0 hfN
      obtain ⟨fs', heq, h1, h2, h3, h4, h5⟩ := ih hN' (hsuf'.trans hsuf) (hlen'.trans hlen) (by omega)
      rw [if_pos hcond]
      refine ⟨fs', heq, h1, h2, h3, h4, fun hclosed hskips hskip => h5 hclosed hskips ?_⟩
      refine hskip.trans (hskips fs hf0 hfN).2 fun c hc => ?_
      rcases (h.kContainsJ_iff hk hk0 hkN hf0 hfN).1 hcond.2 with hdead | hsub
      · -- the fail state is a dead end as well
        have hne : word fs ≠ [] := fun hw => hf0.ne' ((h.word_eq_nil hfN).1 hw)
        exact absurd hc (hclosed _ ⟨k, hkN, rfl⟩ hdead _ hne hsuf c)
      · exact hsub c hc
    · rw [if_neg hcond]
      refine ⟨fs, rfl, hfN, hsuf, hlen, fun hdead => ?_, fun _ _ hskip => hskip⟩
      by_contra hf0
      exact hcond ⟨hf0, (h.kContainsJ_iff hk hk0 hkN (Nat.pos_of_ne_zero hf0) hfN).2 (Or.inl hdead)⟩

/-! ### The whole optimisation -/

/-- The automaton while `_bnfa_opt_nfa` runs; the states in `done` have been visited. -/
structure Skipped (b : BnfaStruct U) (word : ℕ → List UInt8) (N : ℕ) (done : List ℕ) : Prop where
  spelled : Spelled b word N
  keys : KeysNodup b
  numStates : b.numStates = N
  failZero : b.failState 0 = 0
  back : ∀ s, 0 < s → s < N → FailBack b word N s
  deadEnd : ∀ s ∈ done, DeadEnd (Words word N) (word s) → b.failState s = 0
  skips : DeadEndsClosed (Words word N) → ∀ s, 0 < s → s < N → FailSkips b word N s

theorem Skipped.foldlM (ks : List ℕ) : ∀ {b : BnfaStruct U} {done : List ℕ},
    Skipped b word N done → (∀ k ∈ ks, 0 < k ∧ k < N) → (done ++ ks).Nodup →
    ∃ b', ks.foldlM (fun b k =>
        match skipFail b k b.numStates (b.failState k) with
        | none => none
        | some fs => some { b with failState := Function.update b.failState k fs }) b = some b' ∧
      Skipped b' word N (done ++ ks) ∧ b' = { b with failState := b'.failState } := by
  induction ks with
  | nil =>
    intro b done h _ _
    exact ⟨b, rfl, by rwa [List.append_nil], rfl⟩
  | cons k ks ih =>
    intro b done h hks hnodup
    obtain ⟨hk0, hkN⟩ := hks k List.mem_cons_self
    obtain ⟨hN, hsuf, hlen⟩ := h.back k hk0 hkN
    have hkd : ∀ s ∈ done, s ≠ k := fun s hs =>
      (List.nodup_append.1 hnodup).2.2 s hs k List.mem_cons_self
    have hfuel := h.spelled.length_word_le hN
    obtain ⟨fs, heq, h1, h2, h3, h4, h5⟩ := skipFail_spec h.spelled h.keys h.back hk0 hkN
      b.numStates hN hsuf hlen (by rw [h.numStates]; omega)
    have hself : ∀ s, s ≠ k → Function.update b.failState k fs s = b.failState s := fun s hs =>
      Function.update_of_ne hs _ _
    have h' : Skipped { b with failState := Function.update b.failState k fs } word N
        (done ++ [k]) := by
      refine ⟨h.spelled.of_get fun _ _ => rfl, h.keys, h.numStates,
        (hself 0 hk0.ne).trans h.failZero, ?_, ?_, ?_⟩
      · intro s h0 hs
        rw [FailBack]
        by_cases hsk : s = k
        · subst hsk
          simp only [Function.update_self]
          exact ⟨h1, h2, h3⟩
        · simp only [hself s hsk]
          exact h.back s h0 hs
      · intro s hs hdead
        rcases List.mem_append.1 hs with hs | hs
        · exact (hself s (hkd s hs)).trans (h.deadEnd s hs hdead)
        · rw [List.mem_singleton.1 hs] at hdead ⊢
          simp only [Function.update_self]
          exact h4 hdead
      · intro hclosed s h0 hs
        rw [FailSkips]
        by_cases hsk : s = k
        · subst hsk
          simp only [Function.update_self]
          exact ⟨h1, h5 hclosed (h.skips hclosed) (h.skips hclosed s h0 hs).2⟩
        · simp only [hself s hsk]
          exact h.skips hclosed s h0 hs
    obtain ⟨b', hfold, hdone, hsame⟩ := ih h' (fun k' hk' => hks k' (List.mem_cons_of_mem k hk'))
      (by rwa [List.append_assoc, List.singleton_append])
    refine ⟨b', ?_, by rwa [List.append_assoc, List.singleton_append] at hdone, ?_⟩
    · rw [List.foldlM_cons, heq]
      exact hfold
    · rw [hsame]

/-- **`_bnfa_opt_nfa`**: states without transitions get fail state 0, and every fail state will do
when the suffixes of dead ends are dead ends. -/
theorem optNfa_spec {ps : List (BnfaPattern U)} (h : Nfa b ps word)
    (hfail : ∀ s, 0 < s → s < b.numStates → FailLongest b word b.numStates s) :
    ∃ b', optNfa b = some b' ∧ b' = { b with failState := b'.failState } ∧ b'.failState 0 = 0 ∧
      (∀ s, 0 < s → s < b.numStates → FailBack b' word b.numStates s) ∧
      (∀ s, 0 < s → s < b.numStates → DeadEnd (IsPrefix ps) (word s) → b'.failState s = 0) ∧
      (DeadEndsClosed (IsPrefix ps) →
        ∀ s, 0 < s → s < b.numStates → FailSkips b' word b.numStates s) := by
  have hskips : ∀ s, 0 < s → s < b.numStates → FailSkips b word b.numStates s := fun s h0 hs =>
    (hfail s h0 hs).skips h.spelled h0 hs
  have hstart : Skipped b word b.numStates [] :=
    ⟨h.spelled, h.keys, rfl, h.failZero, fun s h0 hs => (hskips s h0 hs).back,
      fun s hs => absurd hs List.not_mem_nil, fun _ => hskips⟩
  obtain ⟨b', hfold, hdone, hsame⟩ := hstart.foldlM (List.range' 2 (b.numStates - 2))
    (fun k hk => by rw [List.mem_range'_1] at hk; omega) (List.nodup_range' 1)
  have hdead := hdone.deadEnd
  have hclosed := hdone.skips
  rw [h.words_eq] at hdead hclosed
  refine ⟨b', hfold, hsame, hdone.failZero, hdone.back, fun s h0 hs hd => ?_, hclosed⟩
  rcases Nat.lt_or_ge s 2 with hs2 | hs2
  · -- state 1 has depth one
    obtain ⟨hN, -, hlt⟩ := hdone.back s h0 hs
    have hlen := h.spelled.length_word_le hs
    exact (h.spelled.word_eq_nil hN).1 (List.length_eq_zero_iff.1 (by omega))
  · exact hdead s (List.mem_append_right _ (List.mem_range'_1.2 ⟨hs2, by omega⟩)) hd

/-! ### Searching past a dead end -/

theorem searchState_concat (b : BnfaStruct U) (T : List UInt8) (c : UInt8) :
    searchState b (T ++ [c]) =
      (searchState b T).bind fun s => locateNext b (xlatcase c) b.numStates s := by
  rw [searchState, List.foldlM_append]
  refine congrArg (Option.bind _) (funext fun s => ?_)
  simp

/-- Over its own word the automaton goes to the state. -/
theorem searchState_word (h : Spelled b word b.numStates)
    (hupper : ∀ s < b.numStates, upper (word s) = word s) : ∀ {s : ℕ}, s < b.numStates →
    searchState b (word s) = some s := by
  intro s
  induction s using Nat.strong_induction_on with
  | _ s ih =>
    intro hs
    rcases Nat.eq_zero_or_pos s with rfl | h0
    · rw [h.zero]
      rfl
    · obtain ⟨t, c, hts, hn, hw⟩ := h.word_parent h0 hs
      have hc : xlatcase c = c := by
        have hup := hupper s hs
        rw [hw, upper_concat] at hup
        exact List.singleton_inj.1 (List.append_inj' hup rfl).2
      obtain ⟨fuel, hfuel⟩ := Nat.exists_eq_succ_of_ne_zero (h.pos).ne'
      rw [hw, searchState_concat, ih t hts (hts.trans hs), Option.bind_some, hc, hfuel, locateNext,
        hn]

/-- The state reached spells a suffix of what has been read since. -/
theorem searchState_back (h : Spelled b word b.numStates)
    (hfail : ∀ s, 0 < s → s < b.numStates → FailBack b word b.numStates s) {T : List UInt8} {s : ℕ}
    (hT : searchState b T = some s) (hs : s < b.numStates) (v : List UInt8) :
    ∃ t, searchState b (T ++ v) = some t ∧ t < b.numStates ∧ word t <:+ word s ++ upper v := by
  induction v using List.reverseRecOn with
  | nil =>
    refine ⟨s, by rwa [List.append_nil], hs, ?_⟩
    rw [upper_nil, List.append_nil]
  | append_singleton v c ih =>
    obtain ⟨t, heq, ht, hsuf⟩ := ih
    have hlen := h.length_word_le ht
    obtain ⟨next, hloc, hN, hw⟩ := locateNext_back h hfail (xlatcase c) b.numStates ht (by omega)
    refine ⟨next, ?_, hN, ?_⟩
    · rw [← List.append_assoc, searchState_concat, heq, Option.bind_some, hloc]
    · rw [upper_concat, ← List.append_assoc]
      exact hw.trans (suffix_concat hsuf _)

/-- Past a dead end with fail state 0 nothing read before counts. -/
theorem searchState_deadEnd (h : Spelled b word b.numStates)
    (hfail : ∀ s, 0 < s → s < b.numStates → FailBack b word b.numStates s) {T : List UInt8} {s : ℕ}
    (hT : searchState b T = some s) (h0 : 0 < s) (hs : s < b.numStates)
    (hdead : DeadEnd (Words word b.numStates) (word s)) (hzero : b.failState s = 0) (c : UInt8)
    (v : List UInt8) :
    ∃ t, searchState b (T ++ c :: v) = some t ∧ t < b.numStates ∧ word t <:+ upper (c :: v) := by
  obtain ⟨fuel, hfuel⟩ : ∃ fuel, b.numStates = fuel + 2 := ⟨b.numStates - 2, by omega⟩
  have hnone := (h.next_none_iff h0 hs (xlatcase c)).2 (hdead _)
  obtain ⟨next, hloc, hN, hw⟩ := locateNext_back h hfail (xlatcase c) (fuel + 1) h.pos (by
    rw [h.zero]
    exact Nat.succ_pos fuel)
  have hstep : searchState b (T ++ [c]) = some next := by
    rw [searchState_concat, hT, Option.bind_some, hfuel, locateNext, hnone]
    simp only [hzero]
    exact hloc
  obtain ⟨t, heq, ht, hsuf⟩ := searchState_back h hfail hstep hN v
  rw [List.append_assoc, List.singleton_append] at heq
  refine ⟨t, heq, ht, hsuf.trans ?_⟩
  rw [h.zero, List.nil_append] at hw
  obtain ⟨r, hr⟩ := hw
  exact ⟨r, by rw [← List.append_assoc, hr]; rfl⟩

/-! ### Reports -/

/-- The match list of the state reached over a text. -/
def matchesAfter (b : BnfaStruct U) (T : List UInt8) : List (BnfaPattern U) :=
  match searchIndex b T with
  | none => []
  | some sindex => matchesAt b sindex

/-- The pairs of a pattern and the position of its last byte. -/
def reports (b : BnfaStruct U) (T : List UInt8) : Set (BnfaPattern U × ℕ) :=
  {r | r.2 < T.length ∧ r.1 ∈ matchesAfter b (T.take (r.2 + 1))}

theorem reports_eq {b b' : BnfaStruct U}
    (h : ∀ T p, p ∈ matchesAfter b T ↔ p ∈ matchesAfter b' T) (T : List UInt8) :
    reports b T = reports b' T :=
  Set.ext fun r => and_congr_right fun _ => h (T.take (r.2 + 1)) r.1

theorem mem_reports_last {T : List UInt8} (hT : T ≠ []) {p : BnfaPattern U} :
    (p, T.length - 1) ∈ reports b T ↔ p ∈ matchesAfter b T := by
  have hpos := List.length_pos_iff.2 hT
  have hlen : T.length - 1 + 1 = T.length := by omega
  show T.length - 1 < T.length ∧ p ∈ matchesAfter b (T.take (T.length - 1 + 1)) ↔ _
  rw [hlen, List.take_length]
  exact and_iff_right (by omega)

theorem matchesAfter_packed (hpack : Packable b) (hsp : Spelled b word b.numStates)
    (hk : KeysNodup b) {T : List UInt8} {s : ℕ} (hT : searchState b T = some s)
    (hs : s < b.numStates) : matchesAfter { b with transList := packed b } T = b.matchList s := by
  rw [matchesAfter, searchIndex_eq hpack hsp hk, hT]
  exact matchesAt_index hs

/-- With fail states that will do, the matches after a text are those of its longest suffix. -/
theorem mem_matchesAfter {ps : List (BnfaPattern U)} (h : Nfa b ps word)
    (hsize : csparseSize b ≤ sparseMaxState)
    (hfail : ∀ s, 0 < s → s < b.numStates → FailSkips b word b.numStates s) (T : List UInt8)
    (p : BnfaPattern U) :
    p ∈ matchesAfter { b with transList := packed b } T ↔
      p ∈ ps ∧ Reported (IsPrefix ps) p (longest (IsPrefix ps) (upper T)) := by
  have hpack := h.packable (fun s h0 hs => (hfail s h0 hs).1) hsize
  obtain ⟨s, heq, hs, hw⟩ := searchState_longest h.spelled hfail T
  rw [matchesAfter_packed hpack h.spelled h.keys heq hs, h.lists s hs p, hw, h.words_eq]

theorem xlatcase_xlatcase (c : UInt8) : xlatcase (xlatcase c) = xlatcase c := by
  by_cases h : 97 ≤ c ∧ c ≤ 122
  · have hlo : 97 ≤ c.toNat := UInt8.le_iff_toNat_le.1 h.1
    have hhi : c.toNat ≤ 122 := UInt8.le_iff_toNat_le.1 h.2
    have hsub : (c - 32).toNat = c.toNat - 32 :=
      UInt8.toNat_sub_of_le c 32 (UInt8.le_iff_toNat_le.2 (show 32 ≤ c.toNat by omega))
    have hnot : ¬ (97 ≤ c - 32 ∧ c - 32 ≤ 122) := fun h' => by
      have h97 : 97 ≤ (c - 32).toNat := UInt8.le_iff_toNat_le.1 h'.1
      omega
    rw [xlatcase, xlatcase, if_pos h, if_neg hnot]
  · rw [xlatcase, xlatcase, if_neg h, if_neg h]

theorem IsPrefix.upper_eq {ps : List (BnfaPattern U)} {w : List UInt8} (h : IsPrefix ps w) :
    upper w = w := by
  have hmem : ∀ c ∈ w, xlatcase c = c := by
    rcases h with rfl | ⟨p, -, hp⟩
    · exact fun c hc => absurd hc List.not_mem_nil
    · intro c hc
      obtain ⟨d, -, rfl⟩ := List.mem_map.1 (hp.subset hc)
      exact xlatcase_xlatcase d
  exact (List.map_congr_left hmem).trans (List.map_id w)

/-- Both ways of compiling. -/
theorem exists_compiled (ps : List (BnfaPattern U))
    (hsize : csparseSize (addStates (addPatterns ps)) ≤ sparseMaxState) :
    ∃ b₀ b₁, bnfaCompile (addPatterns ps) = some b₀ ∧
      bnfaCompile (bnfaSetOpt (addPatterns ps) true) = some b₁ ∧
      (∀ T p, p ∈ matchesAfter b₀ T ↔
        p ∈ ps ∧ Reported (IsPrefix ps) p (longest (IsPrefix ps) (upper T))) ∧
      (DeadEndsClosed (IsPrefix ps) → ∀ T p, p ∈ matchesAfter b₁ T ↔
        p ∈ ps ∧ Reported (IsPrefix ps) p (longest (IsPrefix ps) (upper T))) ∧
      (∀ w, IsPrefix ps w → w ≠ [] → DeadEnd (IsPrefix ps) w → ∀ c v p,
        p ∈ matchesAfter b₁ (w ++ c :: v) → upper p.casepatrn <:+ upper (c :: v)) := by
  obtain ⟨b₀, word₀, h₀, hsize₀, hfail₀, -, hcompile₀⟩ := exists_nfa ps false hsize
  obtain ⟨b, word, h, hsize₁, hfail, -, hcompile₁⟩ := exists_nfa ps true hsize
  obtain ⟨b₁, hopt, hsame, hzero, hback, hdead, hskips⟩ := optNfa_spec h hfail
  have hskips₀ : ∀ s, 0 < s → s < b₀.numStates → FailSkips b₀ word₀ b₀.numStates s :=
    fun s h0 hs => (hfail₀ s h0 hs).skips h₀.spelled h0 hs
  have hpack₀ := h₀.packable (fun s h0 hs => (hskips₀ s h0 hs).1) hsize₀
  generalize b₁.failState = failState at hsame
  subst hsame
  have h₁ : Nfa { b with failState := failState } ps word :=
    ⟨h.spelled.of_get fun _ _ => rfl, h.keys, h.words, h.lists, hzero⟩
  have hpack := h₁.packable (fun s h0 hs => (hback s h0 hs).1) hsize₁
  refine ⟨_, _, ?_, ?_, mem_matchesAfter h₀ hsize₀ hskips₀,
    fun hclosed => mem_matchesAfter h₁ hsize₁ (hskips hclosed), ?_⟩
  · rw [← bnfaSetOpt_addPatterns, hcompile₀]
    exact hpack₀.convListToCsparseArray_eq
  · rw [hcompile₁, if_pos rfl, hopt]
    exact hpack.convListToCsparseArray_eq
  · intro w hw hne hdeadw c v p hp
    have hupper : ∀ s < b.numStates, upper (word s) = word s := fun s hs => by
      have hs' : Words word b.numStates (word s) := ⟨s, hs, rfl⟩
      rw [h.words_eq] at hs'
      exact hs'.upper_eq
    rw [← h.words_eq] at hw hdeadw
    obtain ⟨s, hs, rfl⟩ := hw
    have h0 : 0 < s := Nat.pos_of_ne_zero fun h0 => hne (by rw [h0, h.spelled.zero])
    obtain ⟨t, heq, ht, hsuf⟩ := searchState_deadEnd h₁.spelled hback
      (searchState_word h₁.spelled hupper hs) h0 hs hdeadw
      (hdead s h0 hs (h.words_eq ▸ hdeadw)) c v
    rw [matchesAfter_packed hpack h₁.spelled h₁.keys heq ht] at hp
    exact ((h₁.lists t ht p).1 hp).2.1.trans hsuf

/-! ### When no match is lost -/

/-- No pattern that is not continued by another one ends in a proper prefix of a pattern. -/
def NoOverlap (ps : List (BnfaPattern U)) : Prop :=
  ∀ p ∈ ps, (∀ q ∈ ps, upper p.casepatrn <+: upper q.casepatrn →
      upper q.casepatrn = upper p.casepatrn) →
    ∀ u, u ≠ [] → u <:+ upper p.casepatrn → ∀ q ∈ ps, u <+: upper q.casepatrn →
      u = upper q.casepatrn

theorem eq_or_prefix_concat {u w : List UInt8} (h : u <+: w) : u = w ∨ ∃ c, u ++ [c] <+: w := by
  obtain ⟨t, rfl⟩ := h
  cases t with
  | nil => exact Or.inl (List.append_nil u).symm
  | cons c t => exact Or.inr ⟨c, t, by rw [List.append_assoc, List.singleton_append]⟩

theorem isPrefix_concat {ps : List (BnfaPattern U)} {w : List UInt8} {c : UInt8} :
    IsPrefix ps (w ++ [c]) ↔ ∃ p ∈ ps, w ++ [c] <+: upper p.casepatrn :=
  or_iff_right (List.append_ne_nil_of_right_ne_nil w (List.cons_ne_nil c []))

/-- A prefix that nothing extends is a pattern, or there are no other patterns behind it. -/
theorem deadEnd_iff {ps : List (BnfaPattern U)} {u : List UInt8} :
    DeadEnd (IsPrefix ps) u ↔ ∀ q ∈ ps, u <+: upper q.casepatrn → u = upper q.casepatrn := by
  constructor
  · intro hdead q hq hu
    rcases eq_or_prefix_concat hu with heq | ⟨c, hc⟩
    · exact heq
    · exact absurd (isPrefix_concat.2 ⟨q, hq, hc⟩) (hdead c)
  · intro h c hc
    obtain ⟨q, hq, hpre⟩ := isPrefix_concat.1 hc
    have heq := h q hq ((List.prefix_append u [c]).trans hpre)
    have hlen := hpre.length_le
    rw [← heq, List.length_append, List.length_singleton] at hlen
    omega

theorem noOverlap_iff (ps : List (BnfaPattern U)) :
    NoOverlap ps ↔ DeadEndsClosed (IsPrefix ps) := by
  constructor
  · intro h w hw hdead u hne hsuf
    rcases hw with rfl | ⟨p, hp, hpre⟩
    · exact absurd (List.suffix_nil.1 hsuf) hne
    · have heq := deadEnd_iff.1 hdead p hp hpre
      subst heq
      exact deadEnd_iff.2 (h p hp (fun q hq hq' => (deadEnd_iff.1 hdead q hq hq').symm) u hne hsuf)
  · intro h p hp hleaf u hne hsuf
    have hdead : DeadEnd (IsPrefix ps) (upper p.casepatrn) :=
      deadEnd_iff.2 fun q hq hq' => (hleaf q hq hq').symm
    exact deadEnd_iff.1 (h _ (isPrefix_pattern hp) hdead u hne hsuf)

/-- Where two patterns overlap, a text over which the second is lost. -/
theorem exists_lost {ps : List (BnfaPattern U)} (h : ¬ DeadEndsClosed (IsPrefix ps))
    {b₀ b₁ : BnfaStruct U}
    (h₀ : ∀ T p, p ∈ matchesAfter b₀ T ↔
      p ∈ ps ∧ Reported (IsPrefix ps) p (longest (IsPrefix ps) (upper T)))
    (h₁ : ∀ w, IsPrefix ps w → w ≠ [] → DeadEnd (IsPrefix ps) w → ∀ c v p,
      p ∈ matchesAfter b₁ (w ++ c :: v) → upper p.casepatrn <:+ upper (c :: v)) :
    ∃ T, T ≠ [] ∧ ∃ p, p ∈ matchesAfter b₀ T ∧ p ∉ matchesAfter b₁ T := by
  simp only [DeadEndsClosed, not_forall] at h
  obtain ⟨w, hw, hdead, u, hne, hsuf, hu⟩ := h
  simp only [DeadEnd, not_forall, not_not] at hu
  obtain ⟨c, hc⟩ := hu
  obtain ⟨q, hq, v, hv⟩ := isPrefix_concat.1 hc
  have hwne : w ≠ [] := fun hnil => hne (List.suffix_nil.1 (hnil ▸ hsuf))
  rw [List.append_assoc, List.singleton_append] at hv
  -- the text is the first pattern, then what is left of the second
  have hup : upper (u ++ c :: v) = u ++ c :: v := by
    rw [hv]
    exact (isPrefix_pattern hq).upper_eq
  have hqne : q.casepatrn ≠ [] := fun hnil => by
    rw [hnil] at hv
    exact hne (List.append_eq_nil_iff.1 hv).1
  refine ⟨w ++ c :: v, List.append_ne_nil_of_left_ne_nil hwne _, q, (h₀ _ q).2 ⟨hq, ?_⟩, ?_⟩
  · rw [reported_of_ne_nil hqne, suffix_longest_iff (isPrefix_pattern hq), ← hv, ← hup]
    obtain ⟨r, rfl⟩ := hsuf
    exact ⟨upper r, by rw [upper, upper, upper, ← List.map_append, List.append_assoc]⟩
  · intro hmem
    have hlen := (h₁ w hw hwne hdead c v q hmem).length_le
    have hupos := List.length_pos_iff.2 hne
    rw [← hv, List.length_append, upper, List.length_map] at hlen
    omega

/-- **The optimised matcher reports the same over every text if and only if no pattern overlaps.** -/
theorem opt_reports_iff (ps : List (BnfaPattern U))
    (hsize : csparseSize (addStates (addPatterns ps)) ≤ sparseMaxState) :
    ∃ b₀ b₁, bnfaCompile (addPatterns ps) = some b₀ ∧
      bnfaCompile (bnfaSetOpt (addPatterns ps) true) = some b₁ ∧
      ((∀ T, reports b₁ T = reports b₀ T) ↔ NoOverlap ps) := by
  obtain ⟨b₀, b₁, hc₀, hc₁, h₀, hclosed, hlost⟩ := exists_compiled ps hsize
  refine ⟨b₀, b₁, hc₀, hc₁, ?_⟩
  rw [noOverlap_iff]
  constructor
  · intro heq
    by_contra hoverlap
    obtain ⟨T, hT, p, hp₀, hp₁⟩ := exists_lost hoverlap h₀ hlost
    rw [← mem_reports_last hT, ← heq T, mem_reports_last hT] at hp₀
    exact hp₁ hp₀
  · intro h
    exact reports_eq fun T p => (hclosed h T p).trans (h₀ T p).symm

/-- The patterns `ab` and `cd`. -/
theorem opt_reports_iff_ab_cd :
    ∃ b₀ b₁, bnfaCompile (addPatterns [pattern 0 [97, 98], pattern 1 [99, 100]]) = some b₀ ∧
      bnfaCompile (bnfaSetOpt (addPatterns [pattern 0 [97, 98], pattern 1 [99, 100]]) true) =
        some b₁ ∧
      ((∀ T, reports b₁ T = reports b₀ T) ↔
        NoOverlap [pattern 0 [97, 98], pattern 1 [99, 100]]) :=
  opt_reports_iff _ (by decide +kernel)

/-- The patterns `ab` and `bc`: over `abc` the second is lost. -/
theorem lost_match :
    ∃ b₀ b₁, bnfaCompile (addPatterns [pattern 0 [97, 98], pattern 1 [98, 99]]) = some b₀ ∧
      bnfaCompile (bnfaSetOpt (addPatterns [pattern 0 [97, 98], pattern 1 [98, 99]]) true) =
        some b₁ ∧
      reports b₁ [97, 98, 99] ≠ reports b₀ [97, 98, 99] := by
  have h₀ : (bnfaCompile (addPatterns [pattern 0 [97, 98], pattern 1 [98, 99]])).map
      (fun b => (matchesAfter b [97, 98, 99]).map BnfaPattern.userdata) = some [1] := by
    decide +kernel
  have h₁ : (bnfaCompile (bnfaSetOpt (addPatterns [pattern 0 [97, 98], pattern 1 [98, 99]]) true)).map
      (fun b => (matchesAfter b [97, 98, 99]).map BnfaPattern.userdata) = some [] := by
    decide +kernel
  obtain ⟨b₀, hc₀, hm₀⟩ := Option.map_eq_some_iff.1 h₀
  obtain ⟨b₁, hc₁, hm₁⟩ := Option.map_eq_some_iff.1 h₁
  refine ⟨b₀, b₁, hc₀, hc₁, fun heq => ?_⟩
  obtain ⟨p, hp, -⟩ := List.mem_map.1 (hm₀ ▸ List.mem_singleton_self 1)
  have hlast : (p, 2) ∈ reports b₀ [97, 98, 99] :=
    (mem_reports_last (List.cons_ne_nil 97 [98, 99])).2 hp
  rw [← heq] at hlast
  have hp₁ := (mem_reports_last (List.cons_ne_nil 97 [98, 99])).1 hlast
  rw [List.map_eq_nil_iff.1 hm₁] at hp₁
  exact List.not_mem_nil hp₁

end Snort.Bnfa
