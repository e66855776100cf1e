import Snort.Acsm.Rows
import Snort.Bnfa.Match

/-!
# Searching with the DFA in full format

The compiled machine is, after every prefix of a text, in the state of the longest suffix that is a
prefix of a pattern; `acsmSearchSparseDFA_Full` calls `Match` where the match list of that state is not
empty, until a call returns a positive value: `searchSparseDfaFull_calls`.
-/

namespace Snort.Acsm

open Bnfa AhoCorasick

variable {U : Type*}

/-! ### Calls -/

/-- A call of `Match`: the match list and the index. -/
abbrev Call (U : Type*) := List (AcsmPattern U) × ℤ

/-- The call for a match list, `pos` bytes into the text. -/
def callAt (mlist : List (AcsmPattern U)) (pos : ℕ) : List (Call U) :=
  match mlist with
  | [] => []
  | p :: _ => [(mlist, pos - p.patrn.length)]

/-- `Match` is called for the calls of a list, up to the first that returns a positive value. -/
def callMatches {D : Type*} (Match : Callback U D) : List (Call U) → Search D → Bool × Search D
  | [], s => (false, s)
  | (mlist, index) :: calls, s =>
    let (r, data) := Match mlist index s.data
    if r > 0 then (true, ⟨s.nfound + 1, data⟩) else callMatches Match calls ⟨s.nfound + 1, data⟩

section Calls

variable {D : Type*} {Match : Callback U D}

theorem callMatch_eq (mlist : List (AcsmPattern U)) (pos : ℕ) (s : Search D) :
    callMatch Match mlist pos s = callMatches Match (callAt mlist pos) s := by
  cases mlist with
  | nil => rfl
  | cons p mlist =>
    simp only [callMatch, callAt, callMatches]
    by_cases hr : (Match (p :: mlist) (pos - p.patrn.length) s.data).1 > 0
    · simp [hr]
    · simp [hr]

theorem callMatches_append (calls calls' : List (Call U)) : ∀ s : Search D,
    callMatches Match (calls ++ calls') s =
      if (callMatches Match calls s).1 then callMatches Match calls s
      else callMatches Match calls' (callMatches Match calls s).2 := by
  induction calls with
  | nil => exact fun _ => rfl
  | cons call calls ih =>
    intro s
    rw [List.cons_append, callMatches, callMatches]
    by_cases hr : (Match call.1 call.2 s.data).1 > 0
    · simp only [hr, if_true]
    · simp only [hr, if_false]
      exact ih _

/-- A callback that never returns a positive value. -/
def NonPositive (Match : Callback U D) : Prop := ∀ mlist index data, (Match mlist index data).1 ≤ 0

theorem callMatches_fst (h : NonPositive Match) (calls : List (Call U)) : ∀ s : Search D,
    (callMatches Match calls s).1 = false := by
  induction calls with
  | nil => exact fun _ => rfl
  | cons call calls ih =>
    intro s
    rw [callMatches]
    simp only [if_neg (not_lt.2 (h call.1 call.2 s.data))]
    exact ih _

end Calls

/-! ### The states of a text -/

/-- `st T` is the state of the longest suffix of `T` in the trie. -/
def Follows (word : ℕ → List UInt8) (N : ℕ) (st : List UInt8 → ℕ) : Prop :=
  ∀ T, st T < N ∧ word (st T) = longest (Words word N) (upper T)

variable {b : BnfaStruct (AcsmPattern U)} {word : ℕ → List UInt8} {N : ℕ}

theorem exists_follows (h : Spelled b word N) : ∃ st, Follows word N st := by
  have hex : ∀ T : List UInt8, ∃ s, s < N ∧ word s = longest (Words word N) (upper T) := fun T =>
    longest_mem h.prefixClosed.nil (upper T)
  choose st hst using hex
  exact ⟨st, hst⟩

theorem Follows.nil (h : Spelled b word N) {st : List UInt8 → ℕ} (hst : Follows word N st) : st [] = 0 :=
  h.word_inj (hst []).1 h.pos ((hst []).2.trans h.zero.symm)

/-- A step to the state of the longest suffix. -/
theorem Follows.step (h : Spelled b word N) {st : List UInt8 → ℕ} (hst : Follows word N st)
    {T : List UInt8} {c : UInt8} {t : ℕ} (ht : t < N)
    (hw : word t = longest (Words word N) (word (st T) ++ [xlatcase c])) : t = st (T ++ [c]) := by
  refine h.word_inj ht (hst _).1 (hw.trans ?_)
  rw [(hst (T ++ [c])).2, (hst T).2, upper_concat]
  exact (longest_concat h.prefixClosed _ _).symm

/-- The calls of a search that tests a state before it reads a byte, and the last one at the end; `u`
has been read. -/
def callsFrom (mlist : ℕ → List (AcsmPattern U)) (st : List UInt8 → ℕ) (u : List UInt8) :
    List UInt8 → List (Call U)
  | [] => callAt (mlist (st u)) u.length
  | c :: T => callAt (mlist (st u)) u.length ++ callsFrom mlist st (u ++ [c]) T

theorem callsFrom_eq (mlist : ℕ → List (AcsmPattern U)) (st : List UInt8 → ℕ) (T : List UInt8) :
    ∀ u, callsFrom mlist st u T = (List.range (T.length + 1)).flatMap fun k =>
      callAt (mlist (st (u ++ T.take k))) (u.length + k) := by
  induction T with
  | nil =>
    intro u
    simp [callsFrom]
  | cons c T ih =>
    intro u
    have hrange : List.range (T.length + 1 + 1) = 0 :: (List.range (T.length + 1)).map (· + 1) :=
      List.range_succ_eq_map
    rw [callsFrom, ih, List.length_cons, hrange, List.flatMap_cons, List.flatMap_map]
    congr 1
    · simp
    · refine congrArg (List.flatMap · _) (funext fun k => ?_)
      rw [List.take_succ_cons, List.append_assoc, List.singleton_append, List.length_append,
        List.length_singleton, Nat.add_assoc, Nat.add_comm 1 k]

/-! ### The compiled machine -/

/-- A DFA before its rows are written. -/
structure Dfa (a : AcsmStruct U) (b : BnfaStruct (AcsmPattern U)) (word : ℕ → List UInt8) : Prop where
  rows : RowsNodup a
  numStates : a.numStates = b.numStates
  size : a.sizeofstate = stateSize a
  goes : ∀ s < b.numStates, Goes a word b.numStates s
  matchList : ∀ s, (a.matchList s).map toBnfa = b.matchList s

theorem narrow_stateSize (a : AcsmStruct U) {s : ℕ} (hs : s < a.numStates) : narrow (stateSize a) s = s := by
  rw [stateSize]
  by_cases hc : a.compressStates = true
  · rw [if_pos hc]
    by_cases h1 : a.numStates < 255
    · rw [if_pos h1, narrow, if_pos rfl]
      exact Nat.mod_eq_of_lt (by omega)
    · by_cases h2 : a.numStates < 65535
      · rw [if_neg h1, if_pos h2]
        exact Nat.mod_eq_of_lt (by omega)
      · rw [if_neg h1, if_neg h2]
        rfl
  · rw [if_neg hc]
    rfl

theorem Dfa.toFull {a : AcsmStruct U} (h : Dfa a b word) {s : ℕ} (hs : s < b.numStates) (c : UInt8) :
    listConvToFull a s c = listGetNextState2 a s c := by
  rw [listConvToFull_eq h.rows, h.size]
  exact narrow_stateSize a (by rw [h.numStates]; exact (h.goes s hs c).1)

theorem acsmCompile2_eq (a : AcsmStruct U) :
    acsmCompile2 a = (buildNfa (beforeNfa a)).bind fun a =>
      (if a.fsa = .dfa then convertNfaToDfa a else some a).bind fun a =>
        some (acsmUpdateMatchStates (convRows a)) := by
  rw [acsmCompile2]
  show Option.bind (buildNfa (beforeNfa a)) _ = _
  congr 1
  funext a
  by_cases hfsa : a.fsa = .dfa
  · simp only [hfsa, if_true]
    rfl
  · simp only [hfsa, if_false]
    rfl

section Automaton

variable {a a' : AcsmStruct U} {ps : List (AcsmPattern U)} {m : ℕ}

theorem Automaton.get (h : Automaton a ps a' m b) (s : ℕ) (c : UInt8) :
    listGetNextState a' s c = Bnfa.listGetNextState b s c := by
  rw [← h.view, listGetNextState_view]

theorem Automaton.numStates (h : Automaton a ps a' m b) : a'.numStates = b.numStates := by
  rw [← h.view]
  rfl

theorem Automaton.size (h : Automaton a ps a' m b) : a'.sizeofstate = stateSize a' := by
  obtain ⟨_, _, rfl⟩ := h.same
  rfl

/-- The DFA that is compiled. -/
theorem Automaton.compile_dfa (h : Automaton a ps a' m b) (hfsa : a.fsa = .dfa)
    (hnfa : Nfa b (ps.map toBnfa) word)
    (hfail : ∀ s, 0 < s → s < b.numStates → FailLongest b word b.numStates s) :
    ∃ a'', Dfa a'' b word ∧ SameSetup a a'' ∧
      acsmCompile2 (addPatterns a ps) = some (acsmUpdateMatchStates (convRows a'')) := by
  have hspelled : Spelled (Acsm.view m a') word a'.numStates := by
    rw [h.view, h.numStates]
    exact hnfa.spelled
  obtain ⟨a'', hconv, hsame, hrows, hgoes⟩ := convertNfaToDfa_spec hspelled
    (by rw [h.view, h.numStates]; exact hfail) h.rows
  rw [h.numStates] at hgoes
  have hcompile : acsmCompile2 (addPatterns a ps) = some (acsmUpdateMatchStates (convRows a'')) := by
    rw [acsmCompile2_eq, h.build, Option.bind_some, if_pos (h.setup.1.trans hfsa), hconv]
    rfl
  have hsize := h.size
  have hnum := h.numStates
  have hview := h.view
  have hsetup := h.setup
  obtain ⟨_, rfl⟩ := hsame
  refine ⟨_, ⟨hrows, hnum, hsize, hgoes, fun s => ?_⟩, hsetup, hcompile⟩
  rw [← hview]
  rfl

/-- The NFA that is compiled. -/
theorem Automaton.compile_nfa (h : Automaton a ps a' m b) (hfsa : a.fsa = .nfa) :
    acsmCompile2 (addPatterns a ps) = some (acsmUpdateMatchStates (convRows a')) := by
  have hne : ¬ a'.fsa = .dfa := by
    rw [h.setup.1, hfsa]
    exact nofun
  rw [acsmCompile2_eq, h.build, Option.bind_some, if_neg hne]
  rfl

/-- The walk from state 0 along the transitions of the trie. -/
def trieState (a : AcsmStruct U) (w : List UInt8) : Option ℕ :=
  w.foldlM (fun s c => (listGetNextState a s c).filter (· ≠ 0)) 0

theorem Automaton.trieState_word (h : Automaton a ps a' m b) {word : ℕ → List UInt8}
    (hb : Spelled b word b.numStates) {s : ℕ} (hs : s < b.numStates) :
    trieState (addStates (addPatterns a ps)) (word s) = some s := by
  have hget : listGetNextState (addStates (addPatterns a ps)) = Bnfa.listGetNextState b := by
    funext t c
    rw [← h.get]
    obtain ⟨_, _, rfl⟩ := h.same
    rfl
  rw [trieState, hget]
  exact hb.trieState_word hs

end Automaton

/-! ### Searching -/

section Full

variable {a : AcsmStruct U} {st : List UInt8 → ℕ}

/-- The machine that is searched with. -/
abbrev compiled (a : AcsmStruct U) : AcsmStruct U := acsmUpdateMatchStates (convRows a)

theorem testState_eq {D : Type*} (Match : Callback U D) (a : AcsmStruct U) {k : ℕ} (hk : k < a.numStates)
    (pos : ℕ) (s : Search D) :
    testState (compiled a) Match k pos s = some (callMatches Match (callAt (a.matchList k) pos) s) := by
  have hflag : ((compiled a).nextState k)[1]? = some (if a.matchList k = [] then 0 else 1) := by
    obtain ⟨fmt, row, hrow⟩ := convRow_cons a k
    rw [nextState_row a hk, hrow]
    rfl
  rw [testState, hflag, Option.map_some, ← callMatch_eq]
  by_cases hm : a.matchList k = []
  · rw [if_pos hm, hm]
    rfl
  · rw [if_neg hm, if_pos one_ne_zero]
    rfl

theorem Dfa.step (h : Dfa a b word) (hb : Spelled b word b.numStates) (hst : Follows word b.numStates st)
    (u : List UInt8) (c : UInt8) :
    listConvToFull a (st u) (xlatcase c) = st (u ++ [c]) := by
  obtain ⟨hlt, -⟩ := hst u
  obtain ⟨ht, hw⟩ := h.goes _ hlt (xlatcase c)
  rw [h.toFull hlt]
  exact hst.step hb ht hw

/-- Reading a row in full format. -/
theorem nextState_full (a : AcsmStruct U) (hfmt : a.format = .full) {k : ℕ} (hk : k < a.numStates) (c : UInt8) :
    ((compiled a).nextState k)[2 + c.toNat]? = some (listConvToFull a k c) := by
  rw [nextState_row a hk, convRow, hfmt, Nat.add_comm]
  exact getElem?_alphabet _ _

/-- `acsmSearchSparseDFA_Full` after `u`. -/
theorem searchSparseDfaFull_eq {D : Type*} (Match : Callback U D) (h : Dfa a b word)
    (hfmt : a.format = .full) (hb : Spelled b word b.numStates) (hst : Follows word b.numStates st)
    (T : List UInt8) : ∀ (u : List UInt8) (s : Search D),
      ∃ r, searchSparseDfaFull (compiled a) Match T u.length (st u) s = some r ∧
        r.1 = (callMatches Match (callsFrom a.matchList st u T) s).2 ∧
        ((callMatches Match (callsFrom a.matchList st u T) s).1 = false → r.2 = st (u ++ T)) := by
  induction T with
  | nil =>
    intro u s
    refine ⟨_, rfl, ?_, fun _ => by rw [List.append_nil]⟩
    rw [callMatch_eq]
    rfl
  | cons c T ih =>
    intro u s
    have hlt : st u < a.numStates := by
      rw [h.numStates]
      exact (hst u).1
    have hnext : ((compiled a).nextState (st u))[2 + (xlatcase c).toNat]? = some (st (u ++ [c])) := by
      rw [nextState_full a hfmt hlt, h.step hb hst]
    obtain ⟨r, hr, hr1, hr2⟩ := ih (u ++ [c]) (callMatches Match (callAt (a.matchList (st u)) u.length) s).2
    rw [List.length_append, List.length_singleton] at hr
    rw [searchSparseDfaFull, testState_eq Match a hlt, callsFrom, callMatches_append]
    rcases hcall : callMatches Match (callAt (a.matchList (st u)) u.length) s with ⟨stop, s'⟩
    rw [hcall] at hr hr1 hr2
    cases stop with
    | true => exact ⟨_, rfl, rfl, fun hf => by cases hf⟩
    | false =>
      simp only [hnext]
      refine ⟨r, hr, hr1, fun hf => ?_⟩
      rw [hr2 hf, List.append_assoc, List.singleton_append]

end Full

/-! ### The main result -/

/-- `w` is a prefix of a pattern, or empty. -/
def IsPrefix (ps : List (AcsmPattern U)) (w : List UInt8) : Prop := w = [] ∨ ∃ p ∈ ps, w <+: p.patrn

/-- `w` is the longest suffix of `T` that is a prefix of a pattern. -/
structure LongestSuffix (ps : List (AcsmPattern U)) (T w : List UInt8) : Prop where
  isPrefix : IsPrefix ps w
  suffix : w <:+ T
  longest : ∀ v, IsPrefix ps v → v <:+ T → v.length ≤ w.length

theorem exists_mem_map_toBnfa {ps : List (AcsmPattern U)} {P : BnfaPattern (AcsmPattern U) → Prop} :
    (∃ p ∈ ps.map toBnfa, P p) ↔ ∃ p ∈ ps, P (toBnfa p) := by
  simp

section Patterns

variable {ps : List (AcsmPattern U)}

theorem words_iff (h : Nfa b (ps.map toBnfa) word) (w : List UInt8) :
    Words word b.numStates w ↔ IsPrefix ps w := by
  rw [h.words, exists_mem_map_toBnfa]
  simp only [upper_toBnfa]
  rfl

theorem longestSuffix_of_follows (h : Nfa b (ps.map toBnfa) word) {st : List UInt8 → ℕ}
    (hst : Follows word b.numStates st) (T : List UInt8) :
    LongestSuffix ps (convertCaseEx T) (word (st T)) := by
  rw [(hst T).2]
  refine ⟨(words_iff h _).1 (longest_mem h.spelled.prefixClosed.nil _), longest_suffix _, ?_⟩
  exact fun v hv hsuf => (suffix_longest ((words_iff h v).2 hv) hsuf).length_le

/-- The match list of the state after `T` holds the patterns that end there. -/
theorem mem_matchList (h : Nfa b (ps.map toBnfa) word) {st : List UInt8 → ℕ}
    (hst : Follows word b.numStates st) {mlist : ℕ → List (AcsmPattern U)}
    (ha : ∀ s, (mlist s).map toBnfa = b.matchList s) (hne : ∀ p ∈ ps, p.patrn ≠ [])
    (T : List UInt8) (p : AcsmPattern U) :
    p ∈ mlist (st T) ↔ p ∈ ps ∧ p.patrn <:+ convertCaseEx T := by
  have hlists := h.lists (st T) (hst T).1 (toBnfa p)
  rw [← ha, List.mem_map_of_injective toBnfa_injective, List.mem_map_of_injective toBnfa_injective]
    at hlists
  rw [hlists]
  refine and_congr_right fun hp => ?_
  have hcase : (toBnfa p).casepatrn ≠ [] := fun hnil => hne p hp (by
    rw [← upper_toBnfa, hnil]
    rfl)
  have hmem : Words word b.numStates (upper (toBnfa p).casepatrn) := by
    rw [words_iff h, upper_toBnfa]
    exact Or.inr ⟨p, hp, List.prefix_refl _⟩
  rw [reported_of_ne_nil hcase, (hst T).2, suffix_longest_iff hmem, upper_toBnfa]
  rfl

end Patterns

/-- The state that the machine is in after a text. -/
def stateAfter (a : AcsmStruct U) (T : List UInt8) : Option ℕ :=
  T.foldlM (fun s c => (a.nextState s)[2 + (xlatcase c).toNat]?) 0

/-- The calls for the match lists after `0, …, n` bytes. -/
def callsAt (lists : ℕ → List (AcsmPattern U)) (n : ℕ) : List (Call U) :=
  (List.range (n + 1)).flatMap fun k => callAt (lists k) k

theorem fresh_compressStates (flag : Bool) : Fresh (acsmCompressStates (acsmNew2 : AcsmStruct U) flag) :=
  ⟨rfl, rfl, rfl, rfl⟩

/-- **The DFA in full format finds the patterns.**  After every text it is in the state of the longest
suffix that is a prefix of a pattern, with the patterns that end there in its match list; the search calls
`Match` for the match lists that are not empty, up to the first call that returns a positive value. -/
theorem searchSparseDfaFull_calls (ps : List (AcsmPattern U)) (hne : ∀ p ∈ ps, p.patrn ≠ []) (flag : Bool) :
    ∃ a, acsmCompile2 (addPatterns (acsmCompressStates acsmNew2 flag) ps) = some a ∧
      (∀ T, ∃ s w, stateAfter a T = some s ∧ LongestSuffix ps (convertCaseEx T) w ∧
        trieState (addStates (addPatterns (acsmCompressStates acsmNew2 flag) ps)) w = some s ∧
        ∀ p, p ∈ a.matchList s ↔ p ∈ ps ∧ p.patrn <:+ convertCaseEx T) ∧
      ∀ T : List UInt8, ∃ lists : ℕ → List (AcsmPattern U),
        (∀ k p, p ∈ lists k ↔ p ∈ ps ∧ p.patrn <:+ convertCaseEx (T.take k)) ∧
        ∀ (D : Type) (Match : Callback U D) (data : D),
          (searchSparseDfaFull a Match T 0 0 ⟨0, data⟩).map Prod.fst =
            some (callMatches Match (callsAt lists T.length) ⟨0, data⟩).2 := by
  obtain ⟨m, b, word, hnfa, hfail, hmachine⟩ := exists_automaton ps
  obtain ⟨a₁, h₁⟩ := hmachine _ (fresh_compressStates flag)
  obtain ⟨a, hdfa, hsetup, hcompile⟩ := h₁.compile_dfa rfl hnfa hfail
  obtain ⟨st, hst⟩ := exists_follows hnfa.spelled
  have hfmt : a.format = .full := hsetup.2.1
  have hzero := hst.nil hnfa.spelled
  refine ⟨_, hcompile, fun T => ?_, fun T => ?_⟩
  · have hafter : stateAfter (compiled a) T = some (st T) := by
      induction T using List.reverseRecOn with
      | nil => rw [hzero]; rfl
      | append_singleton T c ih =>
        have hlt : st T < a.numStates := by
          rw [hdfa.numStates]
          exact (hst T).1
        rw [stateAfter] at ih
        rw [stateAfter, List.foldlM_append, ih, Option.bind_eq_bind, Option.bind_some, List.foldlM_cons]
        rw [nextState_full a hfmt hlt, hdfa.step hnfa.spelled hst]
        rfl
    exact ⟨st T, word (st T), hafter, longestSuffix_of_follows hnfa hst T,
      h₁.trieState_word hnfa.spelled (hst T).1, mem_matchList hnfa hst hdfa.matchList hne T⟩
  · refine ⟨fun k => a.matchList (st (T.take k)), fun k => mem_matchList hnfa hst hdfa.matchList hne _,
      fun D Match data => ?_⟩
    obtain ⟨r, hr, hr1, -⟩ := searchSparseDfaFull_eq Match hdfa hfmt hnfa.spelled hst T [] ⟨0, data⟩
    rw [hzero] at hr
    rw [callsFrom_eq] at hr1
    refine (congrArg (Option.map Prod.fst) hr).trans (congrArg some (hr1.trans ?_))
    simp only [List.nil_append, List.length_nil, Nat.zero_add]
    rfl

/-- A pattern of capital letters. -/
def plain (w : List UInt8) (h : w = convertCaseEx w) : AcsmPattern ℕ := ⟨w, w, true, 0, 0, false, 0, 0, h⟩

/-- The pattern `A`. -/
theorem searchSparseDfaFull_calls_a :
    ∃ a, acsmCompile2 (addPatterns (acsmCompressStates acsmNew2 true) [plain [65] rfl]) = some a ∧
      (∀ T, ∃ s w, stateAfter a T = some s ∧ LongestSuffix [plain [65] rfl] (convertCaseEx T) w ∧
        trieState (addStates (addPatterns (acsmCompressStates acsmNew2 true) [plain [65] rfl])) w = some s ∧
        ∀ p, p ∈ a.matchList s ↔ p ∈ [plain [65] rfl] ∧ p.patrn <:+ convertCaseEx T) ∧
      ∀ T : List UInt8, ∃ lists : ℕ → List (AcsmPattern ℕ),
        (∀ k p, p ∈ lists k ↔ p ∈ [plain [65] rfl] ∧ p.patrn <:+ convertCaseEx (T.take k)) ∧
        ∀ (D : Type) (Match : Callback ℕ D) (data : D),
          (searchSparseDfaFull a Match T 0 0 ⟨0, data⟩).map Prod.fst =
            some (callMatches Match (callsAt lists T.length) ⟨0, data⟩).2 :=
  searchSparseDfaFull_calls _ (by simp [plain]) true

/-- In `AA` the pattern `A` ends twice, but a `Match` that returns 1 is called once. -/
theorem searchSparseDfaFull_stops :
    (acsmCompile2 (addPatterns acsmNew2 [plain [65] rfl])).bind (fun a =>
        (searchSparseDfaFull a (fun _ _ (n : ℕ) => (1, n + 1)) [65, 65] 0 0 ⟨0, 0⟩).map fun r => r.1.data) =
      some 1 ∧
    (plain [65] rfl).patrn <:+ convertCaseEx [65] ∧ (plain [65] rfl).patrn <:+ convertCaseEx [65, 65] := by
  constructor
  · decide +kernel
  · decide +kernel

end Snort.Acsm
