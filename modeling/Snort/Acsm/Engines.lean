import Snort.Acsm.Search

/-!
# The search engines side by side

For a callback that never returns a positive value every engine is described by the calls it makes and the
state it stores.  With the same states `st` for all of them they differ in three ways:

* the two searches that test a state before they read a byte also test state 0;
* the index of a call of `acsmSearchSparseNFA` is one less;
* `acsmSearchSparseDFA_Banded` and `acsmSearchSparseNFA` do not store the state at the end of the text.

`SparseGetNextStateNFA` moreover reads the wrong words of a banded row inside of the band.
-/

namespace Snort.Acsm

open Bnfa AhoCorasick

universe u

variable {U : Type u}

/-! ### The calls of the engines -/

/-- The calls of a search that tests a state after it has read a byte; `u` has been read, and the index
of a call is counted from `shift` bytes further on. -/
def callsAfter (mlist : ℕ → List (AcsmPattern U)) (st : List UInt8 → ℕ) (shift : ℕ) (u : List UInt8) :
    List UInt8 → List (Call U)
  | [] => []
  | c :: T => callAt (mlist (st (u ++ [c]))) (u.length + shift) ++ callsAfter mlist st shift (u ++ [c]) T

variable {mlist : ℕ → List (AcsmPattern U)} {st : List UInt8 → ℕ}

theorem callsFrom_eq_callsAfter (T : List UInt8) : ∀ u,
    callsFrom mlist st u T = callAt (mlist (st u)) u.length ++ callsAfter mlist st 1 u T := by
  induction T with
  | nil => exact fun u => (List.append_nil _).symm
  | cons c T ih =>
    intro u
    rw [callsFrom, ih, callsAfter, List.length_append, List.length_singleton]

theorem callAt_succ (l : List (AcsmPattern U)) (pos : ℕ) :
    callAt l (pos + 1) = (callAt l pos).map fun call => (call.1, call.2 + 1) := by
  cases l with
  | nil => rfl
  | cons p l =>
    simp only [callAt, List.map_cons, List.map_nil]
    congr 2
    push_cast
    ring

theorem callsAfter_succ (T : List UInt8) : ∀ u,
    callsAfter mlist st 1 u T =
      (callsAfter mlist st 0 u T).map fun call => (call.1, call.2 + 1) := by
  induction T with
  | nil => exact fun _ => rfl
  | cons c T ih =>
    intro u
    rw [callsAfter, callsAfter, List.map_append, ih]
    exact congrArg (· ++ _) (callAt_succ _ u.length)

theorem callAt_eq_nil {l : List (AcsmPattern U)} {pos : ℕ} : callAt l pos = [] ↔ l = [] := by
  cases l with
  | nil => exact iff_of_true rfl rfl
  | cons p l => exact iff_of_false (List.cons_ne_nil _ _) (List.cons_ne_nil _ _)

theorem callsAfter_eq_nil {shift : ℕ} (T : List UInt8) : ∀ u,
    callsAfter mlist st shift u T = [] ↔
      ∀ v, v ≠ [] → v <+: T → mlist (st (u ++ v)) = [] := by
  induction T with
  | nil => exact fun u => iff_of_true rfl fun v hv hpre => absurd (List.prefix_nil.1 hpre) hv
  | cons c T ih =>
    intro u
    rw [callsAfter, List.append_eq_nil_iff, callAt_eq_nil, ih]
    constructor
    · rintro ⟨h1, h2⟩ v hv hpre
      cases v with
      | nil => exact absurd rfl hv
      | cons d v =>
        obtain ⟨rfl, hpre'⟩ := List.cons_prefix_cons.1 hpre
        by_cases hv' : v = []
        · rw [hv']
          exact h1
        · have := h2 v hv' hpre'
          rwa [List.append_assoc, List.singleton_append] at this
    · intro h
      refine ⟨h [c] (List.cons_ne_nil _ _) ⟨T, rfl⟩, fun v hv hpre => ?_⟩
      rw [List.append_assoc, List.singleton_append]
      exact h (c :: v) (List.cons_ne_nil _ _) (List.cons_prefix_cons.2 ⟨rfl, hpre⟩)

/-! ### What the engines do -/

section Engines

variable {b : BnfaStruct (AcsmPattern U)} {word : ℕ → List UInt8} {a : AcsmStruct U}
variable {D : Type*} {Match : Callback U D}

theorem searchSparseDfa_eq (hpos : NonPositive Match) (h : Dfa a b word) (hb : Spelled b word b.numStates)
    (hst : Follows word b.numStates st) (T : List UInt8) : ∀ (u : List UInt8) (s : Search D),
    searchSparseDfa (compiled a) Match T u.length (st u) s =
      some ((callMatches Match (callsAfter a.matchList st 1 u T) s).2, st (u ++ T)) := by
  induction T with
  | nil =>
    intro u s
    rw [List.append_nil]
    rfl
  | cons c T ih =>
    intro u s
    have hlt : ∀ v, st v < a.numStates := fun v => by
      rw [h.numStates]
      exact (hst v).1
    have hread : sparseGetNextStateDfa ((compiled a).nextState (st u)) (xlatcase c).toNat =
        some (st (u ++ [c])) := by
      rw [nextState_row a (hlt u), sparseGetNextStateDfa_row, h.step hb hst]
    have hstop := callMatches_fst hpos (callAt (a.matchList (st (u ++ [c]))) (u.length + 1)) s
    have hrest := ih (u ++ [c]) (callMatches Match (callAt (a.matchList (st (u ++ [c]))) (u.length + 1)) s).2
    rw [List.length_append, List.length_singleton, List.append_assoc, List.singleton_append] at hrest
    rw [searchSparseDfa, hread, callsAfter, callMatches_append, hstop]
    simp only [testState_eq Match a (hlt (u ++ [c]))]
    rcases hcall : callMatches Match (callAt (a.matchList (st (u ++ [c]))) (u.length + 1)) s with ⟨stop, s'⟩
    rw [hcall] at hstop hrest
    cases hstop
    exact hrest

theorem searchSparseDfaBanded_eq (hpos : NonPositive Match) (h : Dfa a b word) (hfmt : a.format = .banded)
    (hb : Spelled b word b.numStates) (hst : Follows word b.numStates st) (current : ℕ)
    (T : List UInt8) : ∀ (u : List UInt8) (s : Search D),
    searchSparseDfaBanded (compiled a) Match current T u.length (st u) s =
      some ((callMatches Match (callsFrom a.matchList st u T) s).2, current) := by
  induction T with
  | nil =>
    intro u s
    have hstop := callMatches_fst hpos (callAt (a.matchList (st u)) u.length) s
    rw [searchSparseDfaBanded, callMatch_eq]
    show some ((callMatches Match (callAt (a.matchList (st u)) u.length) s).2, if (callMatches Match
      (callAt (a.matchList (st u)) u.length) s).1 = true then st u else current) = _
    rw [hstop]
    rfl
  | cons c T ih =>
    intro u s
    have hlt : st u < a.numStates := by
      rw [h.numStates]
      exact (hst u).1
    have hread : bandedDfa ((compiled a).nextState (st u)) (xlatcase c).toNat = some (st (u ++ [c])) := by
      rw [nextState_row a hlt, convRow, hfmt, bandedDfa_row, h.step hb hst]
    have hstop := callMatches_fst hpos (callAt (a.matchList (st u)) u.length) s
    have hrest := ih (u ++ [c]) (callMatches Match (callAt (a.matchList (st u)) u.length) s).2
    rw [List.length_append, List.length_singleton] at hrest
    rw [searchSparseDfaBanded, testState_eq Match a hlt, callsFrom, callMatches_append, hstop]
    rcases hcall : callMatches Match (callAt (a.matchList (st u)) u.length) s with ⟨stop, s'⟩
    rw [hcall] at hstop hrest
    cases hstop
    simp only [hread]
    exact hrest

variable {a₀ : AcsmStruct U} {ps : List (AcsmPattern U)} {m : ℕ}

/-- The rows of an NFA hold its transitions. -/
theorem Automaton.toFull (h : Automaton a₀ ps a m b) (hb : Spelled b word b.numStates) {s : ℕ}
    (hs : s < b.numStates) (c : UInt8) : listConvToFull a s c = listGetNextState2 a s c := by
  rw [listConvToFull_eq h.rows, h.size]
  refine narrow_stateSize a ?_
  rw [h.numStates, ← getD_listGetNextState, h.get]
  cases hn : Bnfa.listGetNextState b s c with
  | none => exact hb.pos
  | some t => exact (hb.next_word hs hn).1

/-- Following fail states in the rows is following them in the lists. -/
theorem Automaton.followFail_eq (h : Automaton a₀ ps a m b) (hnfa : Nfa b (ps.map toBnfa) word)
    (hfail : ∀ s, 0 < s → s < b.numStates → FailLongest b word b.numStates s)
    (hfull : a.format ≠ .full) (hbanded : a.format ≠ .banded) (c : UInt8) :
    ∀ (fuel : ℕ) {s : ℕ}, s < b.numStates →
      followFail (compiled a) c.toNat fuel s = Bnfa.locateNext b c fuel s := by
  intro fuel
  induction fuel with
  | zero => exact fun _ => rfl
  | succ fuel ih =>
    intro s hs
    have hrow : sparseGetNextStateNfa ((compiled a).nextState s) s c.toNat =
        some (transition s (listGetNextState2 a s c)) := by
      rw [nextState_row a (by rw [h.numStates]; exact hs), sparseGetNextStateNfa_row a hbanded,
        h.toFull hnfa.spelled hs]
    rw [followFail, hrow, Bnfa.locateNext, ← getD_listGetNextState, h.get, transition]
    cases hn : Bnfa.listGetNextState b s c with
    | some t =>
      have hcond : ¬ (t = 0 ∧ s ≠ 0) := by
        rintro ⟨rfl, h0⟩
        exact hnfa.spelled.nonzero s c (Nat.pos_of_ne_zero h0) hs hn
      simp only [Option.getD_some, if_neg hcond]
    | none =>
      have h0 : s ≠ 0 := fun h0 => by
        rw [h0, Bnfa.listGetNextState, if_pos rfl] at hn
        cases hn
      have hstate : (compiled a).failState = b.failState := by
        rw [← h.view]
        rfl
      simp only [Option.getD_none, true_and, h0, ne_eq, not_false_eq_true, if_true]
      rw [if_neg (show ¬ (compiled a).format = .full from hfull), hstate]
      exact ih (hfail s (Nat.pos_of_ne_zero h0) hs).1

theorem Automaton.followFail_step (h : Automaton a₀ ps a m b) (hnfa : Nfa b (ps.map toBnfa) word)
    (hfail : ∀ s, 0 < s → s < b.numStates → FailLongest b word b.numStates s)
    (hfull : a.format ≠ .full) (hbanded : a.format ≠ .banded) (hst : Follows word b.numStates st)
    (u : List UInt8) (c : UInt8) :
    followFail (compiled a) (xlatcase c).toNat (compiled a).numStates (st u) = some (st (u ++ [c])) := by
  obtain ⟨hlt, -⟩ := hst u
  have hlen := hnfa.spelled.length_word_le hlt
  have hnum : (compiled a).numStates = b.numStates := h.numStates
  obtain ⟨next, hloc, hnN, hnw⟩ := locateNext_spec (D := b.numStates) hnfa.spelled
    (fun r h0 hr _ => (hfail r h0 hr).skips hnfa.spelled h0 hr) (xlatcase c) b.numStates hlt
    (by omega) (by omega)
  rw [hnum, h.followFail_eq hnfa hfail hfull hbanded _ _ hlt, hloc, hst.step hnfa.spelled hnN hnw]

theorem Automaton.searchSparseNfa_eq (h : Automaton a₀ ps a m b) (hpos : NonPositive Match)
    (hnfa : Nfa b (ps.map toBnfa) word)
    (hfail : ∀ s, 0 < s → s < b.numStates → FailLongest b word b.numStates s)
    (hfull : a.format ≠ .full) (hbanded : a.format ≠ .banded) (hst : Follows word b.numStates st)
    (current : ℕ) (T : List UInt8) : ∀ (u : List UInt8) (s : Search D),
    searchSparseNfa (compiled a) Match current T u.length (st u) s =
      some ((callMatches Match (callsAfter a.matchList st 0 u T) s).2, current) := by
  induction T with
  | nil => exact fun _ _ => rfl
  | cons c T ih =>
    intro u s
    have hstop := callMatches_fst hpos (callAt (a.matchList (st (u ++ [c]))) u.length) s
    have hrest := ih (u ++ [c]) (callMatches Match (callAt (a.matchList (st (u ++ [c]))) u.length) s).2
    rw [List.length_append, List.length_singleton] at hrest
    rw [searchSparseNfa, h.followFail_step hnfa hfail hfull hbanded hst, callsAfter, callMatches_append]
    simp only [callMatch_eq, Nat.add_zero, hstop]
    have hml : (compiled a).matchList = a.matchList := rfl
    rw [hml]
    rcases hcall : callMatches Match (callAt (a.matchList (st (u ++ [c]))) u.length) s with ⟨stop, s'⟩
    rw [hcall] at hstop hrest
    cases hstop
    exact hrest

/-- A machine with no list for state 0 stays there while all bytes are outside of its band. -/
theorem searchSparseNfa_outside (hnum : 0 < a.numStates) (hfmt : a.format = .banded)
    (hml : a.matchList 0 = []) (current : ℕ) (T : List UInt8)
    (hout : ∀ c ∈ T, (∀ d, listConvToFull a 0 d ≠ 0 → (xlatcase c).toNat < d.toNat) ∨
      ∀ d, listConvToFull a 0 d ≠ 0 → d.toNat < (xlatcase c).toNat) :
    ∀ (pos : ℕ) (s : Search D), searchSparseNfa (compiled a) Match current T pos 0 s = some (s, current) := by
  induction T with
  | nil => exact fun _ _ => rfl
  | cons c T ih =>
    intro pos s
    have hfollow : followFail (compiled a) (xlatcase c).toNat (compiled a).numStates 0 = some 0 := by
      obtain ⟨n, hn⟩ := Nat.exists_eq_succ_of_ne_zero hnum.ne'
      have hn' : (compiled a).numStates = n + 1 := hn
      rw [hn', followFail, nextState_row a hnum,
        sparseGetNextStateNfa_banded a hfmt 0 _ _ (hout c List.mem_cons_self)]
      rfl
    have hml' : (compiled a).matchList 0 = [] := hml
    rw [searchSparseNfa, hfollow]
    simp only [hml', callMatch]
    exact ih (fun d hd => hout d (List.mem_cons_of_mem c hd)) _ _

end Engines

/-! ### The main result -/

/-- A type of machine and a format. -/
abbrev Engine := Fsa × Format

/-- The engines, without the banded NFA. -/
def sixEngines : List Engine :=
  [(.dfa, .full), (.dfa, .sparse), (.dfa, .sparseBands), (.dfa, .banded), (.nfa, .sparse),
    (.nfa, .sparseBands)]

/-- All engines. -/
def allEngines : List Engine := (.nfa, .banded) :: sixEngines

/-- A new machine for an engine. -/
def machine (e : Engine) (rowNodes zcnt : ℤ) : AcsmStruct U :=
  acsmSetMaxSparseElements2 (acsmSetMaxSparseBandZeros2
    (acsmSelectFormat2 (acsmSelectFSA2 acsmNew2 e.1) e.2) zcnt) rowNodes

theorem fresh_machine (e : Engine) (rowNodes zcnt : ℤ) : Fresh (machine e rowNodes zcnt : AcsmStruct U) :=
  ⟨rfl, rfl, rfl, rfl⟩

/-- The patterns are compiled, and the text is searched from state 0. -/
def search {D : Type*} (ps : List (AcsmPattern U)) (e : Engine) (rowNodes zcnt : ℤ) (T : List UInt8)
    (Match : Callback U D) (data : D) : Option (Search D × ℕ) :=
  (acsmCompile2 (addPatterns (machine e rowNodes zcnt) ps)).bind fun a => acsmSearch2 a Match T data 0

/-- Two engines make the same calls and store the same state, for every callback that never returns a
positive value. -/
def Agree (ps : List (AcsmPattern U)) (rowNodes zcnt : ℤ) (T : List UInt8) (e e' : Engine) : Prop :=
  ∀ (D : Type u) (Match : Callback U D), NonPositive Match → ∀ data,
    search ps e rowNodes zcnt T Match data = search ps e' rowNodes zcnt T Match data

/-- No pattern occurs in the text, and none starts at its end. -/
def Quiet (ps : List (AcsmPattern U)) (T : List UInt8) : Prop :=
  (∀ p ∈ ps, ¬ p.patrn <:+: convertCaseEx T) ∧
    ∀ w, w ≠ [] → IsPrefix ps w → ¬ w <:+ convertCaseEx T

/-- `c` is smaller than the first bytes of all patterns, or larger. -/
def OutsideBand (ps : List (AcsmPattern U)) (c : UInt8) : Prop :=
  (∀ p ∈ ps, ∀ d ∈ p.patrn.head?, c.toNat < d.toNat) ∨ ∀ p ∈ ps, ∀ d ∈ p.patrn.head?, d.toNat < c.toNat

/-- The calls of an engine, and the state it stores. -/
def expected (mlist : ℕ → List (AcsmPattern U)) (st : List UInt8 → ℕ) (T : List UInt8) :
    Engine → List (Call U) × ℕ
  | (.dfa, .full) => (callsFrom mlist st [] T, st T)
  | (.dfa, .banded) => (callsFrom mlist st [] T, 0)
  | (.dfa, _) => (callsAfter mlist st 1 [] T, st T)
  | (.nfa, _) => (callsAfter mlist st 0 [] T, 0)

section Results

variable {b : BnfaStruct (AcsmPattern U)} {word : ℕ → List UInt8} {ps : List (AcsmPattern U)}

/-- The engines as they are described by the states and match lists of one automaton. -/
structure Described (ps : List (AcsmPattern U)) (b : BnfaStruct (AcsmPattern U)) (word : ℕ → List UInt8)
    (st : List UInt8 → ℕ) (mlist : ℕ → List (AcsmPattern U)) : Prop where
  nfa : Nfa b (ps.map toBnfa) word
  follows : Follows word b.numStates st
  lists : ∀ s, (mlist s).map toBnfa = b.matchList s
  six : ∀ e ∈ sixEngines, ∀ (rowNodes zcnt : ℤ) {D : Type u} (Match : Callback U D), NonPositive Match →
    ∀ T data, search ps e rowNodes zcnt T Match data =
      some ((callMatches Match (expected mlist st T e).1 ⟨0, data⟩).2, (expected mlist st T e).2)
  banded : (∀ p ∈ ps, p.patrn ≠ []) → ∀ (rowNodes zcnt : ℤ) {D : Type u} (Match : Callback U D)
    (T : List UInt8), (∀ c ∈ T, OutsideBand ps (xlatcase c)) → ∀ data,
      search ps (.nfa, .banded) rowNodes zcnt T Match data = some (⟨0, data⟩, 0)

theorem exists_described (ps : List (AcsmPattern U)) : ∃ b word st mlist, Described ps b word st mlist := by
  obtain ⟨m, b, word, hnfa, hfail, hmachine⟩ := exists_automaton ps
  obtain ⟨st, hst⟩ := exists_follows hnfa.spelled
  have hzero := hst.nil hnfa.spelled
  -- all machines have the match lists of the first one
  obtain ⟨a₀, h₀⟩ := hmachine _ (fresh_machine (.nfa, .full) 0 0)
  have hlists : ∀ s, (a₀.matchList s).map toBnfa = b.matchList s := fun s => by
    rw [← h₀.view]
    rfl
  have hsame : ∀ {a : AcsmStruct U}, (∀ s, (a.matchList s).map toBnfa = b.matchList s) →
      a.matchList = a₀.matchList := fun ha =>
    funext fun s => List.map_injective_iff.2 toBnfa_injective ((ha s).trans (hlists s).symm)
  have hauto : ∀ {a a' : AcsmStruct U}, Automaton a ps a' m b → a'.matchList = a₀.matchList := fun h =>
    hsame fun s => by
      rw [← h.view]
      rfl
  refine ⟨b, word, st, a₀.matchList, hnfa, hst, hlists, ?_, ?_⟩
  · intro e he rowNodes zcnt D Match hpos T data
    obtain ⟨a, h⟩ := hmachine _ (fresh_machine e rowNodes zcnt)
    obtain ⟨fsa, fmt⟩ := e
    cases fsa with
    | dfa =>
      obtain ⟨a', hdfa, hsetup, hcompile⟩ := h.compile_dfa rfl hnfa hfail
      have hml := hsame hdfa.matchList
      have hfsa : (compiled a').fsa = .dfa := hsetup.1
      have hfmt : (compiled a').format = fmt := hsetup.2.1
      rw [search, hcompile, Option.bind_some, acsmSearch2, hfsa, hfmt]
      have hsparse := searchSparseDfa_eq hpos hdfa hnfa.spelled hst T [] ⟨0, data⟩
      rw [hzero, hml] at hsparse
      cases fmt with
      | full =>
        obtain ⟨r, hr, hr1, hr2⟩ := searchSparseDfaFull_eq Match hdfa hfmt hnfa.spelled hst T [] ⟨0, data⟩
        rw [hml] at hr1 hr2
        rw [hzero] at hr
        exact hr.trans (congrArg some (Prod.ext hr1 (hr2 (callMatches_fst hpos _ _))))
      | sparse => exact hsparse
      | sparseBands => exact hsparse
      | banded =>
        have hbanded := searchSparseDfaBanded_eq hpos hdfa hfmt hnfa.spelled hst 0 T [] ⟨0, data⟩
        rw [hzero, hml] at hbanded
        exact hbanded
    | nfa =>
      have hfsa : (compiled a).fsa = .nfa := h.setup.1
      have hfmt : a.format = fmt := h.setup.2.1
      have hfull : a.format ≠ .full := by
        rintro hf
        rw [hfmt] at hf
        subst hf
        simp [sixEngines] at he
      have hband : a.format ≠ .banded := by
        rintro hf
        rw [hfmt] at hf
        subst hf
        simp [sixEngines] at he
      have hsearch := h.searchSparseNfa_eq hpos hnfa hfail hfull hband hst 0 T [] ⟨0, data⟩
      rw [hzero, hauto h] at hsearch
      rw [search, h.compile_nfa rfl, Option.bind_some, acsmSearch2, hfsa]
      exact hsearch
  · intro hne rowNodes zcnt D Match T hout data
    obtain ⟨a, h⟩ := hmachine _ (fresh_machine (.nfa, .banded) rowNodes zcnt)
    have hfsa : (compiled a).fsa = .nfa := h.setup.1
    have hnum : 0 < a.numStates := by
      rw [h.numStates]
      exact hnfa.spelled.pos
    have hml : a.matchList 0 = [] := by
      refine List.eq_nil_iff_forall_not_mem.2 fun p hp => ?_
      rw [hauto h, ← hzero] at hp
      obtain ⟨hps, hsuf⟩ := (mem_matchList hnfa hst hlists hne [] p).1 hp
      exact hne p hps (List.suffix_nil.1 hsuf)
    -- the transitions of state 0 are for first bytes of patterns
    have hfirst : ∀ d, listConvToFull a 0 d ≠ 0 → ∃ p ∈ ps, d ∈ p.patrn.head? := by
      intro d hd
      rw [h.toFull hnfa.spelled hnfa.spelled.pos, ← getD_listGetNextState, h.get] at hd
      cases hn : Bnfa.listGetNextState b 0 d with
      | none =>
        rw [hn] at hd
        exact absurd rfl hd
      | some t =>
        rw [hn] at hd
        obtain ⟨htN, hw⟩ := hnfa.spelled.child 0 d t hnfa.spelled.pos hn hd
        rw [hnfa.spelled.zero, List.nil_append] at hw
        rcases (words_iff hnfa [d]).1 ⟨t, htN, hw⟩ with hnil | ⟨p, hp, hpre⟩
        · cases hnil
        · obtain ⟨rest, hrest⟩ := hpre
          exact ⟨p, hp, by rw [← hrest]; rfl⟩
    have hsearch : searchSparseNfa (compiled a) Match 0 T 0 0 ⟨0, data⟩ = some (⟨0, data⟩, 0) :=
      searchSparseNfa_outside hnum h.setup.2.1 hml 0 T (fun c hc => ?_) 0 ⟨0, data⟩
    · rw [search, h.compile_nfa rfl, Option.bind_some, acsmSearch2, hfsa]
      exact hsearch
    · rcases hout c hc with hc | hc
      · refine Or.inl fun d hd => ?_
        obtain ⟨p, hp, hhead⟩ := hfirst d hd
        exact hc p hp d hhead
      · refine Or.inr fun d hd => ?_
        obtain ⟨p, hp, hhead⟩ := hfirst d hd
        exact hc p hp d hhead

variable {st : List UInt8 → ℕ} {mlist : ℕ → List (AcsmPattern U)}

/-- A callback that writes down its calls. -/
def record : Callback U (List (Call U)) := fun mlist index calls => (0, calls ++ [(mlist, index)])

theorem record_data (calls : List (Call U)) : ∀ s : Search (List (Call U)),
    (callMatches record calls s).2.data = s.data ++ calls := by
  induction calls with
  | nil => exact fun s => (List.append_nil _).symm
  | cons call calls ih =>
    intro s
    have hstep : callMatches record (call :: calls) s =
        callMatches record calls ⟨s.nfound + 1, s.data ++ [call]⟩ := rfl
    rw [hstep, ih, List.append_assoc, List.singleton_append]

theorem Described.agree_iff (h : Described ps b word st mlist) {e e' : Engine} (he : e ∈ sixEngines)
    (he' : e' ∈ sixEngines) (rowNodes zcnt : ℤ) (T : List UInt8) :
    Agree ps rowNodes zcnt T e e' ↔ expected mlist st T e = expected mlist st T e' := by
  constructor
  · intro hagree
    have hpos : NonPositive (record : Callback U (List (Call U))) := fun _ _ _ => le_rfl
    have hrec := hagree _ record hpos []
    rw [h.six e he _ _ record hpos, h.six e' he' _ _ record hpos] at hrec
    obtain ⟨hcalls, hstate⟩ := Prod.mk.inj (Option.some.inj hrec)
    have hdata := congrArg Search.data hcalls
    rw [record_data, record_data] at hdata
    exact Prod.ext hdata hstate
  · intro heq D Match hpos data
    rw [h.six e he _ _ Match hpos, h.six e' he' _ _ Match hpos, heq]

theorem Described.noEmpty (h : Described ps b word st mlist) (h0 : mlist (st []) = []) :
    ∀ p ∈ ps, p.patrn ≠ [] := by
  intro p hp hnil
  have hlists := h.nfa.lists 0 h.nfa.spelled.pos (toBnfa p)
  rw [← h.lists, List.mem_map_of_injective toBnfa_injective, List.mem_map_of_injective toBnfa_injective,
    ← h.follows.nil h.nfa.spelled, h0, h.follows.nil h.nfa.spelled, h.nfa.spelled.zero, reported_nil,
    upper_toBnfa] at hlists
  exact List.not_mem_nil (hlists.2 ⟨hp, hnil⟩)

/-- The state at the end of the text is state 0 when no pattern starts there. -/
theorem Described.state_eq_zero (h : Described ps b word st mlist) (T : List UInt8) :
    st T = 0 ↔ ∀ w, w ≠ [] → IsPrefix ps w → ¬ w <:+ convertCaseEx T := by
  have hlongest := longestSuffix_of_follows h.nfa h.follows T
  rw [← h.nfa.spelled.word_eq_nil (h.follows T).1]
  constructor
  · intro hw w hne hpre hsuf
    have hle := hlongest.longest w hpre hsuf
    rw [hw, List.length_nil] at hle
    exact hne (List.length_eq_zero_iff.1 (Nat.le_zero.1 hle))
  · intro hno
    by_contra hne
    exact hno _ hne hlongest.isPrefix hlongest.suffix

/-- There are no calls when no pattern occurs in the text. -/
theorem Described.lists_eq_nil (h : Described ps b word st mlist) (hne : ∀ p ∈ ps, p.patrn ≠ [])
    (T : List UInt8) :
    (∀ v, v <+: T → mlist (st v) = []) ↔ ∀ p ∈ ps, ¬ p.patrn <:+: convertCaseEx T := by
  constructor
  · intro hno p hp hin
    obtain ⟨t, hsuf, hpre⟩ := List.infix_iff_suffix_prefix.1 hin
    obtain ⟨v, hv, rfl⟩ := List.prefix_map_iff.1 hpre
    have hmem := (mem_matchList h.nfa h.follows h.lists hne v p).2 ⟨hp, hsuf⟩
    rw [hno v hv] at hmem
    exact List.not_mem_nil hmem
  · intro hno v hv
    refine List.eq_nil_iff_forall_not_mem.2 fun p hp => ?_
    obtain ⟨hps, hsuf⟩ := (mem_matchList h.nfa h.follows h.lists hne v p).1 hp
    exact hno p hps (hsuf.isInfix.trans (hv.map xlatcase).isInfix)

/-- What a quiet text means for the engines. -/
theorem Described.quiet_iff (h : Described ps b word st mlist) (T : List UInt8) :
    Quiet ps T ↔ callsFrom mlist st [] T = [] ∧ st T = 0 := by
  have hcalls : callsFrom mlist st [] T = [] ↔ ∀ v, v <+: T → mlist (st v) = [] := by
    rw [callsFrom_eq_callsAfter, List.append_eq_nil_iff, callAt_eq_nil, callsAfter_eq_nil]
    simp only [List.nil_append]
    constructor
    · rintro ⟨h0, hrest⟩ v hv
      by_cases hnil : v = []
      · rw [hnil]
        exact h0
      · exact hrest v hnil hv
    · exact fun hall => ⟨hall [] List.nil_prefix, fun v _ hv => hall v hv⟩
  rw [Quiet, h.state_eq_zero, hcalls]
  refine and_congr_left fun _ => ?_
  constructor
  · intro hno
    have hne : ∀ p ∈ ps, p.patrn ≠ [] := fun p hp hnil => hno p hp (by rw [hnil]; exact List.nil_infix)
    exact (h.lists_eq_nil hne T).2 hno
  · intro hno
    exact (h.lists_eq_nil (h.noEmpty (hno [] List.nil_prefix)) T).1 hno

/-- On a quiet text there are no calls, and the state is 0. -/
theorem Described.expected_quiet (h : Described ps b word st mlist) {T : List UInt8} (hq : Quiet ps T)
    (e : Engine) : expected mlist st T e = ([], 0) := by
  obtain ⟨hfrom, hzero⟩ := (h.quiet_iff T).1 hq
  have hafter := hfrom
  rw [callsFrom_eq_callsAfter, List.append_eq_nil_iff] at hafter
  have hshift := hafter.2
  rw [callsAfter_succ, List.map_eq_nil_iff] at hshift
  obtain ⟨fsa, fmt⟩ := e
  cases fsa with
  | nfa => simp [expected, hshift]
  | dfa =>
    cases fmt with
    | full => simp [expected, hfrom, hzero]
    | sparse => simp [expected, hafter.2, hzero]
    | banded => simp [expected, hfrom]
    | sparseBands => simp [expected, hafter.2, hzero]

/-- **The six engines agree on the quiet texts only.** -/
theorem Described.agree_six_iff (h : Described ps b word st mlist) (rowNodes zcnt : ℤ) (T : List UInt8) :
    (∀ e ∈ sixEngines, ∀ e' ∈ sixEngines, Agree ps rowNodes zcnt T e e') ↔ Quiet ps T := by
  constructor
  · intro hall
    have hfull : ((.dfa, .full) : Engine) ∈ sixEngines := by simp [sixEngines]
    have hsparse : ((.dfa, .sparse) : Engine) ∈ sixEngines := by simp [sixEngines]
    have hnfa : ((.nfa, .sparse) : Engine) ∈ sixEngines := by simp [sixEngines]
    have h1 := (h.agree_iff hfull hsparse rowNodes zcnt T).1 (hall _ hfull _ hsparse)
    have h2 := (h.agree_iff hsparse hnfa rowNodes zcnt T).1 (hall _ hsparse _ hnfa)
    obtain ⟨hcalls, -⟩ := Prod.mk.inj h1
    obtain ⟨hshift, hzero⟩ := Prod.mk.inj h2
    -- equal lists of calls whose indices differ by one are empty
    rw [callsAfter_succ] at hshift
    have hnil : callsAfter mlist st 0 [] T = [] := by
      cases hc : callsAfter mlist st 0 [] T with
      | nil => rfl
      | cons call calls =>
        rw [hc, List.map_cons] at hshift
        have hindex : call.2 + 1 = call.2 := congrArg Prod.snd (List.cons.inj hshift).1
        omega
    rw [callsAfter_succ, hnil, List.map_nil] at hcalls
    exact (h.quiet_iff T).2 ⟨hcalls, hzero⟩
  · intro hq e he e' he'
    rw [h.agree_iff he he', h.expected_quiet hq, h.expected_quiet hq]

/-- Texts outside of the band of state 0 are quiet. -/
theorem quiet_of_outsideBand (hne : ∀ p ∈ ps, p.patrn ≠ []) {T : List UInt8}
    (hout : ∀ c ∈ T, OutsideBand ps (xlatcase c)) : Quiet ps T := by
  have hfirst : ∀ p ∈ ps, ∀ d, d ∈ p.patrn.head? → d ∉ convertCaseEx T := by
    intro p hp d hd hmem
    obtain ⟨c, hc, rfl⟩ := List.mem_map.1 hmem
    rcases hout c hc with h | h
    · exact lt_irrefl _ (h p hp _ hd)
    · exact lt_irrefl _ (h p hp _ hd)
  constructor
  · intro p hp hin
    obtain ⟨d, rest, heq⟩ := List.exists_cons_of_ne_nil (hne p hp)
    have hhead : d ∈ p.patrn.head? := by
      rw [heq]
      rfl
    exact hfirst p hp d hhead (hin.subset (heq ▸ List.mem_cons_self))
  · intro w hw hpre hsuf
    rcases hpre with rfl | ⟨p, hp, hpre⟩
    · exact hw rfl
    · obtain ⟨d, rest, rfl⟩ := List.exists_cons_of_ne_nil hw
      obtain ⟨tail, htail⟩ := hpre
      have hhead : d ∈ p.patrn.head? := by
        rw [← htail]
        rfl
      exact hfirst p hp d hhead (hsuf.subset List.mem_cons_self)

end Results

/-- **When the engines agree.**  All but the banded NFA agree exactly when no pattern occurs in the text and
none starts at its end; all seven agree when no byte of the text lies between the first bytes of the
patterns, and no pattern is empty. -/
theorem engines_agree (ps : List (AcsmPattern U)) (rowNodes zcnt : ℤ) (T : List UInt8) :
    ((∀ e ∈ sixEngines, ∀ e' ∈ sixEngines, Agree ps rowNodes zcnt T e e') ↔ Quiet ps T) ∧
      ((∀ p ∈ ps, p.patrn ≠ []) → (∀ c ∈ T, OutsideBand ps (xlatcase c)) →
        ∀ e ∈ allEngines, ∀ e' ∈ allEngines, Agree ps rowNodes zcnt T e e') := by
  obtain ⟨b, word, st, mlist, h⟩ := exists_described ps
  refine ⟨h.agree_six_iff rowNodes zcnt T, fun hne hout => ?_⟩
  have hq := quiet_of_outsideBand hne hout
  have hsearch : ∀ e ∈ allEngines, ∀ (D : Type u) (Match : Callback U D), NonPositive Match → ∀ data,
      search ps e rowNodes zcnt T Match data = some (⟨0, data⟩, 0) := by
    intro e he D Match hpos data
    rcases List.mem_cons.1 he with rfl | he
    · exact h.banded hne rowNodes zcnt Match T hout data
    · rw [h.six e he rowNodes zcnt Match hpos, h.expected_quiet hq]
      rfl
  intro e he e' he' D Match hpos data
  rw [hsearch e he D Match hpos, hsearch e' he' D Match hpos]

/-- The pattern `AB` and the text `BC`: the text has the byte `B`, which is larger than all first bytes. -/
theorem engines_agree_bc :
    ∀ e ∈ allEngines, ∀ e' ∈ allEngines, Agree [plain [65, 66] rfl] 256 10 [66, 67] e e' :=
  (engines_agree [plain [65, 66] rfl] 256 10 [66, 67]).2 (by simp [plain])
    (by simp [OutsideBand, plain]; decide)

/-- With the pattern `AB` the text `A` leaves the full DFA in state 1, and the banded one in state 0. -/
theorem engines_disagree :
    ¬ ∀ e ∈ allEngines, ∀ e' ∈ allEngines, Agree [plain [65, 66] rfl] 256 10 [65] e e' := by
  intro hall
  have hagree := hall (.dfa, .full) (by simp [allEngines, sixEngines]) (.dfa, .banded)
    (by simp [allEngines, sixEngines]) ℕ (fun _ _ n => (0, n)) (fun _ _ _ => le_rfl) 0
  have hfull : (search [plain [65, 66] rfl] (.dfa, .full) 256 10 [65] (fun _ _ (n : ℕ) => (0, n)) 0).map
      Prod.snd = some 1 := by decide +kernel
  have hbanded : (search [plain [65, 66] rfl] (.dfa, .banded) 256 10 [65] (fun _ _ (n : ℕ) => (0, n)) 0).map
      Prod.snd = some 0 := by decide +kernel
  rw [hagree, hbanded] at hfull
  cases hfull

end Snort.Acsm
