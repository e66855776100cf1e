import Snort.Acsm.Search

/-!
# The two pattern matchers are interchangeable

* `Dfa.stateAfter_eq`: the state of the DFA in full format after a text;
* **`acsm_interchangeable_bnfa`**: over every text the DFA of `acsmx2.c` and the packed NFA of `bnfa_search.c` find the
  same patterns at the same places.
-/

namespace Snort.Acsm

open Bnfa (BnfaStruct Spelled)

universe u

variable {U : Type u} {ps : List (AcsmPattern U)}

theorem Dfa.stateAfter_eq {a : AcsmStruct U} {b : BnfaStruct (AcsmPattern U)} {word : ℕ → List UInt8} (h : Dfa a b word)
    (hb : Spelled b word b.numStates) (hfmt : a.format = .full) {st : List UInt8 → ℕ}
    (hst : Follows word b.numStates st) (T : List UInt8) : stateAfter (compiled a) T = some (st T) := by
  induction T using List.reverseRecOn with
  | nil => rw [hst.nil hb]; rfl
  | append_singleton T c ih =>
    have hlt : st T < a.numStates := h.numStates ▸ (hst T).1
    rw [stateAfter] at ih
    rw [stateAfter, List.foldlM_append, ih, Option.bind_eq_bind, Option.bind_some, List.foldlM_cons,
      nextState_full a hfmt hlt, h.step hb hst]
    rfl

/-- Both compile, and after every text the match list of the one holds the patterns that the other's does. -/
def Interchangeable (ps : List (AcsmPattern U)) (flag : Bool) : Prop :=
  ∃ a b, acsmCompile2 (addPatterns (acsmCompressStates acsmNew2 flag) ps) = some a ∧
    Bnfa.bnfaCompile (Bnfa.addPatterns (ps.map toBnfa)) = some b ∧
    ∀ T, ∃ s sindex, stateAfter a T = some s ∧ Bnfa.searchIndex b T = some sindex ∧
      ∀ p, p ∈ a.matchList s ↔ toBnfa p ∈ Bnfa.matchesAt b sindex

/-- **One matcher for the other**, with any patterns that are not empty and fit the packed array. -/
theorem acsm_interchangeable_bnfa (ps : List (AcsmPattern U)) (hne : ∀ p ∈ ps, p.patrn ≠ []) (flag : Bool)
    (hsize : Bnfa.csparseSize (Bnfa.addStates (Bnfa.addPatterns (ps.map toBnfa))) ≤ Bnfa.sparseMaxState) :
    Interchangeable ps flag := by
  obtain ⟨m, b, word, hnfa, hfail, hmachine⟩ := exists_automaton ps
  obtain ⟨a₁, h₁⟩ := hmachine _ (fresh_compressStates flag)
  obtain ⟨a, hdfa, hsetup, hcompile⟩ := h₁.compile_dfa rfl hnfa hfail
  obtain ⟨st, hst⟩ := exists_follows hnfa.spelled
  obtain ⟨b', word', hnfa', hsize', hfail', -, hcompile'⟩ := Bnfa.exists_nfa (ps.map toBnfa) false hsize
  rw [Bnfa.bnfaSetOpt_addPatterns] at hcompile'
  have hpack := hnfa'.packable (fun s h0 hs => (hfail' s h0 hs).1) hsize'
  refine ⟨_, _, hcompile, hcompile'.trans hpack.convListToCsparseArray_eq, fun T => ?_⟩
  obtain ⟨s, hs, hlt, hword⟩ := Bnfa.searchState_longest hnfa'.spelled
    (fun s h0 hs => (hfail' s h0 hs).skips hnfa'.spelled h0 hs) T
  rw [hnfa'.words_eq] at hword
  refine ⟨st T, Bnfa.index b' s, hdfa.stateAfter_eq hnfa.spelled hsetup.2.1 hst T, ?_, fun p => ?_⟩
  · rw [Bnfa.searchIndex_eq hpack hnfa'.spelled hnfa'.keys, hs]
    rfl
  · rw [Bnfa.matchesAt_index hlt, hnfa'.lists s hlt, hword, hnfa'.words_eq,
      List.mem_map_of_injective toBnfa_injective]
    refine (mem_matchList hnfa hst hdfa.matchList hne T p).trans (and_congr_right fun hp => ?_)
    have hcase : (toBnfa p).casepatrn ≠ [] := fun hnil => hne p hp (by rw [← upper_toBnfa, hnil]; rfl)
    rw [Bnfa.reported_of_ne_nil hcase,
      AhoCorasick.suffix_longest_iff (Bnfa.isPrefix_pattern (List.mem_map_of_mem hp)), upper_toBnfa]
    rfl

theorem acsm_interchangeable_bnfa_a : Interchangeable [plain [65] rfl] true :=
  acsm_interchangeable_bnfa _ (by simp [plain]) _ (by decide +kernel)

end Snort.Acsm
