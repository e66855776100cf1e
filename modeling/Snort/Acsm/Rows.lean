import Snort.Acsm.Dfa
import Snort.Bnfa.Search

/-!
# Reading the rows

A row is written from the transitions of its state and read by `SparseGetNextStateDFA`,
`SparseGetNextStateNFA` or one of the search loops.  Whatever the format, what is read for an input is the
transition for it.  The exception is `SparseGetNextStateNFA` on a banded row: it does not step over the
width and the first input, so all that is said of it is what it gives outside of the band.
-/

namespace Snort.Acsm

open Bnfa

variable {full : UInt8 → ℕ} {state : ℕ}

/-! ### Full rows -/

theorem getElem?_alphabet (full : UInt8 → ℕ) (c : UInt8) : (alphabet.map full)[c.toNat]? = some (full c) := by
  have hc : c.toNat < (alphabet.map full).length := by
    rw [List.length_map, length_alphabet]
    exact c.toNat_lt
  rw [← getD_map_alphabet full c, List.getD_eq_getElem _ _ hc, List.getElem?_eq_getElem hc]

/-! ### Sparse rows -/

theorem mem_rowInputs {c : UInt8} : c ∈ rowInputs full ↔ full c ≠ 0 := by
  simp [rowInputs, mem_alphabet]

theorem pairwise_rowInputs (full : UInt8 → ℕ) :
    (rowInputs full).Pairwise fun c d => c.toNat < d.toNat :=
  pairwise_alphabet.filter _

theorem sparsePairsDfa_eq (full : UInt8 → ℕ) (c : UInt8) {L : List UInt8}
    (h : L.Pairwise fun c d => c.toNat < d.toNat) :
    sparsePairsDfa c.toNat L.length (L.flatMap fun i => [i.toNat, full i]) =
      some (if c ∈ L then full c else 0) := by
  induction L with
  | nil => rfl
  | cons i L ih =>
    obtain ⟨hi, hL⟩ := List.pairwise_cons.1 h
    rw [List.flatMap_cons, List.length_cons]
    show (if c.toNat < i.toNat then some 0 else if i.toNat = c.toNat then some (full i)
      else sparsePairsDfa c.toNat L.length (L.flatMap fun i => [i.toNat, full i])) = _
    by_cases hlt : c.toNat < i.toNat
    · have hnot : c ∉ i :: L := by
        rw [List.mem_cons, not_or]
        refine ⟨fun h => hlt.ne (congrArg UInt8.toNat h), fun h => ?_⟩
        exact absurd (hi c h) (by omega)
      rw [if_pos hlt, if_neg hnot]
    · rw [if_neg hlt]
      by_cases heq : i.toNat = c.toNat
      · obtain rfl := UInt8.toNat_inj.1 heq
        rw [if_pos rfl, if_pos List.mem_cons_self]
      · have hne : c ≠ i := fun h => heq (congrArg UInt8.toNat h).symm
        rw [if_neg heq, ih hL]
        simp only [List.mem_cons, hne, false_or]

theorem sparsePairsNfa_eq (hs : state ≠ 0) (c : UInt8) {L : List UInt8}
    (h : L.Pairwise fun c d => c.toNat < d.toNat) :
    sparsePairsNfa state c.toNat L.length (L.flatMap fun i => [i.toNat, full i]) =
      some (if c ∈ L then .state (full c) else .fail) := by
  induction L with
  | nil => exact congrArg some (if_neg hs)
  | cons i L ih =>
    obtain ⟨hi, hL⟩ := List.pairwise_cons.1 h
    rw [List.flatMap_cons, List.length_cons]
    show (if i.toNat > c.toNat then some .fail else if i.toNat = c.toNat then some (.state (full i))
      else sparsePairsNfa state c.toNat L.length (L.flatMap fun i => [i.toNat, full i])) = _
    by_cases hlt : c.toNat < i.toNat
    · have hnot : c ∉ i :: L := by
        rw [List.mem_cons, not_or]
        refine ⟨fun h => hlt.ne (congrArg UInt8.toNat h), fun h => ?_⟩
        exact absurd (hi c h) (by omega)
      rw [if_pos hlt, if_neg hnot]
    · rw [if_neg hlt]
      by_cases heq : i.toNat = c.toNat
      · obtain rfl := UInt8.toNat_inj.1 heq
        rw [if_pos rfl, if_pos List.mem_cons_self]
      · have hne : c ≠ i := fun h => heq (congrArg UInt8.toNat h).symm
        rw [if_neg heq, ih hL]
        simp only [List.mem_cons, hne, false_or]

/-! ### Bands -/

theorem getElem?_band {first last c : UInt8} (h1 : first.toNat ≤ c.toNat) (h2 : c.toNat ≤ last.toNat) :
    (band full first last)[c.toNat - first.toNat]? = some (full c) := by
  rw [band, List.getElem?_map, List.getElem?_range' (by omega)]
  have hidx : first.toNat + 1 * (c.toNat - first.toNat) = c.toNat := by omega
  rw [hidx, Option.map_some, UInt8.ofNat_toNat]

theorem length_band (full : UInt8 → ℕ) (first last : UInt8) :
    (band full first last).length = last.toNat + 1 - first.toNat := by
  rw [band, List.length_map, List.length_range']

/-- Bands in increasing order. -/
def Increasing (bands : List (UInt8 × UInt8)) : Prop :=
  (∀ b ∈ bands, b.1.toNat ≤ b.2.toNat) ∧ bands.Pairwise fun b b' => b.2.toNat < b'.1.toNat

/-- `c` lies in one of the bands. -/
def Covers (bands : List (UInt8 × UInt8)) (c : UInt8) : Prop :=
  ∃ b ∈ bands, b.1.toNat ≤ c.toNat ∧ c.toNat ≤ b.2.toNat

theorem increasing_cons {b : UInt8 × UInt8} {bands : List (UInt8 × UInt8)} :
    Increasing (b :: bands) ↔
      b.1.toNat ≤ b.2.toNat ∧ (∀ b' ∈ bands, b.2.toNat < b'.1.toNat) ∧ Increasing bands := by
  rw [Increasing, Increasing, List.forall_mem_cons, List.pairwise_cons]
  tauto

theorem covers_cons {b : UInt8 × UInt8} {bands : List (UInt8 × UInt8)} {c : UInt8} :
    Covers (b :: bands) c ↔ (b.1.toNat ≤ c.toNat ∧ c.toNat ≤ b.2.toNat) ∨ Covers bands c := by
  rw [Covers, Covers, List.exists_mem_cons_iff]

/-- The bands lie in the inputs that are left, or start with the band that is open. -/
theorem calcSparseBands_spec (zmax : ℤ) (is : List UInt8)
    (his : is.Pairwise fun c d => c.toNat < d.toNat) :
    (Increasing (calcSparseBands full zmax none is) ∧
      (∀ b ∈ calcSparseBands full zmax none is, b.1 ∈ is) ∧
      ∀ c ∈ is, full c ≠ 0 → Covers (calcSparseBands full zmax none is) c) ∧
    ∀ first last zcnt, first.toNat ≤ last.toNat → (∀ c ∈ is, last.toNat < c.toNat) →
      ∃ last' bands, calcSparseBands full zmax (some (first, last, zcnt)) is = (first, last') :: bands ∧
        last.toNat ≤ last'.toNat ∧ Increasing ((first, last') :: bands) ∧ (∀ b ∈ bands, b.1 ∈ is) ∧
        ∀ c ∈ is, full c ≠ 0 → Covers ((first, last') :: bands) c := by
  induction is with
  | nil =>
    have hnil : Increasing [] := ⟨by simp, List.Pairwise.nil⟩
    refine ⟨⟨hnil, by simp [calcSparseBands], by simp⟩, fun first last zcnt hle _ => ?_⟩
    exact ⟨last, [], rfl, le_rfl, increasing_cons.2 ⟨hle, by simp, hnil⟩, by simp, by simp⟩
  | cons i is ih =>
    obtain ⟨hi, his⟩ := List.pairwise_cons.1 his
    obtain ⟨⟨hinc, hmem, hcov⟩, hopen⟩ := ih his
    constructor
    · rw [calcSparseBands]
      by_cases hf : full i = 0
      · rw [if_neg (not_not_intro hf)]
        refine ⟨hinc, fun b hb => List.mem_cons_of_mem i (hmem b hb), fun c hc hne => ?_⟩
        rcases List.mem_cons.1 hc with rfl | hc
        · exact absurd hf hne
        · exact hcov c hc hne
      · rw [if_pos hf]
        obtain ⟨last', bands, heq, hle, hinc', hmem', hcov'⟩ := hopen i i 0 le_rfl hi
        rw [heq]
        refine ⟨hinc', fun b hb => ?_, fun c hc hne => ?_⟩
        · rcases List.mem_cons.1 hb with rfl | hb
          · exact List.mem_cons_self
          · exact List.mem_cons_of_mem i (hmem' b hb)
        · rcases List.mem_cons.1 hc with rfl | hc
          · exact covers_cons.2 (Or.inl ⟨le_rfl, hle⟩)
          · exact hcov' c hc hne
    · intro first last zcnt hle hlast
      have hli := hlast i List.mem_cons_self
      rw [calcSparseBands]
      by_cases hf : full i = 0
      · rw [if_neg (not_not_intro hf)]
        have hskip : ∀ {bands : List (UInt8 × UInt8)}, (∀ c ∈ is, full c ≠ 0 → Covers bands c) →
            ∀ c ∈ i :: is, full c ≠ 0 → Covers bands c := by
          intro bands h c hc hne
          rcases List.mem_cons.1 hc with rfl | hc
          · exact absurd hf hne
          · exact h c hc hne
        by_cases hz : ((zcnt + 1 : ℕ) : ℤ) > zmax
        · -- the band ends here
          rw [if_pos hz]
          refine ⟨last, _, rfl, le_rfl, increasing_cons.2 ⟨hle, fun b hb => ?_, hinc⟩,
            fun b hb => List.mem_cons_of_mem i (hmem b hb), hskip fun c hc hne => ?_⟩
          · exact hlast _ (List.mem_cons_of_mem i (hmem b hb))
          · exact covers_cons.2 (Or.inr (hcov c hc hne))
        · rw [if_neg hz]
          obtain ⟨last', bands, heq, hle', hinc', hmem', hcov'⟩ := hopen first last (zcnt + 1) hle
            fun c hc => hlast c (List.mem_cons_of_mem i hc)
          exact ⟨last', bands, heq, hle', hinc', fun b hb => List.mem_cons_of_mem i (hmem' b hb),
            hskip hcov'⟩
      · rw [if_pos hf]
        obtain ⟨last', bands, heq, hle', hinc', hmem', hcov'⟩ := hopen first i 0 (by omega) hi
        refine ⟨last', bands, heq, by omega, hinc', fun b hb => List.mem_cons_of_mem i (hmem' b hb),
          fun c hc hne => ?_⟩
        rcases List.mem_cons.1 hc with rfl | hc
        · exact covers_cons.2 (Or.inl ⟨by show first.toNat ≤ c.toNat; omega, hle'⟩)
        · exact hcov' c hc hne

/-- The words of a row of bands. -/
def bandsWords (full : UInt8 → ℕ) (bands : List (UInt8 × UInt8)) : List ℕ :=
  bands.flatMap fun (first, last) =>
    (last.toNat + 1 - first.toNat) :: first.toNat :: band full first last

theorem bandsWords_cons (full : UInt8 → ℕ) (first last : UInt8) (bands : List (UInt8 × UInt8)) :
    bandsWords full ((first, last) :: bands) =
      (last.toNat + 1 - first.toNat) :: first.toNat :: (band full first last ++ bandsWords full bands) := by
  rw [bandsWords, List.flatMap_cons]
  rfl

/-- Reading in a row of bands: the band of the input is found, or there is none. -/
theorem sparseBandsDfa_eq (c : UInt8) {bands : List (UInt8 × UInt8)} (h : Increasing bands) :
    (Covers bands c → sparseBandsDfa c.toNat bands.length (bandsWords full bands) = some (full c)) ∧
      (¬ Covers bands c → sparseBandsDfa c.toNat bands.length (bandsWords full bands) = some 0) := by
  induction bands with
  | nil => exact ⟨fun ⟨b, hb, _⟩ => absurd hb List.not_mem_nil, fun _ => rfl⟩
  | cons b bands ih =>
    obtain ⟨first, last⟩ := b
    obtain ⟨hle, hlt, hinc⟩ := increasing_cons.1 h
    rw [bandsWords_cons, List.length_cons, covers_cons]
    simp only at hle hlt ⊢
    show (_ → (if c.toNat < first.toNat then some 0
        else if c.toNat < first.toNat + (last.toNat + 1 - first.toNat) then
          (band full first last ++ bandsWords full bands)[c.toNat - first.toNat]?
        else sparseBandsDfa c.toNat bands.length
          ((band full first last ++ bandsWords full bands).drop (last.toNat + 1 - first.toNat))) = _) ∧
      (_ → (if c.toNat < first.toNat then some 0
        else if c.toNat < first.toNat + (last.toNat + 1 - first.toNat) then
          (band full first last ++ bandsWords full bands)[c.toNat - first.toNat]?
        else sparseBandsDfa c.toNat bands.length
          ((band full first last ++ bandsWords full bands).drop (last.toNat + 1 - first.toNat))) = _)
    have hno : c.toNat < first.toNat → ¬ Covers bands c := by
      rintro hc ⟨b, hb, h1, -⟩
      have := hlt b hb
      omega
    by_cases hc : c.toNat < first.toNat
    · simp only [if_pos hc]
      refine ⟨fun h => absurd h ?_, fun _ => trivial⟩
      rw [not_or]
      exact ⟨fun h => absurd h.1 (not_le.2 hc), hno hc⟩
    · simp only [if_neg hc]
      by_cases hin : c.toNat ≤ last.toNat
      · have hidx : c.toNat < first.toNat + (last.toNat + 1 - first.toNat) := by omega
        have hget : (band full first last ++ bandsWords full bands)[c.toNat - first.toNat]? =
            some (full c) := by
          rw [List.getElem?_append_left (by rw [length_band]; omega)]
          exact getElem?_band (by omega) hin
        simp only [if_pos hidx, hget]
        exact ⟨fun _ => trivial, fun h => absurd (Or.inl ⟨by omega, hin⟩) h⟩
      · have hidx : ¬ c.toNat < first.toNat + (last.toNat + 1 - first.toNat) := by omega
        have hdrop : (band full first last ++ bandsWords full bands).drop
            (last.toNat + 1 - first.toNat) = bandsWords full bands := by
          rw [← length_band full first last, List.drop_left]
        simp only [if_neg hidx, hdrop]
        have hfirst : ¬ (first.toNat ≤ c.toNat ∧ c.toNat ≤ last.toNat) := fun h => hin h.2
        simp only [hfirst, false_or]
        exact ih hinc

/-- The two readers of bands differ in what they make of a word. -/
theorem sparseBandsNfa_eq (state input : ℕ) : ∀ (nb : ℕ) (ps : List ℕ),
    sparseBandsNfa state input nb ps = (sparseBandsDfa input nb ps).map (transition state) := by
  intro nb
  have hzero : noTransition state = transition state 0 := by
    rw [noTransition, transition]
    by_cases h0 : state = 0
    · simp [h0]
    · simp [h0]
  induction nb with
  | zero => exact fun _ => congrArg some hzero
  | succ nb ih =>
    intro ps
    match ps with
    | [] => rfl
    | [_] => rfl
    | n :: index :: ps =>
      rw [sparseBandsNfa, sparseBandsDfa]
      by_cases h1 : input < index
      · rw [if_pos h1, if_pos h1, hzero]
        rfl
      · rw [if_neg h1, if_neg h1]
        by_cases h2 : input < index + n
        · rw [if_pos h2, if_pos h2]
        · rw [if_neg h2, if_neg h2]
          exact ih _

/-! ### The row of a state -/

variable {U : Type*} {a : AcsmStruct U}

theorem sparseBands_row (zmax : ℤ) (full : UInt8 → ℕ) (c : UInt8) :
    sparseBandsDfa c.toNat (calcSparseBands full zmax none alphabet).length
      (bandsWords full (calcSparseBands full zmax none alphabet)) = some (full c) := by
  obtain ⟨hinc, -, hcov⟩ := (@calcSparseBands_spec full zmax alphabet pairwise_alphabet).1
  by_cases hc : Covers (calcSparseBands full zmax none alphabet) c
  · exact (sparseBandsDfa_eq c hinc).1 hc
  · rw [(sparseBandsDfa_eq c hinc).2 hc]
    by_contra hne
    exact hc (hcov c (mem_alphabet c) fun h => hne (congrArg some h.symm))

/-- The band of a banded row. -/
theorem rowInputs_bounds {first last : UInt8} (hfirst : (rowInputs full).head? = some first)
    (hlast : (rowInputs full).getLast? = some last) {c : UInt8} (hc : full c ≠ 0) :
    first.toNat ≤ c.toNat ∧ c.toNat ≤ last.toNat := by
  have hmem := mem_rowInputs.2 hc
  have hpair := pairwise_rowInputs full
  constructor
  · obtain ⟨L, hL⟩ := List.head?_eq_some_iff.1 hfirst
    rw [hL] at hmem hpair
    rcases List.mem_cons.1 hmem with rfl | h
    · exact le_rfl
    · exact ((List.pairwise_cons.1 hpair).1 c h).le
  · obtain ⟨L, hL⟩ := List.getLast?_eq_some_iff.1 hlast
    rw [hL] at hmem hpair
    rcases List.mem_append.1 hmem with h | h
    · exact ((List.pairwise_append.1 hpair).2.2 c h last (List.mem_singleton_self last)).le
    · rw [List.mem_singleton.1 h]

theorem bandedDfa_row (full : UInt8 → ℕ) (flag : ℕ) (c : UInt8) :
    bandedDfa ((bandedRow full).set 1 flag) c.toNat = some (full c) := by
  have hlt := c.toNat_lt
  rw [bandedRow]
  cases hfirst : (rowInputs full).head? with
  | none =>
    have hnil := List.head?_eq_none_iff.1 hfirst
    have hc : full c = 0 := by
      by_contra hne
      have := mem_rowInputs.2 hne
      rw [hnil] at this
      cases this
    rw [hc]
    exact if_pos (Or.inl (by omega))
  | some first =>
    cases hlast : (rowInputs full).getLast? with
    | none =>
      rw [List.getLast?_eq_none_iff.1 hlast] at hfirst
      cases hfirst
    | some last =>
      show (if c.toNat < first.toNat ∨ c.toNat ≥ first.toNat + (last.toNat + 1 - first.toNat) then
        some 0 else (band full first last)[c.toNat - first.toNat]?) = _
      by_cases hin : first.toNat ≤ c.toNat ∧ c.toNat ≤ last.toNat
      · rw [if_neg (by omega), getElem?_band hin.1 hin.2]
      · have hc : full c = 0 := by
          by_contra hne
          exact hin (rowInputs_bounds hfirst hlast hne)
        rw [if_pos (by omega), hc]

/-- Reading a row of a DFA. -/
theorem sparseGetNextStateDfa_row (a : AcsmStruct U) (k flag : ℕ) (c : UInt8) :
    sparseGetNextStateDfa ((convRow a k).set 1 flag) c.toNat = some (listConvToFull a k c) := by
  have hfull : sparseGetNextStateDfa ((fullRow (listConvToFull a k)).set 1 flag) c.toNat =
      some (listConvToFull a k c) := getElem?_alphabet _ c
  rw [convRow]
  cases hfmt : a.format with
  | full => exact hfull
  | sparse =>
    simp only [sparseRow]
    split_ifs
    · exact hfull
    · refine (sparsePairsDfa_eq (listConvToFull a k) c (pairwise_rowInputs _)).trans ?_
      by_cases hc : listConvToFull a k c = 0
      · rw [if_neg fun h => mem_rowInputs.1 h hc, hc]
      · rw [if_pos (mem_rowInputs.2 hc)]
  | banded =>
    have hbanded := bandedDfa_row (listConvToFull a k) flag c
    simp only
    rw [← hbanded, bandedRow]
    split <;> rfl
  | sparseBands => exact sparseBands_row a.sparseMaxZcnt (listConvToFull a k) c

/-- Reading a row of an NFA that is not banded. -/
theorem sparseGetNextStateNfa_row (a : AcsmStruct U) (hfmt : a.format ≠ .banded) (k flag : ℕ) (c : UInt8) :
    sparseGetNextStateNfa ((convRow a k).set 1 flag) k c.toNat =
      some (transition k (listConvToFull a k c)) := by
  have hfull : sparseGetNextStateNfa ((fullRow (listConvToFull a k)).set 1 flag) k c.toNat =
      some (transition k (listConvToFull a k c)) :=
    (congrArg (Option.map (transition k)) (getElem?_alphabet _ c)).trans rfl
  rw [convRow]
  cases hf : a.format with
  | full => exact hfull
  | sparse =>
    simp only [sparseRow]
    split_ifs with hk
    · exact hfull
    · have h0 : k ≠ 0 := fun h0 => hk (Or.inl h0)
      refine (sparsePairsNfa_eq h0 c (pairwise_rowInputs _)).trans ?_
      by_cases hc : listConvToFull a k c = 0
      · rw [if_neg fun h => mem_rowInputs.1 h hc, transition, if_pos ⟨hc, h0⟩]
      · rw [if_pos (mem_rowInputs.2 hc), transition, if_neg fun h => hc h.1]
  | banded => exact absurd hf hfmt
  | sparseBands =>
    refine (sparseBandsNfa_eq k c.toNat _ _).trans ?_
    exact congrArg (Option.map (transition k)) (sparseBands_row a.sparseMaxZcnt (listConvToFull a k) c)

/-- Outside of the band `SparseGetNextStateNFA` reads a banded row as it should. -/
theorem sparseGetNextStateNfa_banded (a : AcsmStruct U) (hfmt : a.format = .banded) (k flag : ℕ) (c : UInt8)
    (hout : (∀ d, listConvToFull a k d ≠ 0 → c.toNat < d.toNat) ∨
      ∀ d, listConvToFull a k d ≠ 0 → d.toNat < c.toNat) :
    sparseGetNextStateNfa ((convRow a k).set 1 flag) k c.toNat = some (noTransition k) := by
  have hlt := c.toNat_lt
  rw [convRow]
  simp only [hfmt]
  rw [bandedRow]
  cases hfirst : (rowInputs (listConvToFull a k)).head? with
  | none => exact if_pos (Or.inl (by omega))
  | some first =>
    cases hlast : (rowInputs (listConvToFull a k)).getLast? with
    | none =>
      rw [List.getLast?_eq_none_iff.1 hlast] at hfirst
      cases hfirst
    | some last =>
      have h1 := mem_rowInputs.1 (List.mem_of_mem_head? hfirst)
      have h2 := mem_rowInputs.1 (List.mem_of_getLast? hlast)
      have hle := (rowInputs_bounds hfirst hlast h1).2
      refine if_pos ?_
      rcases hout with hout | hout
      · exact Or.inl (hout first h1)
      · have := hout last h2
        right
        omega

/-- A row starts with its format and a match flag that is not set. -/
theorem convRow_cons (a : AcsmStruct U) (k : ℕ) : ∃ fmt row, convRow a k = fmt :: 0 :: row := by
  rw [convRow]
  cases a.format with
  | full => exact ⟨_, _, rfl⟩
  | sparse =>
    simp only [sparseRow]
    split_ifs
    · exact ⟨_, _, rfl⟩
    · exact ⟨_, _, rfl⟩
  | banded =>
    simp only [bandedRow]
    split
    · exact ⟨_, _, rfl⟩
    · exact ⟨_, _, rfl⟩
  | sparseBands => exact ⟨_, _, rfl⟩

/-- The row of a state in the compiled machine. -/
theorem nextState_row (a : AcsmStruct U) {k : ℕ} (hk : k < a.numStates) :
    (acsmUpdateMatchStates (convRows a)).nextState k =
      (convRow a k).set 1 (if a.matchList k = [] then 0 else 1) := by
  obtain ⟨fmt, row, hrow⟩ := convRow_cons a k
  simp only [acsmUpdateMatchStates, convRows, if_pos hk]
  by_cases hm : a.matchList k = []
  · rw [if_neg fun h => h.2 hm, if_pos hm, hrow]
    rfl
  · rw [if_pos ⟨hk, hm⟩, if_neg hm]

theorem findNext_map (f : ℕ → ℕ) (c : UInt8) (row : List BnfaTransNode) :
    findNext c (row.map fun t => ⟨t.key, f t.nextState⟩) = (findNext c row).map f := by
  induction row with
  | nil => rfl
  | cons t row ih =>
    rw [List.map_cons, findNext, findNext]
    by_cases hc : t.key = c
    · rw [if_pos hc, if_pos hc]
      rfl
    · rw [if_neg hc, if_neg hc, ih]

/-- The transitions of a list as they are stored. -/
theorem listConvToFull_eq (h : RowsNodup a) (k : ℕ) (c : UInt8) :
    listConvToFull a k c = narrow a.sizeofstate (listGetNextState2 a k c) := by
  have hzero : narrow a.sizeofstate 0 = 0 := by
    rw [narrow]
    split_ifs <;> rfl
  have hkeys : (((a.transTable k).map fun t => (⟨t.key, narrow a.sizeofstate t.nextState⟩ :
      BnfaTransNode)).map BnfaTransNode.key).Nodup := by
    rw [List.map_map]
    exact h k
  have hfold := @foldl_update_eq _ (fun _ => 0) hkeys c
  rw [List.foldl_map, findNext_map] at hfold
  refine hfold.trans ?_
  rw [listGetNextState2]
  cases findNext c (a.transTable k) with
  | none => exact hzero.symm
  | some t => rfl

end Snort.Acsm
