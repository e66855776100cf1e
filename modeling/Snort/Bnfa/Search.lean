import Snort.Bnfa.Pack

/-!
# Searching in the packed array

`csparseTransition` reads one row of the array: by index, by linear search or by binary search.  It
gives the index of the state that the transition list gives, so a search in the array is a search in
the transition lists with the index of each state for the state.
-/

namespace Snort.Bnfa

variable {U : Type*} {b : BnfaStruct U}

/-! ### Looking for a key -/

/-- `r` is a position at which the key is `val`, or there is none among the first `len`. -/
def Finds (key : ℕ → ℕ) (len val : ℕ) : Option ℕ → Prop
  | some m => m < len ∧ key m = val
  | none => ∀ m < len, key m ≠ val

theorem finds_find? (key : ℕ → ℕ) (len val : ℕ) :
    Finds key len val ((List.range len).find? fun k => key k = val) := by
  cases hf : (List.range len).find? fun k => key k = val with
  | some m =>
    exact ⟨List.mem_range.1 (List.mem_of_find?_eq_some hf), by simpa using List.find?_some hf⟩
  | none => simpa [Finds] using hf

theorem finds_binearchLoop {a : ℕ → ℕ} {len : ℕ} (val : ℕ)
    (hmono : ∀ i j, i < j → j < len → a i >>> sparseValueShift < a j >>> sparseValueShift)
    (l r : ℤ) (hl : 0 ≤ l) (hr : r < len)
    (hout : ∀ m < len, (m : ℤ) < l ∨ r < m → a m >>> sparseValueShift ≠ val) :
    Finds (fun k => a k >>> sparseValueShift) len val (binearchLoop a val l r) := by
  fun_induction binearchLoop a val l r with
  | case1 l r hle m c hval => exact ⟨by omega, hval.symm⟩
  | case2 l r hle m c hne hlt ih =>
    -- the key is left of `m`
    refine ih hl (by omega) fun i hi hside => ?_
    rcases lt_or_ge i m.toNat with him | him
    · exact hout i hi (by omega)
    · rcases Nat.eq_or_lt_of_le him with rfl | him
      · exact Ne.symm hne
      · exact (hlt.trans (hmono _ _ him hi)).ne'
  | case3 l r hle m c hne hnlt ih =>
    have hgt : c < val := by omega
    refine ih (by omega) hr fun i hi hside => ?_
    rcases lt_or_ge m.toNat i with him | him
    · exact hout i hi (by omega)
    · rcases Nat.eq_or_lt_of_le him with rfl | him
      · exact hgt.ne
      · exact ((hmono _ _ him (by omega)).trans hgt).ne
  | case4 l r hlt => exact fun m hm => hout m hm (by omega)

/-- `_bnfa_binearch` on increasing keys. -/
theorem finds_binearch {a : ℕ → ℕ} {len : ℕ} (val : ℕ)
    (hmono : ∀ i j, i < j → j < len → a i >>> sparseValueShift < a j >>> sparseValueShift) :
    Finds (fun k => a k >>> sparseValueShift) len val (binearch a len val) :=
  finds_binearchLoop val hmono 0 (len - 1) le_rfl (by omega) fun m hm h => by omega

/-! ### Reading a row -/

theorem getD_packed {k j : ℕ} (hk : k < b.numStates) (hj : j < 2 + (transWith b id k).length) :
    (packed b).getD (index b k + j) 0 = (rowWith b (index b) k).getD j 0 := by
  have hlen : ∀ k, (rowWith b id k).length = (rowWith b (index b) k).length := fun k => by
    rw [length_rowWith, length_rowWith]
  have hstart : index b k = Rows.start (rowWith b (index b)) k :=
    Rows.start_congr (n := k) (fun i _ => hlen i) k le_rfl
  rw [hstart]
  exact Rows.getD_flatMap hk (by rwa [← hlen, length_rowWith]) 0

theorem packed_state {k : ℕ} (hk : k < b.numStates) : (packed b).getD (index b k) 0 = k :=
  getD_packed (j := 0) hk (by omega)

theorem packed_control {k : ℕ} (hk : k < b.numStates) :
    (packed b).getD (index b k + 1) 0 = controlByte b k <<< 24 ||| index b (b.failState k) :=
  getD_packed (j := 1) hk (by omega)

theorem packed_trans {k j : ℕ} (hk : k < b.numStates) (hj : j < (transWith b id k).length) :
    (packed b).getD (index b k + 1 + (j + 1)) 0 = (transWith b (index b) k).getD j 0 := by
  rw [Nat.add_assoc, Nat.add_comm 1]
  exact getD_packed (j := j + 2) hk (by omega)

theorem index_zero (b : BnfaStruct U) : index b 0 = 0 := rfl

theorem index_pos {k : ℕ} (hk : 0 < k) : 0 < index b k := by
  have := Rows.start_add_lt (f := rowWith b id) hk (i := 0) (by rw [length_rowWith]; omega)
  rwa [Rows.start_zero] at this

theorem index_eq_zero {k : ℕ} : index b k = 0 ↔ k = 0 :=
  ⟨fun h => by_contra fun h0 => (index_pos (Nat.pos_of_ne_zero h0)).ne' h, fun h => by rw [h]; rfl⟩

theorem getD_map_alphabet (f : UInt8 → ℕ) (c : UInt8) : (alphabet.map f).getD c.toNat 0 = f c := by
  have hc : c.toNat < 256 := c.toNat_lt
  rw [List.getD_eq_getElem _ _ (by rwa [List.length_map, length_alphabet]), List.getElem_map]
  simp [alphabet]

theorem pairwise_alphabet : alphabet.Pairwise fun c d => c.toNat < d.toNat := by
  rw [alphabet, List.pairwise_map]
  refine List.Pairwise.imp_of_mem (fun {i j} hi hj hlt => ?_) List.pairwise_lt_range
  rwa [UInt8.toNat_ofNat_of_lt' (List.mem_range.1 hi),
    UInt8.toNat_ofNat_of_lt' (List.mem_range.1 hj)]

theorem packed_sparse {k : ℕ} (hk : k < b.numStates) (hst : ¬ storedFull b k = true) {j : ℕ}
    (hj : j < (rowInputs (convRowToFull b k)).length) :
    (packed b).getD (index b k + 1 + (j + 1)) 0 =
      (rowInputs (convRowToFull b k))[j].toNat <<< 24 |||
        index b (convRowToFull b k (rowInputs (convRowToFull b k))[j]) := by
  rw [packed_trans hk (by rwa [length_transWith, if_neg hst]), transWith]
  simp only [if_neg hst]
  rw [List.getD_eq_getElem _ _ (by rwa [List.length_map]), List.getElem_map]

/-- The key of a word in a sparse row. -/
theorem Packable.packed_key (h : Packable b) {k : ℕ} (hk : k < b.numStates) (hst : ¬ storedFull b k = true)
    {j : ℕ} (hj : j < (rowInputs (convRowToFull b k)).length) :
    (packed b).getD (index b k + 1 + (j + 1)) 0 >>> sparseValueShift =
      (rowInputs (convRowToFull b k))[j].toNat := by
  rw [packed_sparse hk hst hj, sparseValueShift, Rows.field_shiftRight (h.index_lt (h.next k hk _))]

theorem Packable.mem_rowInputs (h : Packable b) {k : ℕ} (hk : k < b.numStates) (c : UInt8) :
    c ∈ rowInputs (convRowToFull b k) ↔ convRowToFull b k c ≠ 0 := by
  simp [rowInputs, mem_alphabet, and_max_of_lt (h.lt_max (h.next k hk c))]

/-- The words of a sparse row found by their keys. -/
theorem Packable.map_sparse (h : Packable b) {k : ℕ} (hk : k < b.numStates) (hst : ¬ storedFull b k = true)
    (c : UInt8) {r : Option ℕ}
    (hr : Finds (fun j => (packed b).getD (index b k + 1 + (j + 1)) 0 >>> sparseValueShift)
      (rowInputs (convRowToFull b k)).length c.toNat r) :
    (r.map fun j => (packed b).getD (index b k + 1 + (j + 1)) 0 &&& sparseMaxState) =
      if convRowToFull b k c = 0 then none else some (index b (convRowToFull b k c)) := by
  cases r with
  | some j =>
    obtain ⟨hj, hkey⟩ := hr
    have hc : (rowInputs (convRowToFull b k))[j] = c :=
      UInt8.toNat_inj.1 ((h.packed_key hk hst hj).symm.trans hkey)
    have hne := (h.mem_rowInputs hk c).1 (hc ▸ List.getElem_mem hj)
    rw [if_neg hne, Option.map_some, packed_sparse hk hst hj, and_max,
      Rows.field_mod (h.index_lt (h.next k hk _)), hc]
  | none =>
    rw [if_pos]
    · rfl
    · by_contra hne
      obtain ⟨j, hj, hc⟩ := List.getElem_of_mem ((h.mem_rowInputs hk c).2 hne)
      exact hr j hj ((h.packed_key hk hst hj).trans (congrArg UInt8.toNat hc))

theorem Packable.sparse_mono (h : Packable b) {k : ℕ} (hk : k < b.numStates) (hst : ¬ storedFull b k = true)
    (i j : ℕ) (hij : i < j) (hj : j < (rowInputs (convRowToFull b k)).length) :
    (packed b).getD (index b k + 1 + (i + 1)) 0 >>> sparseValueShift <
      (packed b).getD (index b k + 1 + (j + 1)) 0 >>> sparseValueShift := by
  rw [h.packed_key hk hst (hij.trans hj), h.packed_key hk hst hj]
  exact List.pairwise_iff_getElem.1 (pairwise_alphabet.filter _) i j (hij.trans hj) hj hij

/-- One round at the index of a state is a step in its row. -/
theorem Packable.csparseTransition_row (h : Packable b) {k : ℕ} (hk : k < b.numStates) (c : UInt8) :
    csparseTransition (packed b) (index b k) c =
      if k ≠ 0 ∧ convRowToFull b k c = 0 then none else some (index b (convRowToFull b k c)) := by
  obtain ⟨hfull, hcount, -⟩ := controlByte_bits b k
  have hctrl := packed_control hk
  have hfi := h.index_lt (h.fail k hk)
  have hti := h.index_lt (h.next k hk c)
  have hbit : (packed b).getD (index b k + 1) 0 &&& sparseFullBit =
      (controlByte b k &&& 0x40) <<< 24 := by
    rw [hctrl]
    exact Rows.field_and hfi 0x40
  have hnc : ((packed b).getD (index b k + 1) 0 >>> sparseCountShift) &&& sparseMaxRowTransitions =
      controlByte b k &&& 0x3f := by
    rw [hctrl, sparseCountShift, Rows.field_shiftRight hfi, sparseMaxRowTransitions]
  rw [csparseTransition]
  simp only [Nat.add_zero, hbit, hnc, hfull, hcount]
  by_cases hst : storedFull b k = true
  · have hc : c.toNat < 256 := c.toNat_lt
    have hword : (packed b).getD (index b k + 1 + (1 + c.toNat)) 0 =
        index b (convRowToFull b k c) := by
      rw [Nat.add_comm 1 c.toNat, packed_trans hk (by rwa [length_transWith, if_pos hst]), transWith]
      simp only [hst, if_true]
      exact getD_map_alphabet _ c
    rw [hword, and_max_of_lt hti]
    simp only [hst, if_true, index_eq_zero, ne_eq]
    by_cases h0 : k = 0
    · simp [h0]
    · simp [h0]
  · have h0 : k ≠ 0 := fun h0 => hst (by simp [storedFull, h0])
    simp only [hst, h0, ne_eq, not_false_eq_true, true_and, Nat.zero_shiftLeft, if_false,
      not_true_eq_false, Bool.false_eq_true]
    by_cases hlim : (rowInputs (convRowToFull b k)).length > sparseLinearSearchLimit
    · rw [if_pos hlim]
      exact h.map_sparse hk hst c (finds_binearch _ (h.sparse_mono hk hst))
    · rw [if_neg hlim]
      exact h.map_sparse hk hst c (finds_find? _ _ _)

/-- `_bnfa_get_next_state_csparse_nfa` on indices is the search for the next state on states. -/
theorem Packable.getNextStateCsparseNfa_eq (h : Packable b) {word : ℕ → List UInt8}
    (hsp : Spelled b word b.numStates) (hk : KeysNodup b) (c : UInt8) :
    ∀ (fuel : ℕ) {s : ℕ}, s < b.numStates →
      getNextStateCsparseNfa (packed b) c fuel (index b s) =
        (locateNext b c fuel s).map (index b) := by
  intro fuel
  induction fuel with
  | zero => exact fun _ => rfl
  | succ fuel ih =>
    intro s hs
    have hfi := h.index_lt (h.fail s hs)
    rw [getNextStateCsparseNfa, locateNext, h.csparseTransition_row hs,
      listGetNextState_eq hsp hk hs]
    split_ifs with hnone
    · simp only
      rw [packed_control hs, and_max, Rows.field_mod hfi]
      exact ih (h.fail s hs)
    · rfl

/-! ### Searching a text -/

/-- The state reached over a text by transition lists and fail states. -/
def searchState (b : BnfaStruct U) (T : List UInt8) : Option ℕ :=
  T.foldlM (fun s c => locateNext b (xlatcase c) b.numStates s) 0

theorem locateNext_lt {word : ℕ → List UInt8} (hsp : Spelled b word b.numStates)
    (hfail : ∀ k < b.numStates, b.failState k < b.numStates) {c : UInt8} :
    ∀ (fuel : ℕ) {s t : ℕ}, s < b.numStates → locateNext b c fuel s = some t → t < b.numStates := by
  intro fuel
  induction fuel with
  | zero => exact fun _ h => by cases h
  | succ fuel ih =>
    intro s t hs h
    rw [locateNext] at h
    cases hn : listGetNextState b s c with
    | some t' =>
      rw [hn] at h
      obtain rfl := Option.some.inj h
      exact (hsp.next_word hs hn).1
    | none =>
      rw [hn] at h
      exact ih (hfail s hs) h

/-- **The packed array simulates the transition lists.** -/
theorem searchIndex_eq (h : Packable b) {word : ℕ → List UInt8} (hsp : Spelled b word b.numStates)
    (hk : KeysNodup b) (T : List UInt8) :
    searchIndex { b with transList := packed b } T = (searchState b T).map (index b) := by
  have hrun : ∀ (T : List UInt8) {s : ℕ}, s < b.numStates →
      T.foldlM (fun sindex c => getNextStateCsparseNfa (packed b) (xlatcase c) b.numStates sindex)
          (index b s) =
        (T.foldlM (fun s c => locateNext b (xlatcase c) b.numStates s) s).map
          (index b) := by
    intro T
    induction T with
    | nil => exact fun _ => rfl
    | cons c T ih =>
      intro s hs
      rw [List.foldlM_cons, List.foldlM_cons, h.getNextStateCsparseNfa_eq hsp hk _ _ hs]
      cases hl : locateNext b (xlatcase c) b.numStates s with
      | none => rfl
      | some t => exact ih (locateNext_lt hsp h.fail _ hs hl)
  exact hrun T h.pos

/-- The match list at an index is that of the state. -/
theorem matchesAt_index {s : ℕ} (hs : s < b.numStates) :
    matchesAt { b with transList := packed b } (index b s) = b.matchList s :=
  congrArg b.matchList (packed_state hs)

end Snort.Bnfa
