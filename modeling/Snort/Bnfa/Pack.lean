import Snort.Bnfa.Fail
import Snort.Lib.Rows

/-!
# The packed array

`_bnfa_conv_list_to_csparse_array` lays the rows of the states end to end; in the array a state is
the index at which its row starts.  `_bnfa_get_next_state_csparse_nfa` on indices does what the
transition lists and the fail states do on states.
-/

namespace Snort.Bnfa

variable {U : Type*} {b : BnfaStruct U} {N : ℕ}

/-! ### Full rows -/

theorem foldl_update_eq (t : List BnfaTransNode) :
    ∀ {full : UInt8 → ℕ}, (t.map BnfaTransNode.key).Nodup → ∀ c,
      t.foldl (fun full n => Function.update full n.key n.nextState) full c =
        (findNext c t).getD (full c) := by
  induction t with
  | nil => exact fun _ _ => rfl
  | cons n t ih =>
    intro full hnodup c
    obtain ⟨hn, hnodup⟩ := List.nodup_cons.1 hnodup
    rw [List.foldl_cons, ih hnodup, findNext]
    by_cases hc : n.key = c
    · subst hc
      have hnone : findNext n.key t = none := by
        cases hf : findNext n.key t with
        | none => rfl
        | some s => exact absurd (findNext_mem hf) hn
      rw [hnone, if_pos rfl, Option.getD_none, Option.getD_some, Function.update_self]
    · rw [if_neg hc, Function.update_of_ne (Ne.symm hc)]

/-- The full row of a state has the transitions of its list. -/
theorem listGetNextState_eq {word : ℕ → List UInt8} (h : Spelled b word N) (hk : KeysNodup b)
    {s : ℕ} (hs : s < N) (c : UInt8) :
    listGetNextState b s c =
      if s ≠ 0 ∧ convRowToFull b s c = 0 then none else some (convRowToFull b s c) := by
  have hnz := h.nonzero s c
  by_cases h0 : s = 0
  · simp [listGetNextState, convRowToFull, h0]
  · have hfull : convNodeToFull (b.transTable s) c = (findNext c (b.transTable s)).getD 0 :=
      foldl_update_eq _ (hk s) c
    simp only [listGetNextState, convRowToFull, if_neg h0, hfull] at hnz ⊢
    cases hf : findNext c (b.transTable s) with
    | none => simp [h0]
    | some t =>
      have ht : t ≠ 0 := fun ht => hnz (Nat.pos_of_ne_zero h0) hs (by rw [hf, ht])
      simp [ht]

/-! ### Rows before and after the replacement -/

/-- What packing needs: the states that rows and fail states name exist, and the array is not too
long. -/
structure Packable (b : BnfaStruct U) : Prop where
  pos : 0 < b.numStates
  fail : ∀ k < b.numStates, b.failState k < b.numStates
  next : ∀ k < b.numStates, ∀ c, convRowToFull b k c < b.numStates
  size : csparseSize b ≤ sparseMaxState

/-- The bits above the fail state in the control word. -/
def controlByte (b : BnfaStruct U) (k : ℕ) : ℕ :=
  (if storedFull b k then 0x40 else (rowInputs (convRowToFull b k)).length) |||
    if (b.matchList k).isEmpty then 0 else 0x80

/-- The transitions of state `k` when `pi` gives the word for a state. -/
def transWith (b : BnfaStruct U) (pi : ℕ → ℕ) (k : ℕ) : List ℕ :=
  let full := convRowToFull b k
  if storedFull b k then alphabet.map fun c => pi (full c)
  else (rowInputs full).map fun i => i.toNat <<< 24 ||| pi (full i)

/-- The row of state `k`. -/
def rowWith (b : BnfaStruct U) (pi : ℕ → ℕ) (k : ℕ) : List ℕ :=
  k :: (controlByte b k <<< 24 ||| pi (b.failState k)) :: transWith b pi k

theorem length_alphabet : alphabet.length = 256 := by
  rw [alphabet, List.length_map, List.length_range]
  rfl

theorem length_transWith (b : BnfaStruct U) (pi : ℕ → ℕ) (k : ℕ) :
    (transWith b pi k).length =
      if storedFull b k then maxAlphabetSize else (rowInputs (convRowToFull b k)).length := by
  rw [transWith]
  split_ifs
  · rw [List.length_map, length_alphabet, maxAlphabetSize]
  · rw [List.length_map]

theorem length_rowWith (b : BnfaStruct U) (pi : ℕ → ℕ) (k : ℕ) :
    (rowWith b pi k).length = 2 + (transWith b id k).length := by
  rw [rowWith, List.length_cons, List.length_cons, length_transWith, length_transWith]
  exact Nat.add_comm _ 2

theorem controlByte_bits (b : BnfaStruct U) (k : ℕ) :
    (controlByte b k &&& 0x40 = if storedFull b k then 0x40 else 0) ∧
      (controlByte b k &&& 0x3f =
        if storedFull b k then 0 else (rowInputs (convRowToFull b k)).length) ∧
      controlByte b k < 256 := by
  have hbits : ∀ n < 64, ∀ m ∈ [0, 0x80], (n ||| m) &&& 0x40 = 0 ∧ (n ||| m) &&& 0x3f = n ∧
      n ||| m < 256 := by decide
  rw [controlByte]
  by_cases hfull : storedFull b k = true
  · simp only [hfull, if_true]
    split_ifs <;> decide
  · have hle : (rowInputs (convRowToFull b k)).length ≤ 63 := by
      simp only [storedFull, decide_eq_true_eq, not_or, not_lt] at hfull
      exact hfull.2
    simp only [if_neg hfull]
    refine hbits _ (by omega) _ ?_
    split_ifs <;> simp

theorem and_max {w : ℕ} : w &&& sparseMaxState = w % 2 ^ 24 := Nat.and_two_pow_sub_one_eq_mod w 24

theorem and_max_of_lt {w : ℕ} (h : w < 2 ^ 24) : w &&& sparseMaxState = w := by
  rw [and_max, Nat.mod_eq_of_lt h]

theorem replaceWord_field {pi : ℕ → ℕ} {hi lo : ℕ} (hhi : hi < 256) (hlo : lo < 2 ^ 24) :
    replaceWord pi (hi <<< 24 ||| lo) = hi <<< 24 ||| pi lo := by
  have hmask : hi &&& 0xff = hi := by
    rw [Nat.and_two_pow_sub_one_eq_mod hi 8, Nat.mod_eq_of_lt hhi]
  have hand : (hi <<< 24 ||| lo) &&& 0xff000000 = (hi &&& 0xff) <<< 24 := Rows.field_and hlo 0xff
  rw [replaceWord, hand, and_max, Rows.field_mod hlo, hmask]

theorem replaceWord_of_lt {pi : ℕ → ℕ} {lo : ℕ} (hlo : lo < 2 ^ 24) : replaceWord pi lo = pi lo := by
  have h : replaceWord pi (0 <<< 24 ||| lo) = 0 <<< 24 ||| pi lo :=
    replaceWord_field (Nat.zero_lt_succ 255) hlo
  rwa [Nat.zero_shiftLeft, Nat.zero_or, Nat.zero_or] at h

theorem two_mul_le_csparseSize (b : BnfaStruct U) : 2 * b.numStates ≤ csparseSize b := by
  rw [csparseSize]
  calc 2 * b.numStates = ((List.range b.numStates).map fun _ => 2).sum := by simp [Nat.mul_comm]
    _ ≤ _ := List.sum_le_sum fun k _ => Nat.le_add_right _ _

theorem Packable.lt_max (h : Packable b) {s : ℕ} (hs : s < b.numStates) : s < 2 ^ 24 := by
  have h1 := two_mul_le_csparseSize b
  have h2 : csparseSize b ≤ 2 ^ 24 - 1 := h.size
  omega

/-- The rows as they are first written. -/
theorem Packable.csparseRow_eq (h : Packable b) {k : ℕ} (hk : k < b.numStates) :
    csparseRow b k = rowWith b id k := by
  have hfail := and_max_of_lt (h.lt_max (h.fail k hk))
  have hfull : ∀ i, convRowToFull b k i &&& sparseMaxState = convRowToFull b k i := fun i =>
    and_max_of_lt (h.lt_max (h.next k hk i))
  have hbit : ∀ x y z : ℕ, x ||| y ||| z = (x ||| z) ||| y := fun x y z => by
    rw [Nat.or_assoc, Nat.or_comm y z, ← Nat.or_assoc]
  have hmatch : (if (b.matchList k).isEmpty then 0 else sparseMatchBit) =
      (if (b.matchList k).isEmpty then 0 else 0x80) <<< 24 := by
    split_ifs <;> rfl
  rw [csparseRow, rowWith, controlByte, transWith]
  simp only [hfail, hfull, hmatch]
  by_cases hst : storedFull b k = true
  · simp only [hst, if_true, id]
    rw [hbit, Nat.shiftLeft_or_distrib]
    rfl
  · simp only [if_neg hst, id]
    rw [hbit, Nat.shiftLeft_or_distrib]
    rfl

theorem Packable.map_replaceWord (h : Packable b) (pi : ℕ → ℕ) {k : ℕ} (hk : k < b.numStates) :
    (transWith b id k).map (replaceWord pi) = transWith b pi k := by
  have hlt : ∀ c, convRowToFull b k c < 2 ^ 24 := fun c => h.lt_max (h.next k hk c)
  rw [transWith, transWith]
  split_ifs
  · rw [List.map_map]
    exact List.map_congr_left fun c _ => replaceWord_of_lt (hlt c)
  · rw [List.map_map]
    exact List.map_congr_left fun c _ => replaceWord_field c.toNat_lt (hlt c)

/-- The number of transitions in the control word. -/
theorem control_length (pi : ℕ → ℕ) {k lo : ℕ} (hlo : lo < 2 ^ 24) :
    (if (controlByte b k <<< 24 ||| lo) &&& sparseFullBit ≠ 0 then maxAlphabetSize
      else ((controlByte b k <<< 24 ||| lo) &&& sparseCountBits) >>> sparseCountShift) =
      (transWith b pi k).length := by
  obtain ⟨hfull, hcount, -⟩ := controlByte_bits b k
  have h1 : (controlByte b k <<< 24 ||| lo) &&& sparseFullBit = (controlByte b k &&& 0x40) <<< 24 :=
    Rows.field_and hlo 0x40
  have h2 : (controlByte b k <<< 24 ||| lo) &&& sparseCountBits =
      (controlByte b k &&& 0x3f) <<< 24 := Rows.field_and hlo 0x3f
  rw [h1, h2, hfull, hcount, length_transWith]
  by_cases hst : storedFull b k = true
  · simp [hst]
  · simp [hst, sparseCountShift, Nat.shiftLeft_shiftRight]

/-- The walk over the words finds the rows again. -/
theorem Packable.replaceStates_rows (h : Packable b) (pi : ℕ → ℕ) (ks : List ℕ)
    (hks : ∀ k ∈ ks, k < b.numStates) :
    replaceStates pi ks.length (ks.flatMap (rowWith b id)) = ks.flatMap (rowWith b pi) := by
  induction ks with
  | nil => rfl
  | cons k ks ih =>
    have hk := hks k List.mem_cons_self
    have hf := h.lt_max (h.fail k hk)
    have hrest := ih fun k' hk' => hks k' (List.mem_cons_of_mem k hk')
    obtain ⟨-, -, hbyte⟩ := controlByte_bits b k
    rw [List.flatMap_cons, List.flatMap_cons, List.length_cons, rowWith, rowWith, List.cons_append,
      List.cons_append, replaceStates, id, control_length id hf, List.take_left, List.drop_left,
      hrest, replaceWord_field hbyte hf, h.map_replaceWord pi hk]
    rfl

/-- Where the row of a state starts. -/
def index (b : BnfaStruct U) (k : ℕ) : ℕ := Rows.start (rowWith b id) k

theorem Packable.packStates_eq (h : Packable b) : ∀ n ≤ b.numStates,
    (List.range n).foldl (fun (q : List ℕ × (ℕ → ℕ)) k =>
        (q.1 ++ csparseRow b k, Function.update q.2 k q.1.length)) ([], fun _ => 0) =
      ((List.range n).flatMap (rowWith b id), fun k => if k < n then index b k else 0) := by
  intro n
  induction n with
  | zero => exact fun _ => rfl
  | succ n ih =>
    intro hn
    rw [List.range_succ, List.foldl_append, ih (Nat.le_of_succ_le hn), List.foldl_cons,
      List.foldl_nil, List.flatMap_append, List.flatMap_singleton, h.csparseRow_eq hn]
    refine Prod.ext rfl (funext fun k => ?_)
    show Function.update (fun k => if k < n then index b k else 0) n _ k =
      if k < n + 1 then index b k else 0
    by_cases hkn : k = n
    · subst hkn
      rw [Function.update_self, if_pos (Nat.lt_succ_self k)]
      rfl
    · simp only [Function.update_of_ne hkn, Nat.lt_succ_iff_lt_or_eq, hkn, or_false]

theorem csparseSize_eq (b : BnfaStruct U) : csparseSize b = index b b.numStates := by
  have hsum : ∀ n, ((List.range n).map fun k => (rowWith b id k).length).sum = index b n := by
    intro n
    rw [index, Rows.start, List.length_flatMap]
  rw [← hsum, csparseSize]
  refine congrArg List.sum (List.map_congr_left fun k _ => ?_)
  rw [length_rowWith, length_transWith]

theorem index_add_lt {k : ℕ} (hk : k < b.numStates) {j : ℕ} (hj : j < 2 + (transWith b id k).length) :
    index b k + j < csparseSize b := by
  rw [csparseSize_eq]
  exact Rows.start_add_lt hk (by rwa [length_rowWith])

theorem Packable.index_lt (h : Packable b) {k : ℕ} (hk : k < b.numStates) : index b k < 2 ^ 24 := by
  have h1 := index_add_lt hk (j := 0) (by omega)
  have h2 : csparseSize b ≤ 2 ^ 24 - 1 := h.size
  omega

/-- The array that is built: the rows with the index of each state for the state. -/
def packed (b : BnfaStruct U) : List ℕ := (List.range b.numStates).flatMap (rowWith b (index b))

theorem Packable.rowWith_congr (h : Packable b) {pi pi' : ℕ → ℕ} (hpi : ∀ s < b.numStates, pi s = pi' s)
    {k : ℕ} (hk : k < b.numStates) : rowWith b pi k = rowWith b pi' k := by
  rw [rowWith, rowWith, transWith, transWith, hpi _ (h.fail k hk)]
  simp only [fun c => hpi _ (h.next k hk c)]

/-- `_bnfa_conv_list_to_csparse_array` succeeds. -/
theorem Packable.convListToCsparseArray_eq (h : Packable b) :
    convListToCsparseArray b = some { b with transList := packed b } := by
  have hpack : packStates b = ((List.range b.numStates).flatMap (rowWith b id),
      fun k => if k < b.numStates then index b k else 0) := h.packStates_eq b.numStates le_rfl
  have hlen : ((List.range b.numStates).flatMap (rowWith b id)).length = csparseSize b :=
    (csparseSize_eq b).symm
  rw [convListToCsparseArray, if_neg (not_lt.2 h.size), hpack]
  simp only [hlen]
  rw [if_neg (lt_irrefl _), if_neg]
  · have hrows := h.replaceStates_rows (fun k => if k < b.numStates then index b k else 0)
      (List.range b.numStates) fun k hk => List.mem_range.1 hk
    rw [List.length_range] at hrows
    rw [hrows, packed]
    refine congrArg (fun l => some { b with transList := l }) ?_
    rw [List.flatMap_def, List.flatMap_def]
    refine congrArg List.flatten (List.map_congr_left fun k hk => ?_)
    exact h.rowWith_congr (fun s hs => if_pos hs) (List.mem_range.1 hk)
  · rw [List.any_eq_true]
    rintro ⟨k, hk, hge⟩
    rw [List.mem_range] at hk
    have := index_add_lt hk (j := 0) (by omega)
    simp only [if_pos hk, decide_eq_true_eq] at hge
    omega

end Snort.Bnfa
