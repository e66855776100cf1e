import Snort.Bnfa.Model
import Snort.Lib.AhoCorasick

/-!
# The trie

`Spelled b word N`: the states `0, …, N - 1` of the transition lists form a tree, and `word s` is
the word on the path to `s`.  Adding a pattern keeps this and adds the prefixes of the pattern.
-/

namespace Snort.Bnfa

variable {U : Type*}

/-- Upper-casing as the matcher does it. -/
def upper (w : List UInt8) : List UInt8 := w.map xlatcase

@[simp] theorem upper_nil : upper [] = [] := rfl

@[simp] theorem upper_cons (c : UInt8) (w : List UInt8) : upper (c :: w) = xlatcase c :: upper w :=
  rfl

theorem upper_concat (w : List UInt8) (c : UInt8) : upper (w ++ [c]) = upper w ++ [xlatcase c] :=
  List.map_append

theorem mem_alphabet (c : UInt8) : c ∈ alphabet := by
  refine List.mem_map.2 ⟨c.toNat, List.mem_range.2 c.toNat_lt, ?_⟩
  simp

theorem nodup_alphabet : alphabet.Nodup := by
  refine List.Nodup.map_on ?_ List.nodup_range
  intro i hi j hj h
  have := congrArg UInt8.toNat h
  rwa [UInt8.toNat_ofNat_of_lt' (List.mem_range.1 hi),
    UInt8.toNat_ofNat_of_lt' (List.mem_range.1 hj)] at this

/-! ### Transition lists -/

theorem findNext_resetNext {input : UInt8} {next : ℕ} {row row' : List BnfaTransNode}
    (h : resetNext input next row = some row') (c : UInt8) :
    findNext c row' = if c = input then some next else findNext c row := by
  induction row generalizing row' with
  | nil => cases h
  | cons t ts ih =>
    rw [resetNext] at h
    split_ifs at h with ht
    · obtain rfl := Option.some.inj h
      simp only [findNext, ht]
      by_cases hc : c = input
      · simp [hc]
      · simp [hc, Ne.symm hc]
    · obtain ⟨ts', hts, rfl⟩ := Option.map_eq_some_iff.1 h
      simp only [findNext, ih hts]
      by_cases hk : t.key = c
      · have hc : c ≠ input := fun hc => ht (hk.trans hc)
        simp [hk, hc]
      · simp [hk]

/-- What `_bnfa_list_put_next_state` changes. -/
theorem listGetNextState_put {b b' : BnfaStruct U} {s next : ℕ} {input : UInt8}
    (h : listPutNextState b s input next = some b') (s' : ℕ) (c : UInt8) :
    listGetNextState b' s' c =
      if s' = s ∧ c = input then some next else listGetNextState b s' c := by
  rw [listPutNextState] at h
  split_ifs at h with hmax hzero
  · obtain rfl := Option.some.inj h
    subst hzero
    simp only [listGetNextState]
    by_cases hs : s' = 0
    · by_cases hc : c = input
      · simp [hs, hc]
      · simp [hs, hc]
    · simp [hs]
  · obtain rfl := Option.some.inj h
    simp only [listGetNextState]
    by_cases hs : s' = s
    · subst hs
      rw [if_neg hzero, if_neg hzero, Function.update_self]
      cases hr : resetNext input next (b.transTable s') with
      | some row => simp [findNext_resetNext hr]
      | none =>
        simp only [findNext, true_and]
        by_cases hc : c = input
        · simp [hc]
        · simp [hc, Ne.symm hc]
    · simp [hs]

theorem keys_resetNext {input : UInt8} {next : ℕ} {row row' : List BnfaTransNode}
    (h : resetNext input next row = some row') :
    row'.map BnfaTransNode.key = row.map BnfaTransNode.key := by
  induction row generalizing row' with
  | nil => cases h
  | cons t ts ih =>
    rw [resetNext] at h
    split_ifs at h
    · obtain rfl := Option.some.inj h
      rfl
    · obtain ⟨ts', hts, rfl⟩ := Option.map_eq_some_iff.1 h
      rw [List.map_cons, List.map_cons, ih hts]

theorem resetNext_none {input : UInt8} {next : ℕ} {row : List BnfaTransNode}
    (h : resetNext input next row = none) : input ∉ row.map BnfaTransNode.key := by
  induction row with
  | nil => simp
  | cons t ts ih =>
    rw [resetNext] at h
    split_ifs at h with ht
    rw [List.map_cons, List.mem_cons, not_or]
    exact ⟨Ne.symm ht, ih (Option.map_eq_none_iff.1 h)⟩

theorem findNext_mem {input : UInt8} {next : ℕ} {row : List BnfaTransNode}
    (h : findNext input row = some next) : input ∈ row.map BnfaTransNode.key := by
  induction row with
  | nil => cases h
  | cons t ts ih =>
    rw [findNext] at h
    rw [List.map_cons, List.mem_cons]
    split_ifs at h with ht
    · exact Or.inl ht.symm
    · exact Or.inr (ih h)

theorem findNext_none {input : UInt8} {row : List BnfaTransNode} (h : findNext input row = none) :
    input ∉ row.map BnfaTransNode.key := by
  induction row with
  | nil => simp
  | cons t ts ih =>
    rw [findNext] at h
    split_ifs at h with ht
    rw [List.map_cons, List.mem_cons, not_or]
    exact ⟨Ne.symm ht, ih h⟩

/-- No transition list has two entries for one input. -/
def KeysNodup (b : BnfaStruct U) : Prop := ∀ s, ((b.transTable s).map BnfaTransNode.key).Nodup

theorem KeysNodup.put {b b' : BnfaStruct U} {s next : ℕ} {input : UInt8} (hk : KeysNodup b)
    (h : listPutNextState b s input next = some b') : KeysNodup b' := by
  rw [listPutNextState] at h
  split_ifs at h
  · obtain rfl := Option.some.inj h
    exact hk
  · obtain rfl := Option.some.inj h
    intro s'
    by_cases hs : s' = s
    · subst hs
      simp only [Function.update_self]
      cases hr : resetNext input next (b.transTable s') with
      | some row => exact (keys_resetNext hr).symm ▸ hk s'
      | none => exact List.nodup_cons.2 ⟨resetNext_none hr, hk s'⟩
    · simp only [Function.update_of_ne hs]
      exact hk s'

/-- The other fields stay. -/
theorem listPutNextState_eq {b b' : BnfaStruct U} {s next : ℕ} {input : UInt8}
    (h : listPutNextState b s input next = some b') :
    b' = { b with zeroRow := b'.zeroRow, transTable := b'.transTable } := by
  rw [listPutNextState] at h
  split_ifs at h <;> obtain rfl := Option.some.inj h <;> rfl

/-! ### States and words -/

/-- See the module documentation. -/
structure Spelled (b : BnfaStruct U) (word : ℕ → List UInt8) (N : ℕ) : Prop where
  pos : 0 < N
  zero : word 0 = []
  child : ∀ s c t, s < N → listGetNextState b s c = some t → t ≠ 0 →
    t < N ∧ word t = word s ++ [c]
  parent : ∀ t, 0 < t → t < N → ∃ s c, s < t ∧ listGetNextState b s c = some t
  nonzero : ∀ s c, 0 < s → s < N → listGetNextState b s c ≠ some 0
  fresh : ∀ s c, N ≤ s → listGetNextState b s c = none

/-- The words that the states spell. -/
def Words (word : ℕ → List UInt8) (N : ℕ) (w : List UInt8) : Prop := ∃ s < N, word s = w

namespace Spelled

variable {b : BnfaStruct U} {word : ℕ → List UInt8} {N : ℕ}

theorem of_get {b' : BnfaStruct U} (h : Spelled b word N)
    (hget : ∀ s c, listGetNextState b' s c = listGetNextState b s c) : Spelled b' word N where
  pos := h.pos
  zero := h.zero
  child s c t hs hn := h.child s c t hs (hget s c ▸ hn)
  parent t h0 ht := by
    obtain ⟨s, c, hs, hn⟩ := h.parent t h0 ht
    exact ⟨s, c, hs, (hget s c).trans hn⟩
  nonzero s c h0 hs := by rw [hget]; exact h.nonzero s c h0 hs
  fresh s c hs := by rw [hget]; exact h.fresh s c hs

theorem word_parent (h : Spelled b word N) {t : ℕ} (h0 : 0 < t) (ht : t < N) :
    ∃ s c, s < t ∧ listGetNextState b s c = some t ∧ word t = word s ++ [c] := by
  obtain ⟨s, c, hs, hnext⟩ := h.parent t h0 ht
  exact ⟨s, c, hs, hnext, (h.child s c t (hs.trans ht) hnext h0.ne').2⟩

theorem word_inj (h : Spelled b word N) : ∀ {t s : ℕ}, t < N → s < N → word t = word s → t = s := by
  intro t
  induction t using Nat.strong_induction_on with
  | _ t ih =>
    intro s ht hs heq
    rcases Nat.eq_zero_or_pos t with rfl | ht0
    · rcases Nat.eq_zero_or_pos s with rfl | hs0
      · rfl
      · obtain ⟨s', c, -, -, hw⟩ := h.word_parent hs0 hs
        rw [h.zero, hw] at heq
        simp at heq
    · obtain ⟨t', c, hlt, hnext, hw⟩ := h.word_parent ht0 ht
      rcases Nat.eq_zero_or_pos s with rfl | hs0
      · rw [h.zero, hw] at heq
        simp at heq
      · obtain ⟨s', d, hlt', hnext', hw'⟩ := h.word_parent hs0 hs
        rw [hw, hw'] at heq
        obtain ⟨hword, hc⟩ := List.append_inj' heq rfl
        obtain rfl := ih t' hlt (hlt.trans ht) (hlt'.trans hs) hword
        obtain rfl : c = d := by simpa using hc
        exact Option.some.inj (hnext.symm.trans hnext')

theorem length_word_le (h : Spelled b word N) : ∀ {t : ℕ}, t < N → (word t).length ≤ t := by
  intro t
  induction t using Nat.strong_induction_on with
  | _ t ih =>
    intro ht
    rcases Nat.eq_zero_or_pos t with rfl | h0
    · simp [h.zero]
    · obtain ⟨s, c, hs, -, hw⟩ := h.word_parent h0 ht
      have := ih s hs (hs.trans ht)
      rw [hw, List.length_append, List.length_singleton]
      omega

theorem word_eq_nil (h : Spelled b word N) {t : ℕ} (ht : t < N) : word t = [] ↔ t = 0 :=
  ⟨fun hw => h.word_inj ht h.pos (hw.trans h.zero.symm), fun h0 => h0 ▸ h.zero⟩

/-- A transition leads to the state of the longer word. -/
theorem next_iff (h : Spelled b word N) {s t : ℕ} (hs : s < N) (c : UInt8) (ht : t ≠ 0) :
    listGetNextState b s c = some t ↔ t < N ∧ word t = word s ++ [c] := by
  constructor
  · exact fun hn => h.child s c t hs hn ht
  · rintro ⟨hlt, hw⟩
    obtain ⟨s', c', hs', hnext, hw'⟩ := h.word_parent (Nat.pos_of_ne_zero ht) hlt
    rw [hw'] at hw
    obtain ⟨hword, hc⟩ := List.append_inj' hw rfl
    obtain rfl := h.word_inj (hs'.trans hlt) hs hword
    obtain rfl : c' = c := by simpa using hc
    exact hnext

theorem prefixClosed (h : Spelled b word N) : AhoCorasick.PrefixClosed (Words word N) where
  nil := ⟨0, h.pos, h.zero⟩
  init := by
    rintro w a ⟨t, ht, hw⟩
    have h0 : 0 < t := Nat.pos_of_ne_zero fun h0 => by
      rw [h0, h.zero] at hw
      simp at hw
    obtain ⟨s, c, hs, -, hw'⟩ := h.word_parent h0 ht
    rw [hw'] at hw
    exact ⟨s, hs.trans ht, (List.append_inj' hw rfl).1⟩

/-- A state without a transition on `c` is one whose word cannot be extended by `c`. -/
theorem next_none_iff (h : Spelled b word N) {s : ℕ} (h0 : 0 < s) (hs : s < N) (c : UInt8) :
    listGetNextState b s c = none ↔ ¬ Words word N (word s ++ [c]) := by
  constructor
  · rintro hn ⟨t, ht, hw⟩
    have ht0 : t ≠ 0 := fun ht0 => by
      rw [ht0, h.zero] at hw
      simp at hw
    rw [(h.next_iff hs c ht0).2 ⟨ht, hw⟩] at hn
    cases hn
  · intro hw
    cases hn : listGetNextState b s c with
    | none => rfl
    | some t =>
      have ht0 : t ≠ 0 := fun ht0 => h.nonzero s c h0 hs (ht0 ▸ hn)
      obtain ⟨ht, hwt⟩ := h.child s c t hs hn ht0
      exact absurd ⟨t, ht, hwt⟩ hw

end Spelled

/-! ### Adding a pattern -/

section Adding

variable {b : BnfaStruct U} {word : ℕ → List UInt8} {N : ℕ}

/-- A new state, numbered `N`, behind a state that has no transition on `c`. -/
theorem Spelled.extend (h : Spelled b word N) {s : ℕ} {c : UInt8} (hs : s < N)
    (hno : ∀ t, listGetNextState b s c = some t → t = 0) {b' : BnfaStruct U}
    (hget : ∀ s' d, listGetNextState b' s' d =
      if s' = s ∧ d = c then some N else listGetNextState b s' d) :
    Spelled b' (Function.update word N (word s ++ [c])) (N + 1) := by
  have hw : ∀ {t}, t < N → Function.update word N (word s ++ [c]) t = word t := fun ht =>
    Function.update_of_ne (by omega) _ _
  have hpos := h.pos
  refine ⟨by omega, by rw [hw hpos, h.zero], ?_, ?_, ?_, ?_⟩
  · intro s' d t hs' hnext ht
    rw [hget] at hnext
    split_ifs at hnext with hcond
    · obtain rfl := Option.some.inj hnext
      obtain ⟨rfl, rfl⟩ := hcond
      exact ⟨by omega, by rw [Function.update_self, hw hs]⟩
    · rcases Nat.lt_succ_iff_lt_or_eq.1 hs' with hlt | rfl
      · obtain ⟨htN, hwt⟩ := h.child s' d t hlt hnext ht
        exact ⟨by omega, by rw [hw htN, hw hlt, hwt]⟩
      · rw [h.fresh s' d le_rfl] at hnext
        cases hnext
  · intro t h0 ht
    rcases Nat.lt_succ_iff_lt_or_eq.1 ht with hlt | rfl
    · obtain ⟨s', d, hs', hnext⟩ := h.parent t h0 hlt
      refine ⟨s', d, hs', ?_⟩
      rw [hget, if_neg, hnext]
      rintro ⟨rfl, rfl⟩
      exact h0.ne' (hno t hnext)
    · exact ⟨s, c, hs, by rw [hget, if_pos ⟨rfl, rfl⟩]⟩
  · intro s' d h0 hs' hnext
    rw [hget] at hnext
    split_ifs at hnext with hcond
    · have := Option.some.inj hnext
      omega
    · rcases Nat.lt_succ_iff_lt_or_eq.1 hs' with hlt | rfl
      · exact h.nonzero s' d h0 hlt hnext
      · rw [h.fresh s' d le_rfl] at hnext
        cases hnext
  · intro s' d hs'
    rw [hget, if_neg (by omega), h.fresh s' d (by omega)]

/-- The existing states that a pattern matches. -/
theorem matchStates_spec (h : Spelled b word N) (hcase : foldCase b = xlatcase) :
    ∀ (cs : List UInt8) {s : ℕ}, s < N →
      (matchStates b s cs).1 < N ∧
        word (matchStates b s cs).1 ++ upper (matchStates b s cs).2 = word s ++ upper cs ∧
        ∀ c cs', (matchStates b s cs).2 = c :: cs' →
          ∀ t, listGetNextState b (matchStates b s cs).1 (xlatcase c) = some t → t = 0 := by
  intro cs
  induction cs with
  | nil => exact fun hs => ⟨hs, rfl, fun c cs' hnil => by cases hnil⟩
  | cons c cs ih =>
    intro s hs
    have hstop : (∀ t, listGetNextState b s (xlatcase c) = some t → t = 0) →
        s < N ∧ word s ++ upper (c :: cs) = word s ++ upper (c :: cs) ∧
          ∀ d cs', c :: cs = d :: cs' →
            ∀ t, listGetNextState b s (xlatcase d) = some t → t = 0 := by
      refine fun hno => ⟨hs, rfl, fun d cs' heq t ht => ?_⟩
      obtain ⟨rfl, -⟩ := List.cons.inj heq
      exact hno t ht
    rw [matchStates, hcase]
    cases hn : listGetNextState b s (xlatcase c) with
    | none => exact hstop fun t ht => by rw [hn] at ht; cases ht
    | some t =>
      cases t with
      | zero => exact hstop fun t ht => by rw [hn] at ht; exact (Option.some.inj ht).symm
      | succ t =>
        obtain ⟨ht, hw⟩ := h.child s _ _ hs hn (Nat.succ_ne_zero t)
        obtain ⟨h1, h2, h3⟩ := ih ht
        refine ⟨h1, h2.trans ?_, h3⟩
        rw [hw, upper_cons, List.append_assoc, List.singleton_append]

/-- `b'` is `b` with other transition lists. -/
def SameRest (b b' : BnfaStruct U) : Prop :=
  b' = { b with numStates := b'.numStates, zeroRow := b'.zeroRow, transTable := b'.transTable }

/-- The new states that a pattern adds. -/
theorem newStates_spec :
    ∀ (cs : List UInt8) {b : BnfaStruct U} {word : ℕ → List UInt8} {N s : ℕ}, Spelled b word N →
      KeysNodup b → b.caseMode = .perPatCase → N = b.numStates + 1 →
      b.numStates + cs.length < b.maxStates → s < N →
      (∀ c cs', cs = c :: cs' → ∀ t, listGetNextState b s (xlatcase c) = some t → t = 0) →
      ∃ b' word' s', newStates b s cs = (b', some s') ∧ SameRest b b' ∧
        Spelled b' word' (b'.numStates + 1) ∧ KeysNodup b' ∧
        b'.numStates = b.numStates + cs.length ∧ (∀ t < N, word' t = word t) ∧
        s' < b'.numStates + 1 ∧ word' s' = word s ++ upper cs ∧
        ∀ t, N ≤ t → t < b'.numStates + 1 → word' t <+: word s ++ upper cs := by
  intro cs
  induction cs with
  | nil =>
    intro b word N s h hk hcase hN hmax hs hno
    refine ⟨b, word, s, rfl, rfl, hN ▸ h, hk, rfl, fun _ _ => rfl, hN ▸ hs, by simp, ?_⟩
    intro t h1 h2
    omega
  | cons c cs ih =>
    intro b word N s h hk hcase hN hmax hs hno
    rw [List.length_cons] at hmax
    have hfold : foldCase { b with numStates := b.numStates + 1 } = xlatcase := by
      funext d
      simp [foldCase, hcase]
    obtain ⟨b₁, hput⟩ : ∃ b₁, listPutNextState { b with numStates := b.numStates + 1 } s
        (xlatcase c) (b.numStates + 1) = some b₁ := by
      rw [listPutNextState, if_neg (by simp only; omega)]
      split_ifs <;> exact ⟨_, rfl⟩
    have hsame := listPutNextState_eq hput
    have hget := listGetNextState_put hput
    have h₁ : Spelled b₁ (Function.update word N (word s ++ [xlatcase c])) (N + 1) :=
      h.extend hs (hno c cs rfl) (hN ▸ hget)
    have hk₁ : KeysNodup b₁ := KeysNodup.put (b := { b with numStates := b.numStates + 1 }) hk hput
    have hnum : b₁.numStates = b.numStates + 1 := by rw [hsame]
    have hmax₁ : b₁.maxStates = b.maxStates := by rw [hsame]
    have hcase₁ : b₁.caseMode = .perPatCase := by rw [hsame]; exact hcase
    obtain ⟨b', word', s', heq, hsame', h', hk', hnum', hold, hs', hw', hnew⟩ :=
      ih h₁ hk₁ hcase₁ (by omega) (by omega) (Nat.lt_succ_self N)
        (fun d cs' _ t ht => by
          rw [hget, if_neg (by omega)] at ht
          exact absurd (h.fresh N (xlatcase d) le_rfl ▸ ht) (by simp))
    rw [Function.update_self] at hw' hnew
    refine ⟨b', word', s', ?_, ?_, h', hk', ?_, ?_, hs', ?_, ?_⟩
    · rw [newStates, hfold]
      simp only [hput, hnum]
      rw [if_neg (by omega), ← hN]
      exact heq
    · rw [SameRest] at hsame' ⊢
      rw [hsame', hsame]
    · rw [hnum', hnum, List.length_cons]
      omega
    · intro t ht
      rw [hold t (by omega), Function.update_of_ne (by omega)]
    · rw [hw', upper_cons, List.append_assoc, List.singleton_append]
    · intro t h1 h2
      rw [upper_cons]
      rcases Nat.eq_or_lt_of_le h1 with rfl | hlt
      · rw [hold _ (Nat.lt_succ_self _), Function.update_self]
        exact ⟨upper cs, by simp⟩
      · have := hnew t hlt h2
        rwa [List.append_assoc, List.singleton_append] at this

end Adding

/-- The trie of a pattern list, with each pattern in the match list of its last state. -/
structure Built (b : BnfaStruct U) (pats : List (BnfaPattern U)) (word : ℕ → List UInt8) : Prop where
  spelled : Spelled b word (b.numStates + 1)
  keys : KeysNodup b
  caseMode : b.caseMode = .perPatCase
  words : ∀ w, Words word (b.numStates + 1) w ↔ w = [] ∨ ∃ p ∈ pats, w <+: upper p.casepatrn
  own : ∀ s p, p ∈ b.matchList s ↔ s < b.numStates + 1 ∧ p ∈ pats ∧ upper p.casepatrn = word s

/-- `b'` is `b` with other transition and match lists. -/
def SameSetup (b b' : BnfaStruct U) : Prop :=
  b'.maxStates = b.maxStates ∧ b'.opt = b.opt ∧ b'.failState = b.failState

theorem addPatternStates_built {b : BnfaStruct U} {pats : List (BnfaPattern U)}
    {word : ℕ → List UInt8} (h : Built b pats word) {p : BnfaPattern U}
    (hmax : b.numStates + p.casepatrn.length < b.maxStates) :
    (∃ word', Built (addPatternStates b p) (p :: pats) word') ∧
      SameSetup b (addPatternStates b p) ∧
      (addPatternStates b p).numStates ≤ b.numStates + p.casepatrn.length := by
  have hfold : foldCase b = xlatcase := by
    funext d
    simp [foldCase, h.caseMode]
  obtain ⟨hm1, hm2, hm3⟩ := matchStates_spec h.spelled hfold p.casepatrn h.spelled.pos
  rw [h.spelled.zero, List.nil_append] at hm2
  have hlen : (matchStates b 0 p.casepatrn).2.length ≤ p.casepatrn.length := by
    have := congrArg List.length hm2
    simp only [List.length_append, upper, List.length_map] at this
    omega
  obtain ⟨b', word', s', heq, hsame, h', hk', hnum, hold, hs', hw', hnew⟩ :=
    newStates_spec _ h.spelled h.keys h.caseMode rfl (by omega) hm1 hm3
  rw [hm2] at hw' hnew
  have hadd : addPatternStates b p =
      { b' with matchList := Function.update b'.matchList s' (p :: b'.matchList s') } := by
    rw [addPatternStates]
    simp only [heq]
  have hml : b'.matchList = b.matchList := by rw [hsame]
  have hle : b.numStates ≤ b'.numStates := by omega
  rw [hadd]
  refine ⟨⟨word', ⟨h'.of_get fun _ _ => rfl, hk', ?_, ?_, ?_⟩⟩, ⟨?_, ?_, ?_⟩,
    by simp only; omega⟩
  · simp only
    rw [hsame]
    exact h.caseMode
  · intro w
    simp only [List.mem_cons, exists_eq_or_imp]
    constructor
    · rintro ⟨t, ht, rfl⟩
      by_cases hlt : t < b.numStates + 1
      · rw [hold t hlt]
        exact ((h.words _).1 ⟨t, hlt, rfl⟩).imp_right Or.inr
      · exact Or.inr (Or.inl (hnew t (not_lt.1 hlt) ht))
    · have hkeep : Words word (b.numStates + 1) w → Words word' (b'.numStates + 1) w := by
        rintro ⟨t, ht, rfl⟩
        exact ⟨t, by omega, hold t ht⟩
      rintro (rfl | hp | hp)
      · exact hkeep ((h.words _).2 (Or.inl rfl))
      · exact h'.prefixClosed.prefix hp ⟨s', hs', hw'⟩
      · exact hkeep ((h.words _).2 (Or.inr hp))
  · -- the pattern is in the list of its last state, and of no other
    intro t q
    have hknown : q ∈ pats → t < b'.numStates + 1 → upper q.casepatrn = word' t →
        t < b.numStates + 1 ∧ upper q.casepatrn = word t := by
      intro hq ht hw
      obtain ⟨t', ht', hwt⟩ := (h.words _).2 (Or.inr ⟨q, hq, List.prefix_refl _⟩)
      have hwt' : word' t' = word' t := by rw [hold t' ht', hwt, hw]
      obtain rfl := h'.word_inj (by omega) ht hwt'
      exact ⟨ht', hwt.symm⟩
    have hback : t < b.numStates + 1 → upper q.casepatrn = word t →
        t < b'.numStates + 1 ∧ upper q.casepatrn = word' t := by
      intro ht hw
      exact ⟨by omega, by rw [hold t ht, hw]⟩
    by_cases hts : t = s'
    · subst hts
      simp only [Function.update_self, List.mem_cons, hml, h.own]
      constructor
      · rintro (rfl | ⟨ht, hq, hw⟩)
        · exact ⟨hs', Or.inl rfl, hw'.symm⟩
        · obtain ⟨h1, h2⟩ := hback ht hw
          exact ⟨h1, Or.inr hq, h2⟩
      · rintro ⟨ht, hq | hq, hw⟩
        · exact Or.inl hq
        · obtain ⟨h1, h2⟩ := hknown hq ht hw
          exact Or.inr ⟨h1, hq, h2⟩
    · simp only [Function.update_of_ne hts, List.mem_cons, hml, h.own]
      constructor
      · rintro ⟨ht, hq, hw⟩
        obtain ⟨h1, h2⟩ := hback ht hw
        exact ⟨h1, Or.inr hq, h2⟩
      · rintro ⟨ht, rfl | hq, hw⟩
        · exact absurd (h'.word_inj ht hs' (hw.symm.trans hw'.symm)) hts
        · obtain ⟨h1, h2⟩ := hknown hq ht hw
          exact ⟨h1, hq, h2⟩
  · simp only
    rw [hsame]
  · simp only
    rw [hsame]
  · simp only
    rw [hsame]

/-- All patterns of a list. -/
theorem foldl_addPatternStates_built (ps : List (BnfaPattern U)) :
    ∀ {b : BnfaStruct U} {pats : List (BnfaPattern U)} {word : ℕ → List UInt8},
      Built b pats word → b.numStates + (ps.map fun p => p.casepatrn.length).sum < b.maxStates →
      (∃ word', Built (ps.foldl addPatternStates b) (ps.reverse ++ pats) word') ∧
        SameSetup b (ps.foldl addPatternStates b) := by
  induction ps with
  | nil => exact fun h _ => ⟨⟨_, h⟩, rfl, rfl, rfl⟩
  | cons p ps ih =>
    intro b pats word h hmax
    rw [List.map_cons, List.sum_cons] at hmax
    obtain ⟨⟨word₁, h₁⟩, ⟨hs1, hs2, hs3⟩, hn⟩ := addPatternStates_built h (p := p) (by omega)
    obtain ⟨⟨word', h'⟩, ht1, ht2, ht3⟩ := ih h₁ (by omega)
    rw [List.foldl_cons, List.reverse_cons, List.append_assoc, List.singleton_append]
    exact ⟨⟨word', h'⟩, ht1.trans hs1, ht2.trans hs2, ht3.trans hs3⟩

theorem Built.congr {b : BnfaStruct U} {pats pats' : List (BnfaPattern U)}
    {word : ℕ → List UInt8} (h : Built b pats word) (hp : ∀ p, p ∈ pats ↔ p ∈ pats') :
    Built b pats' word :=
  { h with
    words := fun w => by simp only [h.words, hp]
    own := fun s p => by rw [h.own, hp] }

theorem built_empty {b : BnfaStruct U} (hcase : b.caseMode = .perPatCase) (hnum : b.numStates = 0)
    (hzero : b.zeroRow = fun _ => 0) (htrans : b.transTable = fun _ => [])
    (hml : b.matchList = fun _ => []) : Built b [] fun _ => [] := by
  have hget : ∀ s c, listGetNextState b s c = if s = 0 then some 0 else none := fun s c => by
    rw [listGetNextState, hzero, htrans]
    rfl
  have hone : b.numStates + 1 = 1 := by rw [hnum]
  refine ⟨?_, ?_, hcase, ?_, ?_⟩
  · rw [hone]
    refine ⟨Nat.one_pos, rfl, ?_, ?_, ?_, ?_⟩
    · intro s c t hs hn ht
      rw [hget] at hn
      split_ifs at hn
      exact absurd (Option.some.inj hn).symm ht
    · intro t h0 h1
      omega
    · intro s c h0 h1
      omega
    · intro s c hs
      rw [hget, if_neg (by omega)]
  · intro s
    rw [htrans]
    exact List.nodup_nil
  · intro w
    rw [hone]
    simp only [List.not_mem_nil, false_and, exists_false, or_false]
    exact ⟨fun ⟨_, _, hw⟩ => hw.symm, fun hw => ⟨0, Nat.one_pos, hw.symm⟩⟩
  · intro s p
    simp [hml]

end Snort.Bnfa
