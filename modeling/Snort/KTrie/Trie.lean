import Snort.KTrie.Model
import Snort.Lib.BadCharacter

/-!
# What a trie finds

* `KTrieNode.find`: the keywords of the match state that a word leads to, and
  `find_ktrieInsert`: what an insertion does to it;
* **`compiled_ktrieCompile`**: the trie that is compiled finds the patterns that were added, and its bad
  character shifts miss none of them;
* `hits`: what is found from a node on, shortest keyword first.
-/

namespace Snort.KTrie

open Buffer BadCharacter

variable {I : Type*}

/-! ### The keywords of a trie -/

/-- The keywords of the match state that a word leads to. -/
def KTrieNode.find : KTrieNode I → List UInt8 → List (KTriePattern I)
  | .null, _ => []
  | .node _ _ _ _, [] => []
  | .node edge pkeyword child sibling, b :: w =>
    if edge = b then
      if w = [] then pkeyword else child.find w
    else sibling.find (b :: w)

def KTrieStruct.find (ts : KTrieStruct I) (w : List UInt8) : List (KTriePattern I) :=
  (ts.root (w.getD 0 0)).find w

@[simp] theorem KTrieNode.find_null (w : List UInt8) : (KTrieNode.null : KTrieNode I).find w = [] := rfl

@[simp] theorem KTrieNode.find_nil (t : KTrieNode I) : t.find [] = [] := by
  cases t <;> rfl

theorem find_finishKeyword (px : KTriePattern I) {P : List UInt8} (hP : P ≠ []) (w : List UInt8) :
    (finishKeyword px P).find w = if w = P then [px] else [] := by
  induction P generalizing w with
  | nil => exact absurd rfl hP
  | cons b P ih =>
    cases w with
    | nil => simp
    | cons c w =>
      by_cases hnil : P = []
      · subst hnil
        by_cases hc : b = c
        · subst hc
          by_cases hw : w = []
          · simp [finishKeyword, KTrieNode.find, hw]
          · simp [finishKeyword, KTrieNode.find, hw]
        · simp [finishKeyword, KTrieNode.find, hc, Ne.symm hc]
      · by_cases hc : b = c
        · subst hc
          by_cases hw : w = []
          · simp [finishKeyword, KTrieNode.find, hnil, hw, Ne.symm hnil]
          · simp [finishKeyword, KTrieNode.find, hnil, hw, ih hnil]
        · simp [finishKeyword, KTrieNode.find, hnil, hc, Ne.symm hc]

/-- An insertion puts the keyword in front of those of its match state. -/
theorem find_insertKeyword (px : KTriePattern I) (t : KTrieNode I) {P : List UInt8} (hP : P ≠ [])
    (w : List UInt8) :
    (insertKeyword px t P).find w = if w = P then px :: t.find w else t.find w := by
  induction t generalizing P w with
  | null =>
    rw [insertKeyword, find_finishKeyword px hP]
    rfl
  | node edge pkeyword child sibling ihchild ihsibling =>
    cases P with
    | nil => exact absurd rfl hP
    | cons b P =>
      cases w with
      | nil => simp
      | cons c w =>
        by_cases hb : edge = b
        · subst hb
          by_cases hc : edge = c
          · subst hc
            by_cases hnil : P = []
            · subst hnil
              by_cases hw : w = []
              · simp [insertKeyword, KTrieNode.find, hw]
              · simp [insertKeyword, KTrieNode.find, hw]
            · by_cases hw : w = []
              · simp [insertKeyword, KTrieNode.find, hnil, hw, Ne.symm hnil]
              · simp [insertKeyword, KTrieNode.find, hnil, hw, ihchild hnil]
          · rw [if_neg fun h => hc (List.cons.inj h).1.symm]
            by_cases hnil : P = []
            · simp [insertKeyword, KTrieNode.find, hnil, hc]
            · simp [insertKeyword, KTrieNode.find, hnil, hc]
        · by_cases hc : edge = c
          · subst hc
            simp [insertKeyword, KTrieNode.find, hb]
          · simp only [insertKeyword, KTrieNode.find, if_neg hb, if_neg hc]
            exact ihsibling (List.cons_ne_nil b P) (c :: w)

theorem find_ktrieInsert (ts : KTrieStruct I) (px : KTriePattern I) (w : List UInt8) :
    (ktrieInsert ts px).find w = if w = px.P then px :: ts.find w else ts.find w := by
  unfold KTrieStruct.find ktrieInsert
  by_cases hc : w.getD 0 0 = px.P.getD 0 0
  · simp only [hc, Function.update_self]
    exact find_insertKeyword px _ px.nonempty w
  · have hw : w ≠ px.P := fun h => hc (by rw [h])
    simp only [Function.update_of_ne hc, if_neg hw]

/-- The keywords of a match state are the patterns that were inserted for its word. -/
theorem mem_find_foldl_ktrieInsert (patrn : List (KTriePattern I)) (ts : KTrieStruct I)
    (p : KTriePattern I) (w : List UInt8) :
    p ∈ (patrn.foldl ktrieInsert ts).find w ↔ p ∈ patrn ∧ p.P = w ∨ p ∈ ts.find w := by
  induction patrn generalizing ts with
  | nil => simp
  | cons px patrn ih =>
    rw [List.foldl_cons, ih, find_ktrieInsert]
    by_cases hw : w = px.P
    · rw [if_pos hw, List.mem_cons, List.mem_cons]
      constructor
      · rintro (⟨hp, hpw⟩ | rfl | hp)
        · exact .inl ⟨.inr hp, hpw⟩
        · exact .inl ⟨.inl rfl, hw.symm⟩
        · exact .inr hp
      · rintro (⟨rfl | hp, hpw⟩ | hp)
        · exact .inr (.inl rfl)
        · exact .inl ⟨hp, hpw⟩
        · exact .inr (.inr hp)
    · rw [if_neg hw, List.mem_cons]
      constructor
      · rintro (⟨hp, hpw⟩ | hp)
        · exact .inl ⟨.inr hp, hpw⟩
        · exact .inr hp
      · rintro (⟨rfl | hp, hpw⟩ | hp)
        · exact absurd hpw.symm hw
        · exact .inl ⟨hp, hpw⟩
        · exact .inr hp

/-! ### Bad character shifts -/

theorem foldl_min_le (patrn : List (KTriePattern I)) (s : ℕ) :
    patrn.foldl (fun bcSize p => if p.n < bcSize then p.n else bcSize) s ≤ s ∧
      ∀ p ∈ patrn, patrn.foldl (fun bcSize p => if p.n < bcSize then p.n else bcSize) s ≤ p.n := by
  induction patrn generalizing s with
  | nil => exact ⟨le_refl s, List.forall_mem_nil _⟩
  | cons p patrn ih =>
    rw [List.foldl_cons]
    obtain ⟨hle, hall⟩ := ih (if p.n < s then p.n else s)
    refine ⟨hle.trans (by split <;> omega), ?_⟩
    intro q hq
    rcases List.mem_cons.1 hq with rfl | hq
    · exact hle.trans (by split <;> omega)
    · exact hall q hq

/-- The smallest pattern size is that of a pattern, if it is not the initial one. -/
theorem foldl_min_attained (patrn : List (KTriePattern I)) (s : ℕ) :
    patrn.foldl (fun bcSize p => if p.n < bcSize then p.n else bcSize) s = s ∨
      ∃ p ∈ patrn, patrn.foldl (fun bcSize p => if p.n < bcSize then p.n else bcSize) s = p.n := by
  induction patrn generalizing s with
  | nil => exact .inl rfl
  | cons p patrn ih =>
    rw [List.foldl_cons]
    rcases ih (if p.n < s then p.n else s) with h | ⟨q, hq, h⟩
    · rw [h]
      split
      · exact .inr ⟨p, List.mem_cons_self, rfl⟩
      · exact .inl rfl
    · exact .inr ⟨q, List.mem_cons_of_mem _ hq, h⟩

theorem minPatternSize_le {patrn : List (KTriePattern I)} {p : KTriePattern I} (hp : p ∈ patrn) :
    minPatternSize patrn ≤ p.n := (foldl_min_le patrn 32000).2 p hp

theorem KTriePattern.n_pos (p : KTriePattern I) : 0 < p.n := List.length_pos_iff.2 p.nonempty

theorem minPatternSize_pos (patrn : List (KTriePattern I)) : 0 < minPatternSize patrn := by
  rcases foldl_min_attained patrn 32000 with h | ⟨p, -, h⟩
  · exact lt_of_lt_of_eq (by norm_num) h.symm
  · exact lt_of_lt_of_eq p.n_pos h.symm

/-- The method without shifts is for tries with a short pattern. -/
theorem minPatternSize_lt_iff (patrn : List (KTriePattern I)) :
    minPatternSize patrn < 3 ↔ ∃ p ∈ patrn, p.n < 3 := by
  constructor
  · intro h
    rcases foldl_min_attained patrn 32000 with hmin | ⟨p, hp, hmin⟩
    · exact absurd (lt_of_eq_of_lt hmin.symm h) (by norm_num)
    · exact ⟨p, hp, lt_of_eq_of_lt hmin.symm h⟩
  · rintro ⟨p, hp, h⟩
    exact (minPatternSize_le hp).trans_lt h

theorem lowerShift_le (size : ℕ) (P : List UInt8) (bcShift : UInt8 → ℕ) (k : ℕ) (c : UInt8) :
    lowerShift size P bcShift k c ≤ bcShift c := by
  unfold lowerShift
  by_cases hlt : size - 1 - k < bcShift (P.getD k 0)
  · rw [if_pos hlt]
    by_cases hc : c = P.getD k 0
    · subst hc
      rw [Function.update_self]
      exact hlt.le
    · rw [Function.update_of_ne hc]
  · rw [if_neg hlt]

theorem lowerShift_self_le (size : ℕ) (P : List UInt8) (bcShift : UInt8 → ℕ) (k : ℕ) :
    lowerShift size P bcShift k (P.getD k 0) ≤ size - 1 - k := by
  unfold lowerShift
  by_cases hlt : size - 1 - k < bcShift (P.getD k 0)
  · rw [if_pos hlt, Function.update_self]
  · rw [if_neg hlt]
    exact not_lt.1 hlt

/-- The loop over the first characters of a pattern. -/
theorem foldl_lowerShift_le (size : ℕ) (P : List UInt8) (ks : List ℕ) (bcShift : UInt8 → ℕ) :
    (∀ c, ks.foldl (lowerShift size P) bcShift c ≤ bcShift c) ∧
      ∀ k ∈ ks, ks.foldl (lowerShift size P) bcShift (P.getD k 0) ≤ size - 1 - k := by
  induction ks generalizing bcShift with
  | nil => exact ⟨fun c => le_refl _, List.forall_mem_nil _⟩
  | cons k ks ih =>
    rw [List.foldl_cons]
    obtain ⟨hle, hall⟩ := ih (lowerShift size P bcShift k)
    refine ⟨fun c => (hle c).trans (lowerShift_le size P bcShift k c), ?_⟩
    intro j hj
    rcases List.mem_cons.1 hj with rfl | hj
    · exact (hle _).trans (lowerShift_self_le size P bcShift j)
    · exact hall j hj

/-- The loop over the patterns. -/
theorem foldl_patterns_le (size : ℕ) (patrn : List (KTriePattern I)) (bcShift : UInt8 → ℕ) :
    (∀ c, patrn.foldl (fun t p => (List.range size).foldl (lowerShift size p.P) t) bcShift c ≤
      bcShift c) ∧
    ∀ p ∈ patrn, ∀ k < size,
      patrn.foldl (fun t p => (List.range size).foldl (lowerShift size p.P) t) bcShift
        (p.P.getD k 0) ≤ size - 1 - k := by
  induction patrn generalizing bcShift with
  | nil => exact ⟨fun c => le_refl _, List.forall_mem_nil _⟩
  | cons p patrn ih =>
    rw [List.foldl_cons]
    obtain ⟨hle, hall⟩ := ih ((List.range size).foldl (lowerShift size p.P) bcShift)
    obtain ⟨hle', hall'⟩ := foldl_lowerShift_le size p.P (List.range size) bcShift
    refine ⟨fun c => (hle c).trans (hle' c), ?_⟩
    intro q hq k hk
    rcases List.mem_cons.1 hq with rfl | hq
    · exact (hle _).trans (hall' k (List.mem_range.2 hk))
    · exact hall q hq k hk

/-! ### Compiled tries -/

/-- The words of the patterns of a trie. -/
def KTrieStruct.words (kt : KTrieStruct I) : Set (List UInt8) := {w | ∃ p ∈ kt.patrn, p.P = w}

/-- What `KTrieCompile` makes. -/
structure Compiled (kt : KTrieStruct I) : Prop where
  mem_find : ∀ p w, p ∈ kt.find w ↔ p ∈ kt.patrn ∧ p.P = w
  bcSize : kt.bcSize = minPatternSize kt.patrn
  safe : Safe kt.words kt.bcSize kt.bcShift

theorem patrn_foldl_ktrieInsert (patrn : List (KTriePattern I)) (ts : KTrieStruct I) :
    (patrn.foldl ktrieInsert ts).patrn = ts.patrn := by
  induction patrn generalizing ts with
  | nil => rfl
  | cons p patrn ih => exact ih (ktrieInsert ts p)

/-- **A trie is compiled** from an empty one with a list of patterns. -/
theorem compiled_ktrieCompile {ts : KTrieStruct I} (hroot : ∀ c, ts.root c = .null) :
    Compiled (ktrieCompile ts) := by
  have hpatrn : (ktrieCompile ts).patrn = ts.patrn := patrn_foldl_ktrieInsert ts.patrn ts
  have hsize : (ktrieCompile ts).bcSize = minPatternSize ts.patrn :=
    congrArg minPatternSize (patrn_foldl_ktrieInsert ts.patrn ts)
  have hshift : (ktrieCompile ts).bcShift = ts.patrn.foldl (fun t p =>
      (List.range (minPatternSize ts.patrn)).foldl (lowerShift (minPatternSize ts.patrn) p.P) t)
      fun _ => minPatternSize ts.patrn := by
    unfold ktrieCompile buildBadCharacterShifts
    simp only [patrn_foldl_ktrieInsert]
  constructor
  · intro p w
    rw [hpatrn]
    apply (mem_find_foldl_ktrieInsert ts.patrn ts p w).trans
    rw [KTrieStruct.find, hroot, KTrieNode.find_null]
    simp
  · rw [hsize, hpatrn]
  · obtain ⟨hle, hall⟩ := foldl_patterns_le (minPatternSize ts.patrn) ts.patrn
      fun _ => minPatternSize ts.patrn
    rw [hsize, hshift]
    constructor
    · exact minPatternSize_pos ts.patrn
    · rintro w ⟨p, hp, rfl⟩
      rw [hpatrn] at hp
      exact minPatternSize_le hp
    · exact hle
    · rintro w ⟨p, hp, rfl⟩ k c hk hc
      rw [hpatrn] at hp
      have hletter : p.P.getD k 0 = c := by
        rw [List.getD_eq_getElem?_getD, hc]
        rfl
      rw [← hletter]
      exact hall p hp k hk

/-! ### What is found from a node on -/

/-- What is found from a node on in `n` characters at `T`, with its index. -/
def hits (t : KTrieNode I) (buf : ℕ → UInt8) (T n : ℕ) : List (KTriePattern I × ℤ) :=
  (List.range n).filterMap fun k =>
    (t.find (readBuf buf T (k + 1))).head?.map fun pk => (pk, (T + (k + 1) : ℕ) - (pk.n : ℤ))

@[simp] theorem hits_zero (t : KTrieNode I) (buf : ℕ → UInt8) (T : ℕ) : hits t buf T 0 = [] := rfl

@[simp] theorem hits_null (buf : ℕ → UInt8) (T n : ℕ) : hits (.null : KTrieNode I) buf T n = [] := by
  simp [hits]

theorem hits_node_ne {edge : UInt8} (pkeyword : List (KTriePattern I)) (child sibling : KTrieNode I)
    {buf : ℕ → UInt8} {T : ℕ} (n : ℕ) (h : edge ≠ buf T) :
    hits (.node edge pkeyword child sibling) buf T n = hits sibling buf T n := by
  unfold hits
  apply List.filterMap_congr
  intro k _
  rw [readBuf_succ, KTrieNode.find, if_neg h]

theorem hits_node_eq {edge : UInt8} (pkeyword : List (KTriePattern I)) (child sibling : KTrieNode I)
    {buf : ℕ → UInt8} {T : ℕ} (n : ℕ) (h : edge = buf T) :
    hits (.node edge pkeyword child sibling) buf T (n + 1) =
      (pkeyword.head?.map fun pk => (pk, (T + 1 : ℕ) - (pk.n : ℤ))).toList ++
        hits child buf (T + 1) n := by
  have hfirst : (KTrieNode.node edge pkeyword child sibling).find (readBuf buf T (0 + 1)) =
      pkeyword := by
    rw [readBuf_succ, KTrieNode.find, if_pos h, readBuf_zero, if_pos rfl]
  have hrest : ∀ k, (KTrieNode.node edge pkeyword child sibling).find (readBuf buf T (k + 1 + 1)) =
      child.find (readBuf buf (T + 1) (k + 1)) := by
    intro k
    rw [readBuf_succ, KTrieNode.find, if_pos h, if_neg]
    exact List.ne_nil_of_length_eq_add_one (length_readBuf ..)
  unfold hits
  rw [List.range_succ_eq_map, List.filterMap_cons, hfirst, List.filterMap_map]
  have hmap : (List.range n).filterMap ((fun k =>
      ((KTrieNode.node edge pkeyword child sibling).find (readBuf buf T (k + 1))).head?.map
        fun pk => (pk, ((T + (k + 1) : ℕ) : ℤ) - (pk.n : ℤ))) ∘ Nat.succ) =
      hits child buf (T + 1) n := by
    unfold hits
    apply List.filterMap_congr
    intro k _
    have hoff : T + (k + 1 + 1) = T + 1 + (k + 1) := by omega
    simp only [Function.comp_apply, Nat.succ_eq_add_one, hrest, hoff]
  rw [hmap]
  cases pkeyword with
  | nil => rfl
  | cons pk l => rfl

end Snort.KTrie
