import Snort.Acsm.Nfa

/-!
# From the NFA to the DFA

`Convert_NFA_To_DFA` visits the states breadth first and fills the list of each from the list of its fail
state, which has been visited before.  In the end every transition leads to the state of the longest
suffix in the trie: `convertNfaToDfa_spec`.
-/

namespace Snort.Acsm

open Bnfa AhoCorasick

variable {U : Type*} {a : AcsmStruct U} {m N : ℕ} {word : ℕ → List UInt8}

/-! ### One round -/

theorem getD_listGetNextState (a : AcsmStruct U) (s : ℕ) (c : UInt8) :
    (listGetNextState a s c).getD 0 = listGetNextState2 a s c := by
  rw [listGetNextState, listGetNextState2]
  cases findNext c (a.transTable s) with
  | some t => rfl
  | none => exact apply_ite (fun o : Option ℕ => o.getD 0) _ _ _ |>.trans (ite_self 0)

/-- The states behind `s`. -/
theorem kids_view (a : AcsmStruct U) (s : ℕ) :
    kids (view m a) s = (alphabet.map (listGetNextState2 a s)).filter (· ≠ 0) := by
  rw [kids]
  simp only [listGetNextState_view, getD_listGetNextState]

theorem listGetNextState2_put (a : AcsmStruct U) (s : ℕ) (c : UInt8) (t s' : ℕ) (d : UInt8) :
    listGetNextState2 (listPutNextState a s c t) s' d =
      if s' = s ∧ d = c then t else listGetNextState2 a s' d := by
  rw [listGetNextState2, listGetNextState2, listPutNextState]
  by_cases hs : s' = s
  · subst hs
    simp only [Function.update_self, findNext_putRow, true_and]
    by_cases hd : d = c
    · simp [hd]
    · simp [hd]
  · simp [hs]

/-- The body of the inner loop. -/
theorem fillState_eq (r : ℕ) (a : AcsmStruct U) (queue : List ℕ) (i : UInt8) :
    fillState r (a, queue) i =
      if listGetNextState2 a r i ≠ 0 then (a, queueAdd queue (listGetNextState2 a r i))
      else if listGetNextState2 a (a.failState r) i ≠ 0 then
        (listPutNextState a r i (listGetNextState2 a (a.failState r) i), queue)
      else (a, queue) := by
  simp only [fillState, ← getD_listGetNextState]
  rcases listGetNextState a r i with - | s
  · rcases listGetNextState a (a.failState r) i with - | t
    · rfl
    · cases t with
      | zero => rfl
      | succ t => rfl
  · cases s with
    | zero =>
      rcases listGetNextState a (a.failState r) i with - | t
      · rfl
      · cases t with
        | zero => rfl
        | succ t => rfl
    | succ s => rfl

/-- `a'` is `a` with other transition lists. -/
def SameLinks (a a' : AcsmStruct U) : Prop := ∃ transTable, a' = { a with transTable := transTable }

theorem SameLinks.refl (a : AcsmStruct U) : SameLinks a a := ⟨_, rfl⟩

theorem SameLinks.trans {a a' a'' : AcsmStruct U} (h : SameLinks a a') (h' : SameLinks a' a'') :
    SameLinks a a'' := by
  obtain ⟨_, rfl⟩ := h
  obtain ⟨_, rfl⟩ := h'
  exact ⟨_, rfl⟩

/-- The inner loop: the children of `r` are queued, and its list gets the transitions of its fail state
for the other inputs. -/
theorem foldl_fillState {r : ℕ} (is : List UInt8) :
    ∀ {a : AcsmStruct U} {queue : List ℕ}, a.failState r ≠ r → RowsNodup a → is.Nodup →
      (queue ++ (is.map (listGetNextState2 a r)).filter (· ≠ 0)).Nodup →
      ∃ a', is.foldl (fillState r) (a, queue) =
          (a', queue ++ (is.map (listGetNextState2 a r)).filter (· ≠ 0)) ∧
        SameLinks a a' ∧ RowsNodup a' ∧ ∀ s c, listGetNextState2 a' s c =
          if s = r ∧ c ∈ is ∧ listGetNextState2 a r c = 0 then listGetNextState2 a (a.failState r) c
          else listGetNextState2 a s c := by
  induction is with
  | nil =>
    intro a queue _ hrows _ _
    rw [List.map_nil, List.filter_nil, List.append_nil]
    exact ⟨a, rfl, .refl a, hrows, fun s c => by simp⟩
  | cons i is ih =>
    intro a queue hne hrows hnodup hqueue
    obtain ⟨hi, hnodup⟩ := List.nodup_cons.1 hnodup
    rw [List.foldl_cons, fillState_eq]
    by_cases hr : listGetNextState2 a r i = 0
    · rw [if_neg (not_not_intro hr)]
      rw [List.map_cons, List.filter_cons_of_neg (by simpa using hr)] at hqueue ⊢
      by_cases hf : listGetNextState2 a (a.failState r) i = 0
      · -- the fail state has no transition either
        rw [if_neg (not_not_intro hf)]
        obtain ⟨a', hfold, hsame, hrows', hget⟩ := ih hne hrows hnodup hqueue
        refine ⟨a', hfold, hsame, hrows', fun s c => ?_⟩
        rw [hget]
        by_cases hc : c = i
        · subst hc
          by_cases hs : s = r
          · subst hs
            simp [hi, hr, hf]
          · simp [hs]
        · simp [hc]
      · rw [if_pos hf]
        have hput := listGetNextState2_put a r i (listGetNextState2 a (a.failState r) i)
        -- the inputs that are left have the transitions they had
        have hleft : is.map (listGetNextState2
            (listPutNextState a r i (listGetNextState2 a (a.failState r) i)) r) =
            is.map (listGetNextState2 a r) := by
          refine List.map_congr_left fun c hc => ?_
          rw [hput, if_neg]
          rintro ⟨-, rfl⟩
          exact hi hc
        have hfrow : ∀ c, listGetNextState2
            (listPutNextState a r i (listGetNextState2 a (a.failState r) i)) (a.failState r) c =
            listGetNextState2 a (a.failState r) c := fun c => by
          rw [hput, if_neg fun h => hne h.1]
        obtain ⟨a', hfold, hsame, hrows', hget⟩ :=
          @ih (listPutNextState a r i (listGetNextState2 a (a.failState r) i)) queue hne
            (hrows.put r i _) hnodup (by rwa [hleft])
        refine ⟨a', by rw [hfold, hleft], SameLinks.trans ⟨_, rfl⟩ hsame, hrows', fun s c => ?_⟩
        have hget' := hget s c
        have hfail : (listPutNextState a r i (listGetNextState2 a (a.failState r) i)).failState r =
            a.failState r := rfl
        rw [hfail, hfrow, hput, hput] at hget'
        rw [hget']
        by_cases hc : c = i
        · subst hc
          by_cases hs : s = r
          · subst hs
            simp [hi, hr]
          · simp [hs]
        · simp [hc]
    · rw [if_pos hr]
      rw [List.map_cons, List.filter_cons_of_pos (by simpa using hr)] at hqueue ⊢
      have hnew : listGetNextState2 a r i ∉ queue := fun hmem =>
        (List.nodup_append.1 hqueue).2.2 _ hmem _ List.mem_cons_self rfl
      rw [List.append_cons] at hqueue ⊢
      rw [queueAdd_of_notMem hnew]
      obtain ⟨a', hfold, hsame, hrows', hget⟩ := ih hne hrows hnodup hqueue
      refine ⟨a', hfold, hsame, hrows', fun s c => ?_⟩
      rw [hget]
      by_cases hc : c = i
      · subst hc
        simp [hi, hr]
      · simp [hc]

/-! ### All rounds -/

/-- Every transition of `s` leads to the state of the longest suffix. -/
def Goes (a : AcsmStruct U) (word : ℕ → List UInt8) (N s : ℕ) : Prop :=
  ∀ c, listGetNextState2 a s c < N ∧
    word (listGetNextState2 a s c) = longest (Words word N) (word s ++ [c])

/-- Between two rounds: the lists of the states in `done` are filled, the others are those of the NFA. -/
structure Filled (a a' : AcsmStruct U) (m : ℕ) (word : ℕ → List UInt8) (done queue : List ℕ) : Prop where
  same : SameLinks a a'
  rows : RowsNodup a'
  visit : Bfs.Visit 0 (kids (view m a)) (fun s => (word s).length) (Finset.range a.numStates) done queue
  old : ∀ s, s ∉ done → ∀ c, listGetNextState2 a' s c = listGetNextState2 a s c
  goes : ∀ s, s = 0 ∨ s ∈ done → Goes a' word a.numStates s

theorem next_word2 (h : Spelled (view m a) word N) {s : ℕ} (hs : s < N) {c : UInt8}
    (hn : s = 0 ∨ listGetNextState2 a s c ≠ 0) :
    listGetNextState2 a s c < N ∧
      word (listGetNextState2 a s c) = longest (Words word N) (word s ++ [c]) := by
  refine h.next_word hs ?_
  rw [listGetNextState_view, ← getD_listGetNextState] at *
  cases hget : listGetNextState a s c with
  | some t => rfl
  | none =>
    rw [hget] at hn
    rcases hn with rfl | hn
    · rw [listGetNextState] at hget
      split at hget <;> simp at hget
    · exact absurd rfl hn

variable {a' : AcsmStruct U} {done queue : List ℕ}

namespace Filled

theorem start (h : Spelled (view m a) word a.numStates) (hrows : RowsNodup a) :
    Filled a a m word [] (kids (view m a) 0) where
  same := .refl a
  rows := hrows
  visit := h.layered.start
  old _ _ _ := rfl
  goes s hs c := by
    rcases hs with rfl | hs
    · exact next_word2 h h.pos (Or.inl rfl)
    · cases hs

/-- One round of the outer loop. -/
theorem step {r : ℕ} (hf : Filled a a' m word done (r :: queue))
    (h : Spelled (view m a) word a.numStates)
    (hfail : ∀ s, 0 < s → s < a.numStates → FailLongest (view m a) word a.numStates s) :
    ∃ a'' queue', alphabet.foldl (fillState r) (a', queue) = (a'', queue') ∧
      Filled a a'' m word (done ++ [r]) queue' := by
  have htree := h.layered
  obtain ⟨hrN, hr0⟩ := hf.visit.range (List.mem_append_right done List.mem_cons_self)
  have hrN := Finset.mem_range.1 hrN
  have hrpos := Nat.pos_of_ne_zero hr0
  obtain ⟨hfN, hfw⟩ := hfail r hrpos hrN
  have hskip := (hfail r hrpos hrN).skips h hrpos hrN
  have hstate : a'.failState = a.failState := by
    obtain ⟨_, rfl⟩ := hf.same
    rfl
  have hlt : (word (a.failState r)).length < (word r).length := hskip.2.lt
  -- the fail state has been visited
  have hvisited : a.failState r = 0 ∨ a.failState r ∈ done := by
    by_cases h0 : a.failState r = 0
    · exact Or.inl h0
    · exact Or.inr (hf.visit.shallow htree (Finset.mem_range.2 hfN) h0 hlt)
  have hne : a'.failState r ≠ r := fun heq => by
    rw [hstate] at heq
    rw [heq] at hlt
    exact lt_irrefl _ hlt
  have hrow : listGetNextState2 a' r = listGetNextState2 a r :=
    funext fun c => hf.old r hf.visit.notMem_done c
  have hkids : (alphabet.map (listGetNextState2 a' r)).filter (· ≠ 0) = kids (view m a) r := by
    rw [hrow, kids_view]
  have hstep := hf.visit.step htree
  obtain ⟨a'', hfold, hsame, hrows, hget⟩ := foldl_fillState alphabet hne hf.rows nodup_alphabet
    (by rw [hkids]; exact (List.nodup_append.1 hstep.nodup).2.1)
  rw [hkids] at hfold
  have hother : ∀ s, s ≠ r → ∀ c, listGetNextState2 a'' s c = listGetNextState2 a' s c := fun s hs c => by
    rw [hget, if_neg fun h => hs h.1]
  refine ⟨a'', _, hfold, hf.same.trans hsame, hrows, hstep, ?_, ?_⟩
  · intro s hs c
    rw [List.mem_append, List.mem_singleton, not_or] at hs
    rw [hother s hs.2, hf.old s hs.1]
  · intro s hs c
    by_cases hsr : s = r
    · subst hsr
      rw [hget, hrow, hstate]
      by_cases hn : listGetNextState2 a s c = 0
      · rw [if_pos ⟨rfl, mem_alphabet c, hn⟩]
        obtain ⟨htN, htw⟩ := hf.goes _ hvisited c
        refine ⟨htN, htw.trans (hskip.2.next c ?_)⟩
        rw [← h.next_none_iff hrpos hrN, listGetNextState_view]
        cases hget' : listGetNextState a s c with
        | none => rfl
        | some t =>
          rw [← getD_listGetNextState, hget'] at hn
          have hzero : Bnfa.listGetNextState (view m a) s c = some 0 := by
            rw [listGetNextState_view, hget', ← hn]
            rfl
          exact absurd hzero (h.nonzero s c hrpos hrN)
      · rw [if_neg fun h => hn h.2.2]
        exact next_word2 h hrN (Or.inr hn)
    · rw [hother s hsr]
      refine hf.goes s ?_ c
      rcases hs with hs | hs
      · exact Or.inl hs
      · exact Or.inr ((List.mem_append.1 hs).resolve_right fun h => hsr (List.mem_singleton.1 h))

/-- The whole outer loop. -/
theorem fillLoop_spec (h : Spelled (view m a) word a.numStates)
    (hfail : ∀ s, 0 < s → s < a.numStates → FailLongest (view m a) word a.numStates s) :
    ∀ (fuel : ℕ) {a' : AcsmStruct U} {done queue : List ℕ}, Filled a a' m word done queue →
      a.numStates ≤ fuel + done.length →
      ∃ a'' done', fillLoop fuel a' queue = some a'' ∧ Filled a a'' m word done' [] := by
  intro fuel
  induction fuel with
  | zero =>
    intro a' done queue hf hfuel
    cases queue with
    | nil => exact ⟨a', done, rfl, hf⟩
    | cons r queue =>
      have hlt := hf.visit.length_lt (Finset.mem_range.2 h.pos)
      rw [Finset.card_range, List.length_append, List.length_cons] at hlt
      omega
  | succ fuel ih =>
    intro a' done queue hf hfuel
    cases queue with
    | nil => exact ⟨a', done, rfl, hf⟩
    | cons r queue =>
      obtain ⟨a₁, queue₁, hfold, h₁⟩ := hf.step h hfail
      obtain ⟨a'', done', hloop, h'⟩ := ih h₁ (by
        rw [List.length_append, List.length_singleton]
        omega)
      refine ⟨a'', done', ?_, h'⟩
      rw [fillLoop]
      simp only [hfold]
      exact hloop

end Filled

theorem nodup_kids_zero (h : Spelled (view m a) word N) :
    ((alphabet.map (listGetNextState2 a 0)).filter (· ≠ 0)).Nodup :=
  kids_view (m := m) a 0 ▸ h.layered.nodup (Finset.mem_range.2 h.pos)

theorem addFirst_eq (a : AcsmStruct U) (queue : List ℕ) (i : UInt8) :
    addFirst a queue i =
      if listGetNextState2 a 0 i = 0 then queue else queueAdd queue (listGetNextState2 a 0 i) := by
  rw [addFirst, ← getD_listGetNextState]
  rcases listGetNextState a 0 i with - | s
  · rfl
  · cases s with
    | zero => rfl
    | succ s => rfl

theorem foldl_addFirst (is : List UInt8) : ∀ queue : List ℕ,
    (queue ++ (is.map (listGetNextState2 a 0)).filter (· ≠ 0)).Nodup →
    is.foldl (addFirst a) queue = queue ++ (is.map (listGetNextState2 a 0)).filter (· ≠ 0) := by
  induction is with
  | nil =>
    intro queue _
    rw [List.map_nil, List.filter_nil, List.append_nil]
    rfl
  | cons i is ih =>
    intro queue hnodup
    rw [List.foldl_cons, addFirst_eq]
    by_cases hs : listGetNextState2 a 0 i = 0
    · rw [if_pos hs]
      rw [List.map_cons, List.filter_cons_of_neg (by simpa using hs)] at hnodup ⊢
      exact ih queue hnodup
    · rw [if_neg hs]
      rw [List.map_cons, List.filter_cons_of_pos (by simpa using hs)] at hnodup ⊢
      have hnew : listGetNextState2 a 0 i ∉ queue := fun hmem =>
        (List.nodup_append.1 hnodup).2.2 _ hmem _ List.mem_cons_self rfl
      rw [List.append_cons] at hnodup ⊢
      rw [queueAdd_of_notMem hnew]
      exact ih _ hnodup

theorem firstStates_eq (h : Spelled (view m a) word N) : firstStates a = kids (view m a) 0 := by
  rw [kids_view]
  exact foldl_addFirst alphabet [] (nodup_kids_zero h)

/-- **`Convert_NFA_To_DFA`**: every transition leads to the state of the longest suffix. -/
theorem convertNfaToDfa_spec (h : Spelled (view m a) word a.numStates)
    (hfail : ∀ s, 0 < s → s < a.numStates → FailLongest (view m a) word a.numStates s)
    (hrows : RowsNodup a) :
    ∃ a', convertNfaToDfa a = some a' ∧ SameLinks a a' ∧ RowsNodup a' ∧
      ∀ s < a.numStates, Goes a' word a.numStates s := by
  obtain ⟨a', done, hloop, hf⟩ := Filled.fillLoop_spec h hfail a.numStates (Filled.start h hrows)
    (Nat.le_add_right _ _)
  rw [← firstStates_eq h] at hloop
  refine ⟨a', hloop, hf.same, hf.rows, fun s hs => hf.goes s ?_⟩
  by_cases h0 : s = 0
  · exact Or.inl h0
  · exact Or.inr (hf.visit.mem_done h.layered (Finset.mem_range.2 hs) h0)

end Snort.Acsm
