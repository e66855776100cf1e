import Snort.Acsm.Model
import Snort.Bnfa.Fail

/-!
# The automaton of `acsmx2.c` is that of `bnfa_search.c`

`view a` is the machine of `bnfa_search.c` with the transitions, fail states and match lists of `a`.
Adding patterns and building the automaton do the same to `a` and to its view, so that what is known of
the one holds of the other: `exists_nfa`.
-/

namespace Snort.Acsm

open Bnfa

variable {U : Type*} {a : AcsmStruct U} {m : ℕ}

/-- A pattern with itself as the user's data. -/
def toBnfa (p : AcsmPattern U) : BnfaPattern (AcsmPattern U) := ⟨p.casepatrn, p.nocase, p.negative, p⟩

/-- The machine of `bnfa_search.c`, with room for `m` states. -/
def view (m : ℕ) (a : AcsmStruct U) : BnfaStruct (AcsmPattern U) where
  maxStates := m
  numStates := a.numStates
  zeroRow c := listGetNextState2 a 0 c
  transTable s := if s = 0 then [] else a.transTable s
  matchList s := (a.matchList s).map toBnfa
  failState := a.failState

theorem convertCaseEx_eq (w : List UInt8) : convertCaseEx w = upper w := rfl

theorem toBnfa_injective : Function.Injective (toBnfa : AcsmPattern U → _) := fun _ _ h =>
  congrArg BnfaPattern.userdata h

theorem upper_toBnfa (p : AcsmPattern U) : upper (toBnfa p).casepatrn = p.patrn :=
  p.patrn_eq.symm

/-- Another match list for one state. -/
theorem view_matchList (a : AcsmStruct U) (s : ℕ) (l : List (AcsmPattern U)) :
    view m { a with matchList := Function.update a.matchList s l } =
      { view m a with matchList := Function.update (view m a).matchList s (l.map toBnfa) } := by
  have hlist : (fun t => (Function.update a.matchList s l t).map toBnfa) =
      Function.update (fun t => (a.matchList t).map toBnfa) s (l.map toBnfa) := by
    funext t
    by_cases ht : t = s
    · subst ht
      rw [Function.update_self, Function.update_self]
    · rw [Function.update_of_ne ht, Function.update_of_ne ht]
  simp only [view, hlist]
  rfl

/-! ### Transitions -/

theorem listGetNextState_view (a : AcsmStruct U) (s : ℕ) (c : UInt8) :
    Bnfa.listGetNextState (view m a) s c = listGetNextState a s c := by
  rw [Bnfa.listGetNextState, listGetNextState]
  by_cases hs : s = 0
  · subst hs
    rw [if_pos rfl, view]
    simp only [listGetNextState2]
    cases findNext c (a.transTable 0) with
    | none => rfl
    | some t => rfl
  · simp only [view, if_neg hs]
    cases findNext c (a.transTable s) with
    | none => rfl
    | some t => rfl

theorem findNext_putRow (input : UInt8) (next : ℕ) (row : List BnfaTransNode) (c : UInt8) :
    findNext c (putRow input next row) = if c = input then some next else findNext c row := by
  rw [putRow]
  cases hr : resetNext input next row with
  | some row' => exact findNext_resetNext hr c
  | none =>
    by_cases hc : c = input
    · simp [findNext, hc]
    · simp [findNext, hc, Ne.symm hc]

theorem listPutNextState_view {s : ℕ} (hs : s < m) (c : UInt8) (t : ℕ) :
    Bnfa.listPutNextState (view m a) s c t = some (view m (listPutNextState a s c t)) := by
  rw [Bnfa.listPutNextState, if_neg (show ¬ s ≥ (view m a).maxStates from not_le.2 hs)]
  by_cases h0 : s = 0
  · subst h0
    rw [if_pos rfl]
    simp only [view, listPutNextState, listGetNextState2, Function.update_self, findNext_putRow]
    congr 2
    · funext d
      by_cases hd : d = c
      · simp [hd]
      · simp [hd]
    · funext s
      by_cases hs : s = 0
      · simp [hs]
      · simp [hs]
  · rw [if_neg h0]
    simp only [view, listPutNextState, if_neg h0, listGetNextState2, Function.update_of_ne (Ne.symm h0)]
    congr 2
    funext s'
    by_cases hs' : s' = s
    · subst hs'
      simp only [Function.update_self, if_neg h0]
      rfl
    · by_cases h0' : s' = 0
      · simp [h0', Ne.symm h0]
      · simp [h0', hs']

/-! ### Patterns -/

theorem perPatCase_ne : CaseMode.perPatCase ≠ CaseMode.case := nofun

theorem matchStates_view (a : AcsmStruct U) (cs : List UInt8) : ∀ s,
    matchStates a s (upper cs) =
      ((Bnfa.matchStates (view m a) s cs).1, upper (Bnfa.matchStates (view m a) s cs).2) := by
  induction cs with
  | nil => exact fun _ => rfl
  | cons c cs ih =>
    intro s
    have hfold : foldCase (view m a) c = xlatcase c := if_neg perPatCase_ne
    rw [upper_cons, matchStates, Bnfa.matchStates, hfold, listGetNextState_view]
    cases listGetNextState a s (xlatcase c) with
    | none => rfl
    | some t =>
      cases t with
      | zero => rfl
      | succ t => exact ih (t + 1)

theorem newStates_view (cs : List UInt8) : ∀ (a : AcsmStruct U) (s : ℕ), s < m →
    a.numStates + cs.length < m →
    Bnfa.newStates (view m a) s cs =
      (view m (newStates a s (upper cs)).1, some (newStates a s (upper cs)).2) := by
  induction cs with
  | nil => exact fun _ _ _ _ => rfl
  | cons c cs ih =>
    intro a s hs hlen
    rw [List.length_cons] at hlen
    have hfold : foldCase { view m a with numStates := (view m a).numStates + 1 } c = xlatcase c :=
      if_neg perPatCase_ne
    have hput := listPutNextState_view (a := { a with numStates := a.numStates + 1 }) hs (xlatcase c)
      (a.numStates + 1)
    have hmax : ¬ (view m (listPutNextState { a with numStates := a.numStates + 1 } s (xlatcase c)
        (a.numStates + 1))).numStates ≥ m := by
      show ¬ a.numStates + 1 ≥ m
      omega
    rw [upper_cons, newStates, Bnfa.newStates, hfold]
    have hput' : Bnfa.listPutNextState { view m a with numStates := (view m a).numStates + 1 } s
        (xlatcase c) ((view m a).numStates + 1) = _ := hput
    simp only [hput']
    refine (if_neg hmax).trans ?_
    exact ih _ _ (by show a.numStates + 1 < m; omega) (by show a.numStates + 1 + cs.length < m; omega)

theorem addPatternStates_view {p : AcsmPattern U} {pats : List (BnfaPattern (AcsmPattern U))}
    {word : ℕ → List UInt8} (h : Built (view m a) pats word)
    (hlen : a.numStates + p.casepatrn.length < m) :
    Bnfa.addPatternStates (view m a) (toBnfa p) = view m (addPatternStates a p) := by
  have hcase : foldCase (view m a) = xlatcase := funext fun c => if_neg perPatCase_ne
  obtain ⟨hlt, hword, -⟩ := matchStates_spec h.spelled hcase p.casepatrn h.spelled.pos
  have hrest : (Bnfa.matchStates (view m a) 0 p.casepatrn).2.length ≤ p.casepatrn.length := by
    have hcount := congrArg List.length hword
    simp only [List.length_append, upper, List.length_map, h.spelled.zero, List.length_nil] at hcount
    omega
  have hmatch : matchStates a 0 p.patrn = ((Bnfa.matchStates (view m a) 0 p.casepatrn).1,
      upper (Bnfa.matchStates (view m a) 0 p.casepatrn).2) := by
    rw [p.patrn_eq]
    exact matchStates_view a p.casepatrn 0
  have hroom : (Bnfa.matchStates (view m a) 0 p.casepatrn).1 < a.numStates + 1 := hlt
  have hnew := newStates_view (m := m) (Bnfa.matchStates (view m a) 0 p.casepatrn).2 a
    (Bnfa.matchStates (view m a) 0 p.casepatrn).1 (by omega) (by omega)
  rw [Bnfa.addPatternStates, addPatternStates, hmatch]
  have hnew' : Bnfa.newStates (view m a) (Bnfa.matchStates (view m a) 0 (toBnfa p).casepatrn).1
      (Bnfa.matchStates (view m a) 0 (toBnfa p).casepatrn).2 = _ := hnew
  simp only [hnew']
  rw [view_matchList]
  rfl

/-- The patterns of a list, one after the other. -/
theorem foldl_addPatternStates_view (ps : List (AcsmPattern U)) :
    ∀ {a : AcsmStruct U} {pats : List (BnfaPattern (AcsmPattern U))} {word : ℕ → List UInt8},
      Built (view m a) pats word →
      a.numStates + (ps.map fun p => p.casepatrn.length).sum < m →
      view m (ps.foldl addPatternStates a) = (ps.map toBnfa).foldl Bnfa.addPatternStates (view m a) := by
  induction ps with
  | nil => exact fun _ _ => rfl
  | cons p ps ih =>
    intro a pats word h hmax
    rw [List.map_cons, List.sum_cons] at hmax
    have hview := addPatternStates_view h (p := p) (by omega)
    obtain ⟨⟨word₁, h₁⟩, -, hn⟩ := addPatternStates_built h (p := toBnfa p)
      (by show a.numStates + p.casepatrn.length < m; omega)
    rw [hview] at h₁ hn
    have hn' : (addPatternStates a p).numStates ≤ a.numStates + p.casepatrn.length := hn
    rw [List.foldl_cons, List.map_cons, List.foldl_cons, hview]
    exact ih h₁ (by omega)

/-! ### Fail states -/

/-- `a'` is `a` with other fail states and match lists. -/
def SameTrie (a a' : AcsmStruct U) : Prop :=
  ∃ failState matchList, a' = { a with failState := failState, matchList := matchList }

theorem SameTrie.refl (a : AcsmStruct U) : SameTrie a a := ⟨_, _, rfl⟩

theorem SameTrie.trans {a a' a'' : AcsmStruct U} (h : SameTrie a a') (h' : SameTrie a' a'') :
    SameTrie a a'' := by
  obtain ⟨_, _, rfl⟩ := h
  obtain ⟨_, _, rfl⟩ := h'
  exact ⟨_, _, rfl⟩

theorem queueAdd_of_notMem {queue : List ℕ} {s : ℕ} (hs : s ∉ queue) : queueAdd queue s = queue ++ [s] :=
  if_neg hs

theorem foldl_firstState (is : List UInt8) (hfail : a.failState = fun _ => 0) : ∀ queue : List ℕ,
    (queue ++ (is.map (listGetNextState2 a 0)).filter (· ≠ 0)).Nodup →
    is.foldl firstState (a, queue) =
      (a, queue ++ (is.map (listGetNextState2 a 0)).filter (· ≠ 0)) := by
  induction is with
  | nil =>
    intro queue _
    rw [List.map_nil, List.filter_nil, List.append_nil]
    rfl
  | cons i is ih =>
    intro queue hnodup
    rw [List.foldl_cons]
    by_cases hs : listGetNextState2 a 0 i = 0
    · rw [List.map_cons, List.filter_cons_of_neg (by simpa using hs)] at hnodup ⊢
      have hskip : firstState (a, queue) i = (a, queue) := by simp [firstState, hs]
      rw [hskip]
      exact ih queue hnodup
    · rw [List.map_cons, List.filter_cons_of_pos (by simpa using hs)] at hnodup ⊢
      have hnew : listGetNextState2 a 0 i ∉ queue := fun hmem =>
        (List.nodup_append.1 hnodup).2.2 _ hmem _ List.mem_cons_self rfl
      have hsame : Function.update a.failState (listGetNextState2 a 0 i) 0 = a.failState := by
        rw [hfail]
        exact Function.update_eq_self_iff.2 rfl
      have hadd : firstState (a, queue) i = (a, queue ++ [listGetNextState2 a 0 i]) := by
        simp [firstState, hs, hsame, queueAdd_of_notMem hnew]
      rw [List.append_cons] at hnodup ⊢
      rw [hadd]
      exact ih _ hnodup

theorem firstLayer_view {word : ℕ → List UInt8} {N : ℕ} (h : Spelled (view m a) word N)
    (hfail : a.failState = fun _ => 0) : firstLayer a = (a, Bnfa.firstStates (view m a)) :=
  foldl_firstState alphabet hfail [] h.nodup_firstStates

theorem locateNext_view (a : AcsmStruct U) (i : UInt8) : ∀ fuel fs,
    Bnfa.locateNext (view m a) i fuel fs = locateNext a i fuel fs := by
  intro fuel
  induction fuel with
  | zero => exact fun _ => rfl
  | succ fuel ih =>
    intro fs
    rw [Bnfa.locateNext, locateNext, listGetNextState_view]
    cases listGetNextState a fs i with
    | none => exact ih _
    | some next => rfl

theorem prefix_linkState {r : ℕ} {i : UInt8} {b b' : BnfaStruct U} {queue queue' : List ℕ}
    (h : Bnfa.linkState r (b, queue) i = some (b', queue')) : queue <+: queue' := by
  simp only [Bnfa.linkState] at h
  split at h
  · cases h
    exact List.prefix_refl _
  · split at h
    · cases h
    · cases h
      exact List.prefix_append _ _

theorem prefix_foldlM_linkState {r : ℕ} (is : List UInt8) :
    ∀ {b b' : BnfaStruct U} {queue queue' : List ℕ},
      is.foldlM (Bnfa.linkState r) (b, queue) = some (b', queue') → queue <+: queue' := by
  induction is with
  | nil =>
    intro b b' queue queue' h
    cases h
    exact List.prefix_refl _
  | cons i is ih =>
    intro b b' queue queue' h
    rw [List.foldlM_cons] at h
    obtain ⟨⟨b₁, queue₁⟩, h₁, h₂⟩ := Option.bind_eq_some_iff.1 h
    exact (prefix_linkState h₁).trans (ih h₂)

theorem linkState_view {r : ℕ} {i : UInt8} {b' : BnfaStruct (AcsmPattern U)} {queue queue' : List ℕ}
    (h : Bnfa.linkState r (view m a, queue) i = some (b', queue')) (hnodup : queue'.Nodup) :
    ∃ a', linkState r (a, queue) i = some (a', queue') ∧ view m a' = b' ∧ SameTrie a a' := by
  simp only [Bnfa.linkState, listGetNextState_view, locateNext_view] at h
  simp only [linkState]
  cases hn : listGetNextState a r i with
  | none =>
    simp only [hn] at h
    cases h
    exact ⟨a, rfl, rfl, .refl a⟩
  | some s =>
    simp only [hn] at h
    have hnum : (view m a).numStates = a.numStates := rfl
    have hfail : (view m a).failState = a.failState := rfl
    rw [hnum, hfail] at h
    cases hl : locateNext a i a.numStates (a.failState r) with
    | none =>
      simp only [hl] at h
      cases h
    | some next =>
      simp only [hl] at h
      cases h
      have hs : s ∉ queue := fun hmem =>
        (List.nodup_append.1 hnodup).2.2 s hmem s (List.mem_singleton_self s) rfl
      have hcopy := view_matchList (m := m) { a with failState := Function.update a.failState s next } s
        ((a.matchList next).foldl (fun l p => p :: l) (a.matchList s))
      rw [List.foldl_flip_cons_eq_append', List.map_append, List.map_reverse] at hcopy
      refine ⟨{ a with
          failState := Function.update a.failState s next
          matchList := Function.update a.matchList s
            ((a.matchList next).foldl (fun l p => p :: l) (a.matchList s)) }, ?_, ?_, ⟨_, _, rfl⟩⟩
      · simp only [queueAdd_of_notMem hs]
      · rw [List.foldl_flip_cons_eq_append', List.foldl_flip_cons_eq_append']
        exact hcopy

theorem foldlM_linkState_view {r : ℕ} (is : List UInt8) :
    ∀ {a : AcsmStruct U} {b' : BnfaStruct (AcsmPattern U)} {queue queue' : List ℕ},
      is.foldlM (Bnfa.linkState r) (view m a, queue) = some (b', queue') → queue'.Nodup →
      ∃ a', is.foldlM (linkState r) (a, queue) = some (a', queue') ∧ view m a' = b' ∧
        SameTrie a a' := by
  induction is with
  | nil =>
    intro a b' queue queue' h _
    cases h
    exact ⟨a, rfl, rfl, .refl a⟩
  | cons i is ih =>
    intro a b' queue queue' h hnodup
    rw [List.foldlM_cons] at h
    obtain ⟨⟨b₁, queue₁⟩, h₁, h₂⟩ := Option.bind_eq_some_iff.1 h
    have hnodup₁ := (prefix_foldlM_linkState is h₂).sublist.nodup hnodup
    obtain ⟨a₁, hlink, rfl, hsame⟩ := linkState_view h₁ hnodup₁
    obtain ⟨a', hfold, hview, hsame'⟩ := ih h₂ hnodup
    refine ⟨a', ?_, hview, hsame.trans hsame'⟩
    rw [List.foldlM_cons, hlink]
    exact hfold

/-- The outer loop keeps step with that of `bnfa_search.c`. -/
theorem buildLoop_view {pats : List (BnfaPattern (AcsmPattern U))} {word : ℕ → List UInt8} {N : ℕ} :
    ∀ (fuel : ℕ) {a : AcsmStruct U} {done queue : List ℕ}, Queued (view m a) pats word N done queue →
      ∀ {b'}, Bnfa.buildLoop fuel (view m a) queue = some b' →
      ∃ a', buildLoop fuel a queue = some a' ∧ view m a' = b' ∧ SameTrie a a' := by
  intro fuel
  induction fuel with
  | zero =>
    intro a done queue h b' hb
    cases queue with
    | nil =>
      cases hb
      exact ⟨a, rfl, rfl, .refl a⟩
    | cons r queue => cases hb
  | succ fuel ih =>
    intro a done queue h b' hb
    cases queue with
    | nil =>
      cases hb
      exact ⟨a, rfl, rfl, .refl a⟩
    | cons r queue =>
      obtain ⟨b₁, queue₁, hfold, h₁, -⟩ := h.visit
      obtain ⟨a₁, hfold', rfl, hsame⟩ :=
        foldlM_linkState_view alphabet hfold (List.nodup_append.1 h₁.known.nodup).2.1
      rw [Bnfa.buildLoop] at hb
      simp only [hfold] at hb
      obtain ⟨a', hloop, hview, hsame'⟩ := ih h₁ hb
      refine ⟨a', ?_, hview, hsame.trans hsame'⟩
      rw [buildLoop]
      simp only [hfold']
      exact hloop

/-- **`Build_NFA`** does to the lists what `_bnfa_build_nfa` does to their view. -/
theorem buildNfa_view {pats : List (BnfaPattern (AcsmPattern U))} {word : ℕ → List UInt8}
    (h : Built (view m a) pats word) (hfail : a.failState = fun _ => 0) :
    ∃ a', buildNfa { a with numStates := a.numStates + 1 } = some a' ∧
      SameTrie { a with numStates := a.numStates + 1 } a' ∧
      Bnfa.buildLoop (startNfa (view m a)).numStates (startNfa (view m a))
        (Bnfa.firstStates (view m a)) = some (view m a') := by
  have hstart : startNfa (view m a) = view m { a with numStates := a.numStates + 1 } := by
    have hzero : (fun s => if s ∈ Bnfa.firstStates (view m a) then 0 else 0) = a.failState := by
      rw [hfail]
      exact funext fun s => ite_self 0
    rw [startNfa, hzero]
    rfl
  obtain ⟨b', hloop, -, -, -⟩ := h.buildLoop
  have hloop₀ := hloop
  have hqueued := h.queued
  rw [hstart] at hloop hqueued
  obtain ⟨a', hloop', rfl, hsame⟩ := buildLoop_view _ hqueued hloop
  refine ⟨a', ?_, hsame, hloop₀⟩
  have hspelled : Spelled (view m { a with numStates := a.numStates + 1 }) word (a.numStates + 1) :=
    h.spelled.of_get fun _ _ => rfl
  rw [buildNfa, firstLayer_view hspelled hfail]
  exact hloop'

/-! ### Compiling up to here -/

/-- No list has two entries for one input. -/
def RowsNodup (a : AcsmStruct U) : Prop := ∀ s, ((a.transTable s).map BnfaTransNode.key).Nodup

theorem nodup_putRow {input : UInt8} {next : ℕ} {row : List BnfaTransNode}
    (h : (row.map BnfaTransNode.key).Nodup) :
    ((putRow input next row).map BnfaTransNode.key).Nodup := by
  rw [putRow]
  cases hr : resetNext input next row with
  | some row' => exact (keys_resetNext hr).symm ▸ h
  | none => exact List.nodup_cons.2 ⟨resetNext_none hr, h⟩

theorem RowsNodup.put (h : RowsNodup a) (s : ℕ) (c : UInt8) (t : ℕ) :
    RowsNodup (listPutNextState a s c t) := by
  intro s'
  by_cases hs : s' = s
  · subst hs
    simp only [listPutNextState, Function.update_self]
    exact nodup_putRow (h s')
  · simp only [listPutNextState, Function.update_of_ne hs]
    exact h s'

theorem RowsNodup.newStates (cs : List UInt8) :
    ∀ {a : AcsmStruct U}, RowsNodup a → ∀ s, RowsNodup (newStates a s cs).1 := by
  induction cs with
  | nil => exact fun h _ => h
  | cons c cs ih =>
    intro a h s
    exact ih (RowsNodup.put (a := { a with numStates := a.numStates + 1 }) h s c _) _

theorem RowsNodup.foldl (ps : List (AcsmPattern U)) :
    ∀ {a : AcsmStruct U}, RowsNodup a → RowsNodup (ps.foldl addPatternStates a) := by
  induction ps with
  | nil => exact fun h => h
  | cons p ps ih => exact fun h => ih (h.newStates _ _)

/-- The patterns of a list, one after the other. -/
def addPatterns (a : AcsmStruct U) (ps : List (AcsmPattern U)) : AcsmStruct U :=
  ps.foldl (fun a p => acsmAddPattern2 a p.casepatrn p.nocase p.offset p.depth p.negative p.udata p.iid) a

theorem acsmAddPattern2_eq (a : AcsmStruct U) (p : AcsmPattern U) :
    acsmAddPattern2 a p.casepatrn p.nocase p.offset p.depth p.negative p.udata p.iid =
      { a with patterns := p :: a.patterns } := by
  obtain ⟨_, _, _, _, _, _, _, _, rfl⟩ := p
  rfl

theorem addPatterns_eq (ps : List (AcsmPattern U)) : ∀ a : AcsmStruct U,
    addPatterns a ps = { a with patterns := ps.reverse ++ a.patterns } := by
  induction ps with
  | nil => exact fun _ => rfl
  | cons p ps ih =>
    intro a
    rw [addPatterns, List.foldl_cons, acsmAddPattern2_eq]
    refine (ih _).trans ?_
    rw [List.reverse_cons, List.append_assoc, List.singleton_append]

/-- A machine to which patterns can be added: nothing has been compiled. -/
structure Fresh (a : AcsmStruct U) : Prop where
  patterns : a.patterns = []
  transTable : a.transTable = fun _ => []
  matchList : a.matchList = fun _ => []
  failState : a.failState = fun _ => 0

/-- `a'` is `a` with other states. -/
def SameSetup (a a' : AcsmStruct U) : Prop :=
  a'.fsa = a.fsa ∧ a'.format = a.format ∧ a'.sparseMaxRowNodes = a.sparseMaxRowNodes ∧
    a'.sparseMaxZcnt = a.sparseMaxZcnt ∧ a'.compressStates = a.compressStates

theorem SameSetup.refl (a : AcsmStruct U) : SameSetup a a := ⟨rfl, rfl, rfl, rfl, rfl⟩

theorem SameSetup.trans {a a' a'' : AcsmStruct U} (h : SameSetup a a') (h' : SameSetup a' a'') :
    SameSetup a a'' := by
  obtain ⟨h1, h2, h3, h4, h5⟩ := h
  obtain ⟨h1', h2', h3', h4', h5'⟩ := h'
  exact ⟨h1'.trans h1, h2'.trans h2, h3'.trans h3, h4'.trans h4, h5'.trans h5⟩

theorem sameSetup_newStates (cs : List UInt8) :
    ∀ (a : AcsmStruct U) (s : ℕ), SameSetup a (newStates a s cs).1 := by
  induction cs with
  | nil => exact fun a _ => .refl a
  | cons c cs ih => exact fun a s => ih (listPutNextState { a with numStates := a.numStates + 1 } s c _) _

theorem sameSetup_foldl (ps : List (AcsmPattern U)) :
    ∀ a : AcsmStruct U, SameSetup a (ps.foldl addPatternStates a) := by
  induction ps with
  | nil => exact fun a => .refl a
  | cons p ps ih =>
    intro a
    have hnew := sameSetup_newStates (matchStates a 0 p.patrn).2 a (matchStates a 0 p.patrn).1
    exact (show SameSetup a (addPatternStates a p) from hnew).trans (ih (addPatternStates a p))

/-- The machine that `acsmCompile2` builds the fail states of. -/
def beforeNfa (a : AcsmStruct U) : AcsmStruct U :=
  { addStates a with sizeofstate := stateSize (addStates a), failState := fun _ => 0 }

theorem sameSetup_beforeNfa (a : AcsmStruct U) : SameSetup a (beforeNfa a) :=
  sameSetup_foldl a.patterns { a with numStates := 0 }

/-- What `acsmCompile2` has when `Build_NFA` is done; `b` is the same for all formats. -/
structure Automaton (a : AcsmStruct U) (ps : List (AcsmPattern U)) (a' : AcsmStruct U) (m : ℕ)
    (b : BnfaStruct (AcsmPattern U)) : Prop where
  build : buildNfa (beforeNfa (addPatterns a ps)) = some a'
  same : SameTrie (beforeNfa (addPatterns a ps)) a'
  setup : SameSetup a a'
  view : view m a' = b
  rows : RowsNodup a'

/-- **`Build_NFA`**: every fail state spells the longest proper suffix in the trie, every match list
holds the patterns that end in the word of its state. -/
theorem exists_automaton (ps : List (AcsmPattern U)) :
    ∃ m b word, Nfa b (ps.map toBnfa) word ∧
      (∀ s, 0 < s → s < b.numStates → FailLongest b word b.numStates s) ∧
      ∀ a, Fresh a → ∃ a', Automaton a ps a' m b := by
  obtain ⟨m, hm⟩ : ∃ m, m = 1 + (ps.reverse.map fun p => p.casepatrn.length).sum := ⟨_, rfl⟩
  have hempty : Built (view m (acsmNew2 : AcsmStruct U)) [] fun _ => [] :=
    built_empty rfl rfl rfl (funext fun _ => ite_self _) rfl
  have hlen : (acsmNew2 : AcsmStruct U).numStates + (ps.reverse.map fun p => p.casepatrn.length).sum < m := by
    show 0 + _ < m
    omega
  have hsum : (view m (acsmNew2 : AcsmStruct U)).numStates +
      (((ps.reverse.map toBnfa).map fun p => p.casepatrn.length).sum) < m := by
    rw [List.map_map]
    exact hlen
  obtain ⟨⟨word, hbuilt⟩, hsetup⟩ := foldl_addPatternStates_built (ps.reverse.map toBnfa) hempty hsum
  rw [List.map_reverse, List.reverse_reverse, List.append_nil, ← List.map_reverse] at hbuilt
  obtain ⟨b, hloop, -, hnfa, hfail⟩ := hbuilt.buildLoop
  refine ⟨m, b, word, hnfa, hfail, fun a ha => ?_⟩
  have hstart : view m { addPatterns a ps with numStates := 0 } = view m (acsmNew2 : AcsmStruct U) := by
    rw [addPatterns_eq]
    simp only [view, listGetNextState2, ha.transTable, ha.matchList, ha.failState, acsmNew2]
  have hpats : (addPatterns a ps).patterns = ps.reverse := by
    rw [addPatterns_eq]
    simp only [ha.patterns, List.append_nil]
  have hview := foldl_addPatternStates_view ps.reverse (hstart ▸ hempty)
    (a := { addPatterns a ps with numStates := 0 }) hlen
  have hrows : RowsNodup (ps.reverse.foldl addPatternStates { addPatterns a ps with numStates := 0 }) :=
    RowsNodup.foldl _ fun s => by
      rw [addPatterns_eq]
      simp only [ha.transTable]
      exact List.nodup_nil
  rw [hstart] at hview
  generalize hb : ps.reverse.foldl addPatternStates { addPatterns a ps with numStates := 0 } = b₀
    at hview hrows
  rw [← hview] at hbuilt hloop hsetup
  have hzero : b₀.failState = fun _ => 0 := hsetup.2.2
  -- the size of the words is not seen by the view
  have hsize : view m { b₀ with
      sizeofstate := stateSize { b₀ with numStates := b₀.numStates + 1 }
      failState := fun _ => 0 } = view m b₀ := by
    rw [← hzero]
    rfl
  obtain ⟨a', hbuild, hsame, hloop'⟩ := buildNfa_view (hsize ▸ hbuilt) rfl
  rw [hsize, hloop] at hloop'
  have hbefore : beforeNfa (addPatterns a ps) =
      { b₀ with
        sizeofstate := stateSize { b₀ with numStates := b₀.numStates + 1 }
        failState := fun _ => 0
        numStates := b₀.numStates + 1 } := by
    have hstates : addStates (addPatterns a ps) = { b₀ with numStates := b₀.numStates + 1 } := by
      rw [← hb, ← hpats]
      rfl
    rw [beforeNfa, hstates]
  have hadd : SameSetup a (addPatterns a ps) := by
    rw [addPatterns_eq]
    exact .refl a
  refine ⟨a', by rw [hbefore]; exact hbuild, by rw [hbefore]; exact hsame, ?_,
    (Option.some.inj hloop').symm, ?_⟩
  · have hset := hadd.trans (sameSetup_beforeNfa (addPatterns a ps))
    rw [hbefore] at hset
    obtain ⟨_, _, rfl⟩ := hsame
    exact hset
  · obtain ⟨_, _, rfl⟩ := hsame
    exact hrows

end Snort.Acsm
