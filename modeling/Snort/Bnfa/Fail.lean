import Snort.Bnfa.Trie
import Snort.Lib.Bfs

/-!
# Fail states

`_bnfa_build_nfa` visits the states breadth first.  A state is known from the time it is queued: its
fail state spells the longest proper suffix in the trie, and its match list holds the patterns that
end in its word.  States no deeper than the head of the queue are known, which is what the search
for a fail state and the copy of its match list rely on.
-/

namespace Snort.Bnfa

open AhoCorasick

variable {U : Type*} {b : BnfaStruct U} {word : ℕ → List UInt8} {N : ℕ}

/-! ### Following fail states -/

/-- The fail state of `s` will do where `s` has no transition. -/
def FailSkips (b : BnfaStruct U) (word : ℕ → List UInt8) (N s : ℕ) : Prop :=
  b.failState s < N ∧ Skips (Words word N) (word s) (word (b.failState s))

theorem Spelled.next_word (h : Spelled b word N) {s t : ℕ} {c : UInt8} (hs : s < N)
    (hn : listGetNextState b s c = some t) :
    t < N ∧ word t = longest (Words word N) (word s ++ [c]) := by
  rcases Nat.eq_zero_or_pos t with rfl | ht
  · -- only state 0 has transitions to state 0
    have hs0 : s = 0 := by
      by_contra h0
      exact h.nonzero s c (Nat.pos_of_ne_zero h0) hs hn
    subst hs0
    refine ⟨h.pos, ?_⟩
    have hno : ¬ Words word N ([c] : List UInt8) := by
      rintro ⟨t, ht, hw⟩
      have ht0 : t ≠ 0 := fun ht0 => by
        rw [ht0, h.zero] at hw
        cases hw
      have := (h.next_iff h.pos c ht0).2 ⟨ht, by rw [hw, h.zero]; rfl⟩
      rw [hn] at this
      exact ht0 (Option.some.inj this).symm
    rw [h.zero, List.nil_append, longest_cons_of_not hno]
    rfl
  · obtain ⟨htN, hw⟩ := h.child s c t hs hn ht.ne'
    exact ⟨htN, by rw [longest_of_mem ⟨t, htN, hw⟩, hw]⟩

/-- The loop that follows fail states finds the longest suffix. -/
theorem locateNext_spec (h : Spelled b word N) {D : ℕ}
    (hfail : ∀ s, 0 < s → s < N → (word s).length ≤ D → FailSkips b word N s) (c : UInt8) :
    ∀ (fuel : ℕ) {s : ℕ}, s < N → (word s).length ≤ D → (word s).length < fuel →
      ∃ next, locateNext b c fuel s = some next ∧ next < N ∧
        word next = longest (Words word N) (word s ++ [c]) := by
  intro fuel
  induction fuel with
  | zero => exact fun _ _ hlt => absurd hlt (Nat.not_lt_zero _)
  | succ fuel ih =>
    intro s hs hD hlt
    rw [locateNext]
    cases hn : listGetNextState b s c with
    | some t => exact ⟨t, rfl, h.next_word hs hn⟩
    | none =>
      have h0 : 0 < s := Nat.pos_of_ne_zero fun h0 => by
        rw [h0, listGetNextState, if_pos rfl] at hn
        cases hn
      obtain ⟨hfN, hskip⟩ := hfail s h0 hs hD
      have hlen := hskip.lt
      obtain ⟨next, heq, hnN, hw⟩ := ih hfN (by omega) (by omega)
      exact ⟨next, heq, hnN, hw.trans (hskip.next c ((h.next_none_iff h0 hs c).1 hn))⟩

/-! ### What is known about a state -/

/-- `b'` is `b` with other fail states and match lists. -/
def SameTrie (b b' : BnfaStruct U) : Prop :=
  ∃ failState matchList, b' = { b with failState := failState, matchList := matchList }

theorem SameTrie.refl (b : BnfaStruct U) : SameTrie b b := ⟨_, _, rfl⟩

theorem SameTrie.trans {b b' b'' : BnfaStruct U} (h : SameTrie b b') (h' : SameTrie b' b'') :
    SameTrie b b'' := by
  obtain ⟨_, _, rfl⟩ := h
  obtain ⟨_, _, rfl⟩ := h'
  exact ⟨_, _, rfl⟩

theorem SameTrie.get {b b' : BnfaStruct U} (h : SameTrie b b') :
    listGetNextState b' = listGetNextState b := by
  obtain ⟨_, _, rfl⟩ := h
  rfl

/-- `p` is in the match list of a state that spells `w`.  An empty pattern gets there from state 0,
by fail states that do not pass a state of depth one. -/
def Reported (P : List UInt8 → Prop) (p : BnfaPattern U) (w : List UInt8) : Prop :=
  upper p.casepatrn <:+ w ∧ (p.casepatrn = [] → ∀ c, P [c] → ¬ [c] <:+ w)

/-- The match list of `s` holds the patterns that end in its word. -/
def Lists (b : BnfaStruct U) (pats : List (BnfaPattern U)) (word : ℕ → List UInt8) (N s : ℕ) : Prop :=
  ∀ p, p ∈ b.matchList s ↔ p ∈ pats ∧ Reported (Words word N) p (word s)

theorem upper_eq_nil {w : List UInt8} : upper w = [] ↔ w = [] := List.map_eq_nil_iff

theorem reported_of_ne_nil {P : List UInt8 → Prop} {p : BnfaPattern U} {w : List UInt8}
    (hp : p.casepatrn ≠ []) : Reported P p w ↔ upper p.casepatrn <:+ w :=
  and_iff_left fun hnil => absurd hnil hp

theorem reported_nil {P : List UInt8 → Prop} {p : BnfaPattern U} :
    Reported P p [] ↔ upper p.casepatrn = [] := by
  rw [Reported, List.suffix_nil]
  exact and_iff_left fun _ c _ hc => by cases List.suffix_nil.1 hc

theorem reported_singleton {P : List UInt8 → Prop} {p : BnfaPattern U} {c : UInt8} (hc : P [c]) :
    Reported P p [c] ↔ upper p.casepatrn = [c] := by
  by_cases hp : p.casepatrn = []
  · refine ⟨fun h => absurd (List.suffix_refl _) (h.2 hp c hc), fun h => ?_⟩
    rw [hp] at h
    cases h
  · rw [reported_of_ne_nil hp, List.suffix_cons_iff, List.suffix_nil, upper_eq_nil, or_iff_left hp]

/-- Below depth one the patterns of a state are those it spells and those of its fail state. -/
theorem reported_iff_fail {P : List UInt8 → Prop} {p : BnfaPattern U} {w : List UInt8}
    (hp : P (upper p.casepatrn)) (hw : 1 < w.length) :
    Reported P p w ↔ upper p.casepatrn = w ∨ Reported P p (fail P w) := by
  have hne : w ≠ [] := fun h => by
    rw [h] at hw
    cases hw
  by_cases hnil : p.casepatrn = []
  · have hsingle : ∀ c, P [c] → ([c] <:+ w ↔ [c] <:+ fail P w) := fun c hc => by
      rw [suffix_iff_eq_or_fail hc hne, or_iff_right]
      rintro rfl
      exact lt_irrefl _ hw
    simp only [Reported, hnil, upper_nil, List.nil_suffix, true_and, true_implies, hne.symm, false_or]
    exact forall_congr' fun c => imp_congr_right fun hc => not_congr (hsingle c hc)
  · rw [reported_of_ne_nil hnil, reported_of_ne_nil hnil]
    exact suffix_iff_eq_or_fail hp hne

/-- The fail state of `s` spells the longest proper suffix. -/
def FailLongest (b : BnfaStruct U) (word : ℕ → List UInt8) (N s : ℕ) : Prop :=
  b.failState s < N ∧ word (b.failState s) = fail (Words word N) (word s)

/-- The states in `known` are finished, the others have the match lists of the trie. -/
structure Known (b : BnfaStruct U) (pats : List (BnfaPattern U)) (word : ℕ → List UInt8) (N : ℕ)
    (known : List ℕ) : Prop where
  spelled : Spelled b word N
  numStates : b.numStates = N
  words : ∀ p ∈ pats, Words word N (upper p.casepatrn)
  nodup : known.Nodup
  range : ∀ s ∈ known, 0 < s ∧ s < N
  fail : ∀ s ∈ known, FailLongest b word N s
  lists : ∀ s ∈ known, Lists b pats word N s
  own : ∀ s < N, s ∉ known → ∀ p, p ∈ b.matchList s ↔ p ∈ pats ∧ upper p.casepatrn = word s
  failZero : b.failState 0 = 0

theorem FailLongest.skips (h : Spelled b word N) {s : ℕ} (h0 : 0 < s) (hs : s < N)
    (hf : FailLongest b word N s) : FailSkips b word N s := by
  refine ⟨hf.1, ?_⟩
  rw [hf.2]
  exact skips_fail h.prefixClosed fun hw => h0.ne' ((h.word_eq_nil hs).1 hw)

namespace Known

variable {pats : List (BnfaPattern U)} {known : List ℕ}

theorem lists_zero (h : Known b pats word N known) : Lists b pats word N 0 := by
  intro p
  rw [h.own 0 h.spelled.pos fun hmem => (h.range 0 hmem).1.ne' rfl, h.spelled.zero, reported_nil]

/-- `s` becomes known when it gets its fail state and the matches of that state. -/
theorem link (h : Known b pats word N known) {s next : ℕ} (hs0 : 0 < s) (hsN : s < N)
    (hs : s ∉ known) (hdepth : 1 < (word s).length) (hnN : next < N)
    (hfail : word next = AhoCorasick.fail (Words word N) (word s)) (hlists : Lists b pats word N next) :
    Known { b with failState := Function.update b.failState s next
                   matchList := Function.update b.matchList s
                     ((b.matchList next).foldl (fun l p => p :: l) (b.matchList s)) }
      pats word N (known ++ [s]) := by
  have hne : ∀ t ∈ known, t ≠ s := fun t ht heq => hs (heq ▸ ht)
  refine ⟨h.spelled.of_get fun _ _ => rfl, h.numStates, h.words, ?_, ?_, ?_, ?_, ?_,
    (Function.update_of_ne hs0.ne _ _).trans h.failZero⟩
  · refine List.nodup_append.2 ⟨h.nodup, List.nodup_singleton s, fun t ht s' hs' => ?_⟩
    rw [List.mem_singleton.1 hs']
    exact hne t ht
  · intro t ht
    rcases List.mem_append.1 ht with ht | ht
    · exact h.range t ht
    · rw [List.mem_singleton.1 ht]
      exact ⟨hs0, hsN⟩
  · intro t ht
    rw [FailLongest]
    rcases List.mem_append.1 ht with ht | ht
    · simp only [Function.update_of_ne (hne t ht)]
      exact h.fail t ht
    · rw [List.mem_singleton.1 ht]
      simp only [Function.update_self]
      exact ⟨hnN, hfail⟩
  · intro t ht
    rcases List.mem_append.1 ht with ht | ht
    · intro p
      simp only [Function.update_of_ne (hne t ht)]
      exact h.lists t ht p
    · rw [List.mem_singleton.1 ht]
      intro p
      simp only [Function.update_self]
      rw [List.foldl_flip_cons_eq_append', List.mem_append, List.mem_reverse, h.own s hsN hs,
        hlists, hfail, ← and_or_left]
      refine and_congr_right fun hp => ?_
      rw [reported_iff_fail (h.words p hp) hdepth, or_comm]
  · intro t htN ht p
    rw [List.mem_append, List.mem_singleton, not_or] at ht
    simp only [Function.update_of_ne ht.2]
    exact h.own t htN ht.1 p

/-- One state behind `r`. -/
theorem linkState_spec (h : Known b pats word N known) {r s : ℕ} {c : UInt8} (hr : r ∈ known)
    (hdeep : ∀ t, 0 < t → t < N → (word t).length ≤ (word r).length → t ∈ known)
    (hn : listGetNextState b r c = some s) (hs : s ∉ known) (queue : List ℕ) :
    ∃ b', linkState r (b, queue) c = some (b', queue ++ [s]) ∧
      Known b' pats word N (known ++ [s]) ∧ SameTrie b b' := by
  obtain ⟨hr0, hrN⟩ := h.range r hr
  obtain ⟨hfN, hfw⟩ := h.fail r hr
  have hs0 : 0 < s := Nat.pos_of_ne_zero fun hs0 => h.spelled.nonzero r c hr0 hrN (hs0 ▸ hn)
  obtain ⟨hsN, hsw⟩ := h.spelled.child r c s hrN hn hs0.ne'
  have hslen : (word s).length = (word r).length + 1 := by rw [hsw, List.length_append]; rfl
  have hrw : word r ≠ [] := fun hw => hr0.ne' ((h.spelled.word_eq_nil hrN).1 hw)
  have hlt : (word (b.failState r)).length < (word r).length := by
    rw [hfw]
    exact fail_length_lt hrw
  have hrlen := h.spelled.length_word_le hrN
  obtain ⟨next, hloc, hnN, hnw⟩ := locateNext_spec (D := (word r).length) h.spelled
    (fun t h0 ht hD => (h.fail t (hdeep t h0 ht hD)).skips h.spelled h0 ht) c N hfN hlt.le
    (by omega)
  -- the word found is the fail word of `s`
  have hfail : word next = AhoCorasick.fail (Words word N) (word s) := by
    rw [hnw, hfw, AhoCorasick.fail, AhoCorasick.fail, hsw, List.tail_append_of_ne_nil hrw]
    exact (longest_concat h.spelled.prefixClosed _ _).symm
  have hlists : Lists b pats word N next := by
    rcases Nat.eq_zero_or_pos next with rfl | h0
    · exact h.lists_zero
    · have hnlen : (word next).length < (word s).length := by
        rw [hfail]
        exact fail_length_lt fun hw => hs0.ne' ((h.spelled.word_eq_nil hsN).1 hw)
      exact h.lists next (hdeep next h0 hnN (by omega))
  have hdepth : 1 < (word s).length := by
    have := List.length_pos_iff.2 hrw
    omega
  refine ⟨_, ?_, h.link hs0 hsN hs hdepth hnN hfail hlists, ⟨_, _, rfl⟩⟩
  rw [linkState]
  simp only [hn, h.numStates, hloc]

/-- All states behind `r`. -/
theorem foldlM_linkState {r : ℕ} (is : List UInt8) :
    ∀ {b : BnfaStruct U} {known : List ℕ} (queue : List ℕ), Known b pats word N known → r ∈ known →
      (∀ t, 0 < t → t < N → (word t).length ≤ (word r).length → t ∈ known) → is.Nodup →
      (∀ c ∈ is, ∀ s, listGetNextState b r c = some s → s ∉ known) →
      ∃ b', is.foldlM (linkState r) (b, queue) =
          some (b', queue ++ is.filterMap (listGetNextState b r)) ∧
        Known b' pats word N (known ++ is.filterMap (listGetNextState b r)) ∧ SameTrie b b' := by
  induction is with
  | nil =>
    intro b known queue h _ _ _ _
    refine ⟨b, ?_, ?_, .refl b⟩
    · rw [List.filterMap_nil, List.append_nil]
      rfl
    · rwa [List.filterMap_nil, List.append_nil]
  | cons c is ih =>
    intro b known queue h hr hdeep hnodup hnew
    obtain ⟨hc, hnodup⟩ := List.nodup_cons.1 hnodup
    rw [List.foldlM_cons]
    cases hn : listGetNextState b r c with
    | none =>
      have hlink : linkState r (b, queue) c = some (b, queue) := by simp only [linkState, hn]
      rw [hlink, List.filterMap_cons_none hn]
      exact ih queue h hr hdeep hnodup fun d hd => hnew d (List.mem_cons_of_mem c hd)
    | some s =>
      obtain ⟨b₁, hlink, h₁, hsame⟩ := h.linkState_spec hr hdeep hn (hnew c List.mem_cons_self s hn)
        queue
      obtain ⟨hr0, hrN⟩ := h.range r hr
      -- the other states behind `r` are not `s`
      have hnew₁ : ∀ d ∈ is, ∀ t, listGetNextState b₁ r d = some t → t ∉ known ++ [s] := by
        intro d hd t ht
        rw [hsame.get] at ht
        rw [List.mem_append, List.mem_singleton, not_or]
        refine ⟨hnew d (List.mem_cons_of_mem c hd) t ht, fun hts => hc ?_⟩
        subst hts
        have ht0 : t ≠ 0 := fun ht0 => h.spelled.nonzero r c hr0 hrN (ht0 ▸ hn)
        have hcd := (h.spelled.child r c t hrN hn ht0).2.symm.trans
          (h.spelled.child r d t hrN ht ht0).2
        obtain rfl : c = d := by simpa using List.append_cancel_left hcd
        exact hd
      obtain ⟨b', hfold, h', hsame'⟩ := ih (queue ++ [s]) h₁ (List.mem_append_left _ hr)
        (fun t h0 ht hle => List.mem_append_left _ (hdeep t h0 ht hle)) hnodup hnew₁
      rw [hsame.get] at hfold h'
      rw [List.append_assoc, List.singleton_append] at hfold h'
      rw [hlink, List.filterMap_cons_some hn]
      exact ⟨b', hfold, h', hsame.trans hsame'⟩

end Known

/-! ### The tree -/

/-- The states behind `s`, in the order in which they are queued. -/
def kids (b : BnfaStruct U) (s : ℕ) : List ℕ :=
  (alphabet.map fun c => (listGetNextState b s c).getD 0).filter (· ≠ 0)

theorem mem_kids {s t : ℕ} : t ∈ kids b s ↔ t ≠ 0 ∧ ∃ c, listGetNextState b s c = some t := by
  simp only [kids, List.mem_filter, List.mem_map, mem_alphabet, true_and, decide_eq_true_eq]
  constructor
  · rintro ⟨⟨c, hc⟩, h0⟩
    refine ⟨h0, c, ?_⟩
    cases hn : listGetNextState b s c with
    | none =>
      rw [hn] at hc
      exact absurd hc.symm h0
    | some t' =>
      rw [hn] at hc
      exact congrArg some hc
  · rintro ⟨h0, c, hc⟩
    exact ⟨⟨c, by rw [hc]; rfl⟩, h0⟩

/-- The states of the trie are a tree. -/
theorem Spelled.layered (h : Spelled b word N) :
    Bfs.Layered 0 (kids b) (fun s => (word s).length) (Finset.range N) where
  root_mem := Finset.mem_range.2 h.pos
  kid hs ht := by
    obtain ⟨h0, c, hn⟩ := mem_kids.1 ht
    obtain ⟨hN, hw⟩ := h.child _ c _ (Finset.mem_range.1 hs) hn h0
    exact ⟨Finset.mem_range.2 hN, h0, by simp only [hw, List.length_append, List.length_singleton]⟩
  parent ht h0 := by
    obtain ⟨s, c, hs, hn, -⟩ := h.word_parent (Nat.pos_of_ne_zero h0) (Finset.mem_range.1 ht)
    exact ⟨s, Finset.mem_range.2 (hs.trans (Finset.mem_range.1 ht)), mem_kids.2 ⟨h0, c, hn⟩⟩
  unique hs hs' ht ht' := by
    obtain ⟨h0, c, hn⟩ := mem_kids.1 ht
    obtain ⟨-, d, hn'⟩ := mem_kids.1 ht'
    have hw := (h.child _ c _ (Finset.mem_range.1 hs) hn h0).2
    have hw' := (h.child _ d _ (Finset.mem_range.1 hs') hn' h0).2
    exact h.word_inj (Finset.mem_range.1 hs) (Finset.mem_range.1 hs')
      (List.append_inj' (hw.symm.trans hw') rfl).1
  nodup {s} hs := by
    rw [kids, List.filter_map]
    refine List.Nodup.map_on ?_ (nodup_alphabet.filter _)
    intro c hc d _ heq
    have h0 : (listGetNextState b s c).getD 0 ≠ 0 := of_decide_eq_true (List.mem_filter.1 hc).2
    have hget : ∀ e, (listGetNextState b s e).getD 0 ≠ 0 →
        listGetNextState b s e = some ((listGetNextState b s e).getD 0) := fun e he => by
      cases hn : listGetNextState b s e with
      | none =>
        rw [hn] at he
        exact absurd rfl he
      | some t => rfl
    have hw := (h.child s c _ (Finset.mem_range.1 hs) (hget c h0) h0).2
    have hw' := (h.child s d _ (Finset.mem_range.1 hs) (hget d (heq ▸ h0)) (heq ▸ h0)).2
    rw [heq, hw'] at hw
    simpa using (List.append_cancel_left hw).symm

theorem SameTrie.kids {b b' : BnfaStruct U} (h : SameTrie b b') : kids b' = kids b := by
  funext s
  rw [Bnfa.kids, Bnfa.kids, h.get]

/-- Below state 0 every transition leads to a child. -/
theorem Spelled.kids_eq (h : Spelled b word N) {s : ℕ} (h0 : 0 < s) (hs : s < N) :
    kids b s = alphabet.filterMap (listGetNextState b s) := by
  rw [kids]
  induction alphabet with
  | nil => rfl
  | cons c cs ih =>
    cases hn : listGetNextState b s c with
    | none =>
      rw [List.filterMap_cons_none hn, List.map_cons, hn, ← ih]
      rfl
    | some t =>
      have ht : t ≠ 0 := fun ht => h.nonzero s c h0 hs (ht ▸ hn)
      rw [List.filterMap_cons_some hn, List.map_cons, hn, ← ih]
      exact List.filter_cons_of_pos (by simpa using ht)

/-! ### The queue -/

/-- Between two rounds: the states in `done` have been visited, those in `queue` are next. -/
structure Queued (b : BnfaStruct U) (pats : List (BnfaPattern U)) (word : ℕ → List UInt8) (N : ℕ)
    (done queue : List ℕ) : Prop where
  known : Known b pats word N (done ++ queue)
  behind : ∀ r c s, r = 0 ∨ r ∈ done → listGetNextState b r c = some s → s ≠ 0 → s ∈ done ++ queue
  parent : ∀ s ∈ done ++ queue, ∀ r c, 0 < r → r < N → listGetNextState b r c = some s → r ∈ done
  near : queue.Pairwise fun s t =>
    (word s).length ≤ (word t).length ∧ (word t).length ≤ (word s).length + 1

namespace Queued

variable {pats : List (BnfaPattern U)} {done queue : List ℕ}

theorem toVisit (h : Queued b pats word N done queue) :
    Bfs.Visit 0 (kids b) (fun s => (word s).length) (Finset.range N) done queue where
  nodup := h.known.nodup
  range hs := by
    obtain ⟨h0, hN⟩ := h.known.range _ hs
    exact ⟨Finset.mem_range.2 hN, h0.ne'⟩
  behind hs ht := by
    obtain ⟨h0, c, hn⟩ := mem_kids.1 ht
    exact h.behind _ c _ hs hn h0
  parent {s t} ht hs hkid := by
    obtain ⟨-, c, hn⟩ := mem_kids.1 hkid
    rcases Nat.eq_zero_or_pos s with h0 | h0
    · exact Or.inl h0
    · exact Or.inr (h.parent t ht s c h0 (Finset.mem_range.1 hs) hn)
  near := h.near

theorem of_visit (h : Known b pats word N (done ++ queue))
    (hv : Bfs.Visit 0 (kids b) (fun s => (word s).length) (Finset.range N) done queue) :
    Queued b pats word N done queue where
  known := h
  behind r c s hr hn h0 := hv.behind hr (mem_kids.2 ⟨h0, c, hn⟩)
  parent s hs r c h0 hr hn := by
    have hs0 := (h.range s hs).1.ne'
    exact (hv.parent hs (Finset.mem_range.2 hr) (mem_kids.2 ⟨hs0, c, hn⟩)).resolve_left h0.ne'
  near := hv.near

theorem length_lt (h : Queued b pats word N done queue) : (done ++ queue).length < N := by
  have hlt := h.toVisit.length_lt (Finset.mem_range.2 h.known.spelled.pos)
  rwa [Finset.card_range] at hlt

/-- One round of the outer loop. -/
theorem visit {r : ℕ} (h : Queued b pats word N done (r :: queue)) :
    ∃ b' queue', alphabet.foldlM (linkState r) (b, queue) = some (b', queue') ∧
      Queued b' pats word N (done ++ [r]) queue' ∧ SameTrie b b' := by
  have hassoc : done ++ r :: queue = (done ++ [r]) ++ queue := by
    rw [List.append_assoc, List.singleton_append]
  have htree := h.known.spelled.layered
  have hknown : Known b pats word N ((done ++ [r]) ++ queue) := hassoc ▸ h.known
  have hr : r ∈ (done ++ [r]) ++ queue := by simp
  obtain ⟨hr0, hrN⟩ := hknown.range r hr
  have hdeep : ∀ t, 0 < t → t < N → (word t).length ≤ (word r).length →
      t ∈ (done ++ [r]) ++ queue := fun t h0 ht hle =>
    hassoc ▸ h.toVisit.queued htree (Finset.mem_range.2 ht) h0.ne' hle
  have hnew : ∀ c ∈ alphabet, ∀ s, listGetNextState b r c = some s → s ∉ (done ++ [r]) ++ queue := by
    intro c _ s hn
    have hs0 : s ≠ 0 := fun hs0 => h.known.spelled.nonzero r c hr0 hrN (hs0 ▸ hn)
    exact hassoc ▸ h.toVisit.fresh (mem_kids.2 ⟨hs0, c, hn⟩)
  obtain ⟨b', hfold, h', hsame⟩ :=
    Known.foldlM_linkState alphabet queue hknown hr hdeep nodup_alphabet hnew
  have hstep := h.toVisit.step htree
  rw [← h.known.spelled.kids_eq hr0 hrN] at hfold h'
  rw [← hsame.kids] at hstep
  refine ⟨b', _, hfold, of_visit ?_ (hsame.kids ▸ hstep), hsame⟩
  rwa [← List.append_assoc]

/-- The whole outer loop: in the end all states are known. -/
theorem buildLoop_spec : ∀ (fuel : ℕ) {b : BnfaStruct U} {done queue : List ℕ},
    Queued b pats word N done queue → N ≤ fuel + done.length →
    ∃ b' done', buildLoop fuel b queue = some b' ∧ Queued b' pats word N done' [] ∧
      SameTrie b b' := by
  intro fuel
  induction fuel with
  | zero =>
    intro b done queue h hfuel
    cases queue with
    | nil => exact ⟨b, done, rfl, h, .refl b⟩
    | cons r queue =>
      have := h.length_lt
      simp only [List.length_append, List.length_cons] at this
      omega
  | succ fuel ih =>
    intro b done queue h hfuel
    cases queue with
    | nil => exact ⟨b, done, rfl, h, .refl b⟩
    | cons r queue =>
      obtain ⟨b₁, queue₁, hfold, h₁, hsame⟩ := h.visit
      obtain ⟨b', done', hloop, h', hsame'⟩ := ih h₁ (by
        rw [List.length_append, List.length_singleton]
        omega)
      refine ⟨b', done', ?_, h', hsame.trans hsame'⟩
      rw [buildLoop]
      simp only [hfold]
      exact hloop

end Queued

/-! ### The automaton -/

/-- The states behind state 0, in the order in which they are queued. -/
def firstStates (b : BnfaStruct U) : List ℕ := (alphabet.map b.zeroRow).filter (· ≠ 0)

theorem mem_firstStates {s : ℕ} :
    s ∈ firstStates b ↔ s ≠ 0 ∧ ∃ c, listGetNextState b 0 c = some s := by
  simp only [firstStates, List.mem_filter, List.mem_map, decide_eq_true_eq, listGetNextState,
    if_true, Option.some.injEq, mem_alphabet, true_and]
  exact and_comm

theorem Spelled.word_firstStates (h : Spelled b word N) {s : ℕ} (hs : s ∈ firstStates b) :
    0 < s ∧ s < N ∧ ∃ c, word s = [c] := by
  obtain ⟨h0, c, hc⟩ := mem_firstStates.1 hs
  obtain ⟨hN, hw⟩ := h.child 0 c s h.pos hc h0
  exact ⟨Nat.pos_of_ne_zero h0, hN, c, by rw [hw, h.zero, List.nil_append]⟩

theorem Spelled.nodup_firstStates (h : Spelled b word N) : (firstStates b).Nodup := by
  rw [firstStates, List.filter_map]
  refine List.Nodup.map_on ?_ (nodup_alphabet.filter _)
  intro c hc d _ heq
  have h0 : b.zeroRow c ≠ 0 := of_decide_eq_true (List.mem_filter.1 hc).2
  have hw := (h.child 0 c _ h.pos (by rw [listGetNextState, if_pos rfl]) h0).2.symm.trans
    (h.child 0 d _ h.pos (by rw [listGetNextState, if_pos rfl, heq]) h0).2
  simpa using List.append_cancel_left hw

/-- The trie as `_bnfa_build_nfa` starts with it. -/
def startNfa (b : BnfaStruct U) : BnfaStruct U :=
  { b with
    numStates := b.numStates + 1
    failState := fun s => if s ∈ firstStates b then 0 else 0 }

theorem Built.queued {pats : List (BnfaPattern U)} (h : Built b pats word) :
    Queued (startNfa b) pats word (b.numStates + 1) [] (firstStates b) := by
  have hsp := h.spelled
  have hzero : ∀ s, (startNfa b).failState s = 0 := fun s => ite_self 0
  refine ⟨⟨hsp.of_get fun _ _ => rfl, rfl, ?_, ?_, ?_, ?_, ?_, ?_, hzero 0⟩, ?_, ?_, ?_⟩
  · exact fun p hp => (h.words _).2 (Or.inr ⟨p, hp, List.prefix_refl _⟩)
  · exact hsp.nodup_firstStates
  · intro s hs
    obtain ⟨h0, hN, -⟩ := hsp.word_firstStates hs
    exact ⟨h0, hN⟩
  · intro s hs
    obtain ⟨-, -, c, hw⟩ := hsp.word_firstStates hs
    rw [FailLongest, hzero, hw]
    exact ⟨hsp.pos, hsp.zero⟩
  · intro s hs
    obtain ⟨-, hN, c, hw⟩ := hsp.word_firstStates hs
    intro p
    have hc : Words word (b.numStates + 1) [c] := ⟨s, hN, hw⟩
    rw [hw, reported_singleton hc, ← hw]
    exact (h.own s p).trans (and_iff_right hN)
  · intro s hs _ p
    exact (h.own s p).trans (and_iff_right hs)
  · intro r c s hr hn h0
    rcases hr with rfl | hr
    · exact mem_firstStates.2 ⟨h0, c, hn⟩
    · cases hr
  · intro s hs r c h0 hr hn
    obtain ⟨hs0, -, d, hw⟩ := hsp.word_firstStates hs
    have hw' := (hsp.child r c s hr hn hs0.ne').2
    have happ : [] ++ [d] = word r ++ [c] := hw.symm.trans hw'
    have hnil : word r = [] := (List.append_inj' happ rfl).1.symm
    exact absurd ((hsp.word_eq_nil hr).1 hnil) h0.ne'
  · refine List.pairwise_of_forall_mem_list fun s hs t ht => ?_
    obtain ⟨-, -, c, hw⟩ := hsp.word_firstStates hs
    obtain ⟨-, -, d, hw'⟩ := hsp.word_firstStates ht
    rw [hw, hw']
    exact ⟨le_rfl, Nat.le_succ _⟩

/-- A trie with match lists and fail states. -/
structure Nfa (b : BnfaStruct U) (pats : List (BnfaPattern U)) (word : ℕ → List UInt8) : Prop where
  spelled : Spelled b word b.numStates
  keys : KeysNodup b
  words : ∀ w, Words word b.numStates w ↔ w = [] ∨ ∃ p ∈ pats, w <+: upper p.casepatrn
  lists : ∀ s < b.numStates, Lists b pats word b.numStates s
  failZero : b.failState 0 = 0

/-- **`_bnfa_build_nfa` before the optimisation**: every fail state spells the longest proper suffix
in the trie, every match list holds the patterns that end in the word of its state. -/
theorem Built.buildLoop {pats : List (BnfaPattern U)} (h : Built b pats word) :
    ∃ b', buildLoop (startNfa b).numStates (startNfa b) (firstStates b) = some b' ∧
      SameTrie (startNfa b) b' ∧ Nfa b' pats word ∧
      ∀ s, 0 < s → s < b'.numStates → FailLongest b' word b'.numStates s := by
  obtain ⟨b', done, hloop, hq, hsame⟩ := Queued.buildLoop_spec (startNfa b).numStates h.queued
    (Nat.le_add_right _ _)
  have hN : b'.numStates = b.numStates + 1 := hq.known.numStates
  have hall : ∀ s, 0 < s → s < b'.numStates → s ∈ done ++ [] := by
    intro s h0 hs
    rw [List.append_nil]
    exact hq.toVisit.mem_done hq.known.spelled.layered (Finset.mem_range.2 (hN ▸ hs)) h0.ne'
  refine ⟨b', hloop, hsame, ⟨hN ▸ hq.known.spelled, ?_, hN ▸ h.words, ?_, hq.known.failZero⟩, ?_⟩
  · obtain ⟨_, _, rfl⟩ := hsame
    exact h.keys
  · intro s hs
    rw [hN]
    rcases Nat.eq_zero_or_pos s with rfl | h0
    · exact hq.known.lists_zero
    · exact hq.known.lists s (hall s h0 hs)
  · intro s h0 hs
    rw [hN]
    exact hq.known.fail s (hall s h0 hs)

end Snort.Bnfa
