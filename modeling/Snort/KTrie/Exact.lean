import Snort.KTrie.Search

/-!
# Which occurrences a search reports

Patterns are added one after the other and compiled; then texts are searched, with whatever earlier
searches left in the queue and in `Tnocase`.

* `Exact`: each occurrence of a pattern in the text is reported once, and nothing else; with the queue,
  exactly the patterns that occur;
* `Overrun`: a pattern that begins in the text stands in `Tnocase` across the end of the text, by at
  most as many characters as were shifted over before;
* **`ktrieSearch_exact_iff`**: a search is exact unless it uses shifts and there is an overrun.
-/

namespace Snort.KTrie

open Buffer BadCharacter

variable {I σ : Type*}

/-! ### Tries that are built -/

/-- The arguments of `KTrieAddPattern`. -/
structure Added (I : Type*) where
  P : List UInt8
  nocase : ℤ
  negative : ℤ
  id : I
  nonempty : P ≠ []

def addAll (method : KTrieMethod) (added : List (Added I)) : KTrieStruct I :=
  added.foldl (fun ts a => (ktrieAddPattern ts a.P a.nocase a.negative a.id).1) (ktrieNew method)

/-- The distinct patterns in lower case. -/
def lowered (added : List (Added I)) : Set (List UInt8) := {w | ∃ a ∈ added, a.P.map xlatcase = w}

/-- What `KTrieAddPattern` keeps. -/
structure Listed (method : KTrieMethod) (added : List (Added I)) (ts : KTrieStruct I) : Prop where
  root : ∀ c, ts.root c = .null
  method_eq : ts.method = method
  addr_lt : ∀ p ∈ ts.patrn, p.addr < ts.npats
  addr_inj : ∀ p ∈ ts.patrn, ∀ q ∈ ts.patrn, p.addr = q.addr → p = q
  words : ts.words = lowered added

theorem ktrieAddPattern_eq (ts : KTrieStruct I) (a : Added I) :
    ∃ pnew : KTriePattern I, pnew.addr = ts.npats ∧ pnew.P = a.P.map xlatcase ∧
      (ktrieAddPattern ts a.P a.nocase a.negative a.id).1 =
        { ts with patrn := pnew :: ts.patrn, npats := ts.npats + 1 } := by
  have hlen : ¬a.P.length < 1 := not_lt.2 (List.length_pos_iff.2 a.nonempty)
  unfold ktrieAddPattern ktrieNewPattern
  rw [dif_neg hlen]
  exact ⟨_, rfl, rfl, rfl⟩

theorem Listed.add {method : KTrieMethod} {added : List (Added I)} {ts : KTrieStruct I}
    (h : Listed method added ts) (a : Added I) :
    Listed method (added ++ [a]) (ktrieAddPattern ts a.P a.nocase a.negative a.id).1 := by
  obtain ⟨pnew, haddr, hP, heq⟩ := ktrieAddPattern_eq ts a
  rw [heq]
  constructor
  · exact h.root
  · exact h.method_eq
  · intro p hp
    rcases List.mem_cons.1 hp with rfl | hp
    · exact haddr.trans_lt (Nat.lt_succ_self _)
    · exact (h.addr_lt p hp).trans (Nat.lt_succ_self _)
  · intro p hp q hq hpq
    rcases List.mem_cons.1 hp with rfl | hp'
    · rcases List.mem_cons.1 hq with rfl | hq'
      · rfl
      · exact absurd (hpq.symm.trans haddr) (h.addr_lt q hq').ne
    · rcases List.mem_cons.1 hq with rfl | hq'
      · exact absurd (hpq.trans haddr) (h.addr_lt p hp').ne
      · exact h.addr_inj p hp' q hq' hpq
  · ext w
    have hw : w ∈ ts.words ↔ w ∈ lowered added := by rw [h.words]
    simp only [KTrieStruct.words, lowered, Set.mem_ofPred_eq, List.mem_cons, List.mem_append,
      List.not_mem_nil, or_false] at hw ⊢
    constructor
    · rintro ⟨p, rfl | hp, hpw⟩
      · exact ⟨a, .inr rfl, hP.symm.trans hpw⟩
      · obtain ⟨b, hb, hbw⟩ := hw.1 ⟨p, hp, hpw⟩
        exact ⟨b, .inl hb, hbw⟩
    · rintro ⟨b, hb | rfl, hbw⟩
      · obtain ⟨p, hp, hpw⟩ := hw.2 ⟨b, hb, hbw⟩
        exact ⟨p, .inr hp, hpw⟩
      · exact ⟨pnew, .inl rfl, hP.trans hbw⟩

theorem listed_addAll (method : KTrieMethod) (added : List (Added I)) :
    Listed method added (addAll method added) := by
  induction added using List.reverseRecOn with
  | nil =>
    constructor
    · exact fun c => rfl
    · rfl
    · exact List.forall_mem_nil _
    · exact List.forall_mem_nil _
    · ext w
      simp [KTrieStruct.words, lowered, addAll, ktrieNew]
  | append_singleton added a ih =>
    unfold addAll
    rw [List.foldl_append]
    exact ih.add a

/-- The trie for the patterns, with `q` left in its queue. -/
def compiled (method : KTrieMethod) (added : List (Added I)) (q : List (KTriePattern I)) :
    KTrieStruct I := { ktrieCompile (addAll method added) with q := q }

/-! ### What a search should report -/

/-- A pattern in lower case occurs in the text. -/
def OccursIn (T : List UInt8) (i : ℕ) (w : List UInt8) : Prop :=
  i + w.length ≤ T.length ∧ ((T.drop i).take w.length).map xlatcase = w

/-- The calls that a search makes. -/
def matchCalls (kt : KTrieStruct I) (Tnocase : ℕ → UInt8) (T : List UInt8) (onMatch : Match I σ)
    (data : σ) : List (KTriePattern I × ℤ) :=
  (ktrieSearch kt Tnocase T (logged onMatch) (data, [])).2.2.2.2

/-- The calls that there should be. -/
def Exact (method : KTrieMethod) (added : List (Added I)) (T : List UInt8)
    (calls : List (KTriePattern I × ℤ)) : Prop :=
  match method with
  | .std => (reports calls).Nodup ∧
      ∀ i w, (i, w) ∈ reports calls ↔ ∃ j : ℕ, i = j ∧ w ∈ lowered added ∧ OccursIn T j w
  | .queue => ∀ w, (∃ p ∈ keywords calls, p.P = w) ↔ w ∈ lowered added ∧ ∃ j, OccursIn T j w

/-- A pattern begins where the search stops and stands in `Tnocase` across the end of the text, by at
most what was shifted over before. -/
def Overrun (kt : KTrieStruct I) (added : List (Added I)) (Tnocase : ℕ → UInt8) (T : List UInt8) :
    Prop :=
  let buf := convertCaseEx Tnocase T
  ∃ i shifted, (i, shifted) ∈ stops (jump kt.bcSize kt.bcShift buf) (T.length - kt.bcSize) 0 0 ∧
    ∃ w ∈ lowered added, T.length < i + w.length ∧ i + w.length ≤ T.length + shifted ∧ At buf i w

theorem occursIn_iff (Tnocase : ℕ → UInt8) (T : List UInt8) (i : ℕ) (w : List UInt8) :
    OccursIn T i w ↔ i + w.length ≤ T.length ∧ At (convertCaseEx Tnocase T) i w := by
  have hread : i + w.length ≤ T.length →
      readBuf (convertCaseEx Tnocase T) i w.length = ((T.drop i).take w.length).map xlatcase := by
    intro hle
    have hall := readBuf_write Tnocase 0 (T.map xlatcase)
    rw [List.length_map] at hall
    calc readBuf (convertCaseEx Tnocase T) i w.length
        = readBuf (convertCaseEx Tnocase T) (0 + i) w.length := by rw [Nat.zero_add]
      _ = (readBuf (convertCaseEx Tnocase T) (0 + i) (T.length - i)).take w.length :=
          (take_readBuf _ _ (by omega)).symm
      _ = ((readBuf (convertCaseEx Tnocase T) 0 T.length).drop i).take w.length := by
          rw [drop_readBuf _ _ (by omega)]
      _ = ((T.map xlatcase).drop i).take w.length := by rw [convertCaseEx, hall]
      _ = ((T.drop i).take w.length).map xlatcase := by rw [List.map_take, List.map_drop]
  unfold OccursIn At
  constructor
  · rintro ⟨hle, hw⟩
    exact ⟨hle, (hread hle).trans hw⟩
  · rintro ⟨hle, hw⟩
    exact ⟨hle, (hread hle).symm.trans hw⟩

/-! ### Exact searches -/

section Compiled

variable (method : KTrieMethod) (added : List (Added I)) (q : List (KTriePattern I))

theorem patrn_compiled : (compiled method added q).patrn = (addAll method added).patrn :=
  patrn_foldl_ktrieInsert ..

theorem compiled_compiled : Compiled (compiled method added q) := by
  have h := compiled_ktrieCompile (listed_addAll method added).root
  exact ⟨h.mem_find, h.bcSize, h.safe⟩

theorem words_compiled : (compiled method added q).words = lowered added := by
  rw [← (listed_addAll method added).words, KTrieStruct.words, patrn_compiled]
  rfl

theorem method_compiled : (compiled method added q).method = method := by
  have hfold : ∀ (patrn : List (KTriePattern I)) (ts : KTrieStruct I),
      (patrn.foldl ktrieInsert ts).method = ts.method := by
    intro patrn
    induction patrn with
    | nil => exact fun ts => rfl
    | cons p patrn ih => exact fun ts => ih (ktrieInsert ts p)
  exact (hfold _ _).trans (listed_addAll method added).method_eq

/-- The search goes without shifts if a pattern has less than three characters. -/
theorem bcSize_compiled_lt_iff : (compiled method added q).bcSize < 3 ↔ ∃ a ∈ added, a.P.length < 3 := by
  have hlist := listed_addAll method added
  rw [(compiled_compiled method added q).bcSize, patrn_compiled, minPatternSize_lt_iff]
  constructor
  · rintro ⟨p, hp, hn⟩
    have hw : p.P ∈ (addAll method added).words := ⟨p, hp, rfl⟩
    rw [hlist.words] at hw
    obtain ⟨a, ha, haP⟩ := hw
    refine ⟨a, ha, ?_⟩
    rw [KTriePattern.n, ← haP, List.length_map] at hn
    exact hn
  · rintro ⟨a, ha, hn⟩
    have hw : a.P.map xlatcase ∈ lowered added := ⟨a, ha, rfl⟩
    rw [← hlist.words] at hw
    obtain ⟨p, hp, hpP⟩ := hw
    refine ⟨p, hp, ?_⟩
    rw [KTriePattern.n, hpP, List.length_map]
    exact hn

end Compiled

variable {method : KTrieMethod} {added : List (Added I)} {q : List (KTriePattern I)}
variable {Tnocase : ℕ → UInt8} {T : List UInt8} {onMatch : Match I σ}

/-- The calls of the search without shifts. -/
theorem matchCalls_noBC (h : Continues onMatch) (hsize : (compiled .std added q).bcSize < 3) (data : σ) :
    matchCalls (compiled .std added q) Tnocase T onMatch data =
      found (compiled .std added q) (convertCaseEx Tnocase T) (allVisits T.length 0) := by
  unfold matchCalls ktrieSearch
  simp only [method_compiled, if_pos hsize, ktrieSearchNoBC, searchNoBCLoop_eq h.logged, callAll_logged,
    List.nil_append]

/-- The calls of the search with shifts. -/
theorem matchCalls_bc (h : Continues onMatch) (hsize : ¬(compiled .std added q).bcSize < 3) (data : σ) :
    matchCalls (compiled .std added q) Tnocase T onMatch data =
      found (compiled .std added q) (convertCaseEx Tnocase T)
        (bcVisits (compiled .std added q) (convertCaseEx Tnocase T) T.length
          (T.length - (compiled .std added q).bcSize) 0 0) := by
  have hlast : (T.length : ℤ) - (compiled .std added q).bcSize < T.length := by omega
  unfold matchCalls ktrieSearch
  simp only [method_compiled, if_neg hsize, ktrieSearchBC]
  rw [searchBCLoop_eq h.logged hlast 0 T.length 0 0 (data, []) rfl, callAll_logged, List.nil_append]

/-- A visit of all offsets finds what occurs in the text. -/
theorem mem_reports_allVisits (method : KTrieMethod) {i : ℤ} {w : List UInt8} :
    (i, w) ∈ reports (found (compiled method added q) (convertCaseEx Tnocase T) (allVisits T.length 0)) ↔
      ∃ j : ℕ, i = j ∧ w ∈ lowered added ∧ OccursIn T j w := by
  rw [mem_reports_found (compiled_compiled method added q), words_compiled]
  constructor
  · rintro ⟨v, hv, hi, hw, hle, hat⟩
    obtain ⟨j, hj, rfl⟩ := List.mem_map.1 hv
    rw [List.mem_range] at hj
    simp only [Nat.zero_add] at hi hle hat
    exact ⟨j, hi, hw, (occursIn_iff Tnocase T j w).2 ⟨by omega, hat⟩⟩
  · rintro ⟨j, hi, hw, hocc⟩
    obtain ⟨hle, hat⟩ := (occursIn_iff Tnocase T j w).1 hocc
    have hpos : 0 < w.length := by
      obtain ⟨a, -, rfl⟩ := hw
      rw [List.length_map]
      exact List.length_pos_iff.2 a.nonempty
    refine ⟨(0 + j, T.length - j), List.mem_map.2 ⟨j, List.mem_range.2 (by omega), rfl⟩, ?_⟩
    simp only [Nat.zero_add]
    exact ⟨hi, hw, by omega, hat⟩

/-- A search without shifts is exact. -/
theorem exact_noBC (h : Continues onMatch) (hsize : (compiled .std added q).bcSize < 3) (data : σ) :
    Exact .std added T (matchCalls (compiled .std added q) Tnocase T onMatch data) := by
  have hc := compiled_compiled .std added q
  rw [matchCalls_noBC h hsize]
  exact ⟨nodup_reports_found hc _ (pairwise_allVisits ..), fun i w => mem_reports_allVisits .std⟩

/-- A search with shifts is exact unless there is an overrun. -/
theorem exact_bc_iff (h : Continues onMatch) (hsize : ¬(compiled .std added q).bcSize < 3) (data : σ) :
    Exact .std added T (matchCalls (compiled .std added q) Tnocase T onMatch data) ↔
      ¬Overrun (compiled .std added q) added Tnocase T := by
  have hc := compiled_compiled .std added q
  have hwords := words_compiled .std added q
  rw [matchCalls_bc h hsize]
  constructor
  · rintro ⟨-, hall⟩ ⟨i, shifted, hstop, w, hw, hlt, hle, hat⟩
    have hmem := of_mem_stops hstop
    obtain ⟨j, hj, -, hocc⟩ := (hall i w).1 ((mem_reports_found hc).2
      ⟨(i, T.length + shifted - i), List.mem_map.2 ⟨_, hstop, rfl⟩, rfl, by rwa [hwords], by omega, hat⟩)
    have hend := hocc.1
    omega
  · intro hno
    refine ⟨nodup_reports_found hc _ (pairwise_bcVisits ..), ?_⟩
    intro i w
    rw [mem_reports_found hc, hwords]
    constructor
    · rintro ⟨v, hv, hi, hw, hle, hat⟩
      obtain ⟨⟨j, shifted⟩, hj, rfl⟩ := List.mem_map.1 hv
      have hmem := of_mem_stops hj
      simp only at hi hle hat hmem
      refine ⟨j, hi, hw, (occursIn_iff Tnocase T j w).2 ⟨?_, hat⟩⟩
      by_contra hlt
      exact hno ⟨j, shifted, hj, w, hw, by omega, by omega, hat⟩
    · rintro ⟨j, hi, hw, hocc⟩
      obtain ⟨hle, hat⟩ := (occursIn_iff Tnocase T j w).1 hocc
      rw [← hwords] at hw
      have hlen := hc.safe.le_length w hw
      obtain ⟨shifted, hstop⟩ := hc.safe.mem_stops hw hat
        (show (j : ℤ) ≤ T.length - (compiled .std added q).bcSize by omega) 0 0 (Nat.zero_le j)
      refine ⟨_, List.mem_map.2 ⟨_, hstop, rfl⟩, hi, by rwa [← hwords], ?_, hat⟩
      simp only
      omega

/-- The queue is filled from the text itself, as if it were copied over `xlatcase 0`. -/
theorem convertCaseEx_getD (T : List UInt8) :
    convertCaseEx (fun _ => xlatcase 0) T = fun i => xlatcase (T.getD i 0) := by
  funext i
  unfold convertCaseEx write
  rw [if_pos (Nat.zero_le i), Nat.sub_zero, List.getD_eq_getElem?_getD, List.getD_eq_getElem?_getD,
    List.getElem?_map]
  cases T[i]? with
  | none => rfl
  | some c => rfl

theorem mem_patrn_of_found {kt : KTrieStruct I} (hc : Compiled kt) {buf : ℕ → UInt8}
    {visits : List (ℕ × ℕ)} {p : KTriePattern I} (hp : p ∈ keywords (found kt buf visits)) :
    p ∈ kt.patrn := by
  obtain ⟨c, hmem, rfl⟩ := List.mem_map.1 hp
  obtain ⟨v, -, hv⟩ := List.mem_flatMap.1 hmem
  have hhead := ((mem_hits_root hc).1 hv).2.2.2
  exact ((hc.mem_find c.1 c.1.P).1 (List.mem_of_mem_head? hhead)).1

/-- The words of the keywords. -/
theorem exists_mem_keywords_iff (calls : List (KTriePattern I × ℤ)) (w : List UInt8) :
    (∃ p ∈ keywords calls, p.P = w) ↔ ∃ i, (i, w) ∈ reports calls := by
  unfold keywords reports
  constructor
  · rintro ⟨p, hp, rfl⟩
    obtain ⟨c, hc, rfl⟩ := List.mem_map.1 hp
    exact ⟨c.2, List.mem_map.2 ⟨c, hc, rfl⟩⟩
  · rintro ⟨i, hi⟩
    obtain ⟨c, hc, heq⟩ := List.mem_map.1 hi
    exact ⟨c.1, List.mem_map.2 ⟨c, hc, rfl⟩, (Prod.mk.inj heq).2⟩

/-- A search with the queue is exact. -/
theorem exact_queue (h : Continues onMatch) (data : σ) :
    Exact .queue added T (matchCalls (compiled .queue added q) Tnocase T onMatch data) := by
  have hc := compiled_compiled .queue added q
  have hinj := (listed_addAll .queue added).addr_inj
  rw [← patrn_compiled .queue added q] at hinj
  intro w
  unfold matchCalls ktrieSearch
  simp only [method_compiled, ktrieSearchQ, searchQLoop_eq h.logged, ← convertCaseEx_getD]
  have hmem := fun buf visits => mem_processed h
    (fun p p' (hp : p ∈ keywords (found _ buf visits)) hp' => hinj p (mem_patrn_of_found hc hp) p'
      (mem_patrn_of_found hc hp')) data
  simp only [hmem, exists_mem_keywords_iff, mem_reports_allVisits]
  constructor
  · rintro ⟨i, j, -, hw, hocc⟩
    exact ⟨hw, j, hocc⟩
  · rintro ⟨hw, j, hocc⟩
    exact ⟨j, j, rfl, hw, hocc⟩

/-- **A search reports the occurrences exactly**, unless it uses shifts and there is an overrun. -/
theorem ktrieSearch_exact_iff (method : KTrieMethod) (added : List (Added I)) (q : List (KTriePattern I))
    (Tnocase : ℕ → UInt8) (T : List UInt8) (onMatch : Match I σ)
    (h : ∀ pk i data, (onMatch pk i data).1 ≤ 0) (data : σ) :
    Exact method added T (matchCalls (compiled method added q) Tnocase T onMatch data) ↔
      (method = .std → (∀ a ∈ added, 3 ≤ a.P.length) →
        ¬Overrun (compiled method added q) added Tnocase T) := by
  cases method with
  | queue => exact ⟨fun _ hstd => absurd hstd (by decide), fun _ => exact_queue h data⟩
  | std =>
    by_cases hsize : (compiled .std added q).bcSize < 3
    · obtain ⟨a, ha, hlt⟩ := (bcSize_compiled_lt_iff .std added q).1 hsize
      exact ⟨fun _ _ hall => absurd (hall a ha) (not_le.2 hlt), fun _ => exact_noBC h hsize data⟩
    · have hall : ∀ a ∈ added, 3 ≤ a.P.length := fun a ha =>
        not_lt.1 fun hlt => hsize ((bcSize_compiled_lt_iff .std added q).2 ⟨a, ha, hlt⟩)
      rw [exact_bc_iff h hsize]
      exact ⟨fun hno _ _ => hno, fun hno => hno rfl hall⟩

/-- A callback that returns zero. -/
def ignoreMatch : Match Unit Unit := fun _ _ data => (0, data)

theorem ktrieSearch_exact_short :
    Exact .std [⟨[97, 98], 0, 0, (), by decide⟩, ⟨[97, 98, 99], 0, 0, (), by decide⟩] [120, 97, 98, 99]
      (matchCalls (compiled .std
        [⟨[97, 98], 0, 0, (), by decide⟩, ⟨[97, 98, 99], 0, 0, (), by decide⟩] []) (fun _ => 0)
        [120, 97, 98, 99] ignoreMatch ()) :=
  (ktrieSearch_exact_iff .std _ [] (fun _ => 0) [120, 97, 98, 99] ignoreMatch
    (fun _ _ _ => le_refl 0) ()).2
    fun _ hall => absurd (hall _ List.mem_cons_self) (by decide)

/-! ### A keyword that is completed by an earlier text -/

/-- The patterns `abc` and `abcdef`. -/
def abcPatterns : List (Added Unit) :=
  [⟨[97, 98, 99], 0, 0, (), by decide⟩, ⟨[97, 98, 99, 100, 101, 102], 0, 0, (), by decide⟩]

/-- `Tnocase` after a search of `zzzzabcdef`. -/
def tnocaseAfter : ℕ → UInt8 :=
  (ktrieSearch (compiled .std abcPatterns []) (fun _ => 0)
    [122, 122, 122, 122, 97, 98, 99, 100, 101, 102] ignoreMatch ()).2.1

/-- The text `zzzzabc`. -/
def shortText : List UInt8 := [122, 122, 122, 122, 97, 98, 99]

/-- The search of `zzzzabc` reports `abcdef`, the end of which is left from the text before. -/
theorem staleTail_reported :
    ¬Exact .std abcPatterns shortText
      (matchCalls (compiled .std abcPatterns []) tnocaseAfter shortText ignoreMatch ()) := by
  have hsize : (compiled .std abcPatterns []).bcSize = 3 := by decide
  have hmem : tnocaseAfter = convertCaseEx (fun _ => 0)
      [122, 122, 122, 122, 97, 98, 99, 100, 101, 102] := by
    unfold tnocaseAfter ktrieSearch
    simp only [method_compiled, hsize]
    rfl
  rw [exact_bc_iff (fun _ _ _ => le_refl 0) (by rw [hsize]; decide), not_not, hmem]
  have h0 : jump 3 (compiled .std abcPatterns []).bcShift (convertCaseEx (convertCaseEx (fun _ => 0)
      [122, 122, 122, 122, 97, 98, 99, 100, 101, 102]) shortText) 0 = 3 := by decide
  have h3 : jump 3 (compiled .std abcPatterns []).bcShift (convertCaseEx (convertCaseEx (fun _ => 0)
      [122, 122, 122, 122, 97, 98, 99, 100, 101, 102]) shortText) 3 = 1 := by decide
  have h4 : jump 3 (compiled .std abcPatterns []).bcShift (convertCaseEx (convertCaseEx (fun _ => 0)
      [122, 122, 122, 122, 97, 98, 99, 100, 101, 102]) shortText) 4 = 0 := by decide
  refine ⟨4, 4, ?_, [97, 98, 99, 100, 101, 102], ⟨_, List.mem_cons_of_mem _ List.mem_cons_self, rfl⟩,
    by decide, by decide, by unfold At; decide⟩
  rw [hsize, stops_shift 0 (by decide) (by rw [h0]; decide), h0,
    stops_shift 3 (by decide) (by rw [h3]; decide), h3, stops_stop 4 (by decide) h4]
  exact List.mem_cons_self

end Snort.KTrie
