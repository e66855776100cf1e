import Snort.KTrie.Trie

/-!
# Searching for all keywords

The callback is assumed never to return a positive value (`Continues`).

* `callAll`: calls made one after the other; `prefixMatchLoop_eq`, `searchNoBCLoop_eq`,
  `searchBCLoop_eq`: each loop makes the calls for what it finds, `found`, at the offsets it visits;
* `logged`: a callback with a list of its calls, and `matchCalls`: the calls of a search;
* **`mem_reports_found`**, **`nodup_reports_found`**: what is reported for the visited offsets.

What is found is put into a queue of different keywords, which is processed when it is full and at the
end.

* `queueAll`: keywords put into the queue; `searchQLoop_eq`: the search does this for all that is found;
* `Queued`: the keywords so far are in the queue or have been reported, `Queued.queueKeyword`;
* **`mem_processed`**: at the end exactly these keywords have been reported.
-/

namespace Snort.KTrie

section

open Buffer BadCharacter

variable {I σ : Type*}

/-! ### The calls that the loops make -/

/-- A callback that never returns a positive value. -/
def Continues (onMatch : Match I σ) : Prop := ∀ pk i data, (onMatch pk i data).1 ≤ 0

/-- Calls made one after the other. -/
def callAll (onMatch : Match I σ) (calls : List (KTriePattern I × ℤ)) (data : σ) : σ :=
  calls.foldl (fun d c => (onMatch c.1 c.2 d).2) data

theorem callAll_append (onMatch : Match I σ) (a b : List (KTriePattern I × ℤ)) (data : σ) :
    callAll onMatch (a ++ b) data = callAll onMatch b (callAll onMatch a data) :=
  List.foldl_append

variable {onMatch : Match I σ}

theorem prefixMatchLoop_eq (h : Continues onMatch) (buf : ℕ → UInt8) (t : KTrieNode I)
    (T n nfound : ℕ) (data : σ) :
    prefixMatchLoop onMatch buf t T n nfound data =
      (nfound + (hits t buf T n).length, callAll onMatch (hits t buf T n) data) := by
  induction t generalizing T n nfound data with
  | null =>
    rw [hits_null]
    rfl
  | node edge pkeyword child sibling ihchild ihsibling =>
    rw [prefixMatchLoop.eq_def]
    cases n with
    | zero => rfl
    | succ n =>
      simp only [Nat.add_one_ne_zero, if_false]
      by_cases hedge : edge = buf T
      · rw [if_pos hedge, hits_node_eq pkeyword child sibling n hedge]
        cases pkeyword with
        | nil => exact ihchild ..
        | cons pk l =>
          simp only [if_neg (not_lt.2 (h pk _ data)), ihchild, Nat.add_sub_cancel, List.head?_cons,
            Option.map_some, Option.toList_some, List.singleton_append, List.length_cons]
          rw [Nat.add_assoc, Nat.add_comm 1]
          rfl
      · rw [if_neg hedge, hits_node_ne pkeyword child sibling _ hedge]
        exact ihsibling ..

/-- What is found at offsets, with a limit for each of them. -/
def found (kt : KTrieStruct I) (buf : ℕ → UInt8) (visits : List (ℕ × ℕ)) :
    List (KTriePattern I × ℤ) :=
  visits.flatMap fun v => hits (kt.root (buf v.1)) buf v.1 v.2

theorem found_cons (kt : KTrieStruct I) (buf : ℕ → UInt8) (v : ℕ × ℕ) (visits : List (ℕ × ℕ)) :
    found kt buf (v :: visits) = hits (kt.root (buf v.1)) buf v.1 v.2 ++ found kt buf visits :=
  List.flatMap_cons

/-- A round of a search. -/
theorem ktriePrefixMatch_eq (h : Continues onMatch) (kt : KTrieStruct I) (buf : ℕ → UInt8)
    (T n : ℕ) (data : σ) :
    ktriePrefixMatch kt onMatch buf T n data =
      ((hits (kt.root (buf T)) buf T n).length, callAll onMatch (hits (kt.root (buf T)) buf T n) data) := by
  rw [ktriePrefixMatch, prefixMatchLoop_eq h, Nat.zero_add]

/-- All offsets from `T` on, each with the characters that are left. -/
def allVisits (n T : ℕ) : List (ℕ × ℕ) := (List.range n).map fun i => (T + i, n - i)

theorem allVisits_succ (n T : ℕ) : allVisits (n + 1) T = (T, n + 1) :: allVisits n (T + 1) := by
  unfold allVisits
  rw [List.range_succ_eq_map, List.map_cons, List.map_map]
  congr 1
  apply List.map_congr_left
  intro i _
  simp only [Function.comp_apply, Nat.succ_eq_add_one, Prod.mk.injEq]
  omega

theorem searchNoBCLoop_eq (h : Continues onMatch) (kt : KTrieStruct I) (buf : ℕ → UInt8)
    (n T nfound : ℕ) (data : σ) :
    searchNoBCLoop kt onMatch buf n T nfound data =
      (nfound + (found kt buf (allVisits n T)).length,
        callAll onMatch (found kt buf (allVisits n T)) data) := by
  induction n generalizing T nfound data with
  | zero => rfl
  | succ n ih =>
    rw [searchNoBCLoop, ktriePrefixMatch_eq h, ih, allVisits_succ, found_cons, callAll_append,
      List.length_append, Nat.add_assoc]

section Shifts

variable {ks : KTrieStruct I} {buf : ℕ → UInt8} {Tend : ℤ}

/-- The shifts behind the last window. -/
theorem stops_of_skipLoop_eq_none {T : ℕ} (hle : (T : ℤ) ≤ Tend) (k : ℕ)
    (h : skipLoop ks buf Tend T = none) :
    stops (jump ks.bcSize ks.bcShift buf) Tend T k = [] := by
  fun_induction skipLoop ks buf Tend T generalizing k with
  | case1 T tshift hpos hend =>
    rw [stops_shift k hle (Nat.ne_of_gt hpos)]
    exact stops_of_lt _ hend
  | case2 T tshift hpos hend ih =>
    rw [stops_shift k hle (Nat.ne_of_gt hpos)]
    exact ih (not_lt.1 hend) _ h
  | case3 T tshift hpos => cases h

/-- The shifts to the next stop. -/
theorem stops_of_skipLoop_eq_some {T T' : ℕ} (hle : (T : ℤ) ≤ Tend) (k : ℕ)
    (h : skipLoop ks buf Tend T = some T') :
    (T' : ℤ) ≤ Tend ∧ stops (jump ks.bcSize ks.bcShift buf) Tend T k =
      (T', k + (T' - T)) :: stops (jump ks.bcSize ks.bcShift buf) Tend (T' + 1) (k + (T' - T)) := by
  fun_induction skipLoop ks buf Tend T generalizing k with
  | case1 T tshift hpos hend => cases h
  | case2 T tshift hpos hend ih =>
    have hT' := le_of_skipLoop h
    obtain ⟨hend', hstops⟩ := ih (not_lt.1 hend) (k + tshift) h
    have hk : k + tshift + (T' - (T + tshift)) = k + (T' - T) := by omega
    rw [hk] at hstops
    exact ⟨hend', (stops_shift k hle (Nat.ne_of_gt hpos)).trans hstops⟩
  | case3 T tshift hpos =>
    cases h
    rw [Nat.sub_self, Nat.add_zero]
    exact ⟨hle, stops_stop k hle (Nat.eq_zero_of_not_pos hpos)⟩

/-- The offsets at which a search of `n` characters with shifts stops.  The shifts are missing from what
is counted off `n`. -/
def bcVisits (ks : KTrieStruct I) (buf : ℕ → UInt8) (n : ℕ) (Tend : ℤ) (T k : ℕ) : List (ℕ × ℕ) :=
  (stops (jump ks.bcSize ks.bcShift buf) Tend T k).map fun p => (p.1, n + p.2 - p.1)

theorem searchBCLoop_eq (h : Continues onMatch) {N : ℕ} (hN : Tend < N) (T n nfound k : ℕ) (data : σ)
    (hn : n + T = N + k) :
    searchBCLoop ks onMatch buf Tend T n nfound data =
      (nfound + (found ks buf (bcVisits ks buf N Tend T k)).length,
        callAll onMatch (found ks buf (bcVisits ks buf N Tend T k)) data) := by
  fun_induction searchBCLoop ks onMatch buf Tend T n nfound data generalizing k with
  | case1 T n nfound data hle hskip =>
    rw [bcVisits, stops_of_skipLoop_eq_none hle k hskip]
    rfl
  | case2 T n nfound data hle T' hskip hT' r ih =>
    obtain ⟨hend, hstops⟩ := stops_of_skipLoop_eq_some hle k hskip
    have hlimit : N + (k + (T' - T)) - T' = n := by omega
    have hr : r = _ := ktriePrefixMatch_eq h ks buf T' n data
    rw [ih (k + (T' - T)) (by omega), hr, bcVisits, bcVisits, hstops, List.map_cons, found_cons,
      callAll_append, List.length_append, Nat.add_assoc, hlimit]
  | case3 T n nfound data hle =>
    rw [bcVisits, stops_of_lt k (not_le.1 hle)]
    rfl

end Shifts

/-! ### What is reported -/

/-- The index and the keyword of each call. -/
def reports (calls : List (KTriePattern I × ℤ)) : List (ℤ × List UInt8) :=
  calls.map fun c => (c.2, c.1.P)

variable {kt : KTrieStruct I}

/-- What is found from the root on has its keyword at `T`. -/
theorem mem_hits_root (h : Compiled kt) {buf : ℕ → UInt8} {T n : ℕ} {c : KTriePattern I × ℤ} :
    c ∈ hits (kt.root (buf T)) buf T n ↔
      c.2 = T ∧ c.1.n ≤ n ∧ At buf T c.1.P ∧ (kt.find c.1.P).head? = some c.1 := by
  have hroot : ∀ k, kt.find (readBuf buf T (k + 1)) =
      (kt.root (buf T)).find (readBuf buf T (k + 1)) := by
    intro k
    rw [KTrieStruct.find, readBuf_succ]
    rfl
  unfold hits
  rw [List.mem_filterMap]
  constructor
  · rintro ⟨k, hk, hc⟩
    rw [List.mem_range] at hk
    obtain ⟨pk, hpk, rfl⟩ := Option.map_eq_some_iff.1 hc
    rw [← hroot] at hpk
    have hP := ((h.mem_find pk _).1 (List.mem_of_mem_head? hpk)).2
    have hn : pk.n = k + 1 := by rw [KTriePattern.n, hP, length_readBuf]
    refine ⟨?_, hn.le.trans hk, ?_, by rw [hP, hpk]⟩
    · simp only [hn]
      omega
    · rw [At, hP, length_readBuf]
  · rintro ⟨hT, hn, hat, hhead⟩
    obtain ⟨k, hk⟩ := Nat.exists_eq_add_of_le' c.1.n_pos
    refine ⟨k, List.mem_range.2 (by omega), ?_⟩
    have hP : readBuf buf T (k + 1) = c.1.P := by
      rw [← hk]
      exact hat
    rw [← hroot, hP, hhead, Option.map_some]
    refine congrArg some (Prod.ext rfl ?_)
    simp only [hT, hk]
    omega

/-- **What is reported** for the visited offsets. -/
theorem mem_reports_found (h : Compiled kt) {buf : ℕ → UInt8} {visits : List (ℕ × ℕ)} {i : ℤ}
    {w : List UInt8} :
    (i, w) ∈ reports (found kt buf visits) ↔
      ∃ v ∈ visits, i = v.1 ∧ w ∈ kt.words ∧ w.length ≤ v.2 ∧ At buf v.1 w := by
  unfold reports found
  simp only [List.mem_map, List.mem_flatMap, mem_hits_root h]
  constructor
  · rintro ⟨c, ⟨v, hv, hi, hn, hat, hhead⟩, hc⟩
    obtain ⟨rfl, rfl⟩ := Prod.mk.inj hc
    have hmem := (h.mem_find c.1 c.1.P).1 (List.mem_of_mem_head? hhead)
    exact ⟨v, hv, hi, ⟨c.1, hmem⟩, hn, hat⟩
  · rintro ⟨v, hv, hi, ⟨p, hp⟩, hn, hat⟩
    have hmem := (h.mem_find p w).2 hp
    cases hfind : kt.find w with
    | nil =>
      rw [hfind] at hmem
      cases hmem
    | cons pk l =>
      have hpk := ((h.mem_find pk w).1 (by rw [hfind]; exact List.mem_cons_self)).2
      subst hpk
      exact ⟨(pk, i), ⟨v, hv, hi, hn, hat, by rw [hfind, List.head?_cons]⟩, rfl⟩

theorem nodup_hits (t : KTrieNode I) (buf : ℕ → UInt8) (T n : ℕ) : (hits t buf T n).Nodup := by
  apply List.Nodup.filterMap _ List.nodup_range
  intro j k c hj hk
  obtain ⟨p, -, rfl⟩ := Option.map_eq_some_iff.1 hj
  obtain ⟨q, -, hq⟩ := Option.map_eq_some_iff.1 hk
  obtain ⟨rfl, hoff⟩ := Prod.mk.inj hq
  omega

/-- **Nothing is reported twice.** -/
theorem nodup_reports_found (h : Compiled kt) (buf : ℕ → UInt8) {visits : List (ℕ × ℕ)}
    (hvisits : visits.Pairwise fun u v => u.1 < v.1) : (reports (found kt buf visits)).Nodup := by
  unfold reports found
  rw [List.map_flatMap]
  apply List.nodup_flatMap.2
  constructor
  · intro v _
    apply List.Nodup.map_on _ (nodup_hits ..)
    intro c hc d hd heq
    obtain ⟨hi, hP⟩ := Prod.mk.inj heq
    have hc' := ((mem_hits_root h).1 hc).2.2.2
    have hd' := ((mem_hits_root h).1 hd).2.2.2
    rw [hP, hd'] at hc'
    exact Prod.ext (Option.some.inj hc').symm hi
  · apply hvisits.imp
    intro u v huv
    rw [Function.onFun, List.disjoint_left]
    intro r hu hv
    obtain ⟨c, hc, rfl⟩ := List.mem_map.1 hu
    obtain ⟨d, hd, heq⟩ := List.mem_map.1 hv
    have hcu := ((mem_hits_root h).1 hc).1
    have hdv := ((mem_hits_root h).1 hd).1
    have hcd := (Prod.mk.inj heq).1
    omega

theorem pairwise_allVisits (n T : ℕ) : (allVisits n T).Pairwise fun u v => u.1 < v.1 := by
  apply List.pairwise_map.2
  exact List.pairwise_lt_range.imp fun hlt => Nat.add_lt_add_left hlt T

theorem pairwise_bcVisits (buf : ℕ → UInt8) (n : ℕ) (Tend : ℤ) (T k : ℕ) :
    (bcVisits kt buf n Tend T k).Pairwise fun u v => u.1 < v.1 :=
  List.pairwise_map.2 (pairwise_stops T k)

end

/-! ## The queue of keywords -/

open Buffer

variable {I σ : Type*} {onMatch : Match I σ}

theorem processQueue_eq (h : Continues onMatch) (q : List (KTriePattern I)) (data : σ) :
    processQueue onMatch q data = (false, callAll onMatch (q.map fun p => (p, 0)) data) := by
  induction q generalizing data with
  | nil => rfl
  | cons p q ih =>
    simp only [processQueue, if_neg (not_lt.2 (h p 0 data)), ih]
    rfl

/-- Keywords put into the queue one after the other. -/
def queueAll (onMatch : Match I σ) (s : List (KTriePattern I) × σ) (l : List (KTriePattern I × ℤ)) :
    List (KTriePattern I) × σ :=
  l.foldl (fun s c => (queueKeyword onMatch c.1 s).2) s

theorem queueAll_append (s : List (KTriePattern I) × σ) (a b : List (KTriePattern I × ℤ)) :
    queueAll onMatch s (a ++ b) = queueAll onMatch (queueAll onMatch s a) b := List.foldl_append

theorem queueKeyword_continues (h : Continues onMatch) (pk : KTriePattern I)
    (s : List (KTriePattern I) × σ) : (queueKeyword onMatch pk s).1 = false := by
  unfold queueKeyword
  simp only [processQueue_eq h]
  split
  · rfl
  · rfl

theorem prefixMatchQLoop_eq (h : Continues onMatch) (text : ℕ → UInt8) (t : KTrieNode I) (T n : ℕ)
    (s : List (KTriePattern I) × σ) :
    prefixMatchQLoop onMatch text t T n s =
      (false, queueAll onMatch s (hits t (fun i => xlatcase (text i)) T n)) := by
  induction t generalizing T n s with
  | null =>
    rw [hits_null]
    rfl
  | node edge pkeyword child sibling ihchild ihsibling =>
    rw [prefixMatchQLoop.eq_def]
    cases n with
    | zero => rfl
    | succ n =>
      simp only [Nat.add_one_ne_zero, if_false]
      by_cases hedge : edge = xlatcase (text T)
      · rw [if_pos hedge, @hits_node_eq _ edge pkeyword child sibling (fun i => xlatcase (text i)) T n
          hedge]
        cases pkeyword with
        | nil => exact ihchild ..
        | cons pk l =>
          simp only [queueKeyword_continues h, Bool.false_eq_true, if_false, ihchild]
          rfl
      · rw [if_neg hedge, @hits_node_ne _ edge pkeyword child sibling (fun i => xlatcase (text i)) T _
          hedge]
        exact ihsibling ..

theorem searchQLoop_eq (h : Continues onMatch) (kt : KTrieStruct I) (text : ℕ → UInt8) (n T : ℕ)
    (s : List (KTriePattern I) × σ) :
    searchQLoop kt onMatch text n T s =
      let s' := queueAll onMatch s (found kt (fun i => xlatcase (text i)) (allVisits n T))
      ([], callAll onMatch (s'.1.map fun p => (p, 0)) s'.2) := by
  induction n generalizing T s with
  | zero => simp only [searchQLoop, processQueue_eq h, allVisits, found, queueAll, List.range_zero,
      List.map_nil, List.flatMap_nil, List.foldl_nil]
  | succ n ih =>
    simp only [searchQLoop, prefixMatchQLoop_eq h, Bool.false_eq_true, if_false, ih, allVisits_succ,
      found_cons, queueAll_append]

/-! ### What has been reported -/

/-- A callback with a list of its calls. -/
def logged (onMatch : Match I σ) : Match I (σ × List (KTriePattern I × ℤ)) :=
  fun pk i d =>
    let r := onMatch pk i d.1
    (r.1, r.2, d.2 ++ [(pk, i)])

theorem Continues.logged (h : Continues onMatch) : Continues (logged onMatch) :=
  fun pk i d => h pk i d.1

theorem callAll_logged (calls log : List (KTriePattern I × ℤ)) (data : σ) :
    callAll (logged onMatch) calls (data, log) = (callAll onMatch calls data, log ++ calls) := by
  induction calls generalizing data log with
  | nil =>
    rw [List.append_nil]
    rfl
  | cons c calls ih =>
    show callAll (logged onMatch) calls ((onMatch c.1 c.2 data).2, log ++ [(c.1, c.2)]) = _
    rw [ih, List.append_assoc]
    rfl

/-- The keywords of calls. -/
def keywords (calls : List (KTriePattern I × ℤ)) : List (KTriePattern I) := calls.map Prod.fst

/-- Reported with the index 0, as the queue does. -/
theorem keywords_zero (q : List (KTriePattern I)) : keywords (q.map fun p => (p, (0 : ℤ))) = q := by
  rw [keywords, List.map_map]
  exact List.map_id q

theorem keywords_append (a b : List (KTriePattern I × ℤ)) :
    keywords (a ++ b) = keywords a ++ keywords b := List.map_append

/-- The keywords `ps` have been put into the queue: each of them is there or has been reported. -/
structure Queued (ps : Set (KTriePattern I)) (s : List (KTriePattern I) × σ × List (KTriePattern I × ℤ)) :
    Prop where
  length_lt : s.1.length < sfkMaxInq
  mem_iff : ∀ p, p ∈ ps ↔ p ∈ s.1 ∨ p ∈ keywords s.2.2

/-- A keyword is put into the queue. -/
theorem Queued.add (h : Continues onMatch) {ps : Set (KTriePattern I)}
    {s : List (KTriePattern I) × σ × List (KTriePattern I × ℤ)} (hs : Queued ps s) {pk : KTriePattern I}
    (haddr : ∀ p ∈ ps, p.addr = pk.addr → p = pk) :
    Queued (insert pk ps) (queueKeyword (logged onMatch) pk s).2 := by
  obtain ⟨q, data, log⟩ := s
  have hlen := hs.length_lt
  have hmem := hs.mem_iff
  simp only at hlen hmem
  by_cases hin : q.any (fun p => p.addr = pk.addr) = true
  · obtain ⟨p, hp, hpk⟩ := List.any_eq_true.1 hin
    have hpps : p ∈ ps := (hmem p).2 (.inl hp)
    obtain rfl := haddr p hpps (of_decide_eq_true hpk)
    have hq : (queueKeyword (logged onMatch) p (q, data, log)).2 = (q, data, log) := by
      simp [queueKeyword, addQueue, hin]
    rw [hq, Set.insert_eq_of_mem hpps]
    exact hs
  · have hadd : addQueue q pk = (decide ((q ++ [pk]).length = sfkMaxInq), q ++ [pk]) := by
      simp only [addQueue, if_neg hin, if_pos hlen]
    by_cases hfull : (q ++ [pk]).length = sfkMaxInq
    · have hq : (queueKeyword (logged onMatch) pk (q, data, log)).2 =
          ([], callAll onMatch ((q ++ [pk]).map fun p => (p, 0)) data,
            log ++ (q ++ [pk]).map fun p => (p, 0)) := by
        simp only [queueKeyword, hadd, decide_eq_true hfull, if_true, processQueue_eq h.logged,
          callAll_logged]
      rw [hq]
      constructor
      · exact Nat.zero_lt_succ _
      · intro p
        rw [Set.mem_insert_iff, hmem, keywords_append, keywords_zero]
        simp only [List.mem_append, List.mem_singleton, List.not_mem_nil, false_or]
        tauto
    · have hq : (queueKeyword (logged onMatch) pk (q, data, log)).2 = (q ++ [pk], data, log) := by
        simp only [queueKeyword, hadd, decide_eq_false hfull, Bool.false_eq_true, if_false]
      rw [hq]
      constructor
      · rw [List.length_append, List.length_singleton] at hfull ⊢
        omega
      · intro p
        rw [Set.mem_insert_iff, hmem]
        simp only [List.mem_append, List.mem_singleton]
        tauto

/-- Keywords are put into the queue one after the other. -/
theorem Queued.queueAll (h : Continues onMatch) (l : List (KTriePattern I × ℤ))
    {ps : Set (KTriePattern I)} {s : List (KTriePattern I) × σ × List (KTriePattern I × ℤ)}
    (hs : Queued ps s)
    (haddr : ∀ p q, p ∈ ps ∨ p ∈ keywords l → q ∈ keywords l → p.addr = q.addr → p = q) :
    Queued (ps ∪ {p | p ∈ keywords l}) (queueAll (logged onMatch) s l) := by
  induction l generalizing ps s with
  | nil =>
    have hnil : {p : KTriePattern I | p ∈ keywords []} = ∅ := by simp [keywords]
    rw [hnil, Set.union_empty]
    exact hs
  | cons c l ih =>
    have hkeywords : keywords (c :: l) = c.1 :: keywords l := rfl
    rw [hkeywords] at haddr ⊢
    have hstep := hs.add h fun p hp => haddr p c.1 (.inl hp) List.mem_cons_self
    have hset : insert c.1 ps ∪ {p | p ∈ keywords l} = ps ∪ {p | p ∈ c.1 :: keywords l} := by
      ext p
      simp only [Set.mem_union, Set.mem_insert_iff, Set.mem_ofPred_eq, List.mem_cons]
      tauto
    rw [← hset]
    apply ih hstep
    rintro p q (hp | hp) hq
    · rcases Set.mem_insert_iff.1 hp with rfl | hp
      · exact haddr _ q (.inr List.mem_cons_self) (List.mem_cons_of_mem _ hq)
      · exact haddr p q (.inl hp) (List.mem_cons_of_mem _ hq)
    · exact haddr p q (.inr (List.mem_cons_of_mem _ hp)) (List.mem_cons_of_mem _ hq)

/-- **All keywords have been reported**, and no others, when the queue has been processed. -/
theorem mem_processed (h : Continues onMatch) {l : List (KTriePattern I × ℤ)}
    (haddr : ∀ p q, p ∈ keywords l → q ∈ keywords l → p.addr = q.addr → p = q) (data : σ)
    (p : KTriePattern I) :
    let s := queueAll (logged onMatch) ([], data, []) l
    p ∈ keywords (callAll (logged onMatch) (s.1.map fun p => (p, 0)) s.2).2 ↔ p ∈ keywords l := by
  have hstart : Queued (∅ : Set (KTriePattern I)) (([], data, []) :
      List (KTriePattern I) × σ × List (KTriePattern I × ℤ)) :=
    ⟨Nat.zero_lt_succ _, fun p => by simp [keywords]⟩
  have hs := hstart.queueAll h l (by
    rintro p q (hp | hp) hq
    · exact absurd hp (Set.notMem_empty p)
    · exact haddr p q hp hq)
  rw [Set.empty_union] at hs
  intro s
  have hcalls : (callAll (logged onMatch) (s.1.map fun p => (p, 0)) s.2).2 =
      s.2.2 ++ s.1.map fun p => (p, 0) :=
    congrArg Prod.snd (callAll_logged _ s.2.2 s.2.1)
  rw [hcalls, keywords_append, keywords_zero, List.mem_append, or_comm]
  exact (hs.mem_iff p).symm

end Snort.KTrie
