import Snort.Stream5.Counters

/-!
# The counters of a tracker along a run

* `FlushFits`: `FlushStream` comes to no segment twice and copies what it cuts;
* `flushStream_counted`, `purgeToSeq_counted`, `purgeAll_counted_iff`: flushing and purging;
* `Op`: what is done to a tracker; `Op.Fits`: when the counters are adjusted as the list is;
* `Op.run_returns`: each step returns;
* **`fitRun_counted`**: the counters match along a run.
-/

namespace Snort.Stream5

open HiPaf (Byte)

variable {st st' : StreamTracker} {a b l : List Ptr} {x : Ptr} {s : Seq}

/-! ### `FlushStream` -/

/-- A segment is copied whole. -/
theorem Counted.markSegment (h : Counted st (a ++ x :: b)) (hx : (st.segs x).buffered = false) :
    Counted (markSegment st x) (a ++ x :: b) := by
  refine (h.setSeg { st.segs x with buffered := true } rfl (n := st.segBytesLogical)
    (m := st.flushCount + 1) rfl ?_).congr rfl rfl rfl rfl rfl rfl rfl rfl rfl
  simp [hx]

/-- A segment is cut, and the rest of it is a copy. -/
theorem Counted.cutSegment (h : Counted st (a ++ x :: b)) (hx : (st.segs x).buffered = false) {n : U32}
    (hn : n < (st.segs x).size.setWidth 32) :
    Counted (cutSegment true st x s n) (a ++ x :: st.fresh :: b) := by
  have hlt := BitVec.lt_def.1 hn
  rw [toNat_setWidth_size] at hlt
  have hsize := (st.segs x).size.isLt
  have hrest := setWidth_sub_add hlt.le
  have hcopied : (n.setWidth 16).setWidth 32 = n := by
    rw [← BitVec.toNat_inj, toNat_setWidth_size, BitVec.toNat_setWidth]
    omega
  have hnew : x ≠ st.fresh := fun heq => Nat.lt_irrefl _ (heq ▸ h.fresh x (by simp))
  have hsplit : Counted st (a ++ [x] ++ b) := by rwa [← List.append_cons]
  -- the copy is added, the segment loses its end, the copy loses its start
  have hbuffered : (dupSegment (st.segs x)).buffered = false := rfl
  have hadd := hsplit.addSegment hbuffered rfl
  rw [List.getLast?_concat, List.append_assoc, List.singleton_append] at hadd
  have hseg : (Stream5.addSegment st (some x) (dupSegment (st.segs x))).segs x = st.segs x :=
    Function.update_of_ne hnew _ _
  have hmark := hadd.setSeg { st.segs x with buffered := true, size := n.setWidth 16 }
    (n := st.segBytesLogical + n) (m := st.flushCount + 1) ?_ ?_ ?_
  · rw [List.append_cons] at hmark ⊢
    have hdup : ((Stream5.addSegment st (some x) (dupSegment (st.segs x))).setSeg x
        { st.segs x with buffered := true, size := n.setWidth 16 }).segs st.fresh =
        dupSegment (st.segs x) :=
      (Function.update_of_ne hnew.symm _ _).trans (Function.update_self _ _ _)
    refine (hmark.setSeg { dupSegment (st.segs x) with
      seq := s
      size := (st.segs x).size - n.setWidth 16
      data := (st.segs x).data.drop ((dupSegment (st.segs x)).payload + n.toNat)
      payload := 0 } (n := st.segBytesLogical) (m := st.flushCount + 1)
      ?_ ?_ ?_).congr rfl rfl rfl rfl rfl rfl rfl rfl rfl
    · have hcaplen := congrArg StreamSegment.caplen hdup
      exact hcaplen.symm
    · refine (congrArg (fun ss : StreamSegment => st.segBytesLogical + ss.size.setWidth 32) hdup).trans ?_
      dsimp only [dupSegment]
      rw [← hrest]
      ring
    · refine (congrArg (fun ss : StreamSegment => _ + if ss.buffered then 1 else 0) hdup).trans ?_
      rfl
  · have hcaplen := congrArg StreamSegment.caplen hseg
    exact hcaplen.symm
  · refine (congrArg (fun ss : StreamSegment => _ + ss.size.setWidth 32) hseg).trans ?_
    dsimp only [dupSegment]
    rw [hcopied]
    ring
  · refine (congrArg (fun ss : StreamSegment => _ + if ss.buffered then 1 else 0) hseg).trans ?_
    rw [hx]
    exact BitVec.add_zero _

/-- There is no gap behind a segment. -/
theorem fin_of_checkGap {f : FlushState} {next : Ptr} (hnext : f.st.links.next x = some next)
    (h : ¬(f.checkGap x s).missingPkt = true) : (f.st.segs x).fin = (f.st.segs next).seq := by
  unfold FlushState.checkGap at h
  rw [hnext] at h
  by_contra hne
  dsimp only at h
  rw [if_pos hne] at h
  exact h rfl

variable (st) in
/-- The loop of `FlushStream`, where each segment it comes to has not been flushed, and a copy is made of
one that it cuts. -/
theorem flushLoop_counted {normalize : Bool} {base : Seq} {size : U32} (fuel : ℕ) :
    ∀ {a b : List Ptr} {x : Ptr} {f r : FlushState}, Counted f.st (a ++ x :: b) →
      (∀ z ∈ x :: b, f.st.segs z = st.segs z) → f.st.pafActive = st.pafActive →
      (∀ m y d, x :: b = m ++ y :: d → Comes st base s size m y → seqLt (st.segs y).seq s = true →
        (st.segs y).buffered = false ∧
          (bytesToCopy st base s size y < (st.segs y).size.setWidth 32 → normalize = true)) →
      flushLoop normalize base s size fuel f (some x) = some r → ∃ l, Counted r.st l := by
  induction fuel with
  | zero => exact fun _ _ _ _ h => nomatch h
  | succ fuel ih =>
    intro a b x f r h hsame hpaf hfits hrun
    have hx := hsame x List.mem_cons_self
    by_cases hlt : seqLt (f.st.segs x).seq s = true
    swap
    · rw [flushLoop] at hrun
      dsimp only at hrun
      rw [if_neg hlt] at hrun
      rw [← Option.some.inj hrun]
      exact ⟨_, h⟩
    have hcopy : getSegmentFlushSize f.st.pafActive (f.st.segs x) base s size =
        bytesToCopy st base s size x := by
      rw [hx, hpaf]
    obtain ⟨hunflushed, hcut⟩ := hfits [] x b rfl trivial (hx ▸ hlt)
    rw [← hx] at hunflushed hcut
    by_cases hpart : bytesToCopy st base s size x < (f.st.segs x).size.setWidth 32
    · obtain rfl := hcut hpart
      rw [flushLoop_cut h.toRepresents hlt (by rwa [hcopy]) Bool.noConfusion hrun, hcopy]
      exact ⟨_, h.cutSegment hunflushed hpart⟩
    obtain ⟨hst, hmissing⟩ := round_whole s size f _ normalize hpart
    have hmark := h.markSegment hunflushed
    rw [← hst] at hmark
    rw [flushLoop] at hrun
    dsimp only at hrun
    rw [hcopy, if_pos hlt] at hrun
    split_ifs at hrun with hgap hroom
    · rw [← Option.some.inj hrun]
      exact ⟨_, hmark⟩
    · rw [← Option.some.inj hrun]
      exact ⟨_, hmark⟩
    · rw [hmark.next] at hrun
      cases b with
      | nil =>
        cases fuel with
        | zero => cases hrun
        | succ fuel =>
          rw [← Option.some.inj hrun]
          exact ⟨_, hmark⟩
      | cons y b =>
        rw [hmissing] at hgap
        have hfin := fin_of_checkGap (h.next.trans rfl) hgap
        have hseq : ((markSegment f.st x).segs x).seq = (st.segs x).seq := by
          rw [← hx]
          show (Function.update f.st.segs x _ x).seq = _
          rw [Function.update_self]
        rw [hst, hseq] at hroom
        rw [List.append_cons] at hmark
        refine ih hmark (fun z hz => ?_) (by rw [hst]; exact hpaf) (fun m z d hsplit hcomes hbefore => ?_) hrun
        · rw [hst, markSegment_segs_of_ne (h.toRepresents.ne_of_mem (Or.inr hz))]
          exact hsame z (List.mem_cons_of_mem _ hz)
        · have hhead : m.head?.getD z = y := by
            cases m <;> exact (List.head_eq_of_cons_eq hsplit).symm
          refine hfits (x :: m) z d (congrArg _ hsplit) ⟨⟨?_, ?_, ?_, hroom⟩, hcomes⟩ hbefore
          · rwa [← hx]
          · rwa [← hx]
          · rw [hhead, ← hx, ← hsame y (List.mem_cons_of_mem _ List.mem_cons_self)]
            exact hfin

/-- What `FlushStream` comes to has not been flushed before, and a copy is made of what it cuts. -/
def FlushFits (normalize : Bool) (st : StreamTracker) (l : List Ptr) (s : Seq) (size : U32) : Prop :=
  ∀ a m x b, l = a ++ (m ++ x :: b) → (∀ z ∈ a, (st.segs z).buffered = true) →
    (st.segs (m.head?.getD x)).buffered = false → Comes st (st.segs (m.head?.getD x)).seq s size m x →
    seqLt (st.segs x).seq s = true →
    (st.segs x).buffered = false ∧
      (bytesToCopy st (st.segs (m.head?.getD x)).seq s size x < (st.segs x).size.setWidth 32 →
        normalize = true)

/-- The segments that have been flushed are skipped. -/
theorem skipBuffered_split {left : Option Ptr} (fuel : ℕ) :
    ∀ {a b : List Ptr}, Represents st (a ++ b) → (∀ z ∈ a, (st.segs z).buffered = true) →
      skipBuffered st fuel b.head? = some left →
      ∃ c d, c ++ d = a ++ b ∧ left = d.head? ∧ (∀ z ∈ c, (st.segs z).buffered = true) ∧
        ∀ y ∈ d.head?, (st.segs y).buffered = false := by
  induction fuel with
  | zero => exact fun _ _ h => nomatch h
  | succ fuel ih =>
    intro a b h hflushed hrun
    cases b with
    | nil =>
      rw [← Option.some.inj hrun]
      exact ⟨a, [], rfl, rfl, hflushed, fun _ hy => nomatch hy⟩
    | cons x b =>
      rw [List.head?_cons, skipBuffered, h.next] at hrun
      split_ifs at hrun with hx
      · rw [List.append_cons] at h ⊢
        refine ih h (fun z hz => ?_) hrun
        rcases List.mem_append.1 hz with hz | hz
        · exact hflushed z hz
        · rwa [List.mem_singleton.1 hz]
      · rw [← Option.some.inj hrun]
        refine ⟨a, x :: b, rfl, rfl, hflushed, fun y hy => ?_⟩
        rw [← Option.some.inj hy]
        exact Bool.eq_false_iff.2 hx

/-- `FlushStream`. -/
theorem flushStream_counted {fuel : ℕ} {normalize : Bool} {size : U32} {out : List Byte} {ret : ℤ}
    (h : Counted st l) (hfits : segsToFlush fuel normalize st = some 0 ∨ FlushFits normalize st l s size)
    (hrun : flushStream fuel normalize st s size = some (st', out, ret)) : ∃ l, Counted st' l := by
  obtain ⟨n, hn, hrun⟩ := Option.bind_eq_some_iff.1 hrun
  by_cases hnone : n = 0 ∨ st.seglist = none ∨ st.seglistTail = none
  · rw [if_pos hnone] at hrun
    rw [← (Prod.mk.inj (Option.some.inj hrun)).1]
    exact ⟨l, h⟩
  rw [if_neg hnone] at hrun
  obtain ⟨left, hskip, hrun⟩ := Option.bind_eq_some_iff.1 hrun
  rw [h.head] at hskip
  obtain ⟨a, d, rfl, rfl, hflushed, hfirst⟩ :=
    skipBuffered_split fuel (a := []) h.toRepresents (fun _ hz => absurd hz List.not_mem_nil) hskip
  cases d with
  | nil =>
    rw [← (Prod.mk.inj (Option.some.inj hrun)).1]
    exact ⟨_, h⟩
  | cons x b =>
    obtain ⟨r, hloop, hrun⟩ := Option.bind_eq_some_iff.1 hrun
    have hfits : FlushFits normalize st (a ++ x :: b) s size :=
      hfits.resolve_left fun hzero => hnone (Or.inl (Option.some.inj (hn.symm.trans hzero)))
    rw [← (Prod.mk.inj (Option.some.inj hrun)).1]
    refine flushLoop_counted st fuel h (fun _ _ => rfl) rfl
      (fun m y d hsplit hcomes hbefore => ?_) hloop
    have hhead : m.head?.getD y = x := by
      cases m <;> exact (List.head_eq_of_cons_eq hsplit).symm
    have hat := hfits a m y d (congrArg (a ++ ·) hsplit) hflushed
    rw [hhead] at hat
    exact hat (hfirst x rfl) hcomes hbefore

/-! ### Purging -/

/-- The loop of `purge_to_seq`. -/
theorem purgeLoop_counted (fuel : ℕ) :
    ∀ {st st' : StreamTracker} {a b : List Ptr} {n n' : U32}, Counted st (a ++ b) →
      purgeLoop s fuel st b.head? n = some (st', n') → ∃ l, Counted st' l := by
  induction fuel with
  | zero => exact fun _ h => nomatch h
  | succ fuel ih =>
    intro st st' a b n n' h hrun
    cases b with
    | nil =>
      rw [← (Prod.mk.inj (Option.some.inj hrun)).1]
      exact ⟨_, h⟩
    | cons x b =>
      rw [List.head?_cons, purgeLoop, h.next] at hrun
      split_ifs at hrun
      · obtain hdrop | htrim := h.deleteNode s
        · exact ih hdrop hrun
        · rw [List.append_cons] at htrim
          exact ih htrim hrun
      · rw [← (Prod.mk.inj (Option.some.inj hrun)).1]
        exact ⟨_, h⟩

/-- `purge_to_seq`. -/
theorem purgeToSeq_counted {fuel : ℕ} {n : U32} (h : Counted st l)
    (hrun : purgeToSeq fuel st s = some (st', n)) : ∃ l, Counted st' l := by
  unfold purgeToSeq at hrun
  split_ifs at hrun
  · rw [← (Prod.mk.inj (Option.some.inj hrun)).1]
    exact ⟨l, h⟩
  · obtain ⟨⟨st₁, n₁⟩, hloop, hrun⟩ := Option.bind_eq_some_iff.1 hrun
    rw [h.head] at hloop
    obtain ⟨l₁, h₁⟩ := purgeLoop_counted fuel (a := []) h hloop
    rw [← (Prod.mk.inj (Option.some.inj hrun)).1]
    refine ⟨l₁, h₁.congr rfl rfl ?_ rfl rfl rfl rfl rfl rfl⟩
    -- without a head the tail is cleared, and there is none
    split_ifs with hhead
    · rw [h₁.head, List.head?_eq_none_iff] at hhead
      rw [h₁.tail, hhead]
      rfl
    · rfl

/-- `purge_flushed_ackd`. -/
theorem purgeFlushedAckd_counted {fuel : ℕ} {n : U32} (h : Counted st l)
    (hrun : purgeFlushedAckd fuel st = some (st', n)) : ∃ l, Counted st' l := by
  obtain ⟨seq, -, hrun⟩ := Option.bind_eq_some_iff.1 hrun
  split_ifs at hrun
  · exact purgeToSeq_counted h hrun
  · rw [← (Prod.mk.inj (Option.some.inj hrun)).1]
    exact ⟨l, h⟩

/-- `purge_all` leaves the two sums as they are. -/
theorem purgeAll_counted_iff (st : StreamTracker) :
    (∃ l, Counted (purgeAll st) l) ↔ st.segBytesTotal = 0 ∧ st.segBytesLogical = 0 := by
  constructor
  · rintro ⟨l, h⟩
    obtain rfl : l = [] := List.head?_eq_none_iff.1 h.head.symm
    exact ⟨h.counts.total, h.counts.logical⟩
  · rintro ⟨htotal, hlogical⟩
    refine ⟨[], ⟨⟨Links.holds_nil _, rfl, rfl, ?_, rfl⟩, ⟨htotal, hlogical, rfl⟩⟩⟩
    exact fun _ hx => absurd hx List.not_mem_nil

/-! ### Each step comes to an end -/

section Returns

variable {fuel : ℕ}

theorem segsLoop_returns (h : Represents st (a ++ b)) (hfuel : b.length < fuel) (n : U32) :
    ∃ m, segsLoop st fuel b.head? n = some m := by
  induction b generalizing a fuel n with
  | nil =>
    obtain ⟨fuel, rfl⟩ := Nat.exists_eq_add_of_le' (show 1 ≤ fuel by omega)
    exact ⟨n, rfl⟩
  | cons x b ih =>
    rw [List.length_cons] at hfuel
    obtain ⟨fuel, rfl⟩ := Nat.exists_eq_add_of_le' (show 1 ≤ fuel by omega)
    rw [List.head?_cons, segsLoop, h.next]
    rw [List.append_cons] at h
    exact ih h (by omega) _

theorem skipBuffered_returns (h : Represents st (a ++ b)) (hfuel : b.length < fuel) :
    ∃ r, skipBuffered st fuel b.head? = some r := by
  induction b generalizing a fuel with
  | nil =>
    obtain ⟨fuel, rfl⟩ := Nat.exists_eq_add_of_le' (show 1 ≤ fuel by omega)
    exact ⟨none, rfl⟩
  | cons x b ih =>
    rw [List.length_cons] at hfuel
    obtain ⟨fuel, rfl⟩ := Nat.exists_eq_add_of_le' (show 1 ≤ fuel by omega)
    rw [List.head?_cons, skipBuffered, h.next]
    rw [List.append_cons] at h
    split_ifs
    · exact ih h (by omega)
    · exact ⟨some x, rfl⟩

variable (s) in
theorem flushLoop_returns (normalize : Bool) (base : Seq) (size : U32) (f : FlushState)
    (h : Represents f.st (a ++ b)) (hfuel : b.length + 1 < fuel) :
    ∃ r, flushLoop normalize base s size fuel f b.head? = some r := by
  induction b generalizing a fuel f with
  | nil =>
    obtain ⟨fuel, rfl⟩ := Nat.exists_eq_add_of_le' (show 1 ≤ fuel by omega)
    exact ⟨f, rfl⟩
  | cons x b ih =>
    rw [List.length_cons] at hfuel
    obtain ⟨fuel, rfl⟩ := Nat.exists_eq_add_of_le' (show 1 ≤ fuel by omega)
    rw [List.head?_cons, flushLoop]
    dsimp only
    generalize hn : getSegmentFlushSize f.st.pafActive (f.st.segs x) base s size = n
    by_cases hlt : seqLt (f.st.segs x).seq s = true
    swap
    · rw [if_neg hlt]
      exact ⟨_, rfl⟩
    rw [if_pos hlt]
    split_ifs
    · exact ⟨_, rfl⟩
    · exact ⟨_, rfl⟩
    have hgo : Represents (f.round normalize s size x n).st (a ++ x :: b) →
        ∃ r, flushLoop normalize base s size fuel (f.round normalize s size x n)
          ((f.round normalize s size x n).st.links.next x) = some r := by
      intro hrep
      rw [hrep.next]
      rw [List.append_cons] at hrep
      exact ih _ hrep (by omega)
    by_cases hcut : n < (f.st.segs x).size.setWidth 32
    swap
    · refine hgo ?_
      rw [(round_whole s size f _ normalize hcut).1]
      exact h.markSegment x
    · cases normalize with
      | false =>
        refine hgo ?_
        rw [round_cut s size f _ _ hcut]
        exact (cutSegment_rest h s n).1
      | true =>
        -- the copy starts at the flush point
        obtain ⟨fuel, rfl⟩ := Nat.exists_eq_add_of_le' (show 1 ≤ fuel by omega)
        obtain ⟨hrep, hseg, -⟩ := cutSegment_dup h s n
        rw [List.append_assoc, List.singleton_append] at hrep
        have hseq : seqLt ((cutSegment true f.st x s n).segs f.st.fresh).seq s = false := by
          rw [hseg]
          exact seqLt_self s
        rw [round_cut s size f _ _ hcut, hrep.next, List.head?_cons, flushLoop, round_cut s size f _ _ hcut, hseq]
        exact ⟨_, rfl⟩

theorem purgeLoop_returns (h : Counted st (a ++ b)) (hfuel : b.length < fuel) (n : U32) :
    ∃ r, purgeLoop s fuel st b.head? n = some r := by
  induction b generalizing a fuel st n with
  | nil =>
    obtain ⟨fuel, rfl⟩ := Nat.exists_eq_add_of_le' (show 1 ≤ fuel by omega)
    exact ⟨_, rfl⟩
  | cons x b ih =>
    rw [List.length_cons] at hfuel
    obtain ⟨fuel, rfl⟩ := Nat.exists_eq_add_of_le' (show 1 ≤ fuel by omega)
    rw [List.head?_cons, purgeLoop, h.next]
    split_ifs
    · obtain hdrop | htrim := h.deleteNode s
      · exact ih hdrop (by omega) _
      · rw [List.append_cons] at htrim
        exact ih htrim (by omega) _
    · exact ⟨_, rfl⟩

theorem flushedLoop_returns (h : Represents st (a ++ b)) (hfuel : b.length < fuel) (seq : Seq) :
    ∃ r, flushedLoop st fuel b.head? seq = some r := by
  induction b generalizing a fuel seq with
  | nil =>
    obtain ⟨fuel, rfl⟩ := Nat.exists_eq_add_of_le' (show 1 ≤ fuel by omega)
    exact ⟨_, rfl⟩
  | cons x b ih =>
    rw [List.length_cons] at hfuel
    obtain ⟨fuel, rfl⟩ := Nat.exists_eq_add_of_le' (show 1 ≤ fuel by omega)
    rw [List.head?_cons, flushedLoop, h.next]
    rw [List.append_cons] at h
    split_ifs
    · exact ⟨_, rfl⟩
    · exact ih h (by omega) _
    · exact ⟨_, rfl⟩

theorem purgeToSeq_returns (h : Counted st l) (hfuel : l.length < fuel) (s : Seq) :
    ∃ r, purgeToSeq fuel st s = some r := by
  unfold purgeToSeq
  split_ifs
  · exact ⟨_, rfl⟩
  · obtain ⟨r, hloop⟩ := purgeLoop_returns (a := []) (s := s) h hfuel 0
    rw [h.head, hloop]
    exact ⟨_, rfl⟩

theorem flushStream_returns (h : Represents st l) (hfuel : l.length + 1 < fuel) (normalize : Bool)
    (s : Seq) (size : U32) : ∃ r, flushStream fuel normalize st s size = some r := by
  have hsegs : ∃ n, segsToFlush fuel normalize st = some n := by
    unfold segsToFlush
    generalize (if st.flushCount < st.segCount then st.segCount - st.flushCount else 0) = n
    dsimp only
    split_ifs
    · exact ⟨n, rfl⟩
    · rw [h.head]
      exact segsLoop_returns (a := []) h (by omega) 0
  obtain ⟨n, hn⟩ := hsegs
  rw [flushStream, hn, Option.bind_eq_bind, Option.bind_some]
  split_ifs
  · exact ⟨_, rfl⟩
  · obtain ⟨left, hskip⟩ := skipBuffered_returns (a := []) h (show l.length < fuel by omega)
    obtain ⟨a, d, hsplit, hleft, -⟩ := skipBuffered_split fuel (a := []) h (fun _ hz => absurd hz List.not_mem_nil) hskip
    rw [h.head, hskip, Option.bind_eq_bind, Option.bind_some, hleft]
    rw [List.nil_append] at hsplit
    subst hsplit
    rw [List.length_append] at hfuel
    cases d with
    | nil => exact ⟨_, rfl⟩
    | cons x b =>
      obtain ⟨r, hloop⟩ := flushLoop_returns s normalize (st.segs x).seq size
        ⟨st, [], 0, 0, false, 0⟩ h (show (x :: b).length + 1 < fuel by omega)
      rw [List.head?_cons] at hloop ⊢
      dsimp only
      rw [hloop]
      exact ⟨_, rfl⟩

theorem findFromHead_returns (h : Represents st (a ++ b)) (seq : Seq) {fuel : ℕ} (hfuel : b.length < fuel) :
    ∃ r, findFromHead st seq fuel a.getLast? b.head? = some r := by
  induction b generalizing a fuel with
  | nil =>
    obtain ⟨fuel, rfl⟩ := Nat.exists_eq_add_of_le' (show 1 ≤ fuel by omega)
    exact ⟨_, rfl⟩
  | cons x b ih =>
    rw [List.length_cons] at hfuel
    obtain ⟨fuel, rfl⟩ := Nat.exists_eq_add_of_le' (show 1 ≤ fuel by omega)
    rw [List.head?_cons, findFromHead, h.next]
    split_ifs
    · exact ⟨_, rfl⟩
    · rw [List.append_cons] at h
      rw [← List.getLast?_concat (l := a)]
      exact ih h (by omega)

theorem findFromTail_returns (h : Represents st (a ++ b)) (seq : Seq) {fuel : ℕ} (hfuel : a.length < fuel) :
    ∃ r, findFromTail st seq fuel b.head? a.getLast? = some r := by
  induction a using List.reverseRecOn generalizing b fuel with
  | nil =>
    obtain ⟨fuel, rfl⟩ := Nat.exists_eq_add_of_le' (show 1 ≤ fuel by omega)
    exact ⟨_, rfl⟩
  | append_singleton a x ih =>
    rw [List.length_append, List.length_singleton] at hfuel
    obtain ⟨fuel, rfl⟩ := Nat.exists_eq_add_of_le' (show 1 ≤ fuel by omega)
    rw [List.append_assoc, List.singleton_append] at h
    rw [List.getLast?_concat, findFromTail, show st.links.prev x = a.getLast? from h.links.cell.2]
    split_ifs
    · exact ⟨_, rfl⟩
    · exact ih h (by omega)

/-- Each turn of the loop over right overlaps leaves one segment fewer on the right. -/
theorem rightLoop_returns (ipsData : Bool) (policy : ReassemblyPolicy) (seqEnd : Seq) (fuel : ℕ) :
    ∀ {st : StreamTracker} {a b : List Ptr} (p : Packet) (seq : Seq), Represents st (a ++ b) →
      b.length < fuel → ∃ e, rightLoop ipsData policy seqEnd fuel st p seq a.getLast? b.head? = some e := by
  induction fuel with
  | zero => exact fun _ _ _ hfuel => absurd hfuel (Nat.not_lt_zero _)
  | succ fuel ih =>
    intro st a b p seq h hfuel
    cases b with
    | nil => exact ⟨_, rfl⟩
    | cons x b =>
      rw [List.length_cons] at hfuel
      rw [List.head?_cons, rightLoop]
      dsimp only
      have hcount : Represents st.countOverlap (a ++ x :: b) := h.congr rfl rfl rfl rfl rfl
      rw [h.next]
      by_cases hlt : seqLt (st.segs x).seq seqEnd = true
      swap
      · rw [if_neg hlt]
        exact ⟨_, rfl⟩
      rw [if_pos hlt]
      cases hov : rightOverlap policy p seqEnd seq (a.getLast?.map st.segs) (st.segs x) with
      | again => exact absurd hov (rightOverlap_ne_again _ _ _ _ _ _)
      | dropOld => exact ih p seq hcount.deleteNode (by omega)
      | keepOld =>
        dsimp only
        generalize (if ipsData then patchRight p (st.segs x) (st.segs x).size.toNat else p) = p'
        split_ifs
        · exact ⟨_, rfl⟩
        · rw [List.append_cons] at hcount
          rw [← List.getLast?_concat (l := a)]
          exact ih _ _ hcount (by omega)
        · obtain hadd | ⟨st', hadd, hadded⟩ := hcount.addStreamNode p' p'.dsize (seq - p'.seq)
            (seqEnd - (st.segs x).seq) seq
          · rw [hadd]
            exact ⟨_, rfl⟩
          · rw [hadd]
            dsimp only
            rw [List.append_cons] at hadded
            rw [hadded.next]
            rw [List.append_cons] at hadded
            rw [← List.getLast?_concat (l := a ++ [st.countOverlap.fresh])]
            exact ih _ _ hadded (by omega)
      | _ => exact ⟨_, rfl⟩

theorem queueRight_returns (h : Represents st (a ++ b)) (hfuel : b.length < fuel) (ipsData : Bool)
    (policy : ReassemblyPolicy) (p : Packet) (seq : Seq) :
    ∃ r, queueRight fuel ipsData policy st p seq a.getLast? b.head? = some r := by
  obtain ⟨e, he⟩ := rightLoop_returns ipsData policy p.endSeq fuel p seq h hfuel
  rw [queueRight, he, Option.bind_eq_bind, Option.bind_some]
  cases e <;> exact ⟨_, rfl⟩

theorem queueLeft_returns (h : Represents st (a ++ x :: b)) (hfuel : b.length + 1 < fuel) (ipsData : Bool)
    (policy : ReassemblyPolicy) (p : Packet) :
    ∃ r, queueLeft fuel ipsData policy st p x b.head? = some r := by
  have hright : ∀ {st₁ : StreamTracker} {c : List Ptr} (p₁ : Packet) (seq : Seq),
      Represents st₁ (a ++ x :: c) → c.length ≤ b.length + 1 →
      ∃ r, queueRight fuel ipsData policy st₁ p₁ seq (some x) c.head? = some r := by
    intro st₁ c p₁ seq hrep hlen
    rw [List.append_cons] at hrep
    rw [← List.getLast?_concat (l := a)]
    exact queueRight_returns hrep (by omega) _ _ _ _
  unfold queueLeft
  dsimp only
  by_cases hpos : 0 < ((st.segs x).fin - p.seq).toInt
  swap
  · rw [if_neg hpos]
    exact hright _ _ h (by omega)
  rw [if_pos hpos]
  generalize (if ipsData then patchLeft p (st.segs x) else p) = p'
  cases leftOverlap policy p'.dsize p'.endSeq p'.seq (st.segs x) with
  | none => exact ⟨_, rfl⟩
  | some o =>
    obtain ⟨seq, left, right, logical⟩ := o
    have hset : Represents { st.countOverlap.setSeg x left with
        segBytesLogical := st.countOverlap.segBytesLogical - logical } (a ++ x :: b) :=
      h.congr rfl rfl rfl rfl rfl
    cases right with
    | none =>
      dsimp only
      split_ifs
      · exact ⟨_, rfl⟩
      · exact hright _ _ hset (by omega)
    | some ss =>
      dsimp only
      split_ifs
      · exact ⟨_, rfl⟩
      · rw [List.append_cons] at hset
        have hadded := hset.addSegment ss
        rw [List.getLast?_concat, List.append_assoc, List.singleton_append] at hadded
        exact hright (c := st.fresh :: b) _ _ hadded le_rfl

theorem streamQueue_returns (h : Represents st l) (hfuel : l.length + 1 < fuel) (cfg : TcpConfig)
    (p : Packet) : ∃ r, streamQueue fuel cfg st p = some r := by
  unfold streamQueue
  split_ifs
  · exact ⟨_, rfl⟩
  · exact ⟨_, rfl⟩
  · have hfind : ∃ r, findNeighbours fuel st p.seq = some r := by
      unfold findNeighbours
      split_ifs
      · rw [h.head]
        exact findFromHead_returns (a := []) h p.seq (by omega)
      · rw [h.tail]
        have h' : Represents st (l ++ []) := by rwa [List.append_nil]
        exact findFromTail_returns h' p.seq (by omega)
    obtain ⟨⟨left, right⟩, hfind⟩ := hfind
    obtain ⟨a, b, rfl, rfl, rfl, -⟩ := findNeighbours_split h hfind
    rw [hfind, Option.bind_eq_bind, Option.bind_some]
    rw [List.length_append] at hfuel
    rcases List.eq_nil_or_concat a with rfl | ⟨a, x, rfl⟩
    · exact queueRight_returns (a := []) h (by omega) _ _ _ _
    · rw [List.concat_eq_append, List.append_assoc, List.singleton_append] at h
      rw [List.concat_eq_append, List.getLast?_concat]
      exact queueLeft_returns h (by omega) _ _ _

end Returns

/-! ### Runs -/

/-- What other code sets in a tracker. -/
structure Settings where
  seglistNext : Option Ptr
  rWinBase : Seq
  osPolicy : ReassemblyPolicy
  reassemblyPolicy : ReassemblyPolicy
  flushPolicy : FlushPolicy
  flushPt : U32
  pafActive : Bool

/-- What is done to a tracker: `StreamQueue`, `NewQueue`, `Stream5SeglistDeleteNode`, `FlushStream`,
`purge_to_seq`, `purge_flushed_ackd`, `purge_all`. -/
inductive Op
  | queue (cfg : TcpConfig) (p : Packet)
  | first (cfg : TcpConfig) (p : Packet)
  | delete (x : Ptr) (flushSeq : Seq)
  | flush (normalize : Bool) (toSeq : Seq) (flushBufSize : U32)
  | purgeToSeq (flushSeq : Seq)
  | purgeFlushedAckd
  | purgeAll
  | set (s : Settings)

/-- The tracker behind it. -/
def Op.run (fuel : ℕ) (st : StreamTracker) : Op → Option StreamTracker
  | queue cfg p => (streamQueue fuel cfg st p).map Prod.fst
  | first cfg p => some (newQueue cfg st p)
  | delete x flushSeq => some (seglistDeleteNode st x flushSeq).1
  | flush normalize toSeq flushBufSize =>
    (flushStream fuel normalize st toSeq flushBufSize).map Prod.fst
  | purgeToSeq flushSeq => (Stream5.purgeToSeq fuel st flushSeq).map Prod.fst
  | purgeFlushedAckd => (Stream5.purgeFlushedAckd fuel st).map Prod.fst
  | purgeAll => some (Stream5.purgeAll st)
  | set s => some { st with
      seglistNext := s.seglistNext
      rWinBase := s.rWinBase
      osPolicy := s.osPolicy
      reassemblyPolicy := s.reassemblyPolicy
      flushPolicy := s.flushPolicy
      flushPt := s.flushPt
      pafActive := s.pafActive }

/-- When the counters are adjusted as the list is. -/
def Op.Fits (fuel : ℕ) (st : StreamTracker) (l : List Ptr) : Op → Prop
  | queue cfg p => QueueFits fuel cfg st l p
  | first _ _ => True
  | delete x _ => x ∈ l
  | flush normalize toSeq flushBufSize =>
    segsToFlush fuel normalize st = some 0 ∨ FlushFits normalize st l toSeq flushBufSize
  | purgeToSeq _ => True
  | purgeFlushedAckd => True
  | purgeAll => st.segBytesTotal = 0 ∧ st.segBytesLogical = 0
  | set _ => True

/-- A step returns. -/
theorem Op.run_returns (h : Counted st l) (op : Op) : ∃ fuel st', op.run fuel st = some st' := by
  have hmap : ∀ {α : Type} {r : Option (StreamTracker × α)}, (∃ y, r = some y) →
      ∃ st', r.map Prod.fst = some st' := fun ⟨y, hy⟩ => ⟨y.1, by rw [hy]; rfl⟩
  cases op with
  | queue cfg p => exact ⟨l.length + 2, hmap (streamQueue_returns h.toRepresents (by omega) cfg p)⟩
  | flush normalize toSeq flushBufSize =>
    exact ⟨l.length + 2, hmap (flushStream_returns h.toRepresents (by omega) _ _ _)⟩
  | purgeToSeq flushSeq => exact ⟨l.length + 1, hmap (purgeToSeq_returns h (by omega) _)⟩
  | purgeFlushedAckd =>
    refine ⟨l.length + 1, hmap ?_⟩
    obtain ⟨seq, hseq⟩ :=
      flushedLoop_returns (a := []) h.toRepresents (show l.length < l.length + 1 by omega) 0
    rw [Stream5.purgeFlushedAckd, h.head, hseq, Option.bind_eq_bind, Option.bind_some]
    split_ifs
    · exact purgeToSeq_returns h (by omega) _
    · exact ⟨_, rfl⟩
  | first cfg p => exact ⟨0, _, rfl⟩
  | delete x flushSeq => exact ⟨0, _, rfl⟩
  | purgeAll => exact ⟨0, _, rfl⟩
  | set s => exact ⟨0, _, rfl⟩

/-- A step keeps the counters. -/
theorem Op.run_counted {fuel : ℕ} {op : Op} (h : Counted st l) (hfits : op.Fits fuel st l)
    (hrun : op.run fuel st = some st') : ∃ l, Counted st' l := by
  cases op with
  | queue cfg p =>
    obtain ⟨⟨st₁, r⟩, hqueue, rfl⟩ := Option.map_eq_some_iff.1 hrun
    exact streamQueue_counted h hfits hqueue
  | first cfg p =>
    rw [← Option.some.inj hrun]
    exact newQueue_counted h cfg p
  | delete x flushSeq =>
    obtain ⟨a, b, rfl⟩ := List.append_of_mem hfits
    rw [← Option.some.inj hrun]
    exact (h.deleteNode flushSeq).elim (fun hdrop => ⟨_, hdrop⟩) fun htrim => ⟨_, htrim⟩
  | flush normalize toSeq flushBufSize =>
    obtain ⟨⟨st₁, out, ret⟩, hflush, rfl⟩ := Option.map_eq_some_iff.1 hrun
    exact flushStream_counted h hfits hflush
  | purgeToSeq flushSeq =>
    obtain ⟨⟨st₁, n⟩, hpurge, rfl⟩ := Option.map_eq_some_iff.1 hrun
    exact purgeToSeq_counted h hpurge
  | purgeFlushedAckd =>
    obtain ⟨⟨st₁, n⟩, hpurge, rfl⟩ := Option.map_eq_some_iff.1 hrun
    exact purgeFlushedAckd_counted h hpurge
  | purgeAll =>
    rw [← Option.some.inj hrun]
    exact (purgeAll_counted_iff st).2 hfits
  | set s =>
    rw [← Option.some.inj hrun]
    exact ⟨l, h.congr rfl rfl rfl rfl rfl rfl rfl rfl rfl⟩

/-- A run whose steps all fit. -/
inductive FitRun : StreamTracker → StreamTracker → Prop
  | refl (st : StreamTracker) : FitRun st st
  | step {st st₁ st₂ : StreamTracker} (op : Op) (fuel : ℕ) : FitRun st st₁ →
      (∀ l, Represents st₁ l → op.Fits fuel st₁ l) → op.run fuel st₁ = some st₂ → FitRun st st₂

/-- **The counters of a tracker match its list** in every state of a run whose steps fit. -/
theorem fitRun_counted (h : Counted st l) (hrun : FitRun st st') : ∃ l, Counted st' l := by
  induction hrun with
  | refl => exact ⟨l, h⟩
  | step op fuel _ hfits hstep ih =>
    obtain ⟨l', h'⟩ := ih
    exact Op.run_counted h' (hfits l' h'.toRepresents) hstep

/-! ### Four bytes -/

/-- A tracker without a segment. -/
def noBytes : StreamTracker :=
  { tenBytes with
    seglist := none
    seglistTail := none
    segCount := 0
    segBytesTotal := 0
    segBytesLogical := 0
    totalBytesQueued := 0
    totalSegsQueued := 0
    reassemblyPolicy := .last }

/-- Four bytes. -/
def fourBytes : Packet where
  seq := 100
  data := [0, 1, 2, 3]
  syn := false
  urp := none
  ts := 0
  caplen := 58

theorem counted_noBytes : Counted noBytes [] :=
  ⟨⟨Links.holds_nil _, rfl, rfl, fun _ hx => absurd hx List.not_mem_nil, rfl⟩, rfl, rfl, rfl⟩

/-- They are queued, flushed and purged. -/
theorem fitRun_counted_fourBytes : ∃ st₁ st₂ st₃, (Op.first ⟨false, false⟩ fourBytes).run 0 noBytes = some st₁ ∧
    (Op.flush false 104 65535).run 3 st₁ = some st₂ ∧ (Op.purgeToSeq 104).run 2 st₂ = some st₃ ∧
    ∃ l, Counted st₃ l := by
  refine ⟨_, _, _, rfl, rfl, rfl, fitRun_counted counted_noBytes (.step (.purgeToSeq 104) 2
    (.step (.flush false 104 65535) 3 (.step (.first ⟨false, false⟩ fourBytes) 0 (.refl noBytes)
      (fun _ _ => trivial) rfl) (fun l h => ?_) rfl) (fun _ _ => trivial) rfl)⟩
  -- one segment is in the list
  obtain rfl : l = [1] := h.eq ⟨⟨List.nodup_singleton 1, rfl, rfl, trivial⟩, rfl, rfl, by decide, rfl⟩
  refine Or.inr fun a m x b hsplit _ _ _ _ => ?_
  obtain ⟨rfl, htail⟩ | ⟨-, htail⟩ := List.append_eq_singleton_iff.1 hsplit.symm
  · obtain ⟨rfl, hlast⟩ | ⟨-, hlast⟩ := List.append_eq_singleton_iff.1 htail
    · obtain ⟨rfl, rfl⟩ := List.cons.inj hlast
      exact ⟨rfl, by decide⟩
    · cases hlast
  · simp at htail

/-- Where they are queued and all segments are purged, their bytes are still counted. -/
theorem fourBytes_purged : ∃ st st', (Op.first ⟨false, false⟩ fourBytes).run 0 noBytes = some st ∧
    Op.purgeAll.run 0 st = some st' ∧ st'.seglist = none ∧ st'.segCount = 0 ∧
    st'.segBytesTotal = 58 ∧ st'.segBytesLogical = 4 ∧ ¬∃ l, Counted st' l := by
  refine ⟨_, _, rfl, rfl, rfl, rfl, by decide, by decide, fun h => ?_⟩
  exact absurd ((purgeAll_counted_iff _).1 h).1 (by decide)

end Snort.Stream5
