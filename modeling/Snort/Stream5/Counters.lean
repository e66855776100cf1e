import Mathlib.Data.BitVec
import Snort.Stream5.Cut

/-!
# The counters of a tracker

`seg_count`, `seg_bytes_total`, `seg_bytes_logical` and `flush_count` are adjusted by hand wherever
segments are queued, trimmed, flushed and taken out.

* `Counted`: a tracker whose counters match its list;
* `Counts.replace`: segments give way to others;
* `Counted.deleteNode`, `Counted.addStreamNode`: segments are taken out and added;
* `QueueFits`, `streamQueue_counted`: `StreamQueue`, where no segment is split.
-/

namespace Snort.Stream5

open HiPaf (Byte)

/-- The byte and flush counters match a list of segments. -/
structure Counts (st : StreamTracker) (segs : List StreamSegment) : Prop where
  total : st.segBytesTotal = (segs.map fun ss => ss.caplen).sum
  logical : st.segBytesLogical = (segs.map fun ss => ss.size.setWidth 32).sum
  flushed : st.flushCount = BitVec.ofNat 32 (segs.countP fun ss => ss.buffered)

/-- The counters of a tracker match its list; `seg_count` is a part of `Represents`. -/
structure Counted (st : StreamTracker) (l : List Ptr) : Prop extends Represents st l where
  counts : Counts st (l.map st.segs)

variable {st st' : StreamTracker} {a b l : List Ptr} {x : Ptr} {s : Seq}

section Replace

variable {c u v d : List StreamSegment}

/-- Segments give way to others. -/
theorem Counts.replace (h : Counts st (c ++ (u ++ d)))
    (htotal : st'.segBytesTotal + (u.map fun ss => ss.caplen).sum =
      st.segBytesTotal + (v.map fun ss => ss.caplen).sum)
    (hlogical : st'.segBytesLogical + (u.map fun ss => ss.size.setWidth 32).sum =
      st.segBytesLogical + (v.map fun ss => ss.size.setWidth 32).sum)
    (hflushed : st'.flushCount + BitVec.ofNat 32 (u.countP fun ss => ss.buffered) =
      st.flushCount + BitVec.ofNat 32 (v.countP fun ss => ss.buffered)) :
    Counts st' (c ++ (v ++ d)) := by
  obtain ⟨h1, h2, h3⟩ := h
  simp only [List.map_append, List.sum_append, List.countP_append, BitVec.ofNat_add] at h1 h2 h3
  constructor
  · simp only [List.map_append, List.sum_append]
    linear_combination htotal + h1
  · simp only [List.map_append, List.sum_append]
    linear_combination hlogical + h2
  · simp only [List.countP_append, BitVec.ofNat_add]
    linear_combination hflushed + h3

/-- The counters are the same. -/
theorem Counts.congr (h : Counts st c) (htotal : st'.segBytesTotal = st.segBytesTotal)
    (hlogical : st'.segBytesLogical = st.segBytesLogical) (hflushed : st'.flushCount = st.flushCount) :
    Counts st' c :=
  ⟨htotal.trans h.total, hlogical.trans h.logical, hflushed.trans h.flushed⟩

end Replace

theorem Counted.congr (h : Counted st l) (hlinks : st'.links = st.links)
    (hhead : st'.seglist = st.seglist) (htail : st'.seglistTail = st.seglistTail)
    (hfresh : st'.fresh = st.fresh) (hcount : st'.segCount = st.segCount) (hsegs : st'.segs = st.segs)
    (htotal : st'.segBytesTotal = st.segBytesTotal)
    (hlogical : st'.segBytesLogical = st.segBytesLogical) (hflushed : st'.flushCount = st.flushCount) :
    Counted st' l :=
  ⟨h.toRepresents.congr hlinks hhead htail hfresh hcount, hsegs ▸ h.counts.congr htotal hlogical hflushed⟩

/-- A new segment. -/
theorem Counted.addSegment (h : Counted st (a ++ b)) {ss : StreamSegment} (hbuffered : ss.buffered = false)
    {n : U32} (hn : n = st.segBytesLogical + ss.size.setWidth 32) :
    Counted { addSegment st a.getLast? ss with segBytesLogical := n } (a ++ st.fresh :: b) := by
  refine ⟨(h.toRepresents.addSegment ss).congr rfl rfl rfl rfl rfl, ?_⟩
  have hmap := h.toRepresents.map_addSegment a.getLast? ss
  have hcounts := h.counts
  rw [List.map_append] at hcounts
  have hempty : Counts st (a.map st.segs ++ ([] ++ b.map st.segs)) := hcounts
  show Counts _ ((a ++ st.fresh :: b).map (Stream5.addSegment st a.getLast? ss).segs)
  rw [hmap]
  refine hempty.replace (v := [ss]) ?_ ?_ ?_
  · simp [Stream5.addSegment, seglistAddNode]
  · simp [hn]
  · simp [Stream5.addSegment, seglistAddNode, hbuffered]

/-- A segment is changed. -/
theorem Counted.setSeg (h : Counted st (a ++ x :: b)) (ss : StreamSegment)
    (hcaplen : ss.caplen = (st.segs x).caplen) {n m : U32}
    (hn : n + (st.segs x).size.setWidth 32 = st.segBytesLogical + ss.size.setWidth 32)
    (hm : m + (if (st.segs x).buffered then 1 else 0) = st.flushCount + if ss.buffered then 1 else 0) :
    Counted { st.setSeg x ss with segBytesLogical := n, flushCount := m } (a ++ x :: b) := by
  refine ⟨h.toRepresents.congr rfl rfl rfl rfl rfl, ?_⟩
  have hmap := h.toRepresents.map_setSeg ss
  have hcounts := h.counts
  rw [List.map_append, List.map_cons] at hcounts
  have hone : Counts st (a.map st.segs ++ ([st.segs x] ++ b.map st.segs)) := hcounts
  show Counts _ ((a ++ x :: b).map (st.setSeg x ss).segs)
  rw [hmap]
  refine hone.replace (v := [ss]) ?_ ?_ ?_
  · simp [StreamTracker.setSeg, hcaplen]
  · simpa using hn
  · have hflag : ∀ r : StreamSegment, BitVec.ofNat 32 ([r].countP fun ss => ss.buffered) =
        if r.buffered then (1 : U32) else 0 := by
      intro r
      rw [List.countP_singleton]
      split_ifs <;> rfl
    rw [hflag, hflag]
    exact hm

/-- A segment loses some bytes. -/
theorem setWidth_sub_add {size : U16} {n : U32} (h : n.toNat ≤ size.toNat) :
    (size - n.setWidth 16).setWidth 32 + n = size.setWidth 32 := by
  have := size.isLt
  rw [← BitVec.toNat_inj, BitVec.toNat_add, toNat_setWidth_size, toNat_setWidth_size,
    toNat_sub_setWidth h, Nat.sub_add_cancel h, Nat.mod_eq_of_lt (by omega)]

/-! ### Segments that are taken out -/

theorem seglistDeleteNode_of_not (h : ¬LeftTrims st x s) :
    seglistDeleteNode st x s = seglistDeleteNode st x 0 := by
  have hzero : ¬LeftTrims st x 0 := fun h => h.2.1 rfl
  unfold LeftTrims at h hzero
  unfold seglistDeleteNode
  dsimp only
  rw [if_neg h, if_neg hzero]

/-- A segment is dropped or trimmed on the left. -/
theorem Counted.deleteNode (h : Counted st (a ++ x :: b)) (s : Seq) :
    Counted (seglistDeleteNode st x s).1 (a ++ b) ∨
      Counted (seglistDeleteNode st x s).1 (a ++ x :: b) := by
  by_cases htrim : LeftTrims st x s
  · refine Or.inr ?_
    have hdelta := BitVec.lt_def.1 htrim.2.2.2
    rw [toNat_setWidth_size] at hdelta
    have hset := h.setSeg (trimmedLeft (st.segs x) s) rfl
      (n := st.segBytesLogical - ((st.segs x).fin - s)) (m := st.flushCount) ?_ rfl
    · unfold LeftTrims at htrim
      unfold seglistDeleteNode
      dsimp only
      rw [if_pos htrim]
      exact hset.congr rfl rfl rfl rfl rfl rfl rfl rfl rfl
    · rw [← setWidth_sub_add hdelta.le]
      dsimp only [trimmedLeft]
      ring
  · refine Or.inl ⟨?_, ?_⟩
    · rw [seglistDeleteNode_of_not htrim]
      exact h.toRepresents.deleteNode
    · have hcounts := h.counts
      rw [List.map_append, List.map_cons] at hcounts
      have hone : Counts st (a.map st.segs ++ ([st.segs x] ++ b.map st.segs)) := hcounts
      unfold LeftTrims at htrim
      unfold seglistDeleteNode
      dsimp only
      rw [if_neg htrim, List.map_append]
      refine hone.replace (v := []) ?_ ?_ ?_
      · simp
      · simp
      · cases hb : (st.segs x).buffered <;> simp [hb]

/-- Without a flush point it is dropped. -/
theorem Counted.dropNode (h : Counted st (a ++ x :: b)) :
    Counted (seglistDeleteNode st x 0).1 (a ++ b) := by
  obtain hdrop | htrim := h.deleteNode 0
  · exact hdrop
  · have hrep := h.toRepresents.deleteNode.eq htrim.toRepresents
    have hlen := congrArg List.length hrep
    simp at hlen

/-! ### New segments -/

/-- `AddStreamNode`. -/
theorem Counted.addStreamNode (h : Counted st (a ++ b)) (p : Packet) (len : U16) (slide trunc : U32)
    (seq : Seq) :
    (addStreamNode st p len slide trunc seq a.getLast? = (st, .anomaly)) ∨
    ∃ st', addStreamNode st p len slide trunc seq a.getLast? = (st', .ok) ∧
      Counted st' (a ++ st.fresh :: b) ∧ ∀ z ∈ a ++ b, st'.segs z = st.segs z := by
  unfold Stream5.addStreamNode
  cases hnew : newSegment st.osPolicy p len slide trunc seq with
  | none => exact Or.inl rfl
  | some ss =>
    have hbuffered : ss.buffered = false := by
      unfold newSegment at hnew
      dsimp only at hnew
      split_ifs at hnew
      rw [← Option.some.inj hnew]
    refine Or.inr ⟨_, rfl, ?_, fun z hz => ?_⟩
    · exact (h.addSegment hbuffered rfl).congr rfl rfl rfl rfl rfl rfl rfl rfl rfl
    · refine Function.update_of_ne ?_ _ _
      rintro rfl
      exact Nat.lt_irrefl _ (h.fresh _ hz)

/-! ### `StreamQueue` -/

/-- What is trimmed of an older segment. -/
theorem rightOverlap_trimOld {policy : ReassemblyPolicy} {p : Packet} {seqEnd seq : Seq}
    {left : Option StreamSegment} {ss ss' : StreamSegment} {overlap : U32}
    (h : rightOverlap policy p seqEnd seq left ss = .trimOld ss' overlap) :
    overlap = seqEnd - ss.seq ∧ ss' = ss.trimFront overlap ∧ overlap.toInt < ss.size.toNat := by
  unfold rightOverlap at h
  dsimp only at h
  split_ifs at h with hpart
  · obtain ⟨-, hcase⟩ | ⟨-, -, hcase⟩ | ⟨-, hcase⟩ := rightPartial_cases policy seq (seqEnd - ss.seq) ss
    · rw [hcase] at h
      cases h
      exact ⟨rfl, rfl, hpart⟩
    · rw [hcase] at h
      cases h
    · rw [hcase] at h
      cases h
  · obtain ⟨-, hcase⟩ | ⟨-, hcase⟩ | ⟨-, -, hcase⟩ := rightFull_cases policy p.dsize seqEnd seq left ss <;>
      rw [hcase] at h <;> cases h

/-- An overlap that is counted is smaller than the segment, unless it is `INT_MIN`. -/
theorem overlap_le {ss : StreamSegment} {seqEnd : Seq} (hlt : seqLt ss.seq seqEnd = true)
    (hfar : off ss.seq seqEnd ≠ 2 ^ 31) (hpart : (seqEnd - ss.seq).toInt < ss.size.toNat) :
    (seqEnd - ss.seq).toNat ≤ ss.size.toNat := by
  obtain ⟨-, hle⟩ := seqLt_iff_off.1 hlt
  unfold off at hfar hle
  rw [BitVec.toInt_eq_toNat_cond] at hpart
  split_ifs at hpart <;> omega

/-- The trackers at the exits of the loop over right overlaps. -/
def ExitCounted : RightExit → Prop
  | .ret st | .skip st => ∃ l, Counted st l
  | .add st _ _ left _ => ∃ a b, left = a.getLast? ∧ Counted st (a ++ b)

theorem Counted.countOverlap (h : Counted st l) : Counted st.countOverlap l :=
  h.congr rfl rfl rfl rfl rfl rfl rfl rfl rfl

/-- The loop over right overlaps. -/
theorem rightLoop_counted (ipsData : Bool) (policy : ReassemblyPolicy) (seqEnd : Seq) (fuel : ℕ) :
    ∀ {st : StreamTracker} {a b : List Ptr} {p : Packet} {seq : Seq} {e : RightExit},
      Counted st (a ++ b) → (∀ x ∈ b, off (st.segs x).seq seqEnd ≠ 2 ^ 31) →
      rightLoop ipsData policy seqEnd fuel st p seq a.getLast? b.head? = some e → ExitCounted e := by
  induction fuel with
  | zero => exact fun _ _ h => nomatch h
  | succ fuel ih =>
    intro st a b p seq e h hfar hrun
    cases b with
    | nil =>
      rw [← Option.some.inj hrun]
      exact ⟨a, [], rfl, h⟩
    | cons x b =>
      rw [List.head?_cons, rightLoop] at hrun
      dsimp only at hrun
      have hfarx := hfar x List.mem_cons_self
      have hfarb : ∀ z ∈ b, off (st.segs z).seq seqEnd ≠ 2 ^ 31 :=
        fun z hz => hfar z (List.mem_cons_of_mem _ hz)
      by_cases hlt : seqLt (st.segs x).seq seqEnd = true
      swap
      · rw [if_neg hlt] at hrun
        rw [← Option.some.inj hrun]
        exact ⟨a, x :: b, rfl, h⟩
      rw [if_pos hlt] at hrun
      have hcount := h.countOverlap
      have hnext := h.toRepresents.next
      cases hov : rightOverlap policy p seqEnd seq (a.getLast?.map st.segs) (st.segs x) with
      | again => exact absurd hov (rightOverlap_ne_again _ _ _ _ _ _)
      | anomaly =>
        rw [hov] at hrun
        rw [← Option.some.inj hrun]
        exact ⟨_, hcount⟩
      | retransmission =>
        rw [hov] at hrun
        rw [← Option.some.inj hrun]
        exact ⟨_, h⟩
      | passOld seq' =>
        rw [hov] at hrun
        rw [← Option.some.inj hrun]
        exact ⟨a, x :: b, rfl, hcount⟩
      | truncNew trunc =>
        rw [hov] at hrun
        rw [← Option.some.inj hrun]
        exact ⟨a, x :: b, rfl, hcount⟩
      | trimOld ss' overlap =>
        obtain ⟨rfl, rfl, hpart⟩ := rightOverlap_trimOld hov
        rw [hov] at hrun
        rw [← Option.some.inj hrun]
        refine ⟨a, x :: b, rfl, ?_⟩
        have hset := h.setSeg ((st.segs x).trimFront (seqEnd - (st.segs x).seq)) rfl
          (n := st.segBytesLogical - (seqEnd - (st.segs x).seq)) (m := st.flushCount) ?_ rfl
        · exact hset.congr rfl rfl rfl rfl rfl rfl rfl rfl rfl
        · rw [← setWidth_sub_add (overlap_le hlt hfarx hpart)]
          dsimp only [StreamSegment.trimFront]
          ring
      | dropOld =>
        rw [hov] at hrun
        dsimp only at hrun
        rw [hnext] at hrun
        obtain ⟨-, -, -, -, hsegs, -, -⟩ := seglistDeleteNode_zero st.countOverlap x
        exact ih hcount.dropNode (fun z hz => by rw [hsegs]; exact hfarb z hz) hrun
      | keepOld =>
        rw [hov] at hrun
        dsimp only at hrun
        have hpassed : Counted st.countOverlap ((a ++ [x]) ++ b) := by
          rw [List.append_assoc]
          exact hcount
        generalize (if ipsData then patchRight p (st.segs x) (st.segs x).size.toNat else p) = p' at hrun
        by_cases hseq : seqEq (st.segs x).seq seq = true
        · rw [if_pos hseq] at hrun
          split_ifs at hrun
          · rw [← Option.some.inj hrun]
            exact ⟨_, hcount⟩
          · rw [hnext, ← List.getLast?_concat (l := a)] at hrun
            exact ih hpassed hfarb hrun
        · rw [if_neg hseq] at hrun
          obtain hadd | ⟨st', hadd, hcounted, hsame⟩ := hcount.addStreamNode p' p'.dsize (seq - p'.seq)
            (seqEnd - (st.segs x).seq) seq
          · rw [hadd] at hrun
            rw [← Option.some.inj hrun]
            exact ⟨_, hcount⟩
          · rw [hadd] at hrun
            dsimp only at hrun
            have hsplit : a ++ st.countOverlap.fresh :: x :: b =
                (a ++ [st.countOverlap.fresh] ++ [x]) ++ b := by simp
            rw [hsplit] at hcounted
            have hnext' : st'.links.next x = b.head? := by
              have hrep := hcounted.toRepresents
              rw [List.append_assoc, List.singleton_append] at hrep
              exact hrep.next
            rw [hnext', ← List.getLast?_concat (l := a ++ [st.countOverlap.fresh])] at hrun
            refine ih hcounted (fun z hz => ?_) hrun
            rw [hsame z (List.mem_append_right _ (List.mem_cons_of_mem _ hz))]
            exact hfarb z hz

/-- The end of `StreamQueue`. -/
theorem queueRight_counted {fuel : ℕ} {ipsData : Bool} {policy : ReassemblyPolicy} {p : Packet} {seq : Seq}
    {r : InsertResult} (h : Counted st (a ++ b)) (hfar : ∀ z ∈ b, off (st.segs z).seq p.endSeq ≠ 2 ^ 31)
    (hrun : queueRight fuel ipsData policy st p seq a.getLast? b.head? = some (st', r)) :
    ∃ l, Counted st' l := by
  obtain ⟨e, hloop, hrun⟩ := Option.bind_eq_some_iff.1 hrun
  have hexit := rightLoop_counted ipsData policy p.endSeq fuel h hfar hloop
  cases e with
  | ret st₁ =>
    obtain ⟨rfl, rfl⟩ := Prod.mk.inj (Option.some.inj hrun)
    exact hexit
  | skip st₁ =>
    obtain ⟨rfl, rfl⟩ := Prod.mk.inj (Option.some.inj hrun)
    exact hexit
  | add st₁ p₁ seq₁ left trunc =>
    obtain ⟨c, d, rfl, hcounted⟩ := hexit
    have hrun := Option.some.inj hrun
    obtain hadd | ⟨st₂, hadd, hcounted', -⟩ :=
      hcounted.addStreamNode p₁ p₁.dsize (seq₁ - p₁.seq) trunc seq₁
    · rw [hadd] at hrun
      obtain ⟨rfl, rfl⟩ := Prod.mk.inj hrun
      exact ⟨_, hcounted⟩
    · rw [hadd] at hrun
      obtain ⟨rfl, rfl⟩ := Prod.mk.inj hrun
      exact ⟨_, hcounted'⟩

/-- New data lie strictly inside a segment that is queued. -/
def Within (p : Packet) (left : StreamSegment) : Prop :=
  seqLt left.seq p.seq = true ∧ seqGt left.fin (p.seq + p.dsize.setWidth 32) = true

instance (p : Packet) (left : StreamSegment) : Decidable (Within p left) :=
  inferInstanceAs (Decidable (_ ∧ _))

/-- The left overlaps without a split: the older segment is as it was or loses its end. -/
theorem leftOverlap_cases {policy : ReassemblyPolicy} {len : U16} {seqEnd seq : Seq} {left : StreamSegment}
    {o : LeftOverlap} (hsplit : ¬(policy = .last ∧
      (seqLt left.seq seq && seqGt left.fin (seq + len.setWidth 32)) = true))
    (h : leftOverlap policy len seqEnd seq left = some o) :
    o.right = none ∧ (o.left = left ∧ o.logical = 0 ∨
      o.left = left.trimBack (left.fin - seq) ∧ o.logical = left.fin - seq) := by
  unfold leftOverlap at h
  cases policy <;> dsimp only at h
  case last =>
    rw [if_neg fun hboth => hsplit ⟨rfl, hboth⟩] at h
    rw [← Option.some.inj h]
    exact ⟨rfl, Or.inr ⟨rfl, rfl⟩⟩
  case solaris | hpux11 =>
    split_ifs at h <;> rw [← Option.some.inj h] <;> exact ⟨rfl, Or.inr ⟨rfl, rfl⟩⟩
  all_goals
    split_ifs at h
    rw [← Option.some.inj h]
    exact ⟨rfl, Or.inl ⟨rfl, rfl⟩⟩

/-- What the older segment loses is a part of it. -/
theorem leftOverlap_le {left : StreamSegment} {seq : Seq} (hlt : seqLt left.seq seq = true)
    (hpos : 0 < (left.fin - seq).toInt) : (left.fin - seq).toNat ≤ left.size.toNat := by
  obtain ⟨-, hle⟩ := seqLt_iff_off.1 hlt
  have hwidth := toNat_setWidth_size left.size
  have hlt := left.size.isLt
  rw [BitVec.toInt_eq_toNat_cond] at hpos
  unfold StreamSegment.fin off at *
  generalize left.size.setWidth 32 = w at *
  split_ifs at hpos <;> bv_omega

theorem samePlace_patchLeft (p : Packet) (ss : StreamSegment) : SamePlace p (patchLeft p ss) := by
  unfold patchLeft
  dsimp only
  split_ifs
  · exact ⟨rfl, length_patch _ _ _, rfl⟩
  · exact ⟨rfl, length_patch _ _ _, rfl⟩
  · exact SamePlace.refl p

/-- `StreamQueue` with a segment to the left. -/
theorem queueLeft_counted {fuel : ℕ} {ipsData : Bool} {policy : ReassemblyPolicy} {p : Packet}
    {r : InsertResult} (h : Counted st (a ++ x :: b)) (hlt : seqLt (st.segs x).seq p.seq = true)
    (hsplit : ¬(policy = .last ∧ Within p (st.segs x)))
    (hfar : ∀ z ∈ b, off (st.segs z).seq p.endSeq ≠ 2 ^ 31)
    (hrun : queueLeft fuel ipsData policy st p x b.head? = some (st', r)) : ∃ l, Counted st' l := by
  have hright : ∀ {st₁ : StreamTracker} {p₁ : Packet} {seq : Seq}, Counted st₁ (a ++ x :: b) →
      (∀ z ∈ b, st₁.segs z = st.segs z) → p₁.endSeq = p.endSeq →
      queueRight fuel ipsData policy st₁ p₁ seq (some x) b.head? = some (st', r) →
      ∃ l, Counted st' l := by
    intro st₁ p₁ seq hcounted hsame hend hrun
    rw [List.append_cons] at hcounted
    rw [← List.getLast?_concat (l := a)] at hrun
    exact queueRight_counted hcounted (fun z hz => by rw [hend, hsame z hz]; exact hfar z hz) hrun
  unfold queueLeft at hrun
  dsimp only at hrun
  by_cases hpos : 0 < ((st.segs x).fin - p.seq).toInt
  swap
  · rw [if_neg hpos] at hrun
    exact hright h (fun _ _ => rfl) rfl hrun
  rw [if_pos hpos] at hrun
  have hplace : SamePlace p (if ipsData then patchLeft p (st.segs x) else p) := by
    split_ifs
    · exact samePlace_patchLeft p _
    · exact SamePlace.refl p
  generalize (if ipsData then patchLeft p (st.segs x) else p) = p' at hrun hplace
  have hseq : p'.seq = p.seq := hplace.seq
  rw [hplace.endSeq, hplace.dsize, hseq] at hrun
  cases ho : leftOverlap policy p.dsize p.endSeq p.seq (st.segs x) with
  | none =>
    rw [ho] at hrun
    obtain ⟨rfl, rfl⟩ := Prod.mk.inj (Option.some.inj hrun)
    exact ⟨_, h.countOverlap⟩
  | some o =>
    obtain ⟨hright', hcases⟩ := leftOverlap_cases (by
      rwa [Bool.and_eq_true]) ho
    have hcounted : Counted { st.countOverlap.setSeg x o.left with
        segBytesLogical := st.segBytesLogical - o.logical } (a ++ x :: b) := by
      refine (h.setSeg o.left ?_ (n := st.segBytesLogical - o.logical) (m := st.flushCount) ?_ ?_).congr
        rfl rfl rfl rfl rfl rfl rfl rfl rfl
      · obtain ⟨heq, -⟩ | ⟨heq, -⟩ := hcases
        · rw [heq]
        · rw [heq]
          rfl
      · obtain ⟨heq, hzero⟩ | ⟨heq, hlog⟩ := hcases
        · rw [heq, hzero]
          ring
        · rw [heq, hlog, ← setWidth_sub_add (leftOverlap_le hlt hpos)]
          dsimp only [StreamSegment.trimBack]
          ring
      · obtain ⟨heq, -⟩ | ⟨heq, -⟩ := hcases
        · rw [heq]
        · rw [heq]
          rfl
    have hsame : ∀ z ∈ b, (st.countOverlap.setSeg x o.left).segs z = st.segs z := fun z hz =>
      Function.update_of_ne (h.toRepresents.ne_of_mem (Or.inr hz)) _ _
    rw [ho] at hrun
    dsimp only at hrun
    rw [hright'] at hrun
    dsimp only at hrun
    split_ifs at hrun
    · obtain ⟨rfl, rfl⟩ := Prod.mk.inj (Option.some.inj hrun)
      exact ⟨_, hcounted⟩
    · exact hright hcounted hsame hplace.endSeq hrun

/-- The search from the head comes to a place in the list, behind a segment that starts in front of
`seq`. -/
theorem findFromHead_split {seq : Seq} {left right : Option Ptr} (fuel : ℕ) :
    ∀ {a b : List Ptr}, Represents st (a ++ b) → (∀ y ∈ a.getLast?, seqLt (st.segs y).seq seq = true) →
      findFromHead st seq fuel a.getLast? b.head? = some (left, right) →
      ∃ c d, c ++ d = a ++ b ∧ left = c.getLast? ∧ right = d.head? ∧
        ∀ y ∈ left, seqLt (st.segs y).seq seq = true := by
  induction fuel with
  | zero => exact fun _ _ h => nomatch h
  | succ fuel ih =>
    intro a b h hlast hrun
    cases b with
    | nil =>
      obtain ⟨rfl, rfl⟩ := Prod.mk.inj (Option.some.inj hrun)
      exact ⟨a, [], rfl, rfl, rfl, hlast⟩
    | cons x b =>
      rw [List.head?_cons, findFromHead, h.next] at hrun
      split_ifs at hrun with hx
      · obtain ⟨rfl, rfl⟩ := Prod.mk.inj (Option.some.inj hrun)
        exact ⟨a, x :: b, rfl, rfl, rfl, hlast⟩
      · rw [← List.getLast?_concat (l := a)] at hrun
        rw [List.append_cons] at h ⊢
        refine ih h (fun y hy => ?_) hrun
        rw [List.getLast?_concat] at hy
        rw [← Option.some.inj hy]
        simpa [seqGeq, seqLt] using hx

/-- The search from the tail, too. -/
theorem findFromTail_split {seq : Seq} {left right : Option Ptr} (fuel : ℕ) :
    ∀ {a b : List Ptr}, Represents st (a ++ b) →
      findFromTail st seq fuel b.head? a.getLast? = some (left, right) →
      ∃ c d, c ++ d = a ++ b ∧ left = c.getLast? ∧ right = d.head? ∧
        ∀ y ∈ left, seqLt (st.segs y).seq seq = true := by
  induction fuel with
  | zero => exact fun _ h => nomatch h
  | succ fuel ih =>
    intro a b h hrun
    rcases List.eq_nil_or_concat a with rfl | ⟨a, x, rfl⟩
    · obtain ⟨rfl, rfl⟩ := Prod.mk.inj (Option.some.inj hrun)
      exact ⟨[], b, rfl, rfl, rfl, fun _ hy => nomatch hy⟩
    · rw [List.concat_eq_append, List.append_assoc, List.singleton_append] at h ⊢
      have hprev : st.links.prev x = a.getLast? := h.links.cell.2
      rw [List.concat_eq_append, List.getLast?_concat, findFromTail, hprev] at hrun
      split_ifs at hrun with hx
      · obtain ⟨rfl, rfl⟩ := Prod.mk.inj (Option.some.inj hrun)
        refine ⟨a ++ [x], b, by simp, (List.getLast?_concat).symm, rfl, fun y hy => ?_⟩
        rwa [← Option.some.inj hy]
      · exact ih h hrun

theorem findNeighbours_split {seq : Seq} {left right : Option Ptr} {fuel : ℕ} (h : Represents st l)
    (hrun : findNeighbours fuel st seq = some (left, right)) :
    ∃ c d, c ++ d = l ∧ left = c.getLast? ∧ right = d.head? ∧
      ∀ y ∈ left, seqLt (st.segs y).seq seq = true := by
  unfold findNeighbours at hrun
  split_ifs at hrun
  · rw [h.head] at hrun
    exact findFromHead_split fuel (a := []) h (fun _ hy => nomatch hy) hrun
  · rw [h.tail] at hrun
    have h' : Represents st (l ++ []) := by rwa [List.append_nil]
    have hsplit := findFromTail_split fuel h' hrun
    rwa [List.append_nil] at hsplit

/-- What is queued does not split a segment, and no segment starts `2 ^ 31` in front of its end. -/
structure QueueFits (fuel : ℕ) (cfg : TcpConfig) (st : StreamTracker) (l : List Ptr) (p : Packet) : Prop where
  split : effectivePolicy cfg st = .last → ∀ left right,
    findNeighbours fuel st p.seq = some (some left, right) → ¬Within p (st.segs left)
  far : ∀ z ∈ l, off (st.segs z).seq p.endSeq ≠ 2 ^ 31

/-- `StreamQueue`. -/
theorem streamQueue_counted {fuel : ℕ} {cfg : TcpConfig} {p : Packet} {r : InsertResult} (h : Counted st l)
    (hfits : QueueFits fuel cfg st l p) (hrun : streamQueue fuel cfg st p = some (st', r)) :
    ∃ l, Counted st' l := by
  unfold streamQueue at hrun
  split_ifs at hrun
  · obtain ⟨rfl, rfl⟩ := Prod.mk.inj (Option.some.inj hrun)
    exact ⟨l, h⟩
  · have h' : Counted st (l ++ []) := by rwa [List.append_nil]
    rw [h.tail] at hrun
    obtain hadd | ⟨st₁, hadd, hcounted, -⟩ := h'.addStreamNode p p.dsize 0 0 p.seq <;>
      rw [hadd] at hrun <;> obtain ⟨rfl, rfl⟩ := Prod.mk.inj (Option.some.inj hrun)
    · exact ⟨l, h⟩
    · exact ⟨_, hcounted⟩
  · obtain ⟨⟨left, right⟩, hfind, hrun⟩ := Option.bind_eq_some_iff.1 hrun
    obtain ⟨a, b, rfl, rfl, rfl, hlt⟩ := findNeighbours_split h.toRepresents hfind
    rcases List.eq_nil_or_concat a with rfl | ⟨a, x, rfl⟩
    · exact queueRight_counted (a := []) h (fun z hz => hfits.far z hz) hrun
    · rw [List.concat_eq_append, List.getLast?_concat] at hfind hrun hlt
      have hsplit : ¬(effectivePolicy cfg st = .last ∧ Within p (st.segs x)) := fun hlast =>
        hfits.split hlast.1 _ _ hfind hlast.2
      have hfar := hfits.far
      rw [List.concat_eq_append, List.append_assoc, List.singleton_append] at h hfar
      exact queueLeft_counted h (hlt x rfl) hsplit
        (fun z hz => hfar z (List.mem_append_right _ (List.mem_cons_of_mem _ hz))) hrun

/-- `NewQueue`. -/
theorem newQueue_counted (h : Counted st l) (cfg : TcpConfig) (p : Packet) :
    ∃ l, Counted (newQueue cfg st p) l := by
  have hadd : ∀ slide trunc seq, ∃ l, Counted (addStreamNode st p p.dsize slide trunc seq none).1 l := by
    intro slide trunc seq
    obtain hadd | ⟨st₁, hadd, hcounted, -⟩ :=
      Counted.addStreamNode (a := []) (b := l) h p p.dsize slide trunc seq
    · rw [List.getLast?_nil] at hadd
      rw [hadd]
      exact ⟨l, h⟩
    · rw [List.getLast?_nil] at hadd
      rw [hadd]
      exact ⟨_, hcounted⟩
  unfold newQueue
  dsimp only
  by_cases hignore : st.flushPolicy ≠ .ignore
  swap
  · rw [if_neg hignore]
    exact ⟨l, h⟩
  rw [if_pos hignore]
  by_cases hlarge : ignoreLargePkt cfg st p = true
  · rw [if_pos hlarge]
    exact ⟨l, h⟩
  rw [if_neg hlarge]
  by_cases hwin : seqGt st.rWinBase (if p.syn then p.seq + 1 else p.seq) = true
  · rw [if_pos hwin]
    by_cases hfull : p.dsize.setWidth 32 ≤ st.rWinBase - p.seq
    · rw [if_pos hfull]
      exact ⟨l, h⟩
    · rw [if_neg hfull]
      exact hadd _ _ _
  · rw [if_neg hwin]
    exact hadd _ _ _

end Snort.Stream5
