import Snort.Stream5.FlushModel
import Snort.Stream5.SegList

/-!
# Segments cut at a flush point

`FlushStream` and `Stream5SeglistDeleteNode` both cut a segment, where a flush ends inside it.

* `CutAt`: what is to be left of a segment from a sequence number on;
* `Leaves`: a tracker with that segment in front of the later ones;
* `Comes`: `FlushStream` comes to a segment;
* `getSegmentFlushSize_eq`: how many bytes of a segment are copied;
* **`cut_iff`**: when the right bytes are left.
-/

namespace Snort.Stream5

open HiPaf (Byte)

/-- A sequence number strictly inside a segment. -/
def Inside (s : Seq) (ss : StreamSegment) : Prop := 0 < off ss.seq s ∧ off ss.seq s < ss.size.toNat

/-- The data of a segment are among what was captured. -/
def Captured (ss : StreamSegment) : Prop := ss.payload + ss.size.toNat ≤ ss.data.length

instance (s : Seq) (ss : StreamSegment) : Decidable (Inside s ss) := inferInstanceAs (Decidable (_ ∧ _))

instance (ss : StreamSegment) : Decidable (Captured ss) := inferInstanceAs (Decidable (_ ≤ _))

/-- What is to be left of a segment from a sequence number on: the payload is at the byte that had it. -/
structure CutAt (s : Seq) (ss cut : StreamSegment) : Prop where
  seq : cut.seq = s
  size : cut.size.setWidth 32 = ss.fin - s
  payload : cut.data.drop cut.payload = ss.data.drop (ss.payload + off ss.seq s)

/-- A tracker in which a segment has been cut: in front of the later segments, which are unchanged, stands
what is left of it. -/
def Leaves (st st' : StreamTracker) (x : Ptr) (b : List Ptr) (s : Seq) : Prop :=
  ∃ a y, Represents st' (a ++ y :: b) ∧ CutAt s (st.segs x) (st'.segs y) ∧
    ∀ z ∈ b, st'.segs z = st.segs z

/-- `Stream5SeglistDeleteNode` trims a segment on the left. -/
def LeftTrims (st : StreamTracker) (x : Ptr) (flushSeq : Seq) : Prop :=
  st.pafActive ∧ flushSeq ≠ 0 ∧ flushSeq < (st.segs x).fin ∧
    (st.segs x).fin - flushSeq < (st.segs x).size.setWidth 32

instance (st : StreamTracker) (x : Ptr) (flushSeq : Seq) : Decidable (LeftTrims st x flushSeq) :=
  inferInstanceAs (Decidable (_ ∧ _))

/-- The bytes of a segment that `FlushStream` copies. -/
abbrev bytesToCopy (st : StreamTracker) (base s : Seq) (size : U32) (x : Ptr) : U32 :=
  getSegmentFlushSize st.pafActive (st.segs x) base s size

/-- `FlushStream` copies a segment whole and goes on with the next one. -/
structure Passes (st : StreamTracker) (base s : Seq) (size : U32) (y next : Ptr) : Prop where
  before : seqLt (st.segs y).seq s = true
  whole : ¬bytesToCopy st base s size y < (st.segs y).size.setWidth 32
  noGap : (st.segs y).fin = (st.segs next).seq
  room : ¬size ≤ (st.segs y).seq - base + bytesToCopy st base s size y

/-- `FlushStream` comes to a segment, over others. -/
def Comes (st : StreamTracker) (base s : Seq) (size : U32) : List Ptr → Ptr → Prop
  | [], _ => True
  | y :: l, x => Passes st base s size y (l.head?.getD x) ∧ Comes st base s size l x

section

variable {st st' : StreamTracker} {a b : List Ptr} {x y : Ptr} {s base : Seq} {size : U32}
  {ss cut : StreamSegment}

/-! ### The cut -/

theorem Represents.eq {l l' : List Ptr} (h : Represents st l) (h' : Represents st l') : l = l' :=
  h.links.eq h'.links (h.head.symm.trans h'.head)

/-- What is in front of the later segments. -/
theorem leaves_iff (h : Represents st' (a ++ y :: b)) (hb : ∀ z ∈ b, st'.segs z = st.segs z) :
    Leaves st st' x b s ↔ CutAt s (st.segs x) (st'.segs y) := by
  constructor
  · rintro ⟨a', y', h', hcut, -⟩
    have heq := h.eq h'
    rw [List.append_cons a, List.append_cons a'] at heq
    obtain ⟨-, hlast⟩ := List.append_inj' (List.append_cancel_right heq) rfl
    obtain rfl := List.head_eq_of_cons_eq hlast
    exact hcut
  · intro hcut
    exact ⟨a, y, h, hcut, hb⟩

/-- The payload is at one place only. -/
theorem drop_eq_iff {l : List Byte} {i j : ℕ} (hj : j < l.length) :
    l.drop i = l.drop j ↔ i = j := by
  constructor
  · intro h
    have hlen := congrArg List.length h
    rw [List.length_drop, List.length_drop] at hlen
    omega
  · rintro rfl
    rfl

theorem Inside.off_lt (hs : Inside s ss) (hcap : Captured ss) :
    ss.payload + off ss.seq s < ss.data.length :=
  (Nat.add_lt_add_left hs.2 _).trans_le hcap

/-- A segment trimmed on the left. -/
def trimmedLeft (ss : StreamSegment) (flushSeq : Seq) : StreamSegment :=
  { ss with seq := flushSeq, size := ss.size - (ss.fin - flushSeq).setWidth 16 }

theorem seglistDeleteNode_trim (h : Represents st (a ++ x :: b)) (htrim : LeftTrims st x s) :
    Represents (seglistDeleteNode st x s).1 (a ++ x :: b) ∧
      (seglistDeleteNode st x s).1.segs =
        Function.update st.segs x (trimmedLeft (st.segs x) s) := by
  unfold LeftTrims at htrim
  rw [seglistDeleteNode]
  dsimp only
  rw [if_pos htrim]
  exact ⟨h.congr rfl rfl rfl rfl rfl, rfl⟩

/-- The later segments are other ones. -/
theorem Represents.ne_of_mem (h : Represents st (a ++ x :: b)) {z : Ptr} (hz : z ∈ a ∨ z ∈ b) :
    z ≠ x := by
  have hnd := h.links.nodup
  rw [List.nodup_middle, List.nodup_cons] at hnd
  rintro rfl
  exact hnd.1 (List.mem_append.2 hz)

/-- A segment trimmed on the left keeps its payload where it was. -/
theorem not_leaves_trim (h : Represents st (a ++ x :: b)) (hcap : Captured (st.segs x))
    (hs : Inside s (st.segs x)) (htrim : LeftTrims st x s) :
    ¬Leaves st (seglistDeleteNode st x s).1 x b s := by
  obtain ⟨hrep, hsegs⟩ := seglistDeleteNode_trim h htrim
  have hlater : ∀ z ∈ b, (seglistDeleteNode st x s).1.segs z = st.segs z := by
    intro z hz
    rw [hsegs]
    exact Function.update_of_ne (h.ne_of_mem (Or.inr hz)) _ _
  rw [leaves_iff hrep hlater, hsegs, Function.update_self]
  intro hcut
  have hpayload := (drop_eq_iff (hs.off_lt hcap)).1 hcut.payload
  have hpos := hs.1
  dsimp only [trimmedLeft] at hpayload
  omega

/-- How many bytes of a segment are copied: those in the buffer's room, and with PAF those in front of the
flush point. -/
theorem getSegmentFlushSize_eq (paf : Bool) (hsize : size.toNat < 2 ^ 31)
    (ho : off base ss.seq ≤ size.toNat) (hlt : seqLt ss.seq s = true) :
    (getSegmentFlushSize paf ss base s size).toNat =
      if paf then min (min ss.size.toNat (size.toNat - off base ss.seq)) (off ss.seq s)
      else min ss.size.toNat (size.toNat - off base ss.seq) := by
  have hss := ss.size.isLt
  have hwidth : (ss.size.setWidth 32).toNat = ss.size.toNat := by
    rw [BitVec.toNat_setWidth]
    omega
  have hsum : (ss.seq - base + ss.size.setWidth 32).toNat = off base ss.seq + ss.size.toNat := by
    rw [BitVec.toNat_add, hwidth, off]
    unfold off at ho
    omega
  have hfirst : (if size < ss.seq - base + ss.size.setWidth 32 then size - (ss.seq - base)
      else ss.size.setWidth 32).toNat = min ss.size.toNat (size.toNat - off base ss.seq) := by
    split_ifs with h
    · rw [BitVec.lt_def, hsum] at h
      rw [BitVec.toNat_sub_of_le (by rw [BitVec.le_def]; exact ho), ← off]
      omega
    · rw [BitVec.lt_def, hsum] at h
      rw [hwidth]
      omega
  unfold getSegmentFlushSize
  dsimp only
  generalize hn : (if size < ss.seq - base + ss.size.setWidth 32 then size - (ss.seq - base)
      else ss.size.setWidth 32) = n at hfirst ⊢
  have hgt := seqGt_add_iff (n := n) (by omega) hlt
  cases paf with
  | false => simpa using hfirst
  | true =>
    simp only [true_and, if_true]
    split_ifs with h
    · rw [← off]
      have := hgt.1 h
      omega
    · have := hgt.not.1 h
      omega

/-! ### A round of `FlushStream` -/

section Round

variable (f : FlushState) (n : U32)

@[simp] theorem write_st (i j : ℕ) : (f.write size ss i j).st = f.st := by
  unfold FlushState.write
  split <;> rfl

@[simp] theorem write_missingPkt (i j : ℕ) : (f.write size ss i j).missingPkt = f.missingPkt := by
  unfold FlushState.write
  split <;> rfl

@[simp] theorem copy_st : (f.copy size ss n).st = f.st := by
  unfold FlushState.copy
  dsimp only
  split_ifs <;> simp

@[simp] theorem copy_missingPkt : (f.copy size ss n).missingPkt = f.missingPkt := by
  unfold FlushState.copy
  dsimp only
  split_ifs <;> simp

@[simp] theorem checkGap_st : (f.checkGap x s).st = f.st := by
  unfold FlushState.checkGap
  dsimp only
  split <;> split_ifs <;> rfl

variable (s size) in
theorem round_whole (normalize : Bool) (h : ¬n < (f.st.segs x).size.setWidth 32) :
    (f.round normalize s size x n).st = markSegment f.st x ∧
      (f.round normalize s size x n).missingPkt = (f.checkGap x s).missingPkt := by
  unfold FlushState.round
  dsimp only
  rw [if_neg h]
  simp

variable (s size) in
theorem round_cut (normalize : Bool) (h : n < (f.st.segs x).size.setWidth 32) :
    (f.round normalize s size x n).st = cutSegment normalize f.st x s n := by
  unfold FlushState.round
  dsimp only
  rw [if_pos h]
  simp

theorem checkGap_next {next : Ptr} (hnext : f.st.links.next x = some next)
    (h : (f.st.segs x).fin = (f.st.segs next).seq) : f.checkGap x s = f := by
  unfold FlushState.checkGap
  rw [hnext]
  exact if_neg (not_not.2 h)

end Round

/-- A segment that is marked stays where it is. -/
theorem Represents.markSegment {l : List Ptr} (h : Represents st l) (x : Ptr) :
    Represents (markSegment st x) l := h.congr rfl rfl rfl rfl rfl

theorem markSegment_segs_of_ne {z : Ptr} (hz : z ≠ x) : (markSegment st x).segs z = st.segs z :=
  Function.update_of_ne hz _ _

/-- **`FlushStream` comes to a segment** and has left it and the later ones as they were. -/
theorem flushLoop_comes {normalize : Bool} {r : FlushState} {l : List Ptr} (hcomes : Comes st base s size l x) :
    ∀ {a : List Ptr} {f : FlushState} {fuel : ℕ}, Represents f.st (a ++ (l ++ x :: b)) →
      (∀ z ∈ l ++ x :: b, f.st.segs z = st.segs z) → f.st.pafActive = st.pafActive →
      f.missingPkt = false →
      flushLoop normalize base s size fuel f (some (l.head?.getD x)) = some r →
      ∃ (fuel' : ℕ) (f' : FlushState), flushLoop normalize base s size fuel' f' (some x) = some r ∧
        Represents f'.st (a ++ (l ++ x :: b)) ∧ (∀ z ∈ x :: b, f'.st.segs z = st.segs z) ∧
        f'.st.pafActive = st.pafActive := by
  induction l with
  | nil => exact fun h hsame hpaf _ hrun => ⟨_, _, hrun, h, hsame, hpaf⟩
  | cons y l ih =>
    intro a f fuel h hsame hpaf hmiss hrun
    obtain ⟨hpass, hcomes⟩ := hcomes
    have hnext : f.st.links.next y = some (l.head?.getD x) := by
      rw [h.next]
      cases l <;> rfl
    have hmem : l.head?.getD x ∈ y :: l ++ x :: b := by
      cases l <;> simp
    have hy := hsame y (by simp)
    have hn : getSegmentFlushSize f.st.pafActive (f.st.segs y) base s size = bytesToCopy st base s size y := by
      rw [hy, hpaf]
    cases fuel with
    | zero => cases hrun
    | succ fuel =>
      rw [List.head?_cons, Option.getD_some, flushLoop] at hrun
      dsimp only at hrun
      rw [hn] at hrun
      have hbefore : seqLt (f.st.segs y).seq s = true := by
        rw [hy]
        exact hpass.before
      have hwhole : ¬bytesToCopy st base s size y < (f.st.segs y).size.setWidth 32 := by
        rw [hy]
        exact hpass.whole
      have hgap : f.checkGap y s = f := by
        refine checkGap_next f hnext ?_
        rw [hy, hsame _ hmem]
        exact hpass.noGap
      obtain ⟨hst, hmissing⟩ := round_whole s size f _ normalize hwhole
      rw [hgap, hmiss] at hmissing
      rw [if_pos hbefore, hmissing, if_neg Bool.false_ne_true, hst] at hrun
      have hseq : ((markSegment f.st y).segs y).seq = (st.segs y).seq := by
        rw [← hy]
        show (Function.update f.st.segs y _ y).seq = _
        rw [Function.update_self]
      rw [hseq, if_neg hpass.room] at hrun
      have hlinks : (markSegment f.st y).links.next y = some (l.head?.getD x) := hnext
      rw [hlinks] at hrun
      have hrep : Represents (f.round normalize s size y (bytesToCopy st base s size y)).st
          (a ++ [y] ++ (l ++ x :: b)) := by
        rw [hst, List.append_assoc]
        exact h.markSegment y
      have hsame' : ∀ z ∈ l ++ x :: b,
          (f.round normalize s size y (bytesToCopy st base s size y)).st.segs z = st.segs z := by
        intro z hz
        rw [hst, markSegment_segs_of_ne (h.ne_of_mem (Or.inr hz))]
        exact hsame z (List.mem_cons_of_mem _ hz)
      obtain ⟨fuel', f', hrun', hrep', hseg, hpaf'⟩ := ih hcomes hrep hsame' (by rw [hst]; exact hpaf) hmissing hrun
      rw [List.append_assoc] at hrep'
      exact ⟨fuel', f', hrun', hrep', hseg, hpaf'⟩

/-! ### The cut of `FlushStream` -/

/-- What the cut leaves, without a copy. -/
def cutRest (ss : StreamSegment) (s : Seq) (n : U32) : StreamSegment :=
  { ss with seq := s, size := ss.size - n.setWidth 16, payload := ss.payload + n.toNat }

/-- What the cut leaves, in a copy. -/
def dupRest (ss : StreamSegment) (s : Seq) (n : U32) : StreamSegment :=
  { dupSegment ss with seq := s, size := ss.size - n.setWidth 16, data := ss.data.drop n.toNat }

theorem cutSegment_rest (h : Represents st (a ++ x :: b)) (s : Seq) (n : U32) :
    Represents (cutSegment false st x s n) (a ++ x :: b) ∧
      (cutSegment false st x s n).segs = Function.update st.segs x (cutRest (st.segs x) s n) :=
  ⟨h.congr rfl rfl rfl rfl rfl, rfl⟩

theorem cutSegment_dup (h : Represents st (a ++ x :: b)) (s : Seq) (n : U32) :
    Represents (cutSegment true st x s n) (a ++ [x] ++ st.fresh :: b) ∧
      (cutSegment true st x s n).segs st.fresh = dupRest (st.segs x) s n ∧
      ∀ z ∈ b, (cutSegment true st x s n).segs z = st.segs z := by
  have hrep : Represents st (a ++ [x] ++ b) := by rwa [← List.append_cons]
  have hadd := hrep.addSegment (dupSegment (st.segs x))
  rw [List.getLast?_concat] at hadd
  refine ⟨hadd.congr rfl rfl rfl rfl rfl, ?_, fun z hz => ?_⟩
  · refine (Function.update_self _ _ _).trans ?_
    simp [dupRest, dupSegment]
  · have hfresh : z ≠ st.fresh := fun heq =>
      Nat.lt_irrefl _ (heq ▸ h.fresh z (List.mem_append_right _ (List.mem_cons_of_mem _ hz)))
    have hx : z ≠ x := h.ne_of_mem (Or.inr hz)
    exact (Function.update_of_ne hfresh _ _).trans ((Function.update_of_ne hx _ _).trans
      (Function.update_of_ne hfresh _ _))

/-- The loop ends with the segment that it cuts. -/
theorem flushLoop_cut {normalize : Bool} {f r : FlushState} {fuel : ℕ} (h : Represents f.st (a ++ x :: b))
    (hlt : seqLt (f.st.segs x).seq s = true)
    (hcut : getSegmentFlushSize f.st.pafActive (f.st.segs x) base s size < (f.st.segs x).size.setWidth 32)
    (hnext : normalize = false → ∀ y ∈ b.head?, seqLt (f.st.segs y).seq s = false)
    (hrun : flushLoop normalize base s size fuel f (some x) = some r) :
    r.st = cutSegment normalize f.st x s
      (getSegmentFlushSize f.st.pafActive (f.st.segs x) base s size) := by
  have hst := round_cut s size f _ normalize hcut
  -- the next segment does not start in front of `s`
  have hbehind : ∀ y ∈ (cutSegment normalize f.st x s
      (getSegmentFlushSize f.st.pafActive (f.st.segs x) base s size)).links.next x,
      seqLt ((cutSegment normalize f.st x s
        (getSegmentFlushSize f.st.pafActive (f.st.segs x) base s size)).segs y).seq s = false := by
    intro y hy
    cases normalize with
    | false =>
      obtain ⟨hrep, hsegs⟩ := cutSegment_rest h s
        (getSegmentFlushSize f.st.pafActive (f.st.segs x) base s size)
      rw [hrep.next] at hy
      rw [hsegs, Function.update_of_ne (h.ne_of_mem (Or.inr (List.mem_of_mem_head? hy)))]
      exact hnext rfl y hy
    | true =>
      obtain ⟨hrep, hseg, -⟩ := cutSegment_dup h s
        (getSegmentFlushSize f.st.pafActive (f.st.segs x) base s size)
      rw [List.append_assoc, List.singleton_append] at hrep
      rw [hrep.next] at hy
      obtain rfl : f.st.fresh = y := Option.some.inj hy
      rw [hseg]
      exact seqLt_self s
  cases fuel with
  | zero => cases hrun
  | succ fuel =>
    rw [flushLoop] at hrun
    dsimp only at hrun
    rw [if_pos hlt] at hrun
    rw [← hst] at hbehind ⊢
    split_ifs at hrun
    · rw [Option.some.inj hrun]
    · rw [Option.some.inj hrun]
    · cases fuel with
      | zero => cases hrun
      | succ fuel =>
        cases hy : (f.round normalize s size x
            (getSegmentFlushSize f.st.pafActive (f.st.segs x) base s size)).st.links.next x with
        | none =>
          rw [hy] at hrun
          rw [Option.some.inj hrun]
        | some y =>
          rw [hy, flushLoop] at hrun
          dsimp only at hrun
          rw [hbehind y hy, if_neg Bool.false_ne_true] at hrun
          rw [Option.some.inj hrun]

/-! ### `FlushStream` -/

/-- The search for the first segment that has not been flushed. -/
theorem skipBuffered_eq {l : List Ptr} (hbuffered : ∀ z ∈ a, (st.segs z).buffered = true)
    (hx : (st.segs x).buffered = false) :
    ∀ {c : List Ptr} {fuel : ℕ} {r : Option Ptr}, Represents st (c ++ (a ++ x :: l)) →
      skipBuffered st fuel (a.head?.or (some x)) = some r → r = some x := by
  induction a with
  | nil =>
    intro c fuel r h hrun
    cases fuel with
    | zero => cases hrun
    | succ fuel =>
      rw [List.head?_nil, Option.none_or, skipBuffered, hx] at hrun
      exact (Option.some.inj hrun).symm
  | cons y a ih =>
    intro c fuel r h hrun
    cases fuel with
    | zero => cases hrun
    | succ fuel =>
      rw [List.head?_cons, Option.some_or, skipBuffered, hbuffered y List.mem_cons_self, if_pos rfl] at hrun
      have hnext : st.links.next y = a.head?.or (some x) := by
        rw [h.next]
        cases a <;> rfl
      rw [hnext] at hrun
      refine ih (fun z hz => hbuffered z (List.mem_cons_of_mem _ hz)) (c := c ++ [y]) ?_ hrun
      rwa [List.append_assoc]

/-- `FlushStream` comes to a segment over those flushed before and others, and copies it in part. -/
structure Cuts (st : StreamTracker) (a l : List Ptr) (x : Ptr) (s : Seq) (size : U32) : Prop where
  buffered : ∀ z ∈ a, (st.segs z).buffered = true
  first : (st.segs (l.head?.getD x)).buffered = false
  comes : Comes st (st.segs (l.head?.getD x)).seq s size l x
  part : bytesToCopy st (st.segs (l.head?.getD x)).seq s size x < (st.segs x).size.setWidth 32

/-- `FlushStream` leaves the cut. -/
theorem flushStream_cut {normalize : Bool} {l : List Ptr} {fuel : ℕ} {out : List Byte} {ret : ℤ}
    (h : Represents st (a ++ (l ++ x :: b))) (hlt : seqLt (st.segs x).seq s = true)
    (hnext : ∀ y ∈ b.head?, seqLt (st.segs y).seq s = false) (hcuts : Cuts st a l x s size)
    (hsegs : segsToFlush fuel normalize st ≠ some 0)
    (hrun : flushStream fuel normalize st s size = some (st', out, ret)) :
    ∃ f : StreamTracker, Represents f (a ++ (l ++ x :: b)) ∧ (∀ z ∈ x :: b, f.segs z = st.segs z) ∧
      st' = cutSegment normalize f x s (bytesToCopy st (st.segs (l.head?.getD x)).seq s size x) := by
  have hhead : st.seglist = a.head?.or (some (l.head?.getD x)) := by
    rw [h.head]
    cases a with
    | nil => cases l <;> rfl
    | cons y a => rfl
  have htail : st.seglistTail ≠ none := by
    rw [h.tail]
    simp
  rw [flushStream] at hrun
  cases hn : segsToFlush fuel normalize st with
  | none => simp [hn] at hrun
  | some n =>
    have hne : ¬(n = 0 ∨ st.seglist = none ∨ st.seglistTail = none) := by
      rintro (rfl | hlist | hlist)
      · exact hsegs hn
      · rw [hhead] at hlist
        cases a <;> simp at hlist
      · exact htail hlist
    rw [hn, Option.bind_eq_bind, Option.bind_some, if_neg hne] at hrun
    cases hskip : skipBuffered st fuel st.seglist with
    | none => simp [hskip] at hrun
    | some y =>
      obtain rfl : y = some (l.head?.getD x) := by
        rw [hhead] at hskip
        refine skipBuffered_eq (c := []) (l := (l ++ x :: b).tail) hcuts.buffered hcuts.first ?_ hskip
        cases l <;> exact h
      rw [hskip, Option.bind_eq_bind, Option.bind_some] at hrun
      dsimp only at hrun
      obtain ⟨r, hloop, heq⟩ := Option.bind_eq_some_iff.1 hrun
      obtain ⟨fuel', f, hlast, hrep, hsame, hpaf⟩ := flushLoop_comes hcuts.comes
        (f := ⟨st, [], 0, 0, false, 0⟩) h (fun _ _ => rfl) rfl rfl hloop
      have hx := hsame x List.mem_cons_self
      have hcopy : getSegmentFlushSize f.st.pafActive (f.st.segs x) (st.segs (l.head?.getD x)).seq s size =
          bytesToCopy st (st.segs (l.head?.getD x)).seq s size x := by
        rw [hx, hpaf]
      have hrep' : Represents f.st (a ++ l ++ x :: b) := by rwa [List.append_assoc]
      have hcut := flushLoop_cut hrep' (by rw [hx]; exact hlt) (by rw [hcopy, hx]; exact hcuts.part)
        (fun _ y hy => by
          rw [hsame y (List.mem_cons_of_mem _ (List.mem_of_mem_head? hy))]
          exact hnext y hy) hlast
      rw [hcopy] at hcut
      refine ⟨f.st, hrep, hsame, ?_⟩
      rw [← hcut]
      exact ((Prod.mk.inj (Option.some.inj heq)).1).symm

/-- The offset of a segment that `FlushStream` comes to. -/
theorem Comes.offset_le (hsize : size.toNat < 2 ^ 31) {l : List Ptr} (h : Comes st base s size l x)
    (hbase : off base (st.segs (l.head?.getD x)).seq ≤ size.toNat) :
    off base (st.segs x).seq ≤ size.toNat := by
  induction l with
  | nil => exact hbase
  | cons y l ih =>
    obtain ⟨hpass, h⟩ := h
    rw [List.head?_cons, Option.getD_some] at hbase
    have hn := getSegmentFlushSize_eq st.pafActive hsize hbase hpass.before
    have hwhole := hpass.whole
    have hroom := hpass.room
    have hlt := (st.segs y).size.isLt
    have hwidth := toNat_setWidth_size (st.segs y).size
    have hle : (bytesToCopy st base s size y).toNat = (st.segs y).size.toNat := by
      rw [BitVec.lt_def, hwidth] at hwhole
      refine le_antisymm ?_ (not_lt.1 hwhole)
      rw [hn]
      split_ifs <;> omega
    have hsum : ((st.segs y).seq - base + bytesToCopy st base s size y).toNat =
        off base (st.segs y).seq + (st.segs y).size.toNat := by
      rw [BitVec.toNat_add, hle, ← off]
      omega
    rw [BitVec.le_def, hsum] at hroom
    refine ih h ?_
    rw [← hpass.noGap, StreamSegment.fin, off_add (by omega), hwidth]
    omega

/-! ### When the right bytes are left -/

theorem Inside.seqLt (hs : Inside s ss) : seqLt ss.seq s = true := by
  have := ss.size.isLt
  obtain ⟨hpos, hlt⟩ := hs
  exact seqLt_iff_off.2 ⟨hpos, by omega⟩

/-- The number of bytes that are cut off is right. -/
theorem bytesToCopy_eq_iff (hsize : size.toNat < 2 ^ 31) (ho : off base (st.segs x).seq ≤ size.toNat)
    (hs : Inside s (st.segs x)) :
    (bytesToCopy st base s size x).toNat = off (st.segs x).seq s ↔
      st.pafActive = true ∧ off base s ≤ size.toNat ∨ off base s = size.toNat := by
  have hn := getSegmentFlushSize_eq st.pafActive hsize ho hs.seqLt
  obtain ⟨hpos, hlt⟩ := hs
  have := (st.segs x).size.isLt
  have hsum : off base s = off base (st.segs x).seq + off (st.segs x).seq s := by
    unfold off at *
    bv_omega
  rw [hn, hsum]
  cases st.pafActive with
  | false => simp only [Bool.false_eq_true, if_false, false_and, false_or]; omega
  | true => simp only [if_true, true_and]; omega

/-- The bytes from a sequence number on. -/
theorem Inside.toNat_fin_sub (hs : Inside s ss) :
    (ss.fin - s).toNat = ss.size.toNat - off ss.seq s := by
  have hwidth := toNat_setWidth_size ss.size
  have hlt := ss.size.isLt
  obtain ⟨hpos, hin⟩ := hs
  unfold StreamSegment.fin off at *
  generalize ss.size.setWidth 32 = w at *
  bv_omega

/-- The size of what is left is right. -/
theorem size_eq_iff {n : U32} (hs : Inside s ss) (hn : n.toNat ≤ ss.size.toNat) :
    (ss.size - n.setWidth 16).setWidth 32 = ss.fin - s ↔ n.toNat = off ss.seq s := by
  have hlt := hs.2
  rw [← BitVec.toNat_inj, toNat_setWidth_size, toNat_sub_setWidth hn, hs.toNat_fin_sub]
  omega

/-- The cut is right if it is at the sequence number. -/
theorem cutAt_rest_iff {n : U32} (hs : Inside s ss) (hcap : Captured ss) :
    CutAt s ss (cutRest ss s n) ↔ n.toNat = off ss.seq s := by
  constructor
  · intro h
    have hpayload := (drop_eq_iff (hs.off_lt hcap)).1 h.payload
    exact Nat.add_left_cancel hpayload
  · intro h
    refine ⟨rfl, (size_eq_iff hs (h.trans_le hs.2.le)).2 h, ?_⟩
    rw [← h]
    rfl

/-- In a copy the payload must have been at the start of the data, too. -/
theorem cutAt_dup_iff {n : U32} (hs : Inside s ss) (hcap : Captured ss)
    (hn : n.toNat < ss.size.toNat) :
    CutAt s ss (dupRest ss s n) ↔ n.toNat = off ss.seq s ∧ ss.payload = 0 := by
  have hdata : (dupRest ss s n).data.drop (dupRest ss s n).payload = ss.data.drop n.toNat := rfl
  constructor
  · intro h
    have hsize := (size_eq_iff hs hn.le).1 h.size
    have hpayload := (drop_eq_iff (hs.off_lt hcap)).1 (hdata.symm.trans h.payload)
    exact ⟨hsize, by omega⟩
  · rintro ⟨h, hzero⟩
    refine ⟨rfl, (size_eq_iff hs hn.le).2 h, hdata.trans ?_⟩
    rw [h, hzero, Nat.zero_add]

/-- **When a cut leaves the bytes from a sequence number on**: the left trim of
`Stream5SeglistDeleteNode` never does; `FlushStream` does where it copies just the bytes in front of it,
because PAF stops it there or the buffer is full, and where a copy is made the payload is at the start of
the data. -/
theorem cut_iff {l : List Ptr} (h : Represents st (a ++ (l ++ x :: b))) (hcap : Captured (st.segs x))
    (hs : Inside s (st.segs x)) (hnext : ∀ y ∈ b.head?, seqLt (st.segs y).seq s = false) :
    (LeftTrims st x s → ¬Leaves st (seglistDeleteNode st x s).1 x b s) ∧
    ∀ (fuel : ℕ) (normalize : Bool) (size : U32) (st' : StreamTracker) (out : List Byte) (ret : ℤ),
      size.toNat < 2 ^ 31 → Cuts st a l x s size → segsToFlush fuel normalize st ≠ some 0 →
      flushStream fuel normalize st s size = some (st', out, ret) →
      (Leaves st st' x b s ↔
        (st.pafActive = true ∧ off (st.segs (l.head?.getD x)).seq s ≤ size.toNat ∨
          off (st.segs (l.head?.getD x)).seq s = size.toNat) ∧
        (normalize = true → (st.segs x).payload = 0)) := by
  have hrep : Represents st (a ++ l ++ x :: b) := by rwa [List.append_assoc]
  refine ⟨not_leaves_trim hrep hcap hs, ?_⟩
  intro fuel normalize size st' out ret hsize hcuts hsegs hrun
  obtain ⟨f, hf, hsame, rfl⟩ := flushStream_cut h hs.seqLt hnext hcuts hsegs hrun
  have hzero : off (st.segs (l.head?.getD x)).seq (st.segs (l.head?.getD x)).seq ≤ size.toNat := by
    rw [off, BitVec.sub_self]
    exact Nat.zero_le _
  have hcount := bytesToCopy_eq_iff hsize (hcuts.comes.offset_le hsize hzero) hs
  have hx := hsame x List.mem_cons_self
  have hf' : Represents f (a ++ l ++ x :: b) := by rwa [List.append_assoc]
  rw [← hcount]
  cases normalize with
  | false =>
    obtain ⟨hrep', hsegs'⟩ := cutSegment_rest hf' s
      (bytesToCopy st (st.segs (l.head?.getD x)).seq s size x)
    have hlater : ∀ z ∈ b, (cutSegment false f x s
        (bytesToCopy st (st.segs (l.head?.getD x)).seq s size x)).segs z = st.segs z := by
      intro z hz
      rw [hsegs', Function.update_of_ne (hf'.ne_of_mem (Or.inr hz)), hsame z (List.mem_cons_of_mem _ hz)]
    rw [leaves_iff hrep' hlater, hsegs', Function.update_self, hx, cutAt_rest_iff hs hcap]
    simp
  | true =>
    obtain ⟨hrep', hcut, hkeep⟩ := cutSegment_dup hf' s
      (bytesToCopy st (st.segs (l.head?.getD x)).seq s size x)
    have hlater : ∀ z ∈ b, (cutSegment true f x s
        (bytesToCopy st (st.segs (l.head?.getD x)).seq s size x)).segs z = st.segs z := by
      intro z hz
      rw [hkeep z hz, hsame z (List.mem_cons_of_mem _ hz)]
    have hpart : (bytesToCopy st (st.segs (l.head?.getD x)).seq s size x).toNat <
        (st.segs x).size.toNat := by
      have := BitVec.lt_def.1 hcuts.part
      rwa [toNat_setWidth_size] at this
    rw [leaves_iff hrep' hlater, hcut, hx, cutAt_dup_iff hs hcap hpart]
    simp

end

/-! ### A segment of ten bytes -/

/-- A tracker with one segment, in PAF mode. -/
def tenBytes : StreamTracker where
  links := ⟨fun _ => none, fun _ => none⟩
  segs := fun _ => {
    data := [0, 1, 2, 3, 4, 5, 6, 7, 8, 9]
    payload := 0
    caplen := 64
    ts := 0
    seq := 100
    origDsize := 10
    size := 10
    urgOffset := 0
    buffered := false }
  fresh := 1
  seglist := some 0
  seglistTail := some 0
  seglistNext := none
  rWinBase := 100
  segCount := 1
  segBytesTotal := 64
  segBytesLogical := 10
  totalBytesQueued := 10
  totalSegsQueued := 1
  overlapCount := 0
  flushCount := 0
  osPolicy := .linux
  reassemblyPolicy := .linux
  flushPolicy := .protocol
  flushPt := 0
  pafActive := true

theorem represents_tenBytes : Represents tenBytes [0] :=
  ⟨⟨List.nodup_singleton 0, rfl, rfl, trivial⟩, rfl, rfl, by simp [tenBytes], rfl⟩

/-- A flush of its first four bytes. -/
theorem cut_iff_tenBytes : ∃ st' out ret, flushStream 3 false tenBytes 104 65535 = some (st', out, ret) ∧
    Leaves tenBytes st' 0 [] 104 := by
  refine ⟨_, _, _, rfl, ((cut_iff (a := []) (l := []) represents_tenBytes (by decide) (by decide)
    (fun _ h => nomatch h)).2 3 false 65535 _ _ _ (by decide) ⟨?_, rfl, trivial, ?_⟩ ?_ rfl).2 ?_⟩
  · exact fun _ h => absurd h List.not_mem_nil
  · decide
  · decide
  · exact ⟨Or.inl (by decide), Bool.noConfusion⟩

/-- Where it is trimmed on the left at the same place, four bytes are left instead of six. -/
theorem tenBytes_trimmed : Inside 104 (tenBytes.segs 0) ∧ LeftTrims tenBytes 0 104 ∧
    ((seglistDeleteNode tenBytes 0 104).1.segs 0).size = 4 ∧
    ¬Leaves tenBytes (seglistDeleteNode tenBytes 0 104).1 0 [] 104 := by
  have hin : Inside 104 (tenBytes.segs 0) := by decide
  have htrim : LeftTrims tenBytes 0 104 := by decide
  exact ⟨hin, htrim, by decide, not_leaves_trim (a := []) represents_tenBytes (by decide) hin htrim⟩

end Snort.Stream5
