import Snort.Stream5.TcpModel

/-!
# The segments of a tracker

* `Represents`: the segments of a tracker, with consistent links, in the order of a list of addresses.
* **`Represents.addSegment`**, **`Represents.deleteNode`**: putting a segment in and taking one out keep the
  links consistent.
* `rightFull_cases`, `rightPartial_cases`: what an overlap with a queued segment comes to.
-/

namespace Snort.Stream5

open HiPaf (Byte)

/-! ### Words and packets -/

theorem toNat_sub_setWidth {s : U16} {o : U32} (h : o.toNat ≤ s.toNat) :
    (s - o.setWidth 16).toNat = s.toNat - o.toNat := by
  have hs := s.isLt
  have ho : (o.setWidth 16).toNat = o.toNat := by
    rw [BitVec.toNat_setWidth, Nat.mod_eq_of_lt (by omega)]
  rw [BitVec.toNat_sub_of_le (by rw [BitVec.le_def, ho]; exact h), ho]

theorem toNat_setWidth_size (s : U16) : (s.setWidth 32).toNat = s.toNat := by
  rw [BitVec.toNat_setWidth, Nat.mod_eq_of_lt (by omega)]

/-- The start of a segment is trimmed. -/
def StreamSegment.trimFront (ss : StreamSegment) (overlap : U32) : StreamSegment :=
  { ss with
    seq := ss.seq + overlap
    payload := ss.payload + overlap.toNat
    size := ss.size - overlap.setWidth 16 }

/-- The end of a segment is trimmed. -/
def StreamSegment.trimBack (ss : StreamSegment) (overlap : U32) : StreamSegment :=
  { ss with size := ss.size - overlap.setWidth 16 }

theorem length_patch (data : List Byte) (offset : ℕ) (bytes : List Byte) :
    (patch data offset bytes).length = data.length := by
  rw [patch, List.length_take, List.length_append, List.length_append, List.length_take,
    List.length_drop]
  omega

/-- A packet with data of the same length at the same place. -/
structure SamePlace (p p' : Packet) : Prop where
  seq : p'.seq = p.seq
  length : p'.data.length = p.data.length
  syn : p'.syn = p.syn

theorem SamePlace.refl (p : Packet) : SamePlace p p := ⟨rfl, rfl, rfl⟩

theorem SamePlace.dsize {p p' : Packet} (h : SamePlace p p') : p'.dsize = p.dsize := by
  rw [Packet.dsize, h.length, Packet.dsize]

theorem SamePlace.endSeq {p p' : Packet} (h : SamePlace p p') : p'.endSeq = p.endSeq := by
  rw [Packet.endSeq, h.seq, h.dsize, h.syn, Packet.endSeq]

/-! ### The segments of a tracker -/

/-- The segments of a tracker are at the addresses of a list, with consistent links. -/
structure Represents (st : StreamTracker) (ptrs : List Ptr) : Prop where
  links : st.links.Holds ptrs
  head : st.seglist = ptrs.head?
  tail : st.seglistTail = ptrs.getLast?
  fresh : ∀ x ∈ ptrs, x < st.fresh
  count : st.segCount = BitVec.ofNat 32 ptrs.length

/-- What the functions on the queue do not change. -/
structure Kept (st st' : StreamTracker) : Prop where
  osPolicy : st'.osPolicy = st.osPolicy
  reassemblyPolicy : st'.reassemblyPolicy = st.reassemblyPolicy
  flushPolicy : st'.flushPolicy = st.flushPolicy
  flushPt : st'.flushPt = st.flushPt
  rWinBase : st'.rWinBase = st.rWinBase

section Represents

variable {st : StreamTracker} {a b : List Ptr}

/-- The segment behind another. -/
theorem Represents.next_of_left (h : Represents st (a ++ b)) :
    a.getLast?.elim st.seglist st.links.next = b.head? := by
  rcases List.eq_nil_or_concat a with rfl | ⟨a, x, rfl⟩
  · exact h.head
  · have hlinks := h.links
    rw [List.concat_eq_append] at hlinks ⊢
    rw [List.append_assoc] at hlinks
    rw [List.getLast?_concat]
    exact hlinks.cell.1

theorem Represents.next {x : Ptr} (h : Represents st (a ++ x :: b)) : st.links.next x = b.head? :=
  h.links.cell.1

theorem Represents.addSegment (h : Represents st (a ++ b)) (ss : StreamSegment) :
    Represents (addSegment st a.getLast? ss) (a ++ st.fresh :: b) := by
  have hfresh : st.fresh ∉ a ++ b := fun hmem => Nat.lt_irrefl _ (h.fresh _ hmem)
  have hnext := h.next_of_left
  constructor
  · show (st.links.link a.getLast? st.fresh (a.getLast?.elim st.seglist st.links.next)).Holds _
    rw [hnext]
    exact h.links.link hfresh
  · show (if a.getLast? = none then some st.fresh else st.seglist) = _
    rw [h.head]
    cases a with
    | nil => rfl
    | cons x a => exact if_neg (by simp)
  · show (if a.getLast?.elim st.seglist st.links.next = none then some st.fresh else st.seglistTail) = _
    rw [hnext, h.tail]
    cases b with
    | nil => rw [List.getLast?_concat]; rfl
    | cons y b => simp [List.getLast?_append]
  · intro x hx
    show x < st.fresh + 1
    rcases List.mem_append.1 hx with hx | hx
    · exact Nat.lt_succ_of_lt (h.fresh x (List.mem_append_left _ hx))
    · rcases List.mem_cons.1 hx with rfl | hx
      · exact Nat.lt_succ_self _
      · exact Nat.lt_succ_of_lt (h.fresh x (List.mem_append_right _ hx))
  · show st.segCount + 1 = _
    rw [h.count, List.length_append, List.length_append, List.length_cons, ← Nat.add_assoc,
      BitVec.ofNat_add _ 1]
    rfl

theorem seglistDeleteNode_zero (st : StreamTracker) (x : Ptr) :
    (seglistDeleteNode st x 0).1.links = st.links.unlink x ∧
    (seglistDeleteNode st x 0).1.seglist =
      (if st.links.prev x = none then st.links.next x else st.seglist) ∧
    (seglistDeleteNode st x 0).1.seglistTail =
      (if st.links.next x = none then st.links.prev x else st.seglistTail) ∧
    (seglistDeleteNode st x 0).1.segCount = st.segCount - 1 ∧
    (seglistDeleteNode st x 0).1.segs = st.segs ∧
    (seglistDeleteNode st x 0).1.fresh = st.fresh ∧ Kept st (seglistDeleteNode st x 0).1 := by
  have hzero : ¬ (st.pafActive ∧ (0 : Seq) ≠ 0 ∧ 0 < (st.segs x).fin ∧
      (st.segs x).fin - 0 < (st.segs x).size.setWidth 32) := fun h => h.2.1 rfl
  rw [seglistDeleteNode]
  dsimp only
  rw [if_neg hzero]
  exact ⟨rfl, rfl, rfl, rfl, rfl, rfl, rfl, rfl, rfl, rfl, rfl⟩

theorem Represents.deleteNode {x : Ptr} (h : Represents st (a ++ x :: b)) :
    Represents (seglistDeleteNode st x 0).1 (a ++ b) := by
  obtain ⟨hlinks, hhead, htail, hcount, -, hfresh, -⟩ := seglistDeleteNode_zero st x
  obtain ⟨hnext, hprev⟩ := h.links.cell
  rw [hnext, hprev, h.head] at hhead
  rw [hnext, hprev, h.tail] at htail
  constructor
  · rw [hlinks]
    exact h.links.unlink
  · rw [hhead]
    cases a with
    | nil => rfl
    | cons y a => exact if_neg (by simp)
  · rw [htail]
    cases b with
    | nil => rw [List.append_nil]; rfl
    | cons y b => simp [List.getLast?_append]
  · intro y hy
    rw [hfresh]
    rcases List.mem_append.1 hy with hy | hy
    · exact h.fresh y (List.mem_append_left _ hy)
    · exact h.fresh y (List.mem_append_right _ (List.mem_cons_of_mem _ hy))
  · rw [hcount, h.count, List.length_append, List.length_cons, ← Nat.add_assoc, List.length_append,
      BitVec.ofNat_add _ 1]
    exact BitVec.add_sub_cancel _ _

theorem map_update {l : List Ptr} {x : Ptr} (hx : x ∉ l) (f : Ptr → StreamSegment)
    (ss : StreamSegment) : l.map (Function.update f x ss) = l.map f :=
  List.map_congr_left fun _ hy => Function.update_of_ne (ne_of_mem_of_not_mem hy hx) _ _

theorem Represents.map_addSegment (h : Represents st (a ++ b)) (left : Option Ptr)
    (ss : StreamSegment) :
    (a ++ st.fresh :: b).map (Stream5.addSegment st left ss).segs = a.map st.segs ++ ss :: b.map st.segs := by
  have hfresh : st.fresh ∉ a ++ b := fun hmem => Nat.lt_irrefl _ (h.fresh _ hmem)
  show (a ++ st.fresh :: b).map (Function.update st.segs st.fresh ss) = _
  rw [List.map_append, List.map_cons, Function.update_self,
    map_update fun hmem => hfresh (List.mem_append_left _ hmem),
    map_update fun hmem => hfresh (List.mem_append_right _ hmem)]

theorem Represents.map_setSeg {x : Ptr} (h : Represents st (a ++ x :: b)) (ss : StreamSegment) :
    (a ++ x :: b).map (st.setSeg x ss).segs = a.map st.segs ++ ss :: b.map st.segs := by
  have hnd := h.links.nodup
  rw [List.nodup_middle, List.nodup_cons] at hnd
  show (a ++ x :: b).map (Function.update st.segs x ss) = _
  rw [List.map_append, List.map_cons, Function.update_self,
    map_update fun hmem => hnd.1 (List.mem_append_left _ hmem),
    map_update fun hmem => hnd.1 (List.mem_append_right _ hmem)]

/-! ### The right overlaps -/

/-- What a full overlap comes to. -/
theorem rightFull_cases (policy : ReassemblyPolicy) (len : U16) (seqEnd seq : Seq)
    (left : Option StreamSegment) (ss : StreamSegment) :
    policy ≠ .first ∧ rightFull policy len seqEnd seq left ss = .dropOld ∨
      policy ≠ .last ∧ rightFull policy len seqEnd seq left ss = .keepOld ∨
      (policy ≠ .first ∧ policy ≠ .last) ∧ ss.seq = seq ∧
        rightFull policy len seqEnd seq left ss = .anomaly := by
  have hleq : seqLeq (seqEnd - (seqEnd - ss.seq)) ss.seq = true := by
    have hback : seqEnd - (seqEnd - ss.seq) = ss.seq := by bv_omega
    rw [hback, seqLeq, BitVec.sub_self]
    rfl
  cases policy with
  | first | vista => exact Or.inr (Or.inl ⟨by decide, rfl⟩)
  | oldLinux | last => exact Or.inl ⟨by decide, rfl⟩
  | solaris | hpux11 =>
    simp only [rightFull]
    split
    · next h =>
      simp only [Bool.and_eq_true, decide_eq_true_eq] at h
      obtain rfl := seqEq_iff.1 h.1.1
      rw [if_pos hleq]
      exact Or.inr (Or.inr ⟨⟨by decide, by decide⟩, rfl, rfl⟩)
    · exact Or.inl ⟨by decide, rfl⟩
  | _ =>
    simp only [rightFull]
    split_ifs <;> simp

/-- What a partial overlap comes to. -/
theorem rightPartial_cases (policy : ReassemblyPolicy) (seq : Seq) (overlap : U32)
    (ss : StreamSegment) :
    policy ≠ .first ∧ rightPartial policy seq overlap ss = .trimOld { ss with
        seq := ss.seq + overlap
        payload := ss.payload + overlap.toNat
        size := ss.size - overlap.setWidth 16 } overlap ∨
      (policy ≠ .first ∧ policy ≠ .last) ∧ ss.seq = seq ∧
        rightPartial policy seq overlap ss = .passOld (seq + (ss.fin - seq)) ∨
      policy ≠ .last ∧ rightPartial policy seq overlap ss = .truncNew overlap := by
  cases policy with
  | first | vista | solaris | hpux11 => exact Or.inr (Or.inr ⟨by decide, rfl⟩)
  | last =>
    refine Or.inl ⟨by decide, if_neg ?_⟩
    rw [Bool.and_eq_true]
    exact fun h => absurd h.2 (by decide)
  | _ =>
    simp only [rightPartial]
    split
    · next h =>
      rw [Bool.and_eq_true] at h
      exact Or.inr (Or.inl ⟨⟨by decide, by decide⟩, seqEq_iff.1 h.1, rfl⟩)
    · exact Or.inl ⟨by decide, rfl⟩

theorem rightOverlap_ne_again (policy : ReassemblyPolicy) (p : Packet) (seqEnd seq : Seq)
    (left : Option StreamSegment) (ss : StreamSegment) :
    rightOverlap policy p seqEnd seq left ss ≠ .again := by
  unfold rightOverlap
  dsimp only
  split_ifs
  · rcases rightPartial_cases policy seq (seqEnd - ss.seq) ss with ⟨-, h⟩ | ⟨-, -, h⟩ | ⟨-, h⟩ <;>
      rw [h] <;> simp
  · simp
  · rcases rightFull_cases policy p.dsize seqEnd seq left ss with ⟨-, h⟩ | ⟨-, h⟩ | ⟨-, -, h⟩ <;>
      rw [h] <;> simp

theorem Represents.congr {st' : StreamTracker} {l : List Ptr} (h : Represents st l)
    (hlinks : st'.links = st.links) (hhead : st'.seglist = st.seglist)
    (htail : st'.seglistTail = st.seglistTail) (hfresh : st'.fresh = st.fresh)
    (hcount : st'.segCount = st.segCount) : Represents st' l :=
  ⟨hlinks ▸ h.links, hhead.trans h.head, htail.trans h.tail, hfresh ▸ h.fresh, hcount.trans h.count⟩

theorem Represents.addStreamNode (h : Represents st (a ++ b)) (p : Packet) (len : U16) (slide trunc : U32)
    (seq : Seq) :
    addStreamNode st p len slide trunc seq a.getLast? = (st, .anomaly) ∨
    ∃ st', addStreamNode st p len slide trunc seq a.getLast? = (st', .ok) ∧
      Represents st' (a ++ st.fresh :: b) := by
  unfold Stream5.addStreamNode
  cases newSegment st.osPolicy p len slide trunc seq with
  | none => exact Or.inl rfl
  | some ss => exact Or.inr ⟨_, rfl, (h.addSegment ss).congr rfl rfl rfl rfl rfl⟩

end Represents

end Snort.Stream5
