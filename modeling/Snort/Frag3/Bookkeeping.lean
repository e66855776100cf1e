import Snort.Frag3.Frame
import Snort.Frag3.Invariants

/-!
# The bytes of a tracker

`frag_bytes` is kept beside the list: each step that adds, trims, splits or removes a fragment
adjusts it by itself.

* `Booked`: the count agrees with the list, as a 32 bit number;
* `rightLoop_booked`, `insertCut_booked`: each step keeps it, where no held fragment is trimmed by
  more than an `int16_t` holds;
* **`fragBytes_sizes`**: so does every run whose opening fragment counts as many bytes as its node
  holds.
-/

namespace Snort.Frag3

open CInt

variable {env : Env} {ctx : Frag3Context} {p : Packet} {c : Cut} {w : Walk} {N : ℕ}

/-! ### The books -/

/-- The bytes of a walk are those of its nodes, at most `N`, and every size has 16 bits. -/
structure Booked (N : ℕ) (w : Walk) : Prop where
  bytes : w.ft.fragBytes = u32 (sizes w.nodes)
  small : ∀ n ∈ w.nodes, n.size < 65536
  total : sizes w.nodes ≤ N

theorem u32_add_u32 (x y : ℤ) : u32 (u32 x + y) = u32 (x + y) := by
  unfold u32
  omega

theorem Booked.of_nodes {w' : Walk} (h : Booked N w) (hn : w'.nodes = w.nodes)
    (hb : w'.ft.fragBytes = w.ft.fragBytes) : Booked N w' :=
  ⟨hb.trans (hn ▸ h.bytes), hn ▸ h.small, hn ▸ h.total⟩

theorem Booked.mono {M : ℕ} (h : Booked N w) (hle : N ≤ M) : Booked M w :=
  ⟨h.bytes, h.small, h.total.trans hle⟩

/-- A step that keeps the books: `N` bytes at most before, `M` after. -/
def Books {α : Type} (M : ℕ) (walk : α → Walk) : Except (InsertRet × Walk) α → Prop
  | .error e => Booked M e.2
  | .ok a => Booked M (walk a)

/-! ### One step -/

variable (env) in
theorem addFragNode_booked (lastfrag : Bool) (h : Booked N w) :
    Books (N + 32767) Prod.snd (addFragNode env p c lastfrag w) := by
  unfold addFragNode
  dsimp only
  split_ifs with hempty hmem
  · exact h.mono (Nat.le_add_right _ _)
  · have hsize : (i16 (c.len - u16 w.slide - u16 w.trunc)).toNat ≤ 32767 := by
      unfold i16
      omega
    generalize (i16 (c.len - u16 w.slide - u16 w.trunc)).toNat = size at hsize
    have hbytes := h.bytes
    have htotal := h.total
    have hsmall := h.small
    simp only [Walk.nodes, sizes_append, List.mem_append] at hbytes htotal hsmall
    constructor
    · simp only [Walk.nodes, sizes_append, sizes_cons]
      rw [hbytes, u32_add_u32]
      congr 1
      push_cast
      ring
    · intro n hn
      simp only [Walk.nodes, List.mem_append, List.mem_cons] at hn
      rcases hn with (hn | rfl | hn) | hn
      · exact hsmall n (Or.inl (Or.inl hn))
      · exact Nat.lt_of_le_of_lt hsize (by norm_num)
      · exact hsmall n (Or.inl (Or.inr hn))
      · exact hsmall n (Or.inr hn)
    · simp only [Walk.nodes, sizes_append, sizes_cons]
      omega
  · exact h.mono (Nat.le_add_right _ _)

/-- The books of a walk whose next fragment is known. -/
theorem Booked.cons {right : Frag3Frag} {next : List Frag3Frag} (h : Booked N w)
    (hrest : w.rest = right :: next) :
    w.ft.fragBytes = u32 (sizes (w.before.reverse ++ w.mid) + right.size + sizes next) ∧
      right.size < 65536 ∧ (∀ n ∈ w.before.reverse ++ w.mid ++ next, n.size < 65536) ∧
      sizes (w.before.reverse ++ w.mid) + right.size + sizes next ≤ N := by
  have hnodes : w.nodes = (w.before.reverse ++ w.mid) ++ right :: next := by rw [Walk.nodes, hrest]
  obtain ⟨hbytes, hsmall, htotal⟩ := h
  rw [hnodes] at hbytes hsmall htotal
  rw [sizes_append, sizes_cons] at hbytes htotal
  refine ⟨?_, hsmall right (by simp), fun n hn => hsmall n ?_, by omega⟩
  · rw [hbytes]
    congr 1
    push_cast
    ring
  · rcases List.mem_append.1 hn with hn | hn
    · exact List.mem_append_left _ hn
    · exact List.mem_append_right _ (List.mem_cons_of_mem _ hn)

theorem Booked.dump {right : Frag3Frag} {next : List Frag3Frag} (h : Booked N w)
    (hrest : w.rest = right :: next) :
    Booked N { w.subBytes right.size with rest := next } := by
  obtain ⟨hbytes, -, hsmall, htotal⟩ := h.cons hrest
  refine ⟨?_, hsmall, ?_⟩
  · simp only [Walk.subBytes, Walk.nodes, hbytes]
    rw [sizes_append (_ ++ _), sub_eq_add_neg, u32_add_u32]
    congr 1
    push_cast
    ring
  · simp only [Walk.subBytes, Walk.nodes]
    rw [sizes_append]
    omega

theorem truncRight_booked {right : Frag3Frag} {next : List Frag3Frag} {overlap : ℤ}
    (h : Booked N w) (hrest : w.rest = right :: next) (hpos : 0 ≤ overlap)
    (hle : overlap ≤ right.size) (hsmall : overlap ≤ 32767) :
    Booked N (truncRight right next overlap w) := by
  obtain ⟨hbytes, hright, hnodes, htotal⟩ := h.cons hrest
  have hcut : i16 overlap = overlap := i16_of_range (by omega) (by omega)
  have hsize : (u16 (right.size - overlap) : ℤ) = right.size - overlap := by
    unfold u16
    omega
  have hbytes' : (w.subBytes overlap).ft.fragBytes =
      u32 (sizes (w.before.reverse ++ w.mid) + u16 (right.size - overlap) + sizes next) := by
    simp only [Walk.subBytes]
    rw [hbytes, hsize, sub_eq_add_neg, u32_add_u32]
    congr 1
    ring
  unfold truncRight
  dsimp only
  rw [hcut]
  split_ifs with hz
  · refine ⟨?_, hnodes, ?_⟩
    · simp only [Walk.nodes, Walk.subBytes] at hbytes' ⊢
      rw [hbytes', hz, sizes_append (_ ++ _)]
      congr 1
    · simp only [Walk.nodes, Walk.subBytes]
      rw [sizes_append]
      omega
  · refine ⟨?_, fun n hn => ?_, ?_⟩
    · simp only [Walk.nodes, Walk.subBytes] at hbytes' ⊢
      rw [hbytes', sizes_append (_ ++ _), sizes_cons]
      congr 1
      push_cast
      ring
    · simp only [Walk.nodes, Walk.subBytes] at hn
      rcases List.mem_append.1 hn with hn | hn
      · exact hnodes n (List.mem_append_left _ hn)
      · rcases List.mem_cons.1 hn with rfl | hn
        · exact u16_lt _
        · exact hnodes n (List.mem_append_right _ hn)
    · simp only [Walk.nodes, Walk.subBytes]
      rw [sizes_append, sizes_cons]
      dsimp only
      omega

/-! ### The left side -/

/-- The list after `left_overlap_last`: an emptied fragment has no bytes. -/
theorem leftOverlapLast_nodes (left : Frag3Frag) (bs : List Frag3Frag) (w : Walk) :
    sizes (leftOverlapLast left bs w).nodes =
        sizes bs + left.size + sizes w.mid + sizes w.rest ∧
      (∀ n ∈ (leftOverlapLast left bs w).nodes, n = left ∨ n ∈ bs ∨ n ∈ w.mid ∨ n ∈ w.rest) ∧
      (leftOverlapLast left bs w).ft = w.ft := by
  have hreverse : ∀ l : List Frag3Frag, sizes l.reverse = sizes l := fun l => Tiling.total_reverse l
  unfold leftOverlapLast
  split_ifs with hz
  · refine ⟨?_, fun n hn => ?_, rfl⟩
    · simp only [Walk.nodes]
      rw [sizes_append, sizes_append, hreverse, hz, Nat.add_zero]
    · simp only [Walk.nodes, List.mem_append, List.mem_reverse] at hn
      tauto
  · refine ⟨?_, fun n hn => ?_, rfl⟩
    · simp only [Walk.nodes]
      rw [sizes_append, sizes_append, hreverse, sizes_cons, Nat.add_comm (sizes bs)]
    · simp only [Walk.nodes, List.mem_append, List.mem_reverse, List.mem_cons] at hn
      tauto

/-- The books of a walk whose fragment before the place is known. -/
theorem Booked.left {left : Frag3Frag} {bs : List Frag3Frag} (h : Booked N w)
    (hbefore : w.before = left :: bs) :
    w.ft.fragBytes = u32 (sizes bs + left.size + sizes w.mid + sizes w.rest) ∧
      left.size < 65536 ∧ (∀ n, n ∈ bs ∨ n ∈ w.mid ∨ n ∈ w.rest → n.size < 65536) ∧
      sizes bs + left.size + sizes w.mid + sizes w.rest ≤ N := by
  have hreverse : ∀ l : List Frag3Frag, sizes l.reverse = sizes l := fun l => Tiling.total_reverse l
  have hnodes : w.nodes = (left :: bs).reverse ++ w.mid ++ w.rest := by rw [Walk.nodes, hbefore]
  obtain ⟨hbytes, hsmall, htotal⟩ := h
  rw [hnodes] at hbytes hsmall htotal
  rw [sizes_append, sizes_append, hreverse, sizes_cons] at hbytes htotal
  refine ⟨?_, hsmall left (by simp), fun n hn => hsmall n ?_, by omega⟩
  · rw [hbytes]
    congr 1
    push_cast
    ring
  · simp only [List.mem_append, List.mem_reverse, List.mem_cons]
    tauto

theorem leftOverlapLast_booked {left : Frag3Frag} {bs : List Frag3Frag} {M : ℕ}
    (hbytes : w.ft.fragBytes = u32 (sizes bs + left.size + sizes w.mid + sizes w.rest))
    (hleft : left.size < 65536) (hsmall : ∀ n, n ∈ bs ∨ n ∈ w.mid ∨ n ∈ w.rest → n.size < 65536)
    (htotal : sizes bs + left.size + sizes w.mid + sizes w.rest ≤ M) :
    Booked M (leftOverlapLast left bs w) := by
  obtain ⟨hsum, hmem, hft⟩ := leftOverlapLast_nodes left bs w
  refine ⟨?_, fun n hn => ?_, hsum ▸ htotal⟩
  · rw [hft, hbytes, hsum]
    push_cast
    rfl
  · rcases hmem n hn with rfl | hn
    · exact hleft
    · exact hsmall n hn

/-- A held fragment that is cut back, or split, by no more than an `int16_t` holds. -/
theorem truncLeft_booked {left : Frag3Frag} {bs : List Frag3Frag} {overlap : ℤ} (h : Booked N w)
    (hbefore : w.before = left :: bs) (hpos : 0 ≤ overlap) (hle : overlap ≤ left.size)
    (hsmall : overlap ≤ 32767) (hsplit : (left.stop : ℤ) ≤ w.fragOffset + c.len + 65535) :
    Books (N + 65535) id (truncLeft env c overlap left bs w) := by
  obtain ⟨hbytes, hleft, hnodes, htotal⟩ := h.left hbefore
  have hcut : i16 overlap = overlap := i16_of_range (by omega) (by omega)
  have hsize : (u16 (left.size - overlap) : ℤ) = left.size - overlap := by
    unfold u16
    omega
  unfold truncLeft
  rw [hcut]
  by_cases hbeyond : left.offset < w.fragOffset ∧ (left.stop : ℤ) > w.fragOffset + c.len
  · rw [if_pos hbeyond]
    unfold dupFragNode
    by_cases hmem : env.fragNode w.ft.ordinal = true
    · rw [if_pos hmem]
      dsimp only
      -- the copy keeps what lies behind the arriving fragment
      have hright : (u16 (left.size - (w.fragOffset + c.len - left.offset)) : ℤ) =
          left.size - (w.fragOffset + c.len - left.offset) := by
        simp only [Frag3Frag.stop] at hsplit hbeyond
        unfold u16
        omega
      refine leftOverlapLast_booked ?_ (u16_lt _) ?_ ?_
      · simp only [Walk.subBytes, sizes_cons]
        rw [hbytes, sub_eq_add_neg, u32_add_u32, sub_eq_add_neg, u32_add_u32,
          add_assoc _ (-overlap), u32_add_u32]
        push_cast
        rw [hsize, hright]
        congr 1
        ring
      · rintro n (hn | hn | hn)
        · exact hnodes n (Or.inl hn)
        · exact hnodes n (Or.inr (Or.inl hn))
        · rcases List.mem_cons.1 hn with rfl | hn
          · exact u16_lt _
          · exact hnodes n (Or.inr (Or.inr hn))
      · simp only [Walk.subBytes, sizes_cons]
        have hlt := u16_lt (left.size - (w.fragOffset + c.len - left.offset))
        omega
    · rw [if_neg hmem]
      exact h.mono (Nat.le_add_right _ _)
  · rw [if_neg hbeyond]
    refine leftOverlapLast_booked ?_ (u16_lt _) hnodes ?_
    · simp only [Walk.subBytes]
      rw [hbytes, sub_eq_add_neg, u32_add_u32, hsize]
      congr 1
      ring
    · simp only [Walk.subBytes]
      omega

/-! ### The trims that a fragment makes -/

/-- The held fragment before the place, where a policy cuts it back: by at most 32767 bytes, and
at most 65535 bytes of it lie behind the arriving one. -/
def TrimsLeft (policy : FragPolicy) (c : Cut) (before : List Frag3Frag) : Prop :=
  ∀ left ∈ before.head?, c.fragOffset < left.stop →
    (policy = .last ∨ (policy = .bsdRight ∧ (left.stop : ℤ) < c.fragOffset + c.len)) →
    left.stop ≤ c.fragOffset + 32767 ∧ (left.stop : ℤ) ≤ c.fragOffset + c.len + 65535

/-- The held fragments of which a policy cuts off the start: at most 32767 bytes. -/
def TrimsRight (policy : FragPolicy) (c : Cut) (rest : List Frag3Frag) : Prop :=
  (policy = .last ∨ policy = .linux ∨ policy = .bsd) →
    ∀ n ∈ rest, n.offset < c.fragEnd → c.fragEnd < n.stop → c.fragEnd ≤ n.offset + 32767

variable (env) in
theorem leftSwitch_booked {left : Frag3Frag} {bs : List Frag3Frag} (h : Booked N w)
    (hbefore : w.before = left :: bs) (hoffset : w.fragOffset = c.fragOffset)
    (hplace : left.offset < w.fragOffset) (hover : (left.stop : ℤ) - w.fragOffset > 0)
    (htrims : TrimsLeft w.ft.fragPolicy c w.before) :
    Books (N + 65535) id (leftSwitch env c (left.stop - w.fragOffset) left bs w) := by
  have hslid : ∀ {w' : Walk}, w'.nodes = w.nodes → w'.ft = w.ft → Booked (N + 65535) w' :=
    fun hn hft => (h.of_nodes hn (congrArg FragTracker.fragBytes hft)).mono (Nat.le_add_right _ _)
  have hle : (left.stop : ℤ) - w.fragOffset ≤ left.size := by
    simp only [Frag3Frag.stop]
    omega
  have htrim := htrims left (by rw [hbefore]; rfl) (by omega)
  unfold leftSwitch
  cases hpolicy : w.ft.fragPolicy with
  | last =>
    obtain ⟨hsmall, hsplit⟩ := htrim (Or.inl hpolicy)
    exact truncLeft_booked h hbefore (by omega) hle (by omega) (by omega)
  | bsdRight =>
    dsimp only
    by_cases hcovers : (left.stop : ℤ) ≥ w.fragOffset + c.len
    · rw [if_pos hcovers]
      obtain ⟨hbytes, hleft, hnodes, htotal⟩ := h.left hbefore
      exact (leftOverlapLast_booked (w := w.slideBy _) hbytes hleft hnodes htotal).mono
        (Nat.le_add_right _ _)
    · rw [if_neg hcovers]
      obtain ⟨hsmall, hsplit⟩ := htrim (Or.inr ⟨hpolicy, by omega⟩)
      exact truncLeft_booked h hbefore (by omega) hle (by omega) (by omega)
  | first | linux | bsd | windows | solaris =>
    dsimp only
    split_ifs
    · exact hslid rfl rfl
    · exact hslid rfl rfl

variable (env) in
theorem leftOverlap_booked (h : Booked N w) (hoffset : w.fragOffset = c.fragOffset)
    (hplace : ∀ n ∈ w.before, n.offset < w.fragOffset)
    (htrims : TrimsLeft w.ft.fragPolicy c w.before) :
    Books (N + 65535) id (leftOverlap env p c w) := by
  have hwide : Booked (N + 65535) w := h.mono (Nat.le_add_right _ _)
  unfold leftOverlap
  cases hbefore : w.before with
  | nil => exact hwide
  | cons left bs =>
    dsimp only
    by_cases hover : (left.stop : ℤ) - w.fragOffset > 0
    · rw [if_pos hover]
      by_cases htear : teardrop p c w.countOverlap.ft = true
      · rw [if_pos htear]
        exact hwide.of_nodes rfl rfl
      rw [if_neg htear]
      have htallied : Booked N w.countOverlap := h.of_nodes rfl rfl
      have hswitch := leftSwitch_booked env (c := c) htallied hbefore hoffset
        (hplace left (hbefore ▸ List.mem_cons_self)) hover htrims
      cases hr : leftSwitch env c (left.stop - w.fragOffset) left bs w.countOverlap with
      | error e =>
        rw [show w.countOverlap.fragOffset = w.fragOffset from rfl, hr] at hswitch
        exact hswitch
      | ok w' =>
        rw [show w.countOverlap.fragOffset = w.fragOffset from rfl, hr] at hswitch
        dsimp only
        split_ifs
        · exact hswitch
        · exact hswitch
    · rw [if_neg hover]
      exact hwide

/-! ### The right side -/

theorem partialOverlap_booked {right : Frag3Frag} {next : List Frag3Frag} (h : Booked N w)
    (hrest : w.rest = right :: next) (hstart : right.offset < c.fragEnd)
    (hpart : (c.fragEnd : ℤ) - right.offset < right.size)
    (htrims : TrimsRight w.ft.fragPolicy c w.rest) :
    Booked N (partialOverlap right next (c.fragEnd - right.offset) w) := by
  have htrunc : (w.ft.fragPolicy = .last ∨ w.ft.fragPolicy = .linux ∨ w.ft.fragPolicy = .bsd) →
      Booked N (truncRight right next (c.fragEnd - right.offset) w) := by
    intro hpolicy
    have hsmall := htrims hpolicy right (hrest ▸ List.mem_cons_self) hstart
      (by simp only [Frag3Frag.stop]; omega)
    exact truncRight_booked h hrest (by omega) (by omega) (by omega)
  unfold partialOverlap
  cases hpolicy : w.ft.fragPolicy with
  | last => exact htrunc (Or.inl hpolicy)
  | linux => exact htrunc (Or.inr (Or.inl hpolicy))
  | bsd =>
    dsimp only
    split_ifs
    · exact h.of_nodes rfl rfl
    · exact htrunc (Or.inr (Or.inr hpolicy))
  | first | windows | solaris | bsdRight => exact h.of_nodes rfl rfl

variable (env) in
theorem rejectOverlap_booked {right : Frag3Frag} {next : List Frag3Frag} (h : Booked N w)
    (hrest : w.rest = right :: next) :
    Books (N + 32767) Prod.snd (rejectOverlap env p c right next w) := by
  have htrim : Booked N (rejectTrim c right next w) := by
    refine h.of_nodes (rejectTrim_nodes hrest) ?_
    unfold rejectTrim
    split_ifs <;> rfl
  have hadd := addFragNode_booked env (p := p) (c := c) false htrim
  unfold rejectOverlap
  dsimp only
  split_ifs
  · exact htrim.mono (Nat.le_add_right _ _)
  · cases hr : addFragNode env p c false (rejectTrim c right next w) with
    | error e =>
      rw [hr] at hadd
      exact hadd
    | ok r =>
      rw [hr] at hadd
      have hft : (afterChunk c r.1 r.2).2.ft = r.2.ft := by
        unfold afterChunk
        dsimp only
        split_ifs <;> rfl
      exact Booked.of_nodes hadd (afterChunk_nodes r.1 r.2) (congrArg FragTracker.fragBytes hft)

theorem Booked.alert (h : Booked N w) (ctx : Frag3Context) : Booked N (w.alertOverlap ctx) := by
  unfold Walk.alertOverlap
  split_ifs
  · exact h.of_nodes rfl rfl
  · exact h

/-- The loop keeps the books; each round adds one node at most. -/
theorem rightLoop_booked (env : Env) (ctx : Frag3Context) (p : Packet) (c : Cut) :
    ∀ (fuel : ℕ) {N : ℕ} {w : Walk}, Booked N w → TrimsRight w.ft.fragPolicy c w.rest →
      Books (N + 32767 * fuel) Prod.snd (rightLoop env ctx p c fuel w) := by
  intro fuel
  induction fuel with
  | zero => exact fun h _ => h
  | succ fuel ih =>
    intro N w h htrims
    have hwide : ∀ {w : Walk}, Booked N w → Booked (N + 32767 * (fuel + 1)) w :=
      fun h => h.mono (Nat.le_add_right _ _)
    cases hrest : w.rest with
    | nil =>
      rw [rightLoop_nil hrest]
      exact hwide h
    | cons right next =>
      rw [rightLoop_round hrest]
      have h₀ : Booked N { w with trunc := 0 } := h.of_nodes rfl rfl
      have hrest₀ : ({ w with trunc := 0 } : Walk).rest = right :: next := hrest
      have htrims₀ : TrimsRight ({ w with trunc := 0 } : Walk).ft.fragPolicy c
          ({ w with trunc := 0 } : Walk).rest := htrims
      generalize ({ w with trunc := 0 } : Walk) = w₀ at h₀ hrest₀ htrims₀
      by_cases hstart : right.offset < c.fragEnd
      swap
      · rw [if_neg hstart]
        exact hwide h
      rw [if_pos hstart]
      by_cases hattack : (c.fragEnd : ℤ) - right.offset ≠ 0 ∧ teardrop p c w.ft
      · rw [if_pos hattack]
        exact hwide (h₀.of_nodes rfl rfl)
      rw [if_neg hattack]
      by_cases hpart : (c.fragEnd : ℤ) - right.offset < right.size
      · rw [if_pos hpart]
        exact hwide (partialOverlap_booked (w := w₀.countOverlap) (h₀.of_nodes rfl rfl) hrest₀
          hstart hpart htrims₀)
      rw [if_neg hpart]
      obtain ⟨hrest₁, -, -, hpolicy₁⟩ := w₀.alertOverlap_eqs ctx
      have h₁ := h₀.alert ctx
      have htrims₁ : TrimsRight (w₀.alertOverlap ctx).ft.fragPolicy c (right :: next) := by
        rwa [hpolicy₁, ← hrest₀]
      rw [hrest₀] at hrest₁
      cases fullAction w.ft.fragPolicy w.fragOffset c.fragEnd right with
      | dump =>
        have hstep := ih (h₁.dump hrest₁) fun hpolicy n hn =>
          htrims₁ hpolicy n (List.mem_cons_of_mem _ hn)
        dsimp only
        cases hr : rightLoop env ctx p c fuel
            { (w₀.alertOverlap ctx).subBytes right.size with rest := next } with
        | error e =>
          rw [hr] at hstep
          exact Booked.mono hstep (by omega)
        | ok r =>
          rw [hr] at hstep
          exact Booked.mono hstep (by omega)
      | reject =>
        have hrej := rejectOverlap_booked env (p := p) (c := c) h₁ hrest₁
        have hcounts := rejectOverlap_leaves env (p := p) (c := c) right next
          (w₀.alertOverlap ctx)
        dsimp only
        cases hr : rejectOverlap env p c right next (w₀.alertOverlap ctx) with
        | error e =>
          rw [hr] at hrej
          exact Booked.mono hrej (by omega)
        | ok r =>
          obtain ⟨r, w₂⟩ := r
          have hkeep := rejectOverlap_keeps hrest₁ hr
          rw [hr] at hrej hcounts
          cases r with
          | again =>
            have hpolicy₂ := Counts.policy hcounts
            have hstep := ih hrej fun hpolicy n hn =>
              htrims₁ (by rwa [← hpolicy₂]) n (hrest₁ ▸ hkeep.rest hn)
            dsimp only
            cases hl : rightLoop env ctx p c fuel w₂ with
            | error e =>
              rw [hl] at hstep
              exact Booked.mono hstep (by omega)
            | ok r =>
              rw [hl] at hstep
              exact Booked.mono hstep (by omega)
          | leave addthis => exact Booked.mono hrej (by omega)

theorem finishInsert_booked (h : Booked N w) (htrims : TrimsRight w.ft.fragPolicy c w.rest) :
    Booked (N + 32767 * (2 * w.rest.length + 2)) (finishInsert env ctx p c w).2 := by
  have hloop := rightLoop_booked env ctx p c (2 * w.rest.length + 1) h htrims
  unfold finishInsert
  split_ifs
  · exact h.mono (Nat.le_add_right _ _)
  · cases hr : rightLoop env ctx p c (2 * w.rest.length + 1) w with
    | error e =>
      rw [hr] at hloop
      exact Booked.mono hloop (by omega)
    | ok r =>
      rw [hr] at hloop
      obtain ⟨addthis, w'⟩ := r
      have hadd := addFragNode_booked env (p := p) (c := c) c.lastfrag hloop
      dsimp only at hadd ⊢
      split_ifs
      · exact Booked.mono hloop (by omega)
      · cases ha : addFragNode env p c c.lastfrag w' with
        | error e =>
          rw [ha] at hadd
          exact Booked.mono hadd (by omega)
        | ok r =>
          rw [ha] at hadd
          exact Booked.mono hadd (by omega)
      · exact Booked.mono hloop (by omega)

/-! ### One call -/

/-- The cut fragment trims no held fragment by more than an `int16_t` holds. -/
def TrimsCut (c : Cut) (ft : FragTracker) : Prop :=
  TrimsLeft ft.fragPolicy c (placedWalk ft c).before ∧
    TrimsRight ft.fragPolicy c (placedWalk ft c).rest

variable (env ctx) in
theorem insertCut_booked {ft : FragTracker} (hend : u16 (c.fragOffset + c.len) = c.fragEnd)
    (hbooked : Booked N (placedWalk ft c)) (h : TrimsCut c ft) :
    Booked (N + 65536 * (ft.fraglist.length + 3)) (insertCut env ctx p c ft).2 := by
  have hleft := leftOverlap_booked env (p := p) hbooked rfl
    (fun n hn => by
      have hbefore : n ∈ (startsAt c.fragOffset ft.fraglist).1 := List.mem_reverse.1 hn
      have hlt : n.offset < c.fragOffset := by simpa using List.mem_takeWhile_imp hbefore
      exact hlt) h.1
  rw [insertCut, findPlace_eq, List.append_nil]
  dsimp only
  rw [← placedWalk]
  have hlength : (placedWalk ft c).rest.length ≤ ft.fraglist.length := by
    rw [← placedWalk_nodes (c := c), Walk.nodes, List.length_append]
    exact Nat.le_add_left _ _
  have hcounts := leftOverlap_leaves env (p := p) (c := c) (placedWalk ft c)
  cases hr : leftOverlap env p c (placedWalk ft c) with
  | error e =>
    rw [hr] at hleft
    exact Booked.mono hleft (by omega)
  | ok w =>
    have hsplit := leftOverlap_split hend rfl hr
    have hmore := hsplit.length_le
    rw [hr] at hleft hcounts
    have hpolicy' : w.ft.fragPolicy = ft.fragPolicy := Counts.policy hcounts
    have hbooked' : Booked (N + 65535) w := hleft
    -- the fragment that a split adds starts at the end of the arriving one
    have htrims : TrimsRight w.ft.fragPolicy c w.rest := by
      intro hpolicy n hn hlt
      rw [hpolicy'] at hpolicy
      rcases hsplit.mem n hn with hn | hn
      · exact h.2 hpolicy n hn hlt
      · omega
    exact (finishInsert_booked hbooked' htrims).mono (by omega)

/-- `frag_bytes` is the sum of the sizes, and every size has 16 bits. -/
structure Tallied (ft : FragTracker) : Prop where
  bytes : ft.fragBytes = (ft.fraglist.map Frag3Frag.size).sum
  small : ∀ n ∈ ft.fraglist, n.size < 65536

/-- The bytes held and those that one call may add fit 32 bits. -/
def Roomy (ft : FragTracker) : Prop :=
  sizes ft.fraglist + 65536 * (ft.fraglist.length + 3) < 4294967296

/-- The fragment trims no held fragment by more than an `int16_t` holds. -/
def Trims (ctx : Frag3Context) (p : Packet) (ft : FragTracker) : Prop :=
  let (ft, firstLastOk) := frag3CheckFirstLast p (frag3Expire ctx p ft)
  match cutFragment p firstLastOk ft with
  | .error _ => True
  | .ok (c, ft) => TrimsCut c ft

instance (policy : FragPolicy) (c : Cut) (l : List Frag3Frag) : Decidable (TrimsLeft policy c l) := by
  unfold TrimsLeft
  infer_instance

instance (policy : FragPolicy) (c : Cut) (l : List Frag3Frag) :
    Decidable (TrimsRight policy c l) := by
  unfold TrimsRight
  infer_instance

instance (ctx : Frag3Context) (p : Packet) (ft : FragTracker) : Decidable (Trims ctx p ft) := by
  unfold Trims TrimsCut
  dsimp only
  split <;> infer_instance

theorem sizes_eq_sum (l : List Frag3Frag) : sizes l = (l.map Frag3Frag.size).sum := by
  induction l with
  | nil => rfl
  | cons n l ih => rw [sizes_cons, ih, List.map_cons, List.sum_cons]

theorem Tallied.of_eq {ft ft' : FragTracker} (h : Tallied ft) (hb : ft'.fragBytes = ft.fragBytes)
    (hl : ft'.fraglist = ft.fraglist) : Tallied ft' :=
  ⟨by rw [hb, hl, h.bytes], hl ▸ h.small⟩

theorem Tallied.expire {ft : FragTracker} (h : Tallied ft) (ctx : Frag3Context) (p : Packet) :
    Tallied (frag3Expire ctx p ft) := by
  unfold frag3Expire
  split_ifs
  · exact ⟨rfl, fun n hn => absurd hn List.not_mem_nil⟩
  · exact h

/-- One call keeps the count. -/
theorem Tallied.insert {ft : FragTracker} (h : Tallied ft) (env : Env) (ht : Trims ctx p ft)
    (hroom : Roomy ft) : Tallied (frag3Insert env ctx p ft).2 := by
  have hexpired := h.expire ctx p
  have hroom' : Roomy (frag3Expire ctx p ft) := by
    unfold frag3Expire
    split_ifs
    · show 0 + 65536 * (0 + 3) < 4294967296
      norm_num
    · exact hroom
  unfold Trims at ht
  unfold frag3Insert
  generalize frag3Expire ctx p ft = ft₀ at hexpired hroom' ht
  obtain ⟨_, _, _, hfirst⟩ := frag3CheckFirstLast_frame p ft₀
  have htallied : Tallied (frag3CheckFirstLast p ft₀).1 :=
    hexpired.of_eq (by rw [hfirst]) (by rw [hfirst])
  have hroom₁ : Roomy (frag3CheckFirstLast p ft₀).1 := by
    rw [hfirst]
    exact hroom'
  generalize frag3CheckFirstLast p ft₀ = r at htallied hroom₁ ht
  obtain ⟨ft₁, flo⟩ := r
  obtain ⟨_, _, hcut⟩ := cutFragment_frame p flo ft₁
  dsimp only at ht ⊢
  cases hr : cutFragment p flo ft₁ with
  | error e =>
    have hkept : e.2.fragBytes = ft₁.fragBytes ∧ e.2.fraglist = ft₁.fraglist := by
      rw [hr, cutTracker] at hcut
      rw [hcut]
      exact ⟨rfl, rfl⟩
    exact htallied.of_eq hkept.1 hkept.2
  | ok r =>
    obtain ⟨c, ft₂⟩ := r
    rw [hr, cutTracker] at hcut
    rw [hr] at ht
    dsimp only at hcut
    have hbytes : ft₂.fragBytes = ft₁.fragBytes := by rw [hcut]
    have hlist : ft₂.fraglist = ft₁.fraglist := by rw [hcut]
    have htallied₂ : Tallied ft₂ := htallied.of_eq hbytes hlist
    have hsum : ft₂.fragBytes = sizes ft₂.fraglist := by rw [htallied₂.bytes, sizes_eq_sum]
    unfold Roomy at hroom₁
    rw [← hlist] at hroom₁
    have hbooked : Booked (sizes ft₂.fraglist) (placedWalk ft₂ c) := by
      refine ⟨?_, placedWalk_nodes (c := c) ▸ htallied₂.small, le_of_eq (by rw [placedWalk_nodes])⟩
      rw [placedWalk_nodes]
      exact hsum.trans (u32_of_eq rfl (by omega)).symm
    have hafter := insertCut_booked env ctx (p := p)
      (cutFragment_end hr).1 hbooked ht
    refine ⟨?_, hafter.small⟩
    have htotal := hafter.total
    rw [show (insertCut env ctx p c ft₂).2.relink.fraglist =
      (insertCut env ctx p c ft₂).2.nodes from rfl, ← sizes_eq_sum]
    exact hafter.bytes.trans (u32_of_eq rfl (by omega))

/-! ### Runs -/

/-- An opening fragment that counts as many bytes as its node holds: the last of its datagram, or
one of a multiple of eight bytes (or the tracker stays empty). -/
def OpensEven (p : Packet) (b : Bool) : Prop :=
  p.ipFragLen < 65536 ∧ (b = true → p.mf = true → p.ipFragLen % 8 = 0)

/-- A step that trims no held fragment by more than an `int16_t` holds. -/
def TrimsStep (_ : Env) (ctx : Frag3Context) (ft : FragTracker) (p : Packet) : Prop :=
  Trims ctx p ft ∧ Roomy ft

theorem frag3NewTracker_tallied {env : Env} {policy : FragPolicy} {b : Bool} {ft : FragTracker}
    (hp : OpensEven p b) (h : frag3NewTracker env policy p = some (b, ft)) : Tallied ft := by
  obtain ⟨hlen, heven⟩ := hp
  have hbytes : u32 ((0 : ℕ) + (p.ipFragLen : ℤ)) = p.ipFragLen := u32_of_eq (by simp) (by omega)
  have hfirst : ∀ l n, (frag3CheckFirstLast p
        { fragTime := p.ts, fragPolicy := policy, fraglist := l, ordinal := n }).1.fragBytes = 0 ∧
      (frag3CheckFirstLast p
        { fragTime := p.ts, fragPolicy := policy, fraglist := l, ordinal := n }).1.fraglist = l := by
    intro l n
    obtain ⟨_, _, _, heq⟩ := frag3CheckFirstLast_frame p
      { fragTime := p.ts, fragPolicy := policy, fraglist := l, ordinal := n }
    rw [heq]
    exact ⟨rfl, rfl⟩
  unfold frag3NewTracker at h
  dsimp only at h
  split_ifs at h with hsnap hmem hmf
  · obtain ⟨rfl, rfl⟩ := Prod.mk.inj (Option.some.inj h)
    have hsize : u16 ((u16 (u16 (p.fragOffset * 8) + p.ipFragLen) : ℤ) / 8 * 8 -
        u16 (p.fragOffset * 8)) = p.ipFragLen := by
      have := heven rfl hmf
      unfold u16
      omega
    refine ⟨?_, fun n hn => ?_⟩
    · simp only [(hfirst _ _).1, (hfirst _ _).2, hbytes, List.map_cons, List.map_nil,
        List.sum_cons, List.sum_nil, hsize, Nat.add_zero]
    · simp only [(hfirst _ _).2, List.mem_singleton] at hn
      rw [hn]
      exact u16_lt _
  · obtain ⟨rfl, rfl⟩ := Prod.mk.inj (Option.some.inj h)
    refine ⟨?_, fun n hn => ?_⟩
    · simp only [(hfirst _ _).1, (hfirst _ _).2, hbytes, List.map_cons, List.map_nil,
        List.sum_cons, List.sum_nil, Nat.add_zero]
    · simp only [(hfirst _ _).2, List.mem_singleton] at hn
      rw [hn]
      exact hlen
  · obtain ⟨rfl, rfl⟩ := Prod.mk.inj (Option.some.inj h)
    exact ⟨rfl, fun n hn => absurd hn List.not_mem_nil⟩

/-- **`frag_bytes` is the sum of the node sizes**, after every call of a run whose opening fragment
has no bytes cut off and whose later ones trim no held fragment by more than 32767 bytes. -/
theorem fragBytes_sizes {policy : FragPolicy} {ps : List Packet} {ft : FragTracker}
    (h : Run policy OpensEven TrimsStep ps ft) :
    ft.fragBytes = (ft.fraglist.map Frag3Frag.size).sum := by
  suffices htallied : Tallied ft from htallied.bytes
  induction h with
  | new env h hp => exact frag3NewTracker_tallied hp h
  | insert env ctx _ hp ih => exact ih.insert env hp.1 hp.2

theorem fragBytes_sizes_last : ∃ ft,
    Run .last OpensEven TrimsStep [zeros 1 16 true, zeros 0 16 true] ft ∧
      ft.fragBytes = (ft.fraglist.map Frag3Frag.size).sum :=
  have h : Run .last OpensEven TrimsStep [zeros 1 16 true, zeros 0 16 true] _ :=
    .insert {} {} (.new {} rfl (by unfold OpensEven; decide))
      ⟨by decide +kernel, by unfold Roomy; decide⟩
  ⟨_, h, fragBytes_sizes h⟩

/-- Twelve bytes are counted for an opening fragment whose node holds eight of them. -/
theorem fragBytes_opening : ∃ ft, frag3NewTracker {} .first (zeros 0 12 true) = some (true, ft) ∧
    ft.fragBytes = 12 ∧ ft.fraglist.map Frag3Frag.size = [8] :=
  ⟨_, rfl, by decide, by decide⟩

end Snort.Frag3
