import Snort.Frag3.Model
import Snort.Lib.Tiling

/-!
# What the list operations of `Frag3Insert` do to a fraglist

`Refit new b l b' l'`: the list `l'` is made of parts of the nodes of `l` and of the arriving
fragment `new`, and `frag_bytes` has followed the change from `b` to `b'`.  Every primitive of
the insertion is a `Refit`, and a `Refit` composes, so the loops need no case analysis of their
own for what a node holds.
-/

namespace Snort.Frag3

open CInt Tiling

/-- The held intervals follow one another without overlap. -/
abbrev Laid (l : List Frag3Frag) : Prop := Tiled Frag3Frag.offset Frag3Frag.stop l

/-- Some node of the list holds the byte at datagram offset `x`. -/
abbrev Held (l : List Frag3Frag) (x : ℕ) : Prop := Covers Frag3Frag.offset Frag3Frag.stop l x

/-- The node sizes, added up. -/
abbrev sizes (l : List Frag3Frag) : ℕ := total Frag3Frag.offset Frag3Frag.stop l

theorem held_cons (n : Frag3Frag) (l : List Frag3Frag) (x : ℕ) :
    Held (n :: l) x ↔ (n.offset ≤ x ∧ x < n.stop) ∨ Held l x :=
  covers_cons n l x

theorem sizes_append (l l' : List Frag3Frag) : sizes (l ++ l') = sizes l + sizes l' :=
  total_append l l'

@[simp] theorem sizes_cons (n : Frag3Frag) (l : List Frag3Frag) :
    sizes (n :: l) = n.size + sizes l := by
  simp [sizes]

/-- `n` is a part of `m`, cut out of the same buffer. -/
structure PieceOf (n m : Frag3Frag) : Prop where
  fptr : n.fptr = m.fptr
  flen : n.flen = m.flen
  start : m.offset ≤ n.offset
  stop : n.stop ≤ m.stop
  data : n.data = m.data + (n.offset - m.offset)

theorem PieceOf.refl (n : Frag3Frag) : PieceOf n n := ⟨rfl, rfl, le_rfl, le_rfl, by omega⟩

theorem PieceOf.trans {a b c : Frag3Frag} (h : PieceOf a b) (h' : PieceOf b c) : PieceOf a c where
  fptr := h.fptr.trans h'.fptr
  flen := h.flen.trans h'.flen
  start := h'.start.trans h.start
  stop := h.stop.trans h'.stop
  data := by have := h.data; have := h'.data; have := h.start; have := h'.start; omega

/-- Widths of what is held: ends in range of `uint16_t`, sizes in range of `int16_t`. -/
def Bounded (l : List Frag3Frag) : Prop := ∀ n ∈ l, n.stop ≤ 65535 ∧ n.size ≤ 32767

/-- See the module documentation. -/
structure Refit (new : Frag3Frag) (b : ℕ) (l : List Frag3Frag) (b' : ℕ) (l' : List Frag3Frag) :
    Prop where
  pieces : ∀ n ∈ l', (∃ m ∈ l, PieceOf n m) ∨ PieceOf n new
  pos : (∀ n ∈ l, 0 < n.size) → ∀ n ∈ l', 0 < n.size
  bytes : ((b' : ℤ) - sizes l') % 4294967296 = ((b : ℤ) - sizes l) % 4294967296

section Refit

variable {new : Frag3Frag} {b b' b'' : ℕ} {l l' l'' : List Frag3Frag}

theorem Refit.refl (new : Frag3Frag) (b : ℕ) (l : List Frag3Frag) : Refit new b l b l :=
  ⟨fun n hn => Or.inl ⟨n, hn, PieceOf.refl n⟩, fun h => h, rfl⟩

theorem Refit.trans (h : Refit new b l b' l') (h' : Refit new b' l' b'' l'') :
    Refit new b l b'' l'' where
  pieces n hn := by
    rcases h'.pieces n hn with ⟨m, hm, hnm⟩ | hp
    · rcases h.pieces m hm with ⟨k, hk, hmk⟩ | hp
      · exact Or.inl ⟨k, hk, hnm.trans hmk⟩
      · exact Or.inr (hnm.trans hp)
    · exact Or.inr hp
  pos hl := h'.pos (h.pos hl)
  bytes := h'.bytes.trans h.bytes

theorem Refit.bounded (h : Refit new b l b' l') (hl : Bounded l) (hn : Bounded [new]) :
    Bounded l' := by
  intro n hmem
  have key : ∀ m : Frag3Frag, PieceOf n m → m.stop ≤ 65535 ∧ m.size ≤ 32767 →
      n.stop ≤ 65535 ∧ n.size ≤ 32767 := by
    intro m hp hm
    have h1 := hp.stop
    have h2 := hp.start
    simp only [Frag3Frag.stop] at *
    omega
  rcases h.pieces n hmem with ⟨m, hm, hp⟩ | hp
  · exact key m hp (hl m hm)
  · exact key new hp (hn new List.mem_cons_self)

/-- A part of the new fragment is linked in. -/
theorem Refit.add {l₁ l₂ : List Frag3Frag} {n : Frag3Frag} (hp : PieceOf n new)
    (hpos : 0 < n.size) :
    Refit new b (l₁ ++ l₂) (u32 (b + n.size)) (l₁ ++ n :: l₂) where
  pieces m hm := by
    rcases List.mem_append.1 hm with hm | hm
    · exact Or.inl ⟨m, List.mem_append_left _ hm, PieceOf.refl m⟩
    · rcases List.mem_cons.1 hm with rfl | hm
      · exact Or.inr hp
      · exact Or.inl ⟨m, List.mem_append_right _ hm, PieceOf.refl m⟩
  pos hl m hm := by
    rcases List.mem_append.1 hm with hm | hm
    · exact hl m (List.mem_append_left _ hm)
    · rcases List.mem_cons.1 hm with rfl | hm
      · exact hpos
      · exact hl m (List.mem_append_right _ hm)
  bytes := by
    have h1 := sizes_append l₁ (n :: l₂)
    have h2 := sizes_append l₁ l₂
    have h3 := sizes_cons n l₂
    unfold u32
    omega

/-- A held node is deleted. -/
theorem Refit.dump {l₁ l₂ : List Frag3Frag} {n : Frag3Frag} :
    Refit new b (l₁ ++ n :: l₂) (u32 ((b : ℤ) - n.size)) (l₁ ++ l₂) where
  pieces m hm := by
    refine Or.inl ⟨m, ?_, PieceOf.refl m⟩
    rcases List.mem_append.1 hm with hm | hm
    · exact List.mem_append_left _ hm
    · exact List.mem_append_right _ (List.mem_cons_of_mem _ hm)
  pos hl m hm := by
    rcases List.mem_append.1 hm with hm | hm
    · exact hl m (List.mem_append_left _ hm)
    · exact hl m (List.mem_append_right _ (List.mem_cons_of_mem _ hm))
  bytes := by
    have h1 := sizes_append l₁ (n :: l₂)
    have h2 := sizes_append l₁ l₂
    have h3 := sizes_cons n l₂
    unfold u32
    omega

/-- A held node is cut down to a part of itself, `k` bytes shorter. -/
theorem Refit.cut {l₁ l₂ : List Frag3Frag} {n m : Frag3Frag} {k : ℤ} (hp : PieceOf m n)
    (hpos : 0 < m.size) (hk : (m.size : ℤ) = n.size - k) :
    Refit new b (l₁ ++ n :: l₂) (u32 ((b : ℤ) - k)) (l₁ ++ m :: l₂) where
  pieces a ha := by
    rcases List.mem_append.1 ha with ha | ha
    · exact Or.inl ⟨a, List.mem_append_left _ ha, PieceOf.refl a⟩
    · rcases List.mem_cons.1 ha with rfl | ha
      · exact Or.inl ⟨n, List.mem_append_right _ List.mem_cons_self, hp⟩
      · exact Or.inl ⟨a, List.mem_append_right _ (List.mem_cons_of_mem _ ha), PieceOf.refl a⟩
  pos hl a ha := by
    rcases List.mem_append.1 ha with ha | ha
    · exact hl a (List.mem_append_left _ ha)
    · rcases List.mem_cons.1 ha with rfl | ha
      · exact hpos
      · exact hl a (List.mem_append_right _ (List.mem_cons_of_mem _ ha))
  bytes := by
    have h1 := sizes_append l₁ (n :: l₂)
    have h2 := sizes_append l₁ (m :: l₂)
    have h3 := sizes_cons n l₂
    have h4 := sizes_cons m l₂
    unfold u32
    omega

/-- A held node is split in two. -/
theorem Refit.split {l₁ l₂ : List Frag3Frag} {n m m' : Frag3Frag} {k k' : ℤ} (hp : PieceOf m n)
    (hp' : PieceOf m' n) (hpos : 0 < m.size) (hpos' : 0 < m'.size) (hk : (m.size : ℤ) = n.size - k)
    (hk' : (m'.size : ℤ) = n.size - k') :
    Refit new b (l₁ ++ n :: l₂) (u32 ((u32 ((u32 (b + n.size) : ℤ) - k) : ℤ) - k'))
      (l₁ ++ m :: m' :: l₂) where
  pieces a ha := by
    rcases List.mem_append.1 ha with ha | ha
    · exact Or.inl ⟨a, List.mem_append_left _ ha, PieceOf.refl a⟩
    · rcases List.mem_cons.1 ha with rfl | ha
      · exact Or.inl ⟨n, List.mem_append_right _ List.mem_cons_self, hp⟩
      · rcases List.mem_cons.1 ha with rfl | ha
        · exact Or.inl ⟨n, List.mem_append_right _ List.mem_cons_self, hp'⟩
        · exact Or.inl ⟨a, List.mem_append_right _ (List.mem_cons_of_mem _ ha), PieceOf.refl a⟩
  pos hl a ha := by
    rcases List.mem_append.1 ha with ha | ha
    · exact hl a (List.mem_append_left _ ha)
    · rcases List.mem_cons.1 ha with rfl | ha
      · exact hpos
      · rcases List.mem_cons.1 ha with rfl | ha
        · exact hpos'
        · exact hl a (List.mem_append_right _ (List.mem_cons_of_mem _ ha))
  bytes := by
    have h1 := sizes_append l₁ (n :: l₂)
    have h2 := sizes_append l₁ (m :: m' :: l₂)
    have h3 := sizes_cons n l₂
    have h4 := sizes_cons m (m' :: l₂)
    have h5 := sizes_cons m' l₂
    unfold u32
    omega

end Refit

/-! ### The arriving fragment -/

/-- The whole of the arriving fragment, as a node. -/
def whole (p : Packet) (c : Cut) : Frag3Frag :=
  { data := 0, size := c.fragEnd - c.fragOffset, offset := c.fragOffset, fptr := p.ipFragStart,
    flen := p.ipFragLen, ord := 0, last := c.lastfrag }

/-- The variables of `Frag3Insert` after its first part, when no conversion has wrapped. -/
structure CutOk (p : Packet) (c : Cut) : Prop where
  fragLength : c.fragLength = p.ipFragLen
  small : p.ipFragLen ≤ 32767
  len : c.len = c.fragEnd - c.fragOffset
  lt : c.fragOffset < c.fragEnd
  fits : c.len ≤ c.fragLength
  bound : c.fragEnd ≤ 65535

theorem CutOk.whole_bounded {p : Packet} {c : Cut} (hc : CutOk p c) : Bounded [whole p c] := by
  intro n hn
  rw [List.mem_singleton.1 hn]
  have h1 := hc.small
  have h2 := hc.len
  have h3 := hc.lt
  have h4 := hc.fits
  have h5 := hc.bound
  have h6 := hc.fragLength
  simp only [whole, Frag3Frag.stop]
  omega

/-- When nothing of the fragment is left, `AddFragNode` refuses. -/
theorem addFragNode_anomaly {env : Env} {p : Packet} {c : Cut} {lf : Bool} {w : Walk}
    (hc : CutOk p c) (_hs : 0 ≤ w.slide) (_ht : 0 ≤ w.trunc) (hst : w.slide + w.trunc < 32768)
    (h : c.len ≤ w.slide + w.trunc) :
    addFragNode env p c lf w = .error (.anomaly, w) := by
  have h1 := hc.len
  have h2 := hc.lt
  have hneg : i16 (c.len - u16 w.slide - u16 w.trunc) ≤ 0 := by
    unfold i16 u16
    omega
  rw [addFragNode, if_pos hneg]

/-- What `AddFragNode` does when part of the fragment is left and `slide` agrees with the moved
offset: it fails for want of memory, or links exactly that part. -/
theorem addFragNode_cases (env : Env) {p : Packet} {c : Cut} (lf : Bool) {w : Walk}
    (hc : CutOk p c) (hs : w.slide = w.fragOffset - c.fragOffset)
    (hb : c.fragOffset ≤ w.fragOffset) (ht : 0 ≤ w.trunc)
    (h : w.fragOffset + w.trunc < c.fragEnd) :
    addFragNode env p c lf w = .error (.failed, w) ∨
    ∃ n : Frag3Frag, n.offset = w.fragOffset ∧ (n.stop : ℤ) = c.fragEnd - w.trunc ∧
      PieceOf n (whole p c) ∧
      addFragNode env p c lf w = .ok (n, { w with
        mid := n :: w.mid
        ft := { w.ft with ordinal := w.ft.ordinal + 1,
                          fragBytes := u32 (w.ft.fragBytes + n.size) } }) := by
  have h1 := hc.len
  have h2 := hc.lt
  have h3 := hc.fits
  have h4 := hc.bound
  have h5 := hc.small
  have h6 := hc.fragLength
  have hsize : i16 (c.len - u16 w.slide - u16 w.trunc) = c.fragEnd - w.trunc - w.fragOffset := by
    unfold i16 u16
    omega
  have hpos : ¬ i16 (c.len - u16 w.slide - u16 w.trunc) ≤ 0 := by omega
  rw [addFragNode, if_neg hpos]
  by_cases hm : env.fragNode w.ft.ordinal
  · rw [if_pos hm]
    refine Or.inr ⟨_, ?_, ?_, ?_, rfl⟩
    · rfl
    · simp only [Frag3Frag.stop, hsize]
      omega
    · constructor
      · simp only [whole]
        apply List.take_of_length_le
        simp only [Packet.ipFragLen] at h6
        omega
      · exact u16_of_eq h6 (by simp only [whole]; omega)
      · exact hb
      · simp only [whole, Frag3Frag.stop, hsize]
        omega
      · simp only [whole]
        rw [u16_of_eq (n := w.fragOffset - c.fragOffset) (by omega) (by omega)]
        omega
  · exact Or.inl (if_neg hm)

end Snort.Frag3
