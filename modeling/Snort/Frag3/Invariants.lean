import Snort.Frag3.Insert

/-!
# Runs of one tracker

A run opens a tracker with `Frag3NewTracker` and delivers further fragments to it with
`Frag3Insert`.  Surroundings and engine context may change from call to call.

* `fraglist_wellFormed`: in slip free runs the list is sorted, its nodes are not empty and do not
  overlap, and every node stays inside its buffer.
* `bytes_in_place`: every byte held was carried by a received fragment for the very offset at
  which it is held, and `Frag3Rebuild` copies no other byte.
-/

namespace Snort.Frag3

open CInt Tiling

/-- `Run policy new step ps ft`: the tracker `ft` has received the fragments `ps`, the latest
first; the opening one met `new`, each later one met `step` in the state it found. -/
inductive Run (policy : FragPolicy) (new : Packet → Bool → Prop)
    (step : Env → Frag3Context → FragTracker → Packet → Prop) : List Packet → FragTracker → Prop
  | new (env : Env) {p : Packet} {b : Bool} {ft : FragTracker}
      (h : frag3NewTracker env policy p = some (b, ft)) (hp : new p b) : Run policy new step [p] ft
  | insert (env : Env) (ctx : Frag3Context) {ps : List Packet} {p : Packet} {ft : FragTracker}
      (h : Run policy new step ps ft) (hp : step env ctx ft p) :
      Run policy new step (p :: ps) (frag3Insert env ctx p ft).2

/-- Length and end of a fragment fit the 16 bit variables of the code. -/
def InRange (p : Packet) : Prop := p.ipFragLen ≤ 32767 ∧ p.fragOffset * 8 + p.ipFragLen ≤ 65535

instance (p : Packet) : Decidable (InRange p) := by unfold InRange; infer_instance

/-! ### The opening fragment -/

/-- The node that `Frag3NewTracker` makes. -/
def opened (p : Packet) : Frag3Frag :=
  { data := 0, size := if p.mf then p.ipFragLen / 8 * 8 else p.ipFragLen,
    offset := p.fragOffset * 8, fptr := p.ipFragStart, flen := p.ipFragLen, ord := 0,
    last := !p.mf }

/-- The tracker right after it was opened. -/
structure Opened (policy : FragPolicy) (p : Packet) (b : Bool) (ft : FragTracker) : Prop where
  policy : ft.fragPolicy = policy
  list : ft.fraglist = if b then [opened p] else []
  bytes : ft.fragBytes = if b then p.ipFragLen else 0
  gotLast : ft.gotLast = (b && !p.mf && p.fragOffset != 0)
  size : ft.calculatedSize =
    if b ∧ p.mf = false ∧ 0 < p.fragOffset then p.fragOffset * 8 + p.ipFragLen else 0

theorem firstLast_fresh {p : Packet} {ft : FragTracker} (hp : InRange p)
    (hl : ft.gotLast = false) (hs : ft.calculatedSize = 0) :
    ∃ g, (frag3CheckFirstLast p ft).1 =
      { ft with
        gotFirst := g
        gotLast := !p.mf && p.fragOffset != 0
        calculatedSize :=
          if p.mf = false ∧ 0 < p.fragOffset then p.fragOffset * 8 + p.ipFragLen else 0 } := by
  have hna : ¬ Adjusts ft p := fun hadj => by
    have := hadj.2.1
    simp [hl] at this
  cases hmf : p.mf with
  | true =>
    rw [firstLast_mf hmf]
    refine ⟨ft.gotFirst || p.fragOffset == 0, ?_⟩
    simp [← hl, ← hs]
  | false =>
    rcases Nat.eq_zero_or_pos p.fragOffset with hz | hpos
    · rw [firstLast_whole hmf hz]
      refine ⟨ft.gotFirst, ?_⟩
      simp [hz, ← hl, ← hs]
    · have hne : (p.fragOffset != 0) = true := by simpa using hpos.ne'
      obtain ⟨flo, -, heq⟩ := firstLast_last ⟨hp.1, hp.2, fun hadj => absurd hadj hna⟩ hmf hpos
      rw [heq]
      refine ⟨ft.gotFirst, ?_⟩
      simp [hna, hs, hne, hpos]

theorem frag3NewTracker_opened {env : Env} {policy : FragPolicy} {p : Packet} {b : Bool}
    {ft : FragTracker} (hp : InRange p) (h : frag3NewTracker env policy p = some (b, ft)) :
    Opened policy p b ft := by
  obtain ⟨h1, h2⟩ := id hp
  have ho : u16 ((p.fragOffset : ℤ) * 8) = p.fragOffset * 8 := u16_of_eq (by simp) (by omega)
  have he : u16 (((p.fragOffset * 8 : ℕ) : ℤ) + p.ipFragLen) = p.fragOffset * 8 + p.ipFragLen :=
    u16_of_eq (by simp) (by omega)
  have hs : u16 ((((p.fragOffset * 8 + p.ipFragLen : ℕ) : ℤ) / 8 * 8) - (p.fragOffset * 8 : ℕ)) =
      p.ipFragLen / 8 * 8 := u16_of_eq (by omega) (by omega)
  have hb : u32 ((0 : ℕ) + (p.ipFragLen : ℤ)) = p.ipFragLen := u32_of_eq (by simp) (by omega)
  unfold frag3NewTracker at h
  simp only [ho, he, hs] at h
  by_cases hsnap : p.ipFragLen > env.pktSnaplen
  · rw [if_pos hsnap] at h
    cases h
  rw [if_neg hsnap] at h
  by_cases hmem : env.fragNode 0 = true
  · rw [if_pos hmem] at h
    obtain ⟨rfl, rfl⟩ := Prod.mk.inj (Option.some.inj h)
    let t : FragTracker := { fragTime := p.ts, fraglist := [opened p], ordinal := 0 + 1,
                             fragPolicy := policy }
    have ht : t.gotLast = false ∧ t.calculatedSize = 0 := ⟨rfl, rfl⟩
    obtain ⟨g, heq⟩ := firstLast_fresh hp ht.1 ht.2
    simp only [t, opened] at heq
    rw [heq]
    exact ⟨rfl, rfl, hb, by simp, by simp⟩
  · rw [if_neg hmem] at h
    obtain ⟨rfl, rfl⟩ := Prod.mk.inj (Option.some.inj h)
    constructor <;> rfl

/-! ### What holds after every call -/

/-- The widths and the layout that every slip free step keeps. -/
structure Sound (policy : FragPolicy) (ft : FragTracker) : Prop where
  policy : ft.fragPolicy = policy
  laid : Laid ft.fraglist
  bounded : Bounded ft.fraglist
  size : ft.calculatedSize ≤ 65535

/-- A fragment in range that meets no slip in the state it finds. -/
structure Smooth (ctx : Frag3Context) (ft : FragTracker) (p : Packet) : Prop where
  legal : Legal (frag3Expire ctx p ft) p
  slipFree : SlipFree (frag3Expire ctx p ft) p

theorem Opened.sound {policy : FragPolicy} {p : Packet} {b : Bool} {ft : FragTracker}
    (hp : InRange p) (h : Opened policy p b ft) : Sound policy ft := by
  obtain ⟨h1, h2⟩ := hp
  refine ⟨h.policy, ?_, ?_, ?_⟩
  · rw [h.list]
    split_ifs
    · exact List.pairwise_singleton _ _
    · exact List.Pairwise.nil
  · rw [h.list]
    intro n hn
    split_ifs at hn
    · rw [List.mem_singleton.1 hn]
      simp only [opened, Frag3Frag.stop]
      split_ifs <;> omega
    · cases hn
  · rw [h.size]
    split_ifs <;> omega

theorem Sound.expire {policy : FragPolicy} {ft : FragTracker} (h : Sound policy ft)
    (ctx : Frag3Context) (p : Packet) : Sound policy (frag3Expire ctx p ft) := by
  unfold frag3Expire
  split_ifs
  · exact ⟨h.policy, List.Pairwise.nil, fun n hn => (by cases hn), Nat.zero_le _⟩
  · exact h

theorem asNode_bounded {ft : FragTracker} {p : Packet} (h : Legal ft p) :
    Bounded [asNode ft p] := by
  have hle := h.stop_le
  have hsmall := h.small
  have hlen : fragStop ft p - fragStart ft p ≤ p.ipFragLen ∧
      fragStart ft p ≤ 65535 := by
    cases hmf : p.mf with
    | true =>
      have hstart : fragStart ft p = p.fragOffset * 8 :=
        if_neg fun hadj => by simp [hadj.2.2.1] at hmf
      have hstop : fragStop ft p = (p.fragOffset * 8 + p.ipFragLen) / 8 * 8 := if_pos hmf
      have := h.bound
      omega
    | false =>
      have hstop : fragStop ft p = fragStart ft p + p.ipFragLen := by simp [fragStop, hmf]
      omega
  intro n hn
  rw [List.mem_singleton.1 hn]
  simp only [asNode, Frag3Frag.stop]
  omega

theorem Sound.step {policy : FragPolicy} {ft : FragTracker} (h : Sound policy ft) {env : Env}
    {ctx : Frag3Context} {p : Packet} (hp : Smooth ctx ft p) :
    Stepped p (frag3Expire ctx p ft) (frag3Insert env ctx p ft).1 (frag3Insert env ctx p ft).2 ∧
      Sound policy (frag3Insert env ctx p ft).2 := by
  have he := h.expire ctx p
  have hs := frag3Insert_stepped env hp.legal he.laid he.bounded he.size hp.slipFree
  exact ⟨hs, hs.policy.trans he.policy, hs.laid,
    hs.refit.bounded he.bounded (asNode_bounded hp.legal), hs.bound⟩

/-- An invariant of slip free runs: it holds of the opened tracker and is kept by every step. -/
theorem Run.invariant {policy : FragPolicy} {new : Packet → Bool → Prop}
    {step : Env → Frag3Context → FragTracker → Packet → Prop}
    {I : List Packet → FragTracker → Prop} (hnew : ∀ p b, new p b → InRange p)
    (hstep : ∀ env ctx ft p, Sound policy ft → step env ctx ft p → Smooth ctx ft p)
    (hI : ∀ p b ft, new p b → Opened policy p b ft → I [p] ft)
    (hI' : ∀ env ctx ps ft p, Sound policy ft → I ps ft → step env ctx ft p →
      Stepped p (frag3Expire ctx p ft) (frag3Insert env ctx p ft).1 (frag3Insert env ctx p ft).2 →
      I (p :: ps) (frag3Insert env ctx p ft).2)
    {ps : List Packet} {ft : FragTracker} (h : Run policy new step ps ft) :
    Sound policy ft ∧ I ps ft := by
  induction h with
  | new env h hp =>
    have hopen := frag3NewTracker_opened (hnew _ _ hp) h
    exact ⟨hopen.sound (hnew _ _ hp), hI _ _ _ hp hopen⟩
  | insert env ctx _ hp ih =>
    obtain ⟨hs, hi⟩ := ih
    obtain ⟨hst, hs'⟩ := hs.step (hstep _ _ _ _ hs hp)
    exact ⟨hs', hI' _ _ _ _ _ hs hi hp hst⟩

/-- Outside SOLARIS a fragment in range is legal in every state. -/
theorem Sound.legal {policy : FragPolicy} (hpol : policy ≠ .solaris) {ft : FragTracker}
    (h : Sound policy ft) {p : Packet} (hp : InRange p) : Legal ft p :=
  ⟨hp.1, hp.2, fun hadj => absurd (h.policy.symm.trans hadj.1) hpol⟩

/-- The surroundings refuse nothing: memory, snap length and overlap limit suffice, and the
tracker has not timed out. -/
structure Calm (env : Env) (ctx : Frag3Context) (ft : FragTracker) (p : Packet) : Prop where
  memory : ∀ ord, env.fragNode ord = true
  snaplen : p.ipFragLen ≤ env.pktSnaplen
  overlapLimit : ctx.overlapLimit = 0
  time : checkTimeout p.ts ft.fragTime ctx = false

/-! ## The fraglist after every call -/

open CInt Tiling

/-! ### Well-formed lists -/

/-- Sorted, without empty nodes, disjoint, every window inside its buffer. -/
structure WellFormed (l : List Frag3Frag) : Prop where
  sorted : l.Pairwise fun a b => a.offset < b.offset
  pos : ∀ n ∈ l, 0 < n.size
  disjoint : l.Pairwise fun a b =>
    ∀ x, ¬ ((a.offset ≤ x ∧ x < a.stop) ∧ (b.offset ≤ x ∧ x < b.stop))
  window : ∀ n ∈ l, n.data + n.size ≤ n.flen

theorem WellFormed.of_laid {l : List Frag3Frag} (hl : Laid l) (hpos : ∀ n ∈ l, 0 < n.size)
    (hw : ∀ n ∈ l, n.data + n.size ≤ n.flen) : WellFormed l where
  sorted := by
    refine hl.imp_of_mem fun {a b} ha _ hab => ?_
    have := hpos a ha
    simp only [Frag3Frag.stop] at hab
    omega
  pos := hpos
  disjoint := hl.imp fun {a b} hab x => by omega
  window := hw

theorem PieceOf.window {n m : Frag3Frag} (h : PieceOf n m)
    (hm : m.data + m.size ≤ m.flen) : n.data + n.size ≤ n.flen := by
  have h1 := h.flen
  have h2 := h.data
  have h3 := h.stop
  have h4 := h.start
  simp only [Frag3Frag.stop] at h3
  omega

theorem asNode_window {ft : FragTracker} {p : Packet} :
    (asNode ft p).data + (asNode ft p).size ≤ (asNode ft p).flen := by
  simp only [asNode]
  cases hmf : p.mf with
  | true =>
    have hstart : fragStart ft p = p.fragOffset * 8 :=
      if_neg fun hadj => by simp [hadj.2.2.1] at hmf
    have hstop : fragStop ft p = (p.fragOffset * 8 + p.ipFragLen) / 8 * 8 := if_pos hmf
    omega
  | false =>
    have hstop : fragStop ft p = fragStart ft p + p.ipFragLen := by simp [fragStop, hmf]
    omega

/-- The opening fragment leaves a node that is not empty. -/
def OpensFull (p : Packet) : Prop := 0 < p.ipFragLen ∧ (p.mf = true → 8 ≤ p.ipFragLen)

instance (p : Packet) : Decidable (OpensFull p) := by unfold OpensFull; infer_instance

/-- A step of the runs considered: the fragment is in range and meets no slip. -/
def SlipFreeStep (_ : Env) (ctx : Frag3Context) (ft : FragTracker) (p : Packet) : Prop :=
  InRange p ∧ SlipFree (frag3Expire ctx p ft) p

theorem SlipFreeStep.smooth {policy : FragPolicy} (hpol : policy ≠ .solaris) (env : Env)
    (ctx : Frag3Context) (ft : FragTracker) (p : Packet) (hs : Sound policy ft)
    (h : SlipFreeStep env ctx ft p) : Smooth ctx ft p :=
  ⟨(hs.expire ctx p).legal hpol h.1, h.2⟩

/-- No node is empty and every window is inside its buffer. -/
def Filled (l : List Frag3Frag) : Prop := ∀ n ∈ l, 0 < n.size ∧ n.data + n.size ≤ n.flen

theorem Opened.filled {policy : FragPolicy} {p : Packet} {b : Bool} {ft : FragTracker}
    (h : Opened policy p b ft) (hp : OpensFull p) : Filled ft.fraglist := by
  obtain ⟨hpos, hmf⟩ := hp
  rw [h.list]
  intro n hn
  cases b with
  | false => cases hn
  | true =>
    rw [List.mem_singleton.1 hn]
    simp only [opened]
    split_ifs with h8
    · have := hmf h8
      omega
    · omega

theorem Filled.expire {ft : FragTracker} (h : Filled ft.fraglist) (ctx : Frag3Context)
    (p : Packet) : Filled (frag3Expire ctx p ft).fraglist := by
  unfold frag3Expire
  split_ifs
  · intro n hn
    cases hn
  · exact h

theorem Stepped.filled {p : Packet} {ft ft' : FragTracker} {ret : InsertRet}
    (h : Stepped p ft ret ft') (hf : Filled ft.fraglist) : Filled ft'.fraglist := by
  intro n hn
  refine ⟨h.refit.pos (fun m hm => (hf m hm).1) n hn, ?_⟩
  rcases h.refit.pieces n hn with ⟨m, hm, hp⟩ | hp
  · exact hp.window (hf m hm).2
  · exact hp.window asNode_window

/-- **The list invariant**: in every run whose opening fragment does not leave an empty node and
whose steps meet no slip, the fraglist is well formed after every call. -/
theorem fraglist_wellFormed {policy : FragPolicy} (hpol : policy ≠ .solaris) {ps : List Packet}
    {ft : FragTracker}
    (h : Run policy (fun p _ => InRange p ∧ OpensFull p) SlipFreeStep ps ft) :
    WellFormed ft.fraglist := by
  have hinv : Sound policy ft ∧ Filled ft.fraglist :=
    h.invariant (I := fun _ ft => Filled ft.fraglist) (fun _ _ hp => hp.1) 
      (SlipFreeStep.smooth hpol) (fun _ _ _ hp ho => ho.filled hp.2)
      (fun _ ctx _ _ p _ hf _ hst => hst.filled (hf.expire ctx p))
  obtain ⟨hs, hf⟩ := hinv
  exact WellFormed.of_laid hs.laid (fun n hn => (hf n hn).1) (fun n hn => (hf n hn).2)

/-- A fragment of `len` zero bytes. -/
def zeros (fragOffset len : ℕ) (mf : Bool) : Packet :=
  { fragOffset := fragOffset, mf := mf, ipFragStart := List.replicate len 0 }

theorem fraglist_wellFormed_linux : ∃ ft,
    Run .linux (fun p _ => InRange p ∧ OpensFull p) SlipFreeStep
      [zeros 1 16 false, zeros 0 16 true] ft ∧ WellFormed ft.fraglist := by
  have h : Run .linux (fun p _ => InRange p ∧ OpensFull p) SlipFreeStep
      [zeros 1 16 false, zeros 0 16 true] _ :=
    .insert {} {} (.new {} rfl ⟨by decide, by decide⟩) ⟨by decide, by decide⟩
  exact ⟨_, h, fraglist_wellFormed (by decide) h⟩

/-- A fragment that is not empty and in range, opening a tracker. -/
def Opens (p : Packet) (b : Bool) : Prop := b = true ∧ 0 < p.ipFragLen ∧ InRange p

/-- A fragment that is not empty and in range, and that the surroundings do not refuse. -/
def Regular (env : Env) (ctx : Frag3Context) (ft : FragTracker) (p : Packet) : Prop :=
  0 < p.ipFragLen ∧ InRange p ∧ Calm env ctx ft p

/-- A slip: the chunk behind a held fragment at the same offset is not cut off before the next
held one. -/
theorem overlapping_nodes : ∃ ft,
    Run .first Opens Regular [zeros 0 32 true, zeros 2 8 true, zeros 0 8 true] ft ∧
      ¬ WellFormed ft.fraglist := by
  have h : Run .first Opens Regular [zeros 0 32 true, zeros 2 8 true, zeros 0 8 true] _ :=
    .insert {} {} (.insert {} {} (.new {} rfl ⟨rfl, by decide, by decide⟩)
      ⟨by decide, by decide, fun _ => rfl, by decide, rfl, by decide⟩)
      ⟨by decide, by decide, fun _ => rfl, by decide, rfl, by decide⟩
  exact ⟨_, h, fun hw => absurd hw.sorted (by decide)⟩

/-! ### Every byte in its place -/

/-- The byte that a fragment carries for the datagram offset `x`. -/
def carried (p : Packet) (x : ℕ) : Option UInt8 :=
  if p.fragOffset * 8 ≤ x then p.ipFragStart[x - p.fragOffset * 8]? else none

/-- Every byte of every node was carried, for that offset, by one of the fragments. -/
def InPlace (ps : List Packet) (l : List Frag3Frag) : Prop :=
  ∀ n ∈ l, ∀ i < n.size, ∃ p ∈ ps, ∃ b,
    n.fptr[n.data + i]? = some b ∧ carried p (n.offset + i) = some b

/-- A fragment as a node, uncut and at its own offset. -/
def uncut (p : Packet) : Frag3Frag :=
  { data := 0, size := p.ipFragLen, offset := p.fragOffset * 8, fptr := p.ipFragStart,
    flen := p.ipFragLen, ord := 0, last := !p.mf }

/-- Every node is a part of one of the fragments. -/
def Parts (ps : List Packet) (l : List Frag3Frag) : Prop := ∀ n ∈ l, ∃ p ∈ ps, PieceOf n (uncut p)

theorem PieceOf.carried {n : Frag3Frag} {p : Packet} (h : PieceOf n (uncut p)) {x : ℕ}
    (hx : n.offset ≤ x ∧ x < n.stop) :
    ∃ b, n.fptr[n.data + (x - n.offset)]? = some b ∧ carried p x = some b := by
  have h1 : p.fragOffset * 8 ≤ n.offset := h.start
  have h2 : n.stop ≤ p.fragOffset * 8 + p.ipFragStart.length := h.stop
  have h3 : n.data = 0 + (n.offset - p.fragOffset * 8) := h.data
  have hidx : n.data + (x - n.offset) = x - p.fragOffset * 8 := by omega
  have hlt : x - p.fragOffset * 8 < p.ipFragStart.length := by omega
  refine ⟨p.ipFragStart[x - p.fragOffset * 8], ?_, ?_⟩
  · rw [h.fptr, hidx]
    exact List.getElem?_eq_getElem hlt
  · rw [Frag3.carried, if_pos (by omega)]
    exact List.getElem?_eq_getElem hlt

theorem Parts.inPlace {ps : List Packet} {l : List Frag3Frag} (h : Parts ps l) : InPlace ps l := by
  intro n hn i hi
  obtain ⟨p, hp, hpiece⟩ := h n hn
  obtain ⟨b, h1, h2⟩ := hpiece.carried (x := n.offset + i) (by simp only [Frag3Frag.stop]; omega)
  rw [Nat.add_sub_cancel_left] at h1
  exact ⟨p, hp, b, h1, h2⟩

theorem asNode_uncut {ft : FragTracker} {p : Packet} (hpol : ft.fragPolicy ≠ .solaris) :
    PieceOf (asNode ft p) (uncut p) := by
  have hstart : fragStart ft p = p.fragOffset * 8 := if_neg fun hadj => hpol hadj.1
  have hstop : fragStop ft p ≤ p.fragOffset * 8 + p.ipFragLen := by
    unfold fragStop
    split_ifs <;> omega
  refine ⟨rfl, rfl, hstart.ge, ?_, ?_⟩
  · simp only [asNode, uncut, Frag3Frag.stop]
    omega
  · simp only [asNode, uncut]
    omega

theorem Opened.parts {policy : FragPolicy} {p : Packet} {b : Bool} {ft : FragTracker}
    (h : Opened policy p b ft) : Parts [p] ft.fraglist := by
  rw [h.list]
  intro n hn
  cases b with
  | false => cases hn
  | true =>
    refine ⟨p, List.mem_singleton_self p, ?_⟩
    rw [List.mem_singleton.1 hn]
    refine ⟨rfl, rfl, le_rfl, ?_, ?_⟩
    · simp only [opened, uncut, Frag3Frag.stop]
      split_ifs <;> omega
    · simp only [opened, uncut]
      omega

theorem Parts.expire {ps : List Packet} {ft : FragTracker} (h : Parts ps ft.fraglist)
    (ctx : Frag3Context) (p : Packet) : Parts ps (frag3Expire ctx p ft).fraglist := by
  unfold frag3Expire
  split_ifs
  · intro n hn
    cases hn
  · exact h

theorem Stepped.parts {ps : List Packet} {p : Packet} {ft ft' : FragTracker} {ret : InsertRet}
    (h : Stepped p ft ret ft') (hpol : ft.fragPolicy ≠ .solaris) (hf : Parts ps ft.fraglist) :
    Parts (p :: ps) ft'.fraglist := by
  intro n hn
  rcases h.refit.pieces n hn with ⟨m, hm, hp⟩ | hp
  · obtain ⟨q, hq, hmq⟩ := hf m hm
    exact ⟨q, List.mem_cons_of_mem _ hq, hp.trans hmq⟩
  · exact ⟨p, List.mem_cons_self, hp.trans (asNode_uncut hpol)⟩

/-- What the copy loop writes comes from a node that holds the offset. -/
theorem rebuildLoop_some {calculatedSize maxDsize : ℕ} {l : List Frag3Frag} {x : ℕ} {b : UInt8} :
    ∀ {buf : ℕ → Option UInt8}, rebuildLoop calculatedSize maxDsize l buf x = some b →
      buf x = some b ∨ ∃ n ∈ l, (n.offset ≤ x ∧ x < n.stop) ∧
        n.fptr[n.data + (x - n.offset)]? = some b := by
  induction l with
  | nil => exact fun h => Or.inl h
  | cons frag next ih =>
    intro buf h
    have hskip : ∀ {buf' : ℕ → Option UInt8},
        rebuildLoop calculatedSize maxDsize next buf' x = some b →
        (buf' x = some b → buf x = some b ∨ ((frag.offset ≤ x ∧ x < frag.stop) ∧
          frag.fptr[frag.data + (x - frag.offset)]? = some b)) →
        buf x = some b ∨ ∃ n ∈ frag :: next, (n.offset ≤ x ∧ x < n.stop) ∧
          n.fptr[n.data + (x - n.offset)]? = some b := by
      intro buf' h hbuf
      rcases ih h with hx | ⟨n, hn, hx⟩
      · exact (hbuf hx).imp_right fun hx => ⟨frag, List.mem_cons_self, hx⟩
      · exact Or.inr ⟨n, List.mem_cons_of_mem _ hn, hx⟩
    rw [rebuildLoop] at h
    split_ifs at h with hbeyond hsize hmax
    · exact hskip h Or.inl
    · exact Or.inl h
    · refine hskip h fun hx => ?_
      rw [copyFrag] at hx
      split_ifs at hx with hcov
      · exact Or.inr ⟨hcov, hx⟩
      · exact Or.inl hx
    · exact hskip h Or.inl

/-- **Every byte is in its place**: in every run whose steps meet no slip, each byte held was
carried by a received fragment for the offset at which it is held, and so was each byte of the
rebuilt packet. -/
theorem bytes_in_place {policy : FragPolicy} (hpol : policy ≠ .solaris) {ps : List Packet}
    {ft : FragTracker} (h : Run policy (fun p _ => InRange p) SlipFreeStep ps ft) :
    InPlace ps ft.fraglist ∧ ∀ maxDsize x b, frag3Rebuild maxDsize ft x = some b →
      ∃ p ∈ ps, carried p x = some b := by
  have hinv : Sound policy ft ∧ Parts ps ft.fraglist :=
    h.invariant (I := fun ps ft => Parts ps ft.fraglist) (fun _ _ hp => hp)
      (SlipFreeStep.smooth hpol) (fun _ _ _ _ ho => ho.parts)
      (fun _ ctx _ _ p hs hf _ hst =>
        hst.parts (by rw [(hs.expire ctx p).policy]; exact hpol) (hf.expire ctx p))
  refine ⟨hinv.2.inPlace, fun maxDsize x b hx => ?_⟩
  rcases rebuildLoop_some hx with hnone | ⟨n, hn, hcov, hb⟩
  · cases hnone
  · obtain ⟨p, hp, hpiece⟩ := hinv.2 n hn
    obtain ⟨b', h1, h2⟩ := hpiece.carried hcov
    rw [hb] at h1
    exact ⟨p, hp, h2.trans h1.symm⟩

theorem bytes_in_place_windows : ∃ ft,
    Run .windows (fun p _ => InRange p) SlipFreeStep [zeros 1 16 false, zeros 0 16 true] ft ∧
      InPlace [zeros 1 16 false, zeros 0 16 true] ft.fraglist := by
  have h : Run .windows (fun p _ => InRange p) SlipFreeStep
      [zeros 1 16 false, zeros 0 16 true] _ :=
    .insert {} {} (.new {} rfl (by decide)) ⟨by decide, by decide⟩
  exact ⟨_, h, (bytes_in_place (by decide) h).1⟩

/-- Two held fragments, one that overlaps both and reaches beyond them, and the last one. -/
def shifted : List Packet := [zeros 7 8 false, zeros 1 40 true, zeros 2 16 true, zeros 0 16 true]

/-- A slip: a fragment moved behind the held one on its left meets a second one at the place it
was moved to, and the chunk behind that one starts eight bytes too early in the fragment and is
eight bytes too long; the rebuilt packet has bytes that nobody carried. -/
theorem misplaced_bytes : ∃ ft, Run .first Opens Regular shifted ft ∧
    ¬ InPlace shifted ft.fraglist ∧ frag3Rebuild 65535 ft 48 = some 0 ∧
      ∀ p ∈ shifted, carried p 48 = none := by
  have h : Run .first Opens Regular shifted _ :=
    .insert {} {} (.insert {} {} (.insert {} {} (.new {} rfl ⟨rfl, by decide, by decide⟩)
      ⟨by decide, by decide, fun _ => rfl, by decide, rfl, by decide⟩)
      ⟨by decide, by decide, fun _ => rfl, by decide, rfl, by decide⟩)
      ⟨by decide, by decide, fun _ => rfl, by decide, rfl, by decide⟩
  have hnone : ∀ p ∈ shifted, carried p 48 = none := by decide
  refine ⟨_, h, fun hin => ?_, by decide, hnone⟩
  obtain ⟨p, hp, b, -, hb⟩ := hin
    ⟨16, 24, 32, List.replicate 40 0, 40, 2, false⟩ (by decide +kernel) 16 (by decide)
  rw [hnone p hp] at hb
  cases hb

end Snort.Frag3
