import Snort.Stream5.PafModel

/-!
# The loop of `s5_paf_check`

The loop with all the registered callbacks of a mask, up to the flush that may end it, and with the calls
of `s5_paf_callback` that it makes.

* `s5PafEval`, `Call.next`: a round of the loop;
* `Progress`: the loop ends, `s5_idx` only grows, and the callbacks get the bytes at `s5_idx`;
* `Fits`: no offset that a callback selects reaches `2 ^ 32` when `s5_idx` is added;
* `Placed`: the bytes at hand are those of the segment from `s5_idx` on;
* **`progress_iff`**: when the loop makes progress.
-/

namespace Snort.Stream5.PafProgress

open HiPaf (PafStatus Byte)

variable {σ : Type}

/-- `PAF_Callback`, on the flags, the user data, the bytes and `*fp`. -/
abbrev Callback (σ : Type) := U32 → σ → List Byte → U32 → PafStatus × σ × U32

/-- `PAF_State`, without the bytes flushed. -/
structure PafState (σ : Type) where
  user : σ
  seq : Seq
  pos : Seq
  fpt : U32
  paf : PafStatus
  cbMask : BitVec 8
  deriving DecidableEq

/-- What a call of `s5_paf_check` has at hand: the configuration, the registered callbacks and the
arguments that the loop does not change; `s5Len` is the number of queued bytes. -/
structure Call (σ : Type) where
  cfg : PafConfig
  s5Cb : Fin 8 → Callback σ
  flags : U32
  fuzz : U32
  s5Len : U32

/-- The loop of `s5_paf_callback` over the callbacks; with the last answer and `update`. -/
def callbackLoop (c : Call σ) (data : List Byte) :
    List (Fin 8) → PafState σ → BitVec 8 → PafStatus → PafState σ × PafStatus × Bool
  | [], ps, _, paf => (ps, paf, false)
  | i :: is, ps, mask, paf =>
    if mask = 0 then (ps, paf, false)
    else
      let bit := (1 : BitVec 8) <<< i.val
      if bit &&& mask ≠ 0 then
        let (paf, user, fpt) := c.s5Cb i c.flags ps.user data ps.fpt
        let ps := { ps with user := user, fpt := fpt }
        -- this one bailed out
        if paf = .abort then
          callbackLoop c data is { ps with cbMask := ps.cbMask ^^^ bit } (mask ^^^ bit) paf
        -- this one selected
        else if paf ≠ .search then ({ ps with cbMask := bit }, paf, true)
        else callbackLoop c data is ps (mask ^^^ bit) paf
      else callbackLoop c data is ps mask paf

/-- The callbacks, and what they select; the flag is `update`.  The answer is not read where no callback
has been asked. -/
def runCallbacks (c : Call σ) (ps : PafState σ) (data : List Byte) : PafState σ × Bool :=
  let (ps, paf, update) := callbackLoop c data (List.finRange 8) ps ps.cbMask .abort
  if ps.cbMask = 0 then ({ ps with paf := .abort }, true)
  else if paf ≠ .abort then ({ ps with paf := paf }, update)
  else (ps, update)

/-- `s5_paf_callback`; the last component is `s5_idx`. -/
def s5PafCallback (c : Call σ) (ps : PafState σ) (data : List Byte) (s5Idx : U32) :
    Bool × PafState σ × U32 :=
  let (ps, update) := runCallbacks c ps data
  if update then
    let ps := { ps with fpt := ps.fpt + s5Idx }
    if ps.fpt ≤ c.s5Len then (true, ps, ps.fpt) else (false, ps, c.s5Len)
  else (false, ps, c.s5Len)

/-- What `s5_paf_eval` returns and leaves, and with which `s5_idx` and bytes it has called
`s5_paf_callback`. -/
structure Eval (σ : Type) where
  cont : Bool
  ps : PafState σ
  s5Idx : U32
  ft : FlushType
  scan : Option (U32 × List Byte)

/-- The end of `s5_paf_eval` with a call of `s5_paf_callback`. -/
def evalCallback (c : Call σ) (ps : PafState σ) (data : List Byte) (s5Idx : U32) : Eval σ :=
  let (cont, ps, idx) := s5PafCallback c ps data s5Idx
  ⟨cont, ps, idx, .nop, some (s5Idx, data)⟩

/-- `delta` in `s5_paf_eval`: how far what is to be skipped reaches into the bytes. -/
def delta (ps : PafState σ) (s5Idx : U32) : ℕ :=
  if s5Idx < ps.fpt then (ps.fpt - s5Idx).toNat else 0

/-- `s5_paf_eval`. -/
def s5PafEval (c : Call σ) (ps : PafState σ) (data : List Byte) (s5Idx : U32) : Eval σ :=
  match ps.paf with
  | .search =>
    if s5Idx < c.s5Len then evalCallback c ps data s5Idx
    else ⟨false, ps, s5Idx, .nop, none⟩
  | .flush =>
    if ps.fpt ≤ c.s5Len then ⟨true, { ps with paf := .search }, s5Idx, .paf, none⟩
    else if c.cfg.mfp + c.fuzz ≤ c.s5Len then ⟨false, ps, s5Idx, .max, none⟩
    else ⟨false, ps, s5Idx, .nop, none⟩
  | .skip =>
    if ps.fpt < c.s5Len then
      if data.length < delta ps s5Idx then ⟨false, ps, s5Idx, .nop, none⟩
      else evalCallback c ps (data.drop (delta ps s5Idx)) ps.fpt
    else ⟨false, ps, s5Idx, .nop, none⟩
  | _ => ⟨false, ps, s5Idx, .sfp, none⟩

/-- The state of the loop before a round. -/
structure Frame (σ : Type) where
  ps : PafState σ
  data : List Byte
  s5Idx : U32
  deriving DecidableEq

/-- The call of `s5_paf_eval` in a round. -/
def Call.eval (c : Call σ) (f : Frame σ) : Eval σ := s5PafEval c f.ps f.data f.s5Idx

/-- A round of the loop, if it is not the last one. -/
def Call.next (c : Call σ) (f : Frame σ) : Option (Frame σ) :=
  let e := c.eval f
  if e.ft ≠ .nop then none
  else if e.cont then
    let shift := if f.s5Idx < e.s5Idx then (e.s5Idx - f.s5Idx).toNat else 0
    some ⟨e.ps, f.data.drop shift, e.s5Idx⟩
  else none

/-- The loop: the state before the last round. -/
def Call.loop (c : Call σ) : ℕ → Frame σ → Option (Frame σ)
  | 0, _ => none
  | fuel + 1, f =>
    match c.next f with
    | none => some f
    | some g => c.loop fuel g

/-- The state in which the loop starts. -/
def startFrame (ps : PafState σ) (data : List Byte) (total : U32) : Frame σ :=
  let len := BitVec.ofNat 32 data.length
  ⟨{ ps with seq := ps.seq + len }, data, total - len⟩

/-- The part of `s5_paf_check` before the loop, if it does not return there. -/
def s5PafCheckStart (ps : PafState σ) (data : List Byte) (total : U32) (seq : Seq) :
    Option (Frame σ) :=
  let len := BitVec.ofNat 32 data.length
  if ps.paf = .start then
    some (startFrame { ps with seq := seq, pos := seq, paf := .search } data total)
  -- if seq jumped we have a gap, so abort paf
  else if seqGt seq ps.seq then none
  else if seqLeq (seq + len) ps.seq then none
  else if seqLt seq ps.seq then
    some (startFrame ps (data.drop (ps.seq - seq).toNat) total)
  else some (startFrame ps data total)

/-! ### Progress -/

/-- The states of the loop. -/
abbrev Call.Reaches (c : Call σ) : Frame σ → Frame σ → Prop :=
  Relation.ReflTransGen fun f g => c.next f = some g

/-- The loop that starts at `f` with the bytes of a segment ends; in each round `s5_idx` does not
decrease nor exceed `s5_len`, and the callbacks get the bytes of the segment from `s5_idx` on. -/
structure Progress (c : Call σ) (f : Frame σ) : Prop where
  terminates : ∃ fuel, (c.loop fuel f).isSome
  grows : ∀ g, c.Reaches f g → g.s5Idx ≤ (c.eval g).s5Idx ∧ (c.eval g).s5Idx ≤ c.s5Len
  windows : ∀ g, c.Reaches f g → ∀ p ∈ (c.eval g).scan, g.s5Idx ≤ p.1 ∧ p.1 ≤ (c.eval g).s5Idx ∧
    f.s5Idx ≤ p.1 ∧ p.2 = f.data.drop (p.1 - f.s5Idx).toNat

/-- The verdicts `PAF_FLUSH` and `PAF_SKIP` come with offsets of at least 1. -/
def Positive (s5Cb : Fin 8 → Callback σ) : Prop :=
  ∀ i flags user data fpt, (s5Cb i flags user data fpt).1 = .flush ∨
    (s5Cb i flags user data fpt).1 = .skip → 1 ≤ (s5Cb i flags user data fpt).2.2

/-- What is to be skipped at the start does not end before the new bytes, and no offset that the callbacks
select reaches `2 ^ 32` when the `s5_idx` they are called with is added. -/
structure Fits (c : Call σ) (f : Frame σ) : Prop where
  start : f.ps.paf = .skip → f.s5Idx ≤ f.ps.fpt
  offsets : ∀ g, c.Reaches f g → ∀ p ∈ (c.eval g).scan, (runCallbacks c g.ps p.2).2 = true →
    (runCallbacks c g.ps p.2).1.fpt.toNat + p.1.toNat < 2 ^ 32

variable {c : Call σ} {f g : Frame σ}

/-! ### The callbacks -/

/-- A callback that selects answers neither `PAF_SEARCH` nor `PAF_ABORT`. -/
theorem callbackLoop_update (hpos : Positive c.s5Cb) (data : List Byte) (is : List (Fin 8))
    (ps : PafState σ) (mask : BitVec 8) (paf : PafStatus)
    (h : (callbackLoop c data is ps mask paf).2.2 = true) :
    (callbackLoop c data is ps mask paf).2.1 ≠ .search ∧
      (callbackLoop c data is ps mask paf).2.1 ≠ .abort ∧
      ((callbackLoop c data is ps mask paf).2.1 = .flush ∨
        (callbackLoop c data is ps mask paf).2.1 = .skip →
          1 ≤ (callbackLoop c data is ps mask paf).1.fpt) := by
  fun_induction callbackLoop c data is ps mask paf with
  | case1 | case2 => cases h
  | case4 i is ps mask paf hmask bit hbit paf' user fpt hcb ps' habort hsearch =>
    have hone := hpos i c.flags ps.user data ps.fpt
    rw [hcb] at hone
    exact ⟨hsearch, habort, hone⟩
  | case3 _ _ _ _ _ _ _ _ _ _ _ _ ih | case5 _ _ _ _ _ _ _ _ _ _ _ _ _ _ _ ih
  | case6 _ _ _ _ _ _ _ _ ih => exact ih h

/-- What is selected is not to be searched on, and there is something to skip. -/
theorem runCallbacks_update (hpos : Positive c.s5Cb) (ps : PafState σ) (data : List Byte)
    (h : (runCallbacks c ps data).2 = true) :
    (runCallbacks c ps data).1.paf ≠ .search ∧
      ((runCallbacks c ps data).1.paf = .skip → 1 ≤ (runCallbacks c ps data).1.fpt) := by
  have hloop := callbackLoop_update hpos data (List.finRange 8) ps ps.cbMask .abort
  unfold runCallbacks at h ⊢
  rcases hrun : callbackLoop c data (List.finRange 8) ps ps.cbMask .abort with ⟨ps', paf, update⟩
  rw [hrun] at h hloop
  dsimp only at h hloop ⊢
  split_ifs at h ⊢ with hmask habort
  · exact ⟨by simp, by simp⟩
  · exact ⟨(hloop h).1, fun hskip => (hloop h).2.2 (Or.inr hskip)⟩
  · exact absurd (not_not.1 habort) (hloop h).2.1

/-- Where the callbacks select a point in the queued bytes, `s5_idx` goes there; else it goes to the
end. -/
theorem s5PafCallback_cases (c : Call σ) (ps : PafState σ) (data : List Byte) (s5Idx : U32) :
    ((runCallbacks c ps data).2 = true ∧ (runCallbacks c ps data).1.fpt + s5Idx ≤ c.s5Len ∧
      s5PafCallback c ps data s5Idx =
        (true, { (runCallbacks c ps data).1 with fpt := (runCallbacks c ps data).1.fpt + s5Idx },
          (runCallbacks c ps data).1.fpt + s5Idx)) ∨
    (((runCallbacks c ps data).2 = true → c.s5Len < (runCallbacks c ps data).1.fpt + s5Idx) ∧
      (s5PafCallback c ps data s5Idx).1 = false ∧
      (s5PafCallback c ps data s5Idx).2.2 = c.s5Len) := by
  unfold s5PafCallback
  rcases runCallbacks c ps data with ⟨ps', update⟩
  dsimp only
  split_ifs with hupdate hle
  · exact Or.inl ⟨hupdate, hle, rfl⟩
  · exact Or.inr ⟨fun _ => BitVec.not_le.1 hle, rfl, rfl⟩
  · exact Or.inr ⟨fun h => absurd h hupdate, rfl, rfl⟩

/-! ### A round -/

/-- Where a round calls the callbacks. -/
theorem eval_scan {p : U32 × List Byte} (h : p ∈ (c.eval f).scan) :
    p.1 < c.s5Len ∧ c.eval f = evalCallback c f.ps p.2 p.1 ∧
      (f.ps.paf = .search ∧ p = (f.s5Idx, f.data) ∨
        f.ps.paf = .skip ∧ delta f.ps f.s5Idx ≤ f.data.length ∧
          p = (f.ps.fpt, f.data.drop (delta f.ps f.s5Idx))) := by
  unfold Call.eval s5PafEval at h ⊢
  cases hpaf : f.ps.paf with
  | search =>
    rw [hpaf] at h
    dsimp only at h ⊢
    split_ifs at h ⊢ with hlt
    · obtain rfl : (f.s5Idx, f.data) = p := Option.some.inj h
      exact ⟨hlt, rfl, Or.inl ⟨rfl, rfl⟩⟩
    · cases h
  | skip =>
    rw [hpaf] at h
    dsimp only at h ⊢
    split_ifs at h ⊢ with hlt hlen
    · cases h
    · obtain rfl : (f.ps.fpt, f.data.drop (delta f.ps f.s5Idx)) = p := Option.some.inj h
      exact ⟨hlt, rfl, Or.inr ⟨rfl, not_lt.1 hlen, rfl⟩⟩
    · cases h
  | flush =>
    rw [hpaf] at h
    dsimp only at h
    split_ifs at h <;> cases h
  | start | abort =>
    rw [hpaf] at h
    cases h

/-- A round without the callbacks leaves `s5_idx` and is the last one. -/
theorem eval_still (h : (c.eval f).scan = none) : (c.eval f).s5Idx = f.s5Idx ∧ c.next f = none := by
  have hcall : ∀ {ps : PafState σ} {data : List Byte} {i : U32}, (evalCallback c ps data i).scan ≠ none :=
    fun h => Option.some_ne_none _ h
  have hlast : (c.eval f).s5Idx = f.s5Idx ∧ ((c.eval f).ft ≠ .nop ∨ (c.eval f).cont = false) := by
    unfold Call.eval s5PafEval at h ⊢
    cases hpaf : f.ps.paf with
    | search =>
      rw [hpaf] at h
      dsimp only at h ⊢
      split_ifs at h ⊢ with hlt
      · exact absurd h hcall
      · exact ⟨rfl, Or.inr rfl⟩
    | skip =>
      rw [hpaf] at h
      dsimp only at h ⊢
      split_ifs at h ⊢ with hlt hlen
      · exact ⟨rfl, Or.inr rfl⟩
      · exact absurd h hcall
      · exact ⟨rfl, Or.inr rfl⟩
    | flush =>
      dsimp only
      split_ifs
      · exact ⟨rfl, Or.inl (by simp)⟩
      · exact ⟨rfl, Or.inl (by simp)⟩
      · exact ⟨rfl, Or.inr rfl⟩
    | start | abort => exact ⟨rfl, Or.inl (by simp)⟩
  refine ⟨hlast.1, ?_⟩
  rw [Call.next]
  rcases hlast.2 with hft | hcont
  · exact if_pos hft
  · simp [hcont]

/-- A round that is not the last one: the callbacks have selected a point in the queued bytes. -/
theorem next_cases (h : c.next f = some g) :
    ∃ p ∈ (c.eval f).scan, (runCallbacks c f.ps p.2).2 = true ∧
      (runCallbacks c f.ps p.2).1.fpt + p.1 ≤ c.s5Len ∧
      g.s5Idx = (c.eval f).s5Idx ∧ g.s5Idx = (runCallbacks c f.ps p.2).1.fpt + p.1 ∧
      g.ps = { (runCallbacks c f.ps p.2).1 with fpt := g.s5Idx } ∧
      g.data = f.data.drop (if f.s5Idx < g.s5Idx then (g.s5Idx - f.s5Idx).toNat else 0) := by
  cases hscan : (c.eval f).scan with
  | none => simp [(eval_still hscan).2] at h
  | some p =>
    obtain ⟨-, heval, -⟩ := eval_scan (Option.mem_def.2 hscan)
    unfold Call.next at h
    rw [heval] at h ⊢
    obtain ⟨hupdate, hle, hcall⟩ | ⟨-, hcont, -⟩ := s5PafCallback_cases c f.ps p.2 p.1
    · unfold evalCallback at h ⊢
      rw [hcall] at h ⊢
      obtain rfl := Option.some.inj h
      exact ⟨p, rfl, hupdate, hle, rfl, rfl, rfl, rfl⟩
    · unfold evalCallback at h
      rcases hcall : s5PafCallback c f.ps p.2 p.1 with ⟨cont, ps, idx⟩
      rw [hcall] at h hcont
      dsimp only at h hcont
      simp [hcont] at h

/-! ### The bytes at hand -/

/-- The bytes at hand are those of the segment from `s5_idx` on, if the loop started at `f` with it, and
what is to be skipped is still ahead. -/
structure Placed (c : Call σ) (f g : Frame σ) : Prop where
  first : f.s5Idx ≤ g.s5Idx
  last : g.s5Idx ≤ c.s5Len
  data : g.data = f.data.drop (g.s5Idx - f.s5Idx).toNat
  skip : g.ps.paf = .skip → g.s5Idx ≤ g.ps.fpt

theorem toNat_sub {x y : U32} (h : x ≤ y) : (y - x).toNat = y.toNat - x.toNat :=
  BitVec.toNat_sub_of_le h

/-- Bytes dropped in two steps. -/
theorem drop_drop {x y z : U32} (hxy : x ≤ y) (hyz : y ≤ z) (l : List Byte) :
    (l.drop (y - x).toNat).drop (z - y).toNat = l.drop (z - x).toNat := by
  rw [List.drop_drop, toNat_sub hxy, toNat_sub hyz, toNat_sub (BitVec.le_trans hxy hyz)]
  have := BitVec.le_def.1 hxy
  have := BitVec.le_def.1 hyz
  congr 1
  omega

/-- The callbacks get the bytes at `s5_idx`. -/
theorem Placed.scan (h : Placed c f g) {p : U32 × List Byte} (hp : p ∈ (c.eval g).scan) :
    g.s5Idx ≤ p.1 ∧ p.2 = f.data.drop (p.1 - f.s5Idx).toNat := by
  obtain ⟨-, -, ⟨-, rfl⟩ | ⟨hskip, -, rfl⟩⟩ := eval_scan hp
  · exact ⟨BitVec.le_refl _, h.data⟩
  · have hle := h.skip hskip
    refine ⟨hle, ?_⟩
    have hdelta : delta g.ps g.s5Idx = (g.ps.fpt - g.s5Idx).toNat := by
      unfold delta
      split_ifs with hlt
      · rfl
      · rw [toNat_sub hle]
        have := BitVec.lt_def.not.1 hlt
        omega
    dsimp only
    rw [hdelta, h.data, drop_drop h.first hle]

/-- Where the callbacks are called with an `s5_idx`, it only grows. -/
theorem eval_grows {p : U32 × List Byte} (hp : p ∈ (c.eval g).scan)
    (hfits : (runCallbacks c g.ps p.2).2 = true →
      (runCallbacks c g.ps p.2).1.fpt.toNat + p.1.toNat < 2 ^ 32) :
    p.1 ≤ (c.eval g).s5Idx ∧ (c.eval g).s5Idx ≤ c.s5Len := by
  obtain ⟨hlt, heval, -⟩ := eval_scan hp
  have hidx : (c.eval g).s5Idx = (s5PafCallback c g.ps p.2 p.1).2.2 := by rw [heval]; rfl
  obtain ⟨hupdate, hle, hcall⟩ | ⟨-, -, hend⟩ := s5PafCallback_cases c g.ps p.2 p.1
  · rw [hidx, hcall]
    refine ⟨?_, hle⟩
    rw [BitVec.le_def, BitVec.toNat_add_of_lt (hfits hupdate)]
    exact Nat.le_add_left _ _
  · rw [hidx, hend]
    exact ⟨BitVec.le_of_lt hlt, BitVec.le_refl _⟩

/-- An offset that reaches `2 ^ 32` leads back. -/
theorem eval_wraps {p : U32 × List Byte} (hp : p ∈ (c.eval g).scan)
    (hupdate : (runCallbacks c g.ps p.2).2 = true)
    (hwrap : 2 ^ 32 ≤ (runCallbacks c g.ps p.2).1.fpt.toNat + p.1.toNat) :
    (c.eval g).s5Idx < p.1 := by
  obtain ⟨hlt, heval, -⟩ := eval_scan hp
  have hidx : (c.eval g).s5Idx = (s5PafCallback c g.ps p.2 p.1).2.2 := by rw [heval]; rfl
  have hback : (runCallbacks c g.ps p.2).1.fpt + p.1 < p.1 := by
    have := (runCallbacks c g.ps p.2).1.fpt.isLt
    have := p.1.isLt
    rw [BitVec.lt_def, BitVec.toNat_add]
    omega
  obtain ⟨-, -, hcall⟩ | ⟨hbehind, -, -⟩ := s5PafCallback_cases c g.ps p.2 p.1
  · rw [hidx, hcall]
    exact hback
  · exact absurd (BitVec.lt_trans (BitVec.lt_trans (hbehind hupdate) hback) hlt) (BitVec.lt_irrefl _)

/-- A round keeps the bytes at hand. -/
theorem Placed.next {g' : Frame σ} (h : Placed c f g) (hnext : c.next g = some g')
    (hfits : ∀ p ∈ (c.eval g).scan, (runCallbacks c g.ps p.2).2 = true →
      (runCallbacks c g.ps p.2).1.fpt.toNat + p.1.toNat < 2 ^ 32) : Placed c f g' := by
  obtain ⟨p, hp, hupdate, hle, hidx, hsum, hps, hdata⟩ := next_cases hnext
  have hgrow : g.s5Idx ≤ g'.s5Idx := by
    rw [hidx]
    exact BitVec.le_trans (h.scan hp).1 (eval_grows hp (hfits p hp)).1
  refine ⟨BitVec.le_trans h.first hgrow, hsum ▸ hle, ?_, ?_⟩
  · have hshift : (if g.s5Idx < g'.s5Idx then (g'.s5Idx - g.s5Idx).toNat else 0) =
        (g'.s5Idx - g.s5Idx).toNat := by
      split_ifs with hlt
      · rfl
      · rw [toNat_sub hgrow]
        have := BitVec.lt_def.not.1 hlt
        omega
    rw [hdata, hshift, h.data, drop_drop h.first hgrow]
  · intro _
    rw [hps]
    exact BitVec.le_refl _

/-- Behind a round that is not the last one, `s5_idx` has grown, or only one round is left. -/
theorem next_progress {g' : Frame σ} (hpos : Positive c.s5Cb) (h : Placed c f g)
    (hnext : c.next g = some g')
    (hfits : ∀ p ∈ (c.eval g).scan, (runCallbacks c g.ps p.2).2 = true →
      (runCallbacks c g.ps p.2).1.fpt.toNat + p.1.toNat < 2 ^ 32) :
    c.next g' = none ∨ g.s5Idx < g'.s5Idx := by
  obtain ⟨p, hp, hupdate, hle, -, hsum, hps, -⟩ := next_cases hnext
  obtain ⟨hsearch, hone⟩ := runCallbacks_update hpos g.ps p.2 hupdate
  have hpaf : g'.ps.paf = (runCallbacks c g.ps p.2).1.paf := by rw [hps]
  have hfpt : g'.ps.fpt = g'.s5Idx := by rw [hps]
  rw [← hpaf] at hsearch hone
  cases hstate : g'.ps.paf with
  | search => exact absurd hstate hsearch
  | skip =>
    refine Or.inr ?_
    have hfirst := BitVec.le_def.1 (h.scan hp).1
    have hoff := BitVec.le_def.1 (hone hstate)
    rw [hsum, BitVec.lt_def, BitVec.toNat_add_of_lt (hfits p hp hupdate)]
    have : (1 : U32).toNat = 1 := rfl
    omega
  | flush =>
    have hend : (c.eval g').ft = .paf := by
      unfold Call.eval s5PafEval
      rw [hstate]
      dsimp only
      rw [if_pos (by rw [hfpt, hsum]; exact hle)]
    refine Or.inl ?_
    rw [Call.next]
    exact if_pos (by simp [hend])
  | start | abort =>
    have hend : (c.eval g').ft = .sfp := by
      unfold Call.eval s5PafEval
      rw [hstate]
    refine Or.inl ?_
    rw [Call.next]
    exact if_pos (by simp [hend])

/-! ### The run -/

/-- The condition goes on behind a round. -/
theorem Fits.reached (h : Fits c f) (hstart : Placed c f f) (hreach : c.Reaches f g) :
    Placed c f g := by
  induction hreach with
  | refl => exact hstart
  | tail hreach hnext ih => exact ih.next hnext (h.offsets _ hreach)

/-- What is to be skipped ends in front of the bytes at hand: the callbacks are called there. -/
theorem eval_behind (hlast : f.s5Idx ≤ c.s5Len) (hskip : f.ps.paf = .skip)
    (hlt : f.ps.fpt < f.s5Idx) : (f.ps.fpt, f.data) ∈ (c.eval f).scan := by
  have hzero : delta f.ps f.s5Idx = 0 :=
    if_neg fun h => BitVec.lt_irrefl _ (BitVec.lt_trans h hlt)
  have hend : f.ps.fpt < c.s5Len := by
    have := BitVec.le_def.1 hlast
    have := BitVec.lt_def.1 hlt
    rw [BitVec.lt_def]
    omega
  unfold Call.eval s5PafEval
  rw [hskip]
  dsimp only
  rw [if_pos hend, hzero, if_neg (Nat.not_lt_zero _)]
  rfl

/-- The loop ends from any of its states. -/
theorem Fits.terminates (h : Fits c f) (hpos : Positive c.s5Cb) (hstart : Placed c f f)
    (hreach : c.Reaches f g) : ∃ fuel, (c.loop fuel g).isSome := by
  induction hn : c.s5Len.toNat - g.s5Idx.toNat using Nat.strong_induction_on generalizing g with
  | _ n ih =>
    cases hnext : c.next g with
    | none => exact ⟨1, by rw [Call.loop, hnext]; rfl⟩
    | some g' =>
      have hplaced := h.reached hstart hreach
      obtain hlast | hlt := next_progress hpos hplaced hnext (h.offsets g hreach)
      · refine ⟨2, ?_⟩
        rw [Call.loop, hnext]
        dsimp only
        rw [Call.loop, hlast]
        rfl
      · have hreach' := hreach.tail hnext
        have hend := BitVec.le_def.1 (h.reached hstart hreach').last
        have hgrow := BitVec.lt_def.1 hlt
        obtain ⟨fuel, hfuel⟩ := ih _ (by omega) hreach' rfl
        refine ⟨fuel + 1, ?_⟩
        rw [Call.loop, hnext]
        exact hfuel

/-- **When the loop makes progress**, from a state in which the bytes at hand are the last queued ones:
what is to be skipped at the start is ahead, and no offset wraps around. -/
theorem progress_iff_of_le (hpos : Positive c.s5Cb) (hlast : f.s5Idx ≤ c.s5Len) :
    Progress c f ↔ Fits c f := by
  have hzero : (f.s5Idx - f.s5Idx).toNat = 0 := by simp
  constructor
  · intro h
    refine ⟨fun hskip => ?_, fun g hreach p hp hupdate => ?_⟩
    · by_contra hlt
      exact hlt (h.windows f .refl _ (eval_behind hlast hskip (BitVec.not_le.1 hlt))).1
    · by_contra hwrap
      have hback := eval_wraps hp hupdate (not_lt.1 hwrap)
      have hforth := (h.windows g hreach p hp).2.1
      exact BitVec.not_le.2 hback hforth
  · intro h
    have hstart : Placed c f f := ⟨BitVec.le_refl _, hlast, by rw [hzero, List.drop_zero], h.start⟩
    refine ⟨h.terminates hpos hstart .refl, fun g hreach => ?_, fun g hreach p hp => ?_⟩
    · have hplaced := h.reached hstart hreach
      cases hscan : (c.eval g).scan with
      | none =>
        rw [(eval_still hscan).1]
        exact ⟨BitVec.le_refl _, hplaced.last⟩
      | some p =>
        have hgrow := eval_grows hscan (h.offsets g hreach p hscan)
        exact ⟨BitVec.le_trans (hplaced.scan hscan).1 hgrow.1, hgrow.2⟩
    · have hplaced := h.reached hstart hreach
      have hscan := hplaced.scan hp
      exact ⟨hscan.1, (eval_grows hp (h.offsets g hreach p hp)).1,
        BitVec.le_trans hplaced.first hscan.1, hscan.2⟩

/-- The loop starts with the last queued bytes. -/
theorem startFrame_le (ps : PafState σ) {data : List Byte} {total : U32}
    (hlen : data.length ≤ total.toNat) : (startFrame ps data total).s5Idx ≤ total := by
  have := total.isLt
  have hofNat : (BitVec.ofNat 32 data.length).toNat = data.length := by
    rw [BitVec.toNat_ofNat]
    omega
  have hle : BitVec.ofNat 32 data.length ≤ total := by rwa [BitVec.le_def, hofNat]
  rw [startFrame, BitVec.le_def, BitVec.toNat_sub_of_le hle]
  exact Nat.sub_le _ _

theorem start_le {ps : PafState σ} {data : List Byte} {total : U32} {seq : Seq}
    (hlen : data.length ≤ total.toNat) (h : f ∈ s5PafCheckStart ps data total seq) :
    f.s5Idx ≤ total := by
  have hdrop : (data.drop (ps.seq - seq).toNat).length ≤ total.toNat := by
    rw [List.length_drop]
    exact (Nat.sub_le _ _).trans hlen
  unfold s5PafCheckStart at h
  dsimp only at h
  split_ifs at h
  · exact Option.some.inj h ▸ startFrame_le _ hlen
  · cases h
  · cases h
  · exact Option.some.inj h ▸ startFrame_le _ hdrop
  · exact Option.some.inj h ▸ startFrame_le _ hlen

/-- **When the loop of `s5_paf_check` makes progress**, on a segment at the end of the queued bytes: what
is to be skipped at the start is ahead, and no offset wraps around. -/
theorem progress_iff (c : Call σ) (hpos : Positive c.s5Cb) (ps : PafState σ) {data : List Byte}
    (hlen : data.length ≤ c.s5Len.toNat) (seq : Seq) :
    (∀ f ∈ s5PafCheckStart ps data c.s5Len seq, Progress c f) ↔
      ∀ f ∈ s5PafCheckStart ps data c.s5Len seq, Fits c f :=
  forall₂_congr fun _ hf => progress_iff_of_le hpos (start_le hlen hf)

/-- Callbacks that select the end of the first byte. -/
def firstByte : Callback Unit := fun _ _ _ _ => (.flush, (), 1)

/-- A segment of one byte, which is to be flushed. -/
theorem progress_iff_firstByte :
    Progress ⟨⟨16384⟩, fun _ => firstByte, 0x40, 0, 1⟩ ⟨⟨(), 8, 7, 0, .search, 1⟩, [0x61], 0⟩ := by
  refine (progress_iff ⟨⟨16384⟩, fun _ => firstByte, 0x40, 0, 1⟩ (fun _ _ _ _ _ _ => BitVec.le_refl 1)
    ⟨(), 0, 0, 0, .start, 1⟩ (by decide : [(0x61 : Byte)].length ≤ 1) 7).2 ?_ _ rfl
  intro f hf
  obtain rfl : (⟨⟨(), 8, 7, 0, .search, 1⟩, [0x61], 0⟩ : Frame Unit) = f := by
    simpa [s5PafCheckStart, startFrame] using hf
  refine ⟨by simp, fun g hreach => ?_⟩
  obtain rfl | ⟨g', hnext, hreach'⟩ := hreach.cases_head
  · decide +kernel
  · obtain rfl : (⟨⟨(), 8, 7, 1, .flush, 1⟩, [], 1⟩ : Frame Unit) = g' :=
      Option.some.inj ((by decide +kernel : some _ = _).trans hnext)
    obtain rfl | ⟨_, hnext', -⟩ := hreach'.cases_head
    · decide +kernel
    · exact absurd (hnext'.symm.trans (by decide +kernel : _ = none)) (Option.some_ne_none _)

/-- Callbacks that skip one byte, and then go one byte back. -/
def backAndForth : Callback Bool := fun _ back _ _ => (.skip, !back, if back then 0xFFFFFFFF else 1)

/-- The loop with these callbacks. -/
def backAndForthCall : Call Bool := ⟨⟨16384⟩, fun _ => backAndForth, 0x40, 0, 2⟩

/-- A loop that has not ended has not ended a round later. -/
theorem loop_of_next (hnext : c.next f = some g) (h : ∀ fuel, c.loop fuel g = none) (fuel : ℕ) :
    c.loop fuel f = none := by
  cases fuel with
  | zero => rfl
  | succ fuel =>
    rw [Call.loop, hnext]
    exact h fuel

/-- Its states when `s5_idx` has come back once. -/
theorem backAndForth_loop (fuel : ℕ) :
    backAndForthCall.loop fuel ⟨⟨true, 9, 7, 1, .skip, 1⟩, [], 1⟩ = none ∧
      backAndForthCall.loop fuel ⟨⟨false, 9, 7, 0, .skip, 1⟩, [], 0⟩ = none := by
  induction fuel with
  | zero => exact ⟨rfl, rfl⟩
  | succ fuel ih =>
    have hback : backAndForthCall.next ⟨⟨true, 9, 7, 1, .skip, 1⟩, [], 1⟩ =
        some ⟨⟨false, 9, 7, 0, .skip, 1⟩, [], 0⟩ := by decide +kernel
    have hforth : backAndForthCall.next ⟨⟨false, 9, 7, 0, .skip, 1⟩, [], 0⟩ =
        some ⟨⟨true, 9, 7, 1, .skip, 1⟩, [], 1⟩ := by decide +kernel
    constructor
    · rw [Call.loop, hback]
      exact ih.2
    · rw [Call.loop, hforth]
      exact ih.1

/-- With them the loop does not end on a segment of two bytes. -/
theorem backAndForth_endless : Positive backAndForthCall.s5Cb ∧
    ¬∀ f ∈ s5PafCheckStart ⟨false, 0, 0, 0, .start, 1⟩ [0x61, 0x62] backAndForthCall.s5Len 7,
      Progress backAndForthCall f := by
  constructor
  · intro _ _ back _ _ _
    cases back with
    | false => exact (by decide : (1 : U32) ≤ 1)
    | true => exact (by decide : (1 : U32) ≤ 0xFFFFFFFF)
  · intro h
    obtain ⟨fuel, hfuel⟩ := (h ⟨⟨false, 9, 7, 0, .search, 1⟩, [0x61, 0x62], 0⟩ (by decide)).terminates
    have hfirst : backAndForthCall.next ⟨⟨false, 9, 7, 0, .search, 1⟩, [0x61, 0x62], 0⟩ =
        some ⟨⟨true, 9, 7, 1, .skip, 1⟩, [0x62], 1⟩ := by decide +kernel
    have hsecond : backAndForthCall.next ⟨⟨true, 9, 7, 1, .skip, 1⟩, [0x62], 1⟩ =
        some ⟨⟨false, 9, 7, 0, .skip, 1⟩, [0x62], 0⟩ := by decide +kernel
    have hthird : backAndForthCall.next ⟨⟨false, 9, 7, 0, .skip, 1⟩, [0x62], 0⟩ =
        some ⟨⟨true, 9, 7, 1, .skip, 1⟩, [], 1⟩ := by decide +kernel
    have hnone := loop_of_next hfirst (loop_of_next hsecond (loop_of_next hthird fun fuel =>
      (backAndForth_loop fuel).1)) fuel
    rw [hnone] at hfuel
    cases hfuel

end Snort.Stream5.PafProgress
