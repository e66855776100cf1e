import Snort.Lib.Framer
import Snort.Stream5.PafModel

/-!
# One call of `s5_paf_check`

* `verdict`: the callback as a framer; `LawfulCallback`: it scans from left to right.
* `At`, `Ready`: what the state of PAF says about the mode of the framer.
* **`s5PafCheck_spec`**: a call does to the mode what the framer does on the bytes of the segment.
-/

namespace Snort.Stream5

open Scanner Framer
open HiPaf (PafStatus Byte)

variable {σ : Type}

/-- The verdict of a callback. -/
def verdict (cb : PafCallback σ) (flags : U32) (s : σ) (x : List Byte) : Verdict σ :=
  match cb flags s x with
  | (.search, s', _) => .search s'
  | (.flush, s', some fp) => .flush s' fp.toNat
  | (.skip, s', some fp) => .skip s' fp.toNat
  | _ => .abort

/-- A callback that scans segments from left to right: its verdict on two parts is that on the first
one, or else that of going on with the second; it selects points at offsets of at least 1, and it
answers `PAF_SEARCH`, `PAF_FLUSH`, `PAF_SKIP` or `PAF_ABORT`. -/
structure LawfulCallback (cb : PafCallback σ) (flags : U32) (bound : ℕ) : Prop
    extends Lawful (verdict cb flags) bound where
  answers : ∀ s x, x ≠ [] → x.length < bound → verdict cb flags s x = .abort →
    (cb flags s x).1 = .abort

/-- The framer of a callback, byte by byte. -/
abbrev frame (cb : PafCallback σ) (flags : U32) : σ → Byte → Verdict σ := single (verdict cb flags)

/-- What the callback answers, by its verdict. -/
theorem verdict_cases {cb : PafCallback σ} {flags : U32} {bound : ℕ}
    (h : LawfulCallback cb flags bound) (s : σ) {x : List Byte} (hx : x ≠ []) (hlen : x.length < bound) :
    (∃ s' fp, cb flags s x = (.search, s', fp) ∧ verdict cb flags s x = .search s') ∨
    (∃ s' fp, cb flags s x = (.skip, s', some fp) ∧ verdict cb flags s x = .skip s' fp.toNat ∧
      1 ≤ fp.toNat) ∨
    (∃ s' fp, cb flags s x = (.flush, s', some fp) ∧ verdict cb flags s x = .flush s' fp.toNat ∧
      1 ≤ fp.toNat) ∨
    (∃ s' fp, cb flags s x = (.abort, s', fp) ∧ verdict cb flags s x = .abort) := by
  have hpos := h.pos s x hx hlen
  have hanswers := h.answers s x hx hlen
  unfold verdict at hpos hanswers ⊢
  rcases hcb : cb flags s x with ⟨paf, s', fp⟩
  rw [hcb] at hpos hanswers
  cases paf with
  | search => exact Or.inl ⟨s', fp, rfl, rfl⟩
  | skip =>
    cases fp with
    | none => cases hanswers rfl
    | some fp => exact Or.inr (Or.inl ⟨s', fp, rfl, rfl, hpos⟩)
  | flush =>
    cases fp with
    | none => cases hanswers rfl
    | some fp => exact Or.inr (Or.inr (Or.inl ⟨s', fp, rfl, rfl, hpos⟩))
  | abort => exact Or.inr (Or.inr (Or.inr ⟨s', fp, rfl, rfl⟩))
  | start => cases hanswers rfl

/-! ### States and modes -/

/-- The state of PAF behind `n` queued bytes, for a mode. -/
def At (n : ℕ) (ps : PafState σ) : Mode σ → Prop
  | .search s => ps.paf = .search ∧ ps.user = s
  | .skip s k => ps.paf = .skip ∧ ps.user = s ∧ ps.fpt.toNat = n + k
  | .flush s k => ps.paf = .flush ∧ ps.user = s ∧ ps.fpt.toNat = n + k ∧ 1 ≤ k
  | .done => ps.paf = .abort

theorem At.ne_start {n : ℕ} {ps : PafState σ} {m : Mode σ} (h : At n ps m) : ps.paf ≠ .start := by
  cases m with
  | done => rw [show ps.paf = .abort from h]; decide
  | search s => rw [h.1]; decide
  | skip s k => rw [h.1]; decide
  | flush s k => rw [h.1]; decide

/-- Nothing of the current data unit has been flushed, and the callback is in use as long as PAF is. -/
structure Whole (ps : PafState σ) : Prop where
  tot : ps.tot = 0
  mask : ps.paf ≠ .abort → ps.cbMask = true

/-- The flags of a data unit that is flushed whole. -/
def pduFlags (flags : U32) : U32 :=
  flags &&& ~~~(pktPduHead ||| pktPduTail) ||| pktPduTail ||| pktPduHead

/-- What a call leaves that has seen `len` bytes behind `n` others, by the outcome of the framer. -/
def Result (flags : U32) (n len : ℕ) (ps : PafState σ) (r : U32 × PafState σ × U32) :
    Outcome (Mode σ) (Mode σ) → Prop
  | .more m => r.1 = 0 ∧ (r.2.2 = 0 ∧ m = .done ∨
      r.2.2 = flags ∧ At (n + len) r.2.1 m ∧ Whole r.2.1 ∧ r.2.1.pos = ps.pos ∧ r.2.1.seq = ps.seq)
  | .stop m k => r.1 = BitVec.ofNat 32 (n + k) ∧ r.2.2 = pduFlags flags ∧ At 0 r.2.1 m ∧ Whole r.2.1 ∧
      r.2.1.pos = ps.pos + r.1 ∧ r.2.1.seq = r.2.1.pos

theorem Result.shift {flags : U32} {n k len : ℕ} {ps : PafState σ} {r : U32 × PafState σ × U32}
    {o : Outcome (Mode σ) (Mode σ)} (h : Result flags (n + k) len ps r o) :
    Result flags n (k + len) ps r (o.shift k) := by
  cases o with
  | more m =>
    obtain ⟨hfp, h⟩ := h
    rw [Nat.add_assoc] at h
    exact ⟨hfp, h⟩
  | stop m j =>
    obtain ⟨hfp, h⟩ := h
    refine ⟨hfp.trans ?_, h⟩
    rw [Nat.add_assoc, Nat.add_comm k]

/-! ### One round of the loop -/

section Round

variable {cfg : PafConfig} {cb : PafCallback σ} {flags fuzz s5Len s5Idx : U32} {ps : PafState σ}
  {data : List Byte}

theorem s5PafCallback_search (hmask : ps.cbMask = true) {s : σ} {fp : Option U32}
    (hcb : cb flags ps.user data = (.search, s, fp)) :
    s5PafCallback cb ps data flags s5Len s5Idx =
      (false, { ps with user := s, fpt := fp.getD ps.fpt, paf := .search }, s5Len) := by
  have hrun : runCallback cb ps data flags =
      ({ ps with user := s, fpt := fp.getD ps.fpt, paf := .search }, false) := by
    rw [runCallback, if_pos hmask, hcb]
    rfl
  rw [s5PafCallback, hrun]
  rfl

theorem s5PafCallback_point (hmask : ps.cbMask = true) {paf : PafStatus} (hsearch : paf ≠ .search)
    (habort : paf ≠ .abort) {s : σ} {fp : U32} (hcb : cb flags ps.user data = (paf, s, some fp)) :
    s5PafCallback cb ps data flags s5Len s5Idx =
      if fp + s5Idx ≤ s5Len then
        (true, { ps with user := s, fpt := fp + s5Idx, paf := paf }, fp + s5Idx)
      else (false, { ps with user := s, fpt := fp + s5Idx, paf := paf }, s5Len) := by
  have hrun : runCallback cb ps data flags = ({ ps with user := s, fpt := fp, paf := paf }, true) := by
    rw [runCallback, if_pos hmask, hcb]
    dsimp only
    rw [if_neg habort, decide_eq_true hsearch]
    rfl
  rw [s5PafCallback, hrun]
  rfl

theorem s5PafCallback_abort (hmask : ps.cbMask = true) {s : σ} {fp : Option U32}
    (hcb : cb flags ps.user data = (.abort, s, fp)) :
    ∃ cont idx fpt, s5PafCallback cb ps data flags s5Len s5Idx =
      (cont, { ps with user := s, fpt := fpt, paf := .abort, cbMask := false }, idx) := by
  have hrun : runCallback cb ps data flags =
      ({ ps with user := s, fpt := fp.getD ps.fpt, paf := .abort, cbMask := false }, true) := by
    rw [runCallback, if_pos hmask, hcb]
    rfl
  rw [s5PafCallback, hrun]
  by_cases hle : fp.getD ps.fpt + s5Idx ≤ s5Len
  · exact ⟨_, _, _, if_pos hle⟩
  · exact ⟨_, _, _, if_neg hle⟩

/-- The rounds that run the callback at the start of the bytes. -/
theorem s5PafEval_callback (hpaf : ps.paf = .search ∨ ps.paf = .skip ∧ ps.fpt = s5Idx)
    (hidx : s5Idx < s5Len) :
    s5PafEval cfg cb ps flags fuzz data s5Len s5Idx =
      ((s5PafCallback cb ps data flags s5Len s5Idx).1, (s5PafCallback cb ps data flags s5Len s5Idx).2.1,
        (s5PafCallback cb ps data flags s5Len s5Idx).2.2, .nop) := by
  rcases hpaf with hpaf | ⟨hpaf, hfpt⟩
  · rw [s5PafEval, hpaf]
    exact if_pos hidx
  · rw [s5PafEval, hpaf, hfpt]
    show (if s5Idx < s5Len then (if data.length < (if s5Idx < s5Idx then _ else 0) then _ else _)
      else _) = _
    rw [if_pos hidx, if_neg (BitVec.lt_irrefl s5Idx), if_neg (Nat.not_lt_zero _)]
    rfl

theorem checkLoop_break {fuel : ℕ} {ps' : PafState σ} {idx : U32}
    (heval : s5PafEval cfg cb ps flags fuzz data s5Len s5Idx = (false, ps', idx, .nop))
    (hmax : ¬ cfg.mfp + fuzz < s5Len) :
    checkLoop cfg cb flags fuzz s5Len (fuel + 1) ps data s5Idx = some (0, ps', flags) := by
  rw [checkLoop, heval]
  show (if ps'.paf ≠ .flush ∧ cfg.mfp + fuzz < s5Len then _ else _) = _
  exact if_neg fun h => hmax h.2

theorem checkLoop_continue {fuel : ℕ} {ps' : PafState σ} {idx : U32}
    (heval : s5PafEval cfg cb ps flags fuzz data s5Len s5Idx = (true, ps', idx, .nop)) :
    checkLoop cfg cb flags fuzz s5Len (fuel + 1) ps data s5Idx =
      checkLoop cfg cb flags fuzz s5Len fuel ps'
        (data.drop (if s5Idx < idx then (idx - s5Idx).toNat else 0)) idx := by
  rw [checkLoop, heval]
  rfl

theorem checkLoop_flush {fuel : ℕ} {cont : Bool} {ps' : PafState σ} {idx : U32} {ft : FlushType}
    (heval : s5PafEval cfg cb ps flags fuzz data s5Len s5Idx = (cont, ps', idx, ft))
    (hft : ft ≠ .nop) :
    checkLoop cfg cb flags fuzz s5Len (fuel + 1) ps data s5Idx =
      some (flushed (s5PafFlush ps' ft flags s5Len)) := by
  rw [checkLoop, heval]
  exact if_pos hft

/-- A data unit that ends in the bytes at hand. -/
theorem flushed_paf (hwhole : Whole ps) (hpos : ps.fpt ≠ 0) (hlen : s5Len ≠ 0)
    (hle : ps.fpt.toNat < 2 ^ 31) :
    flushed (s5PafFlush ps .paf flags s5Len) =
      (ps.fpt, { ps with pos := ps.pos + ps.fpt, seq := ps.pos + ps.fpt }, pduFlags flags) := by
  have hat : ¬ (0x7FFFFFFF : U32) < ps.fpt := by
    rw [BitVec.lt_def]
    show ¬ 2147483647 < _
    omega
  have htail : (pduFlags flags &&& pktPduTail) ≠ 0 := fun h => by
    have hbit := congrArg (BitVec.getLsbD · 9) h
    simp [pduFlags, pktPduTail, pktPduHead] at hbit
  have hflush : s5PafFlush ps .paf flags s5Len = (ps.fpt, ps, pduFlags flags) := by
    show flushAt ps ps.fpt _ s5Len = _
    unfold flushAt
    rw [if_neg (not_or.2 ⟨hpos, hlen⟩)]
    dsimp only
    rw [if_neg hat, if_pos hwhole.tot]
    show (ps.fpt, { ps with tot := if pduFlags flags &&& pktPduTail ≠ 0 then 0 else _ },
      pduFlags flags) = _
    rw [if_pos htail, ← hwhole.tot]
  rw [hflush]
  rfl

end Round

/-! ### The loop -/

/-- The limits of a call: less is queued than the bound, which `mfp + fuzz` and half the sequence space
allow. -/
structure Limits (cfg : PafConfig) (fuzz : U32) (bound : ℕ) : Prop where
  window : bound ≤ 2 ^ 31
  max : bound ≤ (cfg.mfp + fuzz).toNat

section Loop

variable {cfg : PafConfig} {cb : PafCallback σ} {flags fuzz : U32} {bound : ℕ}

theorem toNat_ofNat {n : ℕ} (h : n < 2 ^ 32) : (BitVec.ofNat 32 n).toNat = n := by
  rw [BitVec.toNat_ofNat, Nat.mod_eq_of_lt h]

theorem Limits.not_max (hlim : Limits cfg fuzz bound) {n : ℕ} (hn : n < bound) :
    ¬ cfg.mfp + fuzz < BitVec.ofNat 32 n := by
  have hwindow := hlim.window
  have hmax := hlim.max
  rw [BitVec.lt_def, toNat_ofNat (by omega)]
  omega

/-- A point that a verdict selects, in the base of the queue. -/
theorem fpt_eq {fp : U32} {n : ℕ} (hfit : n + fp.toNat < 2 ^ 32) :
    (fp + BitVec.ofNat 32 n).toNat = n + fp.toNat := by
  rw [BitVec.toNat_add, toNat_ofNat (by omega)]
  omega

theorem checkLoop_pending_flush (hlim : Limits cfg fuzz bound) {ps : PafState σ} (hwhole : Whole ps)
    {s : σ} {n k len fuel : ℕ} {data : List Byte} {idx : U32} (hat : At n ps (.flush s k))
    (hk : k ≤ len) (hn : n + len < bound) :
    ∃ r, checkLoop cfg cb flags fuzz (BitVec.ofNat 32 (n + len)) (fuel + 1) ps data idx = some r ∧
      Result flags n len ps r (.stop (.search s) k) := by
  obtain ⟨hpaf, huser, hfpt, hk'⟩ := hat
  have hwindow := hlim.window
  have hL := toNat_ofNat (n := n + len) (by omega)
  have heval : s5PafEval cfg cb ps flags fuzz data (BitVec.ofNat 32 (n + len)) idx =
      (true, { ps with paf := .search }, idx, .paf) := by
    rw [s5PafEval, hpaf]
    exact if_pos (by rw [BitVec.le_def]; omega)
  have hfpt0 : ps.fpt ≠ 0 := fun h => by
    have : ps.fpt.toNat = 0 := congrArg BitVec.toNat h
    omega
  have hL0 : BitVec.ofNat 32 (n + len) ≠ 0 := fun h => by
    have : (BitVec.ofNat 32 (n + len)).toNat = 0 := congrArg BitVec.toNat h
    omega
  have hwhole' : Whole { ps with paf := PafStatus.search } :=
    ⟨hwhole.tot, fun _ => hwhole.mask (by rw [hpaf]; decide)⟩
  have hflush : flushed (s5PafFlush { ps with paf := .search } .paf flags
      (BitVec.ofNat 32 (n + len))) = _ := flushed_paf hwhole' hfpt0 hL0 (by show ps.fpt.toNat < _; omega)
  refine ⟨_, (checkLoop_flush heval (by decide)).trans (congrArg some hflush), ?_⟩
  refine ⟨?_, rfl, ⟨rfl, huser⟩, ⟨hwhole'.tot, hwhole'.mask⟩, rfl, rfl⟩
  show ps.fpt = _
  exact BitVec.eq_of_toNat_eq (by rw [hfpt, toNat_ofNat (by omega)])

/-- The loop from a round on that runs the callback on the end of the bytes. -/
theorem checkLoop_callback (h : LawfulCallback cb flags bound) (hlim : Limits cfg fuzz bound) :
    ∀ (len : ℕ) {x data : List Byte} {i n fuel : ℕ} {ps : PafState σ}, x.length = len → x ≠ [] →
      n + x.length < bound → x.length + 2 ≤ fuel → Whole ps → ps.cbMask = true →
      i ≤ n → data.drop (n - i) = x →
      s5PafEval cfg cb ps flags fuzz data (BitVec.ofNat 32 (n + x.length)) (BitVec.ofNat 32 i) =
        ((s5PafCallback cb ps x flags (BitVec.ofNat 32 (n + x.length)) (BitVec.ofNat 32 n)).1,
          (s5PafCallback cb ps x flags (BitVec.ofNat 32 (n + x.length)) (BitVec.ofNat 32 n)).2.1,
          (s5PafCallback cb ps x flags (BitVec.ofNat 32 (n + x.length)) (BitVec.ofNat 32 n)).2.2,
          .nop) →
      Fits (frame cb flags) (2 ^ 32) (.search ps.user) n x →
      ∃ r, checkLoop cfg cb flags fuzz (BitVec.ofNat 32 (n + x.length)) fuel ps data
          (BitVec.ofNat 32 i) = some r ∧
        Result flags n x.length ps r (run (step (frame cb flags)) (.search ps.user) x) := by
  intro len
  induction len using Nat.strong_induction_on with
  | _ len ih =>
    intro x data i n fuel ps hlen hx hn hfuel hwhole hmask hi hdata heval hfits
    obtain ⟨fuel, rfl⟩ := Nat.exists_eq_add_of_le' (show 1 ≤ fuel by omega)
    have hpos := List.length_pos_iff.2 hx
    have hwindow := hlim.window
    have hmax := hlim.not_max hn
    have hL := toNat_ofNat (n := n + x.length) (by omega)
    have hI := toNat_ofNat (n := i) (by omega)
    obtain ⟨hrunSearch, hrunSelect⟩ := run_of_verdict h.toLawful (x := x) ps.user hx (by omega)
    have hfit := fits_of_verdict h.toLawful (x := x) ps.user n hx (by omega) hfits
    rcases verdict_cases h ps.user hx (by omega) with
      ⟨s', fp, hcb, hv⟩ | ⟨s', fp, hcb, hv, hfp⟩ | ⟨s', fp, hcb, hv, hfp⟩ | ⟨s', fp, hcb, hv⟩
    · rw [s5PafCallback_search hmask hcb] at heval
      refine ⟨_, checkLoop_break heval hmax, ?_⟩
      rw [hrunSearch s' hv]
      exact ⟨rfl, Or.inr ⟨rfl, ⟨rfl, rfl⟩, ⟨hwhole.tot, fun _ => hmask⟩, rfl, rfl⟩⟩
    · have hne : ∀ t, verdict cb flags ps.user x ≠ .search t := fun t ht => by rw [hv] at ht; cases ht
      obtain ⟨hreach, hfits'⟩ := hfit hne
      rw [hv] at hreach hfits'
      have hreach : n + fp.toNat < 2 ^ 32 := hreach
      have hfpt := fpt_eq hreach
      rw [s5PafCallback_point hmask (by decide) (by decide) hcb] at heval
      rw [hrunSelect hne, hv]
      show ∃ r, _ ∧ Result flags n x.length ps r (run (step (frame cb flags)) (.skip s' fp.toNat) x)
      by_cases hle : fp.toNat ≤ x.length
      · have hcont : fp + BitVec.ofNat 32 n ≤ BitVec.ofNat 32 (n + x.length) := by
          rw [BitVec.le_def, hfpt, hL]
          omega
        rw [if_pos hcont] at heval
        have hshift : data.drop (if BitVec.ofNat 32 i < fp + BitVec.ofNat 32 n then
            (fp + BitVec.ofNat 32 n - BitVec.ofNat 32 i).toNat else 0) = x.drop fp.toNat := by
          have hsub : (fp + BitVec.ofNat 32 n - BitVec.ofNat 32 i).toNat = n - i + fp.toNat := by
            rw [BitVec.toNat_sub_of_le (by rw [BitVec.le_def]; omega)]
            omega
          rw [if_pos (by rw [BitVec.lt_def]; omega), hsub, ← hdata, List.drop_drop]
        obtain ⟨fuel, rfl⟩ := Nat.exists_eq_add_of_le' (show 1 ≤ fuel by omega)
        rw [checkLoop_continue heval, hshift]
        have hidx' : fp + BitVec.ofNat 32 n = BitVec.ofNat 32 (n + fp.toNat) :=
          BitVec.eq_of_toNat_eq (by rw [hfpt, toNat_ofNat hreach])
        have hwhole' : Whole { ps with user := s', fpt := fp + BitVec.ofNat 32 n, paf := .skip } :=
          ⟨hwhole.tot, fun _ => hmask⟩
        have hskip := run_skip (v := frame cb flags) s' 0 (x.take fp.toNat)
        rw [List.length_take_of_le hle, Nat.zero_add] at hskip
        rcases Nat.lt_or_eq_of_le hle with hlt | heq
        · have hlen' : (x.drop fp.toNat).length = x.length - fp.toNat := List.length_drop
          have hy : x.drop fp.toNat ≠ [] := List.ne_nil_of_length_pos (by omega)
          rw [← List.take_append_drop fp.toNat x] at hfits'
          have hfits'' := hfits'.of_more hskip
          rw [List.length_take_of_le hle] at hfits''
          have hsum : n + fp.toNat + (x.drop fp.toNat).length = n + x.length := by omega
          have hidx'' : BitVec.ofNat 32 (n + fp.toNat) < BitVec.ofNat 32 (n + x.length) := by
            rw [BitVec.lt_def, hL, toNat_ofNat hreach]
            omega
          have hfuel' : (x.drop fp.toNat).length + 2 ≤ fuel + 1 := by omega
          obtain ⟨r, hr, hresult⟩ := ih (x.length - fp.toNat) (by omega) (n := n + fp.toNat) hlen' hy
            (by omega) hfuel' hwhole' hmask le_rfl (by rw [Nat.sub_self]; rfl)
            (hsum ▸ s5PafEval_callback (Or.inr ⟨rfl, hidx'⟩) hidx'') ((fits_skip_zero hy).1 hfits'')
          rw [hsum, ← hidx'] at hr
          refine ⟨r, hr, ?_⟩
          have hrun : run (step (frame cb flags)) (.skip s' fp.toNat) x =
              (run (step (frame cb flags)) (.search s') (x.drop fp.toNat)).shift fp.toNat := by
            rw [← List.take_append_drop fp.toNat x, run_append_more _ hskip, run_skip_zero s' hy,
              List.length_take_of_le hle, List.take_append_drop]
          have hshifted := hresult.shift
          rw [hlen', Nat.add_sub_cancel' hle] at hshifted
          rw [hrun]
          exact hshifted
        · rw [List.take_of_length_le (by omega)] at hskip
          rw [hskip]
          have hend : s5PafEval cfg cb { ps with user := s', fpt := fp + BitVec.ofNat 32 n, paf := .skip }
              flags fuzz (x.drop fp.toNat) (BitVec.ofNat 32 (n + x.length)) (fp + BitVec.ofNat 32 n) =
              (false, { ps with user := s', fpt := fp + BitVec.ofNat 32 n, paf := .skip },
                fp + BitVec.ofNat 32 n, .nop) := by
            show (if fp + BitVec.ofNat 32 n < _ then _ else _) = _
            exact if_neg (by rw [BitVec.lt_def]; omega)
          refine ⟨_, checkLoop_break hend hmax, rfl, Or.inr ⟨rfl, ⟨rfl, rfl, ?_⟩, hwhole', rfl, rfl⟩⟩
          show (fp + BitVec.ofNat 32 n).toNat = _
          omega
      · have hbreak : ¬ fp + BitVec.ofNat 32 n ≤ BitVec.ofNat 32 (n + x.length) := by
          rw [BitVec.le_def, hfpt, hL]
          omega
        rw [if_neg hbreak] at heval
        refine ⟨_, checkLoop_break heval hmax, ?_⟩
        have hskip := run_skip (v := frame cb flags) s' (fp.toNat - x.length) x
        rw [Nat.sub_add_cancel (by omega)] at hskip
        rw [hskip]
        refine ⟨rfl, Or.inr ⟨rfl, ⟨rfl, rfl, ?_⟩, ⟨hwhole.tot, fun _ => hmask⟩, rfl, rfl⟩⟩
        show (fp + BitVec.ofNat 32 n).toNat = _
        omega
    · have hne : ∀ t, verdict cb flags ps.user x ≠ .search t := fun t ht => by rw [hv] at ht; cases ht
      obtain ⟨hreach, -⟩ := hfit hne
      rw [hv] at hreach
      have hfpt := fpt_eq hreach
      rw [s5PafCallback_point hmask (by decide) (by decide) hcb] at heval
      rw [hrunSelect hne, hv]
      show ∃ r, _ ∧ Result flags n x.length ps r (run (step (frame cb flags)) (.flush s' fp.toNat) x)
      by_cases hle : fp.toNat ≤ x.length
      · have hcont : fp + BitVec.ofNat 32 n ≤ BitVec.ofNat 32 (n + x.length) := by
          rw [BitVec.le_def, hfpt, hL]
          omega
        rw [if_pos hcont] at heval
        rw [checkLoop_continue heval, run_flush_stop s' hfp hle]
        obtain ⟨fuel, rfl⟩ := Nat.exists_eq_add_of_le' (show 1 ≤ fuel by omega)
        have hat : At n { ps with user := s', fpt := fp + BitVec.ofNat 32 n, paf := .flush }
            (.flush s' fp.toNat) := ⟨rfl, rfl, hfpt, hfp⟩
        have hwhole' : Whole { ps with user := s', fpt := fp + BitVec.ofNat 32 n, paf := .flush } :=
          ⟨hwhole.tot, fun _ => hmask⟩
        exact checkLoop_pending_flush hlim hwhole' hat hle hn
      · have hbreak : ¬ fp + BitVec.ofNat 32 n ≤ BitVec.ofNat 32 (n + x.length) := by
          rw [BitVec.le_def, hfpt, hL]
          omega
        rw [if_neg hbreak] at heval
        refine ⟨_, checkLoop_break heval hmax, ?_⟩
        obtain ⟨k, hk⟩ := Nat.exists_eq_add_of_le (show x.length + 1 ≤ fp.toNat by omega)
        have hflush := run_flush (v := frame cb flags) s' k x
        rw [show k + 1 + x.length = fp.toNat by omega] at hflush
        rw [hflush]
        refine ⟨rfl, Or.inr ⟨rfl, ⟨rfl, rfl, ?_, by omega⟩, ⟨hwhole.tot, fun _ => hmask⟩, rfl, rfl⟩⟩
        show (fp + BitVec.ofNat 32 n).toNat = _
        omega
    · have hne : ∀ t, verdict cb flags ps.user x ≠ .search t := fun t ht => by rw [hv] at ht; cases ht
      obtain ⟨cont, idx, fpt, hcallback⟩ : ∃ cont idx fpt, s5PafCallback cb ps x flags
          (BitVec.ofNat 32 (n + x.length)) (BitVec.ofNat 32 n) = (cont, _, idx) :=
        s5PafCallback_abort hmask hcb
      rw [hcallback] at heval
      rw [hrunSelect hne, hv]
      show ∃ r, _ ∧ Result flags n x.length ps r (run (step (frame cb flags)) .done x)
      rw [run_done]
      cases cont with
      | false =>
        refine ⟨_, checkLoop_break heval hmax, rfl, Or.inr ⟨rfl, rfl, ⟨hwhole.tot, ?_⟩, rfl, rfl⟩⟩
        exact fun h => absurd rfl h
      | true =>
        rw [checkLoop_continue heval]
        obtain ⟨fuel, rfl⟩ := Nat.exists_eq_add_of_le' (show 1 ≤ fuel by omega)
        exact ⟨_, checkLoop_flush rfl (by decide), rfl, Or.inl ⟨rfl, rfl⟩⟩

/-- The loop on the bytes of a segment. -/
theorem checkLoop_spec (h : LawfulCallback cb flags bound) (hlim : Limits cfg fuzz bound)
    {x : List Byte} {n fuel : ℕ} {ps : PafState σ} {m : Mode σ} (hx : x ≠ [])
    (hn : n + x.length < bound) (hfuel : x.length + 2 ≤ fuel) (hwhole : Whole ps) (hat : At n ps m)
    (hfits : Fits (frame cb flags) (2 ^ 32) m n x) :
    ∃ r, checkLoop cfg cb flags fuzz (BitVec.ofNat 32 (n + x.length)) fuel ps x
        (BitVec.ofNat 32 n) = some r ∧
      Result flags n x.length ps r (run (step (frame cb flags)) m x) := by
  have hpos := List.length_pos_iff.2 hx
  have hwindow := hlim.window
  have hL := toNat_ofNat (n := n + x.length) (by omega)
  have hI := toNat_ofNat (n := n) (by omega)
  have hidx : BitVec.ofNat 32 n < BitVec.ofNat 32 (n + x.length) := by
    rw [BitVec.lt_def]
    omega
  have hnow : ∀ s, (ps.paf = .search ∨ ps.paf = .skip ∧ ps.fpt = BitVec.ofNat 32 n) → ps.user = s →
      Fits (frame cb flags) (2 ^ 32) (.search s) n x →
      ∃ r, checkLoop cfg cb flags fuzz (BitVec.ofNat 32 (n + x.length)) fuel ps x
          (BitVec.ofNat 32 n) = some r ∧
        Result flags n x.length ps r (run (step (frame cb flags)) (.search s) x) := by
    rintro s hpaf rfl hfits
    exact checkLoop_callback h hlim x.length rfl hx hn hfuel hwhole
      (hwhole.mask (by rcases hpaf with h | ⟨h, -⟩ <;> rw [h] <;> decide)) le_rfl
      (by rw [Nat.sub_self]; rfl) (s5PafEval_callback hpaf hidx) hfits
  cases m with
  | search s => exact hnow s (Or.inl hat.1) hat.2 hfits
  | done =>
    obtain ⟨fuel, rfl⟩ := Nat.exists_eq_add_of_le' (show 1 ≤ fuel by omega)
    have heval : s5PafEval cfg cb ps flags fuzz x (BitVec.ofNat 32 (n + x.length))
        (BitVec.ofNat 32 n) = (false, ps, BitVec.ofNat 32 n, .sfp) := by
      rw [s5PafEval, show ps.paf = .abort from hat]
    rw [run_done]
    exact ⟨_, checkLoop_flush heval (by decide), rfl, Or.inl ⟨rfl, rfl⟩⟩
  | flush s k =>
    obtain ⟨fuel, rfl⟩ := Nat.exists_eq_add_of_le' (show 1 ≤ fuel by omega)
    by_cases hk : k ≤ x.length
    · rw [run_flush_stop s hat.2.2.2 hk]
      exact checkLoop_pending_flush hlim hwhole hat hk hn
    · obtain ⟨hpaf, huser, hfpt, -⟩ := hat
      have heval : s5PafEval cfg cb ps flags fuzz x (BitVec.ofNat 32 (n + x.length))
          (BitVec.ofNat 32 n) = (false, ps, BitVec.ofNat 32 n, .nop) := by
        have hle : ¬ ps.fpt ≤ BitVec.ofNat 32 (n + x.length) := by rw [BitVec.le_def]; omega
        have hmax : ¬ cfg.mfp + fuzz ≤ BitVec.ofNat 32 (n + x.length) := by
          have := hlim.max
          rw [BitVec.le_def]
          omega
        rw [s5PafEval, hpaf]
        exact (if_neg hle).trans (if_neg hmax)
      obtain ⟨j, hj⟩ := Nat.exists_eq_add_of_le (show x.length + 1 ≤ k by omega)
      have hflush := run_flush (v := frame cb flags) s j x
      rw [show j + 1 + x.length = k by omega] at hflush
      rw [hflush]
      refine ⟨_, checkLoop_break heval (hlim.not_max hn), rfl,
        Or.inr ⟨rfl, ⟨hpaf, huser, ?_, by omega⟩, hwhole, rfl, rfl⟩⟩
      show ps.fpt.toNat = _
      omega
  | skip s k =>
    obtain ⟨hpaf, huser, hfpt⟩ := hat
    by_cases hk : x.length ≤ k
    · have heval : s5PafEval cfg cb ps flags fuzz x (BitVec.ofNat 32 (n + x.length))
          (BitVec.ofNat 32 n) = (false, ps, BitVec.ofNat 32 n, .nop) := by
        rw [s5PafEval, hpaf]
        exact if_neg (by rw [BitVec.lt_def]; omega)
      obtain ⟨fuel, rfl⟩ := Nat.exists_eq_add_of_le' (show 1 ≤ fuel by omega)
      have hskip := run_skip (v := frame cb flags) s (k - x.length) x
      rw [Nat.sub_add_cancel hk] at hskip
      rw [hskip]
      refine ⟨_, checkLoop_break heval (hlim.not_max hn), rfl,
        Or.inr ⟨rfl, ⟨hpaf, huser, ?_⟩, hwhole, rfl, rfl⟩⟩
      show ps.fpt.toNat = _
      omega
    · cases k with
      | zero =>
        rw [run_skip_zero s hx]
        exact hnow s (Or.inr ⟨hpaf, BitVec.eq_of_toNat_eq (by omega)⟩) huser
          ((fits_skip_zero hx).1 hfits)
      | succ k =>
        have hlen : (x.drop (k + 1)).length = x.length - (k + 1) := List.length_drop
        have hy : x.drop (k + 1) ≠ [] := List.ne_nil_of_length_pos (by omega)
        have htake : (x.take (k + 1)).length = k + 1 := List.length_take_of_le (by omega)
        have hskip := run_skip (v := frame cb flags) s 0 (x.take (k + 1))
        rw [htake, Nat.zero_add] at hskip
        rw [← List.take_append_drop (k + 1) x] at hfits
        have hfits' := hfits.of_more hskip
        rw [htake] at hfits'
        have hsum : n + (k + 1) + (x.drop (k + 1)).length = n + x.length := by omega
        have hfpt' : ps.fpt = BitVec.ofNat 32 (n + (k + 1)) :=
          BitVec.eq_of_toNat_eq (by rw [hfpt, toNat_ofNat (by omega)])
        have heval : s5PafEval cfg cb ps flags fuzz x (BitVec.ofNat 32 (n + x.length))
            (BitVec.ofNat 32 n) =
            ((s5PafCallback cb ps (x.drop (k + 1)) flags (BitVec.ofNat 32 (n + x.length)) ps.fpt).1,
              (s5PafCallback cb ps (x.drop (k + 1)) flags (BitVec.ofNat 32 (n + x.length)) ps.fpt).2.1,
              (s5PafCallback cb ps (x.drop (k + 1)) flags (BitVec.ofNat 32 (n + x.length)) ps.fpt).2.2,
              .nop) := by
          have hdelta : (if BitVec.ofNat 32 n < ps.fpt then (ps.fpt - BitVec.ofNat 32 n).toNat else 0) =
              k + 1 := by
            rw [if_pos (by rw [BitVec.lt_def]; omega),
              BitVec.toNat_sub_of_le (by rw [BitVec.le_def]; omega)]
            omega
          rw [s5PafEval, hpaf]
          dsimp only
          rw [hdelta, if_pos (by rw [BitVec.lt_def]; omega), if_neg (by omega)]
        have hmask := hwhole.mask (by rw [hpaf]; decide)
        have hfuel' : (x.drop (k + 1)).length + 2 ≤ fuel := by omega
        have hdata : x.drop (n + (k + 1) - n) = x.drop (k + 1) := by rw [Nat.add_sub_cancel_left]
        obtain ⟨r, hr, hresult⟩ := checkLoop_callback h hlim (x.drop (k + 1)).length
          (n := n + (k + 1)) rfl hy (by omega) hfuel' hwhole hmask (Nat.le_add_right n _) hdata
          (by rw [hsum, ← hfpt']; exact heval) (huser ▸ (fits_skip_zero hy).1 hfits')
        rw [hsum] at hr
        refine ⟨r, hr, ?_⟩
        have hrun : run (step (frame cb flags)) (.skip s (k + 1)) x =
            (run (step (frame cb flags)) (.search ps.user) (x.drop (k + 1))).shift (k + 1) := by
          rw [← List.take_append_drop (k + 1) x, run_append_more _ hskip, run_skip_zero s hy, htake,
            List.take_append_drop, huser]
        have hshifted := hresult.shift
        rw [hlen, Nat.add_sub_cancel' (by omega)] at hshifted
        rw [hrun]
        exact hshifted

/-! ### A call -/

/-- The state of PAF behind `n` queued bytes, the first of which has the sequence number `q`. -/
def Ready (q : Seq) (n : ℕ) (ps : PafState σ) (m : Mode σ) : Prop :=
  Whole ps ∧ (ps.paf = .start ∧ n = 0 ∧ m = .search ps.user ∨
    ps.pos = q ∧ ps.seq = q + BitVec.ofNat 32 n ∧ At n ps m)

/-- What a call leaves, by the outcome of the framer on the `len` bytes that it has seen. -/
def Checked (flags : U32) (q : Seq) (n len : ℕ) (r : U32 × PafState σ × U32) :
    Outcome (Mode σ) (Mode σ) → Prop
  | .more m => r.1 = 0 ∧ (r.2.2 = 0 ∧ m = .done ∨ r.2.2 = flags ∧ Ready q (n + len) r.2.1 m)
  | .stop m k => r.1 = BitVec.ofNat 32 (n + k) ∧ r.2.2 = pduFlags flags ∧
      Ready (q + BitVec.ofNat 32 (n + k)) 0 r.2.1 m

theorem Result.checked {q : Seq} {n len : ℕ} {ps : PafState σ} {r : U32 × PafState σ × U32}
    {o : Outcome (Mode σ) (Mode σ)} (h : Result flags n len ps r o) (hpos : ps.pos = q)
    (hseq : ps.seq = q + BitVec.ofNat 32 (n + len)) : Checked flags q n len r o := by
  cases o with
  | more m =>
    obtain ⟨hfp, h | ⟨hflags, hat, hwhole, hpos', hseq'⟩⟩ := h
    · exact ⟨hfp, Or.inl h⟩
    · exact ⟨hfp, Or.inr ⟨hflags, hwhole, Or.inr ⟨hpos'.trans hpos, hseq'.trans hseq, hat⟩⟩⟩
  | stop m k =>
    obtain ⟨hfp, hflags, hat, hwhole, hpos', hseq'⟩ := h
    have hpos'' : r.2.1.pos = q + BitVec.ofNat 32 (n + k) := by rw [hpos', hpos, hfp]
    exact ⟨hfp, hflags, hwhole, Or.inr ⟨hpos'', by rw [hseq', hpos'', BitVec.add_zero], hat⟩⟩

theorem Checked.shift {q : Seq} {n k len : ℕ} {r : U32 × PafState σ × U32}
    {o : Outcome (Mode σ) (Mode σ)} (h : Checked flags q (n + k) len r o) :
    Checked flags q n (k + len) r (o.shift k) := by
  cases o with
  | more m =>
    rw [Checked, Nat.add_assoc] at h
    exact h
  | stop m j =>
    rw [Checked, Nat.add_assoc, Nat.add_comm k] at h
    exact h

/-- **A call of `s5_paf_check`.**  It does to the mode what the framer does on the bytes. -/
theorem s5PafCheck_spec (h : LawfulCallback cb flags bound) (hlim : Limits cfg fuzz bound)
    {x : List Byte} {q : Seq} {n fuel : ℕ} {ps : PafState σ} {m : Mode σ} (hx : x ≠ [])
    (hn : n + x.length < bound) (hfuel : x.length + 2 ≤ fuel) (hready : Ready q n ps m)
    (hfits : Fits (frame cb flags) (2 ^ 32) m n x) :
    ∃ r, s5PafCheck fuel cfg cb ps x (BitVec.ofNat 32 (n + x.length)) (q + BitVec.ofNat 32 n)
        flags fuzz = some r ∧
      Checked flags q n x.length r (run (step (frame cb flags)) m x) := by
  obtain ⟨hwhole, hready⟩ := hready
  have hidx : BitVec.ofNat 32 (n + x.length) - BitVec.ofNat 32 x.length = BitVec.ofNat 32 n := by
    rw [BitVec.ofNat_add, BitVec.add_sub_cancel]
  have hend : q + BitVec.ofNat 32 n + BitVec.ofNat 32 x.length = q + BitVec.ofNat 32 (n + x.length) := by
    rw [BitVec.ofNat_add, BitVec.add_assoc]
  have hpos := List.length_pos_iff.2 hx
  have hwindow := hlim.window
  rcases hready with ⟨hstart, rfl, rfl⟩ | ⟨hps, hseq, hat⟩
  · have hwhole' : Whole { ps with
        seq := q + BitVec.ofNat 32 0 + BitVec.ofNat 32 x.length, pos := q, paf := PafStatus.search } :=
      ⟨hwhole.tot, fun _ => hwhole.mask (by rw [hstart]; decide)⟩
    have hat : At 0 { ps with
        seq := q + BitVec.ofNat 32 0 + BitVec.ofNat 32 x.length, pos := q, paf := PafStatus.search }
        (.search ps.user) := ⟨rfl, rfl⟩
    obtain ⟨r, hr, hresult⟩ := checkLoop_spec h hlim hx hn hfuel hwhole' hat hfits
    refine ⟨r, ?_, hresult.checked rfl hend⟩
    rw [s5PafCheck, if_pos hstart, checkBytes, hidx, ← hr, BitVec.add_zero]
  · have hnot := hat.ne_start
    have hgt : seqGt (q + BitVec.ofNat 32 n) ps.seq = false := by
      rw [hseq, seqGt, BitVec.sub_self]
      rfl
    have hlt : seqLt (q + BitVec.ofNat 32 n) ps.seq = false := by
      rw [hseq, seqLt, BitVec.sub_self]
      rfl
    have hleq : ¬ seqLeq (q + BitVec.ofNat 32 n + BitVec.ofNat 32 x.length) ps.seq = true := by
      rw [hseq, hend, seqLeq_iff q (by omega) (by omega)]
      omega
    have hwhole' : Whole { ps with seq := ps.seq + BitVec.ofNat 32 x.length } :=
      ⟨hwhole.tot, hwhole.mask⟩
    have hat' : At n { ps with seq := ps.seq + BitVec.ofNat 32 x.length } m := by
      cases m <;> exact hat
    obtain ⟨r, hr, hresult⟩ := checkLoop_spec h hlim hx hn hfuel hwhole' hat' hfits
    refine ⟨r, ?_, hresult.checked hps (by show ps.seq + _ = _; rw [hseq, hend])⟩
    rw [s5PafCheck, if_neg hnot, if_neg (by rw [hgt]; exact Bool.false_ne_true), if_neg hleq,
      if_neg (by rw [hlt]; exact Bool.false_ne_true), checkBytes, hidx]
    exact hr

end Loop

end Snort.Stream5
