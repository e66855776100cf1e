import Snort.Lib.Scanner

/-!
# Framing a stream

A framer reads a stream and selects points of it.  In a state of its own it gives a verdict on what
comes next: to go on searching, to pass over some elements, to select a point some elements ahead, or
to give up.

* `step`, `points`: a framer that gives its verdicts element by element, and the points it selects.
* `Lawful`: a callback whose verdict on a list is its verdict on the first part, or else that of going
  on with the second part.
* **`run_of_verdict`**: such a callback selects the points that it selects element by element, however
  the stream is cut.
* `Fits`, `Below`: bounds on the offsets of verdicts, and on what is queued between two points.
-/

namespace Framer

open Scanner

variable {σ β : Type*}

/-- A verdict on a list; the offsets count from its start. -/
inductive Verdict (σ : Type*)
  | search (s : σ)
  | skip (s : σ) (n : ℕ)
  | flush (s : σ) (n : ℕ)
  | abort
  deriving DecidableEq

/-- What a framer is about to do: to give a verdict, to do so behind `n` more elements, or to select the
point behind `n` more elements. -/
inductive Mode (σ : Type*)
  | search (s : σ)
  | skip (s : σ) (n : ℕ)
  | flush (s : σ) (n : ℕ)
  | done
  deriving DecidableEq

/-- A verdict on a list behind `k` other elements. -/
def Verdict.shift (k : ℕ) : Verdict σ → Verdict σ
  | .search s => .search s
  | .skip s n => .skip s (n + k)
  | .flush s n => .flush s (n + k)
  | .abort => .abort

/-- What a verdict sets out to do, from the start of the list. -/
def Verdict.mode : Verdict σ → Mode σ
  | .search s => .search s
  | .skip s n => .skip s n
  | .flush s n => .flush s n
  | .abort => .done

/-- An element goes by; on the right where there is a point behind it. -/
def Mode.pass : Mode σ → Mode σ ⊕ Mode σ
  | .search s => .inl (.search s)
  | .skip s n => .inl (.skip s (n - 1))
  | .flush s n => if n ≤ 1 then .inr (.search s) else .inl (.flush s (n - 1))
  | .done => .inl .done

/-- A verdict is due. -/
def Mode.state : Mode σ → Option σ
  | .search s => some s
  | .skip s 0 => some s
  | _ => none

/-- One element of the stream. -/
def step (v : σ → β → Verdict σ) (m : Mode σ) (c : β) : Mode σ ⊕ Mode σ :=
  match m.state with
  | some s => (v s c).mode.pass
  | none => m.pass

/-- The points that a framer selects, as offsets. -/
def points (v : σ → β → Verdict σ) : Mode σ → List β → List ℕ
  | _, [] => []
  | m, c :: cs =>
    (step v m c).elim (fun m' => (points v m' cs).map (· + 1))
      fun m' => 1 :: (points v m' cs).map (· + 1)

section Points

variable {v : σ → β → Verdict σ}

theorem step_of_none {m : Mode σ} (h : m.state = none) (c : β) : step v m c = m.pass := by
  rw [step, h]

/-- What follows a stretch without points. -/
theorem points_of_more {m m' : Mode σ} {x : List β} (y : List β)
    (h : run (step v) m x = .more m') :
    points v m (x ++ y) = (points v m' y).map (· + x.length) := by
  induction x generalizing m with
  | nil =>
    cases h
    exact (List.map_id' _).symm
  | cons c x ih =>
    cases hstep : step v m c with
    | inl t =>
      rw [run_cons_inl _ hstep] at h
      cases hrun : run (step v) t x with
      | more t' =>
        rw [hrun] at h
        cases h
        rw [List.cons_append, points, hstep, Sum.elim_inl, ih hrun, List.map_map]
        rfl
      | stop r n =>
        rw [hrun] at h
        cases h
    | inr r =>
      rw [run_cons_inr _ hstep] at h
      cases h

/-- What follows the first point. -/
theorem points_of_stop {m m' : Mode σ} {x : List β} {n : ℕ} (h : run (step v) m x = .stop m' n) :
    points v m x = n :: (points v m' (x.drop n)).map (· + n) := by
  induction x generalizing m n with
  | nil => cases h
  | cons c x ih =>
    cases hstep : step v m c with
    | inl t =>
      rw [run_cons_inl _ hstep] at h
      cases hrun : run (step v) t x with
      | more t' =>
        rw [hrun] at h
        cases h
      | stop r k =>
        rw [hrun] at h
        cases h
        rw [points, hstep, Sum.elim_inl, ih hrun, List.map_cons, List.map_map, List.drop_succ_cons]
        rfl
    | inr r =>
      rw [run_cons_inr _ hstep] at h
      cases h
      rw [points, hstep, Sum.elim_inr]
      rfl

/-- A framer that has given up stays so. -/
theorem run_done (x : List β) : run (step v) .done x = .more .done := by
  induction x with
  | nil => rfl
  | cons c x ih =>
    rw [run_cons_inl _ (step_of_none (show Mode.state .done = none from rfl) c), ih]
    rfl

/-- Elements that are passed over. -/
theorem run_skip (s : σ) (n : ℕ) (x : List β) :
    run (step v) (.skip s (n + x.length)) x = .more (.skip s n) := by
  induction x with
  | nil => rfl
  | cons c x ih =>
    have hstep : step v (.skip s (n + (c :: x).length)) c = .inl (.skip s (n + x.length)) :=
      step_of_none rfl c
    rw [run_cons_inl _ hstep, ih]
    rfl

/-- Elements in front of a point. -/
theorem run_flush (s : σ) (n : ℕ) (x : List β) :
    run (step v) (.flush s (n + 1 + x.length)) x = .more (.flush s (n + 1)) := by
  induction x with
  | nil => rfl
  | cons c x ih =>
    have hne : ¬ n + 1 + (c :: x).length ≤ 1 := by rw [List.length_cons]; omega
    have hstep : step v (.flush s (n + 1 + (c :: x).length)) c = .inl (.flush s (n + 1 + x.length)) :=
      (step_of_none rfl c).trans (if_neg hne)
    rw [run_cons_inl _ hstep, ih]
    rfl

/-- A list behind whose `n`-th element there is a point. -/
theorem run_flush_stop (s : σ) {n : ℕ} {x : List β} (hpos : 1 ≤ n) (hn : n ≤ x.length) :
    run (step v) (.flush s n) x = .stop (.search s) n := by
  obtain ⟨n, rfl⟩ := Nat.exists_eq_add_of_le' hpos
  have hlen : (x.take n).length = n := List.length_take_of_le (by omega)
  have hrun := run_flush (v := v) s 0 (x.take n)
  rw [hlen] at hrun
  obtain ⟨c, y, hy⟩ := List.exists_cons_of_length_pos (show 0 < (x.drop n).length by
    rw [List.length_drop]; omega)
  have hstep : step v (.flush s (0 + 1)) c = .inr (.search s) := rfl
  rw [← List.take_append_drop n x, Nat.add_comm n 1, ← Nat.zero_add 1, run_append_more _ hrun, hy,
    run_cons_inr _ hstep, hlen, Outcome.shift_stop]

/-- The first point behind a verdict that selects one. -/
theorem run_flush_eq {s : σ} {n k : ℕ} {m : Mode σ} {x : List β} (hpos : 1 ≤ n)
    (h : run (step v) (.flush s n) x = .stop m k) : m = .search s ∧ k = n := by
  by_cases hn : n ≤ x.length
  · rw [run_flush_stop s hpos hn] at h
    cases h
    exact ⟨rfl, rfl⟩
  · have hrun := run_flush (v := v) s (n - 1 - x.length) x
    rw [show n - 1 - x.length + 1 + x.length = n by omega] at hrun
    rw [hrun] at h
    cases h

/-- A verdict that is due at once may as well be due now. -/
theorem run_skip_zero (s : σ) {x : List β} (hx : x ≠ []) :
    run (step v) (.skip s 0) x = run (step v) (.search s) x := by
  obtain ⟨c, y, rfl⟩ := List.exists_cons_of_ne_nil hx
  rfl

/-- What is known of the state that a framer is in. -/
def Mode.Holds (p : σ → Prop) : Mode σ → Prop
  | .search s => p s
  | .skip s _ => p s
  | .flush s _ => p s
  | .done => True

theorem Mode.Holds.pass {p : σ → Prop} {m : Mode σ} (h : m.Holds p) :
    m.pass.elim (Mode.Holds p) (Mode.Holds p) := by
  cases m with
  | search s => exact h
  | skip s n => exact h
  | flush s n =>
    show (if n ≤ 1 then Sum.inr (.search s) else .inl (.flush s (n - 1)) : Mode σ ⊕ Mode σ).elim _ _
    split_ifs
    · exact h
    · exact h
  | done => trivial

/-- What every verdict keeps is known up to the next point, and there. -/
theorem run_holds {p : σ → Prop} (hv : ∀ s c, p s → (v s c).mode.Holds p) {m : Mode σ} (x : List β)
    (hm : m.Holds p) :
    (∀ m', run (step v) m x = .more m' → m'.Holds p) ∧
      ∀ m' n, run (step v) m x = .stop m' n → m'.Holds p := by
  have hstep : ∀ (m : Mode σ) (c : β), m.Holds p →
      (step v m c).elim (Mode.Holds p) (Mode.Holds p) := by
    intro m c hm
    have hpass := hm.pass
    cases m with
    | search s => exact (hv s c hm).pass
    | skip s n =>
      cases n with
      | zero => exact (hv s c hm).pass
      | succ n => exact hpass
    | flush s n => exact hpass
    | done => exact hpass
  refine run_invariant (fun m c m' hm h => ?_) (fun m c m' hm h => ?_) x hm
  · have hm' := hstep m c hm
    rw [h] at hm'
    exact hm'
  · have hm' := hstep m c hm
    rw [h] at hm'
    exact hm'

end Points

/-! ### Callbacks -/

/-- A verdict on what follows `k` elements, unless there is one before. -/
def Verdict.orElse (V : Verdict σ) (k : ℕ) (f : σ → Verdict σ) : Verdict σ :=
  match V with
  | .search s => (f s).shift k
  | V => V

/-- The offset of a verdict is not 0. -/
def Verdict.Pos : Verdict σ → Prop
  | .skip _ n => 1 ≤ n
  | .flush _ n => 1 ≤ n
  | _ => True

/-- A callback that scans lists shorter than a bound from left to right. -/
structure Lawful (cb : σ → List β → Verdict σ) (bound : ℕ) : Prop where
  append : ∀ s a b, a ≠ [] → b ≠ [] → (a ++ b).length < bound →
    cb s (a ++ b) = (cb s a).orElse a.length fun s' => cb s' b
  pos : ∀ s a, a ≠ [] → a.length < bound → (cb s a).Pos

/-- A callback on one element. -/
def single (cb : σ → List β → Verdict σ) (s : σ) (c : β) : Verdict σ := cb s [c]

variable {cb : σ → List β → Verdict σ} {bound : ℕ}

theorem step_search (s : σ) (c : β) :
    step (single cb) (.search s) c = (cb s [c]).mode.pass := rfl

/-- A verdict other than to go on searching, seen one element later. -/
theorem pass_shift {V : Verdict σ} (hsearch : ∀ s, V ≠ .search s) (hpos : V.Pos) :
    step (single cb) (V.shift 1).mode = fun _ : β => .inl V.mode := by
  funext c
  cases V with
  | search s => exact absurd rfl (hsearch s)
  | skip s n => rfl
  | flush s n =>
    have hne : ¬ n + 1 ≤ 1 := by
      have : 1 ≤ n := hpos
      omega
    exact if_neg hne
  | abort => rfl

/-- A verdict on a first element, and the element itself. -/
theorem step_mode {V : Verdict σ} (hsearch : ∀ s, V ≠ .search s) (hpos : V.Pos) (c : β) :
    step (single cb) V.mode c = V.mode.pass := by
  cases V with
  | search s => exact absurd rfl (hsearch s)
  | skip s n =>
    obtain ⟨n, rfl⟩ := Nat.exists_eq_add_of_le' (show 1 ≤ n from hpos)
    rfl
  | flush s n => rfl
  | abort => rfl

theorem run_congr {m m' : Mode σ} {c : β} (x : List β)
    (h : step (single cb) m c = step (single cb) m' c) :
    run (step (single cb)) m (c :: x) = run (step (single cb)) m' (c :: x) := by
  rw [run, run, h]

theorem Verdict.shift_ne_search {V : Verdict σ} {k : ℕ} (h : ∀ s, V.shift k ≠ .search s) (s : σ) :
    V ≠ .search s := fun hV => h s (congrArg (Verdict.shift k) hV)

/-- **However a stream is cut.**  A lawful callback selects what it selects element by element. -/
theorem run_of_verdict (h : Lawful cb bound) {x : List β} : ∀ (s : σ), x ≠ [] → x.length < bound →
    (∀ s', cb s x = .search s' → run (step (single cb)) (.search s) x = .more (.search s')) ∧
    ((∀ s', cb s x ≠ .search s') →
      run (step (single cb)) (.search s) x = run (step (single cb)) (cb s x).mode x) := by
  induction x with
  | nil => exact fun _ hne => absurd rfl hne
  | cons c x ih =>
    intro s _ hlen
    have hlen' : x.length < bound := by rw [List.length_cons] at hlen; omega
    have hpos := h.pos s [c] (List.cons_ne_nil _ _) (by rw [List.length_cons] at hlen ⊢; simp; omega)
    by_cases hsearch : ∃ s', cb s [c] = .search s'
    · obtain ⟨s₁, hs₁⟩ := hsearch
      have hstep : step (single cb) (.search s) c = .inl (.search s₁) := by
        rw [step_search, hs₁]
        rfl
      rw [run_cons_inl _ hstep]
      cases x with
      | nil =>
        rw [hs₁]
        refine ⟨fun s' hs' => ?_, fun hne => absurd rfl (hne s₁)⟩
        cases hs'
        rfl
      | cons c' x =>
        have happend := h.append s [c] (c' :: x) (List.cons_ne_nil _ _) (List.cons_ne_nil _ _) hlen
        rw [hs₁] at happend
        obtain ⟨ihs, ihv⟩ := ih s₁ (List.cons_ne_nil _ _) hlen'
        have hcb : cb s (c :: c' :: x) = (cb s₁ (c' :: x)).shift 1 := happend
        rw [hcb]
        refine ⟨fun s' hs' => ?_, fun hne => ?_⟩
        · cases hV : cb s₁ (c' :: x) with
          | search t =>
            rw [hV] at hs'
            cases hs'
            rw [ihs s' hV]
            rfl
          | _ => rw [hV] at hs'; cases hs'
        · have hne' := Verdict.shift_ne_search hne
          have hpos' := h.pos s₁ (c' :: x) (List.cons_ne_nil _ _) hlen'
          rw [ihv hne', run_cons_inl _ (congrFun (pass_shift hne' hpos') c)]
    · have hne : ∀ s', cb s [c] ≠ .search s' := fun s' hs' => hsearch ⟨s', hs'⟩
      have hcb : cb s (c :: x) = cb s [c] := by
        cases x with
        | nil => rfl
        | cons c' x =>
          have happend := h.append s [c] (c' :: x) (List.cons_ne_nil _ _) (List.cons_ne_nil _ _) hlen
          refine happend.trans ?_
          cases hV : cb s [c] with
          | search t => exact absurd hV (hne t)
          | _ => rfl
      rw [hcb]
      refine ⟨fun s' hs' => absurd hs' (hne s'), fun _ => run_congr x ?_⟩
      rw [step_search, step_mode hne hpos]

/-! ### Bounds -/

/-- How far a verdict reaches. -/
def Verdict.reach : Verdict σ → ℕ
  | .skip _ n => n
  | .flush _ n => n
  | _ => 0

/-- The verdicts on a stream reach below a limit; `n` elements have gone by since the last point. -/
def Fits (v : σ → β → Verdict σ) (limit : ℕ) : Mode σ → ℕ → List β → Prop
  | _, _, [] => True
  | m, n, c :: cs =>
    (∀ s, m.state = some s → n + (v s c).reach < limit) ∧
      (step v m c).elim (fun m' => Fits v limit m' (n + 1) cs) fun m' => Fits v limit m' 0 cs

/-- The mode behind a list, and how many elements have gone by since the last point. -/
def since (v : σ → β → Verdict σ) : Mode σ → ℕ → List β → Mode σ × ℕ
  | m, n, [] => (m, n)
  | m, n, c :: cs => (step v m c).elim (fun m' => since v m' (n + 1) cs) fun m' => since v m' 0 cs

/-- At the end of every segment less than a bound is queued since the last point. -/
def Below (v : σ → β → Verdict σ) (bound : ℕ) : Mode σ → ℕ → List (List β) → Prop
  | _, _, [] => True
  | m, n, seg :: segs =>
    n + seg.length < bound ∧ Below v bound (since v m n seg).1 (since v m n seg).2 segs

section Bounds

variable {v : σ → β → Verdict σ} {limit : ℕ}

theorem fits_append {m : Mode σ} {n : ℕ} (x y : List β) :
    Fits v limit m n (x ++ y) ↔
      Fits v limit m n x ∧ Fits v limit (since v m n x).1 (since v m n x).2 y := by
  induction x generalizing m n with
  | nil => exact ⟨fun h => ⟨trivial, h⟩, fun h => h.2⟩
  | cons c x ih =>
    rw [List.cons_append, Fits, Fits, since, and_assoc]
    cases step v m c with
    | inl m' => exact and_congr_right fun _ => ih
    | inr m' => exact and_congr_right fun _ => ih

theorem since_of_more {m m' : Mode σ} {n : ℕ} {x : List β} (h : run (step v) m x = .more m') :
    since v m n x = (m', n + x.length) := by
  induction x generalizing m n with
  | nil => cases h; rfl
  | cons c x ih =>
    rw [since]
    cases hstep : step v m c with
    | inl t =>
      rw [run_cons_inl _ hstep] at h
      cases hrun : run (step v) t x with
      | more t' =>
        rw [hrun] at h
        cases h
        rw [Sum.elim_inl, ih hrun, List.length_cons]
        congr 1
        omega
      | stop r k =>
        rw [hrun] at h
        cases h
    | inr r =>
      rw [run_cons_inr _ hstep] at h
      cases h

theorem since_le (m : Mode σ) (n : ℕ) (x : List β) : (since v m n x).2 ≤ n + x.length := by
  induction x generalizing m n with
  | nil => exact le_rfl
  | cons c x ih =>
    rw [since, List.length_cons]
    cases step v m c with
    | inl m' =>
      have hle := ih m' (n + 1)
      show (since v m' (n + 1) x).2 ≤ _
      omega
    | inr m' =>
      have hle := ih m' 0
      show (since v m' 0 x).2 ≤ _
      omega

/-- The points on two parts of a stream. -/
theorem points_append (m : Mode σ) (n : ℕ) (x y : List β) :
    points v m (x ++ y) =
      points v m x ++ (points v (since v m n x).1 y).map (· + x.length) := by
  induction x generalizing m n with
  | nil => exact (List.map_id' _).symm
  | cons c x ih =>
    rw [List.cons_append, points, points, since]
    cases step v m c with
    | inl m' =>
      show (points v m' (x ++ y)).map _ = (points v m' x).map _ ++ _
      rw [ih m' (n + 1), List.map_append, List.map_map]
      rfl
    | inr m' =>
      show 1 :: (points v m' (x ++ y)).map _ = 1 :: (points v m' x).map _ ++ _
      rw [ih m' 0, List.map_append, List.map_map]
      rfl

/-- A framer that has given up selects nothing. -/
theorem points_done (x : List β) : points v .done x = [] := by
  have h := points_of_more [] (run_done (v := v) x)
  rw [List.append_nil] at h
  exact h

theorem since_append (m : Mode σ) (n : ℕ) (x y : List β) :
    since v m n (x ++ y) = since v (since v m n x).1 (since v m n x).2 y := by
  induction x generalizing m n with
  | nil => rfl
  | cons c x ih =>
    rw [List.cons_append, since, since]
    cases step v m c with
    | inl m' => exact ih m' (n + 1)
    | inr m' => exact ih m' 0

theorem since_of_stop {m m' : Mode σ} {n k : ℕ} {x : List β}
    (h : run (step v) m x = .stop m' k) : since v m n (x.take k) = (m', 0) := by
  induction x generalizing m n k with
  | nil => cases h
  | cons c x ih =>
    cases hstep : step v m c with
    | inl t =>
      rw [run_cons_inl _ hstep] at h
      cases hrun : run (step v) t x with
      | more t' =>
        rw [hrun] at h
        cases h
      | stop r j =>
        rw [hrun] at h
        cases h
        rw [List.take_succ_cons, since, hstep, Sum.elim_inl, ih hrun]
    | inr r =>
      rw [run_cons_inr _ hstep] at h
      cases h
      rw [List.take_succ_cons, since, hstep, Sum.elim_inr]
      rfl

/-- What is queued at the ends of the segments behind others. -/
theorem below_append {bound : ℕ} {m : Mode σ} {n : ℕ} (xs ys : List (List β)) :
    Below v bound m n (xs ++ ys) ↔
      Below v bound m n xs ∧ Below v bound (since v m n xs.flatten).1 (since v m n xs.flatten).2 ys := by
  induction xs generalizing m n with
  | nil => exact ⟨fun h => ⟨trivial, h⟩, fun h => h.2⟩
  | cons x xs ih => rw [List.cons_append, Below, Below, ih, List.flatten_cons, since_append, and_assoc]

theorem Below.since_lt {bound : ℕ} {m : Mode σ} {n k : ℕ} {segs : List (List β)} (h : Below v bound m n segs)
    (hn : n < k) (hbound : bound ≤ k) : (since v m n segs.flatten).2 < k := by
  induction segs generalizing m n with
  | nil => exact hn
  | cons seg segs ih =>
    obtain ⟨hlen, h⟩ := h
    have hle := since_le (v := v) m n seg
    rw [List.flatten_cons, since_append]
    exact ih h (by omega)

/-- What fits behind a stretch without points. -/
theorem Fits.of_more {m m' : Mode σ} {n : ℕ} {x y : List β} (h : Fits v limit m n (x ++ y))
    (hrun : run (step v) m x = .more m') : Fits v limit m' (n + x.length) y := by
  have h' := ((fits_append x y).1 h).2
  rw [since_of_more hrun] at h'
  exact h'

/-- What fits behind the first point. -/
theorem Fits.of_stop {m m' : Mode σ} {n k : ℕ} {x : List β} (h : Fits v limit m n x)
    (hrun : run (step v) m x = .stop m' k) : Fits v limit m' 0 (x.drop k) := by
  rw [← List.take_append_drop k x] at h
  have h' := ((fits_append _ _).1 h).2
  rw [since_of_stop hrun] at h'
  exact h'

theorem fits_skip_zero {s : σ} {n : ℕ} {x : List β} (hx : x ≠ []) :
    Fits v limit (.skip s 0) n x ↔ Fits v limit (.search s) n x := by
  obtain ⟨c, y, rfl⟩ := List.exists_cons_of_ne_nil hx
  exact Iff.rfl

/-- A verdict that fits, and what it sets out to do. -/
theorem fits_of_verdict (h : Lawful cb bound) {x : List β} : ∀ (s : σ) (n : ℕ), x ≠ [] →
    x.length < bound → Fits (single cb) limit (.search s) n x → (∀ s', cb s x ≠ .search s') →
      n + (cb s x).reach < limit ∧ Fits (single cb) limit (cb s x).mode n x := by
  induction x with
  | nil => exact fun _ _ hne => absurd rfl hne
  | cons c x ih =>
    intro s n _ hlen hfits hne
    have hlen' : x.length < bound := by rw [List.length_cons] at hlen; omega
    have hpos := h.pos s [c] (List.cons_ne_nil _ _) (by rw [List.length_cons] at hlen ⊢; simp; omega)
    obtain ⟨hreach, htail⟩ := hfits
    have hreach : n + (cb s [c]).reach < limit := hreach s rfl
    by_cases hsearch : ∃ s', cb s [c] = .search s'
    · obtain ⟨s₁, hs₁⟩ := hsearch
      cases x with
      | nil => exact absurd hs₁ (hne s₁)
      | cons c' x =>
        have hstep : step (single cb) (.search s) c = .inl (.search s₁) := by
          rw [step_search, hs₁]
          rfl
        rw [hstep, Sum.elim_inl] at htail
        have happend := h.append s [c] (c' :: x) (List.cons_ne_nil _ _) (List.cons_ne_nil _ _) hlen
        rw [hs₁] at happend
        have hcb : cb s (c :: c' :: x) = (cb s₁ (c' :: x)).shift 1 := happend
        rw [hcb] at hne ⊢
        have hne' := Verdict.shift_ne_search hne
        have hpos' := h.pos s₁ (c' :: x) (List.cons_ne_nil _ _) hlen'
        obtain ⟨ihreach, ihfits⟩ := ih s₁ (n + 1) (List.cons_ne_nil _ _) hlen' htail hne'
        refine ⟨?_, ?_, ?_⟩
        · cases hV : cb s₁ (c' :: x) with
          | search t => exact absurd hV (hne' t)
          | skip t k => rw [hV] at ihreach; simp only [Verdict.shift, Verdict.reach] at ihreach ⊢; omega
          | flush t k => rw [hV] at ihreach; simp only [Verdict.shift, Verdict.reach] at ihreach ⊢; omega
          | abort => rw [hV] at ihreach; simp only [Verdict.shift, Verdict.reach] at ihreach ⊢; omega
        · intro t ht
          exfalso
          cases hV : cb s₁ (c' :: x) with
          | search t => exact absurd hV (hne' t)
          | skip t k => rw [hV] at ht; cases ht
          | flush t k => rw [hV] at ht; cases ht
          | abort => rw [hV] at ht; cases ht
        · rw [pass_shift hne' hpos', Sum.elim_inl]
          exact ihfits
    · have hne' : ∀ s', cb s [c] ≠ .search s' := fun s' hs' => hsearch ⟨s', hs'⟩
      have hcb : cb s (c :: x) = cb s [c] := by
        cases x with
        | nil => rfl
        | cons c' x =>
          have happend := h.append s [c] (c' :: x) (List.cons_ne_nil _ _) (List.cons_ne_nil _ _) hlen
          refine happend.trans ?_
          cases hV : cb s [c] with
          | search t => exact absurd hV (hne' t)
          | _ => rfl
      rw [hcb]
      refine ⟨hreach, fun t ht => ?_, ?_⟩
      · exfalso
        cases hV : cb s [c] with
        | search t => exact absurd hV (hne' t)
        | skip t k =>
          rw [hV] at ht hpos
          obtain ⟨k, rfl⟩ := Nat.exists_eq_add_of_le' (show 1 ≤ k from hpos)
          cases ht
        | flush t k => rw [hV] at ht; cases ht
        | abort => rw [hV] at ht; cases ht
      · rw [step_search] at htail
        rw [step_mode hne' hpos]
        exact htail

end Bounds

end Framer
