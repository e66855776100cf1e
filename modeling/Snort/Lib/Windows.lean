import Mathlib.Tactic

/-!
# Windows and periods of times

* `windows`: a window is opened by the first time that is not in the window before it;
* `windowCounts`, `windowCounts_eq`: the number that each time has in its window, found by one counter;
* `periods`: a period of at most `n` times, which starts with the last time of a full period before it;
* `periodCounts`, `periodCounts_eq`: the number that each time has in its period.
-/

namespace Windows

/-- The numbers of the times in their lists. -/
def numbers {T : Type*} (ws : List (List T)) : List ℕ :=
  ws.flatMap fun w => List.range' 1 w.length

theorem numbers_cons {T : Type*} (w : List T) (ws : List (List T)) :
    numbers (w :: ws) = List.range' 1 w.length ++ numbers ws :=
  List.flatMap_cons

variable {T : Type*} [LinearOrder T] [Add T]

/-- The windows of length `s`, each opened by its first time. -/
def windows (s : T) : List T → List (List T)
  | [] => []
  | t :: ts => (t :: ts.takeWhile (· < t + s)) :: windows s (ts.dropWhile (· < t + s))
termination_by ts => ts.length
decreasing_by exact Nat.lt_succ_of_le (List.dropWhile_suffix _).length_le

/-- The periods of at most `n` times within `s` of their start: the last time of a period of `n` times starts
the next one, and a time that is later than that starts its own. -/
def periods (n : ℕ) (s : T) (start : T) : List T → List (List T)
  | [] => []
  | t :: ts =>
    let b := if start + s ≤ t then t else start
    let w := (ts.takeWhile (· < b + s)).take (n - 1)
    (t :: w) :: periods n s (if w.length + 1 = n then w.getLastD t else b) (ts.drop w.length)
termination_by ts => ts.length
decreasing_by exact Nat.lt_succ_of_le (List.drop_suffix _ _).length_le

/-- The number of each time in its window; `count` times of the one from `start` are over. -/
def windowCounts (s : T) : T → ℕ → List T → List ℕ
  | _, _, [] => []
  | start, count, t :: ts =>
    if start + s ≤ t then 1 :: windowCounts s t 1 ts
    else (count + 1) :: windowCounts s start (count + 1) ts

/-- The number of each time in its period; `count` times of the one from `start` are over. -/
def periodCounts (n : ℕ) (s : T) : T → ℕ → List T → List ℕ
  | _, _, [] => []
  | start, count, t :: ts =>
    let b := if start + s ≤ t then t else start
    let c := if start + s ≤ t then 1 else count + 1
    c :: if c = n then periodCounts n s t 0 ts else periodCounts n s b c ts

/-! ### Windows -/

variable (s : T)

theorem windows_cons (t : T) (ts : List T) :
    windows s (t :: ts) = (t :: ts.takeWhile (· < t + s)) :: windows s (ts.dropWhile (· < t + s)) := by
  rw [windows]

theorem windowCounts_eq (start : T) (count : ℕ) (ts : List T) :
    windowCounts s start count ts =
      List.range' (count + 1) (ts.takeWhile (· < start + s)).length ++
        numbers (windows s (ts.dropWhile (· < start + s))) := by
  induction ts generalizing start count with
  | nil =>
    rw [windows.eq_def]
    rfl
  | cons t ts ih =>
    unfold windowCounts
    by_cases h : start + s ≤ t
    · rw [if_pos h, ih, List.takeWhile_cons_of_neg (by simpa using h),
        List.dropWhile_cons_of_neg (by simpa using h), windows_cons, numbers_cons, List.length_cons,
        List.range'_succ]
      rfl
    · rw [if_neg h, ih, List.takeWhile_cons_of_pos (by simpa using h),
        List.dropWhile_cons_of_pos (by simpa using h), List.length_cons, List.range'_succ,
        List.cons_append]

/-- The numbers from the first time on. -/
theorem windowCounts_first (t : T) (ts : List T) :
    1 :: windowCounts s t 1 ts = numbers (windows s (t :: ts)) := by
  rw [windowCounts_eq, windows_cons, numbers_cons, List.length_cons, List.range'_succ]
  rfl

/-! ### Periods -/

variable (n : ℕ)

theorem periods_cons (start t : T) (ts : List T) :
    periods n s start (t :: ts) =
      let b := if start + s ≤ t then t else start
      let w := (ts.takeWhile (· < b + s)).take (n - 1)
      (t :: w) :: periods n s (if w.length + 1 = n then w.getLastD t else b) (ts.drop w.length) := by
  rw [periods]

/-- The times that are left for the period from `start`, of which `count` times are over. -/
def remaining (start : T) (count : ℕ) (ts : List T) : List T :=
  (ts.takeWhile (· < start + s)).take (n - count)

/-- The start of the period behind it. -/
def nextStart (start : T) (count : ℕ) (r : List T) : T :=
  if count + r.length = n then r.getLastD start else start

variable {n}

theorem remaining_late {start t : T} (h : start + s ≤ t) (count : ℕ) (ts : List T) :
    remaining s n start count (t :: ts) = [] := by
  unfold remaining
  rw [List.takeWhile_cons_of_neg (by simpa using h), List.take_nil]

theorem remaining_cons {start t : T} (h : ¬start + s ≤ t) {count : ℕ} (hcount : count < n) (ts : List T) :
    remaining s n start count (t :: ts) = t :: remaining s n start (count + 1) ts := by
  unfold remaining
  rw [List.takeWhile_cons_of_pos (by simpa using h), ← Nat.succ_pred_eq_of_pos (Nat.sub_pos_of_lt hcount),
    List.take_succ_cons]
  rfl

theorem numbers_periods_cons (start t : T) (ts : List T) :
    let b := if start + s ≤ t then t else start
    numbers (periods n s start (t :: ts)) = List.range' 1 ((remaining s n b 1 ts).length + 1) ++
      numbers (periods n s (if (remaining s n b 1 ts).length + 1 = n then (remaining s n b 1 ts).getLastD t else b)
        (ts.drop (remaining s n b 1 ts).length)) := by
  intro b
  rw [periods_cons, numbers_cons]
  rfl

/-- A period that has not begun yet. -/
theorem numbers_periods (hn : 0 < n) (start : T) (ts : List T) :
    numbers (periods n s start ts) = List.range' 1 (remaining s n start 0 ts).length ++
      numbers (periods n s (nextStart n start 0 (remaining s n start 0 ts))
        (ts.drop (remaining s n start 0 ts).length)) := by
  unfold nextStart
  cases ts with
  | nil => simp [remaining, periods.eq_def]
  | cons t ts =>
    by_cases h : start + s ≤ t
    · rw [remaining_late s h]
      simp [hn.ne]
    · rw [remaining_cons s h hn, numbers_periods_cons, if_neg h, List.length_cons, List.drop_succ_cons,
        List.getLastD_cons, Nat.zero_add, Nat.zero_add]

theorem periodCounts_eq (hn : 0 < n) (start : T) {count : ℕ} (hcount : count < n) (ts : List T) :
    periodCounts n s start count ts = List.range' (count + 1) (remaining s n start count ts).length ++
      numbers (periods n s (nextStart n start count (remaining s n start count ts))
        (ts.drop (remaining s n start count ts).length)) := by
  induction ts generalizing start count with
  | nil => simp [remaining, periods.eq_def, periodCounts, numbers]
  | cons t ts ih =>
    unfold periodCounts
    by_cases h : start + s ≤ t
    · have hlate : nextStart n start count ([] : List T) = start := if_neg hcount.ne
      simp only [if_pos h]
      rw [remaining_late s h, hlate, List.length_nil, List.drop_zero, numbers_periods_cons, if_pos h,
        List.range'_succ]
      by_cases hone : 1 = n
      · rw [if_pos hone, ih t hn, ← numbers_periods s hn]
        simp [remaining, ← hone]
      · rw [if_neg hone, ih t (by omega)]
        unfold nextStart
        simp [Nat.add_comm]
    · simp only [if_neg h]
      rw [remaining_cons s h hcount, List.length_cons, List.drop_succ_cons, List.range'_succ,
        List.cons_append]
      congr 1
      by_cases hfull : count + 1 = n
      · rw [if_pos hfull, ih t hn, ← numbers_periods s hn]
        simp [remaining, nextStart, ← hfull]
      · rw [if_neg hfull, ih start (by omega)]
        congr 3
        unfold nextStart
        rw [List.length_cons, List.getLastD_cons, Nat.add_right_comm count, ← Nat.add_assoc]
        split
        · -- a period that is full now had times left
          next hend =>
          cases hr : remaining s n start (count + 1) ts with
          | nil =>
            rw [hr] at hend
            exact absurd (by simpa [Nat.add_right_comm] using hend) hfull
          | cons u r => rw [List.getLastD_cons, List.getLastD_cons]
        · rfl

/-- The numbers from the start of a period on. -/
theorem periodCounts_start (hn : 0 < n) (start : T) (ts : List T) :
    periodCounts n s start 0 ts = numbers (periods n s start ts) := by
  rw [periodCounts_eq s hn start hn, ← numbers_periods s hn]

end Windows
