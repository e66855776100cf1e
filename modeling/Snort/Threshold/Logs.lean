import Snort.Lib.Windows
import Snort.Threshold.Model

/-!
# Which events are logged

* `ThdNode.logs`: the events that are to be logged, by the windows and periods of their times;
* `ThdNode.advance`: the same with one counter, and `Tracks`: the node of an address that keeps it;
* `Regular`: no clock or counter wraps, and no window of `THD_TYPE_BOTH` with count 1 starts anew;
* **`logged_eq`**: in a run of regular events, those of each address are logged as they are to be.
-/

namespace Snort.Threshold

open CInt Sfxhash Windows

variable {A : Type*}

/-! ### The events to be logged -/

section Spec

variable (sfthdNode : ThdNode A)

/-- The event that has the number `i` in its period is to be logged. -/
def ThdNode.logsNumber (i : ℕ) : Bool :=
  if sfthdNode.type = .limit then i ≤ sfthdNode.count else i = sfthdNode.count

/-- The windows or periods; the first one starts with the first event. -/
def ThdNode.spans (ts : List ℤ) : List (List ℤ) :=
  if sfthdNode.type = .threshold then
    periods sfthdNode.count.toNat (sfthdNode.seconds : ℤ) (ts.headD 0) ts
  else windows (sfthdNode.seconds : ℤ) ts

/-- The events of one address that are to be logged, by their times. -/
def ThdNode.logs (ts : List ℤ) : List Bool :=
  (numbers (sfthdNode.spans ts)).map sfthdNode.logsNumber

/-- The number of an event in its window or period; `count` events of the one from `start` are over. -/
def ThdNode.number (start : ℤ) (count : ℕ) (t : ℤ) : ℕ :=
  if start + sfthdNode.seconds ≤ t then 1 else count + 1

/-- The start and the count behind an event. -/
def ThdNode.advance (start : ℤ) (count : ℕ) (t : ℤ) : ℤ × ℕ :=
  if sfthdNode.type = .threshold ∧ sfthdNode.number start count t = sfthdNode.count.toNat then (t, 0)
  else (if start + sfthdNode.seconds ≤ t then t else start, sfthdNode.number start count t)

/-- The numbers of the events. -/
def ThdNode.counts : ℤ × ℕ → List ℤ → List ℕ
  | _, [] => []
  | p, t :: ts => sfthdNode.number p.1 p.2 t :: ThdNode.counts (sfthdNode.advance p.1 p.2 t) ts

variable {sfthdNode}

theorem counts_of_threshold (h : sfthdNode.type = .threshold) (p : ℤ × ℕ) (ts : List ℤ) :
    sfthdNode.counts p ts = periodCounts sfthdNode.count.toNat (sfthdNode.seconds : ℤ) p.1 p.2 ts := by
  induction ts generalizing p with
  | nil => rfl
  | cons t ts ih =>
    unfold ThdNode.counts periodCounts
    rw [ih]
    unfold ThdNode.advance ThdNode.number
    simp only [h, true_and]
    congr 1
    split_ifs
    · rfl
    · rfl
    · rfl
    · rfl

theorem counts_of_ne_threshold (h : sfthdNode.type ≠ .threshold) (p : ℤ × ℕ) (ts : List ℤ) :
    sfthdNode.counts p ts = windowCounts (sfthdNode.seconds : ℤ) p.1 p.2 ts := by
  induction ts generalizing p with
  | nil => rfl
  | cons t ts ih =>
    unfold ThdNode.counts windowCounts
    rw [ih]
    have hadvance : sfthdNode.advance p.1 p.2 t =
        (if p.1 + sfthdNode.seconds ≤ t then t else p.1, sfthdNode.number p.1 p.2 t) :=
      if_neg fun h' => h h'.1
    rw [hadvance]
    unfold ThdNode.number
    split_ifs
    · rfl
    · rfl

theorem counts_filtered (f : ℕ) (p : ℤ × ℕ) (ts : List ℤ) :
    ThdNode.counts { sfthdNode with filtered := f } p ts = sfthdNode.counts p ts := by
  induction ts generalizing p with
  | nil => rfl
  | cons t ts ih => exact congrArg (sfthdNode.number p.1 p.2 t :: ·) (ih (sfthdNode.advance p.1 p.2 t))

/-- The numbers from the first event on. -/
theorem counts_first (hcount : 1 ≤ sfthdNode.count) (t : ℤ) (ts : List ℤ) :
    1 :: sfthdNode.counts (sfthdNode.advance t 0 t) ts = numbers (sfthdNode.spans (t :: ts)) := by
  have hnumber : sfthdNode.number t 0 t = 1 := by
    unfold ThdNode.number
    split
    · rfl
    · rfl
  have hcons : 1 :: sfthdNode.counts (sfthdNode.advance t 0 t) ts =
      sfthdNode.counts (t, 0) (t :: ts) := by
    rw [ThdNode.counts, hnumber]
  unfold ThdNode.spans
  by_cases h : sfthdNode.type = .threshold
  · rw [hcons, if_pos h, counts_of_threshold h, periodCounts_start _ (by omega)]
    rfl
  · have hadvance : sfthdNode.advance t 0 t = (t, 1) := by
      unfold ThdNode.advance
      rw [if_neg fun h' => h h'.1, hnumber, ite_self]
    rw [if_neg h, hadvance, counts_of_ne_threshold h, windowCounts_first]

end Spec

/-! ### The node of an address -/

/-- The node keeps the start and the count; a node that is made for the first of events that are all logged
keeps one event too many. -/
def Tracks (sfthdNode : ThdNode A) (ipNode : ThdIpNode) (p : ℤ × ℕ) : Prop :=
  ipNode.tstart = p.1 ∧
    if sfthdNode.type = .threshold then
      p.2 < sfthdNode.count ∧ (ipNode.count = p.2 ∨ sfthdNode.count = 1 ∧ ipNode.count ≤ 1)
    else ipNode.count = p.2

/-- No clock and no counter wraps with an event, and it does not start a window of `THD_TYPE_BOTH` anew
whose first event is to be logged. -/
structure Regular (sfthdNode : ThdNode A) (ipNode : ThdIpNode) (curtime : ℤ) : Prop where
  clock : sfthdNode.seconds ≤ u32 (curtime - ipNode.tstart) ↔ ipNode.tstart + sfthdNode.seconds ≤ curtime
  limit : sfthdNode.type = .limit → curtime < ipNode.tstart + sfthdNode.seconds → ipNode.count + 1 < 2 ^ 31
  both : sfthdNode.type = .both → curtime < ipNode.tstart + sfthdNode.seconds → ipNode.count + 1 < 2 ^ 32
  boundary : sfthdNode.type = .both → sfthdNode.count = 1 → curtime < ipNode.tstart + sfthdNode.seconds

/-- A threshold object that the three types of windows are about. -/
structure ThdNode.Valid (sfthdNode : ThdNode A) : Prop where
  type : sfthdNode.type = .limit ∨ sfthdNode.type = .threshold ∨ sfthdNode.type = .both
  count_pos : 1 ≤ sfthdNode.count
  count_lt : sfthdNode.count < 2 ^ 31
  seconds_pos : 1 ≤ sfthdNode.seconds

variable {sfthdNode : ThdNode A} {ipNode : ThdIpNode} {p : ℤ × ℕ} {t : ℤ}

theorem i32_of_lt {n : ℕ} (h : n < 2 ^ 31) : i32 n = n := by
  apply i32_of_range
  · omega
  · omega

/-- Of the counts below `2 ^ 32`, the limit is the only one that is neither below nor above it as an `int`. -/
theorem i32_logged {n : ℤ} (hn : 1 ≤ n) (hlt : n < 2 ^ 31) {i : ℕ} (hi : i < 2 ^ 32) :
    (i : ℤ) = n ↔ n ≤ i32 i ∧ ¬n < i32 i := by
  unfold i32
  constructor
  · intro h
    constructor
    · omega
    · omega
  · intro h
    omega

theorem late_iff (htracks : Tracks sfthdNode ipNode p) (hregular : Regular sfthdNode ipNode t) :
    sfthdNode.seconds ≤ u32 (t - ipNode.tstart) ↔ p.1 + sfthdNode.seconds ≤ t := by
  rw [hregular.clock, htracks.1]

theorem advance_of_ne (h : sfthdNode.type ≠ .threshold) :
    sfthdNode.advance p.1 p.2 t =
      (if p.1 + sfthdNode.seconds ≤ t then t else p.1, sfthdNode.number p.1 p.2 t) :=
  if_neg fun h' => h h'.1

theorem testNonSuppress_limit (hvalid : sfthdNode.Valid) (htype : sfthdNode.type = .limit)
    (htracks : Tracks sfthdNode ipNode p) (hregular : Regular sfthdNode ipNode t) :
    let q := sfthdTestNonSuppress sfthdNode { ipNode with count := u32 (ipNode.count + 1) } t
    decide (q.1 = 0) = sfthdNode.logsNumber (sfthdNode.number p.1 p.2 t) ∧
      Tracks sfthdNode q.2.2 (sfthdNode.advance p.1 p.2 t) := by
  have hlate := late_iff htracks hregular
  have hne : sfthdNode.type ≠ .threshold := by
    rw [htype]
    exact ThdType.noConfusion
  obtain ⟨hstart, hc⟩ := htracks
  rw [if_neg hne] at hc
  have hpos := hvalid.count_pos
  rw [advance_of_ne hne]
  unfold sfthdTestNonSuppress ThdNode.logsNumber ThdNode.number Tracks
  simp only [htype, hlate, if_true]
  by_cases h : p.1 + sfthdNode.seconds ≤ t
  · -- the first event of a window
    have hone : i32 ((1 : ℕ) : ℤ) ≤ sfthdNode.count := by
      rw [i32_of_lt (by norm_num)]
      exact_mod_cast hpos
    simp only [if_pos h]
    have hreset : i32 (({ ipNode with count := u32 (ipNode.count + 1) } : ThdIpNode).reset t).count ≤
        sfthdNode.count := hone
    rw [if_pos hreset]
    exact ⟨by simpa using hpos, rfl, rfl⟩
  · have hlt := hregular.limit htype (by omega)
    have hcount : u32 ((ipNode.count : ℤ) + 1) = p.2 + 1 := u32_of_eq (by omega) (by omega)
    have hint : i32 ((p.2 + 1 : ℕ) : ℤ) = ((p.2 + 1 : ℕ) : ℤ) := i32_of_lt (by omega)
    simp only [if_neg h, hcount, hint]
    by_cases hle : ((p.2 + 1 : ℕ) : ℤ) ≤ sfthdNode.count
    · rw [if_pos hle]
      exact ⟨by simpa using hle, hstart, rfl⟩
    · rw [if_neg hle]
      exact ⟨by simpa using hle, hstart, rfl⟩

theorem testNonSuppress_both (hvalid : sfthdNode.Valid) (htype : sfthdNode.type = .both)
    (htracks : Tracks sfthdNode ipNode p) (hregular : Regular sfthdNode ipNode t) :
    let q := sfthdTestNonSuppress sfthdNode { ipNode with count := u32 (ipNode.count + 1) } t
    decide (q.1 = 0) = sfthdNode.logsNumber (sfthdNode.number p.1 p.2 t) ∧
      Tracks sfthdNode q.2.2 (sfthdNode.advance p.1 p.2 t) := by
  have hlate := late_iff htracks hregular
  have hne : sfthdNode.type ≠ .threshold := by
    rw [htype]
    exact ThdType.noConfusion
  obtain ⟨hstart, hc⟩ := htracks
  rw [if_neg hne] at hc
  rw [advance_of_ne hne]
  unfold sfthdTestNonSuppress ThdNode.logsNumber ThdNode.number Tracks
  simp only [htype, hlate, reduceCtorEq, if_false]
  by_cases h : p.1 + sfthdNode.seconds ≤ t
  · -- the first event of a window is never logged here
    have hone : (1 : ℤ) ≠ sfthdNode.count := by
      intro hone
      have := hregular.boundary htype hone.symm
      omega
    simp only [if_pos h]
    exact ⟨by simp [hone], rfl, rfl⟩
  · have hlt := hregular.both htype (by omega)
    have hcount : u32 ((ipNode.count : ℤ) + 1) = p.2 + 1 := u32_of_eq (by omega) (by omega)
    simp only [if_neg h, hcount]
    have hlogged := i32_logged hvalid.count_pos hvalid.count_lt (i := p.2 + 1) (by omega)
    split_ifs with hge hgt
    · have hnot : ¬((p.2 + 1 : ℕ) : ℤ) = sfthdNode.count := fun h => (hlogged.1 h).2 hgt
      exact ⟨by simpa using hnot, hstart, rfl⟩
    · have heq := hlogged.2 ⟨hge, hgt⟩
      exact ⟨by simpa using heq, hstart, rfl⟩
    · have hnot : ¬((p.2 + 1 : ℕ) : ℤ) = sfthdNode.count := fun h => hge (hlogged.1 h).1
      exact ⟨by simpa using hnot, hstart, rfl⟩

theorem testNonSuppress_threshold (hvalid : sfthdNode.Valid) (htype : sfthdNode.type = .threshold)
    (htracks : Tracks sfthdNode ipNode p) (hregular : Regular sfthdNode ipNode t) :
    let q := sfthdTestNonSuppress sfthdNode { ipNode with count := u32 (ipNode.count + 1) } t
    decide (q.1 = 0) = sfthdNode.logsNumber (sfthdNode.number p.1 p.2 t) ∧
      Tracks sfthdNode q.2.2 (sfthdNode.advance p.1 p.2 t) := by
  have hlate := late_iff htracks hregular
  obtain ⟨hstart, hc⟩ := htracks
  rw [if_pos htype] at hc
  have hpos := hvalid.count_pos
  have hlt := hvalid.count_lt
  unfold sfthdTestNonSuppress ThdNode.logsNumber ThdNode.advance ThdNode.number Tracks
  simp only [htype, hlate, if_true, true_and, reduceCtorEq, if_false]
  by_cases h : p.1 + sfthdNode.seconds ≤ t
  · -- the first event of a period
    have hint : i32 (({ ipNode with count := u32 (ipNode.count + 1) } : ThdIpNode).reset t).count = 1 :=
      i32_of_lt (by norm_num [ThdIpNode.reset])
    simp only [if_pos h, hint]
    by_cases hone : sfthdNode.count ≤ 1
    · have heq : sfthdNode.count = 1 := le_antisymm hone hpos
      simp [heq]
    · have hne : 1 ≠ sfthdNode.count.toNat := by omega
      have hne' : (1 : ℤ) ≠ sfthdNode.count := by omega
      rw [if_neg hone, if_neg hne]
      exact ⟨by simp [hne'], rfl, by push_cast; omega, .inl rfl⟩
  · have hcount : u32 ((ipNode.count : ℤ) + 1) = ipNode.count + 1 := u32_of_eq (by omega) (by omega)
    have hint : i32 ((ipNode.count + 1 : ℕ) : ℤ) = ((ipNode.count + 1 : ℕ) : ℤ) := i32_of_lt (by omega)
    simp only [if_neg h, hcount, hint]
    by_cases hfull : sfthdNode.count ≤ ((ipNode.count + 1 : ℕ) : ℤ)
    · have heq : ((p.2 + 1 : ℕ) : ℤ) = sfthdNode.count := by omega
      have heq' : p.2 + 1 = sfthdNode.count.toNat := by omega
      rw [if_pos hfull, if_pos heq']
      exact ⟨by simpa using heq, rfl, by push_cast; omega, .inl rfl⟩
    · have hne : ((p.2 + 1 : ℕ) : ℤ) ≠ sfthdNode.count := by omega
      have hne' : p.2 + 1 ≠ sfthdNode.count.toNat := by omega
      rw [if_neg hfull, if_neg hne']
      exact ⟨by simpa using hne, hstart, by omega, .inl (by simp only; omega)⟩

theorem testNonSuppress_tracks (hvalid : sfthdNode.Valid) (htracks : Tracks sfthdNode ipNode p)
    (hregular : Regular sfthdNode ipNode t) :
    let q := sfthdTestNonSuppress sfthdNode { ipNode with count := u32 (ipNode.count + 1) } t
    decide (q.1 = 0) = sfthdNode.logsNumber (sfthdNode.number p.1 p.2 t) ∧
      Tracks sfthdNode q.2.2 (sfthdNode.advance p.1 p.2 t) := by
  rcases hvalid.type with htype | htype | htype
  · exact testNonSuppress_limit hvalid htype htracks hregular
  · exact testNonSuppress_threshold hvalid htype htracks hregular
  · exact testNonSuppress_both hvalid htype htracks hregular

/-- The test of the first event, on a copy of the data. -/
theorem testNonSuppress_first (hvalid : sfthdNode.Valid) (t : ℤ) :
    decide ((sfthdTestNonSuppress sfthdNode ⟨1, 0, t, t⟩ t).1 = 0) = sfthdNode.logsNumber 1 ∧
      Tracks sfthdNode ⟨1, 0, t, t⟩ (sfthdNode.advance t 0 t) := by
  have hpos := hvalid.count_pos
  have hseconds := hvalid.seconds_pos
  have hlate : ¬sfthdNode.seconds ≤ u32 (t - t) := by
    rw [sub_self]
    exact fun h => absurd (Nat.le_trans hseconds h) (by decide)
  have hearly : ¬t + (sfthdNode.seconds : ℤ) ≤ t := by omega
  have hint : i32 ((1 : ℕ) : ℤ) = 1 := rfl
  unfold sfthdTestNonSuppress ThdNode.logsNumber ThdNode.advance ThdNode.number Tracks
  rcases hvalid.type with htype | htype | htype
  · simp only [htype, hlate, hearly, hint, if_true, if_false, reduceCtorEq, false_and]
    simp [hpos]
  · simp only [htype, hlate, hearly, hint, if_true, if_false, reduceCtorEq, true_and]
    by_cases hone : sfthdNode.count ≤ 1
    · have heq : sfthdNode.count = 1 := le_antisymm hone hpos
      simp [heq]
    · have hne : 0 + 1 ≠ sfthdNode.count.toNat := by omega
      have hne' : (1 : ℤ) ≠ sfthdNode.count := by omega
      rw [if_neg hone, if_neg hne]
      exact ⟨by simp [hne'], rfl, by push_cast; omega, .inl rfl⟩
  · simp only [htype, hlate, hearly, hint, if_false, reduceCtorEq, false_and]
    by_cases hone : sfthdNode.count ≤ 1
    · have heq : sfthdNode.count = 1 := le_antisymm hone hpos
      simp [heq]
    · have hne' : (1 : ℤ) ≠ sfthdNode.count := by omega
      simp [hone, hne']

/-- An event only counts up the events that are filtered. -/
theorem testNonSuppress_object (ipNode : ThdIpNode) (t : ℤ) :
    ∃ f, (sfthdTestNonSuppress sfthdNode ipNode t).2.1 = { sfthdNode with filtered := f } := by
  have hcases : (sfthdTestNonSuppress sfthdNode ipNode t).2.1 = sfthdNode ∨
      (sfthdTestNonSuppress sfthdNode ipNode t).2.1 = sfthdNode.filter := by
    unfold sfthdTestNonSuppress
    dsimp only
    split
    · split_ifs <;> simp
    · split_ifs <;> simp
    · split_ifs <;> simp
    · split_ifs <;> simp
    · exact .inl rfl
  rcases hcases with h | h
  · exact ⟨sfthdNode.filtered, h⟩
  · exact ⟨_, h⟩

/-! ### Runs -/

variable [DecidableEq A] {localHash : ThdHash A} {e : Event A}

/-- The answers to a run of events for one object. -/
def sfthdRun : ThdHash A → ThdNode A → List (Event A) → List ℤ
  | _, _, [] => []
  | localHash, sfthdNode, e :: es =>
    let r := sfthdTestLocal localHash sfthdNode e
    r.1 :: sfthdRun r.2.2 r.2.1 es

/-- The times of the events of an address. -/
def times (sfthdNode : ThdNode A) (key : ThdIpNodeKey A) (es : List (Event A)) : List ℤ :=
  (es.filter fun e => sfthdNode.key e = key).map Event.curtime

/-- The events of an address that are logged. -/
def logged (localHash : ThdHash A) (sfthdNode : ThdNode A) (es : List (Event A))
    (key : ThdIpNodeKey A) : List Bool :=
  ((es.zip (sfthdRun localHash sfthdNode es)).filter fun r => sfthdNode.key r.1 = key).map
    fun r => decide (r.2 = 0)

/-- Every event that finds a node is regular. -/
def RegularRun : ThdHash A → ThdNode A → List (Event A) → Prop
  | _, _, [] => True
  | localHash, sfthdNode, e :: es =>
    (∀ ipNode, localHash.find (sfthdNode.key e) = some ipNode → Regular sfthdNode ipNode e.curtime) ∧
      let r := sfthdTestLocal localHash sfthdNode e
      RegularRun r.2.2 r.2.1 es

/-- The keys for which nodes are made. -/
def newKeys (localHash : ThdHash A) (sfthdNode : ThdNode A) (es : List (Event A)) :
    Finset (ThdIpNodeKey A) :=
  (es.map sfthdNode.key).toFinset.filter fun k => localHash.find k = none

theorem sfthdTestLocal_found (hvalid : sfthdNode.Valid)
    (h : localHash.find (sfthdNode.key e) = some ipNode) :
    let q := sfthdTestNonSuppress sfthdNode { ipNode with count := u32 (ipNode.count + 1) } e.curtime
    sfthdTestLocal localHash sfthdNode e =
      (q.1, q.2.1, (localHash.moveToFront (sfthdNode.key e) ipNode).setFront q.2.2) := by
  have hcount : sfthdNode.count ≠ thdNoThreshold := by
    have := hvalid.count_pos
    unfold thdNoThreshold
    omega
  have htype : sfthdNode.type ≠ .suppress := by
    rcases hvalid.type with h | h | h
    · simp [h]
    · simp [h]
    · simp [h]
  unfold sfthdTestLocal
  rw [if_neg hcount, if_neg htype]
  simp only [sfxhashAdd_found _ h]
  rfl

theorem sfthdTestLocal_new (hvalid : sfthdNode.Valid)
    (h : localHash.find (sfthdNode.key e) = none) (hroom : 0 < localHash.room) :
    let q := sfthdTestNonSuppress sfthdNode ⟨1, 0, e.curtime, e.curtime⟩ e.curtime
    sfthdTestLocal localHash sfthdNode e =
      (q.1, q.2.1, { localHash with
        nodes := (sfthdNode.key e, ⟨1, 0, e.curtime, e.curtime⟩) :: localHash.nodes
        room := localHash.room - 1 }) := by
  have hcount : sfthdNode.count ≠ thdNoThreshold := by
    have := hvalid.count_pos
    unfold thdNoThreshold
    omega
  have htype : sfthdNode.type ≠ .suppress := by
    rcases hvalid.type with h | h | h
    · simp [h]
    · simp [h]
    · simp [h]
  unfold sfthdTestLocal
  rw [if_neg hcount, if_neg htype]
  simp only [sfxhashAdd_new _ h hroom]

theorem logged_cons (localHash : ThdHash A) (es : List (Event A)) (key : ThdIpNodeKey A)
    {f : ℕ} (hobject : (sfthdTestLocal localHash sfthdNode e).2.1 = { sfthdNode with filtered := f }) :
    logged localHash sfthdNode (e :: es) key =
      (if sfthdNode.key e = key then [decide ((sfthdTestLocal localHash sfthdNode e).1 = 0)] else []) ++
        logged (sfthdTestLocal localHash sfthdNode e).2.2 { sfthdNode with filtered := f } es key := by
  unfold logged
  rw [sfthdRun]
  simp only [hobject]
  rw [List.zip_cons_cons, List.filter_cons]
  by_cases h : sfthdNode.key e = key
  · simp [h]
    rfl
  · simp [h]
    rfl

theorem times_cons (es : List (Event A)) (key : ThdIpNodeKey A) :
    times sfthdNode key (e :: es) =
      (if sfthdNode.key e = key then [e.curtime] else []) ++ times sfthdNode key es := by
  unfold times
  rw [List.filter_cons]
  by_cases h : sfthdNode.key e = key
  · simp [h]
  · simp [h]

/-- What an event does with the nodes. -/
theorem sfthdTestLocal_step (hvalid : sfthdNode.Valid)
    (hroom : localHash.find (sfthdNode.key e) = none → 0 < localHash.room) :
    ∃ f ipNode', (sfthdTestLocal localHash sfthdNode e).2.1 = { sfthdNode with filtered := f } ∧
      (∀ k, (sfthdTestLocal localHash sfthdNode e).2.2.find k =
        if sfthdNode.key e = k then some ipNode' else localHash.find k) ∧
      (∀ ipNode, localHash.find (sfthdNode.key e) = some ipNode →
        (sfthdTestLocal localHash sfthdNode e).2.2.room = localHash.room ∧
        ((sfthdTestLocal localHash sfthdNode e).1, ipNode') =
          let q := sfthdTestNonSuppress sfthdNode { ipNode with count := u32 (ipNode.count + 1) } e.curtime
          (q.1, q.2.2)) ∧
      (localHash.find (sfthdNode.key e) = none →
        (sfthdTestLocal localHash sfthdNode e).2.2.room = localHash.room - 1 ∧
        ((sfthdTestLocal localHash sfthdNode e).1, ipNode') =
          ((sfthdTestNonSuppress sfthdNode ⟨1, 0, e.curtime, e.curtime⟩ e.curtime).1,
            ⟨1, 0, e.curtime, e.curtime⟩)) := by
  cases h : localHash.find (sfthdNode.key e) with
  | some ipNode =>
    obtain ⟨f, hf⟩ := @testNonSuppress_object A sfthdNode
      { ipNode with count := u32 (ipNode.count + 1) } e.curtime
    rw [sfthdTestLocal_found hvalid h]
    refine ⟨f, _, hf, find_setFront_moveToFront _ _ _ _, fun d hd => ?_, fun hd => absurd hd (Option.some_ne_none _)⟩
    obtain rfl := Option.some.inj hd
    exact ⟨rfl, rfl⟩
  | none =>
    obtain ⟨f, hf⟩ := @testNonSuppress_object A sfthdNode
      ⟨1, 0, e.curtime, e.curtime⟩ e.curtime
    rw [sfthdTestLocal_new hvalid h (hroom h)]
    exact ⟨f, _, hf, fun k => find_cons _ _ _ _ k, fun d hd => absurd hd.symm (Option.some_ne_none d),
      fun _ => ⟨rfl, rfl⟩⟩

/-- There is memory left behind an event. -/
theorem card_newKeys_step {t' : ThdHash A} {ipNode' : ThdIpNode} {es : List (Event A)}
    (hroom : (newKeys localHash sfthdNode (e :: es)).card ≤ localHash.room)
    (hfind : ∀ k, t'.find k = if sfthdNode.key e = k then some ipNode' else localHash.find k)
    (hfound : ∀ d, localHash.find (sfthdNode.key e) = some d → t'.room = localHash.room)
    (hnew : localHash.find (sfthdNode.key e) = none → t'.room = localHash.room - 1) :
    (newKeys t' sfthdNode es).card ≤ t'.room := by
  have hmem : ∀ k ∈ newKeys t' sfthdNode es,
      k ≠ sfthdNode.key e ∧ k ∈ newKeys localHash sfthdNode (e :: es) := by
    intro k hk
    unfold newKeys at hk ⊢
    rw [Finset.mem_filter, hfind] at hk
    by_cases hkey : sfthdNode.key e = k
    · rw [if_pos hkey] at hk
      exact absurd hk.2 (Option.some_ne_none _)
    · rw [if_neg hkey] at hk
      refine ⟨Ne.symm hkey, Finset.mem_filter.2 ⟨?_, hk.2⟩⟩
      rw [List.map_cons, List.toFinset_cons]
      exact Finset.mem_insert_of_mem hk.1
  cases h : localHash.find (sfthdNode.key e) with
  | some d =>
    rw [hfound d h]
    exact (Finset.card_le_card fun k hk => (hmem k hk).2).trans hroom
  | none =>
    rw [hnew h]
    have hkey : sfthdNode.key e ∈ newKeys localHash sfthdNode (e :: es) :=
      Finset.mem_filter.2 ⟨by simp, h⟩
    have herase := Finset.card_le_card fun k (hk : k ∈ newKeys t' sfthdNode es) =>
      Finset.mem_erase.2 (hmem k hk)
    rw [Finset.card_erase_of_mem hkey] at herase
    omega

/-- The events of one address: those that find a node and those for which one is made. -/
theorem logged_run (es : List (Event A)) (key : ThdIpNodeKey A) (hvalid : sfthdNode.Valid)
    (hroom : (newKeys localHash sfthdNode es).card ≤ localHash.room)
    (hregular : RegularRun localHash sfthdNode es) :
    (∀ ipNode p, localHash.find key = some ipNode → Tracks sfthdNode ipNode p →
      logged localHash sfthdNode es key =
        (sfthdNode.counts p (times sfthdNode key es)).map sfthdNode.logsNumber) ∧
    (localHash.find key = none →
      logged localHash sfthdNode es key = sfthdNode.logs (times sfthdNode key es)) := by
  induction es generalizing localHash sfthdNode with
  | nil =>
    refine ⟨fun _ _ _ _ => rfl, fun _ => ?_⟩
    simp [logged, times, sfthdRun, ThdNode.logs, ThdNode.spans, numbers, periods.eq_def, windows.eq_def]
  | cons e es ih =>
    have hmemory : localHash.find (sfthdNode.key e) = none → 0 < localHash.room := by
      intro h
      have hkey : sfthdNode.key e ∈ newKeys localHash sfthdNode (e :: es) :=
        Finset.mem_filter.2 ⟨by simp, h⟩
      exact (Finset.card_pos.2 ⟨_, hkey⟩).trans_le hroom
    obtain ⟨f, ipNode', hobject, hfind, hfound, hnew⟩ := sfthdTestLocal_step hvalid hmemory
    have hvalid' : ThdNode.Valid { sfthdNode with filtered := f } :=
      ⟨hvalid.type, hvalid.count_pos, hvalid.count_lt, hvalid.seconds_pos⟩
    have hregular' : RegularRun (sfthdTestLocal localHash sfthdNode e).2.2
      (sfthdTestLocal localHash sfthdNode e).2.1 es := hregular.2
    rw [hobject] at hregular'
    have ih' := ih hvalid'
      (card_newKeys_step hroom hfind (fun d h => (hfound d h).1) (fun h => (hnew h).1)) hregular'
    rw [logged_cons localHash es key hobject, times_cons]
    by_cases hkey : sfthdNode.key e = key
    · subst hkey
      have hnext := hfind (sfthdNode.key e)
      simp only [if_true] at hnext ⊢
      constructor
      · intro ipNode p h htracks
        obtain ⟨hans, hnode⟩ := Prod.mk.inj (hfound ipNode h).2
        obtain ⟨hlog, htracks'⟩ := testNonSuppress_tracks hvalid htracks (hregular.1 ipNode h)
        rw [hans, hlog, ih'.1 ipNode' _ hnext (hnode ▸ htracks'), counts_filtered]
        rfl
      · intro h
        obtain ⟨hans, hnode⟩ := Prod.mk.inj (hnew h).2
        obtain ⟨hlog, htracks⟩ := testNonSuppress_first hvalid e.curtime
        unfold ThdNode.logs
        rw [hans, hlog, ih'.1 ipNode' _ hnext (hnode ▸ htracks), counts_filtered,
          List.singleton_append, List.singleton_append, ← counts_first hvalid.count_pos]
        rfl
    · have hnext := hfind key
      rw [if_neg hkey] at hnext
      rw [if_neg hkey, if_neg hkey, List.nil_append, List.nil_append]
      constructor
      · intro ipNode p h htracks
        rw [ih'.1 ipNode p (hnext.trans h) htracks, counts_filtered]
        rfl
      · intro h
        exact ih'.2 (hnext.trans h)

/-- **The events of each address are logged as they are to be**, in every run of regular events for an object
without nodes in the table, with memory for a node of each address. -/
theorem logged_eq (hvalid : sfthdNode.Valid) (hnew : ∀ k, k.thdId = sfthdNode.thdId → localHash.find k = none)
    (es : List (Event A)) (hroom : (es.map sfthdNode.key).toFinset.card ≤ localHash.room)
    (hregular : RegularRun localHash sfthdNode es) (policyId : ℕ) (ip : A) :
    logged localHash sfthdNode es ⟨sfthdNode.thdId, ip, policyId⟩ =
      sfthdNode.logs (times sfthdNode ⟨sfthdNode.thdId, ip, policyId⟩ es) := by
  apply (logged_run es _ hvalid _ hregular).2
  · exact hnew _ rfl
  · exact (Finset.card_filter_le _ _).trans hroom

/-- Two events in 60 seconds, as `THD_TYPE_BOTH` with count 2. -/
def twiceInSixty : ThdNode ℕ := ⟨1, .src, .both, 2, 60, 0, none⟩

/-- Two events of the address 7 in 60 seconds and one behind them, with an event of the address 9. -/
def fourEvents : List (Event ℕ) := [⟨0, 7, 8, 0⟩, ⟨0, 9, 8, 1⟩, ⟨0, 7, 8, 59⟩, ⟨0, 7, 8, 60⟩]

theorem regularRun_fourEvents : RegularRun ⟨[], 2, true⟩ twiceInSixty fourEvents := by
  refine ⟨fun d h => ?_, fun d h => ?_, fun d h => ?_, fun d h => ?_, trivial⟩
  · exact absurd h.symm (Option.some_ne_none d)
  · exact absurd h.symm (Option.some_ne_none d)
  · obtain rfl : ⟨1, 0, 0, 0⟩ = d := Option.some.inj h
    exact ⟨by decide, by decide, by decide, by decide⟩
  · obtain rfl : ⟨2, 0, 0, 0⟩ = d := Option.some.inj h
    exact ⟨by decide, by decide, by decide, by decide⟩

theorem logged_fourEvents :
    logged ⟨[], 2, true⟩ twiceInSixty fourEvents ⟨1, 7, 0⟩ =
      twiceInSixty.logs (times twiceInSixty ⟨1, 7, 0⟩ fourEvents) :=
  logged_eq ⟨.inr (.inr rfl), by decide, by decide, by decide⟩ (fun _ _ => rfl) fourEvents (by decide)
    regularRun_fourEvents 0 7

/-! ### A window that starts anew -/

/-- One event in 60 seconds, as `THD_TYPE_BOTH` with count 1. -/
def onceInSixty : ThdNode ℕ := ⟨1, .src, .both, 1, 60, 0, none⟩

/-- Two windows with one event each. -/
def twoWindows : List (Event ℕ) := [⟨0, 7, 8, 0⟩, ⟨0, 7, 8, 60⟩]

/-- Memory for one node. -/
def oneNode : ThdHash ℕ := ⟨[], 1, true⟩

/-- The second event is the first one of its window, and is not logged. -/
theorem boundary_event_lost :
    logged oneNode onceInSixty twoWindows ⟨1, 7, 0⟩ ≠
      onceInSixty.logs (times onceInSixty ⟨1, 7, 0⟩ twoWindows) := by
  have hlogs : onceInSixty.logs (times onceInSixty ⟨1, 7, 0⟩ twoWindows) = [true, true] := by
    have htimes : times onceInSixty ⟨1, 7, 0⟩ twoWindows = [0, 60] := by decide
    rw [htimes]
    simp [ThdNode.logs, ThdNode.spans, ThdNode.logsNumber, windows, numbers, onceInSixty]
  have hlogged : logged oneNode onceInSixty twoWindows ⟨1, 7, 0⟩ = [true, false] := by decide
  rw [hlogs, hlogged]
  decide

end Snort.Threshold
