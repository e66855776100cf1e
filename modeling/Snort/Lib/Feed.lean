import Snort.Lib.CInt
import Snort.Lib.Scanner

/-!
# Scanners that announce flush points

A scanner reads a stream that comes in segments.  Where it stops, it announces a flush point, as an offset in
the data of the call, and it starts again there; or it gives up.  The offset is the index of the byte at which
it stops and a displacement, in 32-bit arithmetic.

* `feedAll`: the calls for a list of segments; `events`: where they stop, and the flush points they announce;
* `Points`: the same for the stream, where it comes in one piece and offsets are integers;
* **`events_eq`**: if the offset of every call is exact then both are the same, and every call is where the stream
  says, `Placed`;
* `mem_feedAll`: which data a call is given.
-/

namespace Feed

open Scanner CInt

variable {σ β : Type*}

/-- `PAF_Status`, with the state or the flush point. -/
inductive Verdict (σ : Type*)
  | search (s : σ)
  | flush (fp : ℕ)
  | abort
  deriving DecidableEq

/-- A scanner: its first state, in which it is behind a flush point, and its step, which gives a displacement
where it stops, or nothing where it gives up. -/
structure Callback (σ β : Type*) where
  start : σ
  step : σ → β → σ ⊕ Option ℤ

/-- A call of the scanner. -/
structure Call (σ β : Type*) where
  pos : ℕ
  s : σ
  data : List β
  deriving DecidableEq

/-- A position of the stream at which a segment ends. -/
def Boundary (segs : List (List β)) (e : ℕ) : Prop :=
  ∃ before after, segs = before ++ after ∧ before.flatten.length = e

namespace Callback

variable (cb : Callback σ β)

/-- What a scanner says to the data of a call. -/
def verdict (s : σ) (data : List β) : Verdict σ :=
  match run cb.step s data with
  | .more s' => .search s'
  | .stop (some d) n => .flush (u32 (n - 1 + d))
  | .stop none _ => .abort

/-- The calls for the data of a segment from a position on, and the state behind it with what the flush point is
ahead of it; nothing where the scanner has given up.  The fuel bounds the number of calls. -/
def feed : ℕ → σ → (pos : ℕ) → List β → Option (σ × ℕ) × List (Call σ β)
  | 0, _, _, _ => (none, [])
  | fuel + 1, s, pos, data =>
    match cb.verdict s data with
    | .search s' => (some (s', 0), [⟨pos, s, data⟩])
    | .abort => (none, [⟨pos, s, data⟩])
    | .flush fp =>
      if data.length ≤ fp then (some (cb.start, fp - data.length), [⟨pos, s, data⟩])
      else
        let r := feed fuel cb.start (pos + fp) (data.drop fp)
        (r.1, ⟨pos, s, data⟩ :: r.2)

/-- The calls for some segments, of which a part in front is passed over. -/
def feedAll : σ → (ahead pos : ℕ) → List (List β) → List (Call σ β)
  | _, _, _, [] => []
  | s, ahead, pos, seg :: segs =>
    if seg.length ≤ ahead then feedAll s (ahead - seg.length) (pos + seg.length) segs
    else
      let r := cb.feed (seg.length + 2) s (pos + ahead) (seg.drop ahead)
      match r.1 with
      | none => r.2
      | some (s', ahead') => r.2 ++ feedAll s' ahead' (pos + seg.length) segs

/-- The calls for a stream in segments. -/
def calls (segs : List (List β)) : List (Call σ β) := cb.feedAll cb.start 0 0 segs

/-- The index at which a call stops, and the offset that it announces. -/
def announced (c : Call σ β) : Option (ℕ × ℕ) :=
  match run cb.step c.s c.data with
  | .stop (some d) n => some (n - 1, u32 (n - 1 + d))
  | _ => none

/-- Where in the stream some calls stop, and the flush points that they announce. -/
def events (cs : List (Call σ β)) : List (ℕ × ℕ) :=
  cs.filterMap fun c => (cb.announced c).map fun a => (c.pos + a.1, c.pos + a.2)

/-- The flush points of a stream in segments. -/
def flushPoints (segs : List (List β)) : List ℕ := (cb.events (cb.calls segs)).map Prod.snd

/-- The offset of a call, if it announces one, is the exact one. -/
def Exact (c : Call σ β) : Prop :=
  ∀ d n, run cb.step c.s c.data = .stop (some d) n → 0 ≤ (n : ℤ) - 1 + d ∧ (n : ℤ) - 1 + d < 2 ^ 32

/-- Where the scanner stops in a stream from a position on, and the flush points. -/
inductive Points : ℕ → List β → List (ℕ × ℕ) → Prop
  | done {q : ℕ} {data : List β} (h : ∀ d n, run cb.step cb.start data ≠ .stop (some d) n) : Points q data []
  | flush {q p n : ℕ} {d : ℤ} {data : List β} {ps : List (ℕ × ℕ)}
    (h : run cb.step cb.start data = .stop (some d) n) (hp : (p : ℤ) = n - 1 + d)
    (hps : Points (q + p) (data.drop p) ps) : Points q data ((q + (n - 1), q + p) :: ps)

/-- From its first state on the scanner announces a flush point ahead of it. -/
def Advances : Prop :=
  ∀ data d n, run cb.step cb.start data = .stop (some d) n → 1 ≤ (n : ℤ) - 1 + d

/-- Where the scanner is: at a position, in a state that it came into by what it read from `q` on, behind which
the flush points `ps` are. -/
structure At (s : σ) (pos : ℕ) (later : List β) (ps : List (ℕ × ℕ)) (pre : List β) (q : ℕ) : Prop where
  reached : run cb.step cb.start pre = .more s
  pos_eq : q + pre.length = pos
  points : cb.Points q (pre ++ later) ps

/-- A call is where a stream with the flush points `ps` says. -/
def Placed (ps : List (ℕ × ℕ)) (c : Call σ β) : Prop :=
  ∃ pre q ps' later, cb.At c.s c.pos (c.data ++ later) ps' pre q ∧ ps' <:+ ps

variable {cb}

theorem Placed.mono {ps ps' : List (ℕ × ℕ)} {c : Call σ β} (h : cb.Placed ps c) (hps : ps <:+ ps') :
    cb.Placed ps' c := by
  obtain ⟨pre, q, qs, later, hat, hqs⟩ := h
  exact ⟨pre, q, qs, later, hat, hqs.trans hps⟩

theorem Points.eq_nil {q : ℕ} {data : List β} {ps : List (ℕ × ℕ)} (h : cb.Points q data ps)
    (hnone : ∀ d n, run cb.step cb.start data ≠ .stop (some d) n) : ps = [] := by
  cases h with
  | done => rfl
  | flush hrun => exact absurd hrun (hnone _ _)

theorem Points.eq_cons {q p n : ℕ} {d : ℤ} {data : List β} {ps : List (ℕ × ℕ)} (h : cb.Points q data ps)
    (hrun : run cb.step cb.start data = .stop (some d) n) (hp : (p : ℤ) = n - 1 + d) :
    ∃ ps', ps = (q + (n - 1), q + p) :: ps' ∧ cb.Points (q + p) (data.drop p) ps' := by
  cases h with
  | done hnone => exact absurd hrun (hnone _ _)
  | @flush _ p' n' d' _ ps' hrun' hp' hps =>
    rw [hrun] at hrun'
    cases hrun'
    obtain rfl : p' = p := by omega
    exact ⟨ps', rfl, hps⟩

/-- Every stream has its flush points. -/
theorem exists_points (hadv : cb.Advances) (q : ℕ) (data : List β) : ∃ ps, cb.Points q data ps := by
  induction hlen : data.length using Nat.strong_induction_on generalizing q data with
  | _ len ih =>
    by_cases hstop : ∃ d n, run cb.step cb.start data = .stop (some d) n
    · obtain ⟨d, n, hrun⟩ := hstop
      have hp := hadv data d n hrun
      have hn := length_of_stop hrun
      obtain ⟨p, hp'⟩ : ∃ p : ℕ, (p : ℤ) = n - 1 + d := ⟨((n : ℤ) - 1 + d).toNat, by omega⟩
      obtain ⟨ps, hps⟩ := ih (data.drop p).length (by rw [List.length_drop]; omega) (q + p) (data.drop p) rfl
      exact ⟨_, .flush hrun hp' hps⟩
    · exact ⟨[], .done fun d n h => hstop ⟨d, n, h⟩⟩

/-! ### The calls -/

theorem feed_search {fuel : ℕ} {s s' : σ} {pos : ℕ} {data : List β} (h : cb.verdict s data = .search s') :
    cb.feed (fuel + 1) s pos data = (some (s', 0), [⟨pos, s, data⟩]) := by
  rw [feed, h]

theorem feed_abort {fuel : ℕ} {s : σ} {pos : ℕ} {data : List β} (h : cb.verdict s data = .abort) :
    cb.feed (fuel + 1) s pos data = (none, [⟨pos, s, data⟩]) := by
  rw [feed, h]

theorem feed_flush_ahead {fuel : ℕ} {s : σ} {pos fp : ℕ} {data : List β} (h : cb.verdict s data = .flush fp)
    (hle : data.length ≤ fp) :
    cb.feed (fuel + 1) s pos data = (some (cb.start, fp - data.length), [⟨pos, s, data⟩]) := by
  rw [feed, h]
  simp only [if_pos hle]

theorem feed_flush_inside {fuel : ℕ} {s : σ} {pos fp : ℕ} {data : List β} (h : cb.verdict s data = .flush fp)
    (hlt : fp < data.length) :
    cb.feed (fuel + 1) s pos data = ((cb.feed fuel cb.start (pos + fp) (data.drop fp)).1,
      ⟨pos, s, data⟩ :: (cb.feed fuel cb.start (pos + fp) (data.drop fp)).2) := by
  rw [feed, h]
  simp only [if_neg (by omega : ¬data.length ≤ fp)]

theorem feedAll_cons_ahead {s : σ} {ahead : ℕ} {seg : List β} (hle : seg.length ≤ ahead) (pos : ℕ)
    (segs : List (List β)) :
    cb.feedAll s ahead pos (seg :: segs) = cb.feedAll s (ahead - seg.length) (pos + seg.length) segs := by
  rw [feedAll, if_pos hle]

theorem feedAll_cons_none {s : σ} {ahead pos : ℕ} {seg : List β} (hlt : ¬seg.length ≤ ahead)
    (h : (cb.feed (seg.length + 2) s (pos + ahead) (seg.drop ahead)).1 = none) (segs : List (List β)) :
    cb.feedAll s ahead pos (seg :: segs) = (cb.feed (seg.length + 2) s (pos + ahead) (seg.drop ahead)).2 := by
  rw [feedAll, if_neg hlt]
  simp only [h]

theorem feedAll_cons_some {s s' : σ} {ahead ahead' pos : ℕ} {seg : List β} (hlt : ¬seg.length ≤ ahead)
    (h : (cb.feed (seg.length + 2) s (pos + ahead) (seg.drop ahead)).1 = some (s', ahead'))
    (segs : List (List β)) :
    cb.feedAll s ahead pos (seg :: segs) = (cb.feed (seg.length + 2) s (pos + ahead) (seg.drop ahead)).2 ++
      cb.feedAll s' ahead' (pos + seg.length) segs := by
  rw [feedAll, if_neg hlt]
  simp only [h]

@[simp] theorem events_nil : cb.events [] = [] := rfl

@[simp] theorem events_append (cs cs' : List (Call σ β)) :
    cb.events (cs ++ cs') = cb.events cs ++ cb.events cs' := List.filterMap_append

theorem events_cons_some {c : Call σ β} {i fp : ℕ} (h : cb.announced c = some (i, fp)) (cs : List (Call σ β)) :
    cb.events (c :: cs) = (c.pos + i, c.pos + fp) :: cb.events cs := by
  simp [events, h]

theorem events_cons_none {c : Call σ β} (h : cb.announced c = none) (cs : List (Call σ β)) :
    cb.events (c :: cs) = cb.events cs := by
  simp [events, h]

theorem head_mem_feed (fuel : ℕ) (s : σ) (pos : ℕ) (data : List β) :
    (⟨pos, s, data⟩ : Call σ β) ∈ (cb.feed (fuel + 1) s pos data).2 := by
  cases hverdict : cb.verdict s data with
  | search s' =>
    rw [feed_search hverdict]
    exact List.mem_singleton_self _
  | abort =>
    rw [feed_abort hverdict]
    exact List.mem_singleton_self _
  | flush fp =>
    rcases Nat.lt_or_ge fp data.length with h | h
    · rw [feed_flush_inside hverdict h]
      exact List.mem_cons_self
    · rw [feed_flush_ahead hverdict h]
      exact List.mem_singleton_self _

/-- A stop behind what was read before. -/
theorem At.run_of_stop {s : σ} {pos q n : ℕ} {data later pre : List β} {ps : List (ℕ × ℕ)} {r : Option ℤ}
    (h : cb.At s pos (data ++ later) ps pre q) (hrun : run cb.step s data = .stop r n) :
    run cb.step cb.start (pre ++ (data ++ later)) = .stop r (n + pre.length) := by
  rw [run_append_more _ h.reached, run_append_stop _ hrun, Outcome.shift_stop]

/-- The calls for the data of a segment announce the flush points up to those behind it. -/
theorem feed_spec (hadv : cb.Advances) {fuel : ℕ} {s : σ} {pos q : ℕ} {data later pre : List β}
    {ps : List (ℕ × ℕ)}
    (hfuel : data.length + (if pre = [] then 1 else 2) ≤ fuel) (hat : cb.At s pos (data ++ later) ps pre q)
    (hexact : ∀ c ∈ (cb.feed fuel s pos data).2, cb.Placed ps c → cb.Exact c) :
    (∀ c ∈ (cb.feed fuel s pos data).2, cb.Placed ps c) ∧ ∃ ps₁ ps₂, ps = ps₁ ++ ps₂ ∧ cb.events (cb.feed fuel s pos data).2 = ps₁ ∧
      ((cb.feed fuel s pos data).1 = none → ps₂ = []) ∧
      ∀ s' ahead, (cb.feed fuel s pos data).1 = some (s', ahead) →
        ∃ pre' q', (0 < ahead → pre' = []) ∧
          cb.At s' (pos + data.length + ahead) (later.drop ahead) ps₂ pre' q' := by
  induction fuel generalizing s pos q data pre ps with
  | zero =>
    have : 0 < (if pre = [] then 1 else 2) := by split <;> omega
    omega
  | succ fuel ih =>
    have hplaced : cb.Placed ps ⟨pos, s, data⟩ := ⟨pre, q, ps, later, hat, List.suffix_rfl⟩
    cases hrun : run cb.step s data with
    | more s' =>
      have hnone : cb.announced ⟨pos, s, data⟩ = none := by rw [announced, hrun]
      rw [feed_search (by rw [verdict, hrun])]
      refine ⟨by simpa using hplaced, [], ps, rfl, events_cons_none hnone [], by simp, ?_⟩
      rintro _ _ ⟨⟩
      refine ⟨pre ++ data, q, fun h => absurd h (lt_irrefl 0), ?_, ?_, ?_⟩
      · rw [run_append_more _ hat.reached, hrun, Outcome.shift_more]
      · rw [List.length_append, ← Nat.add_assoc, hat.pos_eq, Nat.add_zero]
      · rw [List.append_assoc, List.drop_zero]
        exact hat.points
    | stop r n =>
      have hstop := hat.run_of_stop hrun
      cases r with
      | none =>
        have hnone : cb.announced ⟨pos, s, data⟩ = none := by rw [announced, hrun]
        obtain rfl := hat.points.eq_nil fun d n h => by rw [hstop] at h; cases h
        rw [feed_abort (by rw [verdict, hrun])]
        exact ⟨by simpa using hplaced, [], [], rfl, events_cons_none hnone [], fun _ => rfl, by simp⟩
      | some d =>
        obtain ⟨hnonneg, hlt⟩ := hexact _ (head_mem_feed fuel s pos data) hplaced d n hrun
        obtain ⟨fp, hfp⟩ : ∃ fp : ℕ, (fp : ℤ) = n - 1 + d := ⟨((n : ℤ) - 1 + d).toNat, by omega⟩
        have hu32 : u32 (n - 1 + d) = fp := by rw [← hfp, u32_of_eq rfl (by omega)]
        have hverdict : cb.verdict s data = .flush fp := by
          rw [verdict, hrun, ← hu32]
        have hevent : cb.announced ⟨pos, s, data⟩ = some (n - 1, fp) := by
          rw [announced, hrun, ← hu32]
        obtain ⟨ps', rfl, hps⟩ := hat.points.eq_cons (p := fp + pre.length) hstop (by push_cast; omega)
        have hn := (length_of_stop hrun).1
        have hpoint : q + (fp + pre.length) = pos + fp := by
          have := hat.pos_eq
          omega
        have hindex : q + (n + pre.length - 1) = pos + (n - 1) := by
          have := hat.pos_eq
          omega
        have hdrop : (pre ++ (data ++ later)).drop (fp + pre.length) = (data ++ later).drop fp := by
          rw [Nat.add_comm, ← List.drop_drop, List.drop_left]
        rw [hpoint, hdrop] at hps
        rw [hpoint, hindex]
        rcases Nat.lt_or_ge fp data.length with hin | hle
        · rw [feed_flush_inside hverdict hin] at hexact ⊢
          rw [List.drop_append_of_le_length (by omega)] at hps
          have hfuel' : (data.drop fp).length + (if ([] : List β) = [] then 1 else 2) ≤ fuel := by
            rw [if_pos rfl, List.length_drop]
            by_cases hpre : pre = []
            · -- a scanner in its first state goes ahead
              subst hpre
              have hs : cb.start = s := by simpa using hat.reached
              have := hadv data d n (by rw [hs]; exact hrun)
              rw [if_pos rfl] at hfuel
              omega
            · rw [if_neg hpre] at hfuel
              omega
          have hat' : cb.At cb.start (pos + fp) (data.drop fp ++ later) ps' [] (pos + fp) := ⟨rfl, rfl, hps⟩
          obtain ⟨hrest, ps₁, ps₂, rfl, hevents, hnone, hsome⟩ := ih hfuel' hat' fun c hc hc' =>
            hexact c (List.mem_cons_of_mem _ hc) (hc'.mono (by rw [hpoint, hindex]; exact List.suffix_cons _ _))
          refine ⟨?_, (pos + (n - 1), pos + fp) :: ps₁, ps₂, rfl, ?_, hnone, fun s' ahead h => ?_⟩
          · rw [hpoint, hindex] at hplaced
            rw [List.forall_mem_cons]
            exact ⟨hplaced, fun c hc => (hrest c hc).mono (List.suffix_cons _ _)⟩
          · rw [events_cons_some hevent, hevents]
          · have hpos : pos + fp + (data.drop fp).length = pos + data.length := by
              rw [List.length_drop]
              omega
            rw [← hpos]
            exact hsome s' ahead h
        · rw [feed_flush_ahead hverdict hle]
          rw [hpoint, hindex] at hplaced
          refine ⟨by simpa using hplaced, [(pos + (n - 1), pos + fp)], ps', rfl, events_cons_some hevent [],
            by simp, ?_⟩
          rintro _ _ ⟨⟩
          have hpos : pos + data.length + (fp - data.length) = pos + fp := by omega
          rw [List.drop_append, List.drop_of_length_le hle, List.nil_append] at hps
          exact ⟨[], pos + fp, fun _ => rfl, rfl, by rw [hpos]; rfl, hps⟩

/-- The calls for some segments announce the flush points of what is left of the stream. -/
theorem feedAll_spec (hadv : cb.Advances) {s : σ} {ahead pos q : ℕ} {segs : List (List β)} {pre : List β}
    {ps : List (ℕ × ℕ)} (hpre : 0 < ahead → pre = [])
    (hat : cb.At s (pos + ahead) (segs.flatten.drop ahead) ps pre q)
    (hexact : ∀ c ∈ cb.feedAll s ahead pos segs, cb.Placed ps c → cb.Exact c) :
    cb.events (cb.feedAll s ahead pos segs) = ps ∧ ∀ c ∈ cb.feedAll s ahead pos segs, cb.Placed ps c := by
  induction segs generalizing s ahead pos q pre ps with
  | nil =>
    have hnil : cb.Points q pre ps := by simpa using hat.points
    rw [hnil.eq_nil fun d n h => by rw [hat.reached] at h; cases h]
    exact ⟨rfl, fun c hc => by cases hc⟩
  | cons seg segs ih =>
    by_cases hle : seg.length ≤ ahead
    · rw [feedAll_cons_ahead hle] at hexact ⊢
      have hpos : pos + seg.length + (ahead - seg.length) = pos + ahead := by omega
      have hdrop : (seg :: segs).flatten.drop ahead = segs.flatten.drop (ahead - seg.length) := by
        rw [List.flatten_cons, List.drop_append, List.drop_of_length_le hle, List.nil_append]
      rw [hdrop] at hat
      exact ih (fun h => hpre (by omega)) (by rw [hpos]; exact hat) hexact
    · rw [List.flatten_cons, List.drop_append_of_le_length (by omega)] at hat
      have hfuel : (seg.drop ahead).length + (if pre = [] then 1 else 2) ≤ seg.length + 2 := by
        rw [List.length_drop]
        split <;> omega
      cases hr : (cb.feed (seg.length + 2) s (pos + ahead) (seg.drop ahead)).1 with
      | none =>
        rw [feedAll_cons_none hle hr] at hexact ⊢
        obtain ⟨hplaced, ps₁, ps₂, rfl, hevents, hnone, -⟩ := feed_spec hadv hfuel hat hexact
        exact ⟨by rw [hnone hr, List.append_nil, hevents], hplaced⟩
      | some r =>
        obtain ⟨s', ahead'⟩ := r
        rw [feedAll_cons_some hle hr] at hexact ⊢
        obtain ⟨hplaced, ps₁, ps₂, rfl, hevents, -, hsome⟩ :=
          feed_spec hadv hfuel hat fun c hc => hexact c (List.mem_append_left _ hc)
        obtain ⟨pre', q', hpre', hat'⟩ := hsome s' ahead' hr
        have hpos : pos + ahead + (seg.drop ahead).length + ahead' = pos + seg.length + ahead' := by
          rw [List.length_drop]
          omega
        rw [hpos] at hat'
        obtain ⟨hevents', hplaced'⟩ := ih hpre' hat' fun c hc hc' =>
          hexact c (List.mem_append_right _ hc) (hc'.mono (List.suffix_append _ _))
        refine ⟨by rw [events_append, hevents, hevents'], fun c hc => ?_⟩
        rcases List.mem_append.1 hc with hc | hc
        · exact hplaced c hc
        · exact (hplaced' c hc).mono (List.suffix_append _ _)

/-- **Segments do not matter**: where the offsets of all calls are exact, the calls stop and announce flush
points as for the stream in one piece. -/
theorem events_eq (hadv : cb.Advances) {segs : List (List β)} {ps : List (ℕ × ℕ)}
    (hps : cb.Points 0 segs.flatten ps) (hexact : ∀ c ∈ cb.calls segs, cb.Placed ps c → cb.Exact c) :
    cb.events (cb.calls segs) = ps ∧ ∀ c ∈ cb.calls segs, cb.Placed ps c :=
  have hat : cb.At cb.start 0 segs.flatten ps [] 0 := ⟨rfl, rfl, hps⟩
  feedAll_spec hadv (fun _ => rfl) hat hexact

/-! ### The data of the calls -/

theorem mem_feed {fuel : ℕ} {s : σ} {pos : ℕ} {data : List β} {c : Call σ β}
    (hc : c ∈ (cb.feed fuel s pos data).2) :
    pos ≤ c.pos ∧ c.data = data.drop (c.pos - pos) ∧ (c.s ≠ cb.start → c.pos = pos ∧ c.s = s) := by
  have hfirst : ∀ {c : Call σ β} {pos s data}, c = ⟨pos, s, data⟩ →
      pos ≤ c.pos ∧ c.data = data.drop (c.pos - pos) ∧ (c.s ≠ cb.start → c.pos = pos ∧ c.s = s) := by
    rintro c pos s data rfl
    exact ⟨le_rfl, by simp, fun _ => ⟨rfl, rfl⟩⟩
  induction fuel generalizing s pos data with
  | zero => cases hc
  | succ fuel ih =>
    cases hverdict : cb.verdict s data with
    | search s' =>
      rw [feed_search hverdict] at hc
      exact hfirst (List.mem_singleton.1 hc)
    | abort =>
      rw [feed_abort hverdict] at hc
      exact hfirst (List.mem_singleton.1 hc)
    | flush fp =>
      rcases Nat.lt_or_ge fp data.length with h | h
      · rw [feed_flush_inside hverdict h] at hc
        rcases List.mem_cons.1 hc with rfl | hc
        · exact hfirst rfl
        · obtain ⟨hle, hdata, hstart⟩ := ih hc
          refine ⟨by omega, ?_, fun hne => absurd (hstart hne).2 hne⟩
          rw [hdata, List.drop_drop]
          congr 1
          omega
      · rw [feed_flush_ahead hverdict h] at hc
        exact hfirst (List.mem_singleton.1 hc)

/-- Behind a flush point that is ahead the scanner is in its first state. -/
theorem feed_ahead {fuel : ℕ} {s s' : σ} {pos ahead : ℕ} {data : List β}
    (h : (cb.feed fuel s pos data).1 = some (s', ahead)) (hpos : 0 < ahead) : s' = cb.start := by
  induction fuel generalizing s pos data with
  | zero => cases h
  | succ fuel ih =>
    cases hverdict : cb.verdict s data with
    | search t =>
      rw [feed_search hverdict] at h
      cases h
      exact absurd hpos (lt_irrefl 0)
    | abort =>
      rw [feed_abort hverdict] at h
      cases h
    | flush fp =>
      rcases Nat.lt_or_ge fp data.length with hlt | hle
      · rw [feed_flush_inside hverdict hlt] at h
        exact ih h
      · rw [feed_flush_ahead hverdict hle] at h
        cases h
        rfl

/-- A call is given what is left of a segment; in another state than the first one, all of it. -/
theorem mem_feedAll {s : σ} {ahead pos : ℕ} {segs : List (List β)} (hs : 0 < ahead → s = cb.start)
    {c : Call σ β} (hc : c ∈ cb.feedAll s ahead pos segs) :
    ∃ before seg after, segs = before ++ seg :: after ∧ pos + before.flatten.length ≤ c.pos ∧
      c.data = seg.drop (c.pos - (pos + before.flatten.length)) ∧
      (c.s ≠ cb.start → c.pos = pos + before.flatten.length) := by
  induction segs generalizing s ahead pos with
  | nil => cases hc
  | cons seg segs ih =>
    have hlater : ∀ {s : σ} {ahead : ℕ}, (0 < ahead → s = cb.start) →
        c ∈ cb.feedAll s ahead (pos + seg.length) segs → ∃ before seg' after, seg :: segs = before ++ seg' :: after ∧
          pos + before.flatten.length ≤ c.pos ∧ c.data = seg'.drop (c.pos - (pos + before.flatten.length)) ∧
          (c.s ≠ cb.start → c.pos = pos + before.flatten.length) := by
      intro s ahead hs hc
      obtain ⟨before, seg', after, rfl, hle, hdata, hstart⟩ := ih hs hc
      have hpos : pos + (seg :: before).flatten.length = pos + seg.length + before.flatten.length := by
        rw [List.flatten_cons, List.length_append, Nat.add_assoc]
      refine ⟨seg :: before, seg', after, rfl, ?_⟩
      rw [hpos]
      exact ⟨hle, hdata, hstart⟩
    by_cases hle : seg.length ≤ ahead
    · rw [feedAll_cons_ahead hle] at hc
      exact hlater (fun h => hs (by omega)) hc
    · have hhere : c ∈ (cb.feed (seg.length + 2) s (pos + ahead) (seg.drop ahead)).2 →
          ∃ before seg' after, seg :: segs = before ++ seg' :: after ∧
            pos + before.flatten.length ≤ c.pos ∧ c.data = seg'.drop (c.pos - (pos + before.flatten.length)) ∧
            (c.s ≠ cb.start → c.pos = pos + before.flatten.length) := by
        intro hc
        obtain ⟨hpos, hdata, hstart⟩ := mem_feed hc
        refine ⟨[], seg, segs, rfl, by simp; omega, ?_, fun hne => ?_⟩
        · rw [hdata, List.drop_drop, List.flatten_nil, List.length_nil]
          congr 1
          omega
        · obtain ⟨hcpos, hcs⟩ := hstart hne
          have : ¬0 < ahead := fun h => hne (hcs.trans (hs h))
          simp only [List.flatten_nil, List.length_nil]
          omega
      cases hr : (cb.feed (seg.length + 2) s (pos + ahead) (seg.drop ahead)).1 with
      | none =>
        rw [feedAll_cons_none hle hr] at hc
        exact hhere hc
      | some r =>
        obtain ⟨s', ahead'⟩ := r
        rw [feedAll_cons_some hle hr] at hc
        rcases List.mem_append.1 hc with hc | hc
        · exact hhere hc
        · exact hlater (fun h => feed_ahead hr h) hc

/-- The data of a call is not longer than the segments. -/
theorem length_data_le {segs : List (List β)} {bound : ℕ} (hsegs : ∀ seg ∈ segs, seg.length ≤ bound)
    {c : Call σ β} (hc : c ∈ cb.calls segs) : c.data.length ≤ bound := by
  obtain ⟨before, seg, after, rfl, -, hdata, -⟩ := mem_feedAll (by simp) hc
  have := hsegs seg (by simp)
  rw [hdata, List.length_drop]
  omega

/-- No segment ends inside of the data of a call. -/
theorem not_boundary_inside {segs : List (List β)} {c : Call σ β} (hc : c ∈ cb.calls segs) {e : ℕ}
    (hpos : c.pos < e) (hend : e < c.pos + c.data.length) : ¬Boundary segs e := by
  obtain ⟨before, seg, after, rfl, hle, hdata, -⟩ := mem_feedAll (by simp) hc
  rw [hdata, List.length_drop, Nat.zero_add] at hend
  rw [Nat.zero_add] at hle
  rintro ⟨before', after', heq, hlen⟩
  rcases List.append_eq_append_iff.1 heq with ⟨t, rfl, ht⟩ | ⟨t, rfl, ht⟩
  · cases t with
    | nil =>
      simp only [List.append_nil] at hlen
      omega
    | cons seg' t =>
      obtain ⟨rfl, -⟩ : seg = seg' ∧ after = t ++ after' := by simpa using ht
      simp only [List.flatten_append, List.flatten_cons, List.length_append] at hlen
      omega
  · simp only [List.flatten_append, List.length_append] at hle
    omega

/-- In another state than the first one a call starts with a segment. -/
theorem boundary_of_ne_start {segs : List (List β)} {c : Call σ β} (hc : c ∈ cb.calls segs)
    (hs : c.s ≠ cb.start) : Boundary segs c.pos := by
  obtain ⟨before, seg, after, rfl, -, -, hpos⟩ := mem_feedAll (by simp) hc
  exact ⟨before, seg :: after, rfl, by rw [hpos hs, Nat.zero_add]⟩

/-- The index and the offset of an announced flush point. -/
theorem run_of_announced {c : Call σ β} {i fp : ℕ} (h : cb.announced c = some (i, fp)) :
    ∃ d n, run cb.step c.s c.data = .stop (some d) n ∧ i = n - 1 ∧ fp = u32 (n - 1 + d) ∧ 1 ≤ n ∧
      n ≤ c.data.length := by
  cases hrun : run cb.step c.s c.data with
  | more s' => simp [announced, hrun] at h
  | stop r n =>
    obtain ⟨hn, hle⟩ := length_of_stop hrun
    cases r with
    | none => simp [announced, hrun] at h
    | some d =>
      obtain ⟨rfl, rfl⟩ : n - 1 = i ∧ u32 (n - 1 + d) = fp := by simpa [announced, hrun] using h
      exact ⟨d, n, rfl, rfl, rfl, hn, hle⟩

theorem mem_events {cs : List (Call σ β)} {i e : ℕ} :
    (i, e) ∈ cb.events cs ↔ ∃ c ∈ cs, ∃ a, cb.announced c = some a ∧ c.pos + a.1 = i ∧ c.pos + a.2 = e := by
  simp only [events, List.mem_filterMap, Option.map_eq_some_iff, Prod.mk.injEq]

end Callback

/-- A scan that has read something is in a state that a step leads to. -/
theorem exists_step_of_more {ρ : Type*} {step : σ → β → σ ⊕ ρ} {s s' : σ} {data : List β} (hne : data ≠ [])
    (h : run step s data = .more s') : ∃ t b, step t b = .inl s' := by
  induction data generalizing s with
  | nil => exact absurd rfl hne
  | cons b data ih =>
    cases hstep : step s b with
    | inr r =>
      rw [run_cons_inr _ hstep] at h
      cases h
    | inl t =>
      rw [run_cons_inl _ hstep] at h
      cases hrun : run step t data with
      | stop r n =>
        rw [hrun] at h
        cases h
      | more t' =>
        rw [hrun] at h
        cases h
        cases data with
        | nil =>
          cases hrun
          exact ⟨s, b, hstep⟩
        | cons b' data => exact ih (List.cons_ne_nil _ _) hrun

/-- A scanner that goes on from a state reads at least two elements. -/
theorem two_le_of_stop {ρ : Type*} {step : σ → β → σ ⊕ ρ} {s : σ} {data : List β} {r : ρ} {n : ℕ}
    (hs : ∀ c, ∃ s', step s c = .inl s') (h : run step s data = .stop r n) : 2 ≤ n := by
  cases data with
  | nil => cases h
  | cons c data =>
    obtain ⟨s', hstep⟩ := hs c
    rw [run_cons_inl _ hstep] at h
    obtain ⟨j, hj, rfl⟩ := Outcome.of_shift_eq_stop h
    have := (length_of_stop hj).1
    omega

end Feed
