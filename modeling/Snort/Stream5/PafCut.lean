import Snort.Stream5.PafCheck

/-!
# PAF on a stream that is cut into segments

The flush points of an in-order stream are the points that the framer of the callback selects on its
bytes, so that they do not depend on the segments.

* `Queued`: what is queued, with what the framer has seen of it.
* `flushPduIps_spec`, `flushQueue_spec`, `arrive_spec`: a call, a round of flushes and a whole run.
* **`flush_points_cut`**: two ways to cut a stream give the same flush points with the same flags, where
  no offset of a verdict wraps; `flush_points_wrap`: a callback for which it does.
-/

namespace Snort.Stream5

open Scanner Framer
open HiPaf (PafStatus Byte)

variable {σ : Type}

/-! ### The bytes that a flush takes -/

theorem dropBytes_zero {segs : List (List Byte)} (hne : ∀ seg ∈ segs, seg ≠ []) :
    dropBytes 0 segs = segs := by
  cases segs with
  | nil => rfl
  | cons seg segs =>
    have hpos := List.length_pos_iff.2 (hne seg List.mem_cons_self)
    exact if_neg (by omega)

theorem dropBytes_append (xs ys : List (List Byte)) (n : ℕ) :
    dropBytes (xs.flatten.length + n) (xs ++ ys) = dropBytes n ys := by
  induction xs with
  | nil => rw [List.flatten_nil, List.length_nil, Nat.zero_add, List.nil_append]
  | cons x xs ih =>
    rw [List.flatten_cons, List.length_append, List.cons_append, dropBytes, if_pos (by omega), ← ih]
    congr 1
    omega

theorem flatten_dropBytes (segs : List (List Byte)) (n : ℕ) :
    (dropBytes n segs).flatten = segs.flatten.drop n := by
  induction segs generalizing n with
  | nil => rw [dropBytes, List.flatten_nil, List.drop_nil]
  | cons seg segs ih =>
    rw [dropBytes, List.flatten_cons, List.drop_append]
    split
    · next h => rw [ih, List.drop_of_length_le h, List.nil_append]
    · next h =>
      rw [List.flatten_cons, Nat.sub_eq_zero_of_le (by omega), List.drop_zero]

theorem ne_nil_of_mem_dropBytes {segs : List (List Byte)} (hne : ∀ seg ∈ segs, seg ≠ []) (n : ℕ) :
    ∀ seg ∈ dropBytes n segs, seg ≠ [] := by
  induction segs generalizing n with
  | nil => exact fun _ h => absurd h List.not_mem_nil
  | cons seg segs ih =>
    have hne' : ∀ seg ∈ segs, seg ≠ [] := fun t ht => hne t (List.mem_cons_of_mem _ ht)
    rw [dropBytes]
    split
    · exact ih hne' _
    · next h =>
      intro t ht
      rcases List.mem_cons.1 ht with rfl | ht
      · exact List.ne_nil_of_length_pos (by rw [List.length_drop]; omega)
      · exact hne' t ht

section Below

variable {v : σ → Byte → Verdict σ} {bound : ℕ}

/-- What is queued at the ends of the segments behind the first point. -/
theorem below_dropBytes {m m' : Mode σ} {n k : ℕ} {segs : List (List Byte)}
    (hne : ∀ seg ∈ segs, seg ≠ []) (h : Below v bound m n segs)
    (hrun : run (step v) m segs.flatten = .stop m' k) :
    Below v bound m' 0 (dropBytes k segs) := by
  induction segs generalizing m n k with
  | nil => cases hrun
  | cons seg segs ih =>
    have hne' : ∀ seg ∈ segs, seg ≠ [] := fun t ht => hne t (List.mem_cons_of_mem _ ht)
    obtain ⟨hlen, h⟩ := h
    rw [List.flatten_cons] at hrun
    rw [dropBytes]
    cases hseg : run (step v) m seg with
    | more m₁ =>
      rw [run_append_more _ hseg] at hrun
      obtain ⟨j, hrun', rfl⟩ := Outcome.of_shift_eq_stop hrun
      rw [since_of_more hseg] at h
      rw [if_pos (Nat.le_add_left _ _), Nat.add_sub_cancel]
      exact ih hne' h hrun'
    | stop m₁ j =>
      rw [run_append_stop _ hseg] at hrun
      cases hrun
      have hsince := since_of_stop (n := n) hseg
      rw [← List.take_append_drop k seg, since_append, hsince] at h
      split
      · next hk =>
        rw [List.drop_of_length_le hk] at h
        rw [Nat.sub_eq_zero_of_le (length_of_stop hseg).2, dropBytes_zero hne']
        exact h
      · exact ⟨by rw [List.length_drop]; omega, h⟩

end Below

/-! ### A callback whose skips are long -/

/-- A callback that passes over a byte, then over as many as `*fp` can hold, and then looks for bytes
`F`. -/
def farSkip : PafCallback ℕ := fun _ s data =>
  match s with
  | 0 => (.skip, 1, some 1)
  | 1 => (.skip, 2, some 0xFFFFFFFF)
  | _ + 2 =>
    match data.findIdx? (· = 70) with
    | some i => (.flush, 2, some (BitVec.ofNat 32 (i + 1)))
    | none => (.search, 2, none)

theorem verdict_farSkip (dir : U32) (s : ℕ) {x : List Byte} (hx : x.length < 2 ^ 14) :
    verdict farSkip dir (s + 2) x =
      (x.findIdx? (· = 70)).elim (.search 2) fun i => .flush 2 (i + 1) := by
  rw [verdict, farSkip]
  cases hi : x.findIdx? (· = 70) with
  | none => rfl
  | some i =>
    have hlt := (List.findIdx?_eq_some_iff_findIdx_eq.1 hi).1
    show Verdict.flush 2 (BitVec.ofNat 32 (i + 1)).toNat = _
    rw [toNat_ofNat (by omega)]
    rfl

theorem lawfulCallback_farSkip (dir : U32) : LawfulCallback farSkip dir (2 ^ 14) where
  append := by
    intro s a b ha hb hlen
    rcases s with _ | _ | s
    · rfl
    · rfl
    · rw [List.length_append] at hlen
      rw [verdict_farSkip dir s (by rw [List.length_append]; exact hlen),
        verdict_farSkip dir s (by omega), List.findIdx?_append]
      cases a.findIdx? (· = 70) with
      | some i => rfl
      | none =>
        show _ = (verdict farSkip dir (0 + 2) b).shift a.length
        rw [verdict_farSkip dir 0 (by omega)]
        cases b.findIdx? (· = 70) with
        | none => rfl
        | some i =>
          show Verdict.flush 2 (i + a.length + 1) = .flush 2 (i + 1 + a.length)
          rw [Nat.add_right_comm]
  pos := by
    intro s a _ hlen
    rcases s with _ | _ | s
    · exact le_rfl
    · show 1 ≤ 0xFFFFFFFF
      decide
    · rw [verdict_farSkip dir s hlen]
      cases a.findIdx? (· = 70) with
      | none => trivial
      | some i => exact Nat.le_add_left 1 i
  answers := by
    intro s a _ hlen h
    rcases s with _ | _ | s
    · cases h
    · cases h
    · rw [verdict_farSkip dir s hlen] at h
      cases hi : a.findIdx? (· = 70) with
      | none => rw [hi] at h; cases h
      | some i => rw [hi] at h; cases h

theorem limits_farSkip (i : ℕ) : Limits ⟨16384⟩ ((fun _ => 192 : ℕ → U32) i) (2 ^ 14) :=
  ⟨by decide, show 2 ^ 14 ≤ ((16384 : U32) + 192).toNat by decide⟩

/-! ### A call of `flush_pdu_ips` -/

section Queue

variable {cfg : PafConfig} {cb : PafCallback σ} {dir fuzz : U32} {bound fuel : ℕ}

/-- Segments that have been scanned are passed over. -/
theorem flushPduLoop_scanned {avail : U32} {q : Seq} {ps : PafState σ} {fresh : List (List Byte)}
    (hdir : dir ≠ 0) (hstart : ps.paf ≠ .start) {n : ℕ} (hseq : ps.seq = q + BitVec.ofNat 32 n)
    (hn : n < 2 ^ 31) (havail : n ≤ avail.toNat) {scanned : List (List Byte)} {t : ℕ}
    (hne : ∀ seg ∈ scanned, seg ≠ []) (ht : t + scanned.flatten.length = n) :
    flushPduLoop fuel cfg cb fuzz avail (BitVec.ofNat 32 t) (q + BitVec.ofNat 32 t)
        (scanned ++ fresh) ps dir =
      flushPduLoop fuel cfg cb fuzz avail (BitVec.ofNat 32 n) (q + BitVec.ofNat 32 n) fresh ps dir := by
  induction scanned generalizing t with
  | nil =>
    rw [List.flatten_nil, List.length_nil, Nat.add_zero] at ht
    rw [ht, List.nil_append]
  | cons seg scanned ih =>
    have hpos := List.length_pos_iff.2 (hne seg List.mem_cons_self)
    rw [List.flatten_cons, List.length_append, ← Nat.add_assoc] at ht
    have htotal : BitVec.ofNat 32 t < avail := by
      rw [BitVec.lt_def, toNat_ofNat (by omega)]
      omega
    have hend : q + BitVec.ofNat 32 t + BitVec.ofNat 32 seg.length =
        q + BitVec.ofNat 32 (t + seg.length) := by
      rw [BitVec.ofNat_add, BitVec.add_assoc]
    have hleq : seqLeq (q + BitVec.ofNat 32 (t + seg.length)) ps.seq = true := by
      rw [hseq, seqLeq_iff q (by omega) hn]
      omega
    rw [List.cons_append, flushPduLoop, if_pos ⟨hdir, htotal⟩]
    dsimp only
    rw [hend, if_pos ⟨hstart, hleq⟩, ← BitVec.ofNat_add]
    exact ih (fun t ht => hne t (List.mem_cons_of_mem _ ht)) ht

/-- The segments that have not been scanned. -/
theorem flushPduLoop_fresh (h : LawfulCallback cb dir bound) (hlim : Limits cfg fuzz bound)
    (hdir : dir ≠ 0) {avail : U32} {q : Seq} {fresh : List (List Byte)} :
    ∀ {n : ℕ} {ps : PafState σ} {m : Mode σ}, n + fresh.flatten.length = avail.toNat →
      (∀ seg ∈ fresh, seg ≠ []) → Below (frame cb dir) bound m n fresh →
      fresh.flatten.length + 2 ≤ fuel → Ready q n ps m →
      Fits (frame cb dir) (2 ^ 32) m n fresh.flatten →
      ∃ r, flushPduLoop fuel cfg cb fuzz avail (BitVec.ofNat 32 n) (q + BitVec.ofNat 32 n) fresh ps
          dir = some r ∧
        Checked dir q n fresh.flatten.length r (run (step (frame cb dir)) m fresh.flatten) := by
  induction fresh with
  | nil =>
    intro n ps m _ _ _ _ hready _
    exact ⟨_, rfl, rfl, Or.inr ⟨rfl, hready⟩⟩
  | cons seg fresh ih =>
    intro n ps m havail hne hbelow hfuel hready hfits
    have hseg := hne seg List.mem_cons_self
    have hne' : ∀ seg ∈ fresh, seg ≠ [] := fun t ht => hne t (List.mem_cons_of_mem _ ht)
    have hpos := List.length_pos_iff.2 hseg
    have hwindow := hlim.window
    obtain ⟨hlen, hbelow⟩ := hbelow
    rw [List.flatten_cons] at havail hfuel hfits ⊢
    rw [List.length_append] at havail hfuel ⊢
    have htotal : BitVec.ofNat 32 n < avail := by
      rw [BitVec.lt_def, toNat_ofNat (by omega)]
      omega
    have hscan : ¬ (ps.paf ≠ .start ∧
        seqLeq (q + BitVec.ofNat 32 n + BitVec.ofNat 32 seg.length) ps.seq = true) := by
      rintro ⟨hstart, hleq⟩
      rcases hready.2 with ⟨hstart', -⟩ | ⟨-, hseq, -⟩
      · exact hstart hstart'
      · rw [hseq, BitVec.add_assoc, ← BitVec.ofNat_add, seqLeq_iff q (by omega) (by omega)] at hleq
        omega
    obtain ⟨⟨flushPt, ps', flags'⟩, hr, hchecked⟩ := s5PafCheck_spec h hlim hseg hlen
      (by omega : seg.length + 2 ≤ fuel) hready ((fits_append _ _).1 hfits).1
    rw [flushPduLoop, if_pos ⟨hdir, htotal⟩]
    dsimp only
    rw [if_neg hscan, ← BitVec.ofNat_add, hr]
    show ∃ r, (if flushPt ≠ 0 then some (flushPt, ps', flags') else _) = some r ∧ _
    cases hrun : run (step (frame cb dir)) m seg with
    | more m' =>
      rw [hrun] at hchecked
      obtain ⟨hfp, hchecked⟩ := hchecked
      have hfp : flushPt = 0 := hfp
      rw [if_neg (not_not.2 hfp), run_append_more _ hrun]
      rcases hchecked with ⟨hflags, rfl⟩ | ⟨hflags, hready'⟩
      · have hflags : flags' = 0 := hflags
        have hnil : flushPduLoop fuel cfg cb fuzz avail (BitVec.ofNat 32 (n + seg.length))
            (q + BitVec.ofNat 32 n + BitVec.ofNat 32 seg.length) fresh ps' flags' =
            some (0, ps', flags') := by
          cases fresh with
          | nil => rfl
          | cons t fresh => exact if_neg fun h => h.1 hflags
        rw [run_done]
        exact ⟨_, hnil, rfl, Or.inl ⟨hflags, rfl⟩⟩
      · have hflags : flags' = dir := hflags
        rw [since_of_more hrun] at hbelow
        dsimp only at hbelow
        obtain ⟨r, hr, hchecked'⟩ := ih (by omega) hne' hbelow (by omega) hready'
          (hfits.of_more hrun)
        rw [hflags, BitVec.add_assoc, ← BitVec.ofNat_add]
        exact ⟨r, hr, hchecked'.shift⟩
    | stop m' k =>
      rw [hrun] at hchecked
      have hk := length_of_stop hrun
      have hfp : flushPt = BitVec.ofNat 32 (n + k) := hchecked.1
      have hfp0 : flushPt ≠ 0 := fun h0 => by
        have hzero : (BitVec.ofNat 32 (n + k)).toNat = 0 := by rw [← hfp, h0]; rfl
        rw [toNat_ofNat (by omega)] at hzero
        omega
      rw [if_pos hfp0, run_append_stop _ hrun]
      exact ⟨_, rfl, hchecked⟩

/-- What is queued: segments that have been scanned, and segments that have not. -/
structure Queued (q : PafQueue σ) (m : Mode σ) (scanned fresh : List (List Byte)) : Prop where
  segs : q.segs = scanned ++ fresh
  nonempty : ∀ seg ∈ q.segs, seg ≠ []
  window : scanned.flatten.length < 2 ^ 31
  ready : Ready q.seq scanned.flatten.length q.ps m

/-- A call of `flush_pdu_ips` does to the mode what the framer does on the bytes that are new. -/
theorem flushPduIps_spec (h : LawfulCallback cb dir bound) (hdir : dir ≠ 0) {q : PafQueue σ}
    (hlim : Limits cfg (q.flushPt 0) bound) {m : Mode σ} {scanned fresh : List (List Byte)}
    (hq : Queued q m scanned fresh) (htotal : q.segs.flatten.length < 2 ^ 32)
    (hbelow : Below (frame cb dir) bound m scanned.flatten.length fresh)
    (hfuel : fresh.flatten.length + 2 ≤ fuel)
    (hfits : Fits (frame cb dir) (2 ^ 32) m scanned.flatten.length fresh.flatten) :
    ∃ r, flushPduIps fuel cfg cb q dir = some r ∧
      Checked dir q.seq scanned.flatten.length fresh.flatten.length r
        (run (step (frame cb dir)) m fresh.flatten) := by
  have hne := hq.nonempty
  rw [hq.segs] at htotal hne
  rw [List.flatten_append, List.length_append] at htotal
  have havail : (BitVec.ofNat 32 (scanned ++ fresh).flatten.length).toNat =
      scanned.flatten.length + fresh.flatten.length := by
    rw [List.flatten_append, List.length_append, toNat_ofNat htotal]
  have hscanned : ∀ seg ∈ scanned, seg ≠ [] := fun t ht => hne t (List.mem_append_left _ ht)
  have hskip : flushPduIps fuel cfg cb q dir =
      flushPduLoop fuel cfg cb (q.flushPt 0) (BitVec.ofNat 32 (scanned ++ fresh).flatten.length)
        (BitVec.ofNat 32 scanned.flatten.length) (q.seq + BitVec.ofNat 32 scanned.flatten.length)
        fresh q.ps dir := by
    rw [flushPduIps, hq.segs]
    rcases hq.ready.2 with ⟨-, hn, -⟩ | ⟨-, hseq, hat⟩
    · have hnil : scanned = [] := by
        cases scanned with
        | nil => rfl
        | cons seg scanned =>
          have hpos := List.length_pos_iff.2 (hscanned seg List.mem_cons_self)
          rw [List.flatten_cons, List.length_append] at hn
          omega
      rw [hnil]
      show flushPduLoop _ _ _ _ _ 0 q.seq fresh q.ps dir =
        flushPduLoop _ _ _ _ _ 0 (q.seq + 0#32) fresh q.ps dir
      rw [BitVec.add_zero]
    · have hloop : flushPduLoop fuel cfg cb (q.flushPt 0)
          (BitVec.ofNat 32 (scanned ++ fresh).flatten.length) (BitVec.ofNat 32 0)
          (q.seq + BitVec.ofNat 32 0) (scanned ++ fresh) q.ps dir = _ :=
        flushPduLoop_scanned hdir hat.ne_start hseq hq.window (by rw [havail]; omega) hscanned
          (Nat.zero_add _)
      rw [← hloop, BitVec.add_zero]
      rfl
  rw [hskip]
  exact flushPduLoop_fresh h hlim hdir havail.symm (fun t ht => hne t (List.mem_append_right _ ht))
    hbelow hfuel hq.ready hfits

/-! ### A round of flushes -/

/-- How many bytes have been flushed. -/
def taken (flushes : List (U32 × U32)) : ℕ := (flushes.map fun p => p.1.toNat).sum

theorem taken_cons (amt flags : U32) (flushes : List (U32 × U32)) :
    taken ((amt, flags) :: flushes) = amt.toNat + taken flushes := by
  rw [taken, List.map_cons, List.sum_cons, taken]

theorem positions_append (base : ℕ) (xs ys : List (U32 × U32)) :
    positions base (xs ++ ys) = positions base xs ++ positions (base + taken xs) ys := by
  induction xs generalizing base with
  | nil => rfl
  | cons x xs ih =>
    obtain ⟨amt, flags⟩ := x
    rw [List.cons_append, positions, positions, ih, taken_cons, List.cons_append, Nat.add_assoc]

/-- The flush points that the framer selects on the bytes that are new, in positions of the stream. -/
def framed (cb : PafCallback σ) (dir : U32) (base : ℕ) (m : Mode σ) (x : List Byte) : List (ℕ × U32) :=
  (points (frame cb dir) m x).map fun k => (base + k, pduFlags dir)

theorem framed_append {cb : PafCallback σ} {dir : U32} (base : ℕ) (m : Mode σ) (n : ℕ)
    (x y : List Byte) :
    framed cb dir base m (x ++ y) = framed cb dir base m x ++
      framed cb dir (base + x.length) (since (frame cb dir) m n x).1 y := by
  rw [framed, points_append m n, List.map_append, List.map_map]
  congr 1
  apply List.map_congr_left
  intro k _
  show (base + (k + x.length), pduFlags dir) = (base + x.length + k, pduFlags dir)
  rw [Nat.add_assoc, Nat.add_comm k]

theorem framed_of_stop {cb : PafCallback σ} {dir : U32} (base : ℕ) {m m' : Mode σ} {x : List Byte}
    {k : ℕ} (h : run (step (frame cb dir)) m x = .stop m' k) :
    framed cb dir base m x =
      (base + k, pduFlags dir) :: framed cb dir (base + k) m' (x.drop k) := by
  rw [framed, points_of_stop h, List.map_cons, List.map_map]
  congr 1
  apply List.map_congr_left
  intro j _
  show (base + (j + k), pduFlags dir) = (base + k + j, pduFlags dir)
  rw [Nat.add_assoc, Nat.add_comm j]

/-- The queue between two batches: all that is queued has been scanned. -/
structure Idle (cfg : PafConfig) (bound : ℕ) (q : PafQueue σ) (m : Mode σ) (n : ℕ) : Prop where
  nonempty : ∀ seg ∈ q.segs, seg ≠ []
  length : q.segs.flatten.length = n
  window : n < 2 ^ 31
  ready : Ready q.seq n q.ps m
  limits : ∀ i, Limits cfg (q.flushPt i) bound

/-- A round of flushes flushes at the points that the framer selects. -/
theorem flushQueue_spec (h : LawfulCallback cb dir bound) (hdir : dir ≠ 0) :
    ∀ {fuel : ℕ} {q : PafQueue σ} {m : Mode σ} {scanned fresh : List (List Byte)} (base : ℕ),
      (∀ i, Limits cfg (q.flushPt i) bound) → Queued q m scanned fresh →
      q.segs.flatten.length < 2 ^ 32 → q.segs.flatten.length + 3 ≤ fuel →
      Below (frame cb dir) bound m scanned.flatten.length fresh →
      Fits (frame cb dir) (2 ^ 32) m scanned.flatten.length fresh.flatten →
      ∃ flushes q' flags, flushQueue cfg cb dir fuel q = some (flushes, q', flags) ∧
        positions base flushes =
          framed cb dir (base + scanned.flatten.length) m fresh.flatten ∧
        (flags = 0 ∧ (since (frame cb dir) m scanned.flatten.length fresh.flatten).1 = .done ∨
          flags = dir ∧ taken flushes + q'.segs.flatten.length = q.segs.flatten.length ∧
            Idle cfg bound q' (since (frame cb dir) m scanned.flatten.length fresh.flatten).1
              (since (frame cb dir) m scanned.flatten.length fresh.flatten).2) := by
  intro fuel
  induction fuel with
  | zero => intro q m scanned fresh base _ _ _ hfuel; omega
  | succ fuel ih =>
    intro q m scanned fresh base hlim hq htotal hfuel hbelow hfits
    have hwindow := (hlim 0).window
    have hlen : q.segs.flatten.length = scanned.flatten.length + fresh.flatten.length := by
      rw [hq.segs, List.flatten_append, List.length_append]
    obtain ⟨⟨flushAmt, ps', flags'⟩, hr, hchecked⟩ :=
      flushPduIps_spec h hdir (hlim 0) hq htotal hbelow (by omega : _ ≤ fuel) hfits
    rw [flushQueue, hr]
    show ∃ flushes q' flags, (if flushAmt ≠ 0 then _ else some ([], { q with ps := ps' }, flags')) =
      some (flushes, q', flags) ∧ _
    cases hrun : run (step (frame cb dir)) m fresh.flatten with
    | more m' =>
      rw [hrun] at hchecked
      obtain ⟨hfp, hchecked⟩ := hchecked
      have hfp : flushAmt = 0 := hfp
      have hsince := hbelow.since_lt hq.window hwindow
      have hnone : framed cb dir (base + scanned.flatten.length) m fresh.flatten = [] := by
        have hpoints := points_of_more [] hrun
        rw [List.append_nil] at hpoints
        rw [framed, hpoints]
        rfl
      rw [since_of_more hrun] at hsince ⊢
      refine ⟨[], { q with ps := ps' }, flags', if_neg (not_not.2 hfp), hnone.symm, ?_⟩
      rcases hchecked with ⟨hflags, hdone⟩ | ⟨hflags, hready⟩
      · exact Or.inl ⟨hflags, hdone⟩
      · exact Or.inr ⟨hflags, Nat.zero_add _, hq.nonempty, hlen, hsince, hready, hlim⟩
    | stop m' k =>
      rw [hrun] at hchecked
      obtain ⟨hfp, hflags, hready⟩ := hchecked
      have hk := length_of_stop hrun
      have hfp : flushAmt = BitVec.ofNat 32 (scanned.flatten.length + k) := hfp
      have hflags : flags' = pduFlags dir := hflags
      have hamt : flushAmt.toNat = scanned.flatten.length + k := by
        rw [hfp, toNat_ofNat (by omega)]
      have hfp0 : flushAmt ≠ 0 := fun h0 => by
        have hzero : flushAmt.toNat = 0 := by rw [h0]; rfl
        omega
      have hdrop : dropBytes flushAmt.toNat q.segs = dropBytes k fresh := by
        rw [hamt, hq.segs, dropBytes_append]
      have hlen' : (dropBytes k fresh).flatten.length = fresh.flatten.length - k := by
        rw [flatten_dropBytes, List.length_drop]
      have hne : ∀ seg ∈ fresh, seg ≠ [] := fun t ht =>
        hq.nonempty t (by rw [hq.segs]; exact List.mem_append_right _ ht)
      have hq' : Queued ⟨q.seq + flushAmt, dropBytes flushAmt.toNat q.segs, ps',
          fun i => q.flushPt (i + 1)⟩ m' [] (dropBytes k fresh) :=
        ⟨hdrop, by rw [hdrop]; exact ne_nil_of_mem_dropBytes hne k, by decide, by
          rw [hfp]; exact hready⟩
      obtain ⟨flushes, q', flags, hq'', hpositions, hend⟩ := ih (base + flushAmt.toNat)
        (fun i => hlim (i + 1)) hq' (by rw [hdrop, hlen']; omega) (by rw [hdrop, hlen']; omega)
        (below_dropBytes hne hbelow hrun) (by rw [flatten_dropBytes]; exact hfits.of_stop hrun)
      rw [if_pos hfp0, hq'']
      refine ⟨(flushAmt, flags') :: flushes, q', flags, rfl, ?_, ?_⟩
      · rw [positions, hpositions, framed_of_stop _ hrun, flatten_dropBytes, hamt, hflags,
          ← Nat.add_assoc]
        rfl
      · have hsince : since (frame cb dir) m scanned.flatten.length fresh.flatten =
            since (frame cb dir) m' 0 (fresh.flatten.drop k) := by
          conv_lhs => rw [← List.take_append_drop k fresh.flatten]
          rw [since_append, since_of_stop hrun]
        rw [hsince, ← flatten_dropBytes]
        rcases hend with hend | ⟨hflags', htaken, hidle⟩
        · exact Or.inl hend
        · refine Or.inr ⟨hflags', ?_, hidle⟩
          rw [hdrop, hlen'] at htaken
          rw [taken_cons, hamt, hlen]
          omega

/-! ### A run -/

/-- A way to cut a stream into non-empty segments that arrive in batches: less than the bound is queued
at the end of every segment since the last flush point, and less than half the sequence space arrives at
once. -/
structure Cut (cb : PafCallback σ) (dir : U32) (bound : ℕ) (m : Mode σ) (n : ℕ) (x : List Byte)
    (batches : List (List (List Byte))) : Prop where
  bytes : batches.flatten.flatten = x
  nonempty : ∀ seg ∈ batches.flatten, seg ≠ []
  window : ∀ batch ∈ batches, batch.flatten.length ≤ 2 ^ 31
  below : Below (frame cb dir) bound m n batches.flatten

/-- The flush points of a run are those of the framer. -/
theorem arrive_spec (h : LawfulCallback cb dir bound) (hdir : dir ≠ 0)
    {batches : List (List (List Byte))} :
    ∀ {q : PafQueue σ} {m : Mode σ} {n : ℕ} {x : List Byte} (base : ℕ), Idle cfg bound q m n →
      Cut cb dir bound m n x batches → n + x.length + 3 ≤ fuel →
      Fits (frame cb dir) (2 ^ 32) m n x →
      ∃ flushes, arrive cfg cb dir fuel q batches = some flushes ∧
        positions base flushes = framed cb dir (base + n) m x := by
  induction batches with
  | nil =>
    intro q m n x base _ hcut _ _
    obtain rfl := hcut.bytes
    exact ⟨[], rfl, rfl⟩
  | cons batch batches ih =>
    intro q m n x base hidle hcut hfuel hfits
    obtain rfl := hcut.bytes
    have hbatch := hcut.window batch List.mem_cons_self
    have hne := hcut.nonempty
    have hbelow := hcut.below
    have hwindow := hidle.window
    have hlength := hidle.length
    rw [List.flatten_cons, List.flatten_append, List.length_append] at hfuel
    rw [List.flatten_cons, List.flatten_append] at hfits ⊢
    rw [List.flatten_cons] at hne hbelow
    obtain ⟨hbelow, hbelow'⟩ := (below_append _ _).1 hbelow
    obtain ⟨hfits, hfits'⟩ := (fits_append _ _).1 hfits
    have hq : Queued { q with segs := q.segs ++ batch } m q.segs batch := by
      refine ⟨rfl, fun seg hseg => ?_, by omega, by rw [hlength]; exact hidle.ready⟩
      rcases List.mem_append.1 hseg with hseg | hseg
      · exact hidle.nonempty seg hseg
      · exact hne seg (List.mem_append_left _ hseg)
    have hlen : (q.segs ++ batch).flatten.length = n + batch.flatten.length := by
      rw [List.flatten_append, List.length_append, hlength]
    have hlimits : ∀ i, Limits cfg (PafQueue.flushPt { q with segs := q.segs ++ batch } i) bound :=
      hidle.limits
    have hfuel' : (q.segs ++ batch).flatten.length + 3 ≤ fuel := by omega
    obtain ⟨flushes, q', flags, hround, hpositions, hend⟩ := flushQueue_spec h hdir base hlimits hq
      (by show (q.segs ++ batch).flatten.length < _; omega) hfuel' (by rw [hlength]; exact hbelow)
      (by rw [hlength]; exact hfits)
    rw [hlength] at hpositions hend
    rw [arrive, hround, framed_append _ m n, ← hpositions]
    show ∃ flushes', (if flags = 0 then some flushes
      else (arrive cfg cb dir fuel q' batches).bind fun rest => some (flushes ++ rest)) =
        some flushes' ∧ _
    rcases hend with ⟨hflags, hdone⟩ | ⟨hflags, htaken, hidle'⟩
    · have hnone : framed cb dir (base + n + batch.flatten.length) .done batches.flatten.flatten =
          [] := by
        rw [framed, points_done]
        rfl
      rw [hdone, hnone, List.append_nil]
      exact ⟨flushes, if_pos hflags, rfl⟩
    · have hcut' : Cut cb dir bound (since (frame cb dir) m n batch.flatten).1
          (since (frame cb dir) m n batch.flatten).2 batches.flatten.flatten batches :=
        ⟨rfl, fun seg hseg => hne seg (List.mem_append_right _ hseg),
          fun b hb => hcut.window b (List.mem_cons_of_mem _ hb), hbelow'⟩
      have hsince := since_le (v := frame cb dir) m n batch.flatten
      have hlen' := hidle'.length
      have htaken : taken flushes + q'.segs.flatten.length = (q.segs ++ batch).flatten.length := htaken
      obtain ⟨rest, hrest, hpositions'⟩ := ih (base + taken flushes) hidle' hcut' (by omega) hfits'
      rw [if_neg (hflags ▸ hdir), hrest]
      refine ⟨flushes ++ rest, rfl, ?_⟩
      rw [positions_append, hpositions']
      congr 2
      omega

/-- The queue of a new stream. -/
def newPafQueue (q : Seq) (s : σ) (flushPt : ℕ → U32) : PafQueue σ := ⟨q, [], s5PafSetup s, flushPt⟩

theorem idle_newPafQueue {q : Seq} {s : σ} {flushPt : ℕ → U32}
    (hlim : ∀ i, Limits cfg (flushPt i) bound) :
    Idle cfg bound (newPafQueue q s flushPt) (.search s) 0 where
  nonempty := fun _ h => absurd h List.not_mem_nil
  length := rfl
  window := by decide
  ready := ⟨⟨rfl, fun _ => rfl⟩, Or.inl ⟨rfl, rfl, rfl⟩⟩
  limits := hlim

/-- **However a stream is cut.**  Where no verdict reaches `2 ^ 32` bytes beyond the last flush point, the
positions of the flush points and their flags are the same for any two ways to cut a stream. -/
theorem flush_points_cut (h : LawfulCallback cb dir bound) (hdir : dir ≠ 0) {q q' : Seq} {s : σ}
    {flushPt flushPt' : ℕ → U32} {x : List Byte} {xs ys : List (List (List Byte))}
    (hlim : ∀ i, Limits cfg (flushPt i) bound) (hlim' : ∀ i, Limits cfg (flushPt' i) bound)
    (hxs : Cut cb dir bound (.search s) 0 x xs) (hys : Cut cb dir bound (.search s) 0 x ys)
    (hfits : Fits (frame cb dir) (2 ^ 32) (.search s) 0 x) (hfuel : x.length + 3 ≤ fuel) :
    ∃ flushes flushes',
      arrive cfg cb dir fuel (newPafQueue q s flushPt) xs = some flushes ∧
      arrive cfg cb dir fuel (newPafQueue q' s flushPt') ys = some flushes' ∧
      positions 0 flushes = positions 0 flushes' := by
  obtain ⟨flushes, hrun, hpositions⟩ := arrive_spec h hdir 0 (idle_newPafQueue hlim) hxs
    (by omega : 0 + x.length + 3 ≤ fuel) hfits
  obtain ⟨flushes', hrun', hpositions'⟩ := arrive_spec h hdir 0 (idle_newPafQueue hlim') hys
    (by omega : 0 + x.length + 3 ≤ fuel) hfits
  exact ⟨flushes, flushes', hrun, hrun', hpositions.trans hpositions'.symm⟩

end Queue

theorem flush_points_cut_marks :
    ∃ flushes flushes',
      arrive ⟨16384⟩ farSkip 0x80 7 (newPafQueue 1000 2 fun _ => 192) [[[1, 70, 2, 70]]] = some flushes ∧
      arrive ⟨16384⟩ farSkip 0x80 7 (newPafQueue 77 2 fun _ => 192) [[[1]], [[70], [2, 70]]] =
        some flushes' ∧
      positions 0 flushes = positions 0 flushes' := by
  have hxs : Cut farSkip 0x80 (2 ^ 14) (.search 2) 0 [1, 70, 2, 70] [[[1, 70, 2, 70]]] :=
    ⟨rfl, by decide, by decide, by decide, trivial⟩
  have hys : Cut farSkip 0x80 (2 ^ 14) (.search 2) 0 [1, 70, 2, 70] [[[1]], [[70], [2, 70]]] :=
    ⟨rfl, by decide, by decide, by decide, by decide, by decide, trivial⟩
  have hfits : Fits (frame farSkip 0x80) (2 ^ 32) (.search 2) 0 [1, 70, 2, 70] := by
    refine ⟨?_, ?_, ?_, ?_, trivial⟩
    all_goals
      rintro s ⟨⟩
      decide
  exact flush_points_cut (lawfulCallback_farSkip _) (by decide) limits_farSkip limits_farSkip hxs hys
    hfits (by decide)

/-- In one segment the callback goes back to the byte that it has selected in front of. -/
theorem flush_points_wrap :
    LawfulCallback farSkip 0x80 (2 ^ 14) ∧
    (∀ i, Limits ⟨16384⟩ ((fun _ => 192 : ℕ → U32) i) (2 ^ 14)) ∧
    Cut farSkip 0x80 (2 ^ 14) (.search 0) 0 [1, 2, 70] [[[1, 2, 70]]] ∧
    Cut farSkip 0x80 (2 ^ 14) (.search 0) 0 [1, 2, 70] [[[1]], [[2]], [[70]]] ∧
    (arrive ⟨16384⟩ farSkip 0x80 6 (newPafQueue 1000 0 fun _ => 192) [[[1, 2, 70]]]).map (positions 0) =
      some [(2, 0x380), (3, 0x380)] ∧
    (arrive ⟨16384⟩ farSkip 0x80 6 (newPafQueue 1000 0 fun _ => 192) [[[1]], [[2]], [[70]]]).map
      (positions 0) = some [(3, 0x380)] := by
  refine ⟨lawfulCallback_farSkip _, limits_farSkip, ⟨rfl, by decide, by decide, ?_⟩,
    ⟨rfl, by decide, by decide, ?_⟩, by decide +kernel, by decide +kernel⟩
  · exact ⟨by decide, trivial⟩
  · exact ⟨by decide, by decide, by decide, trivial⟩

end Snort.Stream5
