import Mathlib.Data.List.TakeWhile
import Snort.Frag3.LeftSide

/-!
# `Frag3Insert` as one step

Where a fragment is put, when the step is free of the slips of the chunked insertion
(`SlipFree`), and what a step does to the tracker (`Stepped`).
-/

namespace Snort.Frag3

open CInt Tiling

/-! ### Where a fragment goes -/

/-- Under SOLARIS a last fragment that does not fall short of the end announced before is put at
that end. -/
def Adjusts (ft : FragTracker) (p : Packet) : Prop :=
  ft.fragPolicy = .solaris ∧ ft.gotLast ∧ p.mf = false ∧ 0 < p.fragOffset ∧
    ft.calculatedSize ≤ p.fragOffset * 8 + p.ipFragLen

instance (ft : FragTracker) (p : Packet) : Decidable (Adjusts ft p) := by
  unfold Adjusts; infer_instance

/-- The datagram offset at which the fragment is put. -/
def fragStart (ft : FragTracker) (p : Packet) : ℕ :=
  if Adjusts ft p then ft.calculatedSize else p.fragOffset * 8

/-- The end of the fragment, cut back to an eight byte boundary unless it is the last. -/
def fragStop (ft : FragTracker) (p : Packet) : ℕ :=
  if p.mf then (p.fragOffset * 8 + p.ipFragLen) / 8 * 8 else fragStart ft p + p.ipFragLen

/-- The fragment as a node that holds all of it. -/
def asNode (ft : FragTracker) (p : Packet) : Frag3Frag :=
  { data := 0, size := fragStop ft p - fragStart ft p, offset := fragStart ft p,
    fptr := p.ipFragStart, flen := p.ipFragLen, ord := 0, last := !p.mf }

/-- The lengths and offsets that the 16 bit variables can hold. -/
structure Legal (ft : FragTracker) (p : Packet) : Prop where
  small : p.ipFragLen ≤ 32767
  bound : p.fragOffset * 8 + p.ipFragLen ≤ 65535
  adjust : Adjusts ft p → ft.calculatedSize + p.ipFragLen ≤ 65535

/-! ### The slips of the chunked insertion -/

/-- A fragment that is not the last reaches beyond the end of the datagram: it is refused. -/
def Oversize (ft : FragTracker) (p : Packet) : Prop :=
  p.mf = true ∧ ft.gotLast = true ∧ ft.calculatedSize < fragStop ft p

/-- A last fragment that does not end where the datagram does: it is refused when it overlaps
anything. -/
def Tears (ft : FragTracker) (p : Packet) : Prop :=
  p.mf = false ∧ (fragStop ft p < ft.calculatedSize ∨
    (p.fragOffset = 0 ∧ ft.gotLast = true ∧ fragStop ft p ≠ ft.calculatedSize))

/-- The held fragments that start before `o`, and the others. -/
def startsAt (o : ℕ) (l : List Frag3Frag) : List Frag3Frag × List Frag3Frag :=
  (l.takeWhile fun n => n.offset < o, l.dropWhile fun n => n.offset < o)

/-- Where a fragment at `o` goes on when it gives way to the one before it. -/
def movedTo (o : ℕ) (l : List Frag3Frag) : ℕ :=
  match (startsAt o l).1.getLast? with
  | none => o
  | some left => max o left.stop

/-- The fragment can be inserted without a wrong `slide` or `trunc`: it is refused beforehand,
the fragment before it covers it, or the chunks are sound. -/
def SlipFree (ft : FragTracker) (p : Packet) : Prop :=
  Oversize ft p ∨ Tears ft p ∨
    fragStop ft p ≤ movedTo (fragStart ft p) ft.fraglist ∨
    ChunkSafe ft.fragPolicy (fragStart ft p) (movedTo (fragStart ft p) ft.fraglist)
      (fragStop ft p) (startsAt (fragStart ft p) ft.fraglist).2

instance (ft : FragTracker) (p : Packet) : Decidable (SlipFree ft p) := by
  unfold SlipFree Oversize Tears; infer_instance

/-! ### The first part: `Frag3CheckFirstLast` and the cut -/

/-- What the tracker knows of the datagram's ends after a fragment that is not refused. -/
def noted (ft : FragTracker) (p : Packet) : FragTracker :=
  { ft with
    gotFirst := ft.gotFirst || (p.mf && p.fragOffset == 0)
    gotLast := ft.gotLast || (!p.mf && p.fragOffset != 0)
    calculatedSize :=
      if p.mf = false ∧ p.fragOffset = 0 then ft.calculatedSize
      else max ft.calculatedSize (fragStop ft p) }

/-- What the first part fixes for the rest of the insertion. -/
structure CutSpec (ft : FragTracker) (p : Packet) (c : Cut) : Prop extends CutOk p c where
  orig : c.origOffset = p.fragOffset * 8
  start : c.fragOffset = fragStart ft p
  stop : c.fragEnd = fragStop ft p
  lastfrag : c.lastfrag = !p.mf
  admitted : ¬ Oversize ft p

/-- A refusal before the list is looked at. -/
structure Refused (ft : FragTracker) (p : Packet) (ft' : FragTracker) : Prop where
  list : ft'.fraglist = ft.fraglist
  bytes : ft'.fragBytes = ft.fragBytes
  policy : ft'.fragPolicy = ft.fragPolicy
  ends : (ft'.gotLast = ft.gotLast ∧
      (ft.gotLast = true → ft'.calculatedSize = ft.calculatedSize)) ∨
    (ft'.gotLast = (noted ft p).gotLast ∧ ft'.calculatedSize = (noted ft p).calculatedSize)
  bound : ft'.calculatedSize ≤ 65535
  why : Oversize ft p ∨ fragStop ft p = fragStart ft p

section FirstPart

variable {ft : FragTracker} {p : Packet}

theorem Legal.end16 (h : Legal ft p) :
    u16 ((p.fragOffset : ℤ) * 8 + p.ipFragLen) = p.fragOffset * 8 + p.ipFragLen :=
  u16_of_eq (by push_cast; ring) (by have := h.bound; omega)

theorem Legal.stop_le (h : Legal ft p) : fragStop ft p ≤ 65535 := by
  obtain ⟨-, h3, h4⟩ := h
  unfold fragStop fragStart
  split_ifs with hmf hadj
  · omega
  · exact h4 hadj
  · exact h3

theorem firstLast_mf (hmf : p.mf = true) :
    frag3CheckFirstLast p ft =
      ({ ft with gotFirst := ft.gotFirst || p.fragOffset == 0 }, .firstlastOk) := by
  unfold frag3CheckFirstLast
  by_cases ho : p.fragOffset = 0
  · simp [hmf, ho]
  · have : (p.fragOffset == 0) = false := by simp [ho]
    simp [hmf, ho, this]

theorem firstLast_whole (hmf : p.mf = false) (ho : p.fragOffset = 0) :
    frag3CheckFirstLast p ft = (ft, .firstlastOk) := by
  simp [frag3CheckFirstLast, hmf, ho]

theorem firstLast_last (h : Legal ft p) (hmf : p.mf = false) (ho : 0 < p.fragOffset) :
    ∃ flo, (flo = .lastOffsetAdjust ↔ Adjusts ft p) ∧
      frag3CheckFirstLast p ft =
        ({ ft with
            gotLast := true
            calculatedSize := if Adjusts ft p then ft.calculatedSize
              else max ft.calculatedSize (p.fragOffset * 8 + p.ipFragLen) }, flo) := by
  have he := h.end16
  unfold frag3CheckFirstLast
  rw [if_neg (by simp [hmf]), if_pos (by simp [hmf, ho])]
  simp only [he]
  by_cases hadj : Adjusts ft p
  · obtain ⟨hp, hl, -, -, hle⟩ := id hadj
    refine ⟨.lastOffsetAdjust, by simp [hadj], ?_⟩
    simp [hp, hl, hle, hadj]
  · generalize hr : (if ft.gotLast = true then
        if ft.calculatedSize > p.fragOffset * 8 + p.ipFragLen then FirstLast.lastDuplicate
        else if ft.fragPolicy = .solaris then .lastOffsetAdjust else .firstlastOk
      else .firstlastOk) = r
    have hne : r ≠ .lastOffsetAdjust := by
      rw [← hr]
      split_ifs with hl hgt hp
      · simp
      · exact absurd ⟨hp, hl, hmf, ho, not_lt.1 hgt⟩ hadj
      · simp
      · simp
    refine ⟨r, by simp [hadj, hne], ?_⟩
    by_cases hlt : ft.calculatedSize < p.fragOffset * 8 + p.ipFragLen
    · rw [if_pos ⟨hlt, hne⟩, if_neg hadj, max_eq_right hlt.le]
    · rw [if_neg (fun hh => hlt hh.1), if_neg hadj, max_eq_left (not_lt.1 hlt)]

/-- The first part of the insertion of a fragment that is not the last. -/
theorem cutFragment_mf (h : Legal ft p) (hsize : ft.calculatedSize ≤ 65535) (hmf : p.mf = true) :
    (∃ c, CutSpec ft p c ∧
      cutFragment p (frag3CheckFirstLast p ft).2 (frag3CheckFirstLast p ft).1 =
        .ok (c, noted ft p)) ∨
    ∃ ft', Refused ft p ft' ∧
      cutFragment p (frag3CheckFirstLast p ft).2 (frag3CheckFirstLast p ft).1 =
        .error (.anomaly, ft') := by
  obtain ⟨h2, h3, -⟩ := h
  have hlen : i16 (p.ipFragLen : ℤ) = p.ipFragLen := i16_of_range (by omega) (by omega)
  have ho : u16 ((p.fragOffset : ℤ) * 8) = p.fragOffset * 8 := u16_of_eq (by simp) (by omega)
  have he : u16 (((p.fragOffset * 8 : ℕ) : ℤ) + p.ipFragLen) = p.fragOffset * 8 + p.ipFragLen :=
    u16_of_eq (by simp) (by omega)
  have hstart : fragStart ft p = p.fragOffset * 8 := if_neg fun hadj => by
    simp [hadj.2.2.1] at hmf
  have hstop : fragStop ft p = (p.fragOffset * 8 + p.ipFragLen) / 8 * 8 := if_pos hmf
  have hl : i16 ((p.ipFragLen : ℤ) - ((p.fragOffset * 8 + p.ipFragLen : ℕ) -
      ((p.fragOffset * 8 + p.ipFragLen) / 8 * 8 : ℕ))) =
      ((p.fragOffset * 8 + p.ipFragLen) / 8 * 8 : ℕ) - (p.fragOffset * 8 : ℕ) := by
    rw [i16_of_range] <;> omega
  have hle : fragStop ft p ≤ 65535 := by omega
  have hspec : fragStop ft p ≠ fragStart ft p → ¬ Oversize ft p →
      CutSpec ft p ⟨fragStart ft p, fragStart ft p, fragStop ft p,
        (fragStop ft p : ℤ) - fragStart ft p, p.ipFragLen, false⟩ := fun hne hno =>
    ⟨⟨rfl, h2, rfl, by simp only; omega, by simp only; omega, hle⟩, hstart, rfl, rfl,
      by simp [hmf], hno⟩
  rw [firstLast_mf hmf]
  unfold cutFragment
  simp only [hlen, ho, he, hmf, hl, reduceCtorEq, if_false, Bool.not_true, Bool.false_eq_true]
  rw [← hstop, ← hstart] at *
  by_cases hgt : ft.calculatedSize < fragStop ft p
  · by_cases hlast : ft.gotLast = true
    · refine Or.inr ⟨{ ft with gotFirst := ft.gotFirst || p.fragOffset == 0 },
        ⟨rfl, rfl, rfl, Or.inl ⟨rfl, fun _ => rfl⟩, hsize, Or.inl ⟨hmf, hlast, hgt⟩⟩, ?_⟩
      simp [hgt, hlast]
    · by_cases hempty : fragStop ft p = fragStart ft p
      · refine Or.inr ⟨{ ft with gotFirst := ft.gotFirst || p.fragOffset == 0,
                                 calculatedSize := fragStop ft p },
          ⟨rfl, rfl, rfl, Or.inl ⟨rfl, fun hl => absurd hl hlast⟩, hle, Or.inr hempty⟩, ?_⟩
        rw [if_pos hgt, if_neg hlast]
        simp [hempty]
      · refine Or.inl ⟨_, hspec hempty fun ho => hlast ho.2.1, ?_⟩
        simp [hgt, hlast, hempty, noted, hmf, max_eq_right hgt.le, ipMaxpacket, hle]
  · by_cases hempty : fragStop ft p = fragStart ft p
    · refine Or.inr ⟨{ ft with gotFirst := ft.gotFirst || p.fragOffset == 0 },
        ⟨rfl, rfl, rfl, Or.inl ⟨rfl, fun _ => rfl⟩, hsize, Or.inr hempty⟩, ?_⟩
      rw [if_neg hgt]
      simp [hempty]
    · refine Or.inl ⟨_, hspec hempty fun ho => hgt ho.2.2, ?_⟩
      simp [hgt, hempty, noted, hmf, max_eq_left (not_lt.1 hgt), ipMaxpacket, hsize]

theorem noted_last (hmf : p.mf = false) (ho : 0 < p.fragOffset) :
    noted ft p =
      { ft with gotLast := true, calculatedSize := max ft.calculatedSize (fragStop ft p) } := by
  have hne : (p.fragOffset != 0) = true := by simpa using ho.ne'
  simp [noted, hmf, hne, ho.ne']

/-- The first part of the insertion of a last fragment; an empty one is refused. -/
theorem cutFragment_last (h : Legal ft p) (hsize : ft.calculatedSize ≤ 65535)
    (hmf : p.mf = false) :
    cutFragment p (frag3CheckFirstLast p ft).2 (frag3CheckFirstLast p ft).1 =
      if fragStop ft p = fragStart ft p then .error (.anomaly, noted ft p)
      else .ok (⟨p.fragOffset * 8, fragStart ft p, fragStop ft p, p.ipFragLen, p.ipFragLen, true⟩,
        noted ft p) := by
  obtain ⟨h2, h3, h4⟩ := id h
  have hlen : i16 (p.ipFragLen : ℤ) = p.ipFragLen := i16_of_range (by omega) (by omega)
  have ho : u16 ((p.fragOffset : ℤ) * 8) = p.fragOffset * 8 := u16_of_eq (by simp) (by omega)
  have hs : u16 (ft.calculatedSize : ℤ) = ft.calculatedSize := u16_of_eq rfl (by omega)
  have hstop : fragStop ft p = fragStart ft p + p.ipFragLen := by simp [fragStop, hmf]
  have hle := h.stop_le
  have he : u16 ((fragStart ft p : ℤ) + p.ipFragLen) = fragStop ft p :=
    u16_of_eq (by rw [hstop]; push_cast; rfl) (by omega)
  rcases Nat.eq_zero_or_pos p.fragOffset with hz | hpos
  · have hstart : fragStart ft p = p.fragOffset * 8 := if_neg fun hadj => by
      have := hadj.2.2.2.1; omega
    rw [firstLast_whole hmf hz]
    unfold cutFragment
    simp only [hlen, ho, ← hstart, he, hmf, reduceCtorEq, if_false, and_false, Bool.not_false,
      if_true]
    rw [if_neg (show ¬ ft.calculatedSize > ipMaxpacket by simp only [ipMaxpacket]; omega)]
    simp [noted, hmf, hz]
  · obtain ⟨flo, hflo, heq⟩ := firstLast_last h hmf hpos
    rw [heq]
    unfold cutFragment
    by_cases hadj : Adjusts ft p
    · have hstart : fragStart ft p = ft.calculatedSize := if_pos hadj
      have hmax : (if fragStop ft p > ft.calculatedSize then
          { ft with gotLast := true, calculatedSize := fragStop ft p }
          else { ft with gotLast := true }) = noted ft p := by
        split_ifs with hgt
        · rw [noted_last hmf hpos, max_eq_right (le_of_lt hgt)]
        · rw [noted_last hmf hpos, max_eq_left (not_lt.1 hgt)]
      have hbound : ¬ (noted ft p).calculatedSize > ipMaxpacket := by
        simp only [noted, ipMaxpacket]; split_ifs <;> omega
      rw [hstart] at he ⊢
      simp only [hlen, ho, hs, he, hmf, hflo.2 hadj, if_pos hadj, Bool.not_false, if_true,
        and_true, hmax, if_neg hbound]
    · have hstart : fragStart ft p = p.fragOffset * 8 := if_neg hadj
      have hflo' : flo ≠ .lastOffsetAdjust := fun hh => hadj (hflo.1 hh)
      simp only [hlen, ho, ← hstart, he, hmf, hflo', if_false, if_neg hadj, and_false,
        Bool.not_false, if_true]
      rw [← hstop, if_neg (show ¬ max ft.calculatedSize (fragStop ft p) > ipMaxpacket by
        simp only [ipMaxpacket]; omega)]
      simp [noted_last hmf hpos]

theorem cutFragment_cases (h : Legal ft p) (hsize : ft.calculatedSize ≤ 65535) :
    (∃ c, CutSpec ft p c ∧
      cutFragment p (frag3CheckFirstLast p ft).2 (frag3CheckFirstLast p ft).1 =
        .ok (c, noted ft p)) ∨
    ∃ ft', Refused ft p ft' ∧
      cutFragment p (frag3CheckFirstLast p ft).2 (frag3CheckFirstLast p ft).1 =
        .error (.anomaly, ft') := by
  cases hmf : p.mf with
  | true => exact cutFragment_mf h hsize hmf
  | false =>
    have hle := h.stop_le
    have hstop : fragStop ft p = fragStart ft p + p.ipFragLen := by simp [fragStop, hmf]
    have hno : ¬ Oversize ft p := fun ho => by simp [ho.1] at hmf
    rw [cutFragment_last h hsize hmf]
    split_ifs with hempty
    · refine Or.inr ⟨noted ft p, ⟨rfl, rfl, rfl, Or.inr ⟨rfl, rfl⟩, ?_, Or.inr hempty⟩, rfl⟩
      simp only [noted]
      split_ifs <;> omega
    · exact Or.inl ⟨_, ⟨⟨rfl, h.small, by simp only; omega, by simp only; omega, le_rfl, hle⟩,
        rfl, rfl, rfl, by simp [hmf], hno⟩, rfl⟩

end FirstPart

/-! ### The list surgery -/

theorem findPlace_eq (o : ℕ) (l : List Frag3Frag) : ∀ before,
    findPlace o before l = ((startsAt o l).1.reverse ++ before, (startsAt o l).2) := by
  induction l with
  | nil => intro before; rfl
  | cons right rest ih =>
    intro before
    by_cases h : right.offset < o
    · rw [findPlace, if_neg (by omega), ih]
      simp [startsAt, h]
    · rw [findPlace, if_pos (by omega)]
      simp [startsAt, h]

theorem startsAt_ge {o : ℕ} {l : List Frag3Frag} (hl : Laid l) :
    ∀ n ∈ (startsAt o l).2, o ≤ n.offset := by
  induction l with
  | nil => simp [startsAt]
  | cons right rest ih =>
    obtain ⟨hle, hl'⟩ := tiled_cons.1 hl
    by_cases h : right.offset < o
    · have heq : (startsAt o (right :: rest)).2 = (startsAt o rest).2 := by simp [startsAt, h]
      rw [heq]
      exact ih hl'
    · have heq : (startsAt o (right :: rest)).2 = right :: rest := by simp [startsAt, h]
      rw [heq]
      intro n hn
      rcases List.mem_cons.1 hn with rfl | hn
      · omega
      · have := hle n hn
        simp only [Frag3Frag.stop] at this
        omega

/-- What the list surgery has done to the walk `w` by the time it returns `ret`. -/
structure Inserted (p : Packet) (c : Cut) (w : Walk) (ret : InsertRet) (w' : Walk) : Prop extends
    Safe (whole p c) w w' where
  cover : ret = .ok → ∀ x,
    Held w'.nodes x ↔ Held w.nodes x ∨ (w.fragOffset ≤ x ∧ x < c.fragEnd)
  last : w.ft.fragPolicy = .last → w.fragOffset = c.fragOffset → ret ≠ .anomaly ∧
    (ret = .ok → ∃ n ∈ w'.nodes,
      PieceOf n (whole p c) ∧ n.offset = c.fragOffset ∧ n.stop = c.fragEnd)

section Surgery

variable {env : Env} {ctx : Frag3Context} {p : Packet} {c : Cut} {w w' : Walk}

theorem Inserted.of_goes (h : Goes p c w w') {ret : InsertRet} {w'' : Walk}
    (h' : Inserted p c w' ret w'') : Inserted p c w ret w'' where
  toSafe := h.toSafe.trans h'.toSafe
  cover hr x := (h'.cover hr x).trans (h.cover x)
  last hp ho := h'.last (h.policy.trans hp) ((h.still hp).1.trans ho)

/-- A refusal on the way. -/
theorem Inserted.of_error {ret : InsertRet} (hne : ret ≠ .ok)
    (hna : w.ft.fragPolicy = .last → ret ≠ .anomaly) (h : Safe (whole p c) w w') :
    Inserted p c w ret w' :=
  ⟨h, fun hr => absurd hr hne, fun hp _ => ⟨hna hp, fun hr => absurd hr hne⟩⟩

/-- The last chunk is linked, if anything is left for it. -/
theorem Ready.link (h : Ready p c w w') (hc : CutOk p c) (hw : Open c w) :
    Inserted p c w
      (match addFragNode env p c c.lastfrag w' with
        | .error e => e
        | .ok (_, w) => (.ok, w)).1
      (match addFragNode env p c c.lastfrag w' with
        | .error e => e
        | .ok (_, w) => (.ok, w)).2 := by
  have hlt := hc.lt
  have hlen := hc.len
  rcases h.fits with hz | ⟨hs, hb, ht, hbefore, hafter, hcov⟩
  · rw [addFragNode_anomaly hc h.slide_nonneg h.trunc_nonneg h.range hz]
    refine ⟨h.toSafe, by simp, fun hp ho => ?_⟩
    obtain ⟨h1, h2, h3⟩ := h.last hp
    have := hw.slide
    omega
  · rcases addFragNode_cases env c.lastfrag hc hs hb h.trunc_nonneg ht with
      hadd | ⟨n, hno, hns, hnp, hadd⟩
    · rw [hadd]
      exact Inserted.of_error (by simp) (by simp) h.toSafe
    · rw [hadd]
      have hn : w'.nodes = w'.before.reverse ++ w'.rest := Walk.nodes_eq h.mid
      have hpos : 0 < n.size := by simp only [Frag3Frag.stop] at hns; omega
      have hlaid : Laid (w'.before.reverse ++ n :: w'.rest) := by
        refine (hn ▸ h.laid : Laid _).insert ?_ ?_
        · intro a ha
          have := hbefore a (List.mem_reverse.1 ha)
          omega
        · intro b hb
          have := hafter b hb
          omega
      have hsafe : Safe (whole p c) w' { w' with
          mid := n :: w'.mid
          ft := { w'.ft with ordinal := w'.ft.ordinal + 1,
                             fragBytes := u32 (w'.ft.fragBytes + n.size) } } := by
        refine Safe.of_nodes (hn ▸ Refit.add hnp hpos) hlaid (fun _ m hm => ?_) ?_ rfl rfl rfl rfl
          rfl rfl (u32_lt (w'.ft.fragBytes + n.size))
        · rw [hn] at hm
          rcases List.mem_append.1 hm with hm | hm
          · exact List.mem_append_left _ hm
          · exact List.mem_append_right _ (List.mem_cons_of_mem _ hm)
        · simp [Walk.nodes, h.mid]
      refine ⟨h.toSafe.trans hsafe, fun _ x => ?_, fun hp ho => ⟨by simp, fun _ => ?_⟩⟩
      · rw [← hcov x]
        simp only [Walk.nodes, h.mid, covers_append, covers_cons, covers_nil, hno]
        constructor
        · rintro ((hx | hx | hx) | hx)
          · exact Or.inl (Or.inl (Or.inl hx))
          · exact Or.inr (by omega)
          · exact hx.elim
          · exact Or.inl (Or.inr hx)
        · rintro (((hx | hx) | hx) | hx)
          · exact Or.inl (Or.inl hx)
          · exact hx.elim
          · exact Or.inr hx
          · exact Or.inl (Or.inr (Or.inl (by omega)))
      · obtain ⟨h1, h2, h3⟩ := h.last hp
        exact ⟨n, by simp [Walk.nodes], hnp, by omega, by omega⟩

/-- **From the right-side overlaps on.** -/
theorem finishInsert_post (hc : CutOk p c) (hw : Open c w) (ht : w.trunc = 0)
    (horig : w.ft.fragPolicy = .first → c.origOffset = c.fragOffset)
    (hend : w.fragOffset ≤ c.fragEnd)
    (hsafe : teardrop p c w.ft ∨
      ChunkSafe w.ft.fragPolicy c.fragOffset w.fragOffset c.fragEnd w.rest) :
    Inserted p c w (finishInsert env ctx p c w).1 (finishInsert env ctx p c w).2 := by
  have hloop := rightLoop_post env ctx hc (2 * w.rest.length + 1) w hw (by omega)
    ht horig hend hsafe
  rw [finishInsert]
  split_ifs with hsnap
  · exact Inserted.of_error (by simp) (by simp) (Safe.same hw.laid rfl ⟨_, _, rfl⟩)
  match hres : rightLoop env ctx p c (2 * w.rest.length + 1) w, hloop with
  | .error (ret, w'), ⟨hne, hna, hs⟩ => exact Inserted.of_error hne hna hs
  | .ok (true, w'), hready =>
    simp only
    split_ifs
    · exact Inserted.of_error (by simp) (by simp) hready.toSafe
    · exact hready.link hc hw
  | .ok (false, w'), ⟨hs, hp, hx⟩ =>
    simp only [Bool.false_eq_true, if_false]
    split_ifs
    · exact Inserted.of_error (by simp) (by simp) hs
    · exact ⟨hs, fun _ => hx, fun hl => absurd hl hp⟩

end Surgery

/-- The walk before the surgery. -/
def placedWalk (ft : FragTracker) (c : Cut) : Walk :=
  { ft := ft, before := (startsAt c.fragOffset ft.fraglist).1.reverse,
    rest := (startsAt c.fragOffset ft.fraglist).2, fragOffset := c.fragOffset }

section Cut

variable {env : Env} {ctx : Frag3Context} {p : Packet} {c : Cut} {ft : FragTracker}

theorem placedWalk_nodes : (placedWalk ft c).nodes = ft.fraglist := by
  simp [placedWalk, Walk.nodes, startsAt, List.takeWhile_append_dropWhile]

theorem placedWalk_placed (hl : Laid ft.fraglist) (hb : Bounded ft.fraglist) :
    Placed c (placedWalk ft c) where
  mid := rfl
  laid := by rw [placedWalk_nodes]; exact hl
  bounded := by rw [placedWalk_nodes]; exact hb
  left n hn := by
    have := List.mem_takeWhile_imp (List.mem_reverse.1 hn)
    simpa using this
  right := startsAt_ge hl
  offset := rfl
  slide := rfl
  trunc := rfl

theorem placedWalk_moved : (placedWalk ft c).moved = movedTo c.fragOffset ft.fraglist := by
  rw [Walk.moved, movedTo, List.getLast?_eq_head?_reverse]
  simp only [placedWalk]
  cases (startsAt c.fragOffset ft.fraglist).1.reverse <;> rfl

/-- What the left side leaves is as safe as what it was given. -/
theorem LeftPost.chunkSafe {w : Walk} (h : LeftPost p c (placedWalk ft c) (.ok w))
    (hsafe : teardrop p c ft ∨ c.fragEnd ≤ movedTo c.fragOffset ft.fraglist ∨
      ChunkSafe ft.fragPolicy c.fragOffset (movedTo c.fragOffset ft.fraglist) c.fragEnd
        (startsAt c.fragOffset ft.fraglist).2) :
    teardrop p c w.ft ∨
      ChunkSafe w.ft.fragPolicy c.fragOffset w.fragOffset c.fragEnd w.rest := by
  obtain ⟨hgo, -, -, -, hrej⟩ := h
  rw [hgo.policy]
  rcases hsafe with htear | hsafe
  · refine Or.inl ?_
    rw [teardrop, hgo.size, hgo.gotLast]
    exact htear
  · refine Or.inr ?_
    by_cases hr : ft.fragPolicy.rejects
    · obtain ⟨h1, h2, h3⟩ := hrej hr
      rw [placedWalk_moved] at h2
      rw [h1, h2]
      exact hsafe.resolve_left (by omega)
    · exact ChunkSafe.of_not_rejects hr

/-- **The list surgery of `Frag3Insert` is sound**, when the step is slip free. -/
theorem insertCut_post (hc : CutOk p c) (hl : Laid ft.fraglist) (hb : Bounded ft.fraglist)
    (horig : ft.fragPolicy = .first → c.origOffset = c.fragOffset)
    (hsafe : teardrop p c ft ∨ c.fragEnd ≤ movedTo c.fragOffset ft.fraglist ∨
      ChunkSafe ft.fragPolicy c.fragOffset (movedTo c.fragOffset ft.fraglist) c.fragEnd
        (startsAt c.fragOffset ft.fraglist).2) :
    Inserted p c (placedWalk ft c) (insertCut env ctx p c ft).1 (insertCut env ctx p c ft).2 := by
  have hleft := leftOverlap_post env (placedWalk_placed hl hb) hc
  rw [insertCut, findPlace_eq, List.append_nil]
  simp only
  rw [← placedWalk]
  match hres : leftOverlap env p c (placedWalk ft c), hleft with
  | .error (ret, w'), ⟨hne, hna, hs⟩ => exact Inserted.of_error hne hna hs
  | .ok w', hleft =>
    have hsafe' := hleft.chunkSafe hsafe
    obtain ⟨hgo, hopen, ht, hend, hrej⟩ := hleft
    refine Inserted.of_goes hgo (finishInsert_post hc hopen ht ?_ hend hsafe')
    rw [hgo.policy]
    exact horig

end Cut

/-! ### The whole step -/

/-- What a call of `Frag3Insert` does to the tracker `ft` (emptied before when it has timed
out). -/
structure Stepped (p : Packet) (ft : FragTracker) (ret : InsertRet) (ft' : FragTracker) : Prop
    where
  refit : Refit (asNode ft p) ft.fragBytes ft.fraglist ft'.fragBytes ft'.fraglist
  laid : Laid ft'.fraglist
  policy : ft'.fragPolicy = ft.fragPolicy
  bound : ft'.calculatedSize ≤ 65535
  small : ft.fragBytes < 4294967296 → ft'.fragBytes < 4294967296
  ends : (ft'.gotLast = ft.gotLast ∧
      (ft.gotLast = true → ft'.calculatedSize = ft.calculatedSize) ∧
        ft'.fraglist = ft.fraglist) ∨
    (ft'.gotLast = (noted ft p).gotLast ∧ ft'.calculatedSize = (noted ft p).calculatedSize)
  keep : ft.fragPolicy = .first → ∀ n ∈ ft.fraglist, n ∈ ft'.fraglist
  cover : ret = .ok → ∀ x,
    Held ft'.fraglist x ↔ Held ft.fraglist x ∨ (fragStart ft p ≤ x ∧ x < fragStop ft p)
  last : ft.fragPolicy = .last →
    (ret = .anomaly → Oversize ft p ∨ fragStop ft p = fragStart ft p) ∧
    (ret = .ok → ∃ n ∈ ft'.fraglist, PieceOf n (asNode ft p) ∧ n.offset = fragStart ft p ∧
      n.stop = fragStop ft p)

section Step

variable {p : Packet} {ft : FragTracker} {c : Cut}

theorem CutSpec.whole_eq (h : CutSpec ft p c) : whole p c = asNode ft p := by
  simp only [whole, asNode, h.start, h.stop, h.lastfrag]

theorem CutSpec.teardrop (h : CutSpec ft p c) (ht : Tears ft p) : teardrop p c (noted ft p) := by
  obtain ⟨hmf, hend⟩ := ht
  by_cases ho : p.fragOffset = 0
  · have hcalc : (noted ft p).calculatedSize = ft.calculatedSize := by simp [noted, hmf, ho]
    have hlast : ft.gotLast = true → (noted ft p).gotLast = true := fun hl => by
      simp [noted, hl]
    simp only [Frag3.teardrop, hcalc, h.stop, hmf, Bool.not_false, and_true, decide_eq_true_eq]
    rcases hend with hlt | ⟨-, hl, hne⟩
    · exact Or.inl hlt
    · exact Or.inr ⟨hlast hl, hne⟩
  · have hlt : fragStop ft p < ft.calculatedSize := by
      rcases hend with hlt | hend
      · exact hlt
      · exact absurd hend.1 ho
    simp only [Frag3.teardrop, noted_last hmf (Nat.pos_of_ne_zero ho), h.stop, hmf, Bool.not_false,
      and_true, decide_eq_true_eq]
    exact Or.inl (lt_max_of_lt_left hlt)

theorem Refused.stepped {ft' : FragTracker} (h : Refused ft p ft') (hl : Laid ft.fraglist) :
    Stepped p ft .anomaly ft' where
  refit := by rw [h.list, h.bytes]; exact Refit.refl _ _ _
  laid := by rw [h.list]; exact hl
  policy := h.policy
  bound := h.bound
  small := by rw [h.bytes]; exact id
  ends := by
    rcases h.ends with ⟨h1, h2⟩ | h1
    · exact Or.inl ⟨h1, h2, h.list⟩
    · exact Or.inr h1
  keep _ n hn := by rw [h.list]; exact hn
  cover hr := by cases hr
  last _ := ⟨fun _ => h.why, fun hr => by cases hr⟩

theorem CutSpec.stepped (hc : CutSpec ft p c) {ret : InsertRet} {w : Walk}
    (hsize : (noted ft p).calculatedSize ≤ 65535)
    (h : Inserted p c (placedWalk (noted ft p) c) ret w) : Stepped p ft ret w.relink where
  refit := by
    have hr := h.refit
    rw [placedWalk_nodes, hc.whole_eq] at hr
    exact hr
  laid := h.laid
  policy := h.policy
  bound := h.size.trans_le hsize
  small := h.small
  ends := Or.inr ⟨h.gotLast, h.size⟩
  keep hf n hn := h.keep hf n (by rw [placedWalk_nodes]; exact hn)
  cover hr x := by
    have hx := h.cover hr x
    rw [placedWalk_nodes] at hx
    rw [← hc.start, ← hc.stop]
    exact hx
  last hp := by
    obtain ⟨hna, hok⟩ := h.last hp rfl
    rw [hc.whole_eq, hc.start, hc.stop] at hok
    exact ⟨fun hr => absurd hr hna, hok⟩

end Step

/-- **One call of `Frag3Insert`**, free of slips. -/
theorem frag3Insert_stepped (env : Env) {ctx : Frag3Context} {p : Packet} {ft : FragTracker}
    (hp : Legal (frag3Expire ctx p ft) p) (hl : Laid (frag3Expire ctx p ft).fraglist)
    (hb : Bounded (frag3Expire ctx p ft).fraglist)
    (hsize : (frag3Expire ctx p ft).calculatedSize ≤ 65535)
    (hsafe : SlipFree (frag3Expire ctx p ft) p) :
    Stepped p (frag3Expire ctx p ft) (frag3Insert env ctx p ft).1
      (frag3Insert env ctx p ft).2 := by
  rw [frag3Insert]
  generalize frag3Expire ctx p ft = ft at *
  simp only
  rcases cutFragment_cases hp hsize with ⟨c, hc, heq⟩ | ⟨ft', hr, heq⟩
  · rw [heq]
    simp only
    have hbound : (noted ft p).calculatedSize ≤ 65535 := by
      have := hp.stop_le
      simp only [noted]
      split_ifs <;> omega
    refine hc.stepped hbound (insertCut_post hc.toCutOk hl hb ?_ ?_)
    · intro hf
      rw [hc.orig, hc.start]
      exact (if_neg fun hadj => by cases hadj.1.symm.trans hf).symm
    · rw [hc.start, hc.stop]
      exact (hsafe.resolve_left hc.admitted).imp_left hc.teardrop
  · rw [heq]
    exact hr.stepped hl

end Snort.Frag3
