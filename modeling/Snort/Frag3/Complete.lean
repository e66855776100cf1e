import Snort.Frag3.Invariants

/-!
# Completeness by counting

`Frag3IsComplete` compares `frag_bytes` with `calculated_size` and does not look at the list.
The count is the size of what is held, and the held nodes lie within the calculated size, so by
`Tiled.full` a complete tracker has no hole.
-/

namespace Snort.Frag3

open CInt Tiling

/-- The end of the datagram, once known, is not before the end of a held fragment: neither when
the last fragment arrives, nor when an unfragmented datagram does. -/
structure EndsFit (ft : FragTracker) (p : Packet) : Prop where
  whole : ft.gotLast = true → p.mf = false → p.fragOffset = 0 → fragStop ft p ≤ ft.calculatedSize
  last : ft.gotLast = false → p.mf = false → 0 < p.fragOffset →
    ∀ n ∈ ft.fraglist, n.stop ≤ max ft.calculatedSize (fragStop ft p)

instance (ft : FragTracker) (p : Packet) : Decidable (EndsFit ft p) :=
  decidable_of_iff
    ((ft.gotLast = true → p.mf = false → p.fragOffset = 0 →
        fragStop ft p ≤ ft.calculatedSize) ∧
      (ft.gotLast = false → p.mf = false → 0 < p.fragOffset →
        ∀ n ∈ ft.fraglist, n.stop ≤ max ft.calculatedSize (fragStop ft p)))
    ⟨fun ⟨h1, h2⟩ => ⟨h1, h2⟩, fun h => ⟨h.whole, h.last⟩⟩

/-- The counter is the size of what is held, which lies within the announced end. -/
structure Counted (ft : FragTracker) : Prop where
  bytes : ft.fragBytes = sizes ft.fraglist
  ends : ft.gotLast = true → ∀ n ∈ ft.fraglist, n.stop ≤ ft.calculatedSize

theorem sizes_le {l : List Frag3Frag} (hl : Laid l) {N : ℕ} (h : ∀ n ∈ l, n.stop ≤ N) :
    sizes l ≤ N :=
  hl.total_le (Nat.zero_le N) (fun _ _ => Nat.le_add_right _ _) (fun _ _ => Nat.zero_le _) h

theorem Opened.counted {policy : FragPolicy} {p : Packet} {b : Bool} {ft : FragTracker}
    (h : Opened policy p b ft) (hp : p.mf = true → p.ipFragLen % 8 = 0) : Counted ft := by
  constructor
  · rw [h.bytes, h.list]
    cases b with
    | false => rfl
    | true =>
      simp only [if_true, sizes_cons, opened]
      split_ifs with hmf
      · have := hp hmf
        simp only [sizes, total_nil]
        omega
      · rfl
  · intro hl n hn
    rw [h.gotLast] at hl
    simp only [Bool.and_eq_true, Bool.not_eq_true', bne_iff_ne] at hl
    obtain ⟨⟨rfl, hmf⟩, ho⟩ := hl
    rw [h.list] at hn
    rw [List.mem_singleton.1 hn, h.size, if_pos ⟨rfl, hmf, Nat.pos_of_ne_zero ho⟩]
    simp [opened, hmf]

theorem Counted.expire {ft : FragTracker} (h : Counted ft) (ctx : Frag3Context) (p : Packet) :
    Counted (frag3Expire ctx p ft) := by
  unfold frag3Expire
  split_ifs
  · exact ⟨rfl, fun hl => by cases hl⟩
  · exact h

theorem asNode_stop {ft : FragTracker} {p : Packet} : (asNode ft p).stop = fragStop ft p := by
  simp only [asNode, Frag3Frag.stop]
  cases hmf : p.mf with
  | true =>
    have hstart : fragStart ft p = p.fragOffset * 8 :=
      if_neg fun hadj => by simp [hadj.2.2.1] at hmf
    have hstop : fragStop ft p = (p.fragOffset * 8 + p.ipFragLen) / 8 * 8 := if_pos hmf
    omega
  | false =>
    have hstop : fragStop ft p = fragStart ft p + p.ipFragLen := by simp [fragStop, hmf]
    omega

/-- What is held and what arrives lies within the end that the tracker notes. -/
theorem Counted.noted {ft : FragTracker} {p : Packet} (h : Counted ft) (hp : EndsFit ft p)
    (hl : (noted ft p).gotLast = true) :
    (∀ n ∈ ft.fraglist, n.stop ≤ (noted ft p).calculatedSize) ∧
      fragStop ft p ≤ (noted ft p).calculatedSize := by
  cases hmf : p.mf with
  | true =>
    have hlast : ft.gotLast = true := by simpa [Frag3.noted, hmf] using hl
    have hsize : (Frag3.noted ft p).calculatedSize = max ft.calculatedSize (fragStop ft p) := by
      simp [Frag3.noted, hmf]
    rw [hsize]
    exact ⟨fun n hn => (h.ends hlast n hn).trans (le_max_left _ _), le_max_right _ _⟩
  | false =>
    rcases Nat.eq_zero_or_pos p.fragOffset with hz | hpos
    · have hlast : ft.gotLast = true := by simpa [Frag3.noted, hmf, hz] using hl
      have hsize : (Frag3.noted ft p).calculatedSize = ft.calculatedSize := by
        simp [Frag3.noted, hmf, hz]
      rw [hsize]
      exact ⟨h.ends hlast, hp.whole hlast hmf hz⟩
    · rw [noted_last hmf hpos]
      refine ⟨fun n hn => ?_, le_max_right _ _⟩
      cases hlast : ft.gotLast with
      | true => exact (h.ends hlast n hn).trans (le_max_left _ _)
      | false => exact hp.last hlast hmf hpos n hn

theorem Stepped.counted {p : Packet} {ft ft' : FragTracker} {ret : InsertRet}
    (h : Stepped p ft ret ft') (hb : Bounded ft'.fraglist) (hsmall : ft.fragBytes < 4294967296)
    (hp : EndsFit ft p) (hc : Counted ft) : Counted ft' := by
  constructor
  · have hle := sizes_le h.laid fun n hn => (hb n hn).1
    have hlt := h.small hsmall
    have hbytes := h.refit.bytes
    have hc' := hc.bytes
    omega
  · intro hl n hn
    rcases h.ends with ⟨h1, h2, h3⟩ | ⟨h1, h2⟩
    · rw [h1] at hl
      rw [h3] at hn
      rw [h2 hl]
      exact hc.ends hl n hn
    · rw [h1] at hl
      obtain ⟨hheld, hnew⟩ := hc.noted hp hl
      rw [h2]
      rcases h.refit.pieces n hn with ⟨m, hm, hpc⟩ | hpc
      · exact hpc.stop.trans (hheld m hm)
      · exact hpc.stop.trans (asNode_stop.trans_le hnew)

/-- A step of the runs considered. -/
structure CountedStep (env : Env) (ctx : Frag3Context) (ft : FragTracker) (p : Packet) : Prop
    where
  legal : Legal (frag3Expire ctx p ft) p
  slipFree : SlipFree (frag3Expire ctx p ft) p
  ends : EndsFit (frag3Expire ctx p ft) p

/-- **A complete tracker has no hole**: in every run whose opening fragment is counted with its
aligned size and whose steps meet no slip and keep the ends known, each offset of a complete
datagram lies in a node that `Frag3Rebuild` copies. -/
theorem complete_covers {policy : FragPolicy} {ps : List Packet} {ft : FragTracker}
    (h : Run policy (fun p _ => InRange p ∧ (p.mf = true → p.ipFragLen % 8 = 0)) CountedStep ps ft)
    (hdone : frag3IsComplete ft = true) {x : ℕ} (hx : x < ft.calculatedSize) :
    ∃ n ∈ ft.fraglist, n.stop ≤ ft.calculatedSize ∧ n.offset ≤ x ∧ x < n.stop := by
  have hinv : Sound policy ft ∧ Counted ft :=
    h.invariant (I := fun _ ft => Counted ft) (fun _ _ hp => hp.1)
      (fun _ _ _ _ _ hp => ⟨hp.legal, hp.slipFree⟩) (fun _ _ _ hp ho => ho.counted hp.2)
      (fun _ ctx _ _ p hs hc hp hst => by
        have he := hs.expire ctx p
        have hce := hc.expire ctx p
        refine hst.counted (hst.refit.bounded he.bounded (asNode_bounded hp.legal)) ?_ hp.ends hce
        have := sizes_le he.laid fun n hn => (he.bounded n hn).1
        rw [hce.bytes]
        omega)
  obtain ⟨hs, hc⟩ := hinv
  simp only [frag3IsComplete, Bool.and_eq_true, Bool.or_eq_true, decide_eq_true_eq] at hdone
  obtain ⟨⟨-, hl⟩, hbytes⟩ := hdone
  have hends := hc.ends hl
  have htotal : ft.calculatedSize - 0 ≤ sizes ft.fraglist := by
    rw [← hc.bytes]
    omega
  obtain ⟨n, hn, hcov⟩ := hs.laid.full (fun _ _ => Nat.le_add_right _ _)
    (fun _ _ => Nat.zero_le _) hends htotal (Nat.zero_le x) hx
  exact ⟨n, hn, hends n hn, hcov⟩

theorem complete_covers_pair : ∃ ft,
    Run .linux (fun p _ => InRange p ∧ (p.mf = true → p.ipFragLen % 8 = 0)) CountedStep
      [zeros 1 8 false, zeros 0 8 true] ft ∧
    ∃ n ∈ ft.fraglist, n.stop ≤ ft.calculatedSize ∧ n.offset ≤ 9 ∧ 9 < n.stop := by
  have h : Run .linux (fun p _ => InRange p ∧ (p.mf = true → p.ipFragLen % 8 = 0)) CountedStep
      [zeros 1 8 false, zeros 0 8 true] _ :=
    .insert {} {} (.new {} rfl ⟨by decide, by decide⟩)
      ⟨⟨by decide, by decide, by decide⟩, by decide, by decide⟩
  exact ⟨_, h, complete_covers h (by decide) (by decide)⟩

/-- `Frag3NewTracker` does not raise `calculated_size`: an opening fragment beyond the end of the
datagram is counted, and the datagram is complete with a hole. -/
theorem complete_with_hole : ∃ ft,
    Run .linux Opens Regular [zeros 10 8 false, zeros 0 8 true, zeros 100 80 true] ft ∧
    frag3IsComplete ft = true ∧ ft.bad = false ∧ 8 < ft.calculatedSize ∧
      ¬ ∃ n ∈ ft.fraglist, n.stop ≤ ft.calculatedSize ∧ n.offset ≤ 8 ∧ 8 < n.stop := by
  have h : Run .linux Opens Regular [zeros 10 8 false, zeros 0 8 true, zeros 100 80 true] _ :=
    .insert {} {} (.insert {} {} (.new {} rfl ⟨rfl, by decide, by decide⟩)
      ⟨by decide, by decide, fun _ => rfl, by decide, rfl, by decide⟩)
      ⟨by decide, by decide, fun _ => rfl, by decide, rfl, by decide⟩
  exact ⟨_, h, by decide, by decide, by decide, by decide⟩

end Snort.Frag3
