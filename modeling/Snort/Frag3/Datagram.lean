import Snort.Frag3.Complete

/-!
# The datagram comes back

* `rebuildLoop_covered`: the copy loop writes what is held;
* **`frag3Rebuild_datagram`**: a complete tracker rebuilds the datagram, the whole of it and nothing else.
-/

namespace Snort.Frag3

open CInt

variable {d : ℕ → UInt8} {N : ℕ}

/-- A fragment of the datagram that has the bytes `d` up to `N`. -/
structure PartOf (d : ℕ → UInt8) (N : ℕ) (p : Packet) : Prop where
  range : InRange p
  inside : p.fragOffset * 8 + p.ipFragLen ≤ N
  eight : p.mf = true → p.ipFragLen % 8 = 0
  last : p.mf = false → 0 < p.fragOffset ∧ p.fragOffset * 8 + p.ipFragLen = N
  bytes : ∀ x b, carried p x = some b → b = d x

section Part

variable {p : Packet} {ft ft' : FragTracker} (hp : PartOf d N p) (hpol : ft.fragPolicy ≠ .solaris)
include hp hpol

theorem PartOf.fragStop_last (hmf : p.mf = false) : fragStop ft p = N := by
  have hstart : fragStart ft p = p.fragOffset * 8 := if_neg fun hadj => hpol hadj.1
  simp [fragStop, hmf, hstart, (hp.last hmf).2]

theorem PartOf.endsFit (hle : ∀ n ∈ ft.fraglist, n.stop ≤ N) : EndsFit ft p where
  whole _ hmf ho := absurd ho (hp.last hmf).1.ne'
  last _ hmf _ n hn := by
    rw [hp.fragStop_last hpol hmf]
    exact le_max_of_le_right (hle n hn)

/-- Once the last fragment is there, the size reaches the end. -/
theorem PartOf.reaches {ret : InsertRet} (hst : Stepped p ft ret ft')
    (hN : ft.gotLast = true → N ≤ ft.calculatedSize) (hl : ft'.gotLast = true) : N ≤ ft'.calculatedSize := by
  rcases hst.ends with ⟨h1, h2, -⟩ | ⟨h1, h2⟩
  · rw [h1] at hl
    rw [h2 hl]
    exact hN hl
  · rw [h1] at hl
    rw [h2]
    cases hmf : p.mf with
    | true =>
      refine (hN (by simpa [noted, hmf] using hl)).trans ?_
      simp [noted, hmf]
    | false =>
      rw [noted_last hmf (hp.last hmf).1, hp.fragStop_last hpol hmf]
      exact le_max_right _ _

end Part

theorem Parts.stop_le {ps : List Packet} {l : List Frag3Frag} (h : Parts ps l) (hps : ∀ p ∈ ps, PartOf d N p) :
    ∀ n ∈ l, n.stop ≤ N := by
  intro n hn
  obtain ⟨p, hp, hpc⟩ := h n hn
  exact hpc.stop.trans (hps p hp).inside

theorem Parts.byte_eq {ps : List Packet} {l : List Frag3Frag} (h : Parts ps l) (hps : ∀ p ∈ ps, PartOf d N p) {x : ℕ} :
    ∀ n ∈ l, n.offset ≤ x ∧ x < n.stop → n.fptr[n.data + (x - n.offset)]? = some (d x) := by
  intro n hn hx
  obtain ⟨p, hp, hpc⟩ := h n hn
  obtain ⟨b, hb, hcarried⟩ := hpc.carried hx
  rw [hb, (hps p hp).bytes x b hcarried]

/-- The copy loop writes what a node holds that is not beyond the size. -/
theorem rebuildLoop_covered {size maxDsize x : ℕ} {b : UInt8} {l : List Frag3Frag} {buf : ℕ → Option UInt8}
    (hmax : size ≤ maxDsize)
    (hbyte : ∀ n ∈ l, n.offset ≤ x ∧ x < n.stop → n.fptr[n.data + (x - n.offset)]? = some b)
    (hcov : buf x = some b ∨ ∃ n ∈ l, n.stop ≤ size ∧ n.offset ≤ x ∧ x < n.stop) :
    rebuildLoop size maxDsize l buf x = some b := by
  induction l generalizing buf with
  | nil => simpa [rebuildLoop] using hcov
  | cons f l ih =>
    have hl := fun n hn => hbyte n (List.mem_cons_of_mem f hn)
    simp only [List.mem_cons, exists_eq_or_imp] at hcov
    rw [rebuildLoop]
    split_ifs with hbeyond hsize hbuf
    · exact ih hl (hcov.imp_right fun h => h.resolve_left (by omega))
    · omega
    · refine ih hl ?_
      rw [copyFrag]
      split_ifs with hf
      · exact Or.inl (hbyte f List.mem_cons_self hf)
      · exact hcov.imp_right fun h => h.resolve_left fun h => hf h.2
    · have hstop : f.stop = f.offset + f.size := rfl
      exact ih hl (hcov.imp_right fun h => h.resolve_left (by omega))

/-- A step of the runs: a fragment of the datagram that meets no slip. -/
def PartStep (d : ℕ → UInt8) (N : ℕ) (_ : Env) (ctx : Frag3Context) (ft : FragTracker) (p : Packet) : Prop :=
  PartOf d N p ∧ SlipFree (frag3Expire ctx p ft) p

/-- **The datagram comes back**: in every run with fragments of one datagram, in any order, with any overlaps,
timeouts and refusals and under every policy but SOLARIS, a complete tracker rebuilds it byte by byte. -/
theorem frag3Rebuild_datagram {policy : FragPolicy} (hpol : policy ≠ .solaris) {ps : List Packet} {ft : FragTracker}
    (h : Run policy (fun p _ => PartOf d N p) (PartStep d N) ps ft) (hdone : frag3IsComplete ft = true)
    {maxDsize : ℕ} (hmax : N ≤ maxDsize) (x : ℕ) :
    frag3Rebuild maxDsize ft x = if x < N then some (d x) else none := by
  obtain ⟨hs, hps, hparts, hc, hN⟩ := h.invariant
    (I := fun ps ft => (∀ p ∈ ps, PartOf d N p) ∧ Parts ps ft.fraglist ∧ Counted ft ∧
      (ft.gotLast = true → N ≤ ft.calculatedSize))
    (fun _ _ hp => hp.range) (fun _ ctx _ p hs hp => ⟨(hs.expire ctx p).legal hpol hp.1.range, hp.2⟩)
    (fun p b ft hp ho => ⟨by simpa using hp, ho.parts, ho.counted hp.eight, fun hl => by
      simp only [ho.gotLast, Bool.and_eq_true, Bool.not_eq_true'] at hl
      simp [ho.size, hl.1.1, hl.1.2, hp.last hl.1.2]⟩)
    (fun env ctx ps ft p hs ⟨hps, hparts, hc, hN⟩ hp hst => by
      have he := hs.expire ctx p
      have hpol' := he.policy.trans_ne hpol
      have hparts' := hparts.expire ctx p
      have hce := hc.expire ctx p
      have hle := sizes_le he.laid fun n hn => (he.bounded n hn).1
      refine ⟨List.forall_mem_cons.2 ⟨hp.1, hps⟩, hst.parts hpol' hparts',
        hst.counted (hst.refit.bounded he.bounded (asNode_bounded (he.legal hpol hp.1.range)))
          (by rw [hce.bytes]; omega) (hp.1.endsFit hpol' (hparts'.stop_le hps)) hce,
        hp.1.reaches hpol' hst ?_⟩
      unfold frag3Expire
      split_ifs
      · simp
      · exact hN)
  have hstop := hparts.stop_le hps
  simp only [frag3IsComplete, Bool.and_eq_true, Bool.or_eq_true, decide_eq_true_eq] at hdone
  have hbytes := hc.bytes
  have hsizes := sizes_le hs.laid hstop
  have hreach := hN hdone.1.2
  have hsize : u16 ft.calculatedSize = N := by
    rw [u16_of_eq rfl (Nat.lt_succ_of_le hs.size)]
    omega
  rw [frag3Rebuild, hsize]
  split_ifs with hx
  · obtain ⟨n, hn, hcov⟩ := hs.laid.full (fun _ _ => Nat.le_add_right _ _) (fun _ _ => Nat.zero_le _) hstop
      (show N - 0 ≤ sizes ft.fraglist by omega) (Nat.zero_le x) hx
    exact rebuildLoop_covered hmax (hparts.byte_eq hps) (Or.inr ⟨n, hn, hstop n hn, hcov⟩)
  · refine Option.eq_none_iff_forall_not_mem.2 fun b hb => ?_
    rcases rebuildLoop_some hb with hnone | ⟨n, hn, hcov, -⟩
    · cases hnone
    · have := hstop n hn
      omega

theorem frag3Rebuild_datagram_pair : ∃ ft, frag3IsComplete ft = true ∧
    frag3Rebuild 65535 ft 9 = if 9 < 24 then some 0 else none := by
  have hpart : ∀ {p : Packet} {len : ℕ}, p.ipFragStart = List.replicate len 0 →
      ∀ x b, carried p x = some b → b = (fun _ => 0) x := by
    intro p len hp x b hb
    rw [carried, hp] at hb
    split_ifs at hb
    exact List.eq_of_mem_replicate (List.mem_of_getElem? hb)
  have h : Run .linux (fun p _ => PartOf (fun _ => 0) 24 p) (PartStep (fun _ => 0) 24)
      [zeros 1 16 false, zeros 0 16 true] _ :=
    .insert {} {} (.new {} rfl ⟨by decide, by decide, by decide, by decide, hpart rfl⟩)
      ⟨⟨by decide, by decide, by decide, by decide, hpart rfl⟩, by decide⟩
  exact ⟨_, by decide, frag3Rebuild_datagram (by simp) h (by decide) (by simp) 9⟩

end Snort.Frag3
