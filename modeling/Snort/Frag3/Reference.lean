import Snort.Frag3.Invariants

/-!
# First and last, byte by byte

The reference is a rule for single bytes: under FIRST an offset holds what the earliest received
fragment carried for it, under LAST what the latest one did.  `fraglist_eq_reference` compares
the fraglist with it.
-/

namespace Snort.Frag3

open CInt Tiling

/-! ### The reference -/

/-- What the latest of the fragments that cover `x` carried for it; the latest comes first. -/
def latest : List Packet → ℕ → Option UInt8
  | [], _ => none
  | p :: ps, x => carried p x <|> latest ps x

/-- What the earliest of the fragments that cover `x` carried for it; the latest comes first. -/
def earliest : List Packet → ℕ → Option UInt8
  | [], _ => none
  | p :: ps, x => earliest ps x <|> carried p x

/-- The reference map of a policy. -/
def reference (policy : FragPolicy) : List Packet → ℕ → Option UInt8 :=
  if policy = .first then earliest else latest

/-- Offset `x` is in the range of `p`. -/
def InFrag (p : Packet) (x : ℕ) : Prop :=
  p.fragOffset * 8 ≤ x ∧ x < p.fragOffset * 8 + p.ipFragLen

/-- The byte that a node holds for the offset `x`. -/
def Frag3Frag.byteAt (n : Frag3Frag) (x : ℕ) : Option UInt8 := n.fptr[n.data + (x - n.offset)]?

/-- The map that a fraglist represents. -/
def fragMap : List Frag3Frag → ℕ → Option UInt8
  | [], _ => none
  | n :: l, x => if n.offset ≤ x ∧ x < n.stop then n.byteAt x else fragMap l x

theorem carried_some {p : Packet} {x : ℕ} (h : InFrag p x) : ∃ b, carried p x = some b := by
  obtain ⟨h1, h2⟩ := h
  have hlt : x - p.fragOffset * 8 < p.ipFragStart.length := by
    simp only [Packet.ipFragLen] at h2
    omega
  exact ⟨_, (if_pos h1).trans (List.getElem?_eq_getElem hlt)⟩

theorem carried_none {p : Packet} {x : ℕ} (h : ¬ InFrag p x) : carried p x = none := by
  rw [carried]
  split_ifs with h1
  · refine List.getElem?_eq_none ?_
    by_contra hlt
    exact h ⟨h1, by simp only [Packet.ipFragLen]; omega⟩
  · rfl

theorem reference_none {policy : FragPolicy} {ps : List Packet} {x : ℕ}
    (h : ¬ ∃ p ∈ ps, InFrag p x) : reference policy ps x = none := by
  induction ps with
  | nil => unfold reference; split_ifs <;> rfl
  | cons p ps ih =>
    have hp : carried p x = none := carried_none fun hp => h ⟨p, List.mem_cons_self, hp⟩
    have hps := ih fun ⟨q, hq, hx⟩ => h ⟨q, List.mem_cons_of_mem _ hq, hx⟩
    unfold reference at *
    split_ifs at *
    · simp only [earliest, hp, hps]
      rfl
    · simp only [latest, hp, hps]
      rfl

/-! ### One step against the reference -/

/-- The list holds what the reference says, at the offsets that some fragment covers. -/
structure Agrees (policy : FragPolicy) (ps : List Packet) (l : List Frag3Frag) : Prop where
  parts : Parts ps l
  held : ∀ x, Held l x ↔ ∃ p ∈ ps, InFrag p x
  bytes : ∀ n ∈ l, ∀ x, n.offset ≤ x ∧ x < n.stop → n.byteAt x = reference policy ps x

theorem Agrees.fragMap_eq {policy : FragPolicy} {ps : List Packet} {l : List Frag3Frag}
    (h : Agrees policy ps l) (x : ℕ) : fragMap l x = reference policy ps x := by
  have key : ∀ l' : List Frag3Frag, (∀ n ∈ l', n ∈ l) →
      (Held l' x → fragMap l' x = reference policy ps x) ∧ (¬ Held l' x → fragMap l' x = none) := by
    intro l'
    induction l' with
    | nil => exact fun _ => ⟨fun hx => absurd hx (covers_nil x), fun _ => rfl⟩
    | cons n l' ih =>
      intro hsub
      obtain ⟨ih1, ih2⟩ := ih fun m hm => hsub m (List.mem_cons_of_mem _ hm)
      rw [fragMap, held_cons]
      split_ifs with hn
      · exact ⟨fun _ => h.bytes n (hsub n List.mem_cons_self) x hn,
          fun hx => absurd (Or.inl hn) hx⟩
      · exact ⟨fun hx => ih1 (hx.resolve_left hn), fun hx => ih2 fun hh => hx (Or.inr hh)⟩
  obtain ⟨h1, h2⟩ := key l fun _ => id
  by_cases hx : Held l x
  · exact h1 hx
  · rw [h2 hx, reference_none fun hp => hx ((h.held x).2 hp)]

theorem PieceOf.byteAt {n m : Frag3Frag} (h : PieceOf n m) {x : ℕ} (hx : n.offset ≤ x) :
    n.byteAt x = m.byteAt x := by
  have h1 := h.start
  have h2 := h.data
  rw [Frag3Frag.byteAt, Frag3Frag.byteAt, h.fptr]
  congr 1
  omega

theorem PieceOf.covers {n m : Frag3Frag} (h : PieceOf n m) {x : ℕ}
    (hx : n.offset ≤ x ∧ x < n.stop) : m.offset ≤ x ∧ x < m.stop :=
  ⟨h.start.trans hx.1, hx.2.trans_le h.stop⟩

theorem uncut_byteAt {n : Frag3Frag} {p : Packet} (h : PieceOf n (uncut p)) {x : ℕ}
    (hx : n.offset ≤ x ∧ x < n.stop) : n.byteAt x = carried p x := by
  obtain ⟨b, h1, h2⟩ := h.carried hx
  exact h1.trans h2.symm

/-- A fragment of the runs considered: not empty, in range, and ending on an eight byte boundary
unless it is the last. -/
structure Aligned (p : Packet) : Prop where
  pos : 0 < p.ipFragLen
  range : InRange p
  eight : p.mf = true → p.ipFragLen % 8 = 0

instance (p : Packet) : Decidable (Aligned p) :=
  decidable_of_iff (0 < p.ipFragLen ∧ InRange p ∧ (p.mf = true → p.ipFragLen % 8 = 0))
    ⟨fun ⟨h1, h2, h3⟩ => ⟨h1, h2, h3⟩, fun h => ⟨h.pos, h.range, h.eight⟩⟩

theorem Aligned.place {p : Packet} (h : Aligned p) {ft : FragTracker}
    (hpol : ft.fragPolicy ≠ .solaris) :
    fragStart ft p = p.fragOffset * 8 ∧ fragStop ft p = p.fragOffset * 8 + p.ipFragLen := by
  have hstart : fragStart ft p = p.fragOffset * 8 := if_neg fun hadj => hpol hadj.1
  refine ⟨hstart, ?_⟩
  unfold fragStop
  split_ifs with hmf
  · have := h.eight hmf
    omega
  · rw [hstart]

/-- `Frag3Insert` has accepted the fragment: it was inserted, or dropped because held fragments
cover all of it. -/
def Accepts (ret : InsertRet) (ft : FragTracker) (p : Packet) : Prop :=
  ret = .ok ∨ (ret = .anomaly ∧ ¬ Oversize ft p ∧ ∀ x, InFrag p x → Held ft.fraglist x)

section Step

variable {p : Packet} {ps : List Packet} {ft ft' : FragTracker} {ret : InsertRet}

/-- What the list covers after an accepted step. -/
theorem Stepped.held (h : Stepped p ft ret ft') (hp : Aligned p)
    (hpol : ft.fragPolicy = .first ∨ ft.fragPolicy = .last) (hacc : Accepts ret ft p) (x : ℕ) :
    Held ft'.fraglist x ↔ Held ft.fraglist x ∨ InFrag p x := by
  have hns : ft.fragPolicy ≠ .solaris := by rcases hpol with hf | hf <;> simp [hf]
  obtain ⟨hstart, hstop⟩ := hp.place hns
  rcases hacc with hok | ⟨han, hno, hcov⟩
  · have hx := h.cover hok x
    rw [hstart, hstop] at hx
    exact hx
  · have hpos := hp.pos
    rcases hpol with hf | hf
    · constructor
      · rintro ⟨n, hn, hx⟩
        rcases h.refit.pieces n hn with ⟨m, hm, hpc⟩ | hpc
        · exact Or.inl ⟨m, hm, hpc.covers hx⟩
        · exact Or.inr ((hpc.trans (asNode_uncut hns)).covers hx)
      · intro hx
        obtain ⟨m, hm, hmx⟩ : Held ft.fraglist x := hx.elim id (hcov x)
        exact ⟨m, h.keep hf m hm, hmx⟩
    · rcases (h.last hf).1 han with ho | he
      · exact absurd ho hno
      · omega

/-- Under FIRST an accepted step adds what no earlier fragment covers. -/
theorem Stepped.agrees_first (h : Stepped p ft ret ft') (hp : Aligned p)
    (hpol : ft.fragPolicy = .first) (hacc : Accepts ret ft p)
    (ha : Agrees .first ps ft.fraglist) : Agrees .first (p :: ps) ft'.fraglist := by
  have hns : ft.fragPolicy ≠ .solaris := by simp [hpol]
  have hheld := h.held hp (Or.inl hpol) hacc
  refine ⟨h.parts hns ha.parts, fun x => ?_, fun n hn x hx => ?_⟩
  · rw [hheld, ha.held, or_comm]
    simp only [List.mem_cons, exists_eq_or_imp]
  · have href : ∀ y, reference .first (p :: ps) y = (reference .first ps y <|> carried p y) :=
      fun _ => rfl
    -- a node that was held already keeps its byte
    have hold : ∀ m ∈ ft.fraglist, m.offset ≤ x ∧ x < m.stop →
        m.byteAt x = reference .first (p :: ps) x := by
      intro m hm hmx
      obtain ⟨q, hq, hmq⟩ := ha.parts m hm
      obtain ⟨b, hb⟩ := carried_some (hmq.covers hmx)
      rw [href, ← ha.bytes m hm x hmx, uncut_byteAt hmq hmx, hb]
      rfl
    rcases h.refit.pieces n hn with ⟨m, hm, hpc⟩ | hpc
    · rw [hpc.byteAt hx.1]
      exact hold m hm (hpc.covers hx)
    · by_cases hprev : Held ft.fraglist x
      · obtain ⟨m, hm, hmx⟩ := hprev
        rw [h.laid.unique hn (h.keep hpol m hm) hx hmx]
        exact hold m hm hmx
      · rw [href, reference_none fun hq => hprev ((ha.held x).2 hq)]
        exact uncut_byteAt (hpc.trans (asNode_uncut hns)) hx

/-- Under LAST an accepted step replaces what the new fragment covers. -/
theorem Stepped.agrees_last (h : Stepped p ft ret ft') (hp : Aligned p)
    (hpol : ft.fragPolicy = .last) (hacc : Accepts ret ft p)
    (ha : Agrees .last ps ft.fraglist) : Agrees .last (p :: ps) ft'.fraglist := by
  have hns : ft.fragPolicy ≠ .solaris := by simp [hpol]
  have hheld := h.held hp (Or.inr hpol) hacc
  obtain ⟨hstart, hstop⟩ := hp.place hns
  have hok : ret = .ok := by
    rcases hacc with hok | ⟨han, hno, -⟩
    · exact hok
    · have hpos := hp.pos
      rcases (h.last hpol).1 han with ho | he
      · exact absurd ho hno
      · omega
  obtain ⟨k, hk, hkp, hko, hks⟩ := (h.last hpol).2 hok
  rw [hstart] at hko
  rw [hstop] at hks
  refine ⟨h.parts hns ha.parts, fun x => ?_, fun n hn x hx => ?_⟩
  · rw [hheld, ha.held, or_comm]
    simp only [List.mem_cons, exists_eq_or_imp]
  · have href : reference .last (p :: ps) x = (carried p x <|> reference .last ps x) := rfl
    by_cases hin : InFrag p x
    · have hkx : k.offset ≤ x ∧ x < k.stop := by rw [hko, hks]; exact hin
      obtain ⟨b, hb⟩ := carried_some hin
      rw [h.laid.unique hn hk hx hkx, href,
        uncut_byteAt (hkp.trans (asNode_uncut hns)) hkx, hb]
      rfl
    · rw [href, carried_none hin]
      rcases h.refit.pieces n hn with ⟨m, hm, hpc⟩ | hpc
      · rw [hpc.byteAt hx.1]
        exact ha.bytes m hm x (hpc.covers hx)
      · exact absurd ((hpc.trans (asNode_uncut hns)).covers hx) hin

end Step

/-! ### Runs -/

/-- An accepted step of a run: the surroundings refuse nothing. -/
structure AcceptedStep (env : Env) (ctx : Frag3Context) (ft : FragTracker) (p : Packet) :
    Prop where
  aligned : Aligned p
  calm : Calm env ctx ft p
  accepts : Accepts (frag3Insert env ctx p ft).1 ft p

theorem frag3Expire_self {ctx : Frag3Context} {p : Packet} {ft : FragTracker}
    (h : checkTimeout p.ts ft.fragTime ctx = false) : frag3Expire ctx p ft = ft := by
  rw [frag3Expire, h]
  rfl

theorem Opened.agrees {policy : FragPolicy} {p : Packet} {ft : FragTracker}
    (h : Opened policy p true ft) (hp : Aligned p) : Agrees policy [p] ft.fraglist := by
  have hlist : ft.fraglist = [opened p] := h.list
  have hstop : (opened p).stop = p.fragOffset * 8 + p.ipFragLen := by
    simp only [opened, Frag3Frag.stop]
    split_ifs with hmf
    · have := hp.eight hmf
      omega
    · rfl
  refine ⟨h.parts, fun x => ?_, fun n hn x hx => ?_⟩
  · rw [hlist, held_cons, hstop]
    simp [InFrag, opened]
  · rw [hlist] at hn
    obtain rfl := List.mem_singleton.1 hn
    have hin : InFrag p x := by rw [hstop] at hx; exact hx
    have hbyte : (opened p).byteAt x = carried p x := by
      rw [carried, if_pos hin.1]
      simp [Frag3Frag.byteAt, opened]
    rw [hbyte]
    obtain ⟨b, hb⟩ := carried_some hin
    unfold reference
    split_ifs
    · simp only [earliest]
      rfl
    · simp only [latest, hb]
      rfl

/-- **FIRST and LAST reassemble byte by byte**: after accepted eight byte aligned fragments, under
FIRST each inserted without a slip, the fraglist represents the reference map, and covers the
union of the ranges of the fragments. -/
theorem fraglist_eq_reference {policy : FragPolicy} (hpol : policy = .first ∨ policy = .last)
    {ps : List Packet} {ft : FragTracker}
    (h : Run policy (fun p b => b = true ∧ Aligned p)
      (fun env ctx ft p => AcceptedStep env ctx ft p ∧ (ft.fragPolicy = .first → SlipFree ft p))
      ps ft) :
    (∀ x, fragMap ft.fraglist x = reference policy ps x) ∧
      ∀ x, Held ft.fraglist x ↔ ∃ p ∈ ps, InFrag p x := by
  have hns : policy ≠ .solaris := by rcases hpol with rfl | rfl <;> simp
  have hinv : Sound policy ft ∧ Agrees policy ps ft.fraglist := by
    refine h.invariant (I := fun ps ft => Agrees policy ps ft.fraglist) (fun _ _ hp => hp.2.range)
      ?_ ?_ ?_
    · rintro env ctx ft p hs ⟨hacc, hfree⟩
      have hexp := frag3Expire_self hacc.calm.time
      refine ⟨(hs.expire ctx p).legal hns hacc.aligned.range, ?_⟩
      rw [hexp]
      rcases hpol with rfl | rfl
      · exact hfree hs.policy
      · refine Or.inr (Or.inr (Or.inr ?_))
        rw [hs.policy]
        exact ChunkSafe.of_not_rejects id
    · rintro p b ft ⟨rfl, hp⟩ ho
      exact ho.agrees hp
    · rintro env ctx ps ft p hs ha ⟨hacc, -⟩ hst
      rw [frag3Expire_self hacc.calm.time] at hst
      rcases hpol with rfl | rfl
      · exact hst.agrees_first hacc.aligned hs.policy hacc.accepts ha
      · exact hst.agrees_last hacc.aligned hs.policy hacc.accepts ha
  exact ⟨hinv.2.fragMap_eq, hinv.2.held⟩

theorem fraglist_eq_reference_split : ∃ ft,
    Run .last (fun p b => b = true ∧ Aligned p)
      (fun env ctx ft p => AcceptedStep env ctx ft p ∧ (ft.fragPolicy = .first → SlipFree ft p))
      [zeros 1 8 true, zeros 0 24 true] ft ∧
    fragMap ft.fraglist 20 = reference .last [zeros 1 8 true, zeros 0 24 true] 20 := by
  have h : Run .last (fun p b => b = true ∧ Aligned p)
      (fun env ctx ft p => AcceptedStep env ctx ft p ∧ (ft.fragPolicy = .first → SlipFree ft p))
      [zeros 1 8 true, zeros 0 24 true] _ :=
    .insert {} {} (.new {} rfl ⟨rfl, by decide⟩)
      ⟨⟨by decide, ⟨fun _ => rfl, by decide, rfl, by decide⟩, Or.inl (by decide)⟩, by decide⟩
  exact ⟨_, h, (fraglist_eq_reference (Or.inr rfl) h).1 20⟩

/-- The slip of `misplaced_bytes` with fragments that are all accepted: the list covers an offset
that no fragment covers. -/
theorem first_beyond_reference : ∃ ft,
    Run .first (fun p b => b = true ∧ Aligned p) AcceptedStep
      [zeros 1 40 true, zeros 2 16 true, zeros 0 16 true] ft ∧
    fragMap ft.fraglist 48 = some 0 ∧
    reference .first [zeros 1 40 true, zeros 2 16 true, zeros 0 16 true] 48 = none := by
  have h : Run .first (fun p b => b = true ∧ Aligned p) AcceptedStep
      [zeros 1 40 true, zeros 2 16 true, zeros 0 16 true] _ :=
    .insert {} {} (.insert {} {} (.new {} rfl ⟨rfl, by decide⟩)
      ⟨by decide, ⟨fun _ => rfl, by decide, rfl, by decide⟩, Or.inl (by decide)⟩)
      ⟨by decide, ⟨fun _ => rfl, by decide, rfl, by decide⟩, Or.inl (by decide)⟩
  exact ⟨_, h, by decide, by decide⟩

end Snort.Frag3
