import Snort.Frag3.Timeout

/-!
# Refusals

`Frag3Insert` trims, splits and deletes held fragments, and links chunks of the new one, before
it comes to its last reasons to refuse the new fragment.

* `Untouched`: the held fragments stay as they are until the fragment is refused or linked;
* `rightLoop_past`: behind its first round the loop of a slip free call refuses nothing;
* **`refused_unchanged`**: a refusal leaves the data of the tracker as it was when nothing held is
  touched, or the call is slip free and neither memory nor a limit runs out.
-/

namespace Snort.Frag3

open CInt Tiling

variable {env : Env} {ctx : Frag3Context} {p : Packet} {c : Cut} {w : Walk}

/-! ### Calls that touch nothing held -/

/-- The list and its bytes are the same. -/
structure Unchanged (w w' : Walk) : Prop where
  nodes : w'.nodes = w.nodes
  bytes : w'.ft.fragBytes = w.ft.fragBytes

theorem Unchanged.trans {w₁ w₂ w₃ : Walk} (h : Unchanged w₁ w₂) (h' : Unchanged w₂ w₃) :
    Unchanged w₁ w₃ :=
  ⟨h'.nodes.trans h.nodes, h'.bytes.trans h.bytes⟩

theorem Unchanged.refl (w : Walk) : Unchanged w w := ⟨rfl, rfl⟩

/-- The policy cuts back the held fragment before the new one. -/
def CutsLeft (policy : FragPolicy) (c : Cut) (left : Frag3Frag) : Prop :=
  c.fragOffset < left.stop ∧
    (policy = .last ∨ (policy = .bsdRight ∧ (left.stop : ℤ) < c.fragOffset + c.len))

/-- The held fragment before the new one stays as it is: it is not cut back, or the call is
refused before. -/
def LeftFree (env : Env) (p : Packet) (c : Cut) (ft : FragTracker) : Prop :=
  ∀ left ∈ (placedWalk ft c).before.head?, CutsLeft ft.fragPolicy c left →
    teardrop p c ft ∨ ((left.stop : ℤ) > c.fragOffset + c.len ∧ env.fragNode ft.ordinal = false)

/-- Where the new fragment goes on behind the held one before it. -/
def goesOn (c : Cut) (ft : FragTracker) : ℕ :=
  match (placedWalk ft c).before with
  | [] => c.fragOffset
  | left :: _ =>
    if c.fragOffset < left.stop ∧ ft.fragPolicy ≠ .last then
      u16 (c.fragOffset + i16 ((left.stop : ℤ) - c.fragOffset))
    else c.fragOffset

/-- What a left side step leaves that only moves the new fragment. -/
def LeftKept (ft : FragTracker) (w : Walk) (offset : ℕ) :
    Except (InsertRet × Walk) Walk → Prop
  | .error e => Unchanged w e.2
  | .ok w' => Unchanged w w' ∧ w'.rest = w.rest ∧ w'.fragOffset = offset ∧
      w'.ft = { ft with overlapCount := w'.ft.overlapCount }

theorem placedWalk_before {ft : FragTracker} {n : Frag3Frag}
    (hn : n ∈ (placedWalk ft c).before) : n.offset < c.fragOffset := by
  have hbefore : n ∈ (startsAt c.fragOffset ft.fraglist).1 := List.mem_reverse.1 hn
  simpa using List.mem_takeWhile_imp hbefore

variable (env) in
/-- The `switch` when the held fragment before stays as it is. -/
theorem leftSwitch_free {ft : FragTracker} {left : Frag3Frag} {bs : List Frag3Frag}
    (hft : w.ft = { ft with overlapCount := w.ft.overlapCount }) (hb : w.before = left :: bs)
    (hoffset : w.fragOffset = c.fragOffset) (hlt : left.offset < c.fragOffset)
    (hover : c.fragOffset < left.stop)
    (hfree : CutsLeft ft.fragPolicy c left →
      (left.stop : ℤ) > c.fragOffset + c.len ∧ env.fragNode ft.ordinal = false) :
    LeftKept ft w
      (if c.fragOffset < left.stop ∧ ft.fragPolicy ≠ .last then
        u16 (c.fragOffset + i16 ((left.stop : ℤ) - c.fragOffset)) else c.fragOffset)
      (leftSwitch env c (left.stop - c.fragOffset) left bs w) := by
  have hord : w.ft.ordinal = ft.ordinal := by rw [hft]
  have hmoves : ft.fragPolicy ≠ .last → (if c.fragOffset < left.stop ∧ ft.fragPolicy ≠ .last then
      u16 (c.fragOffset + i16 ((left.stop : ℤ) - c.fragOffset)) else c.fragOffset) =
      (w.slideBy (left.stop - c.fragOffset)).fragOffset := by
    intro hne
    rw [if_pos ⟨hover, hne⟩, Walk.slideBy, hoffset]
  have htrunc : CutsLeft ft.fragPolicy c left → Unchanged w w →
      LeftKept ft w c.fragOffset (truncLeft env c (left.stop - c.fragOffset) left bs w) := by
    intro hcuts hsame
    obtain ⟨hsplit, hmem⟩ := hfree hcuts
    rw [truncLeft, hoffset, if_pos ⟨hlt, hsplit⟩, dupFragNode, hord, hmem,
      if_neg Bool.false_ne_true]
    exact hsame
  have hpolicy : w.ft.fragPolicy = ft.fragPolicy := by rw [hft]
  unfold leftSwitch
  rw [hpolicy]
  cases hp : ft.fragPolicy with
  | last =>
    have hcut : CutsLeft ft.fragPolicy c left := ⟨hover, Or.inl hp⟩
    rw [if_neg fun h => h.2 rfl]
    exact htrunc hcut (Unchanged.refl _)
  | bsdRight =>
    rw [hp] at hmoves
    rw [hmoves (by decide)]
    dsimp only
    rw [hoffset]
    by_cases hcovers : (left.stop : ℤ) ≥ c.fragOffset + c.len
    · have hsize : left.size ≠ 0 := by
        simp only [Frag3Frag.stop] at hover
        omega
      rw [if_pos hcovers, leftOverlapLast, if_neg hsize]
      refine ⟨⟨?_, rfl⟩, rfl, rfl, hft⟩
      simp only [Walk.nodes, Walk.slideBy, hb]
    · rw [if_neg hcovers]
      have hcut : CutsLeft ft.fragPolicy c left := ⟨hover, Or.inr ⟨hp, by omega⟩⟩
      obtain ⟨hsplit, -⟩ := hfree hcut
      omega
  | first | linux | bsd | windows | solaris =>
    rw [hp] at hmoves
    rw [hmoves (by decide)]
    dsimp only
    split_ifs
    · exact ⟨rfl, rfl⟩
    · exact ⟨⟨rfl, rfl⟩, rfl, rfl, hft⟩

/-- What the left side leaves when the held fragment before stays as it is. -/
theorem leftOverlap_free {ft : FragTracker} (h : LeftFree env p c ft) :
    LeftKept ft (placedWalk ft c) (goesOn c ft) (leftOverlap env p c (placedWalk ft c)) := by
  unfold LeftFree at h
  unfold goesOn leftOverlap
  cases hb : (placedWalk ft c).before with
  | nil => exact ⟨Unchanged.refl _, rfl, rfl, rfl⟩
  | cons left bs =>
    have hlt := placedWalk_before (hb ▸ List.mem_cons_self : left ∈ (placedWalk ft c).before)
    have hfree := h left (by rw [hb]; rfl)
    have hoffset : (placedWalk ft c).fragOffset = c.fragOffset := rfl
    dsimp only
    rw [hoffset]
    by_cases hover : (left.stop : ℤ) - c.fragOffset > 0
    swap
    · have hno : ¬ (c.fragOffset < left.stop ∧ ft.fragPolicy ≠ .last) := fun hyes => by omega
      rw [if_neg hover, if_neg hno]
      exact ⟨Unchanged.refl _, rfl, rfl, rfl⟩
    rw [if_pos hover]
    by_cases htear : teardrop p c (placedWalk ft c).countOverlap.ft = true
    · rw [if_pos htear]
      exact ⟨rfl, rfl⟩
    rw [if_neg htear]
    have hswitch := leftSwitch_free env (w := (placedWalk ft c).countOverlap) rfl hb rfl
      hlt (by omega) fun hcuts => (hfree hcuts).resolve_left htear
    cases hr : leftSwitch env c (left.stop - c.fragOffset) left bs
        (placedWalk ft c).countOverlap with
    | error e =>
      rw [hr] at hswitch
      exact ⟨hswitch.nodes, hswitch.bytes⟩
    | ok w' =>
      rw [hr] at hswitch
      obtain ⟨hsame, hkept⟩ := hswitch
      dsimp only
      by_cases hend : c.fragEnd < w'.fragOffset
      · rw [if_pos hend]
        exact ⟨hsame.nodes, hsame.bytes⟩
      · rw [if_neg hend]
        exact ⟨⟨hsame.nodes, hsame.bytes⟩, hkept⟩

/-- A refusal in the rejecting branch comes before the list is changed. -/
theorem rejectOverlap_error {right : Frag3Frag} {next : List Frag3Frag} {e : InsertRet × Walk}
    (hrest : w.rest = right :: next) (h : rejectOverlap env p c right next w = .error e) :
    Unchanged w e.2 ∧ (e.1 = .anomaly ∨ env.fragNode w.ft.ordinal = false) := by
  have hft : (rejectTrim c right next w).ft = w.ft := by
    unfold rejectTrim
    split_ifs <;> rfl
  have hsame : Unchanged w (rejectTrim c right next w) :=
    ⟨rejectTrim_nodes hrest, congrArg FragTracker.fragBytes hft⟩
  unfold rejectOverlap at h
  dsimp only at h
  split_ifs at h
  · obtain rfl := Except.error.inj h
    exact ⟨hsame, Or.inl rfl⟩
  · unfold addFragNode at h
    dsimp only at h
    rw [hft] at h
    by_cases hempty : i16 (c.len - u16 (rejectTrim c right next w).slide -
        u16 (rejectTrim c right next w).trunc) ≤ 0
    · rw [if_pos hempty] at h
      obtain rfl := Except.error.inj h
      exact ⟨hsame, Or.inl rfl⟩
    · rw [if_neg hempty] at h
      by_cases hmem : env.fragNode w.ft.ordinal = true
      · rw [if_pos hmem] at h
        cases h
      · rw [if_neg hmem] at h
        obtain rfl := Except.error.inj h
        exact ⟨hsame, Or.inr (Bool.eq_false_iff.2 hmem)⟩

/-- What the loop leaves when nothing is touched. -/
def LoopKept (w : Walk) : Except (InsertRet × Walk) (Bool × Walk) → Prop
  | .error e => Unchanged w e.2
  | .ok r => Unchanged w r.2

theorem addFragNode_error {lastfrag : Bool} {e : InsertRet × Walk}
    (h : addFragNode env p c lastfrag w = .error e) : e.2 = w := by
  unfold addFragNode at h
  dsimp only at h
  split_ifs at h <;> exact (congrArg Prod.snd (Except.error.inj h)).symm

theorem finishInsert_unchanged {w₀ : Walk}
    (hloop : LoopKept w₀ (rightLoop env ctx p c (2 * w.rest.length + 1) w)) (hw : Unchanged w₀ w)
    (hret : (finishInsert env ctx p c w).1 ≠ .ok) :
    Unchanged w₀ (finishInsert env ctx p c w).2 := by
  unfold finishInsert at hret ⊢
  split_ifs at hret ⊢
  · exact hw
  · cases hr : rightLoop env ctx p c (2 * w.rest.length + 1) w with
    | error e =>
      rw [hr] at hloop
      exact hloop
    | ok r =>
      obtain ⟨addthis, w'⟩ := r
      rw [hr] at hloop hret
      dsimp only at hret ⊢
      by_cases hlimit : ctx.overlapLimit ≠ 0 ∧ w'.ft.overlapCount ≥ ctx.overlapLimit
      · rw [if_pos hlimit]
        exact hloop
      rw [if_neg hlimit] at hret ⊢
      cases addthis with
      | false => exact hloop
      | true =>
        rw [if_pos rfl] at hret ⊢
        cases ha : addFragNode env p c c.lastfrag w' with
        | error e =>
          dsimp only
          rw [addFragNode_error ha]
          exact hloop
        | ok r =>
          rw [ha] at hret
          exact absurd rfl hret

theorem Unchanged.loopKept {w₀ : Walk} (h : Unchanged w₀ w)
    {r : Except (InsertRet × Walk) (Bool × Walk)} (hr : LoopKept w r) : LoopKept w₀ r := by
  cases r with
  | error e => exact h.trans hr
  | ok r => exact h.trans hr

/-- The new fragment starts before all held ones that it still overlaps. -/
structure Past (c : Cut) (w : Walk) : Prop where
  before : w.fragOffset < c.fragEnd
  next : ∀ n ∈ w.rest, n.offset < c.fragEnd → w.fragOffset < n.offset

/-- Something is left of the new fragment. -/
def Room (c : Cut) (w : Walk) : Prop := w.slide + w.trunc < c.len

theorem Open.room (hc : CutOk p c) (hw : Open c w) (ht : w.trunc = 0)
    (hlt : w.fragOffset < c.fragEnd) : Room c w := by
  have h1 := hc.len
  have h2 := hw.slide
  unfold Room
  omega

/-- A fragment that starts before the one it overlaps at its end keeps a part. -/
theorem partialOverlap_room {right : Frag3Frag} {next : List Frag3Frag} (hc : CutOk p c)
    (hw : Open c w) (ht : w.trunc = 0) (hrest : w.rest = right :: next)
    (hlt : right.offset < c.fragEnd)
    (hgt : w.ft.fragPolicy = .last ∨ w.ft.fragPolicy = .linux ∨ w.fragOffset < right.offset) :
    Room c (partialOverlap right next (c.fragEnd - right.offset) w) := by
  have hge := hw.right right (hrest ▸ List.mem_cons_self)
  have h1 := hc.len
  have h2 := hw.slide
  have h3 := hc.fits
  have h4 := hc.small
  have h5 := hw.base
  have h6 := hc.fragLength
  have hi : i16 ((c.fragEnd : ℤ) - right.offset) = c.fragEnd - right.offset :=
    i16_of_range (by omega) (by omega)
  have htrunc : Room c (truncRight right next (c.fragEnd - right.offset) w) := by
    have hsame : (truncRight right next (c.fragEnd - right.offset) w).slide = w.slide ∧
        (truncRight right next (c.fragEnd - right.offset) w).trunc = w.trunc := by
      unfold truncRight
      dsimp only
      split_ifs <;> exact ⟨rfl, rfl⟩
    unfold Room
    omega
  unfold partialOverlap
  cases hp : w.ft.fragPolicy with
  | last | linux => exact htrunc
  | bsd =>
    have hbefore : w.fragOffset < right.offset := by
      rcases hgt with h | h | h
      · exact absurd (hp.symm.trans h) (by decide)
      · exact absurd (hp.symm.trans h) (by decide)
      · exact h
    dsimp only
    rw [if_neg hbefore.ne']
    exact htrunc
  | first | windows | solaris | bsdRight =>
    have hbefore : w.fragOffset < right.offset := by
      rcases hgt with h | h | h
      · exact absurd (hp.symm.trans h) (by decide)
      · exact absurd (hp.symm.trans h) (by decide)
      · exact h
    simp only [Room, hi]
    omega

/-- How the rejecting branch goes on, when there is memory. -/
theorem rejectOverlap_past {right : Frag3Frag} {next : List Frag3Frag}
    (hmem : ∀ ord, env.fragNode ord = true) (hc : CutOk p c) (hw : Open c w)
    (hrest : w.rest = right :: next) (hgt : w.fragOffset < right.offset)
    (hlt : right.offset < c.fragEnd) :
    ∃ r w', rejectOverlap env p c right next w = .ok (r, w') ∧ (r = .again → Past c w') ∧
      (r = .leave true → Room c w') := by
  have h1 := hc.len
  have h2 := hc.fits
  have h3 := hc.fragLength
  have h4 := hc.small
  have h5 := hw.base
  rcases rejectOverlap_chunk env hc hw hrest hgt hlt with
    heq | ⟨n, l', b', r', hchunk, heq⟩
  · rcases (rejectOverlap_error hrest heq).2 with hret | hno
    · cases hret
    · exact absurd (hmem _) (by rw [hno]; decide)
  have hle := hchunk.le
  have hstop : w.fragOffset ≤ l'.stop := by
    simp only [Frag3Frag.stop] at hle ⊢
    omega
  rw [heq]
  split_ifs with hmore hcurr
  · obtain ⟨m, ms, rfl⟩ : ∃ m ms, r' = m :: ms := by
      cases r' with
      | nil => cases hmore
      | cons m ms => exact ⟨m, ms, rfl⟩
    have hmlt : m.offset < c.fragEnd := by simpa [startsBefore] using hmore
    have hml := hchunk.head m ms rfl hmlt
    refine ⟨_, _, rfl, fun _ => ⟨hml.trans hmlt, fun k hk _ => ?_⟩, fun h => (by cases h)⟩
    rcases List.mem_cons.1 hk with rfl | hk
    · exact hml
    · have hafter := (tiled_cons.1 (tiled_cons.1 hchunk.laid).2).1 k hk
      simp only [Frag3Frag.stop] at hafter hml ⊢
      omega
  · refine ⟨_, _, rfl, fun h => (by cases h), fun _ => ?_⟩
    have hi : i16 ((l'.stop : ℤ) - w.fragOffset) = l'.stop - w.fragOffset :=
      i16_of_range (by omega) (by omega)
    simp only [Room, hi]
    omega
  · exact ⟨_, _, rfl, fun h => (by cases h), fun h => (by cases h)⟩

/-- The walk from which the loop goes on behind a chunk. -/
structure Again (p : Packet) (c : Cut) (w w' : Walk) : Prop extends Past c w' where
  walk : Open c w'
  trunc : w'.trunc = 0
  length : w'.rest.length < w.rest.length
  policy : w'.ft.fragPolicy = w.ft.fragPolicy
  safe : ChunkSafe w'.ft.fragPolicy c.fragOffset w'.fragOffset c.fragEnd w'.rest
  tear : teardrop p c w'.ft = teardrop p c w.ft

/-- A round that fills the gap before a held fragment goes on behind it, when there is memory. -/
theorem rejectOverlap_again {right : Frag3Frag} {next : List Frag3Frag}
    (hmem : ∀ ord, env.fragNode ord = true) (hc : CutOk p c) (hw : Open c w)
    (hrest : w.rest = right :: next) (hgt : w.fragOffset < right.offset)
    (hlt : right.offset < c.fragEnd) (hstop : right.stop ≤ c.fragEnd)
    (hact : fullAction w.ft.fragPolicy w.fragOffset c.fragEnd right = .reject)
    (horig : w.ft.fragPolicy = .first → c.origOffset = c.fragOffset)
    (hsafe : ChunkSafe w.ft.fragPolicy c.fragOffset w.fragOffset c.fragEnd w.rest) :
    ∃ r w', rejectOverlap env p c right next w = .ok (r, w') ∧ (r = .again → Again p c w w') ∧
      (r = .leave true → Room c w') := by
  obtain ⟨hrej, hnl, hfirst⟩ := fullAction_reject hact hstop
  obtain ⟨r, w', heq, hagain, hleave⟩ := rejectOverlap_past hmem hc hw hrest hgt hlt
  refine ⟨r, w', heq, ?_, hleave⟩
  rintro rfl
  rw [hrest] at hsafe
  have hpost : RejectPost p c w (rejectOverlap env p c right next w) :=
    rejectOverlap_gap hc hw hrest hgt hlt hstop hnl horig <| by
      rcases hfirst hgt with hf | hs
      · exact Or.inl ⟨hf, hsafe.gap hlt hgt.ne' hf⟩
      · exact Or.inr hs
  rw [heq] at hpost
  obtain ⟨hgoes, hopen, hlen, ht, -, hchunk⟩ := hpost
  refine ⟨hagain rfl, hopen, ht, hlen, hgoes.policy, hgoes.policy ▸ hchunk, ?_⟩
  unfold teardrop
  rw [hgoes.size, hgoes.gotLast]

/-- **Behind its first round the loop refuses nothing**, when there is memory, and what it leaves
of the new fragment to be linked is not empty. -/
theorem rightLoop_past (ctx : Frag3Context) (hmem : ∀ ord, env.fragNode ord = true)
    (hc : CutOk p c) : ∀ (fuel : ℕ) {w : Walk}, Open c w → w.trunc = 0 → Past c w →
      w.rest.length < fuel → (w.ft.fragPolicy = .first → c.origOffset = c.fragOffset) →
      ChunkSafe w.ft.fragPolicy c.fragOffset w.fragOffset c.fragEnd w.rest →
      ¬ teardrop p c w.ft →
      ∃ b w', rightLoop env ctx p c fuel w = .ok (b, w') ∧ (b = true → Room c w') := by
  intro fuel
  induction fuel with
  | zero => exact fun _ _ _ h => absurd h (Nat.not_lt_zero _)
  | succ fuel ih =>
    intro w hw ht hpast hfuel horig hsafe htear
    have hend : ∃ b w', (.ok (true, w) : Except (InsertRet × Walk) (Bool × Walk)) = .ok (b, w') ∧
        (b = true → Room c w') := ⟨true, w, rfl, fun _ => hw.room hc ht hpast.before⟩
    cases hrest : w.rest with
    | nil =>
      rw [rightLoop_nil hrest]
      exact hend
    | cons right next =>
      have hn : w.nodes = w.before.reverse ++ right :: next := by
        rw [Walk.nodes_eq hw.mid, hrest]
      have hlr := tiled_cons.1 (tiled_append.1 (hn ▸ hw.laid : Laid _)).2.1
      rw [rightLoop_cons hrest ht]
      by_cases hlt : right.offset < c.fragEnd
      swap
      · rw [if_neg hlt]
        exact hend
      have hgt := hpast.next right (hrest ▸ List.mem_cons_self) hlt
      rw [if_pos hlt, if_neg fun h => htear h.2]
      by_cases hpart : (c.fragEnd : ℤ) - right.offset < right.size
      · have hw' : Open c w.countOverlap := hw.of_eq rfl rfl rfl rfl rfl
        rw [if_pos hpart]
        exact ⟨_, _, rfl, fun _ => partialOverlap_room hc hw' ht hrest hlt (Or.inr (Or.inr hgt))⟩
      rw [if_neg hpart]
      have hstop : right.stop ≤ c.fragEnd := by simp only [Frag3Frag.stop]; omega
      have hw₁ := (hw.alert (p := p) ctx).1
      have hal := w.alertOverlap_eqs ctx
      have htear₁ : teardrop p c (w.alertOverlap ctx).ft = teardrop p c w.ft := by
        unfold Walk.alertOverlap
        split_ifs <;> rfl
      generalize w.alertOverlap ctx = w₁ at hal hw₁ htear₁
      obtain ⟨hr₁, ho₁, ht₁, hp₁⟩ := hal
      have hrest₁ : w₁.rest = right :: next := hr₁.trans hrest
      rw [← hp₁, ← ho₁] at hsafe
      rw [hrest] at hsafe
      rw [← ho₁] at hgt
      rw [← hp₁, ← ho₁]
      cases hact : fullAction w₁.ft.fragPolicy w₁.fragOffset c.fragEnd right with
      | dump =>
        obtain ⟨hnf, hact'⟩ := fullAction_dump hact
        have hopen := (hw₁.dump (p := p) hrest₁ hstop hnf).1
        have hnext : ∀ n ∈ next, w₁.fragOffset < n.offset := fun n hmem =>
          hgt.trans_le ((Nat.le_add_right _ _).trans (hlr.1 n hmem))
        refine ih hopen (ht₁.trans ht) ⟨?_, fun n hn _ => hnext n hn⟩ ?_ (fun hf => absurd hf hnf)
          (ChunkSafe.of_beyond hnf hnext) ?_
        · exact hgt.trans hlt
        · rw [hrest] at hfuel
          exact Nat.lt_of_succ_lt_succ hfuel
        · exact fun h => htear (htear₁ ▸ h)
      | reject =>
        obtain ⟨r, w₂, heq, hagain, hleave⟩ := rejectOverlap_again hmem hc hw₁ hrest₁ hgt hlt
          hstop hact (hp₁ ▸ horig) (hrest₁.symm ▸ hsafe)
        rw [heq]
        cases r with
        | leave addthis => exact ⟨addthis, w₂, rfl, fun hb => hleave (by rw [hb])⟩
        | again =>
          have hagain := hagain rfl
          refine ih hagain.walk hagain.trunc hagain.toPast ?_ ?_ hagain.safe ?_
          · have := hagain.length
            rw [hr₁] at this
            omega
          · rw [hagain.policy, hp₁]
            exact horig
          · rw [hagain.tear, htear₁]
            exact htear

/-- The loop of a slip free call: it refuses in its first round, with nothing changed, or leaves
the list as it was, or goes on to the end. -/
theorem rightLoop_slipFree (ctx : Frag3Context) (hmem : ∀ ord, env.fragNode ord = true)
    (hc : CutOk p c) {fuel : ℕ} (hw : Open c w) (ht : w.trunc = 0)
    (hpos : ∀ n ∈ w.rest, 0 < n.size) (hfuel : w.rest.length < fuel + 1)
    (horig : w.ft.fragPolicy = .first → c.origOffset = c.fragOffset)
    (hsafe : teardrop p c w.ft ∨
      ChunkSafe w.ft.fragPolicy c.fragOffset w.fragOffset c.fragEnd w.rest) :
    LoopKept w (rightLoop env ctx p c (fuel + 1) w) ∨
      ∃ b w', rightLoop env ctx p c (fuel + 1) w = .ok (b, w') ∧ (b = true → Room c w') := by
  cases hrest : w.rest with
  | nil =>
    rw [rightLoop_nil hrest]
    exact Or.inl (Unchanged.refl w)
  | cons right next =>
    have hn : w.nodes = w.before.reverse ++ right :: next := by
      rw [Walk.nodes_eq hw.mid, hrest]
    have hlr := tiled_cons.1 (tiled_append.1 (hn ▸ hw.laid : Laid _)).2.1
    have hge := hw.right right (hrest ▸ List.mem_cons_self)
    rw [rightLoop_cons hrest ht]
    by_cases hlt : right.offset < c.fragEnd
    swap
    · rw [if_neg hlt]
      exact Or.inl (Unchanged.refl w)
    rw [if_pos hlt]
    by_cases htear : teardrop p c w.ft = true
    · rw [if_pos ⟨by omega, htear⟩]
      exact Or.inl ⟨rfl, rfl⟩
    replace hsafe := hsafe.resolve_left htear
    rw [if_neg fun h => htear h.2]
    by_cases hpart : (c.fragEnd : ℤ) - right.offset < right.size
    · have hw' : Open c w.countOverlap := hw.of_eq rfl rfl rfl rfl rfl
      rw [if_pos hpart]
      by_cases hgt : w.ft.fragPolicy = .last ∨ w.ft.fragPolicy = .linux ∨
          w.fragOffset < right.offset
      · exact Or.inr ⟨_, _, rfl, fun _ => partialOverlap_room hc hw' ht hrest hlt hgt⟩
      · -- the new fragment gives way
        refine Or.inl ?_
        have hsame : right.offset = w.countOverlap.fragOffset := by
          have : w.countOverlap.fragOffset = w.fragOffset := rfl
          omega
        unfold partialOverlap
        cases hp : w.countOverlap.ft.fragPolicy with
        | last => exact absurd (Or.inl hp) hgt
        | linux => exact absurd (Or.inr (Or.inl hp)) hgt
        | bsd =>
          dsimp only
          rw [if_pos hsame]
          exact ⟨rfl, rfl⟩
        | first | windows | solaris | bsdRight => exact ⟨rfl, rfl⟩
    rw [if_neg hpart]
    have hstop : right.stop ≤ c.fragEnd := by simp only [Frag3Frag.stop]; omega
    have hw₁ := (hw.alert (p := p) ctx).1
    have hal := w.alertOverlap_eqs ctx
    have halert : Unchanged w (w.alertOverlap ctx) ∧
        teardrop p c (w.alertOverlap ctx).ft = teardrop p c w.ft := by
      unfold Walk.alertOverlap
      split_ifs <;> exact ⟨⟨rfl, rfl⟩, rfl⟩
    generalize w.alertOverlap ctx = w₁ at hal hw₁ halert
    obtain ⟨hr₁, ho₁, ht₁, hp₁⟩ := hal
    have hrest₁ : w₁.rest = right :: next := hr₁.trans hrest
    rw [← hp₁, ← ho₁] at hsafe
    rw [hrest] at hsafe
    rw [← ho₁] at hge
    rw [← hp₁, ← ho₁]
    cases hact : fullAction w₁.ft.fragPolicy w₁.fragOffset c.fragEnd right with
    | dump =>
      obtain ⟨hnf, hact'⟩ := fullAction_dump hact
      have hopen := (hw₁.dump (p := p) hrest₁ hstop hnf).1
      have hsize := hpos right (hrest ▸ List.mem_cons_self)
      have hnext : ∀ n ∈ next, w₁.fragOffset < n.offset := fun n hmem => by
        have := hlr.1 n hmem
        simp only [Frag3Frag.stop] at this
        omega
      refine Or.inr (rightLoop_past ctx hmem hc fuel hopen (ht₁.trans ht)
        ⟨hge.trans_lt hlt, fun n hn _ => hnext n hn⟩ ?_ (fun hf => absurd hf hnf)
        (ChunkSafe.of_beyond hnf hnext) fun h => htear (halert.2 ▸ h))
      rw [hrest] at hfuel
      exact Nat.lt_of_succ_lt_succ hfuel
    | reject =>
      obtain ⟨hrej, hnl, hfirst⟩ := fullAction_reject hact hstop
      dsimp only
      by_cases hsame : right.offset = w₁.fragOffset
      · rcases rejectOverlap_behind env hc hw₁ (ht₁.trans ht) hrest₁ hsame hstop
          (hsafe.head hlt hsame hrej).1 with ⟨ret, -, heq⟩ | ⟨-, n, -, -, -, heq⟩
        · have herror := rejectOverlap_error hrest₁ heq
          rw [heq]
          exact Or.inl (halert.1.trans herror.1)
        · rw [heq]
          exact Or.inr ⟨false, _, rfl, fun h => absurd h Bool.false_ne_true⟩
      · have hgt : w₁.fragOffset < right.offset := by omega
        obtain ⟨r, w₂, heq, hagain, hleave⟩ := rejectOverlap_again hmem hc hw₁ hrest₁ hgt hlt
          hstop hact (hp₁ ▸ horig) (hrest₁.symm ▸ hsafe)
        rw [heq]
        refine Or.inr ?_
        cases r with
        | leave addthis => exact ⟨addthis, w₂, rfl, fun hb => hleave (by rw [hb])⟩
        | again =>
          have hagain := hagain rfl
          refine rightLoop_past ctx hmem hc fuel hagain.walk hagain.trunc hagain.toPast ?_ ?_
            hagain.safe ?_
          · have := hagain.length
            rw [hr₁] at this
            omega
          · rw [hagain.policy, hp₁]
            exact horig
          · rw [hagain.tear, halert.2]
            exact htear

theorem addFragNode_room (lastfrag : Bool) {w' : Walk} (hmem : ∀ ord, env.fragNode ord = true)
    (hc : CutOk p c) (hready : Ready p c w w') (hroom : Room c w') :
    ∃ r, addFragNode env p c lastfrag w' = .ok r := by
  have h1 := hready.slide_nonneg
  have h2 := hready.trunc_nonneg
  have h3 := hready.range
  have h4 := hc.fits
  have h5 := hc.fragLength
  have h6 := hc.small
  have hsome : ¬ i16 (c.len - u16 w'.slide - u16 w'.trunc) ≤ 0 := by
    unfold Room at hroom
    unfold i16 u16
    omega
  unfold addFragNode
  dsimp only
  rw [if_neg hsome, if_pos (hmem _)]
  exact ⟨_, rfl⟩

/-- Where neither memory nor a limit runs out and something is left, the fragment is linked. -/
theorem finishInsert_ok {b : Bool} {w' : Walk} (hmem : ∀ ord, env.fragNode ord = true)
    (hsnap : p.ipFragLen ≤ env.pktSnaplen) (hc : CutOk p c)
    (hpost : LoopPost p c w (rightLoop env ctx p c (2 * w.rest.length + 1) w))
    (heq : rightLoop env ctx p c (2 * w.rest.length + 1) w = .ok (b, w'))
    (hroom : b = true → Room c w') (hlimit : ¬ LimitHit ctx w'.ft.overlapCount) :
    (finishInsert env ctx p c w).1 = .ok := by
  have hno : ¬ (ctx.overlapLimit ≠ 0 ∧ w'.ft.overlapCount ≥ ctx.overlapLimit) := hlimit
  unfold finishInsert
  rw [if_neg (Nat.not_lt.2 hsnap), heq]
  dsimp only
  rw [if_neg hno]
  cases b with
  | false => rfl
  | true =>
    rw [heq] at hpost
    obtain ⟨r, hr⟩ := addFragNode_room c.lastfrag hmem hc hpost (hroom rfl)
    rw [hr]
    rfl

/-- The overlaps counted by a call are among those it can meet. -/
theorem count_le_met {ft : FragTracker} {w w' : Walk} {fuel : ℕ} {b : Bool}
    (hend : u16 (c.fragOffset + c.len) = c.fragEnd)
    (hleft : leftOverlap env p c (placedWalk ft c) = .ok w)
    (hloop : rightLoop env ctx p c fuel w = .ok (b, w')) :
    w'.ft.overlapCount ≤ ft.overlapCount + overlapsMet ctx c ft.fraglist := by
  have hsplit := leftOverlap_split hend rfl hleft
  have hle := (rightLoop_count env ctx p c fuel w hloop).2
  have hmet := met_split ctx hsplit.mem
  have hcount : w.ft.overlapCount = ft.overlapCount + leftMet c (placedWalk ft c).before :=
    hsplit.count
  have halerted : (if w.alertedOverlap then 0 else fullMet ctx c w.rest) ≤ fullMet ctx c w.rest := by
    split_ifs <;> omega
  have hsum : overlapsMet ctx c ft.fraglist = leftMet c (placedWalk ft c).before +
      partMet c (placedWalk ft c).rest + fullMet ctx c (placedWalk ft c).rest := by
    rw [overlapsMet, findPlace_eq, List.append_nil]
    rfl
  omega

theorem truncLeft_ok (hmem : ∀ ord, env.fragNode ord = true) (overlap : ℤ) (left : Frag3Frag)
    (bs : List Frag3Frag) (w : Walk) :
    ∃ w', truncLeft env c overlap left bs w = .ok w' ∧ w'.fragOffset = w.fragOffset := by
  have hlast : ∀ (left : Frag3Frag) (w : Walk),
      (leftOverlapLast left bs w).fragOffset = w.fragOffset := by
    intro left w
    unfold leftOverlapLast
    split_ifs <;> rfl
  unfold truncLeft
  by_cases hbeyond : left.offset < w.fragOffset ∧ (left.stop : ℤ) > w.fragOffset + c.len
  · rw [if_pos hbeyond, dupFragNode, if_pos (hmem _)]
    exact ⟨_, rfl, hlast _ _⟩
  · rw [if_neg hbeyond]
    exact ⟨_, rfl, hlast _ _⟩

/-- The held fragment before the new one is cut back. -/
theorem leftOverlap_cut {ft : FragTracker} {left : Frag3Frag}
    (hmem : ∀ ord, env.fragNode ord = true) (hc : CutOk p c)
    (hleft : left ∈ (placedWalk ft c).before.head?) (hcuts : CutsLeft ft.fragPolicy c left)
    (htear : ¬ teardrop p c ft) :
    ∃ w, leftOverlap env p c (placedWalk ft c) = .ok w ∧ w.fragOffset = c.fragOffset := by
  obtain ⟨bs, hb⟩ : ∃ bs, (placedWalk ft c).before = left :: bs := by
    cases hb : (placedWalk ft c).before with
    | nil => rw [hb] at hleft; cases hleft
    | cons l bs =>
      rw [hb] at hleft
      exact ⟨bs, by rw [Option.some.inj hleft]⟩
  obtain ⟨hover, hpolicy⟩ := hcuts
  have hoffset : (placedWalk ft c).fragOffset = c.fragOffset := rfl
  have htear' : ¬ teardrop p c (placedWalk ft c).countOverlap.ft = true := htear
  obtain ⟨w, hw, ho⟩ := truncLeft_ok (c := c) hmem (left.stop - c.fragOffset) left bs
    (placedWalk ft c).countOverlap
  have hswitch : leftSwitch env c (left.stop - c.fragOffset) left bs
      (placedWalk ft c).countOverlap = .ok w := by
    have hpol : (placedWalk ft c).countOverlap.ft.fragPolicy = ft.fragPolicy := rfl
    have hoffset' : (placedWalk ft c).countOverlap.fragOffset = c.fragOffset := rfl
    unfold leftSwitch
    rw [hpol]
    rcases hpolicy with hp | ⟨hp, hshort⟩
    · rw [hp]
      exact hw
    · rw [hp]
      dsimp only
      rw [hoffset', if_neg (by omega)]
      exact hw
  have hw' : w.fragOffset = c.fragOffset := ho
  have hlt := hc.lt
  unfold leftOverlap
  rw [hb]
  dsimp only
  rw [hoffset, if_pos (by omega), if_neg htear', hswitch]
  dsimp only
  rw [if_neg (by omega)]
  exact ⟨w, rfl, hw'⟩

/-- The walk behind a held fragment that was cut back. -/
theorem leftOverlap_past {ft : FragTracker} {left : Frag3Frag} (hc : CutOk p c)
    (hend : u16 (c.fragOffset + c.len) = c.fragEnd) (hl : Laid ft.fraglist)
    (hleft : left ∈ (placedWalk ft c).before.head?) (hcuts : CutsLeft ft.fragPolicy c left)
    (hr : leftOverlap env p c (placedWalk ft c) = .ok w) (ho : w.fragOffset = c.fragOffset) :
    Past c w where
  before := ho.trans_lt hc.lt
  next n hn hlt := by
    have hnodes : (placedWalk ft c).nodes = ft.fraglist := placedWalk_nodes
    rw [Walk.nodes_eq rfl] at hnodes
    have hapart := (tiled_append.1 (hnodes.symm ▸ hl)).2.2
    rcases (leftOverlap_split hend rfl hr).mem n hn with hmem | hat
    · have hafter := hapart left (List.mem_reverse.2 (List.mem_of_mem_head? hleft)) n hmem
      have hover := hcuts.1
      omega
    · omega

/-- **The list surgery of a slip free call leaves the list to a refusal**, when neither memory
nor a limit runs out. -/
theorem insertCut_calm {ft : FragTracker} (hmem : ∀ ord, env.fragNode ord = true)
    (hsnap : p.ipFragLen ≤ env.pktSnaplen)
    (hlimit : ¬ LimitHit ctx (ft.overlapCount + overlapsMet ctx c ft.fraglist))
    (hc : CutOk p c) (hend : u16 (c.fragOffset + c.len) = c.fragEnd)
    (hl : Laid ft.fraglist) (hb : Bounded ft.fraglist) (hpos : ∀ n ∈ ft.fraglist, 0 < n.size)
    (horig : ft.fragPolicy = .first → c.origOffset = c.fragOffset)
    (hsafe : teardrop p c ft ∨ c.fragEnd ≤ movedTo c.fragOffset ft.fraglist ∨
      ChunkSafe ft.fragPolicy c.fragOffset (movedTo c.fragOffset ft.fraglist) c.fragEnd
        (startsAt c.fragOffset ft.fraglist).2)
    (hret : (insertCut env ctx p c ft).1 ≠ .ok) :
    Unchanged (placedWalk ft c) (insertCut env ctx p c ft).2 := by
  have hpost := leftOverlap_post env (placedWalk_placed hl hb) hc
  rw [insertCut, findPlace_eq, List.append_nil] at hret ⊢
  dsimp only at hret ⊢
  rw [← placedWalk] at hret ⊢
  -- a loop that comes to its end links the fragment
  have hlinked : ∀ {w w' : Walk} {b : Bool}, leftOverlap env p c (placedWalk ft c) = .ok w →
      LoopPost p c w (rightLoop env ctx p c (2 * w.rest.length + 1) w) →
      rightLoop env ctx p c (2 * w.rest.length + 1) w = .ok (b, w') → (b = true → Room c w') →
      (finishInsert env ctx p c w).1 = .ok := by
    intro w w' b hr hloop heq hroom
    refine finishInsert_ok hmem hsnap hc hloop heq hroom fun hhit => hlimit ⟨hhit.1, ?_⟩
    exact hhit.2.trans (count_le_met hend hr heq)
  by_cases hfree : LeftFree env p c ft
  · have hleft := leftOverlap_free hfree
    cases hr : leftOverlap env p c (placedWalk ft c) with
    | error e =>
      rw [hr] at hleft
      exact hleft
    | ok w =>
      rw [hr] at hleft hpost hret
      obtain ⟨hsame, hrest, -⟩ := hleft
      have hsafe' := hpost.chunkSafe hsafe
      obtain ⟨hgo, hopen, ht, hle, -⟩ := hpost
      have horig' : w.ft.fragPolicy = .first → c.origOffset = c.fragOffset := hgo.policy ▸ horig
      have hpos' : ∀ n ∈ w.rest, 0 < n.size := by
        rw [hrest]
        exact fun n hn => hpos n ((List.dropWhile_sublist _).subset hn)
      have hfuel : w.rest.length < 2 * w.rest.length + 1 := by omega
      rcases rightLoop_slipFree ctx hmem hc hopen ht hpos' hfuel horig' hsafe' with
        hkept | ⟨b, w', heq, hroom⟩
      · exact finishInsert_unchanged (hsame.loopKept hkept) hsame hret
      · have hloop := rightLoop_post env ctx hc (2 * w.rest.length + 1) w hopen (by omega) ht
          horig' hle hsafe'
        exact absurd (hlinked hr hloop heq hroom) hret
  · -- a held fragment is cut back: the call ends well
    unfold LeftFree at hfree
    push Not at hfree
    obtain ⟨left, hleft, hcuts, htear, -⟩ := hfree
    obtain ⟨w, hr, ho⟩ := leftOverlap_cut hmem hc hleft hcuts htear
    have hpast := leftOverlap_past hc hend hl hleft hcuts hr ho
    rw [hr] at hpost hret
    have hsafe' := hpost.chunkSafe hsafe
    obtain ⟨hgo, hopen, ht, hle, -⟩ := hpost
    have horig' : w.ft.fragPolicy = .first → c.origOffset = c.fragOffset := hgo.policy ▸ horig
    have htear' : ¬ teardrop p c w.ft := by
      rw [teardrop, hgo.size, hgo.gotLast]
      exact htear
    obtain ⟨b, w', heq, hroom⟩ := rightLoop_past ctx hmem hc (2 * w.rest.length + 1) hopen ht hpast
      (by omega) horig' (hsafe'.resolve_left htear') htear'
    have hloop := rightLoop_post env ctx hc (2 * w.rest.length + 1) w hopen (by omega) ht
      horig' hle hsafe'
    exact absurd (hlinked hr hloop heq hroom) hret

/-! ### The whole call -/

/-- A slip free call on a well laid tracker for which memory, snap length and overlap limit
suffice. -/
structure Unhindered (env : Env) (ctx : Frag3Context) (p : Packet) (ft : FragTracker) : Prop where
  laid : Laid ft.fraglist
  bounded : Bounded ft.fraglist
  positive : ∀ n ∈ ft.fraglist, 0 < n.size
  size : ft.calculatedSize ≤ 65535
  legal : Legal ft p
  slipFree : SlipFree ft p
  memory : ∀ ord, env.fragNode ord = true
  snaplen : p.ipFragLen ≤ env.pktSnaplen
  overlaps : ¬ LimitHit ctx (ft.overlapCount + ft.overlapsMet ctx p)

theorem frag3Expire_fresh {ft : FragTracker} (h : checkTimeout p.ts ft.fragTime ctx = false) :
    frag3Expire ctx p ft = ft := by
  rw [frag3Expire, h, if_neg Bool.false_ne_true]

/-- The list surgery of an unhindered call leaves the list to a refusal. -/
theorem Unhindered.insertCut {ft ft' : FragTracker} (h : Unhindered env ctx p ft)
    (htime : checkTimeout p.ts ft.fragTime ctx = false)
    (hcut : cutFragment p (frag3CheckFirstLast p ft).2 (frag3CheckFirstLast p ft).1 =
      .ok (c, ft'))
    (hret : (Frag3.insertCut env ctx p c ft').1 ≠ .ok) :
    Unchanged (placedWalk ft' c) (Frag3.insertCut env ctx p c ft').2 := by
  have hend := (cutFragment_end hcut).1
  have hmet : ft.overlapsMet ctx p = Frag3.overlapsMet ctx c ft'.fraglist := by
    unfold FragTracker.overlapsMet
    rw [frag3Expire_fresh htime]
    dsimp only
    rw [hcut]
  have hoverlaps := h.overlaps
  rw [hmet] at hoverlaps
  rcases cutFragment_cases h.legal h.size with ⟨c', hc, heq⟩ | ⟨ft'', -, heq⟩
  · obtain ⟨rfl, rfl⟩ := Prod.mk.inj (Except.ok.inj (hcut.symm.trans heq))
    refine insertCut_calm h.memory h.snaplen hoverlaps hc.toCutOk hend h.laid h.bounded h.positive
      ?_ ?_ hret
    · intro hf
      rw [hc.orig, hc.start]
      exact (if_neg fun hadj => by cases hadj.1.symm.trans hf).symm
    · rw [hc.start, hc.stop]
      exact (h.slipFree.resolve_left hc.admitted).imp_left hc.teardrop
  · rw [hcut] at heq
    cases heq

end Snort.Frag3
