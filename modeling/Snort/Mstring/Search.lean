import Snort.Mstring.Model

/-!
# The search finds the first occurrence

* `makeSkip_eq`: the table of `make_skip` is by the last place of a character;
* `findShift_spec`: the places that the inner loops of `make_shift` leave out;
* **`makeShift_table`**: the table of `make_shift`.

* `compareBack_spec`: one comparison ends with an occurrence or with a mismatch;
* `searchLoop_spec`: a run of the search, which leaves no occurrence out;
* **`mSearch_finds`**: with the tables of the pattern, the searches read in bounds, come to an end, and
  find the first occurrence.
-/

namespace Snort.Mstring

open BoyerMoore

/-! ### `make_skip` -/

theorem makeSkipLoop_eq (ptrn : List Byte) (skip : Byte → ℕ) (c : Byte) :
    makeSkipLoop ptrn ptrn.length skip c = if c ∈ ptrn then ptrn.reverse.idxOf c + 1 else skip c := by
  induction ptrn generalizing skip with
  | nil => rfl
  | cons b ptrn ih =>
    rw [makeSkipLoop, List.length_cons, Nat.add_sub_cancel, ih, List.reverse_cons, List.idxOf_append]
    by_cases hmem : c ∈ ptrn
    · rw [if_pos hmem, if_pos (List.mem_cons_of_mem b hmem), if_pos (List.mem_reverse.2 hmem)]
    · rw [if_neg hmem, if_neg (mt List.mem_reverse.1 hmem), List.length_reverse]
      by_cases hcb : c = b
      · subst hcb
        rw [Function.update_self, if_pos List.mem_cons_self, List.idxOf_cons_self, Nat.zero_add]
      · have hcons : c ∉ b :: ptrn := fun h => (List.mem_cons.1 h).elim hcb hmem
        rw [Function.update_of_ne hcb, if_neg hcons]

theorem makeSkip_eq (ptrn : List Byte) : makeSkip ptrn = fun c => ptrn.reverse.idxOf c + 1 := by
  funext c
  rw [makeSkip, makeSkipLoop_eq]
  split_ifs with hmem
  · rfl
  · rw [List.idxOf_eq_length (mt List.mem_reverse.1 hmem), List.length_reverse]

/-- **The table of `make_skip`.** -/
theorem makeSkip_table {ptrn : List Byte} (hne : ptrn ≠ []) : SkipTable ptrn (makeSkip ptrn) := by
  rw [makeSkip_eq]
  exact skipTable_idxOf ptrn hne

/-! ### `make_shift` -/

section Shift

variable {ptrn : List Byte} {c : Byte} {s : ℕ}

/-- What stands behind a place of the pattern does not stand at a distance before. -/
def Apart (ptrn : List Byte) (s d : ℕ) : Prop :=
  ∃ k, s < k ∧ k < ptrn.length ∧ d ≤ k ∧ ptrn[k - d]? ≠ ptrn[k]?

/-- The next place of the last character. -/
theorem skipTo_spec {p : ℕ} (hp : p ≤ ptrn.length) :
    ∃ k, skipTo ptrn c p = some k ∧ k ≤ p ∧ (0 < p → k < p) ∧
      ∀ j, k < j → j < p → ptrn[j]? ≠ some c := by
  induction p with
  | zero => exact ⟨0, rfl, le_rfl, fun h => absurd h (lt_irrefl 0), fun j _ hj => absurd hj (Nat.not_lt_zero j)⟩
  | succ p ih =>
    have hget := List.getElem?_eq_getElem (show p < ptrn.length from hp)
    rw [skipTo, hget, Option.bind_eq_bind, Option.bind_some]
    by_cases hc : ptrn[p] = c
    · rw [if_neg (not_not.2 hc)]
      exact ⟨p, rfl, Nat.le_succ p, fun _ => Nat.lt_succ_self p, fun j hj hj' => by omega⟩
    · obtain ⟨k, hk, hle, -, hbetween⟩ := ih (Nat.le_of_succ_le hp)
      rw [if_pos hc]
      refine ⟨k, hk, hle.trans (Nat.le_succ p), fun _ => Nat.lt_succ_of_le hle, fun j hj hj' => ?_⟩
      rcases Nat.lt_succ_iff_lt_or_eq.1 hj' with hlt | rfl
      · exact hbetween j hj hlt
      · rw [hget]
        exact fun h => hc (Option.some.inj h)

/-- Where the comparison stops: at the start of the pattern, at the place, or where characters differ. -/
theorem compare_spec (ptrn : List Byte) (pptr : ℕ) :
    ∀ {p3 p2 : ℕ}, p3 ≤ p2 → p2 ≤ ptrn.length → ∃ q3 q2, compare ptrn pptr p3 p2 = some (q3, q2) ∧
      q3 ≤ p3 ∧ q2 + p3 = p2 + q3 ∧ (0 < q3 → pptr + 1 ≤ q2 → ptrn[q3]? ≠ ptrn[q2]?) := by
  intro p3
  induction p3 with
  | zero =>
    intro p2 _ _
    refine ⟨0, p2, ?_, le_rfl, rfl, fun h => absurd h (lt_irrefl 0)⟩
    cases p2 <;> rfl
  | succ p3 ih =>
    intro p2 hle hp2
    obtain ⟨p2, rfl⟩ := Nat.exists_eq_add_of_le' (show 1 ≤ p2 by omega)
    have hget3 := List.getElem?_eq_getElem (show p3 < ptrn.length by omega)
    have hget2 := List.getElem?_eq_getElem (show p2 < ptrn.length by omega)
    rw [compare, hget3, hget2, Option.bind_eq_bind, Option.bind_some, Option.bind_some]
    split_ifs with hgo
    · obtain ⟨q3, q2, hcompare, hq3, hsum, hdiffer⟩ := ih (show p3 ≤ p2 by omega) (by omega)
      exact ⟨q3, q2, hcompare, by omega, by omega, hdiffer⟩
    · refine ⟨p3, p2, rfl, Nat.le_succ p3, by omega, fun _ hpptr heq => hgo ⟨?_, hpptr⟩⟩
      rw [hget3, hget2] at heq
      exact Option.some.inj heq

/-- **The places that are left out** are apart from what stands behind `s`. -/
theorem findShift_spec (hc : ptrn[ptrn.length - 1]? = some c) (hs : s + 1 < ptrn.length) :
    ∀ {fuel p1 : ℕ}, p1 < fuel → 0 < p1 → p1 ≤ ptrn.length - 1 →
      (∀ k, p1 ≤ k → k < ptrn.length - 1 → Apart ptrn s (ptrn.length - 1 - k)) →
      ∃ q3 q2 k, findShift ptrn c (s + 1) fuel p1 = some (q3, q2) ∧ q2 + k = ptrn.length - 1 + q3 ∧
        q3 ≤ k ∧ k < ptrn.length - 1 ∧
        ∀ j, k < j → j < ptrn.length - 1 → Apart ptrn s (ptrn.length - 1 - j) := by
  intro fuel
  induction fuel with
  | zero => exact fun h => absurd h (Nat.not_lt_zero _)
  | succ fuel ih =>
    intro p1 hfuel hpos hp1 hout
    obtain ⟨k, hskip, -, hkp, hbetween⟩ := skipTo_spec (c := c) (show p1 ≤ ptrn.length by omega)
    have hk := hkp hpos
    obtain ⟨q3, q2, hcompare, hq3, hsum, hdiffer⟩ :=
      compare_spec ptrn (s + 1) (show k ≤ ptrn.length - 1 by omega) (Nat.sub_le _ _)
    -- the places in front of `p1` up to the one that was found
    have hout' : ∀ j, k < j → j < ptrn.length - 1 → Apart ptrn s (ptrn.length - 1 - j) := by
      intro j hj hjn
      by_cases hjp : p1 ≤ j
      · exact hout j hjp hjn
      · refine ⟨ptrn.length - 1, by omega, by omega, by omega, ?_⟩
        rw [hc, show ptrn.length - 1 - (ptrn.length - 1 - j) = j by omega]
        exact hbetween j hj (by omega)
    rw [findShift, hskip, Option.bind_eq_bind, Option.bind_some, hcompare, Option.bind_eq_bind,
      Option.bind_some]
    dsimp only
    split_ifs with hgo
    · refine ih (show k < fuel by omega) (by omega) (by omega) fun j hj hjn => ?_
      rcases hj.eq_or_lt with rfl | hlt
      · refine ⟨q2, by omega, by omega, by omega, ?_⟩
        rw [show q2 - (ptrn.length - 1 - k) = q3 by omega]
        exact hdiffer hgo.1 hgo.2
      · exact hout' j hlt hjn
    · exact ⟨q3, q2, k, rfl, by omega, hq3, by omega, hout'⟩

theorem makeShiftLoop_spec (hc : ptrn[ptrn.length - 1]? = some c) :
    ∀ shift : ℕ → ℕ, s + 1 ≤ ptrn.length → ∃ shift', makeShiftLoop ptrn c s s shift = some shift' ∧
      (∀ p, s ≤ p → shift' p = shift p) ∧
      ∀ p < s, ptrn.length < p + shift' p ∧
        ∀ d, 0 < d → ptrn.length + d < p + shift' p → Apart ptrn p d := by
  induction s with
  | zero => exact fun _ _ => ⟨_, rfl, fun _ _ => rfl, fun p hp => absurd hp (Nat.not_lt_zero p)⟩
  | succ s ih =>
    intro shift hs
    obtain ⟨q3, q2, k, hfind, hsum, hq3, hk, hout⟩ := findShift_spec hc (show s + 1 < ptrn.length by omega)
      (show ptrn.length - 1 < ptrn.length by omega) (by omega) le_rfl fun j hj hj' => by omega
    obtain ⟨shift', hloop, hsame, hspec⟩ :=
      ih (Function.update shift s (ptrn.length - s + q2 - q3)) (by omega)
    refine ⟨shift', ?_, fun p hp => ?_, fun p hp => ?_⟩
    · rw [makeShiftLoop, hfind, Option.bind_eq_bind, Option.bind_some]
      exact hloop
    · rw [hsame p (by omega), Function.update_of_ne (by omega)]
    · rcases Nat.lt_succ_iff_lt_or_eq.1 hp with hlt | rfl
      · exact hspec p hlt
      · rw [hsame p le_rfl, Function.update_self]
        refine ⟨by omega, fun d hd hlt => ?_⟩
        have hapart := hout (ptrn.length - 1 - d) (by omega) (by omega)
        rwa [show ptrn.length - 1 - (ptrn.length - 1 - d) = d by omega] at hapart

/-- **The table of `make_shift`.** -/
theorem makeShift_table (hne : ptrn ≠ []) : ∃ shift, makeShift ptrn = some shift ∧ ShiftTable ptrn shift := by
  have hpos := List.length_pos_of_ne_nil hne
  obtain ⟨c, hc⟩ : ∃ c, ptrn[ptrn.length - 1]? = some c :=
    ⟨_, List.getElem?_eq_getElem (show ptrn.length - 1 < ptrn.length by omega)⟩
  obtain ⟨shift, hloop, hsame, hspec⟩ := makeShiftLoop_spec hc
    (Function.update (fun _ => 0) (ptrn.length - 1) 1) (show ptrn.length - 1 + 1 ≤ ptrn.length by omega)
  refine ⟨shift, ?_, fun p hp => (hspec p (by omega)).1, fun p d hp hd hlt => ?_⟩
  · rw [makeShift, hc]
    exact hloop
  · by_cases hlast : p < ptrn.length - 1
    · exact (hspec p hlast).2 d hd hlt
    · obtain rfl : p = ptrn.length - 1 := by omega
      rw [hsame _ le_rfl, Function.update_self] at hlt
      omega

end Shift

/-! ## The search finds the first occurrence -/

open BoyerMoore

/-- An answer, and the place behind the first occurrence. -/
structure Finds (ptrn txt : List Byte) (r : Bool × Option ℕ) : Prop where
  answer : r.1 = true ↔ ∃ i, Occurs ptrn txt i
  doe : ∀ d, r.2 = some d ↔ ∃ i, FirstAt ptrn txt i ∧ d = i + ptrn.length

section Search

variable {fold : Byte → Byte} {buf ptrn : List Byte} {skip : Byte → ℕ} {shift : ℕ → ℕ} {i : ℕ}

variable (fold) in
/-- What has been compared so far is equal, from the end of the pattern down to `p`. -/
theorem compareBack_spec (hi : i + ptrn.length ≤ buf.length) :
    ∀ {p : ℕ}, 0 < p → p ≤ ptrn.length →
      (∀ k, p ≤ k → k < ptrn.length → (buf.map fold)[i + k]? = ptrn[k]?) →
      (compareBack fold buf ptrn (i + p) p = some (.found i) ∧ Occurs ptrn (buf.map fold) i) ∨
        ∃ q c, compareBack fold buf ptrn (i + p) p = some (.differ (i + q) q c) ∧
          Mismatch ptrn (buf.map fold) i q c := by
  intro p
  induction p with
  | zero => exact fun h => absurd h (lt_irrefl 0)
  | succ p ih =>
    intro _ hp hequal
    have hgetb := List.getElem?_eq_getElem (show i + p < buf.length by omega)
    have hgetc := List.getElem?_eq_getElem (show p < ptrn.length from hp)
    have hfold : (buf.map fold)[i + p]? = some (fold buf[i + p]) := by
      rw [List.getElem?_map, hgetb, Option.map_some]
    rw [← Nat.add_assoc i p 1, compareBack, hgetb, hgetc, Option.bind_eq_bind, Option.bind_some,
      Option.bind_some]
    by_cases heq : fold buf[i + p] = ptrn[p]
    · have hequal' : ∀ k, p ≤ k → k < ptrn.length → (buf.map fold)[i + k]? = ptrn[k]? := by
        intro k hk hlt
        rcases hk.eq_or_lt with rfl | hk
        · rw [hfold, hgetc, heq]
        · exact hequal k hk hlt
      rw [if_pos heq]
      by_cases hzero : p = 0
      · subst hzero
        rw [if_pos rfl]
        exact Or.inl ⟨rfl, occurs_iff.2 fun k hk => hequal' k (Nat.zero_le k) hk⟩
      · rw [if_neg hzero]
        exact ih (Nat.pos_of_ne_zero hzero) (Nat.le_of_succ_le hp) hequal'
    · rw [if_neg heq]
      refine Or.inr ⟨p, fold buf[i + p], rfl, hp, hfold, fun hget => heq ?_, fun k hk hlt => hequal k hk hlt⟩
      exact (Option.some.inj (hgetc.symm.trans hget)).symm

variable (fold buf) in
/-- **A run of the search** from a place with no occurrence before it. -/
theorem searchLoop_spec (hne : ptrn ≠ []) (hskip : SkipTable ptrn skip) (hshift : ShiftTable ptrn shift) :
    ∀ (fuel i : ℕ), 0 < fuel → buf.length + 2 ≤ fuel + (i + ptrn.length) →
      (∀ j < i, ¬Occurs ptrn (buf.map fold) j) →
      ∃ doe, searchLoop fold buf ptrn skip shift fuel (i + ptrn.length) = some doe ∧
        ∀ d, doe = some d ↔ ∃ j, FirstAt ptrn (buf.map fold) j ∧ d = j + ptrn.length := by
  intro fuel
  induction fuel with
  | zero => exact fun _ h => absurd h (lt_irrefl 0)
  | succ fuel ih =>
    intro i _ hfuel hbefore
    rw [searchLoop]
    by_cases hlen : i + ptrn.length ≤ buf.length
    · rw [if_pos hlen]
      rcases compareBack_spec fold hlen (List.length_pos_of_ne_nil hne) le_rfl
        fun k hk hlt => absurd hlt (not_lt.2 hk) with ⟨hcompare, hoccurs⟩ | ⟨q, c, hcompare, hmismatch⟩
      · have hfirst : FirstAt ptrn (buf.map fold) i := ⟨hoccurs, hbefore⟩
        rw [hcompare, Option.bind_eq_bind, Option.bind_some]
        refine ⟨some (i + ptrn.length), rfl, fun d => ⟨fun h => ⟨i, hfirst, (Option.some.inj h).symm⟩, ?_⟩⟩
        rintro ⟨j, hj, rfl⟩
        rw [hj.unique hfirst]
      · obtain ⟨hforward, hnone⟩ := hmismatch.jump hskip hshift
        have hmax : (if shift q < skip c then skip c else shift q) = max (skip c) (shift q) := by
          rw [max_comm]
          exact (max_def_lt _ _).symm
        rw [hcompare, Option.bind_eq_bind, Option.bind_some]
        dsimp only
        rw [hmax]
        -- the next place of the pattern
        obtain ⟨i', hi'⟩ : ∃ i', i + q + max (skip c) (shift q) = i' + ptrn.length :=
          ⟨i + q + max (skip c) (shift q) - ptrn.length, by omega⟩
        rw [hi'] at hforward hnone ⊢
        refine ih i' (by omega) (by omega) fun j hj => ?_
        by_cases hij : i ≤ j
        · exact hnone j hij (by omega)
        · exact hbefore j (not_le.1 hij)
    · rw [if_neg hlen]
      refine ⟨none, rfl, fun d => ⟨fun h => absurd h.symm (Option.some_ne_none d), ?_⟩⟩
      rintro ⟨j, hj, -⟩
      have hle := hj.occurs.le hne
      rw [List.length_map] at hle
      exact absurd hj.occurs (hbefore j (by omega))

/-- **The search with the tables of a pattern.** -/
theorem searchWith_finds (fold : Byte → Byte) (buf : List Byte) (hne : ptrn ≠ []) (hskip : SkipTable ptrn skip)
    (hshift : ShiftTable ptrn shift) :
    ∃ r, searchWith fold buf ptrn skip shift = some r ∧ Finds ptrn (buf.map fold) r := by
  have hpos := List.length_pos_of_ne_nil hne
  obtain ⟨doe, hloop, hdoe⟩ := searchLoop_spec fold buf hne hskip hshift (buf.length + 1) 0
    (Nat.succ_pos _) (by omega) fun j hj => absurd hj (Nat.not_lt_zero j)
  rw [Nat.zero_add] at hloop
  refine ⟨(doe.isSome, doe), ?_, ?_, hdoe⟩
  · rw [searchWith, if_neg hpos.ne', hloop, Option.map_some]
  · show doe.isSome = true ↔ _
    rw [Option.isSome_iff_exists]
    constructor
    · rintro ⟨d, hd⟩
      obtain ⟨j, hj, -⟩ := (hdoe d).1 hd
      exact ⟨j, hj.occurs⟩
    · rintro ⟨j, hj⟩
      obtain ⟨k, hk⟩ := hj.exists_firstAt
      exact ⟨_, (hdoe _).2 ⟨k, hk, rfl⟩⟩

end Search

/-- **The searches**: the table of `make_shift` is made without a read outside the pattern, the searches
end without a read outside the buffer, and they find the first occurrence, in the buffer or in the
upper-cased buffer. -/
theorem mSearch_finds (buf ptrn : List Byte) (hne : ptrn ≠ []) :
    ∃ shift, makeShift ptrn = some shift ∧
      (∃ r, mSearch buf ptrn (makeSkip ptrn) shift = some r ∧ Finds ptrn buf r) ∧
      ∃ r, mSearchCI buf ptrn (makeSkip ptrn) shift = some r ∧ Finds ptrn (buf.map toupper) r := by
  obtain ⟨shift, hshift, htable⟩ := makeShift_table hne
  have hid := searchWith_finds id buf hne (makeSkip_table hne) htable
  rw [List.map_id] at hid
  exact ⟨shift, hshift, hid, searchWith_finds toupper buf hne (makeSkip_table hne) htable⟩

/-- A pattern that occurs behind a mismatch. -/
theorem mSearch_finds_aab :
    [97, 97, 98] ≠ ([] : List Byte) ∧ ∃ shift, makeShift [97, 97, 98] = some shift ∧
      (∃ r, mSearch [97, 97, 97, 98] [97, 97, 98] (makeSkip [97, 97, 98]) shift = some r ∧
        Finds [97, 97, 98] [97, 97, 97, 98] r) ∧
      ∃ r, mSearchCI [97, 97, 97, 98] [97, 97, 98] (makeSkip [97, 97, 98]) shift = some r ∧
        Finds [97, 97, 98] [65, 65, 65, 66] r :=
  ⟨by decide, mSearch_finds [97, 97, 97, 98] [97, 97, 98] (by decide)⟩

end Snort.Mstring
