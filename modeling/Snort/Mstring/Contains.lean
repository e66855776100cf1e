import Snort.Mstring.Search

/-!
# The plain search: `mContainsSubstr`

* `containsLoop`: the loop, which goes back behind a mismatch;
* `containsLoop_spec`: what has been compared, and where the pattern does not stand;
* **`mContainsSubstr_eq_mSearch`**: the plain search and the Boyer-Moore searches give the same answers.
-/

namespace Snort.Mstring

open BoyerMoore

variable (buf pat : List Byte)

/-- The `do` loop; `p_idx` is `m_cnt` behind the start of the pattern in every round. -/
def containsLoop : ℕ → ℕ → ℕ → Option Bool
  | 0, _, _ => none
  | fuel + 1, bIdx, mCnt => do
    let p ← pat[mCnt]?
    let b ← buf[bIdx]?
    if p = b then
      if mCnt + 1 = pat.length then some true
      else if bIdx + 1 < buf.length then containsLoop fuel (bIdx + 1) (mCnt + 1) else some false
    else
      let bIdx := if mCnt = 0 then bIdx + 1 else bIdx - (mCnt - 1)
      if bIdx < buf.length then containsLoop fuel bIdx 0 else some false

/-- Every place is compared with every character of the pattern at most. -/
def mContainsSubstr : Option Bool := containsLoop buf pat (buf.length * pat.length + 1) 0 0

variable {buf pat}

/-- The first `m` characters of the pattern stand at `s`, and the pattern does not stand before. -/
theorem containsLoop_spec (fuel : ℕ) {s m : ℕ} (hs : s + m < buf.length) (hm : m < pat.length)
    (hequal : ∀ k < m, buf[s + k]? = pat[k]?) (hbefore : ∀ j < s, ¬Occurs pat buf j)
    (hfuel : (buf.length - s) * pat.length < fuel + m) :
    ∃ r, containsLoop buf pat fuel (s + m) m = some r ∧ (r = true ↔ ∃ i, Occurs pat buf i) := by
  have hne : pat ≠ [] := List.ne_nil_of_length_pos (by omega)
  -- an occurrence behind `j` has room for the pattern
  have hnone : ∀ {n}, (∀ j < n, ¬Occurs pat buf j) → buf.length < n + pat.length → ¬∃ i, Occurs pat buf i := by
    rintro n hn hlen ⟨i, hi⟩
    have hle := hi.le hne
    exact hn i (by omega) hi
  induction fuel generalizing s m with
  | zero =>
    have hle := Nat.le_mul_of_pos_left pat.length (show 0 < buf.length - s by omega)
    omega
  | succ fuel ih =>
    have hp : pat[m]? = some pat[m] := List.getElem?_eq_getElem hm
    have hb : buf[s + m]? = some buf[s + m] := List.getElem?_eq_getElem hs
    simp only [containsLoop, hp, hb, Option.bind_eq_bind, Option.bind_some]
    by_cases hc : pat[m] = buf[s + m]
    · have hequal' : ∀ k < m + 1, buf[s + k]? = pat[k]? := by
        intro k hk
        rcases Nat.lt_succ_iff_lt_or_eq.1 hk with hk | rfl
        · exact hequal k hk
        · rw [hp, hb, hc]
      rw [if_pos hc]
      by_cases hlast : m + 1 = pat.length
      · rw [if_pos hlast]
        exact ⟨true, rfl, iff_of_true rfl ⟨s, occurs_iff.2 fun k hk => hequal' k (by omega)⟩⟩
      rw [if_neg hlast]
      by_cases hroom : s + m + 1 < buf.length
      · rw [if_pos hroom]
        exact ih (s := s) (m := m + 1) hroom (by omega) hequal' hbefore (by omega)
      · rw [if_neg hroom]
        exact ⟨false, rfl, iff_of_false Bool.false_ne_true (hnone hbefore (by omega))⟩
    · have hbefore' : ∀ j < s + 1, ¬Occurs pat buf j := by
        intro j hj hocc
        rcases Nat.lt_succ_iff_lt_or_eq.1 hj with hj | rfl
        · exact hbefore j hj hocc
        · have heq := occurs_iff.1 hocc m hm
          rw [hp, hb] at heq
          exact hc (Option.some.inj heq).symm
      have hback : (if m = 0 then s + m + 1 else s + m - (m - 1)) = s + 1 := by
        split_ifs <;> omega
      rw [if_neg hc, hback]
      by_cases hroom : s + 1 < buf.length
      · rw [if_pos hroom]
        have hmul : (buf.length - s) * pat.length = (buf.length - (s + 1)) * pat.length + pat.length := by
          rw [← Nat.succ_mul]
          congr 1
          omega
        exact ih (s := s + 1) (m := 0) hroom (by omega) (fun k hk => absurd hk (Nat.not_lt_zero k)) hbefore'
          (by omega)
      · rw [if_neg hroom]
        exact ⟨false, rfl, iff_of_false Bool.false_ne_true (hnone hbefore' (by omega))⟩

/-- **The plain search and the fast ones agree**: none reads outside the buffer or the pattern, and `mSearch`, with
the tables of the pattern, answers what `mContainsSubstr` does, `mSearchCI` what it does on the upper-cased buffer. -/
theorem mContainsSubstr_eq_mSearch (b p : Byte) (bs ps : List Byte) :
    ∃ shift, makeShift (p :: ps) = some shift ∧
      (∃ r doe, mContainsSubstr (b :: bs) (p :: ps) = some r ∧
        mSearch (b :: bs) (p :: ps) (makeSkip (p :: ps)) shift = some (r, doe)) ∧
      ∃ r doe, mContainsSubstr (toupper b :: bs.map toupper) (p :: ps) = some r ∧
        mSearchCI (b :: bs) (p :: ps) (makeSkip (p :: ps)) shift = some (r, doe) := by
  have hagree : ∀ {c : Byte} {txt : List Byte} {r : Bool × Option ℕ}, Finds (p :: ps) (c :: txt) r →
      mContainsSubstr (c :: txt) (p :: ps) = some r.1 := by
    intro c txt r hr
    obtain ⟨r', hr', hiff⟩ := @containsLoop_spec (c :: txt) (p :: ps) ((c :: txt).length * (p :: ps).length + 1)
      0 0 (Nat.succ_pos _) (Nat.succ_pos _) (fun k hk => absurd hk (Nat.not_lt_zero k))
      (fun j hj => absurd hj (Nat.not_lt_zero j)) (Nat.lt_succ_self _)
    rw [mContainsSubstr, hr', Bool.eq_iff_iff.2 (hiff.trans hr.answer.symm)]
  have hne := List.cons_ne_nil p ps
  obtain ⟨shift, hshift, htable⟩ := makeShift_table hne
  obtain ⟨⟨r, doe⟩, hr, hfinds⟩ := searchWith_finds id (b :: bs) hne (makeSkip_table hne) htable
  obtain ⟨⟨r', doe'⟩, hr', hfinds'⟩ := searchWith_finds toupper (b :: bs) hne (makeSkip_table hne) htable
  rw [List.map_id] at hfinds
  exact ⟨shift, hshift, ⟨r, doe, hagree hfinds, hr⟩, r', doe', hagree hfinds', hr'⟩

end Snort.Mstring
