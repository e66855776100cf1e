import Snort.Ports.Parser

/-!
# Port lists as texts: what is refused

* `Reads.balanced`, `Reads.nested`: brackets match in a text that is read, and none opens behind one that closes;
* `IsNumber`: a number in a text, which is not part of the name of a variable; `digitPiece`: the digits of it that are
  read at once; `Fits`: what the code takes all of them for is a port;
* `Reads.good`: the numbers of a text that is read fit;
* **`refuses_of_bad`**: a text with an unmatched bracket, or a number that does not fit, is refused.
-/

namespace Snort.Ports

open Brackets

variable {portVarTableFind : List Char → Option (List PortObjectItem)} {s t rest ds g name tok after : List Char}
  {neg : Bool} {c : Char} {poi : PortObjectItem} {items : List PortObjectItem}

/-! ### Brackets -/

theorem balanced_append (hs : ∀ c ∈ s, c ≠ '[' ∧ c ≠ ']') (ht : Balanced '[' ']' t) : Balanced '[' ']' (s ++ t) := by
  induction s with
  | nil => exact ht
  | cons c s ih =>
    have hc := hs c List.mem_cons_self
    exact .skip hc.1 hc.2 (ih fun d hd => hs d (List.mem_cons_of_mem _ hd))

theorem ne_bracket {p : Char → Bool} (hopen : p '[' = false) (hclose : p ']' = false) (hc : p c = true) :
    c ≠ '[' ∧ c ≠ ']' := by
  constructor <;> rintro rfl
  · simp [hopen] at hc
  · simp [hclose] at hc

/-- What is passed over for a port or a range. -/
theorem ReadsPort.eq (h : ReadsPort s poi rest) :
    ∃ p, s = p ++ rest ∧ ∀ c ∈ p, c.isDigit = true ∨ c = ':' := by
  cases h with
  | port h _ => exact ⟨_, h.eq, fun c hc => .inl (h.digits c hc)⟩
  | «open» h _ =>
    refine ⟨_ ++ [':'], by rw [h.eq, List.append_assoc]; rfl, fun c hc => ?_⟩
    rcases List.mem_append.1 hc with hc | hc
    · exact .inl (h.digits c hc)
    · exact .inr (by simpa using hc)
  | range h ht h' hle =>
    rename_i ds es t
    refine ⟨ds ++ ':' :: es, by rw [h.eq, h'.eq]; simp, fun c hc => ?_⟩
    rcases List.mem_append.1 hc with hc | hc
    · exact .inl (h.digits c hc)
    · rcases List.mem_cons.1 hc with rfl | hc
      · exact .inr rfl
      · exact .inl (h'.digits c hc)

/-- Brackets match in a text that is read. -/
theorem Reads.balanced (hvars : NamesFit portVarTableFind) (h : Reads portVarTableFind neg s items) :
    Balanced '[' ']' s := by
  induction h with
  | done => exact .nil
  | gap hc _ ih =>
    have hne := ne_bracket (p := isGap) rfl rfl hc
    exact .skip hne.1 hne.2 ih
  | bang _ ih => exact .skip (by decide) (by decide) ih
  | var hvar _ ih =>
    obtain ⟨g, name, rfl, hg, hname, -⟩ := poParseVar_eq hvars hvar
    refine .skip (by decide) (by decide) (balanced_append (fun c hc => ?_) (balanced_append (fun c hc => ?_) ih))
    · rcases hg c hc with hc | rfl
      · exact ne_bracket (p := isGap) rfl rfl hc
      · decide
    · exact ne_bracket (p := isNameChar) rfl rfl (hname c hc)
  | list _ _ _ _ ihtok ih => exact .nest ihtok ih
  | port _ hport _ ih =>
    obtain ⟨p, heq, hp⟩ := hport.eq
    rw [heq]
    refine balanced_append (fun c hc => ?_) ih
    rcases hp c hc with hc | rfl
    · exact ne_bracket (p := Char.isDigit) rfl rfl hc
    · decide

/-- No bracket opens behind one that closes. -/
def Nested (s : List Char) : Prop := ∀ a b, s = a ++ ']' :: b → '[' ∉ b

theorem open_not_mem (h : Balanced '[' ']' s) (hclose : ']' ∉ s) : '[' ∉ s := by
  induction h with
  | nil => simp
  | skip hop _ _ ih =>
    rw [List.mem_cons, not_or] at hclose ⊢
    exact ⟨hop.symm, ih hclose.2⟩
  | nest _ _ _ _ => simp at hclose

/-- A character in front of a nested text. -/
theorem nested_append (hs : ']' ∉ s) (ht : Nested t) : Nested (s ++ t) := by
  intro a b heq
  rcases List.append_eq_append_iff.1 heq with ⟨c, rfl, hc⟩ | ⟨c, rfl, hc⟩
  · exact ht c b hc
  · cases c with
    | nil => exact ht [] b hc.symm
    | cons d c =>
      obtain ⟨rfl, -⟩ := List.cons.inj hc
      simp at hs

/-- A list is the only one in a text that is read. -/
theorem Reads.nested (hvars : NamesFit portVarTableFind) (h : Reads portVarTableFind neg s items) : Nested s := by
  induction h with
  | done =>
    intro a b heq
    simp at heq
  | @gap _ c s _ hc _ ih =>
    have hne := ne_bracket (p := isGap) rfl rfl hc
    exact nested_append (s := [c]) (by simpa using hne.2.symm) ih
  | @bang _ s _ _ ih => exact nested_append (s := ['!']) (by decide) ih
  | var hvar _ ih =>
    obtain ⟨g, name, rfl, hg, hname, -⟩ := poParseVar_eq hvars hvar
    refine nested_append (s := ['$']) (by decide) (nested_append (fun hc => ?_) (nested_append (fun hc => ?_) ih))
    · rcases hg _ hc with hc | hc <;> exact absurd hc (by decide)
    · exact absurd (hname _ hc) (by decide)
  | @list _ tok after _ _ hclose _ _ hafter ihtok _ =>
    have hopen := open_not_mem (hafter.balanced hvars) hclose
    refine nested_append (s := ['[']) (by decide) fun a b heq => ?_
    rcases List.append_eq_append_iff.1 heq with ⟨c, rfl, hc⟩ | ⟨c, rfl, hc⟩
    · cases c with
      | nil => rwa [← (List.cons.inj hc).2]
      | cons d c =>
        obtain ⟨-, rfl⟩ := List.cons.inj hc
        simp at hclose
    · cases c with
      | nil => rwa [(List.cons.inj hc).2]
      | cons d c =>
        obtain ⟨rfl, rfl⟩ := List.cons.inj hc
        simp [ihtok a c rfl, hopen]
  | port _ hport _ ih =>
    obtain ⟨p, heq, hp⟩ := hport.eq
    rw [heq]
    refine nested_append (fun hc => ?_) ih
    rcases hp _ hc with hc | hc <;> exact absurd hc (by decide)

/-! ### Numbers -/

/-- What is behind some characters is part of the name of a variable. -/
def InName (pre : List Char) : Prop :=
  ∃ a g name, pre = a ++ '$' :: (g ++ name) ∧ (∀ c ∈ g, isGap c = true ∨ c = '$') ∧ ∀ c ∈ name, isNameChar c = true

/-- A number in a text: all digits of a run, outside of names. -/
structure IsNumber (s pre run post : List Char) : Prop where
  eq : s = pre ++ (run ++ post)
  ne_nil : run ≠ []
  digits : ∀ c ∈ run, c.isDigit = true
  left : ∀ c ∈ pre.getLast?, c.isDigit = false
  right : ∀ c ∈ post.head?, c.isDigit = false
  name : ¬InName pre

/-- The digits of a number that are read at once. -/
def digitPiece (run : List Char) (k : ℕ) : List Char := (run.drop (bufferDigits * k)).take bufferDigits

/-- All that is read for a number are ports. -/
def Fits (run : List Char) : Prop := ∀ k, bufferDigits * k < run.length → InRange (digitPiece run k)

/-- The numbers of a text fit. -/
def Good (s : List Char) : Prop := ∀ pre run post, IsNumber s pre run post → Fits run

theorem InName.append (a : List Char) {pre : List Char} (h : InName pre) : InName (a ++ pre) := by
  obtain ⟨b, g, name, rfl, hg, hname⟩ := h
  exact ⟨a ++ b, g, name, by rw [List.append_assoc], hg, hname⟩

/-- A number behind some other characters. -/
theorem IsNumber.of_append {a pre run post : List Char} (h : IsNumber s (a ++ pre) run post)
    (hs : s = a ++ t) : IsNumber t pre run post where
  eq := List.append_cancel_left (hs.symm.trans (h.eq.trans (List.append_assoc _ _ _)))
  ne_nil := h.ne_nil
  digits := h.digits
  left c hc := h.left c (by
    have hne : pre ≠ [] := by
      rintro rfl
      cases hc
    rwa [List.getLast?_append_of_ne_nil _ hne])
  right := h.right
  name hin := h.name (hin.append a)

theorem IsNumber.head {pre run post : List Char} (h : IsNumber s pre run post) :
    ∃ d run', run = d :: run' ∧ d.isDigit = true := by
  obtain ⟨d, run', hrun⟩ := List.exists_cons_of_ne_nil h.ne_nil
  exact ⟨d, run', hrun, h.digits d (by rw [hrun]; exact List.mem_cons_self)⟩

theorem good_nil : Good [] := by
  intro pre run post h
  have := h.eq
  exact absurd (List.append_eq_nil_iff.1 (List.append_eq_nil_iff.1 this.symm).2).1 h.ne_nil

/-- A character that is no digit. -/
theorem good_cons (hc : c.isDigit = false) (h : Good s) : Good (c :: s) := by
  intro pre run post hnum
  cases pre with
  | nil =>
    obtain ⟨d, run', rfl, hd⟩ := hnum.head
    obtain ⟨rfl, -⟩ := List.cons.inj hnum.eq
    simp [hc] at hd
  | cons d pre =>
    obtain ⟨rfl, -⟩ := List.cons.inj hnum.eq
    exact h pre run post (hnum.of_append (a := [c]) rfl)

/-- A list and what is behind it. -/
theorem good_list (htok : Good tok) (hafter : Good after) : Good (tok ++ ']' :: after) := by
  intro pre run post h
  obtain ⟨d, run', hrun, hd⟩ := h.head
  rcases List.append_eq_append_iff.1 h.eq with ⟨a, rfl, ha⟩ | ⟨b, rfl, hb⟩
  · -- behind the bracket
    cases a with
    | nil =>
      rw [List.nil_append, hrun] at ha
      obtain ⟨rfl, -⟩ := List.cons.inj ha
      exact absurd hd (by decide)
    | cons e a =>
      obtain ⟨rfl, -⟩ := List.cons.inj ha
      rw [show tok ++ ']' :: a = (tok ++ [']']) ++ a by simp] at h
      exact hafter a run post (h.of_append (by simp))
  · -- in the list
    obtain ⟨a, rfl, rfl⟩ : ∃ a, b = run ++ a ∧ post = a ++ ']' :: after := by
      rcases List.append_eq_append_iff.1 hb with ⟨a, hba, hpost⟩ | ⟨b', hrunb, hclose⟩
      · exact ⟨a, hba, hpost⟩
      · cases b' with
        | nil => exact ⟨[], by simpa using hrunb.symm, by simpa using hclose.symm⟩
        | cons e b' =>
          obtain ⟨rfl, -⟩ := List.cons.inj hclose
          exact absurd (h.digits ']' (by rw [hrunb]; simp)) (by decide)
    refine htok pre run a ⟨rfl, h.ne_nil, h.digits, h.left, fun c hc => h.right c ?_, h.name⟩
    cases a with
    | nil => cases hc
    | cons e a => simpa using hc

theorem digitPiece_append_succ (ds run : List Char) (hlen : ds.length = bufferDigits) (k : ℕ) :
    digitPiece (ds ++ run) (k + 1) = digitPiece run k := by
  rw [digitPiece, digitPiece, Nat.mul_succ, Nat.add_comm, ← hlen, List.drop_append, List.drop_eq_nil_of_le (by omega)]
  simp

/-- The digits that are read at once, and what is behind them. -/
theorem good_piece (h : Piece s ds rest) (hrest : Good rest) : Good s := by
  intro pre run post hnum
  have heq : ds ++ rest = pre ++ (run ++ post) := h.eq.symm.trans hnum.eq
  rcases List.append_eq_append_iff.1 heq with ⟨a, rfl, ha⟩ | ⟨b, rfl, hb⟩
  · -- behind these digits
    exact hrest a run post (hnum.of_append h.eq)
  · cases pre with
    | cons e pre =>
      have hlast : (e :: pre).getLast (by simp) ∈ e :: pre := List.getLast_mem _
      have hdigit := h.digits _ (List.mem_append_left b hlast)
      rw [hnum.left _ (List.getLast?_eq_some_getLast (by simp))] at hdigit
      cases hdigit
    | nil =>
      -- the number begins with these digits
      obtain ⟨a, rfl, ha⟩ : ∃ a, run = b ++ a ∧ rest = a ++ post := by
        rcases List.append_eq_append_iff.1 hb with ⟨a, hba, hpost⟩ | ⟨a, hrun, hrest'⟩
        · cases a with
          | nil => exact ⟨[], by simpa using hba.symm, by simpa using hpost.symm⟩
          | cons e a =>
            have hdigit := h.digits e (by rw [List.nil_append, hba]; simp)
            rw [hnum.right e (by rw [hpost]; rfl)] at hdigit
            cases hdigit
        · exact ⟨a, hrun, hrest'⟩
      have hrange : InRange b := h.inRange
      have hle : b.length ≤ bufferDigits := h.length_le
      have hends := h.ends
      cases a with
      | nil =>
        -- and ends with them
        rw [List.append_nil]
        intro k hk
        obtain rfl : k = 0 := by
          simp only [bufferDigits] at hk hle
          omega
        rwa [digitPiece, Nat.mul_zero, List.drop_zero, List.take_of_length_le hle]
      | cons e a =>
        have hdigit : e.isDigit = true := hnum.digits e (by simp)
        have hlen : b.length = bufferDigits := by
          refine hends.resolve_right fun hall => ?_
          have := isDigit_of_endsNumber (hall e (by rw [ha]; rfl))
          simp [hdigit] at this
        have hfits : Fits (e :: a) :=
          hrest [] (e :: a) post ⟨ha, by simp, fun c hc => hnum.digits c (by simp [hc]), by simp, hnum.right, hnum.name⟩
        intro k hk
        cases k with
        | zero => rwa [digitPiece, Nat.mul_zero, List.drop_zero, ← hlen, List.take_left]
        | succ k =>
          rw [digitPiece_append_succ b _ hlen]
          refine hfits k ?_
          rw [List.length_append, Nat.mul_succ] at hk
          omega

/-- A variable and what is behind it. -/
theorem good_var (hg : ∀ c ∈ g, isGap c = true ∨ c = '$') (hname : ∀ c ∈ name, isNameChar c = true)
    (hrest : Good rest) : Good ('$' :: (g ++ (name ++ rest))) := by
  intro pre run post h
  obtain ⟨d, run', hrun, hd⟩ := h.head
  cases pre with
  | nil =>
    have heq := h.eq
    rw [hrun] at heq
    obtain ⟨rfl, -⟩ := List.cons.inj heq
    exact absurd hd (by decide)
  | cons e pre =>
    obtain ⟨rfl, heq⟩ := List.cons.inj h.eq
    rw [← List.append_assoc] at heq
    rcases List.append_eq_append_iff.1 heq with ⟨a, rfl, -⟩ | ⟨b, hb, -⟩
    · refine hrest a run post (IsNumber.of_append (a := '$' :: (g ++ name)) h (by simp))
    · -- in the name
      refine absurd ?_ h.name
      rcases List.append_eq_append_iff.1 hb with ⟨a, rfl, ha⟩ | ⟨b', hgpre, -⟩
      · exact ⟨[], g, a, rfl, hg, fun c hc => hname c (by rw [ha]; simp [hc])⟩
      · exact ⟨[], pre, [], by simp, fun c hc => hg c (by rw [hgpre]; simp [hc]), by simp⟩

/-- The numbers of a text that is read fit. -/
theorem Reads.good (hvars : NamesFit portVarTableFind) (h : Reads portVarTableFind neg s items) : Good s := by
  induction h with
  | done => exact good_nil
  | gap hc _ ih =>
    refine good_cons ?_ ih
    by_contra hdigit
    simp [isGap_of_isDigit (by simpa using hdigit)] at hc
  | bang _ ih => exact good_cons rfl ih
  | var hvar _ ih =>
    obtain ⟨g, name, rfl, hg, hname, -⟩ := poParseVar_eq hvars hvar
    exact good_var hg hname ih
  | list _ _ _ _ ihtok ih => exact good_cons rfl (good_list ihtok ih)
  | port _ hport _ ih =>
    cases hport with
    | port h _ => exact good_piece h ih
    | «open» h _ => exact good_piece h (good_cons rfl ih)
    | range h _ h' _ => exact good_piece h (good_cons rfl (good_piece h' ih))

/-! ### Refusal -/

/-- What is accepted was read. -/
theorem reads_of_ok {pname : Option (List Char)} {po : PortObject}
    (h : portObjectParseString portVarTableFind pname s false = .ok po) :
    ∃ items, Reads portVarTableFind false s items := by
  unfold portObjectParseString at h
  simp only [Bool.false_eq_true, if_false] at h
  split at h
  · cases h
  · rename_i hparse
    exact ⟨_, (poParseString_iff.1 hparse).1⟩

/-- **Refusal**: a text with an unmatched bracket, a list behind a list, or a number that does not fit. -/
theorem refuses_of_bad (hvars : NamesFit portVarTableFind) {pname : Option (List Char)}
    (hbad : ¬Balanced '[' ']' s ∨ ¬Nested s ∨ ¬Good s) :
    ∃ e, portObjectParseString portVarTableFind pname s false = .error e := by
  cases h : portObjectParseString portVarTableFind pname s false with
  | error e => exact ⟨e, rfl⟩
  | ok po =>
    obtain ⟨items, hreads⟩ := reads_of_ok h
    rcases hbad with hbad | hbad | hbad
    · exact absurd (hreads.balanced hvars) hbad
    · exact absurd (hreads.nested hvars) hbad
    · exact absurd (hreads.good hvars) hbad

end Snort.Ports
