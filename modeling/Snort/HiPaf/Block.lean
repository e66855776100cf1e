import Snort.HiPaf.Fields

/-!
# Header blocks

* `RequestLine`, `StatusLine`: the first lines of a message; `feed_requestLine` and `feed_statusLine`
  say what the table makes of them.
* `unfoldLines`: the lines of a header block with their continuations.
* `HeaderBlock`: a start line, header lines and the empty line.
* **`run_headerBlock`**: a scan up to the end of a header block.
-/

namespace Snort.HiPaf

open Scanner

/-! ### Tokens -/

/-- A word without blanks. -/
def Token (t : List Byte) : Prop := t ≠ [] ∧ ∀ c ∈ t, ¬ isBlank c = true

/-- What stands between two tokens. -/
def Blanks (t : List Byte) : Prop := t ≠ [] ∧ ∀ c ∈ t, isBlank c = true

instance (t : List Byte) : Decidable (Token t) := inferInstanceAs (Decidable (_ ∧ _))

instance (t : List Byte) : Decidable (Blanks t) := inferInstanceAs (Decidable (_ ∧ _))

/-- A row that stays on blanks and passes to another on anything else. -/
structure BlankRow (i j : ℕ) : Prop where
  lt : i < hiFsm.length
  event : (row i).event = lws
  matched : (row i).matched = i
  action : (row i).action = .nop
  other : (row i).other = j

theorem feed_blankRow {i j : ℕ} (h : BlankRow i j) (s : HiState) (sp : List Byte)
    (hsp : ∀ c ∈ sp, isBlank c = true) (l : List Byte) :
    feed (s.at i) (sp ++ l) = feed (s.at i) l := by
  induction sp with
  | nil => rfl
  | cons c sp ih =>
    have hrow := h.event.trans ((fold_eq_lws c).2 (hsp c List.mem_cons_self)).symm
    rw [List.cons_append, feed_nop _ (Or.inr hrow) h.matched h.action]
    exact ih fun c' hc' => hsp c' (List.mem_cons_of_mem _ hc')

theorem feed_blankRow_other {i j : ℕ} (h : BlankRow i j) (s : HiState) {c : Byte}
    (hc : ¬ isBlank c = true) (l : List Byte) : feed (s.at i) (c :: l) = feed (s.at j) (c :: l) :=
  feed_other l h.lt (h.event ▸ (by decide)) (h.event ▸ fun h' => hc ((fold_eq_lws c).1 h'.symm))
    h.other

/-- A row that leaves a token at a blank, behind a row that takes any byte of it. -/
structure TokenRow (i j k : ℕ) : Prop where
  lt : i < hiFsm.length
  event : (row i).event = lws
  matched : (row i).matched = k
  action : (row i).action = .nop
  other : (row i).other = j
  anyEvent : (row j).event = any
  anyMatched : (row j).matched = i
  anyAction : (row j).action = .nop

/-- The rest of a token and the blank behind it. -/
theorem feed_tokenRow {i j k : ℕ} (h : TokenRow i j k) (s : HiState) (t : List Byte)
    (ht : ∀ c ∈ t, ¬ isBlank c = true) {b : Byte} (hb : isBlank b = true) (l : List Byte) :
    feed (s.at i) (t ++ b :: l) = feed (s.at k) l := by
  induction t with
  | nil => exact feed_nop l (Or.inr (h.event.trans ((fold_eq_lws b).2 hb).symm)) h.matched h.action
  | cons c t ih =>
    have hc := ht c List.mem_cons_self
    have hne : (row i).event ≠ fold c := h.event ▸ fun h' => hc ((fold_eq_lws c).1 h'.symm)
    rw [List.cons_append, feed_other _ h.lt (h.event ▸ (by decide)) hne h.other,
      feed_nop _ (Or.inl h.anyEvent) h.anyMatched h.anyAction]
    exact ih fun c' hc' => ht c' (List.mem_cons_of_mem _ hc')

/-- The rest of a line that does not matter. -/
theorem feed_rest (s : HiState) (l : List Byte) (hl : eol ∉ l) :
    feed (s.at z9) l = s.at z9 := by
  induction l with
  | nil => rfl
  | cons c l ih =>
    have hne := List.ne_of_not_mem_cons hl
    have hrow : (row z9).event ≠ fold c := fun h => fold_ne_eol c hne.symm h.symm
    rw [feed_other _ (by decide) (by decide) hrow (show _ = z9 + 1 by decide),
      feed_nop _ (Or.inl (by decide)) (show _ = z9 by decide) (by decide)]
    exact ih (List.not_mem_of_not_mem_cons hl)

/-! ### The request line -/

/-- A request line of at least three tokens; what follows the second one may be anything. -/
def RequestLine (method l : List Byte) : Prop :=
  Token method ∧ ∃ sp uri sp' c version, l = method ++ sp ++ uri ++ sp' ++ c :: version ∧ Blanks sp ∧
    Token uri ∧ Blanks sp' ∧ ¬ isBlank c = true

/-- Rows that match a method; any other byte leads to the rows for the rest of a token. -/
def Method (a : Action) : ℕ → List Byte → Prop
  | z, [] => z < hiFsm.length ∧ (row z).event = lws ∧ (row z).matched = z1 + 12 ∧
      (row z).action = a ∧ (row z).other = z1 + 10
  | z, x :: w => z < hiFsm.length ∧ (row z).event = x ∧ x ≠ any ∧ x ≠ lws ∧
      (row z).matched = z + 1 ∧ (row z).action = .nop ∧ (row z).other = z1 + 10 ∧ Method a (z + 1) w

instance decidableMethod (a : Action) : ∀ z w, Decidable (Method a z w)
  | z, [] =>
    inferInstanceAs (Decidable (z < hiFsm.length ∧ (row z).event = lws ∧ (row z).matched = z1 + 12 ∧
      (row z).action = a ∧ (row z).other = z1 + 10))
  | z, x :: w =>
    have := decidableMethod a (z + 1) w
    inferInstanceAs (Decidable (z < hiFsm.length ∧ (row z).event = x ∧ x ≠ any ∧ x ≠ lws ∧
      (row z).matched = z + 1 ∧ (row z).action = .nop ∧ (row z).other = z1 + 10 ∧
        Method a (z + 1) w))

theorem methodRow : TokenRow (z1 + 10) (z1 + 11) (z1 + 12) :=
  ⟨by decide, by decide, by decide, by decide, by decide, by decide, by decide, by decide⟩

theorem feed_method {a : Action} {w : List Byte} : ∀ {z : ℕ} (s : HiState) (m : List Byte),
    Method a z w → (∀ c ∈ m, ¬ isBlank c = true) → ∀ {b : Byte}, isBlank b = true → ∀ l : List Byte,
      feed (s.at z) (m ++ b :: l) =
        feed (if m.map fold = w then (hiExec (s.at (z1 + 12)) a (fold b)).2 else s.at (z1 + 12)) l := by
  induction w with
  | nil =>
    intro z s m hw hm b hb l
    obtain ⟨hz, hevent, hmatched, haction, hother⟩ := hw
    cases m with
    | nil =>
      rw [List.nil_append, feed_match l (Or.inr (hevent.trans ((fold_eq_lws b).2 hb).symm)) hmatched,
        haction]
      rfl
    | cons c m =>
      have hc := hm c List.mem_cons_self
      have hne : (row z).event ≠ fold c := hevent ▸ fun h => hc ((fold_eq_lws c).1 h.symm)
      rw [List.cons_append, feed_other _ hz (hevent ▸ (by decide)) hne hother,
        List.map_cons, if_neg (List.cons_ne_nil _ _)]
      exact feed_tokenRow methodRow s (c :: m) hm hb l
  | cons x w ih =>
    intro z s m hw hm b hb l
    obtain ⟨hz, hevent, hany, hlws, hmatched, haction, hother, hw⟩ := hw
    cases m with
    | nil =>
      have hne : (row z).event ≠ fold b := by
        rw [hevent, (fold_eq_lws b).2 hb]
        exact hlws
      rw [List.nil_append, feed_other _ hz (hevent ▸ hany) hne hother, List.map_nil,
        if_neg (List.cons_ne_nil _ _).symm]
      exact feed_tokenRow methodRow s [] (fun _ h => nomatch h) hb l
    | cons c m =>
      have hm' : ∀ c' ∈ m, ¬ isBlank c' = true := fun c' hc' => hm c' (List.mem_cons_of_mem _ hc')
      by_cases hc : fold c = x
      · rw [List.cons_append, feed_nop _ (Or.inr (hevent.trans hc.symm)) hmatched haction,
          ih s m hw hm' hb l, List.map_cons, hc]
        simp only [List.cons.injEq, true_and]
      · rw [List.cons_append, feed_other _ hz (hevent ▸ hany) (hevent ▸ Ne.symm hc) hother,
          List.map_cons, if_neg fun h => hc (List.cons.inj h).1]
        exact feed_tokenRow methodRow s (c :: m) hm hb l

/-- What the method does to the state. -/
def HiState.withMethod (s : HiState) (m : List Byte) : HiState :=
  if m.map fold = "HEAD".toList.map chr then { s with flags := { s.flags with nob := true } }
  else if m.map fold = "POST".toList.map chr then { s with flags := { s.flags with pst := true } }
  else s

theorem withMethod_other (s : HiState) {m : List Byte} (hH : m.map fold ≠ "HEAD".toList.map chr)
    (hP : m.map fold ≠ "POST".toList.map chr) : s.withMethod m = s := by
  rw [HiState.withMethod, if_neg hH, if_neg hP]

theorem feed_methods (s : HiState) {m : List Byte} (hm : Token m) {b : Byte}
    (hb : isBlank b = true) (l : List Byte) :
    feed (s.at z1) (m ++ b :: l) = feed ((s.withMethod m).at (z1 + 12)) l := by
  have hhead : Method .nob (z1 + 1) ("EAD".toList.map chr) := by decide
  have hpost : Method .pst (z1 + 6) ("OST".toList.map chr) := by decide
  obtain ⟨hne, hm⟩ := hm
  cases m with
  | nil => exact absurd rfl hne
  | cons c m =>
    have hm' : ∀ c' ∈ m, ¬ isBlank c' = true := fun c' hc' => hm c' (List.mem_cons_of_mem _ hc')
    have hother : ∀ {x : Byte} {w : List Byte}, ¬ (fold c = x ∧ m.map fold = w) →
        (c :: m).map fold ≠ x :: w := fun h h' => h (List.cons.inj h')
    rw [List.cons_append]
    by_cases hH : fold c = chr 'H'
    · have hrow : (row z1).event = fold c := (show _ = chr 'H' by decide).trans hH.symm
      rw [feed_nop _ (Or.inr hrow) (show _ = z1 + 1 by decide) (by decide),
        feed_method s m hhead hm' hb l]
      by_cases hw : m.map fold = "EAD".toList.map chr
      · have hmap : (c :: m).map fold = "HEAD".toList.map chr := by
          rw [List.map_cons, hH, hw]
          rfl
        rw [if_pos hw, HiState.withMethod, if_pos hmap]
        rfl
      · rw [if_neg hw, withMethod_other s (hother fun h => hw h.2)
          (hother fun h => absurd (hH.symm.trans h.1) (by decide))]
    · rw [feed_other _ (by decide) (by decide) (show _ ≠ _ from fun h => hH h.symm)
        (show _ = z1 + 5 by decide)]
      by_cases hP : fold c = chr 'P'
      · have hrow : (row (z1 + 5)).event = fold c := (show _ = chr 'P' by decide).trans hP.symm
        rw [feed_nop _ (Or.inr hrow) (show _ = z1 + 6 by decide) (by decide),
          feed_method s m hpost hm' hb l]
        by_cases hw : m.map fold = "OST".toList.map chr
        · have hmap : (c :: m).map fold = "POST".toList.map chr := by
            rw [List.map_cons, hP, hw]
            rfl
          have hnot : (c :: m).map fold ≠ "HEAD".toList.map chr := hother fun h => hH h.1
          rw [if_pos hw, HiState.withMethod, if_neg hnot, if_pos hmap]
          rfl
        · rw [if_neg hw, withMethod_other s (hother fun h => hH h.1) (hother fun h => hw h.2)]
      · rw [feed_other _ (by decide) (by decide) (show _ ≠ _ from fun h => hP h.symm)
          (show _ = z1 + 10 by decide),
          withMethod_other s (hother fun h => hH h.1) (hother fun h => hP h.1)]
        exact feed_tokenRow methodRow s (c :: m) hm hb l

/-- The rest of the second token; a line feed in it would end a request of version 0.9. -/
theorem feed_uri (s : HiState) (t : List Byte) (ht : ∀ c ∈ t, ¬ isBlank c = true) (heol : eol ∉ t)
    {b : Byte} (hb : isBlank b = true) (l : List Byte) :
    feed (s.at (z1 + 13)) (t ++ b :: l) = feed (s.at (z1 + 16)) l := by
  have hother : ∀ {c : Byte} (l' : List Byte), c ≠ eol →
      feed (s.at (z1 + 13)) (c :: l') = feed (s.at (z1 + 14)) (c :: l') := fun {c} l' hc =>
    feed_other l' (by decide) (by decide) (fun h => fold_ne_eol c hc h.symm) (by decide)
  induction t with
  | nil =>
    have hne : b ≠ eol := fun h => absurd (h ▸ hb) (by decide)
    have hrow : (row (z1 + 14)).event = fold b :=
      (show _ = lws by decide).trans ((fold_eq_lws b).2 hb).symm
    rw [List.nil_append, hother l hne]
    exact feed_nop l (Or.inr hrow) (by decide) (by decide)
  | cons c t ih =>
    have hc := ht c List.mem_cons_self
    have hne : (row (z1 + 14)).event ≠ fold c := fun h => hc ((fold_eq_lws c).1 h.symm)
    rw [List.cons_append, hother _ (List.ne_of_not_mem_cons heol).symm,
      feed_other _ (by decide) (by decide) hne (show _ = z1 + 15 by decide),
      feed_nop _ (Or.inl (by decide)) (show _ = z1 + 13 by decide) (by decide)]
    exact ih (fun c' hc' => ht c' (List.mem_cons_of_mem _ hc')) (List.not_mem_of_not_mem_cons heol)

/-- **A request line.** -/
theorem feed_requestLine (s : HiState) {method l : List Byte} (hl : RequestLine method l)
    (heol : eol ∉ l) : feed (s.at z1) l = (s.withMethod method).at z9 := by
  have hrow12 : BlankRow (z1 + 12) (z1 + 13) := ⟨by decide, by decide, by decide, by decide, by decide⟩
  have hrow16 : BlankRow (z1 + 16) (z1 + 17) := ⟨by decide, by decide, by decide, by decide, by decide⟩
  obtain ⟨hm, sp, uri, sp', c, version, rfl, ⟨hsp, hblank⟩, ⟨huri, htoken⟩, ⟨hsp', hblank'⟩, hc⟩ := hl
  obtain ⟨b, sp, rfl⟩ := List.exists_cons_of_ne_nil hsp
  obtain ⟨b', sp', rfl⟩ := List.exists_cons_of_ne_nil hsp'
  obtain ⟨u, uri, rfl⟩ := List.exists_cons_of_ne_nil huri
  have heol' : eol ∉ u :: uri ∧ eol ∉ c :: version := by
    refine ⟨fun h => heol ?_, fun h => heol ?_⟩ <;> simp only [List.mem_append, h, true_or, or_true]
  have huri' := feed_uri (s.withMethod method) (u :: uri) htoken heol'.1
    (hblank' b' List.mem_cons_self) (sp' ++ c :: version)
  simp only [List.append_assoc, List.cons_append] at huri' ⊢
  rw [feed_methods s hm (hblank b List.mem_cons_self),
    feed_blankRow hrow12 _ sp fun c' hc' => hblank c' (List.mem_cons_of_mem _ hc'),
    feed_blankRow_other hrow12 _ (htoken u List.mem_cons_self), huri',
    feed_blankRow hrow16 _ sp' fun c' hc' => hblank' c' (List.mem_cons_of_mem _ hc'),
    feed_blankRow_other hrow16 _ hc]
  have hne := List.ne_of_not_mem_cons heol'.2
  have hrow : (row (z1 + 17)).event ≠ fold c := fun h => fold_ne_eol c hne.symm h.symm
  rw [feed_other _ (by decide) (by decide) hrow (show _ = z9 by decide)]
  exact feed_rest _ _ heol'.2

/-! ### The status line -/

/-- A status line: what follows the blank behind the code may be anything. -/
def StatusLine (version code l : List Byte) : Prop :=
  (Token version ∧ (stripWord ("HTTP/".toList.map chr) version).isSome = true) ∧
    (code.length = 3 ∧ ∀ c ∈ code, isdigit c = true) ∧
    ∃ sp b reason, l = version ++ sp ++ code ++ b :: reason ∧ Blanks sp ∧ isBlank b = true

/-- The codes of responses without a body: 1xx, 204 and 304. -/
def noBodyCode (code : List Byte) : Bool :=
  code.head? = some (chr '1') ∨ code = "204".toList.map chr ∨ code = "304".toList.map chr

/-- The responses that the table takes to have no body. -/
def noBody (version code : List Byte) : Bool :=
  (version.map fold = "HTTP/1.0".toList.map chr ∨ version.map fold = "HTTP/1.1".toList.map chr) ∧
    noBodyCode code = true

/-- What a status line does to the state. -/
def HiState.withStatus (s : HiState) (v10 v11 nob : Bool) : HiState :=
  { s with flags := { s.flags with v10 := v10, v11 := v11, nob := s.flags.nob || nob } }

theorem withStatus_self (s : HiState) : s.withStatus s.flags.v10 s.flags.v11 false = s := by
  unfold HiState.withStatus
  rw [Bool.or_false]

theorem stripWord_eq_some {w l rest : List Byte} :
    stripWord w l = some rest ↔ ∃ p, l = p ++ rest ∧ p.map fold = w := by
  induction w generalizing l with
  | nil =>
    constructor
    · rintro ⟨⟩
      exact ⟨[], rfl, rfl⟩
    · rintro ⟨p, rfl, hp⟩
      rw [List.map_eq_nil_iff.1 hp]
      rfl
  | cons x w ih =>
    cases l with
    | nil =>
      constructor
      · rintro ⟨⟩
      · rintro ⟨p, hl, hp⟩
        rw [(List.append_eq_nil_iff.1 hl.symm).1] at hp
        cases hp
    | cons c l =>
      rw [stripWord]
      constructor
      · intro h
        split_ifs at h with hc
        obtain ⟨p, rfl, hp⟩ := ih.1 h
        exact ⟨c :: p, rfl, by rw [List.map_cons, hc, hp]⟩
      · rintro ⟨p, hl, hp⟩
        cases p with
        | nil => cases hp
        | cons c' p =>
          obtain ⟨rfl, htail⟩ := List.cons.inj hl
          obtain ⟨hc, hmap⟩ := List.cons.inj hp
          rw [if_pos hc]
          exact ih.2 ⟨p, htail, hmap⟩

/-- A token that does not go on with the word. -/
theorem feed_word_token {w : List Byte} : ∀ {z : ℕ} {t : List Byte} (s : HiState), Word z w →
    lws ∉ w → (∀ c ∈ t, ¬ isBlank c = true) → stripWord w t = none → ∀ {b : Byte},
      isBlank b = true → ∀ l : List Byte, eol ∉ t ++ b :: l → feed (s.at z) (t ++ b :: l) = s.at z9 := by
  induction w with
  | nil =>
    intro z t s _ _ _ h
    cases h
  | cons x w ih =>
    intro z t s hw hlws ht h b hb l heol
    obtain ⟨hz, hevent, hany, -, hmatched, haction, hother, hw⟩ := hw
    cases t with
    | nil =>
      have hne : (row z).event ≠ fold b := by
        rw [hevent, (fold_eq_lws b).2 hb]
        exact (List.ne_of_not_mem_cons hlws).symm
      rw [List.nil_append, feed_other _ hz (hevent ▸ hany) hne hother]
      exact feed_rest s _ heol
    | cons c t =>
      rw [stripWord] at h
      split_ifs at h with hc
      · rw [List.cons_append, feed_nop _ (Or.inr (hevent.trans hc.symm)) hmatched haction]
        exact ih s hw (List.not_mem_of_not_mem_cons hlws)
          (fun c' hc' => ht c' (List.mem_cons_of_mem _ hc')) h hb l (List.not_mem_of_not_mem_cons heol)
      · rw [List.cons_append, feed_other _ hz (hevent ▸ hany) (hevent ▸ Ne.symm hc) hother]
        exact feed_rest s _ heol

/-- What is left of a status line behind the digits that count. -/
theorem feed_codeRest {s : HiState} (hrsp : s.flags.rsp = true) (t : List Byte)
    (ht : ∀ c ∈ t, isdigit c = true) {b : Byte} (hb : isBlank b = true) (reason : List Byte)
    (heol : eol ∉ reason) : feed (s.at (z0 + 17)) (t ++ b :: reason) = s.at z9 := by
  induction t with
  | nil =>
    have hrow : (row (z0 + 17)).event = fold b :=
      (show _ = lws by decide).trans ((fold_eq_lws b).2 hb).symm
    have hrsp' : (hiExec (s.at z9) .rsp (fold b)).2 = s.at z9 := by
      show ({ s with flags := { s.flags with rsp := true } } : HiState).at z9 = _
      rw [← hrsp]
    rw [List.nil_append, feed_match _ (Or.inr hrow) (show _ = z9 by decide)]
    exact (congrArg (feed · reason) hrsp').trans (feed_rest s reason heol)
  | cons c t ih =>
    have hblank : ∀ c, isdigit c = true → (row (z0 + 17)).event ≠ fold c := by decide +kernel
    rw [List.cons_append, feed_other _ (by decide) (by decide)
      (hblank c (ht c List.mem_cons_self)) (show _ = z0 + 16 by decide),
      feed_nop _ (Or.inl (by decide)) (show _ = z0 + 17 by decide) (by decide)]
    exact ih fun c' hc' => ht c' (List.mem_cons_of_mem _ hc')

/-- `ACT_NOB`. -/
def HiState.noBody (s : HiState) : HiState := { s with flags := { s.flags with nob := true } }

theorem feed_code {s : HiState} (hrsp : s.flags.rsp = true) {code : List Byte}
    (hlen : code.length = 3) (hcode : ∀ c ∈ code, isdigit c = true) {b : Byte}
    (hb : isBlank b = true) (reason : List Byte) (heol : eol ∉ reason) :
    feed (s.at (z0 + 11)) (code ++ b :: reason) =
      (if noBodyCode code = true then s.noBody else s).at z9 := by
  obtain ⟨d, e, f, rfl⟩ := List.length_eq_three.1 hlen
  simp only [List.mem_cons, List.not_mem_nil, or_false, forall_eq_or_imp, forall_eq] at hcode
  have hfold : ∀ c, isdigit c = true → fold c = c := by decide +kernel
  obtain ⟨hd, he, hf⟩ := hcode
  have hskip : ∀ {t : HiState} {c : Byte} (l : List Byte),
      feed (t.at (z0 + 16)) (c :: l) = feed (t.at (z0 + 17)) l := fun l =>
    feed_nop l (Or.inl (by decide)) (by decide) (by decide)
  have hrest : ∀ {t : HiState} (l : List Byte), t.flags.rsp = true →
      (∀ c ∈ l, isdigit c = true) → feed (t.at (z0 + 17)) (l ++ b :: reason) = t.at z9 :=
    fun l ht hl => feed_codeRest ht l hl hb reason heol
  have hef : ∀ c ∈ [e, f], isdigit c = true := by simp [he, hf]
  have hf' : ∀ c ∈ [f], isdigit c = true := by simp [hf]
  simp only [List.cons_append, List.nil_append]
  have heq : ∀ {i : ℕ} {c x : Byte}, isdigit c = true → c = x → (row i).event = x →
      (row i).event = fold c := fun hc h hrow => by rw [hrow, hfold _ hc, h]
  have hne : ∀ {i : ℕ} {c x : Byte}, isdigit c = true → c ≠ x → (row i).event = x →
      (row i).event ≠ fold c := fun hc h hrow h' => h (by rw [← hfold _ hc, ← h', hrow])
  by_cases h1 : d = chr '1'
  · have hno : noBodyCode [d, e, f] = true := decide_eq_true (Or.inl (congrArg some h1))
    rw [feed_match _ (Or.inr (heq hd h1 (by decide))) (show _ = z0 + 16 by decide), if_pos hno]
    show feed (s.noBody.at (z0 + 16)) _ = _
    rw [hskip]
    exact hrest [f] hrsp hf'
  · have hno : noBodyCode [d, e, f] = true ↔ (d = chr '2' ∨ d = chr '3') ∧ e = chr '0' ∧ f = chr '4' := by
      simp only [noBodyCode, decide_eq_true_eq, List.head?_cons, Option.some.injEq, h1, false_or]
      show [d, e, f] = [chr '2', chr '0', chr '4'] ∨ [d, e, f] = [chr '3', chr '0', chr '4'] ↔ _
      simp only [List.cons.injEq, and_true, or_and_right]
    rw [feed_other _ (by decide) (by decide) (hne hd h1 (by decide)) (show _ = z0 + 12 by decide)]
    by_cases h23 : d = chr '2' ∨ d = chr '3'
    · have hto14 : feed (s.at (z0 + 12)) (d :: e :: f :: b :: reason) =
          feed (s.at (z0 + 14)) (e :: f :: b :: reason) := by
        by_cases h2 : d = chr '2'
        · exact feed_nop _ (Or.inr (heq hd h2 (by decide))) (by decide) (by decide)
        · rw [feed_other _ (by decide) (by decide) (hne hd h2 (by decide))
            (show _ = z0 + 13 by decide)]
          exact feed_nop _ (Or.inr (heq hd (h23.resolve_left h2) (by decide))) (by decide) (by decide)
      rw [hto14]
      by_cases h0 : e = chr '0'
      · rw [feed_nop _ (Or.inr (heq he h0 (by decide))) (show _ = z0 + 15 by decide) (by decide)]
        by_cases h4 : f = chr '4'
        · rw [feed_match _ (Or.inr (heq hf h4 (by decide))) (show _ = z0 + 17 by decide),
            if_pos (hno.2 ⟨h23, h0, h4⟩)]
          exact hrest (t := s.noBody) [] hrsp (fun _ h => nomatch h)
        · rw [feed_other _ (by decide) (by decide) (hne hf h4 (by decide))
            (show _ = z0 + 16 by decide), hskip, if_neg fun h => h4 (hno.1 h).2.2]
          exact hrest [] hrsp (fun _ h => nomatch h)
      · rw [feed_other _ (by decide) (by decide) (hne he h0 (by decide))
          (show _ = z0 + 16 by decide), hskip, if_neg fun h => h0 (hno.1 h).2.1]
        exact hrest [f] hrsp hf'
    · rw [feed_other _ (by decide) (by decide) (hne hd (fun h => h23 (Or.inl h)) (by decide))
        (show _ = z0 + 13 by decide),
        feed_other _ (by decide) (by decide) (hne hd (fun h => h23 (Or.inr h)) (by decide))
        (show _ = z0 + 16 by decide), hskip, if_neg fun h => h23 (hno.1 h).1]
      exact hrest [e, f] hrsp hef

/-- What stands behind the version of a status line. -/
theorem feed_minor {s : HiState} (hrsp : s.flags.rsp = true) {r sp code reason : List Byte} {b : Byte}
    (hr : ∀ c ∈ r, ¬ isBlank c = true) (hsp : Blanks sp) (hlen : code.length = 3)
    (hcode : ∀ c ∈ code, isdigit c = true) (hb : isBlank b = true)
    (heol : eol ∉ r ++ (sp ++ (code ++ b :: reason))) :
    feed (s.at (z0 + 9)) (r ++ (sp ++ (code ++ b :: reason))) =
      (if r = [] ∧ noBodyCode code = true then s.noBody else s).at z9 := by
  have hrow10 : BlankRow (z0 + 10) (z0 + 11) := ⟨by decide, by decide, by decide, by decide, by decide⟩
  have hdigit : ∀ c, isdigit c = true → ¬ isBlank c = true := by decide +kernel
  cases r with
  | nil =>
    obtain ⟨b', sp, rfl⟩ := List.exists_cons_of_ne_nil hsp.1
    obtain ⟨d, code', rfl⟩ := List.exists_cons_of_length_pos (show 0 < code.length by omega)
    have hrow : (row (z0 + 9)).event = fold b' :=
      (show _ = lws by decide).trans ((fold_eq_lws b').2 (hsp.2 b' List.mem_cons_self)).symm
    simp only [List.nil_append, List.cons_append, List.mem_cons, List.mem_append, not_or,
      true_and] at heol ⊢
    rw [feed_nop _ (Or.inr hrow) (show _ = z0 + 10 by decide) (by decide),
      feed_blankRow hrow10 _ sp fun c hc => hsp.2 c (List.mem_cons_of_mem _ hc),
      feed_blankRow_other hrow10 _ (hdigit d (hcode d List.mem_cons_self))]
    exact feed_code hrsp hlen hcode hb reason heol.2.2.2.2.2
  | cons c r =>
    have hne : (row (z0 + 9)).event ≠ fold c := fun h =>
      hr c List.mem_cons_self ((fold_eq_lws c).1 h.symm)
    rw [if_neg fun h => List.cons_ne_nil _ _ h.1, List.cons_append,
      feed_other _ (by decide) (by decide) hne (show _ = z9 by decide)]
    exact feed_rest s _ heol

theorem ite_noBody (s : HiState) {p : Prop} [Decidable p] {n : Bool} (h : n = true ↔ p) :
    (if p then s.noBody else s) = s.withStatus s.flags.v10 s.flags.v11 n := by
  by_cases hp : p
  · rw [if_pos hp, h.2 hp]
    unfold HiState.noBody HiState.withStatus
    rw [Bool.or_true]
  · have hn : n = false := Bool.eq_false_of_not_eq_true fun hn => hp (h.1 hn)
    rw [if_neg hp, hn, withStatus_self]

theorem map_fold_ne {w l : List Byte} (h : stripWord w l = none) (v : List Byte) :
    l.map fold ≠ w ++ v := by
  intro hmap
  obtain ⟨p, rest, rfl, hp, -⟩ := List.map_eq_append_iff.1 hmap
  rw [stripWord_eq_some.2 ⟨p, rfl, hp⟩] at h
  cases h

theorem map_fold_iff {w l rest : List Byte} (h : stripWord w l = some rest) (v : List Byte) :
    l.map fold = w ++ v ↔ rest.map fold = v := by
  obtain ⟨p, rfl, rfl⟩ := stripWord_eq_some.1 h
  rw [List.map_append, List.append_cancel_left_eq]

/-- What stands behind `HTTP/1.` in a status line. -/
theorem feed_minors {s : HiState} (hrsp : s.flags.rsp = true) {m sp code reason : List Byte}
    {b : Byte} (hm : ∀ c ∈ m, ¬ isBlank c = true) (hsp : Blanks sp) (hlen : code.length = 3)
    (hcode : ∀ c ∈ code, isdigit c = true) (hb : isBlank b = true)
    (heol : eol ∉ m ++ (sp ++ (code ++ b :: reason))) {n : Bool}
    (hn : n = true ↔ (m.map fold = [chr '0'] ∨ m.map fold = [chr '1']) ∧ noBodyCode code = true) :
    ∃ v10 v11, feed (s.at (z0 + 7)) (m ++ (sp ++ (code ++ b :: reason))) =
      (s.withStatus v10 v11 n).at z9 := by
  have hother : ∀ {c : Byte} (l : List Byte), fold c ≠ chr '0' → fold c ≠ chr '1' →
      feed (s.at (z0 + 7)) (c :: l) = feed (s.at z9) (c :: l) := by
    intro c l h0 h1
    have hne : (row (z0 + 7)).event ≠ fold c := h0.symm
    rw [feed_other _ (by decide) (by decide) hne (show _ = z0 + 8 by decide)]
    exact feed_other _ (by decide) (by decide) h1.symm (by decide)
  cases m with
  | nil =>
    obtain ⟨b', sp, rfl⟩ := List.exists_cons_of_ne_nil hsp.1
    have hb' := (fold_eq_lws b').2 (hsp.2 b' List.mem_cons_self)
    have hfalse : n = false := Bool.eq_false_of_not_eq_true fun h =>
      (hn.1 h).1.elim (fun h' => nomatch h') fun h' => nomatch h'
    refine ⟨s.flags.v10, s.flags.v11, ?_⟩
    rw [hfalse, withStatus_self, List.nil_append, List.cons_append,
      hother _ (hb' ▸ by decide) (hb' ▸ by decide)]
    exact feed_rest s _ heol
  | cons c m =>
    have hmtoken : ∀ c' ∈ m, ¬ isBlank c' = true := fun c' hc' => hm c' (List.mem_cons_of_mem _ hc')
    have heol' := List.not_mem_of_not_mem_cons heol
    have hcons : ∀ x, (c :: m).map fold = [x] ↔ fold c = x ∧ m = [] := fun x => by
      rw [List.map_cons, List.cons.injEq, List.map_eq_nil_iff]
    rw [hcons, hcons] at hn
    rw [List.cons_append]
    by_cases h0 : fold c = chr '0'
    · have hn0 : n = true ↔ m = [] ∧ noBodyCode code = true := by
        simpa [h0, show chr '0' ≠ chr '1' by decide] using hn
      refine ⟨true, s.flags.v11, ?_⟩
      rw [feed_match _ (Or.inr (h0 ▸ by decide)) (show _ = z0 + 9 by decide)]
      have hminor := feed_minor (s := { s with flags := { s.flags with v10 := true } }) hrsp hmtoken
        hsp hlen hcode hb heol'
      rw [ite_noBody _ hn0] at hminor
      exact hminor
    · by_cases h1 : fold c = chr '1'
      · have hn1 : n = true ↔ m = [] ∧ noBodyCode code = true := by
          simpa [h1, show chr '1' ≠ chr '0' by decide] using hn
        refine ⟨s.flags.v10, true, ?_⟩
        rw [feed_other _ (by decide) (by decide) (show _ ≠ _ from fun h => h0 h.symm)
          (show _ = z0 + 8 by decide),
          feed_match _ (Or.inr (h1 ▸ by decide)) (show _ = z0 + 9 by decide)]
        have hminor := feed_minor (s := { s with flags := { s.flags with v11 := true } }) hrsp hmtoken
          hsp hlen hcode hb heol'
        rw [ite_noBody _ hn1] at hminor
        exact hminor
      · have hfalse : n = false := Bool.eq_false_of_not_eq_true fun h =>
          (hn.1 h).1.elim (fun h' => h0 h'.1) fun h' => h1 h'.1
        refine ⟨s.flags.v10, s.flags.v11, ?_⟩
        rw [hfalse, withStatus_self, hother _ h0 h1]
        exact feed_rest s _ heol

/-- **A status line.** -/
theorem feed_statusLine {s : HiState} (hrsp : s.flags.rsp = true) {version code l : List Byte}
    (hl : StatusLine version code l) (heol : eol ∉ l) :
    ∃ v10 v11, feed (s.at z0) l = (s.withStatus v10 v11 (noBody version code)).at z9 := by
  obtain ⟨⟨⟨-, htoken⟩, hhttp⟩, ⟨hlen, hcode⟩, sp, b, reason, rfl, hsp, hb⟩ := hl
  obtain ⟨r, hr⟩ := Option.isSome_iff_exists.1 hhttp
  obtain ⟨p, rfl, hp⟩ := stripWord_eq_some.1 hr
  cases p with
  | nil => cases hp
  | cons h p =>
    obtain ⟨hh, hp⟩ := List.cons.inj hp
    have hrtoken : ∀ c ∈ r, ¬ isBlank c = true := fun c hc =>
      htoken c (List.mem_append_right _ hc)
    simp only [List.append_assoc] at heol ⊢
    have heol' : eol ∉ r ++ (sp ++ (code ++ b :: reason)) := fun h =>
      heol (List.mem_append_right _ h)
    have htail : feed (s.at z0) (h :: p ++ (r ++ (sp ++ (code ++ b :: reason)))) =
        feed (s.at (z0 + 5)) (r ++ (sp ++ (code ++ b :: reason))) := by
      have hword : Word (z0 + 1) ("TTP/".toList.map chr) := by decide
      have hrow : (row z0).event = fold h := (show _ = chr 'H' by decide).trans hh.symm
      rw [List.cons_append, feed_nop _ (Or.inr hrow) (show _ = z0 + 1 by decide) (by decide)]
      exact feed_word s hword (stripWord_eq_some.2 ⟨p, rfl, hp⟩)
    rw [htail]
    have hmap : noBody (h :: p ++ r) code = true ↔
        (r.map fold = "1.0".toList.map chr ∨ r.map fold = "1.1".toList.map chr) ∧
          noBodyCode code = true := by
      rw [noBody, decide_eq_true_eq]
      exact and_congr_left fun _ => or_congr (map_fold_iff hr ("1.0".toList.map chr))
        (map_fold_iff hr ("1.1".toList.map chr))
    have hword : Word (z0 + 5) ("1.".toList.map chr) := by decide
    cases hstrip : stripWord ("1.".toList.map chr) r with
    | none =>
      obtain ⟨b', sp, rfl⟩ := List.exists_cons_of_ne_nil hsp.1
      have hfalse : noBody (h :: p ++ r) code = false := Bool.eq_false_of_not_eq_true fun hn =>
        (hmap.1 hn).1.elim (map_fold_ne hstrip ("0".toList.map chr))
          (map_fold_ne hstrip ("1".toList.map chr))
      refine ⟨s.flags.v10, s.flags.v11, ?_⟩
      rw [hfalse, withStatus_self]
      exact feed_word_token s hword (by decide) hrtoken hstrip (hsp.2 b' List.mem_cons_self) _ heol'
    | some m =>
      rw [feed_word s hword (stripWord_append_right _ hstrip)]
      obtain ⟨q, rfl, hq⟩ := stripWord_eq_some.1 hstrip
      have hmtoken : ∀ c ∈ m, ¬ isBlank c = true := fun c hc =>
        hrtoken c (List.mem_append_right _ hc)
      rw [List.append_assoc, List.mem_append, not_or] at heol'
      exact feed_minors hrsp hmtoken hsp hlen hcode hb heol'.2 (hmap.trans (and_congr_left fun _ =>
        or_congr (map_fold_iff hstrip [chr '0']) (map_fold_iff hstrip [chr '1'])))

/-! ### Lines and their continuations -/

/-- Lines with their continuations; `cur` is the line so far. -/
def unfoldLines : List Byte → List (List Byte) → List (List Byte)
  | cur, [] => [cur]
  | cur, l :: lines =>
    if l.head?.any isBlank then unfoldLines (cur ++ l) lines else cur :: unfoldLines l lines

theorem joinLines_unfoldLines (cur : List Byte) (lines : List (List Byte)) :
    joinLines (unfoldLines cur lines) = cur ++ lines.flatMap piece ++ [eol] := by
  induction lines generalizing cur with
  | nil =>
    rw [List.flatMap_nil, List.append_nil]
    exact List.append_nil _
  | cons l lines ih =>
    rw [unfoldLines, List.flatMap_cons, piece]
    split_ifs
    · rw [ih, List.append_assoc cur]
    · rw [joinLines, List.flatMap_cons]
      show cur ++ [eol] ++ joinLines (unfoldLines l lines) = _
      rw [ih]
      simp only [List.append_assoc, List.cons_append, List.nil_append]

theorem not_mem_unfoldLines {x : Byte} {cur : List Byte} {lines : List (List Byte)} (hcur : x ∉ cur)
    (hlines : ∀ l ∈ lines, x ∉ l) : ∀ l ∈ unfoldLines cur lines, x ∉ l := by
  induction lines generalizing cur with
  | nil =>
    intro l hl
    rw [List.mem_singleton.1 hl]
    exact hcur
  | cons l lines ih =>
    have hl := hlines l List.mem_cons_self
    have hrest : ∀ l' ∈ lines, x ∉ l' := fun l' hl' => hlines l' (List.mem_cons_of_mem _ hl')
    rw [unfoldLines]
    split_ifs
    · exact ih (fun h => (List.mem_append.1 h).elim hcur hl) hrest
    · intro l' hl'
      rcases List.mem_cons.1 hl' with rfl | hl'
      · exact hcur
      · exact ih hl hrest l' hl'

/-- The fields of a header block, one after the other. -/
theorem feed_fields (s : HiState) (ls : List (List Byte)) (hls : ∀ l ∈ ls, eol ∉ l) :
    feed (s.at z2) (joinLines ls) = (ls.foldl applyField s).at z2 := by
  induction ls generalizing s with
  | nil => rfl
  | cons l ls ih =>
    rw [joinLines, List.flatMap_cons, feed_append, feed_field s l (hls l List.mem_cons_self)]
    exact ih (applyField s l) fun l' hl' => hls l' (List.mem_cons_of_mem _ hl')

/-! ### Header blocks -/

/-- A start line, header lines and the empty line behind them. -/
structure HeaderBlock where
  start : List Byte
  lines : List (List Byte)
  blank : List Byte
  start_eol : eol ∉ start
  lines_text : ∀ l ∈ lines, eol ∉ l ∧ strip l ≠ []
  blank_cr : ∀ c ∈ blank, c = cr

theorem mem_singleton_cr : ∀ c ∈ [cr], c = cr := fun _ => List.eq_of_mem_singleton

namespace HeaderBlock

variable (h : HeaderBlock)

/-- A header block on the wire. -/
def bytes : List Byte := joinLines (h.start :: h.lines ++ [h.blank])

/-- The header lines, unfolded. -/
def fields : List (List Byte) := unfoldLines [] (h.lines.map strip)

theorem not_mem_strip {l : List Byte} {x : Byte} (hl : x ∉ l) : x ∉ strip l := fun hx =>
  hl (List.mem_of_mem_filter hx)

theorem fields_eol : ∀ l ∈ h.fields, eol ∉ l := by
  refine not_mem_unfoldLines List.not_mem_nil fun l hl => ?_
  obtain ⟨l', hl', rfl⟩ := List.mem_map.1 hl
  exact not_mem_strip (h.lines_text l' hl').1

theorem bytes_eq : h.bytes = h.start ++ [eol] ++ (joinLines h.lines ++ (h.blank ++ [eol])) := by
  simp only [bytes, joinLines, List.cons_append, List.flatMap_cons, List.flatMap_append,
    List.flatMap_nil, List.append_nil]

end HeaderBlock

/-- The end of a header block. -/
def endOfBlock (s : HiState) : HiState ⊕ PafStatus × HiState × BitVec 32 :=
  let (paf, t) := hiEoh s
  if paf = .search then .inl { t with msg := 0 } else .inr (paf, { t with msg := 0 }, t.len)

theorem scanByte_endOfBlock {s : HiState} (hmsg : s.msg = 1) :
    scanByte s eol = endOfBlock (feed s [eol]) := by
  have hswitch : scanSwitch s eol =
      ((hiEoh (feed s [eol])).1, { (hiEoh (feed s [eol])).2 with msg := 0 }) := by
    rw [scanSwitch, hmsg]
    rfl
  unfold endOfBlock
  by_cases hpaf : (hiEoh (feed s [eol])).1 = .search
  · rw [hpaf] at hswitch
    rw [scanByte_of_switch (by decide) hswitch]
    exact (if_pos hpaf).symm
  · rw [scanByte_of_switch_stop (by decide) hswitch hpaf]
    exact (if_neg hpaf).symm

/-- **A scan of a header block.** -/
theorem run_headerBlock (h : HeaderBlock) {s u : HiState} (hmsg : s.msg = 0) (hs : Header s.fsm)
    (heol : s.flags.eol = false) (hnof : s.flags.nof = false)
    (hstart : feed s (strip h.start) = u.at z9) (hv09 : u.flags.v09 = false) :
    run scanByte s h.bytes =
      ((endOfBlock ((h.fields.foldl applyField { u.sawEol with msg := 1 }).at z2)).elim
        (Outcome.more ·) fun r => .stop r 1).shift (h.bytes.length - 1) := by
  obtain ⟨-, hkept, -⟩ := feed_header (strip h.start) hs
  rw [hstart] at hkept
  have hline := run_start h.start hmsg hs heol h.start_eol
  rw [hstart] at hline
  have hscan : (hiScanFsm (u.at z9).sawEol eol).2 = u.sawEol.at z2 := feed_z9 u.sawEol [] List.not_mem_nil
  rw [hscan] at hline
  have hz2 : Header z2 := by decide
  have hlines := run_lines (s := HiState.at { u.sawEol with msg := 1 } z2) h.lines rfl hz2 rfl
    (hkept.nof.trans hnof) h.lines_text
  obtain ⟨-, hkept', -⟩ := feed_header (s := HiState.at { u.sawEol with msg := 1 } z2)
    (h.lines.flatMap fun l => piece (strip l)) hz2
  have hfields : feed (feed (HiState.at { u.sawEol with msg := 1 } z2)
      (h.lines.flatMap fun l => piece (strip l))) [eol] =
      (h.fields.foldl applyField { u.sawEol with msg := 1 }).at z2 := by
    rw [← feed_fields _ _ h.fields_eol, HeaderBlock.fields, joinLines_unfoldLines, List.nil_append,
      feed_append, List.flatMap_map]
  have hblank := run_blank (s := feed (HiState.at { u.sawEol with msg := 1 } z2)
    (h.lines.flatMap fun l => piece (strip l))) h.blank h.blank_cr
  rw [scanByte_endOfBlock hkept'.msg, hfields] at hblank
  rw [h.bytes_eq, run_append_more _ (hline hv09)]
  show (run scanByte (HiState.at { u.sawEol with msg := 1 } z2) _).shift _ = _
  rw [run_append_more _ hlines, hblank, Outcome.shift_shift, Outcome.shift_shift]
  congr 1
  simp only [List.length_append, List.length_singleton]
  omega

end Snort.HiPaf
