import Snort.Email.Calls

/-!
# Quoted-printable text over packets

* `stripped`, `qpText`: what `sf_strip_LWS` and `sf_qpdecode` do on a text as a whole;
* **`qpText_append`**: decoding goes on behind any cut, from the bytes that were left;
* `Inserted`: blanks put back in front of line ends, and **`Inserted.count_le`**: each of them shows up
  in the decoded text;
* **`qpDecode_eq`**: one call;
* **`qp_cut_iff`**: the decoded text is that of the whole stream exactly when no packet boundary parts
  blanks from the line end behind them.
-/

namespace Snort.Email

open Buffer

/-! ### Stripping a text as a whole -/

/-- The end of a line, for `sf_strip_LWS`. -/
def isLineEnd (c : Byte) : Bool := c = chr '\n' ∨ c = chr '\r'

/-- A text without the blanks in front of line ends. -/
def stripped : List Byte → List Byte
  | [] => []
  | c :: cs => if isBlank c ∧ (stripped cs).head?.any isLineEnd then stripped cs else c :: stripped cs

theorem not_isBlank_of_isLineEnd {c : Byte} (h : isLineEnd c) : ¬isBlank c := by
  simp only [isLineEnd, isBlank, decide_eq_true_eq] at h ⊢
  rcases h with rfl | rfl <;> decide

theorem stripped_cons_of_not {c : Byte} (h : ¬isBlank c) (cs : List Byte) :
    stripped (c :: cs) = c :: stripped cs := by
  rw [stripped, if_neg (fun h' => h h'.1)]

/-- Blanks stay where no line end follows. -/
theorem stripped_blanks_append {bl : List Byte} (hbl : ∀ b ∈ bl, isBlank b) {cs : List Byte}
    (h : ¬(stripped cs).head?.any isLineEnd) : stripped (bl ++ cs) = bl ++ stripped cs := by
  induction bl with
  | nil => rfl
  | cons b bl ih =>
    have hbl' : ∀ b ∈ bl, isBlank b := fun x hx => hbl x (List.mem_cons_of_mem _ hx)
    have hhead : ¬(bl ++ stripped cs).head?.any isLineEnd := by
      cases bl with
      | nil => exact h
      | cons b' bl =>
        intro h'
        exact not_isBlank_of_isLineEnd h' (hbl' b' List.mem_cons_self)
    rw [List.cons_append, stripped, ih hbl', if_neg (fun h' => hhead h'.2), List.cons_append]

/-- Blanks go where a line end follows. -/
theorem stripped_blanks_lineEnd {bl : List Byte} (hbl : ∀ b ∈ bl, isBlank b) {cs : List Byte}
    (h : (stripped cs).head?.any isLineEnd) : stripped (bl ++ cs) = stripped cs := by
  induction bl with
  | nil => rfl
  | cons b bl ih =>
    have ih' := ih (fun x hx => hbl x (List.mem_cons_of_mem _ hx))
    rw [List.cons_append, stripped, ih', if_pos ⟨hbl b List.mem_cons_self, h⟩]

/-- The loop of `sf_strip_LWS`, with room for everything: `bl` are the blanks at the end of the output. -/
theorem stripLoop_eq {n : ℕ} {cs bl out : List Byte} {lws : Bool} (hbl : ∀ b ∈ bl, isBlank b)
    (hout : ¬out.head?.any isBlank) (hlws : lws = false → bl = [])
    (h : (bl ++ out).length + cs.length ≤ n) :
    (stripLoop n cs lws (bl ++ out)).reverse = out.reverse ++ stripped (bl.reverse ++ cs) := by
  induction cs generalizing bl out lws with
  | nil =>
    have hrev : ∀ b ∈ bl.reverse, isBlank b := fun b hb => hbl b (List.mem_reverse.1 hb)
    have hs : stripped (bl.reverse ++ []) = bl.reverse := by
      rw [stripped_blanks_append hrev (by simp [stripped]), stripped, List.append_nil]
    rw [stripLoop, hs, List.reverse_append]
  | cons c cs ih =>
    have hrev : ∀ b ∈ bl.reverse, isBlank b := fun b hb => hbl b (List.mem_reverse.1 hb)
    have hn : ¬n ≤ (bl ++ out).length := by
      rw [List.length_cons] at h
      omega
    have hdrop : (if lws then (bl ++ out).dropWhile isBlank else bl ++ out) = out := by
      have hout' : out.dropWhile isBlank = out := by
        cases out with
        | nil => rfl
        | cons b out => exact List.dropWhile_cons_of_neg hout
      cases lws with
      | false => rw [hlws rfl]; rfl
      | true => rw [if_pos rfl, List.dropWhile_append_of_pos hbl, hout']
    rw [stripLoop, if_neg hn]
    by_cases hline : isLineEnd c
    · -- the blanks go, and the line end is the last byte of the output
      have hc : ¬(c ≠ chr '\n' ∧ c ≠ chr '\r') := by
        rw [isLineEnd, decide_eq_true_eq] at hline
        tauto
      have hcs : stripped (c :: cs) = c :: stripped cs :=
        stripped_cons_of_not (not_isBlank_of_isLineEnd hline) cs
      have hlen : ([] ++ (c :: out)).length + cs.length ≤ n := by
        simp only [List.length_append, List.length_cons, List.nil_append] at h ⊢
        omega
      have h1 := @ih [] (c :: out) false (by simp) (not_isBlank_of_isLineEnd hline) (fun _ => rfl) hlen
      rw [if_neg hc, hdrop]
      rw [List.nil_append, List.reverse_nil, List.nil_append, List.reverse_cons] at h1
      rw [h1, stripped_blanks_lineEnd hrev (by rw [hcs]; exact hline), hcs, List.append_assoc]
      rfl
    · have hc : c ≠ chr '\n' ∧ c ≠ chr '\r' := by
        rw [isLineEnd, decide_eq_true_eq] at hline
        tauto
      rw [if_pos hc]
      by_cases hb : isBlank c
      · -- one more blank at the end
        have hlen : ((c :: bl) ++ out).length + cs.length ≤ n := by
          simp only [List.length_append, List.length_cons] at h ⊢
          omega
        have h1 := @ih (c :: bl) out (isBlank c)
          (fun b hb' => (List.mem_cons.1 hb').elim (fun e => e ▸ hb) (hbl b)) hout
          (fun h' => absurd hb (by rw [h']; decide)) hlen
        rw [List.cons_append] at h1
        rw [h1, List.reverse_cons, List.append_assoc]
        rfl
      · have hcs : stripped (c :: cs) = c :: stripped cs := stripped_cons_of_not hb cs
        have hlen : ([] ++ (c :: (bl ++ out))).length + cs.length ≤ n := by
          simp only [List.length_append, List.length_cons, List.nil_append] at h ⊢
          omega
        have h1 := @ih [] (c :: (bl ++ out)) (isBlank c) (by simp) hb (fun _ => rfl) hlen
        rw [List.nil_append, List.reverse_nil, List.nil_append, List.reverse_cons,
          List.reverse_append] at h1
        have hhead : ¬(stripped (c :: cs)).head?.any isLineEnd := by
          rw [hcs]
          exact hline
        rw [h1, stripped_blanks_append hrev hhead, hcs]
        simp only [List.append_assoc, List.cons_append, List.nil_append]

/-- `sf_strip_LWS`, with room for everything. -/
theorem sfStripLWS_eq {s : List Byte} {n : ℕ} (h : s.length ≤ n) : sfStripLWS s n = stripped s := by
  have h1 := @stripLoop_eq n s [] [] false (by simp) (by simp) (fun _ => rfl) (by simpa using h)
  exact h1

/-! ### Decoding a text as a whole -/

/-- What `sf_qpdecode` makes of a text, with what it leaves undecoded at the end. -/
def qpText : List Byte → List Byte
  | [] => []
  | ch :: src =>
    if ch = chr '=' then
      match src with
      | [] => [ch]
      | ch1 :: src1 =>
        if ch1 = chr '\n' then qpText src1
        else
          match src1 with
          | [] => [ch, ch1]
          | ch2 :: src2 =>
            if ch1 = chr '\r' ∧ ch2 = chr '\n' then qpText src2
            else
              match xdigit ch1, xdigit ch2 with
              | some h1, some h2 => BitVec.ofNat 8 (16 * h1 + h2) :: qpText src2
              | _, _ => ch :: qpText (ch1 :: ch2 :: src2)
    else ch :: qpText src

alias qpText_unfold := qpText.eq_def

/-- The induction on the runs of the loop. -/
alias qpLoop_induct := qpLoop.induct_unfolding

theorem qpText_of_ne {ch : Byte} (h : ch ≠ chr '=') (src : List Byte) :
    qpText (ch :: src) = ch :: qpText src := by
  rw [qpText_unfold]
  simp [h]

theorem qpText_lf (src : List Byte) : qpText (chr '=' :: chr '\n' :: src) = qpText src := by
  rw [qpText_unfold]
  simp

theorem qpText_crlf (src : List Byte) :
    qpText (chr '=' :: chr '\r' :: chr '\n' :: src) = qpText src := by
  rw [qpText_unfold]
  simp [show chr '\r' ≠ chr '\n' by decide]

theorem qpText_hex {ch1 ch2 : Byte} {h1 h2 : ℕ} (e1 : xdigit ch1 = some h1) (e2 : xdigit ch2 = some h2)
    (src : List Byte) :
    qpText (chr '=' :: ch1 :: ch2 :: src) = BitVec.ofNat 8 (16 * h1 + h2) :: qpText src := by
  have hlf : ch1 ≠ chr '\n' := by rintro rfl; cases e1
  have hcr : ch1 ≠ chr '\r' := by rintro rfl; cases e1
  rw [qpText_unfold]
  simp [hlf, hcr, e1, e2]

/-- An `=` that starts no escape. -/
theorem qpText_literal {ch1 ch2 : Byte} (hlf : ch1 ≠ chr '\n')
    (hcrlf : ¬(ch1 = chr '\r' ∧ ch2 = chr '\n'))
    (hx : ∀ h1 h2 : ℕ, xdigit ch1 = some h1 → xdigit ch2 = some h2 → False) (src : List Byte) :
    qpText (chr '=' :: ch1 :: ch2 :: src) = chr '=' :: qpText (ch1 :: ch2 :: src) := by
  rw [qpText_unfold]
  simp only [hlf, hcrlf, if_true, if_false]

/-- **Decoding goes on behind any cut**, from the bytes that are left undecoded. -/
theorem qpText_append {n : ℕ} (x y dst : List Byte) (h : dst.length + x.length ≤ n) :
    dst ++ qpText (x ++ y) = (qpLoop n x dst).1 ++ qpText ((qpLoop n x dst).2 ++ y) := by
  fun_induction qpLoop n x dst with
  | case1 => rfl
  | case2 ch src dst hn => exact absurd h (by grind)
  | case3 => rfl
  | case4 dst hn src2 ih =>
    rw [List.cons_append, List.cons_append, qpText_lf]
    exact ih (by grind)
  | case5 => rfl
  | case6 dst hn ch1 hlf ch2 src2 hcrlf ih =>
    rw [hcrlf.1, hcrlf.2, List.cons_append, List.cons_append, List.cons_append, qpText_crlf]
    exact ih (by grind)
  | case7 dst hn ch1 hlf ch2 src2 hcrlf h1 h2 e2 e1 ih =>
    rw [List.cons_append, List.cons_append, List.cons_append, qpText_hex e1 e2, List.append_cons]
    exact ih (by grind)
  | case8 dst hn ch1 hlf ch2 src2 hcrlf hx ih =>
    rw [List.cons_append, List.cons_append, List.cons_append, qpText_literal hlf hcrlf hx,
      List.append_cons]
    exact ih (by grind)
  | case9 ch src dst hn hne ih =>
    rw [List.cons_append, qpText_of_ne hne, List.append_cons]
    exact ih (by grind)

/-- What is left undecoded is no more than two bytes. -/
theorem length_qpLoop_rest {n : ℕ} (x dst : List Byte) (h : dst.length + x.length ≤ n) :
    (qpLoop n x dst).2.length ≤ 2 ∧ (qpLoop n x dst).1.length ≤ dst.length + x.length := by
  fun_induction qpLoop n x dst <;> grind

theorem qpText_qpLoop_rest {n : ℕ} (x dst : List Byte) (h : dst.length + x.length ≤ n) :
    qpText (qpLoop n x dst).2 = (qpLoop n x dst).2 := by
  fun_induction qpLoop n x dst with
  | case1 => rfl
  | case2 ch src dst hn => exact absurd h (by grind)
  | case3 => rfl
  | case4 dst hn src2 ih => exact ih (by grind)
  | case5 dst hn ch1 hlf => simp [qpText, hlf]
  | case6 dst hn ch1 hlf ch2 src2 hcrlf ih => exact ih (by grind)
  | case7 dst hn ch1 hlf ch2 src2 hcrlf h1 h2 e2 e1 ih => exact ih (by grind)
  | case8 dst hn ch1 hlf ch2 src2 hcrlf hx ih => exact ih (by grind)
  | case9 ch src dst hn hne ih => exact ih (by grind)

theorem length_le_qpLoop (n : ℕ) (x dst : List Byte) : dst.length ≤ (qpLoop n x dst).1.length := by
  fun_induction qpLoop n x dst <;> grind

/-- As much room as there is text is as good as any that is not used up. -/
theorem qpLoop_room {n m : ℕ} (x dst : List Byte) (h : dst.length + x.length ≤ n)
    (hm : (qpLoop n x dst).1.length < m) : qpLoop m x dst = qpLoop n x dst := by
  fun_induction qpLoop n x dst with
  | case1 => rfl
  | case2 ch src dst hn => exact absurd h (by grind)
  | case3 dst hn => simp [qpLoop, Nat.not_le.2 hm]
  | case4 dst hn src2 ih =>
    have hle := length_le_qpLoop n src2 dst
    rw [← ih (by grind) hm, qpLoop.eq_def]
    simp [show ¬m ≤ dst.length by omega]
  | case5 dst hn ch1 hlf => simp [qpLoop, Nat.not_le.2 hm, hlf]
  | case6 dst hn ch1 hlf ch2 src2 hcrlf ih =>
    have hle := length_le_qpLoop n src2 dst
    rw [← ih (by grind) hm, qpLoop.eq_def]
    simp [show ¬m ≤ dst.length by omega, hcrlf, show chr '\r' ≠ chr '\n' by decide]
  | case7 dst hn ch1 hlf ch2 src2 hcrlf h1 h2 e2 e1 ih =>
    have hle := length_le_qpLoop n src2 (dst ++ [BitVec.ofNat 8 (16 * h1 + h2)])
    rw [List.length_append] at hle
    rw [← ih (by grind) hm, qpLoop.eq_def]
    simp [show ¬m ≤ dst.length by omega, hlf, hcrlf, e1, e2]
  | case8 dst hn ch1 hlf ch2 src2 hcrlf hx ih =>
    have hle := length_le_qpLoop n (ch1 :: ch2 :: src2) (dst ++ [chr '='])
    rw [List.length_append] at hle
    rw [← ih (by grind) hm, qpLoop.eq_def]
    simp only [show ¬m ≤ dst.length by omega, hlf, hcrlf, if_true, if_false]
  | case9 ch src dst hn hne ih =>
    have hle := length_le_qpLoop n src (dst ++ [ch])
    rw [List.length_append] at hle
    rw [← ih (by grind) hm, qpLoop.eq_def]
    simp [show ¬m ≤ dst.length by omega, hne]

/-! ### A call -/

theorem qpLoop_suffix (n : ℕ) (x dst : List Byte) : (qpLoop n x dst).2 <:+ x := by
  fun_induction qpLoop n x dst with
  | case1 => exact List.suffix_rfl
  | case2 => exact List.suffix_rfl
  | case3 => exact List.suffix_rfl
  | case4 dst hn src2 ih => exact ih.trans ⟨[_, _], rfl⟩
  | case5 => exact List.suffix_rfl
  | case6 dst hn ch1 hlf ch2 src2 hcrlf ih => exact ih.trans ⟨[_, _, _], rfl⟩
  | case7 dst hn ch1 hlf ch2 src2 hcrlf h1 h2 e2 e1 ih => exact ih.trans ⟨[_, _, _], rfl⟩
  | case8 dst hn ch1 hlf ch2 src2 hcrlf hx ih => exact ih.trans ⟨[_], rfl⟩
  | case9 ch src dst hn hne ih => exact ih.trans ⟨[_], rfl⟩

/-- What the loop does with a text when there is room for it. -/
def qpOut (s : List Byte) : List Byte × List Byte := qpLoop s.length s []

theorem qpOut_fst_append_snd (s y : List Byte) :
    qpText (s ++ y) = (qpOut s).1 ++ qpText ((qpOut s).2 ++ y) :=
  qpText_append s y [] (by simp)

theorem length_qpOut_snd (s : List Byte) : (qpOut s).2.length ≤ 2 :=
  (length_qpLoop_rest s [] (by simp)).1

theorem length_qpOut_fst (s : List Byte) : (qpOut s).1.length ≤ s.length := by
  have h : (qpOut s).1.length ≤ [].length + s.length :=
    (length_qpLoop_rest s ([] : List Byte) (by simp)).2
  simpa using h

/-- What is left undecoded stands for itself. -/
theorem qpText_qpOut_snd (s : List Byte) : qpText (qpOut s).2 = (qpOut s).2 :=
  qpText_qpLoop_rest s [] (by simp)

/-- Neither depth is exhausted by a call: there is none, or the packet is copied as a whole and its
text does not reach the decode depth. -/
def QpRoom (p : List Byte) (ds : EmailDecodeState) : Prop :=
  ds.qpState.encodeDepth = 0 ∨
    0 < ds.qpState.encodeDepth ∧
    (carry ds).length < ds.qpState.encodeAvail ∧
    sfStripLWS p (ds.qpState.encodeAvail - (carry ds).length) = sfStripLWS p p.length ∧
    (qpOut (carry ds ++ sfStripLWS p p.length)).1.length < ds.qpState.decodeAvail

theorem length_stripped_le (s : List Byte) : (stripped s).length ≤ s.length := by
  fun_induction stripped s <;> grind

theorem stripped_ne_nil {s : List Byte} (h : s ≠ []) : stripped s ≠ [] := by
  fun_induction stripped s with
  | case1 => exact h
  | case2 c cs hc ih =>
    apply ih
    rintro rfl
    exact absurd hc.2 (by simp [stripped])
  | case3 c cs hc => exact List.cons_ne_nil _ _

instance (p : List Byte) (ds : EmailDecodeState) : Decidable (QpRoom p ds) :=
  inferInstanceAs (Decidable (_ ∨ _))

/-- **One call.** -/
theorem qpDecode_eq {p : List Byte} {ds : EmailDecodeState} (hp : Packet p) (hplaced : Placed ds)
    (hcarry : (carry ds).length ≤ 2) (hroom : QpRoom p ds) :
    ∃ ds' : EmailDecodeState, qpDecode p ds = (true, ds') ∧ Placed ds' ∧
      ds'.decoded = (qpOut (carry ds ++ stripped p)).1 ∧
      carry ds' = (qpOut (carry ds ++ stripped p)).2 := by
  obtain ⟨hne, hlen⟩ := hp
  have hstrip : sfStripLWS p p.length = stripped p := sfStripLWS_eq le_rfl
  have hdepth : ¬ds.qpState.encodeDepth < 0 ∧ (carry ds).length < ds.qpState.encodeAvail ∧
      sfStripLWS p (ds.qpState.encodeAvail - (carry ds).length) = stripped p ∧
      (qpOut (carry ds ++ stripped p)).1.length < ds.qpState.decodeAvail := by
    rw [← hstrip]
    rcases hroom with h0 | ⟨hpos, h1, h2, h3⟩
    · have hout := length_qpOut_fst (carry ds ++ stripped p)
      have hle := length_stripped_le p
      rw [DecodeState.encodeAvail, DecodeState.decodeAvail, if_pos h0, if_pos h0, hstrip]
      rw [List.length_append] at hout
      unfold maxBuf at hlen ⊢
      exact ⟨by omega, by omega, sfStripLWS_eq (by omega), by omega⟩
    · exact ⟨by omega, h1, h2, h3⟩
  obtain ⟨hneg, havail, hcopy, hdec⟩ := hdepth
  obtain ⟨buf, hload, hbuf⟩ := loadPrev_eq hplaced havail.le
  have hbuf' := hbuf (stripped p)
  have hs : (carry ds ++ stripped p).length ≠ 0 := by
    rw [List.length_append]
    have := List.length_pos_of_ne_nil (stripped_ne_nil hne)
    omega
  have hsize : (stripped p).length + (carry ds).length = (carry ds ++ stripped p).length := by
    rw [List.length_append, Nat.add_comm]
  have hloop : qpLoop ds.qpState.decodeAvail (carry ds ++ stripped p) [] =
      qpOut (carry ds ++ stripped p) := qpLoop_room _ _ (by simp) hdec
  have hsuff : (qpOut (carry ds ++ stripped p)).2 <:+ carry ds ++ stripped p := qpLoop_suffix _ _ _
  unfold qpDecode
  rw [if_neg hneg, if_neg (by omega)]
  simp only [hload, hcopy, hbuf', sfQpdecode, hloop, hs, false_or]
  rw [if_neg (by omega : ¬ds.qpState.decodeAvail = 0)]
  obtain ⟨u, hu⟩ := hsuff
  generalize qpOut (carry ds ++ stripped p) = r at hu ⊢
  simp only
  rw [if_neg (by omega)]
  have hread : (carry ds ++ stripped p).length - r.2.length = u.length := by
    rw [← hu, List.length_append]
    omega
  rw [hread, hsize]
  refine ⟨_, rfl, ?_⟩
  have hbuf'' : readBuf (write buf (carry ds).length (stripped p)) 0
      (carry ds ++ stripped p).length = u ++ r.2 := by rw [← hsize, hbuf', hu]
  obtain ⟨h1, h2⟩ :=
    @carry_of_read ⟨_, _, _, _, _, _, _, _, _, _, _⟩ _ _ _ _ _ hbuf'' rfl rfl rfl
  exact ⟨h1, rfl, h2⟩

/-! ### Blanks in front of a line end -/

/-- `t` is `s` with `n` blanks put in front of line ends. -/
inductive Inserted : ℕ → List Byte → List Byte → Prop
  | nil : Inserted 0 [] []
  | cons {n : ℕ} {s t : List Byte} (c : Byte) (h : Inserted n s t) : Inserted n (c :: s) (c :: t)
  | blank {n : ℕ} {s t : List Byte} {b c : Byte} (hb : isBlank b) (hc : isLineEnd c)
      (h : Inserted n (c :: s) t) : Inserted (n + 1) (c :: s) (b :: t)

theorem Inserted.refl (s : List Byte) : Inserted 0 s s := by
  induction s with
  | nil => exact .nil
  | cons c s ih => exact .cons c ih

theorem Inserted.append {n : ℕ} {s t : List Byte} (h : Inserted n s t) (u : List Byte) :
    Inserted n (u ++ s) (u ++ t) := by
  induction u with
  | nil => exact h
  | cons c u ih => exact .cons c ih

theorem Inserted.eq_of_zero {s t : List Byte} (h : Inserted 0 s t) : s = t := by
  generalize hn : 0 = n at h
  induction h with
  | nil => rfl
  | cons c h ih => rw [ih hn]
  | blank hb hc h ih => cases hn

/-- A line end that stands first with blanks put in stands first without them. -/
theorem Inserted.head_lineEnd {n : ℕ} {s t u : List Byte} (h : Inserted n s (t ++ u))
    (ht : t.head?.any isLineEnd) : s.head?.any isLineEnd := by
  generalize hv : t ++ u = v at h
  have hhead : v.head?.any isLineEnd := by
    rw [← hv]
    cases t with
    | nil => cases ht
    | cons b t => exact ht
  cases h with
  | nil => exact hhead
  | cons c h => exact hhead
  | blank hb hc h => exact absurd hb (not_isBlank_of_isLineEnd hhead)

/-- A line end that stands first only without the blanks has one put in front of it. -/
theorem Inserted.pos_of_head {n : ℕ} {s t u : List Byte} (h : Inserted n s (t ++ u)) (hne : t ≠ [])
    (ht : ¬t.head?.any isLineEnd) (hs : s.head?.any isLineEnd) : 0 < n := by
  generalize hv : t ++ u = v at h
  have hhead : ¬v.head?.any isLineEnd := by
    rw [← hv]
    cases t with
    | nil => exact absurd rfl hne
    | cons b t => exact ht
  cases h with
  | nil => cases hs
  | cons c h => exact absurd hs hhead
  | blank hb hc h => exact Nat.succ_pos _

/-- The number of blanks in a text. -/
def blanks (s : List Byte) : ℕ := s.countP isBlank

theorem blanks_cons (c : Byte) (s : List Byte) : blanks (c :: s) = blanks s + if isBlank c then 1 else 0 :=
  List.countP_cons

/-- What stands first in a text with blanks put in. -/
theorem Inserted.cases_cons {n : ℕ} {c : Byte} {s t : List Byte} (h : Inserted n (c :: s) t) :
    (∃ t' : List Byte, t = c :: t' ∧ Inserted n s t') ∨
    ∃ (m : ℕ) (b : Byte) (t' : List Byte), n = m + 1 ∧ t = b :: t' ∧ isBlank b ∧ isLineEnd c ∧
      Inserted m (c :: s) t' := by
  cases h with
  | cons c h => exact .inl ⟨_, rfl, h⟩
  | blank hb hc h => exact .inr ⟨_, _, _, rfl, rfl, hb, hc, h⟩

theorem xdigit_of_isBlank {b : Byte} (h : isBlank b) : xdigit b = none := by
  simp only [isBlank, decide_eq_true_eq] at h
  rcases h with rfl | rfl <;> rfl

theorem xdigit_of_isLineEnd {c : Byte} (h : isLineEnd c) : xdigit c = none := by
  simp only [isLineEnd, decide_eq_true_eq] at h
  rcases h with rfl | rfl <;> rfl

/-- Behind an `=`, a blank makes it stand for itself. -/
theorem qpText_eq_blank {b : Byte} (hb : isBlank b) (t : List Byte) :
    qpText (chr '=' :: b :: t) = chr '=' :: qpText (b :: t) := by
  have hlf : b ≠ chr '\n' := by
    rintro rfl
    exact absurd hb (by decide)
  have hcr : b ≠ chr '\r' := by
    rintro rfl
    exact absurd hb (by decide)
  have heq : b ≠ chr '=' := by
    rintro rfl
    exact absurd hb (by decide)
  cases t with
  | nil =>
    rw [qpText_of_ne heq, qpText.eq_def]
    simp [hlf, qpText]
  | cons c t =>
    apply qpText_literal hlf (fun h => hcr h.1)
    intro h1 h2 e1
    rw [xdigit_of_isBlank hb] at e1
    cases e1

theorem ne_eq_of_isLineEnd {c : Byte} (h : isLineEnd c) : c ≠ chr '=' := by
  rintro rfl
  exact absurd h (by decide)

/-- A single byte behind an `=`. -/
theorem qpText_pair {c : Byte} (h : c ≠ chr '\n') : qpText [chr '=', c] = [chr '=', c] := by
  simp [qpText, h]

/-- An `=` that starts no hexadecimal escape hides no blank. -/
theorem blanks_qpText_eq_le {c1 c2 : Byte} (hx : xdigit c1 = none ∨ xdigit c2 = none) (s : List Byte) :
    blanks (qpText (chr '=' :: c1 :: c2 :: s)) ≤ blanks (qpText (c1 :: c2 :: s)) := by
  by_cases hlf : c1 = chr '\n'
  · have e : qpText (chr '\n' :: c2 :: s) = chr '\n' :: qpText (c2 :: s) := qpText_of_ne (by decide) _
    rw [hlf, qpText_lf, e, blanks_cons]
    exact Nat.le_add_right ..
  by_cases hcrlf : c1 = chr '\r' ∧ c2 = chr '\n'
  · have e : qpText (chr '\r' :: chr '\n' :: s) = chr '\r' :: chr '\n' :: qpText s := by
      rw [qpText_of_ne (by decide), qpText_of_ne (by decide)]
    rw [hcrlf.1, hcrlf.2, qpText_crlf, e, blanks_cons, blanks_cons]
    omega
  · have hx' : ∀ h1 h2 : ℕ, xdigit c1 = some h1 → xdigit c2 = some h2 → False := by
      intro h1 h2 e1 e2
      rw [e1, e2] at hx
      rcases hx with hx | hx <;> cases hx
    rw [qpText_literal hlf hcrlf hx', blanks_cons]
    exact (Nat.add_zero _).le

/-- **Every blank put in shows up in the decoded text.** -/
theorem Inserted.count_le {n : ℕ} {s t : List Byte} (h : Inserted n s t) :
    blanks (qpText s) + n ≤ blanks (qpText t) := by
  -- strong induction: an escape takes up to three bytes of both texts at once
  induction hl : t.length using Nat.strong_induction_on generalizing n s t with
  | _ l ih =>
    cases h with
    | nil => exact le_rfl
    | @blank m s t b c hb hc h =>
      have hne : b ≠ chr '=' := by
        rintro rfl
        exact absurd hb (by decide)
      have h1 := ih t.length (by simp [← hl]) h rfl
      rw [qpText_of_ne hne, blanks_cons, if_pos hb]
      omega
    | @cons n s t c h =>
      have h1 := ih t.length (by simp [← hl]) h rfl
      by_cases hc : c = chr '='
      swap
      · rw [qpText_of_ne hc, qpText_of_ne hc, blanks_cons, blanks_cons]
        omega
      subst hc
      -- the text stays as it is behind an `=` that is literal on the right
      have hliteral : qpText (chr '=' :: t) = chr '=' :: qpText t →
          blanks (qpText (chr '=' :: s)) ≤ blanks (qpText s) →
          blanks (qpText (chr '=' :: s)) + n ≤ blanks (qpText (chr '=' :: t)) := by
        intro e hle
        rw [e, blanks_cons]
        omega
      cases s with
      | nil =>
        cases h
        exact le_rfl
      | cons c1 s1 =>
        rcases h.cases_cons with ⟨t1, rfl, h'⟩ | ⟨m, b, t1, rfl, rfl, hb, hc1, h'⟩
        · by_cases hlf : c1 = chr '\n'
          · have h2 := ih t1.length (by simp [← hl]) h' rfl
            rw [hlf, qpText_lf, qpText_lf]
            exact h2
          cases s1 with
          | nil =>
            cases h'
            exact le_rfl
          | cons c2 s2 =>
            rcases h'.cases_cons with ⟨t2, rfl, h''⟩ | ⟨m, b, t2, rfl, rfl, hb, hc2, h''⟩
            · have h2 := ih t2.length (by simp only [← hl, List.length_cons]; omega) h'' rfl
              by_cases hcrlf : c1 = chr '\r' ∧ c2 = chr '\n'
              · rw [hcrlf.1, hcrlf.2, qpText_crlf, qpText_crlf]
                exact h2
              cases e1 : xdigit c1 with
              | none =>
                have hx : ∀ h1 h2 : ℕ, xdigit c1 = some h1 → xdigit c2 = some h2 → False :=
                  fun _ _ e => absurd (e1.symm.trans e) (by simp)
                exact hliteral (qpText_literal hlf hcrlf hx t2) (blanks_qpText_eq_le (.inl e1) s2)
              | some d1 =>
                cases e2 : xdigit c2 with
                | none =>
                  have hx : ∀ h1 h2 : ℕ, xdigit c1 = some h1 → xdigit c2 = some h2 → False :=
                    fun _ _ _ e => absurd (e2.symm.trans e) (by simp)
                  exact hliteral (qpText_literal hlf hcrlf hx t2) (blanks_qpText_eq_le (.inr e2) s2)
                | some d2 =>
                  rw [qpText_hex e1 e2, qpText_hex e1 e2, blanks_cons, blanks_cons]
                  omega
            · -- the blank parts `c1` from the line end `c2`
              have hx : ∀ h1 h2 : ℕ, xdigit c1 = some h1 → xdigit b = some h2 → False :=
                fun _ _ _ e => absurd ((xdigit_of_isBlank hb).symm.trans e) (by simp)
              have hcrlf : ¬(c1 = chr '\r' ∧ b = chr '\n') := by
                rintro ⟨-, rfl⟩
                exact absurd hb (by decide)
              exact hliteral (qpText_literal hlf hcrlf hx t2)
                (blanks_qpText_eq_le (.inr (xdigit_of_isLineEnd hc2)) s2)
        · -- the blank parts the `=` from the line end `c1`
          apply hliteral (qpText_eq_blank hb t1)
          cases s1 with
          | nil =>
            by_cases hlf : c1 = chr '\n'
            · rw [hlf, qpText_lf]
              exact Nat.zero_le _
            · rw [qpText_pair hlf, qpText_of_ne (ne_eq_of_isLineEnd hc1), blanks_cons]
              exact le_rfl
          | cons c2 s2 => exact blanks_qpText_eq_le (.inl (xdigit_of_isLineEnd hc1)) s2

/-! ### Packet boundaries -/

/-- A line end comes next, or blanks and then a line end. -/
def lineEnds (s : List Byte) : Prop := (s.dropWhile isBlank).head?.any isLineEnd

instance (s : List Byte) : Decidable (lineEnds s) := inferInstanceAs (Decidable (_ = true))

/-- No packet that ends in a blank is followed by a line end, or by blanks and then a line end. -/
def BlanksWhole : List (List Byte) → Prop
  | [] => True
  | p :: ps => (p.getLast?.any isBlank → ¬lineEnds ps.flatten) ∧ BlanksWhole ps

theorem isBlank_or_head_of_lineEnds {s : List Byte} :
    lineEnds s ↔ (stripped s).head?.any isLineEnd := by
  unfold lineEnds
  induction s with
  | nil => rfl
  | cons c s ih =>
    by_cases hc : isBlank c
    · rw [List.dropWhile_cons_of_pos hc, ih, stripped]
      by_cases hs : (stripped s).head?.any isLineEnd
      · rw [if_pos ⟨hc, hs⟩]
      · rw [if_neg (fun h => hs h.2)]
        have hne : ¬isLineEnd c := fun h => not_isBlank_of_isLineEnd h hc
        exact iff_of_false hs hne
    · rw [List.dropWhile_cons_of_neg hc, stripped_cons_of_not hc]
      rfl

/-- **Stripping two parts on their own** puts blanks back exactly when the first part ends in one and a
line end follows. -/
theorem stripped_append (x y : List Byte) :
    ∃ n : ℕ, Inserted n (stripped (x ++ y)) (stripped x ++ stripped y) ∧
      (0 < n ↔ x.getLast?.any isBlank ∧ lineEnds y) := by
  induction x with
  | nil => exact ⟨0, .refl _, by simp⟩
  | cons c x ih =>
    obtain ⟨n, hins, hn⟩ := ih
    have hlast : x ≠ [] → (c :: x).getLast? = x.getLast? := fun hx => by
      rw [List.getLast?_cons_of_ne_nil hx]
    by_cases hc : isBlank c
    swap
    · rw [List.cons_append, stripped_cons_of_not hc, stripped_cons_of_not hc]
      refine ⟨n, .cons c hins, ?_⟩
      rcases eq_or_ne x [] with rfl | hx
      · simp [hc] at hn ⊢
        exact hn
      · rw [hn, hlast hx]
    rw [List.cons_append, stripped, stripped]
    by_cases hB : (stripped x).head?.any isLineEnd
    · -- the blank goes on both sides
      have hx : x ≠ [] := by
        rintro rfl
        exact absurd hB (by simp [stripped])
      have hA : (stripped (x ++ y)).head?.any isLineEnd := hins.head_lineEnd hB
      rw [if_pos ⟨hc, hA⟩, if_pos ⟨hc, hB⟩, hlast hx]
      exact ⟨n, hins, hn⟩
    rw [if_neg (fun h : _ ∧ _ => hB h.2), List.cons_append]
    by_cases hA : (stripped (x ++ y)).head?.any isLineEnd
    · -- the blank is put back
      rw [if_pos ⟨hc, hA⟩]
      have hblank : (c :: x).getLast?.any isBlank ∧ lineEnds y := by
        rcases eq_or_ne x [] with rfl | hx
        · exact ⟨hc, isBlank_or_head_of_lineEnds.2 hA⟩
        · rw [hlast hx, ← hn]
          exact hins.pos_of_head (stripped_ne_nil hx) hB hA
      refine ⟨n + 1, ?_, iff_of_true (Nat.succ_pos n) hblank⟩
      revert hins hA
      cases stripped (x ++ y) with
      | nil => simp
      | cons e A => exact fun hins hA => .blank hc hA hins
    · rw [if_neg (fun h : _ ∧ _ => hA h.2)]
      refine ⟨n, .cons c hins, ?_⟩
      rcases eq_or_ne x [] with rfl | hx
      · have hy : ¬lineEnds y := fun h => hA (isBlank_or_head_of_lineEnds.1 h)
        simp [hy] at hn ⊢
        exact hn
      · rw [hn, hlast hx]

/-- The packets of a run, each stripped on its own. -/
def strippedPackets (ps : List (List Byte)) : List Byte := (ps.map stripped).flatten

/-- **Stripping packets on their own** leaves blanks in front of line ends exactly where a packet
boundary parts them. -/
theorem strippedPackets_inserted (ps : List (List Byte)) (u : List Byte) :
    blanks (qpText (u ++ stripped ps.flatten)) ≤ blanks (qpText (u ++ strippedPackets ps)) ∧
      (¬BlanksWhole ps → blanks (qpText (u ++ stripped ps.flatten)) <
        blanks (qpText (u ++ strippedPackets ps))) ∧
      (BlanksWhole ps → strippedPackets ps = stripped ps.flatten) := by
  induction ps generalizing u with
  | nil => exact ⟨le_rfl, fun h => absurd trivial h, fun _ => rfl⟩
  | cons p ps ih =>
    obtain ⟨n, hins, hn⟩ := stripped_append p ps.flatten
    have h1 := (hins.append u).count_le
    obtain ⟨h2, h3, h4⟩ := ih (u ++ stripped p)
    have e : u ++ strippedPackets (p :: ps) = u ++ stripped p ++ strippedPackets ps := by
      rw [strippedPackets, List.map_cons, List.flatten_cons, List.append_assoc]
      rfl
    rw [e, List.flatten_cons]
    rw [← List.append_assoc] at h1
    refine ⟨by omega, ?_, ?_⟩
    · intro h
      by_cases hps : BlanksWhole ps
      · have hpos : 0 < n := by
          rw [hn]
          by_contra h'
          exact h ⟨fun h1 h2 => h' ⟨h1, h2⟩, hps⟩
        omega
      · have := h3 hps
        omega
    · intro h
      have hn0 : n = 0 := by
        have : ¬0 < n := fun hpos => h.1 (hn.1 hpos).1 (hn.1 hpos).2
        omega
      subst hn0
      have e' : strippedPackets (p :: ps) = stripped p ++ strippedPackets ps := rfl
      rw [e', h4 h.2]
      exact hins.eq_of_zero.symm

/-- The text of a run: what its calls decode, and what the last one leaves undecoded. -/
def qpRun (ps : List (List Byte)) (ds : EmailDecodeState) : List Byte :=
  (decodeAll qpDecode ps ds).1 ++ carry (decodeAll qpDecode ps ds).2

/-- The text of a stream in one piece, with room for it in both buffers. -/
def qpWhole (s : List Byte) : List Byte :=
  let encodeBuf := sfStripLWS s s.length
  match sfQpdecode encodeBuf (encodeBuf.length + 1) with
  | none => []
  | some (out, bytesRead) => out ++ encodeBuf.drop bytesRead

theorem qpWhole_eq (s : List Byte) : qpWhole s = qpText (stripped s) := by
  unfold qpWhole
  rw [sfStripLWS_eq le_rfl]
  generalize stripped s = t
  by_cases ht : t.length = 0
  · rw [List.length_eq_zero_iff.1 ht]
    rfl
  have hle := length_qpOut_fst t
  have hloop : qpLoop (t.length + 1) t [] = qpOut t :=
    qpLoop_room t [] (by simp) (show (qpOut t).1.length < t.length + 1 by omega)
  have hsuff : (qpOut t).2 <:+ t := qpLoop_suffix _ _ _
  have htext := qpOut_fst_append_snd t []
  rw [List.append_nil, List.append_nil, qpText_qpOut_snd] at htext
  obtain ⟨u, hu⟩ := hsuff
  have hdrop : t.drop (t.length - (qpOut t).2.length) = (qpOut t).2 := by
    have hlen : t.length - (qpOut t).2.length = u.length := by
      have := congrArg List.length hu
      rw [List.length_append] at this
      omega
    rw [hlen]
    conv_lhs => rw [← hu]
    exact List.drop_left
  have hq : sfQpdecode t (t.length + 1) =
      some ((qpOut t).1, t.length - (qpOut t).2.length) := by
    unfold sfQpdecode
    rw [if_neg (by omega), hloop]
  simp only [hq, hdrop]
  exact htext.symm

/-- The text of a run, packet by packet. -/
theorem qpRun_eq {ps : List (List Byte)} {ds : EmailDecodeState} (hps : ∀ p ∈ ps, Packet p)
    (hplaced : Placed ds) (hcarry : (carry ds).length ≤ 2) (htext : qpText (carry ds) = carry ds)
    (hroom : Along qpDecode QpRoom ps ds) :
    qpRun ps ds = qpText (carry ds ++ strippedPackets ps) := by
  induction ps generalizing ds with
  | nil =>
    rw [strippedPackets, List.map_nil, List.flatten_nil, List.append_nil, htext]
    rfl
  | cons p ps ih =>
    obtain ⟨ds', hcall, hplaced', hout, hleft⟩ :=
      qpDecode_eq (hps p List.mem_cons_self) hplaced hcarry hroom.1
    have hroom' : Along qpDecode QpRoom ps ds' := by
      have h := hroom.2
      rw [hcall] at h
      exact h
    have h := ih (fun p' hp' => hps p' (List.mem_cons_of_mem _ hp')) hplaced'
      (hleft ▸ length_qpOut_snd _) (hleft ▸ qpText_qpOut_snd _) hroom'
    have e : carry ds ++ strippedPackets (p :: ps) =
        carry ds ++ stripped p ++ strippedPackets ps := by
      rw [List.append_assoc]
      rfl
    rw [e, qpOut_fst_append_snd, ← hout, ← hleft, ← h]
    simp only [qpRun, decodeAll, hcall, if_true, List.append_assoc]

/-- **Packet boundaries in quoted-printable text.**  What the calls decode, with what is left at the end,
is the text of the whole stream if and only if no packet boundary parts blanks from a line end. -/
theorem qp_cut_iff (ps : List (List Byte)) (ds : EmailDecodeState) (hps : ∀ p ∈ ps, Packet p)
    (hds : ds.prevEncodedBytes = 0) (hroom : Along qpDecode QpRoom ps ds) :
    qpRun ps ds = qpWhole ps.flatten ↔ BlanksWhole ps := by
  have hc : carry ds = [] := carry_of_zero hds
  rw [qpRun_eq hps (placed_of_zero hds) (by simp [hc]) (by simp [hc, qpText]) hroom, qpWhole_eq, hc,
    List.nil_append]
  obtain ⟨-, h2, h3⟩ := strippedPackets_inserted ps []
  constructor
  · intro h
    by_contra h'
    have hlt := h2 h'
    rw [List.nil_append, List.nil_append, h] at hlt
    exact lt_irrefl _ hlt
  · intro h
    rw [h3 h]

theorem qp_cut_iff_caf :
    qpRun [bytes "caf=C", bytes "3=A9 ", bytes "au=\r", bytes "\nlait \r\n"]
        (setEmailDecodeState (fun _ => 0) 0 64 0) =
      qpWhole (bytes "caf=C3=A9 au=\r\nlait \r\n") ↔
    BlanksWhole [bytes "caf=C", bytes "3=A9 ", bytes "au=\r", bytes "\nlait \r\n"] :=
  qp_cut_iff [bytes "caf=C", bytes "3=A9 ", bytes "au=\r", bytes "\nlait \r\n"]
    (setEmailDecodeState (fun _ => 0) 0 64 0) (by decide) rfl (by decide +kernel)

/-- The blank in front of the line end stays in two packets, and goes in one. -/
theorem qp_cut_blank :
    (∀ p ∈ [bytes "a ", bytes "\n"], Packet p) ∧
    Along qpDecode QpRoom [bytes "a ", bytes "\n"] (setEmailDecodeState (fun _ => 0) 0 0 0) ∧
    qpRun [bytes "a ", bytes "\n"] (setEmailDecodeState (fun _ => 0) 0 0 0) = bytes "a \n" ∧
    qpRun [bytes "a \n"] (setEmailDecodeState (fun _ => 0) 0 0 0) = bytes "a\n" := by
  decide +kernel

end Snort.Email
