import Snort.Email.UuFile

/-!
# Uuencoded files over packets

* **`uuDecode_eq`**: one call, in terms of what `sf_uudecode` returns;
* `uuDecode_first`, `uuDecode_lines`, `uuDecode_over`: the calls of a file: at its first line, at its lines
  of data, and behind its end;
* **`uu_cut`**: where no packet boundary parts the file badly, the calls decode what it encodes.
-/

namespace Snort.Email

open Buffer

variable {p : List Byte} {ds : EmailDecodeState}

/-! ### A call -/

/-- The encode depth is not exhausted by a call. -/
def UuRoom (p : List Byte) (ds : EmailDecodeState) : Prop :=
  0 ≤ ds.uuState.encodeDepth ∧ (carry ds).length + p.length ≤ ds.uuState.encodeAvail

instance (p : List Byte) (ds : EmailDecodeState) : Decidable (UuRoom p ds) :=
  inferInstanceAs (Decidable (_ ∧ _))

/-- The decode depth, an `int`, is not exhausted by `n` more bytes. -/
def DecodeRoom (s : DecodeState) (n : ℕ) : Prop :=
  s.encodeDepth = 0 ∨ (s.decodeBytesRead + n : ℤ) < s.decodeDepth ∧ s.decodeDepth < 2 ^ 31

instance (s : DecodeState) (n : ℕ) : Decidable (DecodeRoom s n) := inferInstanceAs (Decidable (_ ∨ _))

theorem DecodeRoom.avail {s : DecodeState} {n : ℕ} (h : DecodeRoom s n) :
    s.encodeDepth = 0 ∧ s.decodeAvail = maxBuf ∨ n < s.decodeAvail := by
  rcases h with h | ⟨h1, h2⟩
  · exact .inl ⟨h, if_pos h⟩
  · by_cases h0 : s.encodeDepth = 0
    · exact .inl ⟨h0, if_pos h0⟩
    · refine .inr ?_
      rw [DecodeState.decodeAvail, if_neg h0]
      obtain ⟨d, hd⟩ := Int.eq_ofNat_of_zero_le (show 0 ≤ s.decodeDepth - s.decodeBytesRead by omega)
      rw [CInt.u32_of_eq hd (by omega)]
      omega

theorem DecodeRoom.read {s : DecodeState} {n m : ℕ} (h : DecodeRoom s (n + m)) (e : ℕ) :
    DecodeRoom (s.read e n) m := by
  rcases h with h | ⟨h1, h2⟩
  · exact .inl h
  · refine .inr ⟨?_, h2⟩
    have hu : CInt.u32 (s.decodeBytesRead + n) = s.decodeBytesRead + n :=
      CInt.u32_of_eq (by push_cast; rfl) (by push_cast at h1; omega)
    show ((CInt.u32 (s.decodeBytesRead + n) : ℕ) + m : ℤ) < s.decodeDepth
    rw [hu]
    push_cast at h1 ⊢
    omega

/-- **One call**, in terms of what `sf_uudecode` returns. -/
theorem uuDecode_eq (hne : p ≠ []) (hplaced : Placed ds) (hroom : UuRoom p ds)
    (hdec : ds.uuState.decodeAvail ≠ 0) :
    ∃ mem : ℕ → Byte, readBuf mem 0 (carry ds ++ p).length = carry ds ++ p ∧
      ∀ r : UuResult, sfUudecode mem (carry ds ++ p).length ds.uuState.decodeAvail ds.beginFound
          ds.endFound = some r → r.bytesRead ≤ (carry ds ++ p).length →
        ∃ ds' : EmailDecodeState, uuDecode p ds = (true, ds') ∧ Placed ds' ∧ ds'.decoded = r.out ∧
          carry ds' = (carry ds ++ p).drop r.bytesRead ∧
          ds'.beginFound = (if r.endFound then false else r.beginFound) ∧ ds'.endFound = false ∧
          ∃ e : ℕ, ds'.uuState = ds.uuState.read e r.out.length := by
  obtain ⟨hneg, hroom⟩ := hroom
  have hpos := List.length_pos_of_ne_nil hne
  have hle : (carry ds).length ≤ ds.uuState.encodeAvail := by omega
  obtain ⟨buf, hload, hbuf⟩ := loadPrev_eq hplaced hle
  have hsize : p.length + (carry ds).length = (carry ds ++ p).length := by
    rw [List.length_append, Nat.add_comm]
  have hmem := hbuf p
  rw [hsize] at hmem
  refine ⟨_, hmem, fun r hr hread => ?_⟩
  have htake : p.take (ds.uuState.encodeAvail - (carry ds).length) = p :=
    List.take_of_length_le (by omega)
  unfold uuDecode
  rw [if_neg (by omega), if_neg (by omega)]
  simp only [hload, htake]
  rw [if_neg (by omega)]
  simp only [hsize, hr]
  rw [if_neg (by omega)]
  refine ⟨_, rfl, ?_⟩
  obtain ⟨h1, h2⟩ := @carry_of_read ⟨_, _, _, _, _, _, _, _, _, _, _⟩ _ r.bytesRead ds.prevEncodedBuf
    ((carry ds ++ p).take r.bytesRead) ((carry ds ++ p).drop r.bytesRead)
    (hmem.trans (List.take_append_drop _ _).symm) (by rw [List.length_take]; omega) rfl rfl
  exact ⟨h1, rfl, h2, rfl, rfl, _, rfl⟩

/-- A call behind the end, or in front of the beginning, of a file. -/
theorem uuDecode_over (hne : p ≠ []) (hplaced : Placed ds) (hroom : UuRoom p ds)
    (hdec : DecodeRoom ds.uuState 0) (hb : ds.beginFound = false) (he : ds.endFound = false)
    (hlen : (carry ds ++ p).length < 5) :
    ∃ ds' : EmailDecodeState, uuDecode p ds = (true, ds') ∧ Placed ds' ∧ ds'.decoded = [] ∧
      carry ds' = carry ds ++ p ∧ ds'.beginFound = false ∧ ds'.endFound = false ∧
      DecodeRoom ds'.uuState 0 := by
  have hpos := List.length_pos_of_ne_nil hne
  have havail : ds.uuState.decodeAvail ≠ 0 := by
    rcases hdec.avail with ⟨-, h⟩ | h
    · rw [h]
      decide
    · omega
  obtain ⟨mem, -, hcall⟩ := uuDecode_eq hne hplaced hroom havail
  have hr : sfUudecode mem (carry ds ++ p).length ds.uuState.decodeAvail ds.beginFound ds.endFound =
      some ⟨0, [], false, false⟩ := by
    rw [List.length_append] at hlen ⊢
    rw [hb, he, sfUudecode, if_neg (by omega), if_neg (by decide), if_pos hlen]
  obtain ⟨ds', h1, h2, h3, h4, h5, h6, e, h7⟩ := hcall _ hr (Nat.zero_le _)
  refine ⟨ds', h1, h2, h3, h4, h5, h6, ?_⟩
  rw [h7]
  exact hdec.read e

/-- Behind the end of a file nothing is decoded. -/
theorem uu_over {ps : List (List Byte)} (hps : ∀ p ∈ ps, p ≠ []) (hplaced : Placed ds)
    (hroom : Along uuDecode UuRoom ps ds) (hdec : DecodeRoom ds.uuState 0)
    (hb : ds.beginFound = false) (he : ds.endFound = false)
    (hlen : (carry ds ++ ps.flatten).length < 5) : (decodeAll uuDecode ps ds).1 = [] := by
  induction ps generalizing ds with
  | nil => rfl
  | cons p ps ih =>
    rw [List.flatten_cons, ← List.append_assoc] at hlen
    obtain ⟨ds', h1, h2, h3, h4, h5, h6, h7⟩ :=
      uuDecode_over (hps p List.mem_cons_self) hplaced hroom.1 hdec hb he
        (by rw [List.length_append] at hlen; omega)
    have hroom' : Along uuDecode UuRoom ps ds' := by
      have h := hroom.2
      rw [h1] at h
      exact h
    have hrest := ih (fun p' hp' => hps p' (List.mem_cons_of_mem _ hp')) h2 hroom' h7 h5 h6
      (by rw [h4]; exact hlen)
    rw [decodeAll, h1, hrest, h3]
    rfl

/-- How a call leaves lines of data: going on with the lines `b`, or behind the end. -/
def Going (f : UuFile) (b : List UuLine) (rest : List Byte) (ds : EmailDecodeState) : Prop :=
  ds.endFound = false ∧ (rest = [] → b = []) ∧
    (ds.beginFound = true ∧ (∃ pre : List Byte, (pre = [] ∨ pre = [chr '\n'] ∧ carry ds = []) ∧
      carry ds ++ rest = pre ++ (linesText b ++ f.tail)) ∨
    ds.beginFound = false ∧ b = [] ∧ (carry ds ++ rest).length < 5)

theorem DecodeRoom.fits {s : DecodeState} {ls : List UuLine} (h : DecodeRoom s (linesData ls).length)
    {y : ℕ} (hy : y ≤ s.encodeAvail) : Fits s.decodeAvail 0 y ls := by
  rcases h.avail with ⟨h0, h⟩ | h
  · rw [DecodeState.encodeAvail, if_pos h0] at hy
    rw [h]
    unfold maxBuf at hy ⊢
    exact .inr (by omega)
  · exact .inl (by omega)

/-- The result of `sf_uudecode` on lines of data, as the call takes it over. -/
theorem going_of_left {f : UuFile} {slen : ℕ} {b : List UuLine} {buf left rest : List Byte}
    {ended : Bool} (hleft : left <:+ buf) (hlen : buf.length = slen)
    (hend : Left b f.tail left rest ended) {ds' : EmailDecodeState}
    (hcarry : carry ds' = buf.drop (if ended then slen else slen - left.length))
    (hbegin : ds'.beginFound = if ended then false else true) (he : ds'.endFound = false) :
    Going f b rest ds' := by
  obtain ⟨hnil, hend⟩ := hend
  refine ⟨he, hnil, ?_⟩
  cases ended with
  | true =>
    rw [if_pos rfl] at hend
    obtain ⟨hb, hne, htail, hhead⟩ := hend
    have h5 := f.length_tail hhead
    have hpos := List.length_pos_of_ne_nil hne
    rw [← htail, List.length_append] at h5
    have hnil : carry ds' = [] := by
      rw [hcarry, if_pos rfl, ← hlen, List.drop_length]
    refine .inr ⟨hbegin, hb, ?_⟩
    rw [hnil, List.nil_append]
    omega
  | false =>
    rw [if_neg (by decide)] at hend
    have hc : carry ds' = left := by
      obtain ⟨u, hu⟩ := hleft
      have hl := congrArg List.length hu
      rw [List.length_append] at hl
      rw [hcarry, if_neg (by decide), ← hu]
      exact List.drop_left' (by omega)
    refine .inl ⟨hbegin, ?_⟩
    rcases hend with h | ⟨h1, h2⟩
    · exact ⟨[], .inl rfl, by rw [hc]; exact h⟩
    · refine ⟨[chr '\n'], .inr ⟨rfl, hc.trans h1⟩, ?_⟩
      rw [hc, h1, h2]
      rfl

theorem linesData_append (a b : List UuLine) : linesData (a ++ b) = linesData a ++ linesData b := by
  rw [linesData, List.map_append, List.flatten_append]
  rfl

/-- **A call in the lines of data.** -/
theorem uuDecode_lines {f : UuFile} {ls : List UuLine} {rest pre : List Byte} {k m : ℕ} (hne : p ≠ [])
    (hplaced : Placed ds) (hroom : UuRoom p ds) (hdec : DecodeRoom ds.uuState (linesData ls).length)
    (hb : ds.beginFound = true) (he : ds.endFound = false)
    (hpre : pre = [] ∨ pre = [chr '\n'] ∧ carry ds = [])
    (htext : carry ds ++ (p ++ rest) = pre ++ (linesText ls ++ f.tail))
    (hm : k + (carry ds ++ p).length = m + pre.length) (hcut : ¬Inside k ls m) :
    ∃ (a b : List UuLine) (ds' : EmailDecodeState), ls = a ++ b ∧ uuDecode p ds = (true, ds') ∧
      Placed ds' ∧ ds'.decoded = linesData a ∧ DecodeRoom ds'.uuState (linesData b).length ∧
      Going f b rest ds' := by
  have hpos := List.length_pos_of_ne_nil hne
  obtain ⟨y, hy, htext'⟩ : ∃ y : List Byte, carry ds ++ p = pre ++ y ∧
      y ++ rest = linesText ls ++ f.tail := by
    rcases hpre with rfl | ⟨rfl, hc⟩
    · refine ⟨carry ds ++ p, rfl, ?_⟩
      rw [List.append_assoc]
      exact htext
    · rw [hc] at htext ⊢
      obtain ⟨c, p', rfl⟩ := List.exists_cons_of_ne_nil hne
      obtain ⟨rfl, h⟩ := List.cons.inj htext
      exact ⟨p', rfl, h⟩
  have hle := hroom.2
  rw [← List.length_append] at hle
  have hylen : (carry ds ++ p).length = pre.length + y.length := by rw [hy, List.length_append]
  have hfits : Fits ds.uuState.decodeAvail 0 y.length ls := hdec.fits (by omega)
  obtain ⟨mem, hmem, hcall⟩ := uuDecode_eq hne hplaced hroom
    (by rcases hfits with h | h <;> omega)
  have hk : k + y.length = m := by omega
  obtain ⟨a, b, left, ended, rfl, hleft, hres, hend⟩ :=
    @uuResult_lines mem (carry ds ++ p).length ds.uuState.decodeAvail f.tail f.endsFile_tail ls 0 k pre y
      rest (hpre.imp_right And.left) (hmem.trans hy) (Nat.zero_le _) htext' hfits (by rw [hk]; exact hcut)
  have hr : sfUudecode mem (carry ds ++ p).length ds.uuState.decodeAvail ds.beginFound ds.endFound =
      some (uuResult mem (carry ds ++ p).length ds.uuState.decodeAvail 0 false) := by
    have hfits' : ds.uuState.decodeAvail ≠ 0 := by rcases hfits with h | h <;> omega
    rw [hb, he, sfUudecode, if_neg (by rw [List.length_append]; omega), if_pos rfl]
  rw [hres] at hr
  obtain ⟨ds', h1, h2, h3, h4, h5, h6, e, h7⟩ := hcall _ hr (by simp only; split <;> omega)
  refine ⟨a, b, ds', rfl, h1, h2, h3, ?_, ?_⟩
  · rw [h7]
    rw [linesData_append, List.length_append] at hdec
    exact hdec.read e
  · exact going_of_left (hleft.trans ⟨pre, hy.symm⟩) rfl hend h4 h5 h6

/-! ### The first line -/

theorem snortStrnChr_found {mem : ℕ → Byte} {w y : List Byte} {slen ptr : ℕ}
    (hw : ∀ c ∈ w, c ≠ chr '\n' ∧ c ≠ 0) (h : readBuf mem ptr slen = w ++ chr '\n' :: y) :
    snortStrnChr mem (chr '\n') slen ptr = if y = [] then none else some (ptr + w.length) := by
  induction w generalizing slen ptr with
  | nil =>
    have hlen := congrArg List.length h
    rw [length_readBuf] at hlen
    rcases y with _ | ⟨c, y⟩
    · rw [hlen]
      rfl
    · have hs : slen = y.length + 2 := by simpa using hlen
      subst hs
      rw [readBuf_succ] at h
      have hmem : mem ptr = chr '\n' := (List.cons.inj h).1
      rw [snortStrnChr, hmem, if_neg (by decide), if_pos rfl]
      simp
  | cons c w ih =>
    have hlen := congrArg List.length h
    rw [length_readBuf] at hlen
    obtain ⟨n, rfl⟩ : ∃ n : ℕ, slen = n + 2 := ⟨w.length + y.length, by simp at hlen; omega⟩
    rw [readBuf_succ] at h
    obtain ⟨hc, h'⟩ := List.cons.inj h
    obtain ⟨hlf, h0⟩ := hw c List.mem_cons_self
    rw [snortStrnChr, hc, if_neg h0, if_neg hlf,
      ih (fun d hd => hw d (List.mem_cons_of_mem _ hd)) h', List.length_cons]
    split
    · rfl
    · congr 1
      omega

theorem snortStrnChr_none {mem : ℕ → Byte} {w : List Byte} {slen ptr : ℕ}
    (hw : ∀ c ∈ w, c ≠ chr '\n') (h : readBuf mem ptr slen = w) :
    snortStrnChr mem (chr '\n') slen ptr = none := by
  induction w generalizing slen ptr with
  | nil =>
    have hlen := congrArg List.length h
    rw [length_readBuf] at hlen
    rw [hlen]
    rfl
  | cons c w ih =>
    have hlen := congrArg List.length h
    rw [length_readBuf] at hlen
    rcases w with _ | ⟨d, w⟩
    · rw [hlen]
      rfl
    · obtain ⟨n, rfl⟩ : ∃ n : ℕ, slen = n + 2 := ⟨w.length, by simpa using hlen⟩
      rw [readBuf_succ] at h
      obtain ⟨hc, h'⟩ := List.cons.inj h
      rw [snortStrnChr, hc, if_neg (hw c List.mem_cons_self),
        ih (fun d hd => hw d (List.mem_cons_of_mem _ hd)) h', ite_self]

/-- **The first call**: the packet holds the first line, up to its line feed. -/
theorem uuDecode_first {f : UuFile} {rest : List Byte} (h5 : 5 ≤ p.length) (hc : carry ds = [])
    (hplaced : Placed ds) (hroom : UuRoom p ds) (hdec : DecodeRoom ds.uuState f.data.length)
    (hb : ds.beginFound = false) (he : ds.endFound = false) (htext : p ++ rest = f.text)
    (hcut : ¬f.Parted p.length) :
    ∃ (a b : List UuLine) (ds' : EmailDecodeState), f.lines = a ++ b ∧ uuDecode p ds = (true, ds') ∧
      Placed ds' ∧ ds'.decoded = linesData a ∧ DecodeRoom ds'.uuState (linesData b).length ∧
      Going f b rest ds' := by
  have hne : p ≠ [] := by
    rintro rfl
    exact absurd h5 (by decide)
  have hle : p.length ≤ ds.uuState.encodeAvail := by
    have := hroom.2
    omega
  have hdlen : ds.uuState.decodeAvail ≠ 0 := by
    have hfits := DecodeRoom.fits hdec hle
    rcases hfits with h | h <;> omega
  obtain ⟨mem, hmem, hcall⟩ := uuDecode_eq hne hplaced hroom hdlen
  rw [hc, List.nil_append] at hmem hcall
  obtain ⟨hfront, hcut⟩ := not_or.1 hcut
  -- the first line is there
  have hpre : f.beginFront <+: p := by
    have hpre' : f.beginFront <+: p ++ rest := by
      rw [htext]
      exact List.prefix_append _ _
    exact List.prefix_of_prefix_length_le hpre' (List.prefix_append _ _) (by omega)
  obtain ⟨y, hy⟩ := hpre
  rw [← hy, UuFile.text, List.append_assoc, List.append_cancel_left_eq] at htext
  have hfinds : findsBegin mem = true := by
    have h := take_readBuf mem 0 h5
    rw [hmem, ← hy, UuFile.beginFront, List.append_assoc] at h
    have h' : readBuf mem 0 5 = bytes "begin" := h.symm
    simp only [readBuf_succ, readBuf_zero, Nat.zero_add] at h'
    have h'' : [mem 0, mem 1, mem 2, mem 3, mem 4] = [chr 'b', chr 'e', chr 'g', chr 'i', chr 'n'] := h'
    simp only [List.cons.injEq, and_true] at h''
    simp only [findsBegin, decide_eq_true_eq]
    exact h''
  have hbegin : ∀ c ∈ bytes "begin", c ≠ chr '\n' ∧ c ≠ 0 := by decide
  have hheader : ∀ c ∈ f.beginFront, c ≠ chr '\n' ∧ c ≠ 0 := fun c hc =>
    (List.mem_append.1 hc).elim (hbegin c) (f.header_ne c)
  -- the packet ends with the first line
  have hnone : snortStrnChr mem (chr '\n') p.length 0 = none → ∃ ds' : EmailDecodeState,
      uuDecode p ds = (true, ds') ∧ Placed ds' ∧ ds'.decoded = [] ∧ carry ds' = [] ∧
      DecodeRoom ds'.uuState f.data.length ∧ ds'.beginFound = true ∧ ds'.endFound = false := by
    intro h
    have hr : sfUudecode mem p.length ds.uuState.decodeAvail ds.beginFound ds.endFound =
        some ⟨p.length, [], true, false⟩ := by
      unfold sfUudecode
      rw [hb, he, if_neg (by omega), if_neg (by decide), if_neg (by omega), if_pos hfinds, h]
    obtain ⟨ds', h1, h2, h3, h4, h5, h6, e, h7⟩ := hcall _ hr le_rfl
    refine ⟨ds', h1, h2, h3, by rw [h4]; exact List.drop_length, ?_, h5, h6⟩
    rw [h7]
    exact DecodeRoom.read (by rw [List.length_nil, Nat.zero_add]; exact hdec) e
  rcases y with _ | ⟨c, y⟩
  · rw [List.append_nil] at hy
    have hread : readBuf mem 0 p.length = f.beginFront := by rw [hmem, hy]
    obtain ⟨ds', h1, h2, h3, h4, h5, h6, h7⟩ :=
      hnone (snortStrnChr_none (fun c hc => (hheader c hc).1) hread)
    have hne : rest ≠ [] := by
      rintro rfl
      cases htext
    refine ⟨[], f.lines, ds', rfl, h1, h2, h3, h5, h7, fun h => absurd h hne,
      .inl ⟨h6, [chr '\n'], .inr ⟨rfl, h4⟩, ?_⟩⟩
    rw [h4]
    exact htext
  obtain ⟨rfl, htext'⟩ := List.cons.inj htext
  have hread : readBuf mem 0 p.length = f.beginFront ++ chr '\n' :: y := by rw [hmem, hy]
  have hfound := snortStrnChr_found hheader hread
  by_cases hy0 : y = []
  · rw [if_pos hy0] at hfound
    obtain ⟨ds', h1, h2, h3, h4, h5, h6, h7⟩ := hnone hfound
    rw [hy0] at htext'
    have hne : rest ≠ [] := by
      rintro rfl
      obtain ⟨c, t, ht, -⟩ := f.endsFile_tail
      rw [ht] at htext'
      exact absurd (congrArg List.length htext') (by simp)
    refine ⟨[], f.lines, ds', rfl, h1, h2, h3, h5, h7, fun h => absurd h hne,
      .inl ⟨h6, [], .inl rfl, ?_⟩⟩
    rw [h4]
    exact htext'
  · rw [if_neg hy0, Nat.zero_add] at hfound
    obtain ⟨-, hread2, hsize⟩ := readBuf_eq_append hread
    rw [Nat.zero_add] at hread2
    rw [List.length_cons] at hsize
    have hread3 : readBuf mem f.beginFront.length (p.length - f.beginFront.length) = [chr '\n'] ++ y := by
      rw [show p.length - f.beginFront.length = (chr '\n' :: y).length by rw [List.length_cons]; omega]
      exact hread2
    have hk : f.beginFront.length + 1 + y.length = p.length := by omega
    obtain ⟨a, b, left, ended, hab, hleft, hres, hend⟩ :=
      @uuResult_lines mem p.length ds.uuState.decodeAvail f.tail f.endsFile_tail f.lines
        f.beginFront.length (f.beginFront.length + 1) [chr '\n'] y rest (.inr rfl) hread3 (by omega)
        htext' (DecodeRoom.fits hdec (by omega)) (by rw [hk]; exact hcut)
    have hr : sfUudecode mem p.length ds.uuState.decodeAvail ds.beginFound ds.endFound =
        some ⟨if ended then p.length else p.length - left.length, linesData a, true, ended⟩ := by
      unfold sfUudecode
      rw [hb, he, if_neg (by omega), if_neg (by decide), if_neg (by omega), if_pos hfinds, hfound]
      exact congrArg some hres
    obtain ⟨ds', h1, h2, h3, h4, h5, h6, e, h7⟩ := hcall _ hr (by simp only; split <;> omega)
    refine ⟨a, b, ds', hab, h1, h2, h3, ?_, ?_⟩
    · rw [h7]
      rw [UuFile.data, hab, linesData_append, List.length_append] at hdec
      exact hdec.read e
    · have hsuff : left <:+ p := hleft.trans ⟨f.beginFront ++ [chr '\n'], by rw [← hy]; simp⟩
      exact going_of_left hsuff rfl hend h4 h5 h6

/-! ### Runs -/

/-- No boundary between packets parts the file badly; `m` bytes of it have come before. -/
def CutsWhole (f : UuFile) (m : ℕ) : List (List Byte) → Prop
  | [] => True
  | p :: ps => ¬f.Parted (m + p.length) ∧ CutsWhole f (m + p.length) ps

instance decidableCutsWhole (f : UuFile) :
    (m : ℕ) → (ps : List (List Byte)) → Decidable (CutsWhole f m ps)
  | _, [] => isTrue trivial
  | m, p :: ps =>
    have := decidableCutsWhole f (m + p.length) ps
    inferInstanceAs (Decidable (_ ∧ _))

theorem UuFile.length_text (f : UuFile) :
    f.text.length = f.beginFront.length + 1 + (linesText f.lines).length + f.tail.length := by
  rw [UuFile.text, List.length_append, List.length_cons, List.length_append]
  omega

theorem linesText_append (a b : List UuLine) : linesText (a ++ b) = linesText a ++ linesText b := by
  rw [linesText, List.map_append, List.flatten_append]
  rfl

theorem uu_run {f : UuFile} {ps : List (List Byte)} {done ls : List UuLine} {m : ℕ}
    (hps : ∀ p ∈ ps, p ≠ []) (hplaced : Placed ds) (hroom : Along uuDecode UuRoom ps ds)
    (hdec : DecodeRoom ds.uuState (linesData ls).length) (hlines : f.lines = done ++ ls)
    (hm : m + ps.flatten.length = f.text.length) (hcuts : CutsWhole f m ps)
    (hgo : Going f ls ps.flatten ds) : (decodeAll uuDecode ps ds).1 = linesData ls := by
  induction ps generalizing ds done ls m with
  | nil =>
    rw [hgo.2.1 rfl]
    rfl
  | cons p ps ih =>
    have hps' : ∀ p ∈ ps, p ≠ [] := fun p' hp' => hps p' (List.mem_cons_of_mem _ hp')
    obtain ⟨he, -, ⟨hb, pre, hpre, htext⟩ | ⟨hb, rfl, hlen⟩⟩ := hgo
    · have hpre' : (pre = [] ∨ pre = [chr '\n'] ∧ carry ds = []) := hpre
      obtain ⟨hcut, hcuts'⟩ := hcuts
      rw [List.flatten_cons] at htext hm
      have hlen := congrArg List.length htext
      have hlen' := f.length_text
      rw [hlines, linesText_append] at hlen'
      simp only [List.length_append] at hlen hlen' hm
      have hcut' : ¬Inside (f.beginFront.length + 1 + (linesText done).length) ls (m + p.length) := by
        intro h
        apply hcut
        rw [UuFile.Parted, hlines]
        exact .inr h.append
      obtain ⟨a, b, ds', rfl, h1, h2, h3, h4, h5⟩ :=
        @uuDecode_lines p ds f ls ps.flatten pre _ (m + p.length) (hps p List.mem_cons_self) hplaced
          hroom.1 hdec hb he hpre' htext (by rw [List.length_append]; omega) hcut'
      have hroom' : Along uuDecode UuRoom ps ds' := by
        have h := hroom.2
        rw [h1] at h
        exact h
      have hrest := @ih ds' (done ++ a) b (m + p.length) hps' h2 hroom' h4
        (by rw [List.append_assoc]; exact hlines) (by omega) hcuts' h5
      rw [decodeAll, h1, hrest, h3, linesData_append]
      rfl
    · exact uu_over hps hplaced hroom hdec hb he hlen

/-- **Packet boundaries in a uuencoded file.**  Where none of them is inside the first line, or inside a
line of data behind the characters that `sf_uudecode` waits for, the calls decode the file. -/
theorem uu_cut (f : UuFile) (p : List Byte) (ps : List (List Byte)) (ds : EmailDecodeState)
    (htext : (p :: ps).flatten = f.text) (hfirst : 5 ≤ p.length) (hps : ∀ p ∈ ps, p ≠ [])
    (hbytes : ds.prevEncodedBytes = 0) (hbegin : ds.beginFound = false) (hend : ds.endFound = false)
    (hroom : Along uuDecode UuRoom (p :: ps) ds) (hdec : DecodeRoom ds.uuState f.data.length)
    (hcuts : CutsWhole f 0 (p :: ps)) : (decodeAll uuDecode (p :: ps) ds).1 = f.data := by
  have hc : carry ds = [] := carry_of_zero hbytes
  obtain ⟨hcut, hcuts'⟩ := hcuts
  rw [Nat.zero_add] at hcut hcuts'
  rw [List.flatten_cons] at htext
  obtain ⟨a, b, ds', hab, h1, h2, h3, h4, h5⟩ :=
    uuDecode_first hfirst hc (placed_of_zero hbytes) hroom.1 hdec hbegin hend htext hcut
  have hroom' : Along uuDecode UuRoom ps ds' := by
    have h := hroom.2
    rw [h1] at h
    exact h
  have hrest := uu_run hps h2 hroom' h4 hab (by rw [← htext, List.length_append]) hcuts' h5
  rw [decodeAll, h1, hrest, h3, UuFile.data, hab, linesData_append]
  rfl

/-- `Cat` in a line of its own. -/
def catLine : UuLine :=
  ⟨bytes "Cat", [], chr '#', bytes "0V%T", true, by decide, by decide, by decide, by decide, by decide,
    by decide, by decide +kernel⟩

/-- `A`, with two bytes to fill up the group. -/
def letterLine : UuLine :=
  ⟨bytes "A", [0, 0], chr '!', bytes "00``", false, by decide, by decide, by decide, by decide, by decide,
    by decide, by decide +kernel⟩

/-- A file of both lines. -/
def catFile : UuFile :=
  ⟨bytes " 644 cat", [letterLine, catLine], bytes "`\n", bytes "\n", by decide, by decide, by decide⟩

theorem uu_cut_cat :
    (decodeAll uuDecode [bytes "begin 644 cat", bytes "\n!", bytes "00``\n#0V%", bytes "T\r\n`\ne",
      bytes "nd\n"] (setEmailDecodeState (fun _ => 7) 0 0 0)).1 = bytes "ACat" :=
  uu_cut catFile (bytes "begin 644 cat") [bytes "\n!", bytes "00``\n#0V%", bytes "T\r\n`\ne",
    bytes "nd\n"] (setEmailDecodeState (fun _ => 7) 0 0 0) (by decide +kernel) (by decide) (by decide)
    rfl rfl rfl (by decide +kernel) (by decide +kernel) (by decide +kernel)

/-- Behind the characters of the first line that stand for a byte, the next packet is read as a line. -/
theorem uu_cut_padding :
    [bytes "begin 644 cat\n!00`", bytes "`\n#0V%T\r\n`\nend\n"].flatten = catFile.text ∧
    Along uuDecode UuRoom [bytes "begin 644 cat\n!00`", bytes "`\n#0V%T\r\n`\nend\n"]
      (setEmailDecodeState (fun _ => 7) 0 0 0) ∧
    (decodeAll uuDecode [bytes "begin 644 cat\n!00`", bytes "`\n#0V%T\r\n`\nend\n"]
      (setEmailDecodeState (fun _ => 7) 0 0 0)).1 = bytes "A" ∧
    catFile.data = bytes "ACat" := by
  decide +kernel

end Snort.Email
