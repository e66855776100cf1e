import Snort.HiPaf.Block

/-!
# Messages with a declared length

* `applyFields`: what the fields of a header block do to the state.
* `declared`: the length that the last Content-Length line declares; `accumulated`: the length that
  the table makes of all of them.
* **`hiPaf_contentLength`**: where a message with a declared length ends.
-/

namespace Snort.HiPaf

open Scanner

/-! ### Fields and flags -/

theorem applyLength_flags (s : HiState) (blank : Bool) (v : List Byte) :
    ∃ n e, applyLength s blank v =
      { s with len := n, flags := { s.flags with len := true, err := s.flags.err || e } } := by
  have hdigit : ∀ (t : HiState) (c : Byte), ∃ n e, digit t c =
      { t with len := n, flags := { t.flags with err := t.flags.err || e } } := by
    intro t c
    unfold digit hiExec
    dsimp only
    by_cases herr : t.flags.err = true
    · rw [if_pos herr]
      exact ⟨t.len, false, by rw [Bool.or_false]⟩
    · by_cases hc : isdigit (fold c) = true ∧ t.len < 429496728
      · rw [if_neg herr, if_pos hc]
        exact ⟨_, false, by rw [Bool.or_false]⟩
      · rw [if_neg herr, if_neg hc]
        exact ⟨t.len, true, by rw [Bool.or_true]⟩
  have hfold : ∀ (v : List Byte) (t : HiState), ∃ n e, v.foldl digit t =
      { t with len := n, flags := { t.flags with err := t.flags.err || e } } := by
    intro v
    induction v with
    | nil => exact fun t => ⟨t.len, false, by rw [Bool.or_false]; rfl⟩
    | cons c v ih =>
      intro t
      obtain ⟨n, e, hc⟩ := hdigit t c
      obtain ⟨n', e', hv⟩ := ih (digit t c)
      refine ⟨n', e || e', ?_⟩
      rw [List.foldl_cons, hv, hc, Bool.or_assoc]
  obtain ⟨n, e, h⟩ := hfold v (if blank = true then { s with len := 0 } else s)
  refine ⟨n, e, ?_⟩
  rw [applyLength, h]
  cases blank <;> rfl

theorem contentLength_of_isChunked {l : List Byte} (h : isChunked l = true) :
    contentLength l = none := by
  cases l with
  | nil => rfl
  | cons c l =>
    by_cases hc : fold c = chr 'C'
    · rw [isChunked_cons_c l hc] at h
      cases h
    · exact contentLength_cons l hc

theorem applyField_length (s : HiState) {l v : List Byte} {blank : Bool}
    (h : contentLength l = some (blank, v)) : applyField s l = applyLength s blank v := by
  rw [applyField, h]

theorem applyField_plain (s : HiState) {l : List Byte} (h : contentLength l = none)
    (hchk : isChunked l = false) : applyField s l = s := by
  rw [applyField, h]
  show (if isChunked l = true then s.chunked else s) = s
  rw [hchk]
  rfl

/-- What a field leaves of the flags. -/
theorem applyField_flags (s : HiState) (l : List Byte) :
    ∃ n e, applyField s l =
      { s with
        len := n
        flags := { s.flags with
          len := s.flags.len || (contentLength l).isSome
          chk := s.flags.chk || isChunked l
          err := s.flags.err || e } } := by
  have hchk := contentLength_of_isChunked (l := l)
  unfold applyField
  cases h : contentLength l with
  | none =>
    refine ⟨s.len, false, ?_⟩
    cases isChunked l <;> simp [HiState.chunked]
  | some p =>
    obtain ⟨n, e, hlen⟩ := applyLength_flags s p.1 p.2
    have hno : isChunked l = false := Bool.eq_false_of_not_eq_true fun hc => by
      rw [hchk hc] at h
      cases h
    refine ⟨n, e, ?_⟩
    simp [hlen, hno]

/-- What the fields of a header block leave of the flags. -/
theorem applyFields_flags (s : HiState) (ls : List (List Byte)) :
    ∃ n e, ls.foldl applyField s =
      { s with
        len := n
        flags := { s.flags with
          len := s.flags.len || ls.any fun l => (contentLength l).isSome
          chk := s.flags.chk || ls.any isChunked
          err := s.flags.err || e } } := by
  induction ls generalizing s with
  | nil => exact ⟨s.len, false, by simp⟩
  | cons l ls ih =>
    obtain ⟨n, e, hl⟩ := applyField_flags s l
    obtain ⟨n', e', hls⟩ := ih (applyField s l)
    refine ⟨n', e || e', ?_⟩
    rw [List.foldl_cons, hls, hl]
    simp only [List.any_cons, Bool.or_assoc]

/-! ### Lengths -/

/-- Decimal digits behind a number that is there before. -/
def accumulate (n : ℕ) (v : List Byte) : ℕ :=
  v.foldl (fun n c => 10 * n + (c.toNat - (chr '0').toNat)) n

/-- A decimal number. -/
def decimal (v : List Byte) : ℕ := accumulate 0 v

theorem accumulate_eq (n : ℕ) (v : List Byte) : accumulate n v = n * 10 ^ v.length + decimal v := by
  induction v using List.reverseRecOn with
  | nil => exact (Nat.mul_one n).symm
  | append_singleton v c ih =>
    unfold decimal accumulate at ih ⊢
    rw [List.foldl_append, List.foldl_append, ih, List.length_append, List.length_singleton]
    show 10 * _ + _ = _ + (10 * _ + _)
    ring

/-- The Content-Length lines of a header block: whether there is a blank behind the colon, and the
value. -/
def HeaderBlock.lengths (h : HeaderBlock) : List (Bool × List Byte) :=
  h.fields.filterMap contentLength

/-- The length that the last Content-Length line declares. -/
def declared (lengths : List (Bool × List Byte)) : ℕ :=
  (lengths.getLast?.map fun p => decimal p.2).getD 0

/-- The length that the table makes of the Content-Length lines; the last one comes first. -/
def accumulated : List (Bool × List Byte) → ℕ
  | [] => 0
  | (blank, v) :: earlier => accumulate (if blank then 0 else accumulated earlier) v

/-- No digits are left from the lines before; the last one comes first. -/
def Cleared : List (Bool × List Byte) → Bool
  | [] => true
  | (blank, v) :: earlier => (blank || Cleared earlier) && decimal v = 0

theorem accumulated_eq_zero (earlier : List (Bool × List Byte)) :
    accumulated earlier = 0 ↔ Cleared earlier = true := by
  induction earlier with
  | nil => exact ⟨fun _ => rfl, fun _ => rfl⟩
  | cons p earlier ih =>
    obtain ⟨blank, v⟩ := p
    have hpos : 10 ^ v.length ≠ 0 := by positivity
    rw [accumulated, accumulate_eq, Cleared, Nat.add_eq_zero_iff, Nat.mul_eq_zero, Bool.and_eq_true,
      Bool.or_eq_true, ← ih, decide_eq_true_eq]
    cases blank <;> simp

/-- No digits are left for the last Content-Length line. -/
def Fresh (lengths : List (Bool × List Byte)) : Bool :=
  match lengths.reverse with
  | [] => true
  | (blank, _) :: earlier => blank || Cleared earlier

theorem accumulated_eq_declared (lengths : List (Bool × List Byte)) :
    accumulated lengths.reverse = declared lengths ↔ Fresh lengths = true := by
  induction lengths using List.reverseRecOn with
  | nil => exact ⟨fun _ => rfl, fun _ => rfl⟩
  | append_singleton lengths p ih =>
    obtain ⟨blank, v⟩ := p
    have hpos : 10 ^ v.length ≠ 0 := by positivity
    have hdeclared : declared (lengths ++ [(blank, v)]) = decimal v := by simp [declared]
    have hrev : (lengths ++ [(blank, v)]).reverse = (blank, v) :: lengths.reverse := by simp
    rw [hdeclared, Fresh, hrev, accumulated, accumulate_eq]
    show _ ↔ (blank || Cleared lengths.reverse) = true
    rw [Nat.add_eq_right, Nat.mul_eq_zero, Bool.or_eq_true, ← accumulated_eq_zero]
    cases blank <;> simp

theorem declared_le_accumulated (lengths : List (Bool × List Byte)) :
    declared lengths ≤ accumulated lengths.reverse := by
  induction lengths using List.reverseRecOn with
  | nil => exact le_rfl
  | append_singleton lengths p ih =>
    have hdeclared : declared (lengths ++ [p]) = decimal p.2 := by simp [declared]
    have hrev : (lengths ++ [p]).reverse = p :: lengths.reverse := by simp
    rw [hdeclared, hrev, accumulated, accumulate_eq]
    exact Nat.le_add_left _ _

theorem digit_spec {s : HiState} {c : Byte} (h : (digit s c).flags.err = false) :
    s.flags.err = false ∧
      (digit s c).len.toNat = 10 * s.len.toNat + (c.toNat - (chr '0').toNat) := by
  have hval : ∀ c, isdigit (fold c) = true →
      (dton (fold c)).toNat = c.toNat - (chr '0').toNat ∧ (dton (fold c)).toNat ≤ 9 := by
    decide +kernel
  unfold digit hiExec at h ⊢
  dsimp only at h ⊢
  by_cases herr : s.flags.err = true
  · rw [if_pos herr, herr] at h
    cases h
  · by_cases hc : isdigit (fold c) = true ∧ s.len < 429496728
    · obtain ⟨hdigit, hlt⟩ := hc
      obtain ⟨hd, hd9⟩ := hval c hdigit
      have hlt' : s.len.toNat < 429496728 := hlt
      refine ⟨Bool.eq_false_of_not_eq_true herr, ?_⟩
      rw [if_neg herr, if_pos ⟨hdigit, hlt⟩]
      show (10 * s.len + dton (fold c)).toNat = _
      rw [BitVec.toNat_add, BitVec.toNat_mul, ← hd]
      show (10 * s.len.toNat % 2 ^ 32 + (dton (fold c)).toNat) % 2 ^ 32 = _
      omega
    · rw [if_neg herr, if_neg hc] at h
      cases h

theorem digits_spec {v : List Byte} : ∀ {s : HiState}, (v.foldl digit s).flags.err = false →
    s.flags.err = false ∧ (v.foldl digit s).len.toNat = accumulate s.len.toNat v := by
  induction v with
  | nil => exact fun h => ⟨h, rfl⟩
  | cons c v ih =>
    intro s h
    obtain ⟨hc, hlen⟩ := ih (s := digit s c) h
    obtain ⟨hs, hdigit⟩ := digit_spec hc
    refine ⟨hs, ?_⟩
    rw [List.foldl_cons, hlen, hdigit]
    rfl

theorem lengths_spec {s : HiState} {ls : List (List Byte)}
    (hplain : ∀ l ∈ ls, isChunked l = false) (herr : (ls.foldl applyField s).flags.err = false)
    (hs : s.len = 0) :
    (ls.foldl applyField s).len.toNat = accumulated (ls.filterMap contentLength).reverse := by
  induction ls using List.reverseRecOn with
  | nil => rw [List.foldl_nil, hs]; rfl
  | append_singleton ls l ih =>
    have hl := hplain l (List.mem_append_right _ (List.mem_singleton_self l))
    rw [List.foldl_append, List.foldl_cons, List.foldl_nil] at herr ⊢
    rw [List.filterMap_append, List.reverse_append]
    have ih := ih fun l' hl' => hplain l' (List.mem_append_left _ hl')
    cases h : contentLength l with
    | none =>
      rw [applyField_plain _ h hl] at herr ⊢
      rw [List.filterMap_cons_none h]
      exact ih herr
    | some p =>
      obtain ⟨blank, v⟩ := p
      rw [applyField_length _ h] at herr ⊢
      rw [List.filterMap_cons_some h]
      obtain ⟨hs', hlen⟩ := digits_spec (v := v) herr
      refine hlen.trans ?_
      show _ = accumulate (if blank = true then 0 else accumulated _) v
      cases blank with
      | false => exact congrArg (accumulate · v) (ih hs')
      | true => rfl

/-! ### Messages -/

/-- The start line of a message, with whether it declares that there is no body. -/
inductive StartLine : Bool → List Byte → Bool → Prop
  | request {method l : List Byte} (h : RequestLine method l) : StartLine true l false
  | status {version code l : List Byte} (h : StatusLine version code l) :
    StartLine false l (noBody version code)

/-- The state at the start of a message; `headReply` if it is the reply to a HEAD request. -/
def messageStart (fromClient headReply : Bool) : HiState :=
  if fromClient then hiReset true
  else { hiReset false with flags := { (hiReset false).flags with nob := headReply } }

/-- What is known behind the start line of a message. -/
structure Started (fromClient bodyless : Bool) (u : HiState) : Prop where
  len : u.len = 0
  req : u.flags.req = fromClient
  rsp : u.flags.rsp = !fromClient
  nob : fromClient = false → u.flags.nob = bodyless
  length : u.flags.len = false
  chk : u.flags.chk = false
  v09 : u.flags.v09 = false
  err : u.flags.err = false

theorem feed_startLine {fromClient bodyless : Bool} (headReply : Bool) {l : List Byte}
    (hl : StartLine fromClient l bodyless) (heol : eol ∉ l) :
    ∃ u, feed (messageStart fromClient headReply) l = u.at z9 ∧
      Started fromClient (headReply || bodyless) u := by
  cases hl with
  | @request method l h =>
    refine ⟨(hiReset true).withMethod method, feed_requestLine (hiReset true) h heol, ?_⟩
    unfold HiState.withMethod
    split_ifs <;> exact ⟨rfl, rfl, rfl, nofun, rfl, rfl, rfl, rfl⟩
  | @status version code l h =>
    obtain ⟨v10, v11, hfeed⟩ := feed_statusLine (s := messageStart false headReply) rfl h heol
    exact ⟨_, hfeed, rfl, rfl, rfl, fun _ => rfl, rfl, rfl, rfl, rfl⟩

theorem messageStart_header (fromClient headReply : Bool) :
    (messageStart fromClient headReply).msg = 0 ∧ Header (messageStart fromClient headReply).fsm ∧
      (messageStart fromClient headReply).flags.eol = false ∧
      (messageStart fromClient headReply).flags.nof = false ∧
      (messageStart fromClient headReply).flags.err = false := by
  have hz0 : Header z0 := by decide
  have hz1 : Header z1 := by decide
  cases fromClient with
  | false => exact ⟨rfl, hz0, rfl, rfl, rfl⟩
  | true => exact ⟨rfl, hz1, rfl, rfl, rfl⟩

/-- The end of a header block that declares a length. -/
theorem endOfBlock_length {t : HiState} (hlen : t.flags.len = true) (hchk : t.flags.chk = false) :
    endOfBlock t = .inr (.flush,
      { t with
        msg := 0
        len := if t.flags.err = true ∨ t.flags.nob = true ∧ t.flags.rsp = true then 0 else t.len },
      if t.flags.err = true ∨ t.flags.nob = true ∧ t.flags.rsp = true then 0 else t.len) := by
  have heoh : hiEoh t = (.flush, { t with
      len := if t.flags.err = true ∨ t.flags.nob = true ∧ t.flags.rsp = true then 0 else t.len }) := by
    unfold hiEoh
    simp only [hlen, hchk, or_true, not_true_eq_false, and_false, if_false, if_true,
      Bool.false_eq_true]
    split_ifs <;> rfl
  unfold endOfBlock
  rw [heoh]
  rfl

theorem bytes_pos (h : HeaderBlock) : 0 < h.bytes.length := by
  rw [h.bytes_eq]
  simp only [List.length_append, List.length_singleton]
  omega

/-- A header block whose end is the end of the message. -/
theorem hiPaf_of_endOfBlock {fromClient headReply bodyless : Bool} {hip : Option HiState}
    (peer : Option HiState) (h : HeaderBlock) (rest : List Byte)
    (hstart : startState fromClient hip = messageStart fromClient headReply) {u : HiState}
    (hfeed : feed (messageStart fromClient headReply) (strip h.start) = u.at z9)
    (hu : Started fromClient bodyless u) {r : PafStatus × HiState × BitVec 32}
    (hend : endOfBlock ((h.fields.foldl applyField { u.sawEol with msg := 1 }).at z2) = .inr r) :
    hiPaf fromClient hip peer (h.bytes ++ rest) =
      selectPoint fromClient (h.bytes ++ rest).length h.bytes.length r peer := by
  obtain ⟨hmsg, hheader, heol, hnof, hserr⟩ := messageStart_header fromClient headReply
  have hrun := run_headerBlock h hmsg hheader heol hnof hfeed hu.v09
  have hpos : 1 + (h.bytes.length - 1) = h.bytes.length := by
    have := bytes_pos h
    omega
  rw [hend, Sum.elim_inr, Outcome.shift_stop, hpos, ← hstart] at hrun
  rw [hiPaf_eq fromClient hip peer _ (hstart ▸ hserr), run_append_stop rest hrun]
  rfl

/-- What `hi_paf` returns on a message with a declared length. -/
theorem hiPaf_length {fromClient headReply bodyless : Bool} {hip : Option HiState}
    (peer : Option HiState) (h : HeaderBlock) (rest : List Byte)
    (hstart : startState fromClient hip = messageStart fromClient headReply)
    (hline : StartLine fromClient (strip h.start) bodyless)
    (hplain : ∀ l ∈ h.fields, isChunked l = false) (hlen : h.lengths ≠ [])
    (herr : (hiPaf fromClient hip peer (h.bytes ++ rest)).state.flags.err = false) :
    accumulated h.lengths.reverse < 2 ^ 32 ∧
      (hiPaf fromClient hip peer (h.bytes ++ rest)).paf = .flush ∧
      (hiPaf fromClient hip peer (h.bytes ++ rest)).fp = BitVec.ofNat 32 (h.bytes.length +
        if fromClient = false ∧ (headReply || bodyless) = true then 0
        else accumulated h.lengths.reverse) := by
  obtain ⟨u, hfeed, hu⟩ := feed_startLine headReply hline
    (HeaderBlock.not_mem_strip h.start_eol)
  obtain ⟨n, e, ht⟩ := applyFields_flags { u.sawEol with msg := 1 } h.fields
  have hspec := lengths_spec (s := { u.sawEol with msg := 1 }) hplain
  have hcl : (h.fields.foldl applyField { u.sawEol with msg := 1 }).flags.len = true := by
    obtain ⟨p, hp⟩ := List.exists_mem_of_ne_nil _ hlen
    obtain ⟨l, hl, hcl⟩ := List.mem_filterMap.1 hp
    have hany : (h.fields.any fun l => (contentLength l).isSome) = true :=
      List.any_eq_true.2 ⟨l, hl, Option.isSome_iff_exists.2 ⟨p, hcl⟩⟩
    rw [ht, hany]
    exact Bool.or_true _
  have hchk : (h.fields.foldl applyField { u.sawEol with msg := 1 }).flags.chk = false := by
    have hany : h.fields.any isChunked = false :=
      List.any_eq_false.2 fun l hl => Bool.not_eq_true _ ▸ hplain l hl
    rw [ht, hany]
    exact (Bool.or_false _).trans hu.chk
  rw [hiPaf_of_endOfBlock peer h rest hstart hfeed hu (endOfBlock_length hcl hchk)] at herr ⊢
  have hnob : (h.fields.foldl applyField { u.sawEol with msg := 1 }).flags.nob = u.flags.nob := by
    rw [ht]
    rfl
  have hrsp : (h.fields.foldl applyField { u.sawEol with msg := 1 }).flags.rsp = u.flags.rsp := by
    rw [ht]
    rfl
  generalize h.fields.foldl applyField { u.sawEol with msg := 1 } = t at *
  by_cases hterr : t.flags.err = true
  · rw [selectPoint_of_err hterr] at herr
    exact absurd (hterr.symm.trans herr) Bool.noConfusion
  · have hacc := hspec (Bool.eq_false_of_not_eq_true hterr) hu.len
    have hbody : t.flags.err = true ∨ t.flags.nob = true ∧ t.flags.rsp = true ↔
        fromClient = false ∧ (headReply || bodyless) = true := by
      have hnob' := hu.nob
      rw [hnob, hrsp, hu.rsp, Bool.not_eq_true']
      constructor
      · rintro (h | ⟨h, hc⟩)
        · exact absurd h hterr
        · exact ⟨hc, (hnob' hc).symm.trans h⟩
      · rintro ⟨hc, h⟩
        exact Or.inr ⟨(hnob' hc).trans h, hc⟩
    refine ⟨hacc ▸ t.len.isLt, selectPoint_paf, ?_⟩
    rw [selectPoint_of_not_err]
    · show (if t.flags.err = true ∨ t.flags.nob = true ∧ t.flags.rsp = true then 0 else t.len) +
        BitVec.ofNat 32 h.bytes.length = _
      rw [BitVec.ofNat_add, BitVec.add_comm]
      congr 1
      by_cases hb : fromClient = false ∧ (headReply || bodyless) = true
      · rw [if_pos (hbody.2 hb), if_pos hb]
        rfl
      · rw [if_neg fun h => hb (hbody.1 h), if_neg hb, HeaderBlock.lengths, ← hacc,
          BitVec.ofNat_toNat, BitVec.setWidth_eq]
    · exact hterr

/-- Exactly when a message that has a body ends the declared length behind its header block. -/
theorem hiPaf_length_iff {fromClient headReply bodyless : Bool} {hip : Option HiState}
    (peer : Option HiState) (h : HeaderBlock) (rest : List Byte)
    (hstart : startState fromClient hip = messageStart fromClient headReply)
    (hline : StartLine fromClient (strip h.start) bodyless)
    (hplain : ∀ l ∈ h.fields, isChunked l = false) (hlen : h.lengths ≠ [])
    (herr : (hiPaf fromClient hip peer (h.bytes ++ rest)).state.flags.err = false)
    (hbody : ¬ (fromClient = false ∧ (headReply || bodyless) = true)) :
    (hiPaf fromClient hip peer (h.bytes ++ rest)).fp.toNat = h.bytes.length + declared h.lengths ↔
      Fresh h.lengths = true ∧ h.bytes.length + declared h.lengths < 2 ^ 32 := by
  obtain ⟨hlt, -, hfp⟩ := hiPaf_length peer h rest hstart hline hplain hlen herr
  rw [hfp, if_neg hbody, BitVec.toNat_ofNat, ← accumulated_eq_declared]
  have hle := declared_le_accumulated h.lengths
  omega

end Snort.HiPaf
