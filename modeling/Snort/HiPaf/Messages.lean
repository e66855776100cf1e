import Snort.HiPaf.Chunks

/-!
# Well-formed messages

* `Plain`, `Sized`, `Chunked`: the header blocks that tell where their message ends.
* `Framing`: the bytes of a message with such a header block.
* `Request`, `Response`: well-formed messages; a response knows whether a HEAD request asked for it.
* **`run_request`**, **`run_response`**: `hi_paf` selects their ends, and what it has flagged then.
-/

namespace Snort.HiPaf

open Scanner Framer

namespace HeaderBlock

variable (h : HeaderBlock)

/-- A header block that declares neither a length nor chunks. -/
def Plain : Prop := h.lengths = [] ∧ h.fields.any isChunked = false

/-- A header block that declares a length, in digits only. -/
def Sized (n : ℕ) : Prop :=
  (∃ blank v, h.lengths = [(blank, v)] ∧ (∀ c ∈ v, isdigit c = true) ∧ decimal v = n) ∧ n < 2 ^ 31 ∧
    h.fields.any isChunked = false

/-- A header block that declares chunks. -/
def Chunked : Prop := h.lengths = [] ∧ h.fields.any isChunked = true

end HeaderBlock

/-! ### Fields -/

theorem accumulate_ge (n : ℕ) (v : List Byte) : n ≤ accumulate n v := by
  have hpos : 1 ≤ 10 ^ v.length := Nat.one_le_pow _ _ (by norm_num)
  rw [accumulate_eq]
  nlinarith

theorem isdigit_fold : ∀ c, isdigit c = true → fold c = c ∧
    (dton c).toNat = c.toNat - (chr '0').toNat ∧ (dton c).toNat ≤ 9 := by
  decide +kernel

/-- Digits of a length that is not too large. -/
theorem foldl_digit {v : List Byte} (hv : ∀ c ∈ v, isdigit c = true) {s : HiState}
    (herr : s.flags.err = false) (hlt : accumulate s.len.toNat v < 2 ^ 31) :
    v.foldl digit s = { s with len := BitVec.ofNat 32 (accumulate s.len.toNat v) } := by
  induction v generalizing s with
  | nil =>
    show s = { s with len := BitVec.ofNat 32 s.len.toNat }
    rw [BitVec.ofNat_toNat, BitVec.setWidth_eq]
  | cons c v ih =>
    obtain ⟨hfold, hval, hnine⟩ := isdigit_fold c (hv c List.mem_cons_self)
    have hlt' : accumulate (10 * s.len.toNat + (c.toNat - (chr '0').toNat)) v < 2 ^ 31 := hlt
    have hge := accumulate_ge (10 * s.len.toNat + (c.toNat - (chr '0').toNat)) v
    have hsmall : s.len < 429496728 := by
      show s.len.toNat < 429496728
      omega
    have hdigit : digit s c = { s with len := 10 * s.len + dton c } := by
      unfold digit hiExec
      dsimp only
      rw [hfold, if_neg (by rw [herr]; nofun), if_pos ⟨hv c List.mem_cons_self, hsmall⟩]
    have hlen : (10 * s.len + dton c).toNat = 10 * s.len.toNat + (c.toNat - (chr '0').toNat) := by
      rw [BitVec.toNat_add, BitVec.toNat_mul, hval]
      show (10 * s.len.toNat % 2 ^ 32 + _) % 2 ^ 32 = _
      omega
    have htail := ih (s := { s with len := 10 * s.len + dton c })
      (fun c' hc' => hv c' (List.mem_cons_of_mem _ hc')) herr (by dsimp only; rw [hlen]; exact hlt')
    rw [List.foldl_cons, hdigit, htail]
    dsimp only
    rw [hlen]
    rfl

theorem foldl_applyField_nil {ls : List (List Byte)} (hls : ls.filterMap contentLength = [])
    (s : HiState) : ls.foldl applyField s =
      { s with flags := { s.flags with chk := s.flags.chk || ls.any isChunked } } := by
  induction ls generalizing s with
  | nil => simp
  | cons l ls ih =>
    cases h : contentLength l with
    | none =>
      rw [List.filterMap_cons_none h] at hls
      rw [List.foldl_cons, ih hls, applyField, h, List.any_cons]
      cases hl : isChunked l <;> simp [HiState.chunked]
    | some p =>
      rw [List.filterMap_cons_some h] at hls
      cases hls

theorem foldl_applyField_single {ls : List (List Byte)} {blank : Bool} {v : List Byte}
    (hls : ls.filterMap contentLength = [(blank, v)]) (hplain : ls.any isChunked = false)
    (s : HiState) : ls.foldl applyField s = applyLength s blank v := by
  induction ls with
  | nil => cases hls
  | cons l ls ih =>
    obtain ⟨hl, hplain⟩ := Bool.or_eq_false_iff.1 hplain
    cases h : contentLength l with
    | none =>
      rw [List.filterMap_cons_none h] at hls
      rw [List.foldl_cons, applyField_plain s h hl, ih hls hplain]
    | some p =>
      rw [List.filterMap_cons_some h, List.cons.injEq] at hls
      obtain ⟨rfl, hls⟩ := hls
      rw [List.foldl_cons, applyField_length s h, foldl_applyField_nil hls, hplain, Bool.or_false]

section Fields

variable {h : HeaderBlock} {s : HiState}

theorem applyFields_plain (hh : h.Plain) : h.fields.foldl applyField s = s := by
  rw [foldl_applyField_nil hh.1, hh.2, Bool.or_false]

theorem applyFields_chunked (hh : h.Chunked) : h.fields.foldl applyField s = s.chunked := by
  rw [foldl_applyField_nil hh.1, hh.2, Bool.or_true]
  rfl

theorem applyFields_sized {n : ℕ} (hh : h.Sized n) (hlen : s.len = 0) (herr : s.flags.err = false) :
    h.fields.foldl applyField s = { s.hasLen with len := BitVec.ofNat 32 n } := by
  obtain ⟨⟨blank, v, hl, hv, rfl⟩, hlt, hplain⟩ := hh
  have hif : (if blank then { s with len := 0 } else s : HiState) = s := by
    cases blank with
    | false => rfl
    | true => exact congrArg (fun n => { s with len := n }) hlen.symm
  have hzero : s.len.toNat = 0 := congrArg BitVec.toNat hlen
  have hdigits := foldl_digit hv herr (by rw [hzero]; exact hlt)
  rw [foldl_applyField_single hl hplain, applyLength, hif, hdigits, hzero]
  rfl

end Fields

/-! ### The end of the header block -/

section EndOfBlock

variable {t : HiState}

/-- The end of the header block of a response without a body. -/
theorem endOfBlock_bodyless (hpst : t.flags.pst = false)
    (hbody : t.flags.nob = true ∧ t.flags.rsp = true) :
    endOfBlock t = .inr (.flush, { t with msg := 0, len := 0 }, 0) := by
  have heoh : hiEoh t = (.flush, { t with len := 0 }) := by
    unfold hiEoh
    simp only [hpst, Bool.false_eq_true, false_and, if_false, hbody, and_self, or_true, if_true]
    rfl
  rw [endOfBlock, heoh]
  rfl

/-- The end of the header block of a request without a body. -/
theorem endOfBlock_plain (hpst : t.flags.pst = false) (herr : t.flags.err = false)
    (hchk : t.flags.chk = false) (hreq : t.flags.req = true) (hrsp : t.flags.rsp = false) :
    endOfBlock t = .inr (.flush, { t with msg := 0 }, t.len) := by
  have heoh : hiEoh t = (.flush, t) := by
    unfold hiEoh
    simp only [hpst, herr, hchk, hreq, hrsp, Bool.false_eq_true, false_and, and_false, or_self,
      true_or, if_false, if_true]
  rw [endOfBlock, heoh]
  rfl

end EndOfBlock

/-- A point behind the body, selected at the end of the header block. -/
theorem run_flushed {s t : HiState} {fp : BitVec 32} {x body : List Byte}
    (hrun : run scanByte s x = .stop (.flush, t, fp) x.length) (herr : t.flags.err = false)
    (hbody : fp.toNat = body.length) (hlt : body.length < 2 ^ 31) :
    run byteStep (.search s) (x ++ body) = .stop (.search t) (x ++ body).length := by
  have hverdict : verdictOf (.flush, t, fp) x.length = .flush t (x ++ body).length := by
    rw [List.length_append, Nat.add_comm, ← hbody]
    exact if_neg (not_or.2 ⟨by rw [herr]; nofun, by omega⟩)
  have hpos := (length_of_stop hrun).1
  rw [run_byteStep_stop (run_append_stop body hrun), hverdict]
  exact run_flush_stop t (by rw [List.length_append]; omega) le_rfl

/-- The state in front of the header lines, on what the start line leaves. -/
def HiState.inFields (u : HiState) : HiState := { u.sawEol with msg := 1 }

/-- The scan of a header block, on what the start line leaves. -/
theorem run_block {fromClient headReply : Bool} (h : HeaderBlock) {u : HiState}
    (hfeed : feed (messageStart fromClient headReply) (strip h.start) = u.at z9)
    (hv09 : u.flags.v09 = false) :
    run scanByte (messageStart fromClient headReply) h.bytes =
      ((endOfBlock ((h.fields.foldl applyField u.inFields).at z2)).elim
        (Outcome.more ·) fun r => .stop r 1).shift (h.bytes.length - 1) := by
  obtain ⟨hmsg, hheader, heol, hnof, -⟩ := messageStart_header fromClient headReply
  exact run_headerBlock h hmsg hheader heol hnof hfeed hv09

theorem run_block_stop {fromClient headReply : Bool} (h : HeaderBlock) {u : HiState}
    (hfeed : feed (messageStart fromClient headReply) (strip h.start) = u.at z9)
    (hv09 : u.flags.v09 = false) {r : PafStatus × HiState × BitVec 32}
    (hend : endOfBlock ((h.fields.foldl applyField u.inFields).at z2) = .inr r) :
    run scanByte (messageStart fromClient headReply) h.bytes = .stop r h.bytes.length := by
  have hpos := bytes_pos h
  rw [run_block h hfeed hv09, hend, Sum.elim_inr, Outcome.shift_stop]
  congr 1
  omega

/-! ### Messages -/

/-- The bytes of a message that has a body, and of one that has none. -/
inductive Framing : HeaderBlock → List Byte → Prop
  | plain {h : HeaderBlock} (hh : h.Plain) : Framing h h.bytes
  | sized {h : HeaderBlock} {body : List Byte} (hh : h.Sized body.length) :
    Framing h (h.bytes ++ body)
  | chunked (m : ChunkedMessage) (hh : m.head.Chunked) : Framing m.head m.bytes

/-- A chunked message, on what the start line leaves. -/
theorem run_chunked {fromClient headReply : Bool} (m : ChunkedMessage) {u : HiState}
    (hfeed : feed (messageStart fromClient headReply) (strip m.head.start) = u.at z9)
    (hv09 : u.flags.v09 = false) (herr : u.flags.err = false)
    (hbody : ¬ (u.flags.nob = true ∧ u.flags.rsp = true)) (hh : m.head.Chunked) :
    ∃ t, run byteStep (.search (messageStart fromClient headReply)) m.bytes =
      .stop (.search t) m.bytes.length ∧ t.msg = 3 ∧ t.flags.nob = u.flags.nob := by
  have hrun := run_block m.head hfeed hv09
  have hend : endOfBlock (u.inFields.chunked.at z2) = .inl (u.inFields.chunked.at z2).atChunks :=
    endOfBlock_chunked rfl herr hbody
  rw [applyFields_chunked hh, hend] at hrun
  obtain ⟨w, hw, hsw, hwnob⟩ := run_chunks (s := (u.inFields.chunked.at z2).atChunks)
    ⟨⟨rfl, rfl, herr, rfl, rfl, rfl, hbody⟩, rfl⟩ m.chunks
  obtain ⟨t, ht, hst, htnob⟩ := run_last hsw m
  refine ⟨t, ?_, hst.msg, htnob.trans hwnob⟩
  rw [ChunkedMessage.bytes, run_append_more _ (run_byteStep_more hrun), run_append_more _ hw, ht,
    Outcome.shift_stop, Outcome.shift_stop]
  congr 1
  simp only [List.length_append]
  omega

/-- What the method of a request declares. -/
def isHead (method : List Byte) : Bool := method.map fold = "HEAD".toList.map chr

/-- A method that must come with a length or with chunks. -/
def isPost (method : List Byte) : Bool := method.map fold = "POST".toList.map chr

/-- A well-formed request. -/
structure Request where
  head : HeaderBlock
  method : List Byte
  bytes : List Byte
  line : RequestLine method (strip head.start)
  framing : Framing head bytes
  post : isPost method = true → ¬ head.Plain

/-- A version of 1.0 or 1.1. -/
def KnownVersion (version : List Byte) : Prop :=
  version.map fold = "HTTP/1.0".toList.map chr ∨ version.map fold = "HTTP/1.1".toList.map chr

instance (version : List Byte) : Decidable (KnownVersion version) :=
  inferInstanceAs (Decidable (_ ∨ _))

/-- A well-formed response; `headReply` if a HEAD request asked for it.  If it has a body, its header
block tells where it ends. -/
structure Response (headReply : Bool) where
  head : HeaderBlock
  version : List Byte
  code : List Byte
  bytes : List Byte
  line : StatusLine version code (strip head.start)
  known : KnownVersion version
  declared : head.Plain ∨ (∃ n, head.Sized n) ∨ head.Chunked
  bodyless : (headReply || noBodyCode code) = true → bytes = head.bytes
  body : (headReply || noBodyCode code) = false → Framing head bytes ∧ ¬ head.Plain

def Request.isHead (r : Request) : Bool := HiPaf.isHead r.method

/-- The responses without a body: to a HEAD request, 1xx, 204 and 304. -/
def Response.noBody {headReply : Bool} (r : Response headReply) : Bool :=
  headReply || noBodyCode r.code

/-- The state behind a request line. -/
def behindMethod (method : List Byte) : HiState :=
  { hiReset true with
    flags := { (hiReset true).flags with nob := isHead method, pst := isPost method } }

theorem withMethod_eq (m : List Byte) : (hiReset true).withMethod m = behindMethod m := by
  unfold HiState.withMethod behindMethod isHead isPost
  by_cases hH : m.map fold = "HEAD".toList.map chr
  · have hP : m.map fold ≠ "POST".toList.map chr := by
      rw [hH]
      decide
    rw [if_pos hH, decide_eq_true hH, decide_eq_false hP]
    rfl
  · by_cases hP : m.map fold = "POST".toList.map chr
    · rw [if_neg hH, if_pos hP, decide_eq_true hP, decide_eq_false hH]
      rfl
    · rw [if_neg hH, if_neg hP, decide_eq_false hP, decide_eq_false hH]
      rfl

theorem feed_request (r : Request) :
    feed (messageStart true false) (strip r.head.start) = (behindMethod r.method).at z9 := by
  rw [← withMethod_eq]
  exact feed_requestLine (hiReset true) r.line (HeaderBlock.not_mem_strip r.head.start_eol)

/-- A message with a declared length that has a body, on what the start line leaves. -/
theorem run_sized {fromClient headReply : Bool} (h : HeaderBlock) {u : HiState} {body : List Byte}
    (hfeed : feed (messageStart fromClient headReply) (strip h.start) = u.at z9)
    (hv09 : u.flags.v09 = false) (herr : u.flags.err = false) (hlen : u.len = 0)
    (hchk : u.flags.chk = false) (hbody : ¬ (u.flags.nob = true ∧ u.flags.rsp = true))
    (hh : h.Sized body.length) :
    ∃ t, run byteStep (.search (messageStart fromClient headReply)) (h.bytes ++ body) =
      .stop (.search t) (h.bytes ++ body).length ∧ t.flags.nob = u.flags.nob := by
  have hfields := applyFields_sized (s := u.inFields) hh hlen herr
  have hif : ¬ (u.flags.err = true ∨ u.flags.nob = true ∧ u.flags.rsp = true) :=
    not_or.2 ⟨by rw [herr]; nofun, hbody⟩
  have hend := endOfBlock_length
    (t := HiState.at { u.inFields.hasLen with len := BitVec.ofNat 32 body.length } z2) rfl hchk
  rw [← hfields] at hend
  have hrun := run_block_stop h hfeed hv09 hend
  rw [hfields] at hrun
  have hlt := hh.2.1
  have hfp : (BitVec.ofNat 32 body.length).toNat = body.length := by
    rw [BitVec.toNat_ofNat]
    omega
  refine ⟨_, run_flushed hrun herr ?_ hlt, rfl⟩
  show (if u.flags.err = true ∨ u.flags.nob = true ∧ u.flags.rsp = true then 0
    else BitVec.ofNat 32 body.length : BitVec 32).toNat = _
  rw [if_neg hif, hfp]

/-- **The end of a request.** -/
theorem run_request (r : Request) :
    ∃ t, run byteStep (.search (hiReset true)) r.bytes = .stop (.search t) r.bytes.length ∧
      t.flags.nob = r.isHead := by
  obtain ⟨h, method, bytes, line, framing, post⟩ := r
  have hfeed := feed_request ⟨h, method, bytes, line, framing, post⟩
  show ∃ t : HiState, run byteStep (.search (messageStart true false)) bytes =
    .stop (.search t) bytes.length ∧ t.flags.nob = isHead method
  cases framing with
  | plain hh =>
    have hfields := applyFields_plain (s := (behindMethod method).inFields) hh
    have hpst : isPost method = false := Bool.eq_false_of_not_eq_true fun hp => post hp hh
    have hend := endOfBlock_plain (t := (behindMethod method).inFields.at z2) hpst rfl rfl rfl rfl
    rw [← hfields] at hend
    have hrun := run_block_stop h hfeed rfl hend
    rw [hfields] at hrun
    have hflushed := @run_flushed _ _ _ _ [] hrun rfl rfl (by decide)
    rw [List.append_nil] at hflushed
    exact ⟨_, hflushed, rfl⟩
  | sized hh => exact run_sized h hfeed rfl rfl rfl rfl nofun hh
  | chunked m hh =>
    obtain ⟨t, ht, -, hnob⟩ := run_chunked m hfeed rfl rfl nofun hh
    exact ⟨t, ht, hnob⟩

theorem noBody_of_known {version code : List Byte} (h : KnownVersion version) :
    HiPaf.noBody version code = noBodyCode code := by
  have hiff : HiPaf.noBody version code = true ↔ noBodyCode code = true := by
    unfold HiPaf.noBody
    rw [decide_eq_true_eq]
    exact and_iff_right h
  exact Bool.eq_iff_iff.2 hiff

/-- A response is taken to have no body: the branch of `hi_eoh` for `HIF_NOB`, at the end of the
headers. -/
def HiState.bodyless (t : HiState) : Bool := t.msg = 0 ∧ t.flags.nob = true ∧ t.flags.rsp = true

theorem bodyless_eq {t : HiState} (hmsg : t.msg = 0) (hrsp : t.flags.rsp = true) :
    t.bodyless = t.flags.nob := by
  have hiff : t.bodyless = true ↔ t.flags.nob = true := by
    unfold HiState.bodyless
    rw [decide_eq_true_eq]
    exact ⟨fun h => h.2.1, fun h => ⟨hmsg, h, hrsp⟩⟩
  exact Bool.eq_iff_iff.2 hiff

/-- **The end of a response.** -/
theorem run_response {headReply : Bool} (r : Response headReply) :
    ∃ t, run byteStep (.search (messageStart false headReply)) r.bytes =
      .stop (.search t) r.bytes.length ∧ t.bodyless = r.noBody := by
  obtain ⟨h, version, code, bytes, line, known, hdecl, hbodyless, hbody⟩ := r
  obtain ⟨v10, v11, hfeed⟩ := feed_statusLine (s := messageStart false headReply) rfl line
    (HeaderBlock.not_mem_strip h.start_eol)
  have hat : (messageStart false headReply).at z0 = messageStart false headReply := rfl
  rw [noBody_of_known known, hat] at hfeed
  generalize hu : (messageStart false headReply).withStatus v10 v11 (noBodyCode code) = u at hfeed
  have hnob : u.flags.nob = (headReply || noBodyCode code) := by
    rw [← hu]
    rfl
  have hfacts : u.flags.v09 = false ∧ u.flags.err = false ∧ u.len = 0 ∧ u.flags.chk = false ∧
      u.flags.pst = false ∧ u.flags.rsp = true := by
    rw [← hu]
    exact ⟨rfl, rfl, rfl, rfl, rfl, rfl⟩
  obtain ⟨hv09, herr, hlen, hchk, hpst, hrsp⟩ := hfacts
  show ∃ t : HiState, run byteStep (.search (messageStart false headReply)) bytes =
    .stop (.search t) bytes.length ∧ t.bodyless = (headReply || noBodyCode code)
  generalize (headReply || noBodyCode code) = b at *
  cases b with
  | true =>
    have hfields : ∃ w : HiState, h.fields.foldl applyField u.inFields = w ∧ w.flags.pst = false ∧
        w.flags.nob = true ∧ w.flags.rsp = true ∧ w.flags.err = false := by
      rcases hdecl with hh | ⟨n, hh⟩ | hh
      · exact ⟨_, applyFields_plain hh, hpst, hnob, hrsp, herr⟩
      · exact ⟨_, applyFields_sized hh hlen herr, hpst, hnob, hrsp, herr⟩
      · exact ⟨_, applyFields_chunked hh, hpst, hnob, hrsp, herr⟩
    obtain ⟨w, hw, hwpst, hwnob, hwrsp, hwerr⟩ := hfields
    have hend := endOfBlock_bodyless (t := w.at z2) hwpst ⟨hwnob, hwrsp⟩
    rw [← hw] at hend
    have hrun := run_block_stop h hfeed hv09 hend
    rw [hw] at hrun
    have hflushed := @run_flushed _ _ _ _ [] hrun hwerr rfl (by decide)
    rw [List.append_nil] at hflushed
    have hend : ({ w.at z2 with msg := 0, len := 0 } : HiState).bodyless = w.flags.nob :=
      bodyless_eq rfl hwrsp
    rw [hbodyless rfl]
    exact ⟨_, hflushed, hend.trans hwnob⟩
  | false =>
    obtain ⟨hframing, hplain⟩ := hbody rfl
    have hno : ¬ (u.flags.nob = true ∧ u.flags.rsp = true) := by
      rw [hnob]
      exact fun h => nomatch h.1
    have hnot : ∀ t : HiState, t.flags.nob = u.flags.nob → t.bodyless = false := fun t ht =>
      decide_eq_false fun h => by
        rw [ht, hnob] at h
        exact nomatch h.2.1
    cases hframing with
    | plain hh => exact absurd hh hplain
    | sized hh =>
      obtain ⟨t, ht, hnob'⟩ := run_sized h hfeed hv09 herr hlen hchk hno hh
      exact ⟨t, ht, hnot t hnob'⟩
    | chunked m hh =>
      obtain ⟨t, ht, -, hnob'⟩ := run_chunked m hfeed hv09 herr hno hh
      exact ⟨t, ht, hnot t hnob'⟩

end Snort.HiPaf
