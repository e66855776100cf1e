import Snort.HttpInspect.Norm

/-!
# The parameter field: `norm_state->param`

Behind a `?` the URI is no longer a path, and `hi_norm_uri` is to copy it.

* `collapse`: a text with the slashes that `multiple_slash` collapses;
* `paramStart`: where `hi_norm_uri` is when it has written the first `?`;
* `Kept`: from there on nothing is removed and nothing erased;
* `harmless`: nothing in the parameters is taken for a path;
* `normLoop_step`: what one round of the loop does to the text that is left;
* **`param_kept_iff`**: when the parameters are kept.
-/

namespace Snort.HttpInspect

open HiPaf (Byte chr)

/-! ### Slashes -/

/-- A text, where `multi` tells if one slash is left of several in a row. -/
def collapse (multi : Bool) : List Byte → List Byte
  | [] => []
  | [a] => [a]
  | a :: b :: l =>
    if multi ∧ a = chr '/' ∧ b = chr '/' then collapse multi (b :: l)
    else a :: collapse multi (b :: l)

variable {multi : Bool}

@[simp] theorem collapse_nil : collapse multi [] = [] := rfl

theorem collapse_slashes (h : multi = true) (l : List Byte) :
    collapse multi (chr '/' :: chr '/' :: l) = collapse multi (chr '/' :: l) :=
  if_pos ⟨h, rfl, rfl⟩

theorem collapse_cons {c : Byte} {l : List Byte}
    (h : ¬(multi = true ∧ c = chr '/' ∧ l.head? = some (chr '/'))) :
    collapse multi (c :: l) = c :: collapse multi l := by
  cases l with
  | nil => rfl
  | cons d l => exact if_neg (by simpa using h)

theorem collapse_cons_of_ne {c : Byte} (hc : c ≠ chr '/') (l : List Byte) :
    collapse multi (c :: l) = c :: collapse multi l :=
  collapse_cons fun h => hc h.2.1

theorem collapse_off {l : List Byte} : collapse false l = l := by
  induction l with
  | nil => rfl
  | cons c l ih => rw [collapse_cons (by simp), ih]

/-- A slash and a character that `DirNorm` returns behind it. -/
theorem collapse_slash {c : Byte} (h : ¬(multi = true ∧ c = chr '/')) (l : List Byte) :
    collapse multi (chr '/' :: c :: l) = chr '/' :: c :: collapse multi l := by
  have hfirst : collapse multi (chr '/' :: c :: l) = chr '/' :: collapse multi (c :: l) :=
    collapse_cons fun hc => h ⟨hc.1, Option.some.inj hc.2.2⟩
  have hsecond : collapse multi (c :: l) = c :: collapse multi l :=
    collapse_cons fun hc => h ⟨hc.1, hc.2.1⟩
  rw [hfirst, hsecond]

/-- The first slash stays. -/
theorem slash_prefix_collapse (l : List Byte) : [chr '/'] <+: collapse multi (chr '/' :: l) := by
  induction l with
  | nil => exact List.prefix_rfl
  | cons d l ih =>
    rw [collapse]
    split
    next h =>
      obtain ⟨-, -, rfl⟩ := h
      exact ih
    next h => exact List.prefix_append [chr '/'] _

/-! ### `DirNorm` -/

variable {conf : HttpInspectConf} {param : Bool} {p q : List Byte}

/-- How many characters a call of `DirNorm` leads to. -/
def Dir.written : Dir → ℕ
  | .endOfBuffer => 1
  | .char _ => 2
  | .dirTrav => 0

/-- In the parameter field only slashes are passed over. -/
theorem dirNorm_param (conf : HttpInspectConf) (p : List Byte) :
    ((dirNorm conf true p).1 = .endOfBuffer ∧
      collapse conf.multipleSlash (chr '/' :: decodeAll conf p) = [chr '/'] ∧
      decodeAll conf (dirNorm conf true p).2 = []) ∨
    ∃ c, (dirNorm conf true p).1 = .char c ∧
      collapse conf.multipleSlash (chr '/' :: decodeAll conf p) =
        chr '/' :: c :: collapse conf.multipleSlash (decodeAll conf (dirNorm conf true p).2) := by
  fun_induction dirNorm conf true p with
  | case1 p hp =>
    rw [decodeAll_none hp]
    exact Or.inl ⟨rfl, rfl, rfl⟩
  | case2 p c q hp hc ih =>
    obtain ⟨hmulti, rfl⟩ := hc
    rw [decodeAll_some hp, collapse_slashes hmulti]
    exact ih
  | case3 p c q hp _ hdot | case4 p c q hp _ hdot | case5 p c q hp _ hdot
  | case6 p c q hp _ hdot | case7 p c q hp _ hdot => exact absurd rfl hdot.2.2
  | case8 p c q hp hc =>
    rw [decodeAll_some hp, collapse_slash hc]
    exact Or.inr ⟨c, rfl, rfl⟩

theorem dirNorm_param_written (conf : HttpInspectConf) (p : List Byte) :
    (dirNorm conf true p).1.written +
        (collapse conf.multipleSlash (decodeAll conf (dirNorm conf true p).2)).length =
      (collapse conf.multipleSlash (chr '/' :: decodeAll conf p)).length := by
  obtain ⟨hend, htext, hrest⟩ | ⟨c, hchar, htext⟩ := dirNorm_param conf p
  · rw [hend, htext, hrest]
    rfl
  · rw [hchar, htext, List.length_cons, List.length_cons, Dir.written]
    omega

/-- Elsewhere `DirNorm` does the same, or it takes some characters away. -/
theorem dirNorm_written (conf : HttpInspectConf) (param : Bool) (p : List Byte) :
    dirNorm conf param p = dirNorm conf true p ∨
      (dirNorm conf param p).1.written +
          (collapse conf.multipleSlash (decodeAll conf (dirNorm conf param p).2)).length <
        (collapse conf.multipleSlash (chr '/' :: decodeAll conf p)).length := by
  have hchar : ∀ {p q : List Byte} {c : Byte}, getDecodedByte conf p = some (c, q) →
      ¬(conf.multipleSlash = true ∧ c = chr '/') → dirNorm conf true p = (.char c, q) :=
    fun hp hc => dirNorm_char hp hc (Or.inl (by simp))
  have hdot : ∀ l, collapse conf.multipleSlash (chr '/' :: chr '.' :: l) =
      chr '/' :: chr '.' :: collapse conf.multipleSlash l :=
    collapse_slash fun h => absurd h.2 (by decide)
  fun_induction dirNorm conf param p with
  | case1 p hp => exact Or.inl (dirNorm_none hp).symm
  | case2 p c q hp hc ih =>
    obtain ⟨hmulti, rfl⟩ := hc
    rw [dirNorm_slash hmulti hp, decodeAll_some hp]
    rw [collapse_slashes hmulti]
    exact ih
  | case4 p c q hp hc hd r hr hp' =>
    obtain ⟨-, rfl, -⟩ := hd
    rw [decodeAll_some hp, decodeAll_some hp', hdot, collapse_cons_of_ne (by decide)]
    exact Or.inr (by simp only [List.length_cons, Dir.written]; omega)
  | case6 p c q hp hc hd r hp' hne ih =>
    obtain ⟨-, rfl, -⟩ := hd
    rw [decodeAll_some hp, decodeAll_some hp', hdot]
    have hle : (dirNorm conf param r).1.written +
        (collapse conf.multipleSlash (decodeAll conf (dirNorm conf param r).2)).length ≤
        (collapse conf.multipleSlash (chr '/' :: decodeAll conf r)).length := by
      rcases ih with heq | hlt
      · rw [heq]
        exact (dirNorm_param_written conf r).le
      · exact hlt.le
    exact Or.inr (by simp only [List.length_cons]; omega)
  | case3 p c q hp hc | case5 p c q hp hc | case7 p c q hp hc | case8 p c q hp hc =>
    exact Or.inl (hchar hp hc).symm

/-! ### What is harmless -/

/-- `://` in front of another byte, as `InspectUriChar` finds it: the byte it inspects, and the URI behind
it. -/
def Absolute (c : Byte) (q : List Byte) : Prop :=
  c = chr ':' ∧ 2 < q.length ∧ q.take 2 = [chr '/', chr '/']

instance (c : Byte) (q : List Byte) : Decidable (Absolute c q) := inferInstanceAs (Decidable (_ ∧ _))

/-- Nothing in what is left of a URI is taken for a path: as long as `param` is not set, `DirNorm` does
what it does in the parameter field, and as long as no directory is tracked, no slash of `://` is dropped
that `multiple_slash` keeps. -/
def harmless (conf : HttpInspectConf) (param noDir : Bool) (p : List Byte) : Bool :=
  match _h : getDecodedByte conf p with
  | none => true
  | some (c, q) =>
    if noDir ∧ conf.multipleSlash = false ∧ Absolute c q then false
    else if c = chr '/' then
      if dirNorm conf param q = dirNorm conf true q then
        harmless conf param (noDir && param) (dirNorm conf true q).2
      else false
    else harmless conf (param || c = chr '?') noDir q
termination_by p.length
decreasing_by
  · exact (dirNorm_le conf true _).trans_lt (getDecodedByte_lt _h)
  · exact getDecodedByte_lt _h

variable {noDir : Bool} {c : Byte}

theorem harmless_some (h : getDecodedByte conf p = some (c, q)) :
    harmless conf param noDir p =
      if noDir ∧ conf.multipleSlash = false ∧ Absolute c q then false
      else if c = chr '/' then
        if dirNorm conf param q = dirNorm conf true q then
          harmless conf param (noDir && param) (dirNorm conf true q).2
        else false
      else harmless conf (param || c = chr '?') noDir q := by
  conv_lhs => rw [harmless]
  split
  next h' => simp [h] at h'
  next d r h' =>
    obtain ⟨rfl, rfl⟩ : c = d ∧ q = r := by simpa [h] using h'
    rfl

theorem harmless_slash (h : getDecodedByte conf p = some (chr '/', q)) :
    harmless conf param noDir p =
      (decide (dirNorm conf param q = dirNorm conf true q) &&
        harmless conf param (noDir && param) (dirNorm conf true q).2) := by
  have habs : ¬(noDir ∧ conf.multipleSlash = false ∧ Absolute (chr '/') q) :=
    fun h => slash_ne_colon h.2.2.1
  rw [harmless_some h, if_neg habs, if_pos rfl]
  split <;> simp [*]

/-- A slash is read as it stands. -/
theorem getDecodedByte_slash (conf : HttpInspectConf) (q : List Byte) :
    getDecodedByte conf (chr '/' :: q) = some (chr '/', q) := by
  have hchar : ∃ bare, getChar conf (chr '/' :: q) = some (chr '/', bare, q) := by
    rw [getChar, if_neg (fun h => absurd h.1 (by decide))]
    exact ⟨_, rfl⟩
  obtain ⟨bare, hchar⟩ := hchar
  have hbyte : getByte conf (chr '/' :: q) = some (chr '/', q) := by
    rw [getByte, hchar]
    exact if_neg fun h => h.2.1 (by decide)
  have hreplace : replaceChar conf (chr '/') = chr '/' := by
    simp [replaceChar, show chr '/' ≠ chr '\\' by decide, show chr '/' ≠ chr '+' by decide]
  rw [getDecodedByte, hbyte]
  simp [hreplace, show chr '/' ≠ chr '%' by decide]

/-- With `multiple_slash` one of two slashes does not matter. -/
theorem harmless_slashes (hmulti : conf.multipleSlash = true) (q : List Byte) :
    harmless conf param noDir (chr '/' :: chr '/' :: q) =
      harmless conf param noDir (chr '/' :: q) := by
  have hslash : ∀ param, dirNorm conf param (chr '/' :: q) = dirNorm conf param q :=
    fun param => dirNorm_slash hmulti (getDecodedByte_slash conf q)
  have hone : harmless conf param noDir (chr '/' :: q) = _ :=
    harmless_slash (getDecodedByte_slash conf q)
  have htwo : harmless conf param noDir (chr '/' :: chr '/' :: q) = _ :=
    harmless_slash (getDecodedByte_slash conf _)
  rw [hone, htwo, hslash, hslash]

/-! ### A round of the loop -/

variable {size : ℕ} {s : UriNormState}

/-- What of a text is to be kept. -/
def parameters (conf : HttpInspectConf) (p : List Byte) : List Byte :=
  collapse conf.multipleSlash (decodeAll conf p)

/-- A character that is neither a slash nor the colon of a `://`. -/
theorem normLoop_plain (hlt : s.uribuf.length < size) (h : getDecodedByte conf p = some (c, q))
    (hslash : c ≠ chr '/') (habs : ¬(s.dirTrack = [] ∧ Absolute c q)) :
    normLoop conf size s p =
      normLoop conf size { s with uribuf := s.uribuf ++ [c], param := s.param ∨ c = chr '?' } q := by
  have hins : inspectUriChar conf size c s q =
      (.nonfatalErr, { s with param := s.param ∨ c = chr '?' }, q) := by
    unfold inspectUriChar
    exact (if_neg habs).trans (if_neg hslash)
  exact normLoop_err hlt h hins

/-- The colon of a `://`, where no directory has been tracked. -/
theorem normLoop_absolute (hlt : s.uribuf.length < size) (h : getDecodedByte conf p = some (c, q))
    (hnone : s.dirTrack = []) (habs : Absolute c q) :
    normLoop conf size s p =
      if s.uribuf.length + 2 < size then
        normLoop conf size { s with uribuf := s.uribuf ++ [c] } q.tail
      else s := by
  have hins : inspectUriChar conf size c s q =
      if s.uribuf.length + 2 < size then
        (.success, { s with uribuf := s.uribuf ++ [c] }, q.tail)
      else (.endOfBuffer, s, q) := by
    unfold inspectUriChar
    exact if_pos ⟨hnone, habs⟩
  split_ifs at hins ⊢
  · exact normLoop_success hlt h hins
  · exact normLoop_end hlt h hins

/-- What is left of a URI fits into the buffer. -/
def Room (size : ℕ) (s : UriNormState) (p : List Byte) : Prop := s.uribuf.length + p.length ≤ size

/-- `harmless`, for the state of the loop. -/
def UriNormState.harmless (conf : HttpInspectConf) (s : UriNormState) (p : List Byte) : Bool :=
  Snort.HttpInspect.harmless conf s.param s.dirTrack.isEmpty p

/-- The loop stops: what it still writes is the beginning of what is to be kept, and with room it is all of
it if nothing harmful comes. -/
def Stops (conf : HttpInspectConf) (size : ℕ) (s : UriNormState) (p : List Byte) : Prop :=
  ∃ t w, normLoop conf size s p = t ∧ t.uribuf = s.uribuf ++ w ∧ w <+: parameters conf p ∧
    (Room size s p → if s.harmless conf p then w = parameters conf p
      else w.length < (parameters conf p).length)

/-- A round that keeps what it reads. -/
def Copies (conf : HttpInspectConf) (size : ℕ) (s : UriNormState) (p : List Byte) : Prop :=
  ∃ t q w, normLoop conf size s p = normLoop conf size t q ∧ q.length < p.length ∧
    (Room size s p → Room size t q) ∧ t.harmless conf q = s.harmless conf p ∧
    t.uribuf = s.uribuf ++ w ∧ parameters conf p = w ++ parameters conf q

/-- A round that does not. -/
def Loses (conf : HttpInspectConf) (size : ℕ) (s : UriNormState) (p : List Byte) : Prop :=
  ∃ t q, normLoop conf size s p = normLoop conf size t q ∧ q.length < p.length ∧
    s.harmless conf p = false ∧
    t.uribuf.length + (parameters conf q).length < s.uribuf.length + (parameters conf p).length

theorem getDecodedByte_nil (conf : HttpInspectConf) : getDecodedByte conf [] = none := by
  cases h : getDecodedByte conf [] with
  | none => rfl
  | some r => exact absurd (getDecodedByte_lt h) (Nat.not_lt_zero _)

theorem harmless_none (h : getDecodedByte conf p = none) : harmless conf param noDir p = true := by
  rw [harmless]
  split
  · rfl
  next h' => simp [h] at h'

/-- Nothing is written any more. -/
theorem stops_here (hrun : normLoop conf size s p = s)
    (h : Room size s p → getDecodedByte conf p = none) : Stops conf size s p := by
  refine ⟨s, [], hrun, (List.append_nil _).symm, List.nil_prefix, fun hroom => ?_⟩
  have hnone := h hroom
  rw [UriNormState.harmless, harmless_none hnone, if_pos rfl, parameters, decodeAll_none hnone,
    collapse_nil]

/-- A round on a character that is neither a slash nor the colon of a `://`. -/
theorem copies_plain (hlt : s.uribuf.length < size) (h : getDecodedByte conf p = some (c, q))
    (hslash : c ≠ chr '/') (habs : ¬(s.dirTrack = [] ∧ Absolute c q)) : Copies conf size s p := by
  have hq := getDecodedByte_lt h
  refine ⟨_, q, [c], normLoop_plain hlt h hslash habs, hq, fun hroom => ?_, ?_, rfl, ?_⟩
  · unfold Room at hroom ⊢
    simp only [List.length_append, List.length_singleton]
    omega
  · have hskip : ¬(s.dirTrack.isEmpty = true ∧ conf.multipleSlash = false ∧ Absolute c q) :=
      fun h => habs ⟨List.isEmpty_iff.1 h.1, h.2.2⟩
    rw [UriNormState.harmless, UriNormState.harmless, harmless_some h, if_neg hskip, if_neg hslash]
    simp
  · rw [parameters, decodeAll_some h, collapse_cons_of_ne hslash]
    rfl

/-- A round on the colon of a `://`, where no directory has been tracked. -/
theorem round_absolute (hlt : s.uribuf.length < size) (h : getDecodedByte conf p = some (c, q))
    (hnone : s.dirTrack = []) (habs : Absolute c q) :
    Stops conf size s p ∨ Copies conf size s p ∨ Loses conf size s p := by
  have hrun := normLoop_absolute hlt h hnone habs
  have hpq := getDecodedByte_lt h
  obtain ⟨rfl, hlen, htake⟩ := habs
  obtain ⟨x, rfl⟩ : ∃ x, q = chr '/' :: chr '/' :: x :=
    ⟨q.drop 2, by rw [← List.take_append_drop 2 q, htake]; rfl⟩
  have hcolon : chr ':' ≠ chr '/' := slash_ne_colon.symm
  have htext : parameters conf p =
      chr ':' :: collapse conf.multipleSlash (chr '/' :: chr '/' :: decodeAll conf x) := by
    rw [parameters, decodeAll_some h, collapse_cons_of_ne hcolon,
      decodeAll_some (getDecodedByte_slash conf _), decodeAll_some (getDecodedByte_slash conf x)]
  have hrest : parameters conf (chr '/' :: x) =
      collapse conf.multipleSlash (chr '/' :: decodeAll conf x) := by
    rw [parameters, decodeAll_some (getDecodedByte_slash conf x)]
  by_cases hroom : s.uribuf.length + 2 < size
  · rw [if_pos hroom, List.tail_cons] at hrun
    cases hmulti : conf.multipleSlash with
    | true =>
      refine Or.inr (Or.inl ⟨_, _, [chr ':'], hrun, ?_, fun hfit => ?_, ?_, rfl, ?_⟩)
      · simp only [List.length_cons] at hpq ⊢
        omega
      · unfold Room at hfit ⊢
        simp only [List.length_append, List.length_cons, List.length_nil] at hpq ⊢
        omega
      · have hskip : ¬(s.dirTrack.isEmpty = true ∧ conf.multipleSlash = false ∧
            Absolute (chr ':') (chr '/' :: chr '/' :: x)) :=
          fun h => absurd (hmulti.symm.trans h.2.1) Bool.noConfusion
        have hquery : (s.param || decide (chr ':' = chr '?')) = s.param := by
          rw [decide_eq_false (by decide), Bool.or_false]
        rw [UriNormState.harmless, UriNormState.harmless, harmless_some h, if_neg hskip,
          if_neg hcolon, hquery, harmless_slashes hmulti]
      · rw [htext, hrest, collapse_slashes hmulti]
        rfl
    | false =>
      refine Or.inr (Or.inr ⟨_, _, hrun, ?_, ?_, ?_⟩)
      · simp only [List.length_cons] at hpq ⊢
        omega
      · rw [UriNormState.harmless, harmless_some h]
        exact if_pos ⟨by rw [hnone]; rfl, hmulti, rfl, hlen, htake⟩
      · rw [htext, hrest, hmulti, collapse_off, collapse_off]
        simp only [List.length_append, List.length_cons, List.length_nil]
        omega
  · rw [if_neg hroom] at hrun
    refine Or.inl (stops_here hrun fun hfit => ?_)
    unfold Room at hfit
    simp only [List.length_cons] at hpq hlen
    omega

theorem dirSet_isEmpty (s : UriNormState) :
    (dirSet s).dirTrack.isEmpty = (s.dirTrack.isEmpty && s.param) := by
  have hmax : 0 < maxDirs - 1 := by decide
  unfold dirSet
  cases s.param with
  | true => simp
  | false =>
    cases h : s.dirTrack with
    | nil => simp [hmax]
    | cons d l =>
      simp only [List.isEmpty_cons, Bool.false_and]
      split <;> rfl

/-- A round on a slash. -/
theorem round_slash (hlt : s.uribuf.length < size)
    (h : getDecodedByte conf p = some (chr '/', q)) :
    Stops conf size s p ∨ Copies conf size s p ∨ Loses conf size s p := by
  have hpq := getDecodedByte_lt h
  have hle := dirNorm_le conf s.param q
  have hset : (dirSet s).uribuf = s.uribuf ++ [chr '/'] := rfl
  have htext : parameters conf p = collapse conf.multipleSlash (chr '/' :: decodeAll conf q) := by
    rw [parameters, decodeAll_some h]
  have hhead : [chr '/'] <+: parameters conf p := htext ▸ slash_prefix_collapse _
  have hharm : s.harmless conf p = (decide (dirNorm conf s.param q = dirNorm conf true q) &&
      harmless conf s.param (s.dirTrack.isEmpty && s.param) (dirNorm conf true q).2) := harmless_slash h
  by_cases hsame : dirNorm conf s.param q = dirNorm conf true q
  · rw [decide_eq_true hsame, Bool.true_and] at hharm
    obtain ⟨hend, hone, hrest⟩ | ⟨d, hchar, htwo⟩ := dirNorm_param conf q
    · have hrun := normLoop_last hlt h (hsame.trans (Prod.ext hend rfl))
      refine Or.inl ⟨_, [chr '/'], hrun, hset, hhead, fun _ => ?_⟩
      rw [hharm, harmless_none (getDecodedByte_of_nil hrest), if_pos rfl, htext, hone]
    · have hdir : dirNorm conf s.param q = (.char d, (dirNorm conf true q).2) :=
        hsame.trans (Prod.ext hchar rfl)
      have hlt' := dirNorm_lt hdir
      have hrun := normLoop_dir hlt h hdir
      by_cases hroom : (dirSet s).uribuf.length < size
      · rw [if_pos hroom] at hrun
        refine Or.inr (Or.inl ⟨_, _, [chr '/', d], hrun, hlt'.trans hpq, fun hfit => ?_, ?_, ?_,
          htext.trans htwo⟩)
        · unfold Room at hfit ⊢
          simp only [hset, List.length_append, List.length_singleton]
          omega
        · rw [hharm, UriNormState.harmless, ← dirSet_isEmpty]
          rfl
        · rw [hset, List.append_assoc]
          rfl
      · rw [if_neg hroom] at hrun
        refine Or.inl ⟨_, [chr '/'], hrun, hset, hhead, fun hfit => ?_⟩
        unfold Room at hfit
        rw [hset, List.length_append, List.length_singleton] at hroom
        omega
  · have hfalse : s.harmless conf p = false := by
      rw [hharm, decide_eq_false hsame, Bool.false_and]
    have hless := (dirNorm_written conf s.param q).resolve_left hsame
    rw [← htext] at hless
    cases hdir : dirNorm conf s.param q with
    | mk dir r =>
      rw [hdir] at hless hle
      dsimp only at hless hle
      cases dir with
      | endOfBuffer =>
        refine Or.inl ⟨_, [chr '/'], normLoop_last hlt h hdir, hset, hhead, fun _ => ?_⟩
        rw [hfalse, if_neg Bool.false_ne_true]
        exact (Nat.le_add_right _ _).trans_lt hless
      | dirTrav =>
        have htrav := dirTrav_length s
        refine Or.inr (Or.inr ⟨_, r, normLoop_trav hlt h hdir, hle.trans_lt hpq, hfalse, ?_⟩)
        exact Nat.add_lt_add_of_le_of_lt htrav ((Nat.le_add_left _ _).trans_lt hless)
      | char d =>
        have hrun := normLoop_dir hlt h hdir
        by_cases hroom : (dirSet s).uribuf.length < size
        · rw [if_pos hroom] at hrun
          refine Or.inr (Or.inr ⟨_, r, hrun, hle.trans_lt hpq, hfalse, ?_⟩)
          have htwo : s.uribuf.length + (2 + (parameters conf r).length) <
              s.uribuf.length + (parameters conf p).length := Nat.add_lt_add_left hless _
          simp only [hset, List.length_append, List.length_singleton]
          omega
        · rw [if_neg hroom] at hrun
          refine Or.inl ⟨_, [chr '/'], hrun, hset, hhead, fun _ => ?_⟩
          rw [hfalse, if_neg Bool.false_ne_true]
          exact (Nat.lt_add_right _ Nat.one_lt_two).trans hless

/-- **One round of the loop**. -/
theorem normLoop_step (conf : HttpInspectConf) (size : ℕ) (s : UriNormState) (p : List Byte) :
    Stops conf size s p ∨ Copies conf size s p ∨ Loses conf size s p := by
  by_cases hlt : s.uribuf.length < size
  · cases h : getDecodedByte conf p with
    | none => exact Or.inl (stops_here (normLoop_none h) fun _ => h)
    | some r =>
      obtain ⟨c, q⟩ := r
      by_cases hslash : c = chr '/'
      · subst hslash
        exact round_slash hlt h
      by_cases habs : s.dirTrack = [] ∧ Absolute c q
      · exact round_absolute hlt h habs.1 habs.2
      · exact Or.inr (Or.inl (copies_plain hlt h hslash habs))
  · refine Or.inl (stops_here (normLoop_full hlt) fun hroom => ?_)
    unfold Room at hroom
    have hp : p = [] := List.eq_nil_of_length_eq_zero (by omega)
    rw [hp]
    exact getDecodedByte_nil conf

/-! ### The run -/

/-- From here on nothing is erased and nothing removed: with room for what is left all of it is
written. -/
def Kept (conf : HttpInspectConf) (size : ℕ) (s : UriNormState) (p : List Byte) : Prop :=
  s.uribuf <+: (normLoop conf size s p).uribuf ∧
    (normLoop conf size s p).uribuf <+: s.uribuf ++ parameters conf p ∧
    (Room size s p → (normLoop conf size s p).uribuf = s.uribuf ++ parameters conf p)

/-- Nothing is written but what is to be kept, or less. -/
theorem normLoop_written (conf : HttpInspectConf) (size : ℕ) (s : UriNormState) (p : List Byte) :
    (normLoop conf size s p).uribuf.length ≤ s.uribuf.length + (parameters conf p).length := by
  induction hn : p.length using Nat.strong_induction_on generalizing s p with
  | _ n ih =>
    obtain ⟨t, w, hrun, hout, hprefix, -⟩ | ⟨t, q, w, hrun, hlt, -, -, hout, htext⟩ |
      ⟨t, q, hrun, hlt, -, hless⟩ := normLoop_step conf size s p
    · have hle := hprefix.length_le
      rw [hrun, hout, List.length_append]
      omega
    · have hrest := ih q.length (hn ▸ hlt) t q rfl
      rw [hout, List.length_append] at hrest
      rw [hrun, htext, List.length_append]
      omega
    · have hrest := ih q.length (hn ▸ hlt) t q rfl
      rw [hrun]
      omega

variable (size) in
/-- What is harmless is kept. -/
theorem kept_of_harmless (h : s.harmless conf p = true) : Kept conf size s p := by
  induction hn : p.length using Nat.strong_induction_on generalizing s p with
  | _ n ih =>
    obtain ⟨t, w, hrun, hout, hprefix, hall⟩ | ⟨t, q, w, hrun, hlt, hroom, hharm, hout, htext⟩ |
      ⟨t, q, -, -, hfalse, -⟩ := normLoop_step conf size s p
    · rw [Kept, hrun, hout]
      refine ⟨List.prefix_append _ _, (List.prefix_append_right_inj _).2 hprefix, fun hfit => ?_⟩
      have hw := hall hfit
      rw [if_pos h] at hw
      rw [hw]
    · obtain ⟨hkept, hwritten, hwhole⟩ := ih q.length (hn ▸ hlt) (hharm.trans h) rfl
      rw [hout] at hkept
      rw [hout, List.append_assoc, ← htext] at hwritten hwhole
      rw [Kept, hrun]
      exact ⟨(List.prefix_append _ _).trans hkept, hwritten, fun hfit => hwhole (hroom hfit)⟩
    · exact absurd (hfalse.symm.trans h) Bool.noConfusion

/-- What is harmful is not, if there is room. -/
theorem normLoop_lost (hfit : Room size s p) (h : s.harmless conf p = false) :
    (normLoop conf size s p).uribuf.length < s.uribuf.length + (parameters conf p).length := by
  induction hn : p.length using Nat.strong_induction_on generalizing s p with
  | _ n ih =>
    obtain ⟨t, w, hrun, hout, -, hall⟩ | ⟨t, q, w, hrun, hlt, hroom, hharm, hout, htext⟩ |
      ⟨t, q, hrun, -, -, hless⟩ := normLoop_step conf size s p
    · have hw := hall hfit
      rw [h, if_neg Bool.false_ne_true] at hw
      rw [hrun, hout, List.length_append]
      omega
    · have hrest := ih q.length (hn ▸ hlt) (hroom hfit) (hharm.trans h) rfl
      rw [hout, List.length_append] at hrest
      rw [hrun, htext, List.length_append]
      omega
    · rw [hrun]
      exact (normLoop_written conf size t q).trans_lt hless

/-- With room for what is left, it is kept only if it is harmless. -/
theorem harmless_of_kept (hfit : Room size s p) (h : Kept conf size s p) :
    s.harmless conf p = true := by
  by_contra hharm
  have hlost := normLoop_lost hfit (Bool.eq_false_of_not_eq_true hharm)
  rw [h.2.2 hfit, List.length_append] at hlost
  exact Nat.lt_irrefl _ hlost

/-! ### The first question mark -/

/-- One round of the loop of `hi_norm_uri`, if it is not the last. -/
def normRound (conf : HttpInspectConf) (size : ℕ) (s : UriNormState) (p : List Byte) :
    Option (UriNormState × List Byte) :=
  if s.uribuf.length < size then
    match getDecodedByte conf p with
    | none => none
    | some (iChar, q) =>
      match inspectUriChar conf size iChar s q with
      | (.endOfBuffer, _, _) => none
      | (.nonfatalErr, s, q) => some ({ s with uribuf := s.uribuf ++ [iChar] }, q)
      | (.success, s, q) => some (s, q)
  else none

/-- `hi_norm_uri` comes from one state to another, where it has just written the first `?`. -/
inductive ParamStart (conf : HttpInspectConf) (size : ℕ) :
    UriNormState → List Byte → UriNormState → List Byte → Prop
  | here {s t : UriNormState} {p q : List Byte} (h : normRound conf size s p = some (t, q))
      (hquery : t.uribuf.getLast? = some (chr '?')) : ParamStart conf size s p t q
  | next {s t u : UriNormState} {p q r : List Byte} (h : normRound conf size s p = some (t, q))
      (hquery : t.uribuf.getLast? ≠ some (chr '?')) (hrest : ParamStart conf size t q u r) :
      ParamStart conf size s p u r

variable {t u : UriNormState} {r : List Byte}

/-- What `InspectUriChar` says in a round. -/
theorem normRound_cases (h : normRound conf size s p = some (t, q)) :
    s.uribuf.length < size ∧ ∃ c r, getDecodedByte conf p = some (c, r) ∧
      ((∃ v, inspectUriChar conf size c s r = (.nonfatalErr, v, q) ∧
          t = { v with uribuf := v.uribuf ++ [c] }) ∨
        inspectUriChar conf size c s r = (.success, t, q)) := by
  unfold normRound at h
  split_ifs at h with hlt
  refine ⟨hlt, ?_⟩
  cases hp : getDecodedByte conf p with
  | none => simp [hp] at h
  | some r =>
    obtain ⟨c, r⟩ := r
    rw [hp] at h
    dsimp only at h
    refine ⟨c, r, rfl, ?_⟩
    cases hins : inspectUriChar conf size c s r with
    | mk res v =>
      obtain ⟨v, q'⟩ := v
      rw [hins] at h
      cases res with
      | endOfBuffer => simp at h
      | nonfatalErr =>
        obtain ⟨rfl, rfl⟩ : _ = t ∧ q' = q := by simpa using h
        exact Or.inl ⟨v, rfl, rfl⟩
      | success =>
        obtain ⟨rfl, rfl⟩ : v = t ∧ q' = q := by simpa using h
        exact Or.inr rfl

/-- The loop goes on behind a round. -/
theorem normRound_run (h : normRound conf size s p = some (t, q)) :
    normLoop conf size s p = normLoop conf size t q := by
  obtain ⟨hlt, c, r, hp, ⟨v, hins, rfl⟩ | hins⟩ := normRound_cases h
  · exact normLoop_err hlt hp hins
  · exact normLoop_success hlt hp hins

theorem ParamStart.run (h : ParamStart conf size s p t q) :
    normLoop conf size s p = normLoop conf size t q := by
  induction h with
  | here h => exact normRound_run h
  | next h _ _ ih => exact (normRound_run h).trans ih

/-- The character that `DirNorm` returns. -/
def Dir.text : Dir → List Byte
  | .char c => [c]
  | _ => []

/-- `DirNorm` passes over slashes and dots only. -/
theorem dirNorm_text (conf : HttpInspectConf) (param : Bool) (p : List Byte) :
    ∃ a, chr '?' ∉ a ∧ decodeAll conf p =
      a ++ ((dirNorm conf param p).1.text ++ decodeAll conf (dirNorm conf param p).2) := by
  have hslash : chr '?' ≠ chr '/' := by decide
  have hdot : chr '?' ≠ chr '.' := by decide
  fun_induction dirNorm conf param p with
  | case1 p hp => exact ⟨[], List.not_mem_nil, rfl⟩
  | case2 p c q hp hc ih =>
    obtain ⟨a, ha, htext⟩ := ih
    rw [decodeAll_some hp, htext, hc.2]
    exact ⟨chr '/' :: a, List.not_mem_cons_of_ne_of_not_mem hslash ha, rfl⟩
  | case4 p c q hp hc hd r hr hp' =>
    rw [decodeAll_some hp, decodeAll_some hp', hd.2.1]
    exact ⟨[chr '.', chr '.'], by simp [hdot], rfl⟩
  | case6 p c q hp hc hd r hp' hne ih =>
    obtain ⟨a, ha, htext⟩ := ih
    rw [decodeAll_some hp, decodeAll_some hp', htext, hd.2.1]
    exact ⟨chr '.' :: chr '/' :: a, by simp [hdot, hslash, ha], rfl⟩
  | case3 p c q hp | case5 p c q hp | case7 p c q hp | case8 p c q hp =>
    rw [decodeAll_some hp]
    exact ⟨[], List.not_mem_nil, rfl⟩

/-- A text without a `?` has been read, or one that ends with the first `?`, which has been written. -/
def Read (conf : HttpInspectConf) (p : List Byte) (t : UriNormState) (q : List Byte) : Prop :=
  ∃ a, chr '?' ∉ a ∧ ((chr '?' ∉ t.uribuf ∧ decodeAll conf p = a ++ decodeAll conf q) ∨
    (t.uribuf.getLast? = some (chr '?') ∧ decodeAll conf p = a ++ chr '?' :: decodeAll conf q))

/-- A character is read and written behind others. -/
theorem read_of_written {a out : List Byte} (ha : chr '?' ∉ a) (hout : chr '?' ∉ out)
    (hbuf : t.uribuf = out ++ [c]) (htext : decodeAll conf p = a ++ c :: decodeAll conf q) :
    Read conf p t q := by
  by_cases hc : c = chr '?'
  · subst hc
    exact ⟨a, ha, Or.inr ⟨by rw [hbuf, List.getLast?_concat], htext⟩⟩
  · refine ⟨a ++ [c], ?_, Or.inl ⟨?_, ?_⟩⟩
    · simp [ha, Ne.symm hc]
    · simp [hbuf, hout, Ne.symm hc]
    · rw [htext, List.append_assoc, List.singleton_append]

/-- What `InspectUriChar` does where the loop goes on: it leaves the character to the loop, it takes the
colon of a `://` and one of its slashes, or it calls `DirNorm`. -/
theorem inspectUriChar_cases {res : Inspected} (hne : res ≠ .endOfBuffer)
    (h : inspectUriChar conf size c s p = (res, t, q)) :
    (res = .nonfatalErr ∧ t.uribuf = s.uribuf ∧ q = p) ∨
      (res = .success ∧ Absolute c p ∧ t.uribuf = s.uribuf ++ [c] ∧ q = p.tail) ∨
      (res = .success ∧ c = chr '/' ∧ ∃ dir, dirNorm conf s.param p = (dir, q) ∧
        ((dir = .dirTrav ∧ t = dirTrav s) ∨
          ∃ d, dir = .char d ∧ t.uribuf = s.uribuf ++ [chr '/'] ++ [d])) := by
  by_cases habs : s.dirTrack = [] ∧ Absolute c p
  · have hins : inspectUriChar conf size c s p = if s.uribuf.length + 2 < size then
        (.success, { s with uribuf := s.uribuf ++ [c] }, p.tail)
      else (.endOfBuffer, s, p) := by
      unfold inspectUriChar
      exact if_pos habs
    rw [h] at hins
    split_ifs at hins
    · cases hins
      exact Or.inr (Or.inl ⟨rfl, habs.2, rfl, rfl⟩)
    · cases hins
      exact absurd rfl hne
  by_cases hslash : c = chr '/'
  · unfold inspectUriChar at h
    unfold Absolute at habs
    rw [if_neg habs, if_pos hslash] at h
    refine Or.inr (Or.inr ?_)
    cases hdir : dirNorm conf s.param p with
    | mk dir r =>
      rw [hdir] at h
      cases dir with
      | endOfBuffer =>
        cases h
        exact absurd rfl hne
      | dirTrav =>
        cases h
        exact ⟨rfl, hslash, _, rfl, Or.inl ⟨rfl, rfl⟩⟩
      | char d =>
        dsimp only at h
        split_ifs at h
        · cases h
          exact ⟨rfl, hslash, _, rfl, Or.inr ⟨d, rfl, rfl⟩⟩
        · cases h
          exact absurd rfl hne
  · have hins : inspectUriChar conf size c s p =
        (.nonfatalErr, { s with param := s.param ∨ c = chr '?' }, p) := by
      unfold inspectUriChar
      exact (if_neg habs).trans (if_neg hslash)
    rw [h] at hins
    cases hins
    exact Or.inl ⟨rfl, rfl, rfl⟩

/-- A directory is taken from the end of what is written. -/
theorem dirTrav_isPrefix (s : UriNormState) : (dirTrav s).uribuf <+: s.uribuf := by
  unfold dirTrav
  split
  · exact List.nil_prefix
  · exact List.take_prefix _ _

/-- What a round reads. -/
theorem normRound_text (hs : chr '?' ∉ s.uribuf) (h : normRound conf size s p = some (t, q)) :
    Read conf p t q := by
  have hslash : chr '?' ≠ chr '/' := by decide
  obtain ⟨-, c, r, hp, ⟨v, hins, rfl⟩ | hins⟩ := normRound_cases h
  · obtain ⟨-, hbuf, rfl⟩ | ⟨hfalse, -⟩ | ⟨hfalse, -⟩ := inspectUriChar_cases (by simp) hins
    · refine read_of_written List.not_mem_nil hs ?_ (decodeAll_some hp)
      rw [hbuf]
    · cases hfalse
    · cases hfalse
  · obtain ⟨hfalse, -⟩ | ⟨-, ⟨hcolon, hlen, htake⟩, hbuf, rfl⟩ |
      ⟨-, rfl, dir, hdir, ⟨rfl, rfl⟩ | ⟨d, rfl, hbuf⟩⟩ := inspectUriChar_cases (by simp) hins
    · cases hfalse
    · -- the colon is written, the first slash behind it is passed over
      obtain ⟨x, rfl⟩ : ∃ x, r = chr '/' :: x := by
        cases r with
        | nil => exact absurd hlen (Nat.not_lt_zero _)
        | cons b x => exact ⟨x, by rw [(List.cons.inj htake).1]⟩
      refine ⟨[chr ':', chr '/'], by decide, Or.inl ⟨?_, ?_⟩⟩
      · rw [hbuf, hcolon]
        simp [hs, show chr '?' ≠ chr ':' by decide]
      · rw [decodeAll_some hp, decodeAll_some (getDecodedByte_slash conf x), hcolon]
        rfl
    · obtain ⟨a, ha, htext⟩ := dirNorm_text conf s.param r
      rw [hdir] at htext
      refine ⟨chr '/' :: a, List.not_mem_cons_of_ne_of_not_mem hslash ha, Or.inl ⟨?_, ?_⟩⟩
      · exact fun hmem => hs ((dirTrav_isPrefix s).subset hmem)
      · rw [decodeAll_some hp, htext]
        rfl
    · obtain ⟨a, ha, htext⟩ := dirNorm_text conf s.param r
      rw [hdir] at htext
      refine read_of_written (List.not_mem_cons_of_ne_of_not_mem hslash ha) ?_ hbuf ?_
      · simp [hs, hslash]
      · rw [decodeAll_some hp, htext]
        rfl

/-- What is written at the start of the parameters is the first `?` of the text. -/
theorem ParamStart.text (hs : chr '?' ∉ s.uribuf) (h : ParamStart conf size s p t q) :
    ∃ a, chr '?' ∉ a ∧ decodeAll conf p = a ++ chr '?' :: decodeAll conf q := by
  induction h with
  | here h hquery =>
    obtain ⟨a, ha, ⟨hno, -⟩ | ⟨-, htext⟩⟩ := normRound_text hs h
    · exact absurd (List.mem_of_getLast? hquery) hno
    · exact ⟨a, ha, htext⟩
  | next h hquery _ ih =>
    obtain ⟨a, ha, ⟨hno, htext⟩ | ⟨hlast, -⟩⟩ := normRound_text hs h
    · obtain ⟨b, hb, hrest⟩ := ih hno
      refine ⟨a ++ b, ?_, ?_⟩
      · rw [List.mem_append]
        exact not_or.2 ⟨ha, hb⟩
      · rw [htext, hrest, List.append_assoc]
    · exact absurd hlast hquery

/-- A round that is not the last is the same in a larger buffer. -/
theorem normRound_mono {size' : ℕ} (hsize : size ≤ size') (h : normRound conf size s p = some (t, q)) :
    normRound conf size' s p = some (t, q) := by
  have hinspect : ∀ (c : Byte) (q : List Byte), (inspectUriChar conf size c s q).1 ≠ .endOfBuffer →
      inspectUriChar conf size' c s q = inspectUriChar conf size c s q := by
    intro c q hne
    unfold inspectUriChar at hne ⊢
    split at hne
    next habs =>
      rw [if_pos habs, if_pos habs]
      split at hne
      next hroom => rw [if_pos hroom, if_pos (hroom.trans_le hsize)]
      next => exact absurd rfl hne
    next habs =>
      rw [if_neg habs, if_neg habs]
      split at hne
      next hslash =>
        rw [if_pos hslash, if_pos hslash]
        cases hdir : dirNorm conf s.param q with
        | mk dir r =>
          rw [hdir] at hne
          cases dir with
          | endOfBuffer => exact absurd rfl hne
          | dirTrav => rfl
          | char d =>
            dsimp only at hne ⊢
            split at hne
            next hroom => rw [if_pos hroom, if_pos (hroom.trans_le hsize)]
            next => exact absurd rfl hne
      next hslash => rw [if_neg hslash, if_neg hslash]
  unfold normRound at h ⊢
  split_ifs at h with hlt
  rw [if_pos (hlt.trans_le hsize)]
  cases hp : getDecodedByte conf p with
  | none => simp [hp] at h
  | some r =>
    obtain ⟨c, r⟩ := r
    rw [hp] at h
    dsimp only at h ⊢
    have hne : (inspectUriChar conf size c s r).1 ≠ .endOfBuffer := by
      intro hend
      cases hins : inspectUriChar conf size c s r with
      | mk res v =>
        rw [hins] at h hend
        dsimp only at hend
        simp [hend] at h
    rw [hinspect c r hne]
    exact h

theorem ParamStart.mono {size' : ℕ} (hsize : size ≤ size') (h : ParamStart conf size s p t q) :
    ParamStart conf size' s p t q := by
  induction h with
  | here h hquery => exact .here (normRound_mono hsize h) hquery
  | next h hquery _ ih => exact .next (normRound_mono hsize h) hquery ih

/-- The parameters of a URI are not normalised: when the first `?` has been written, nothing is erased
any more, and what follows is what is left of the text, but for the slashes that `multiple_slash`
collapses; all of it, if the buffer has room for what is left of the URI. -/
def ParamKept (conf : HttpInspectConf) (uri : List Byte) : Prop :=
  ∀ size t q, ParamStart conf size {} uri t q →
    t.uribuf <+: (hiNormUri conf size uri).1 ∧
      (hiNormUri conf size uri).1 <+: t.uribuf ++ parameters conf q ∧
      (Room size t q → (hiNormUri conf size uri).1 = t.uribuf ++ parameters conf q)

/-- **When the parameters of a URI are kept**: nothing behind the first `?` is taken for a path. -/
theorem param_kept_iff (conf : HttpInspectConf) (uri : List Byte) :
    ParamKept conf uri ↔ ∀ size t q, ParamStart conf size {} uri t q →
      harmless conf t.param t.dirTrack.isEmpty q = true := by
  constructor
  · intro h size t q hstart
    have hstart' := hstart.mono (Nat.le_max_left size (t.uribuf.length + q.length))
    have hkept := h _ t q hstart'
    rw [hiNormUri, hstart'.run] at hkept
    exact harmless_of_kept (Nat.le_max_right _ _) hkept
  · intro h size t q hstart
    have hkept := kept_of_harmless size (s := t) (h size t q hstart)
    rw [hiNormUri, hstart.run]
    exact hkept

/-- Behind `/?` a `/./` is removed. -/
theorem param_resolved : ¬ParamKept { directory := true } ("/?/./a".toList.map chr) := by
  intro h
  have hstart : ParamStart { directory := true } 20 {} ("/?/./a".toList.map chr)
      { uribuf := "/?".toList.map chr, dirTrack := [0] } ("/./a".toList.map chr) :=
    .here (by decide +kernel) (by decide)
  have hkept := (h 20 _ _ hstart).2.2 (by decide : 2 + 4 ≤ 20)
  exact absurd hkept (by decide +kernel)

end Snort.HttpInspect
