import Snort.HttpInspect.NormModel

/-!
# The normalised URI is a function of the decoded text

* `decodeAll`: the text that `GetDecodedByte` reads from a URI.
* `dirNorm_none`, …, `normLoop_success`: what the routines do, case by case.
* `hiNormUri_congr`: two URIs with one text, without a colon in it, are normalised alike.
* `Encoded`: some bytes of a URI are written as `%XX`.
* **`hiNormUri_encoded`**: this does not change what the URI is normalised to.
-/

namespace Snort.HttpInspect

open HiPaf (Byte chr)

/-- The text of a URI. -/
def decodeAll (conf : HttpInspectConf) (p : List Byte) : List Byte :=
  match _h : getDecodedByte conf p with
  | none => []
  | some (c, q) => c :: decodeAll conf q
termination_by p.length
decreasing_by exact getDecodedByte_lt _h

variable {conf : HttpInspectConf} {param : Bool} {p q r : List Byte} {c d : Byte}

/-! ### Texts -/

theorem decodeAll_none (h : getDecodedByte conf p = none) : decodeAll conf p = [] := by
  rw [decodeAll]
  split
  · rfl
  next h' => simp [h] at h'

theorem decodeAll_some (h : getDecodedByte conf p = some (c, q)) :
    decodeAll conf p = c :: decodeAll conf q := by
  conv_lhs => rw [decodeAll]
  split
  next h' => simp [h] at h'
  next d r h' =>
    obtain ⟨rfl, rfl⟩ : c = d ∧ q = r := by simpa [h] using h'
    rfl

theorem getDecodedByte_of_nil (h : decodeAll conf p = []) : getDecodedByte conf p = none := by
  cases hp : getDecodedByte conf p with
  | none => rfl
  | some r =>
    rw [decodeAll_some hp] at h
    simp at h

theorem getDecodedByte_of_cons {l : List Byte} (h : decodeAll conf p = c :: l) :
    ∃ q, getDecodedByte conf p = some (c, q) ∧ decodeAll conf q = l := by
  cases hp : getDecodedByte conf p with
  | none =>
    rw [decodeAll_none hp] at h
    simp at h
  | some r =>
    obtain ⟨d, q⟩ := r
    rw [decodeAll_some hp] at h
    obtain ⟨rfl, hq⟩ := List.cons.inj h
    exact ⟨q, rfl, hq⟩

/-- The byte that comes next is the first one of the text. -/
theorem getDecodedByte_fst (p : List Byte) :
    (getDecodedByte conf p).map Prod.fst = (decodeAll conf p).head? := by
  cases hp : getDecodedByte conf p with
  | none => rw [decodeAll_none hp, Option.map_none, List.head?_nil]
  | some r =>
    obtain ⟨d, q⟩ := r
    rw [decodeAll_some hp, Option.map_some, List.head?_cons]

/-! ### `DirNorm` -/

theorem dirNorm_none (h : getDecodedByte conf p = none) :
    dirNorm conf param p = (.endOfBuffer, p) := by
  rw [dirNorm]
  split
  · rfl
  next h' => simp [h] at h'

/-- A second slash. -/
theorem dirNorm_slash (hmulti : conf.multipleSlash = true)
    (h : getDecodedByte conf p = some (chr '/', q)) :
    dirNorm conf param p = dirNorm conf param q := by
  conv_lhs => rw [dirNorm]
  split
  next h' => simp [h] at h'
  next c r h' =>
    obtain ⟨rfl, rfl⟩ : chr '/' = c ∧ q = r := by simpa [h] using h'
    rw [if_pos ⟨hmulti, rfl⟩]

/-- A dot where `DirNorm` looks ahead. -/
theorem dirNorm_dot (hdir : conf.directory = true)
    (h : getDecodedByte conf p = some (chr '.', q)) (hq : getDecodedByte conf q = some (d, r)) :
    dirNorm conf false p =
      if d = chr '.' then
        if (decodeAll conf r).head? = some (chr '/') then (.dirTrav, r) else (.char (chr '.'), q)
      else if d = chr '/' then dirNorm conf false r
      else (.char (chr '.'), q) := by
  have hslash : ¬ (conf.multipleSlash = true ∧ chr '.' = chr '/') := by
    rintro ⟨-, h⟩
    exact absurd h (by decide)
  conv_lhs => rw [dirNorm]
  split
  next h' => simp [h] at h'
  next c s h' =>
    obtain ⟨rfl, rfl⟩ : chr '.' = c ∧ q = s := by simpa [h] using h'
    rw [if_neg hslash, if_pos ⟨hdir, rfl, Bool.false_ne_true⟩]
    split
    next h'' => simp [hq] at h''
    next e s h'' =>
      obtain ⟨rfl, rfl⟩ : d = e ∧ r = s := by simpa [hq] using h''
      rw [getDecodedByte_fst]

/-- Any other byte is the first one of a directory. -/
theorem dirNorm_char (h : getDecodedByte conf p = some (c, q))
    (hslash : ¬ (conf.multipleSlash = true ∧ c = chr '/'))
    (hdot : ¬ (conf.directory = true ∧ c = chr '.' ∧ param = false) ∨ decodeAll conf q = []) :
    dirNorm conf param p = (.char c, q) := by
  rw [dirNorm]
  split
  next h' => simp [h] at h'
  next d s h' =>
    obtain ⟨rfl, rfl⟩ : c = d ∧ q = s := by simpa [h] using h'
    rw [if_neg hslash]
    split_ifs with hc
    · obtain hdot | hq := hdot
      · exact absurd hc (by simpa using hdot)
      · split
        · rfl
        next h'' => simp [getDecodedByte_of_nil hq] at h''
    · rfl

/-- `DirNorm` does the same on two URIs with one text. -/
theorem dirNorm_congr (param : Bool) (h : decodeAll conf p = decodeAll conf q) :
    (dirNorm conf param p).1 = (dirNorm conf param q).1 ∧
      decodeAll conf (dirNorm conf param p).2 = decodeAll conf (dirNorm conf param q).2 := by
  fun_induction dirNorm conf param p generalizing q with
  | case1 p hp =>
    have hq := getDecodedByte_of_nil (h.symm.trans (decodeAll_none hp))
    rw [dirNorm_none hq]
    exact ⟨rfl, h⟩
  | case2 p c p' hp hc ih =>
    obtain ⟨q', hq, htext⟩ := getDecodedByte_of_cons (h.symm.trans (decodeAll_some hp))
    obtain ⟨hmulti, rfl⟩ := hc
    rw [dirNorm_slash hmulti hq]
    exact ih htext.symm
  | case3 p c p' hp hc hdot hp' =>
    obtain ⟨q', hq, htext⟩ := getDecodedByte_of_cons (h.symm.trans (decodeAll_some hp))
    have hnil : decodeAll conf q' = [] := htext.trans (decodeAll_none hp')
    rw [dirNorm_char hq hc (.inr hnil)]
    exact ⟨rfl, htext.symm⟩
  | case4 p c p' hp hc hdot r hr hp' =>
    obtain ⟨q', hq, htext⟩ := getDecodedByte_of_cons (h.symm.trans (decodeAll_some hp))
    obtain ⟨r', hq', hrest⟩ := getDecodedByte_of_cons (htext.trans (decodeAll_some hp'))
    obtain ⟨hdir, rfl, hparam⟩ := hdot
    obtain rfl : param = false := by simpa using hparam
    rw [dirNorm_dot hdir hq hq', if_pos rfl, hrest, ← getDecodedByte_fst, if_pos hr]
    exact ⟨rfl, hrest.symm⟩
  | case5 p c p' hp hc hdot r hr hp' =>
    obtain ⟨q', hq, htext⟩ := getDecodedByte_of_cons (h.symm.trans (decodeAll_some hp))
    obtain ⟨r', hq', hrest⟩ := getDecodedByte_of_cons (htext.trans (decodeAll_some hp'))
    obtain ⟨hdir, rfl, hparam⟩ := hdot
    obtain rfl : param = false := by simpa using hparam
    rw [dirNorm_dot hdir hq hq', if_pos rfl, hrest, ← getDecodedByte_fst, if_neg hr]
    exact ⟨rfl, htext.symm⟩
  | case6 p c p' hp hc hdot r hp' hne ih =>
    obtain ⟨q', hq, htext⟩ := getDecodedByte_of_cons (h.symm.trans (decodeAll_some hp))
    obtain ⟨r', hq', hrest⟩ := getDecodedByte_of_cons (htext.trans (decodeAll_some hp'))
    obtain ⟨hdir, rfl, hparam⟩ := hdot
    obtain rfl : param = false := by simpa using hparam
    rw [dirNorm_dot hdir hq hq', if_neg hne, if_pos rfl]
    exact ih hrest.symm
  | case7 p c p' hp hc hdot d r hp' hd hd' =>
    obtain ⟨q', hq, htext⟩ := getDecodedByte_of_cons (h.symm.trans (decodeAll_some hp))
    obtain ⟨r', hq', hrest⟩ := getDecodedByte_of_cons (htext.trans (decodeAll_some hp'))
    obtain ⟨hdir, rfl, hparam⟩ := hdot
    obtain rfl : param = false := by simpa using hparam
    rw [dirNorm_dot hdir hq hq', if_neg hd, if_neg hd']
    exact ⟨rfl, htext.symm⟩
  | case8 p c p' hp hc hdot =>
    obtain ⟨q', hq, htext⟩ := getDecodedByte_of_cons (h.symm.trans (decodeAll_some hp))
    rw [dirNorm_char hq hc (.inl (by simpa using hdot))]
    exact ⟨rfl, htext.symm⟩

theorem dirNorm_suffix (conf) (param : Bool) (p : List Byte) :
    decodeAll conf (dirNorm conf param p).2 <:+ decodeAll conf p := by
  fun_induction dirNorm conf param p with
  | case1 p hp => exact List.suffix_rfl
  | case2 p c p' hp hc ih =>
    rw [decodeAll_some hp]
    exact ih.trans (List.suffix_cons _ _)
  | case4 p c p' hp hc hdot r hr hp' =>
    rw [decodeAll_some hp, decodeAll_some hp']
    exact (List.suffix_cons _ _).trans (List.suffix_cons _ _)
  | case6 p c p' hp hc hdot r hp' hne ih =>
    rw [decodeAll_some hp, decodeAll_some hp']
    exact (ih.trans (List.suffix_cons _ _)).trans (List.suffix_cons _ _)
  | case3 p c p' hp | case5 p c p' hp | case7 p c p' hp | case8 p c p' hp =>
    rw [decodeAll_some hp]
    exact List.suffix_cons _ _

/-! ### The loop -/

section Loop

variable {size : ℕ} {s t : UriNormState}

theorem normLoop_full (h : ¬ s.uribuf.length < size) : normLoop conf size s p = s := by
  rw [normLoop, if_neg h]

theorem normLoop_none (h : getDecodedByte conf p = none) : normLoop conf size s p = s := by
  rw [normLoop]
  split
  · split
    · rfl
    next h' => simp [h] at h'
  · rfl

theorem normLoop_end (hlt : s.uribuf.length < size) (h : getDecodedByte conf p = some (c, q))
    (hins : inspectUriChar conf size c s q = (.endOfBuffer, t, r)) :
    normLoop conf size s p = t := by
  rw [normLoop, if_pos hlt]
  split
  next h' => simp [h] at h'
  next d q' h' =>
    obtain ⟨rfl, rfl⟩ : c = d ∧ q = q' := by simpa [h] using h'
    split <;> simp_all

theorem normLoop_err (hlt : s.uribuf.length < size) (h : getDecodedByte conf p = some (c, q))
    (hins : inspectUriChar conf size c s q = (.nonfatalErr, t, r)) :
    normLoop conf size s p = normLoop conf size { t with uribuf := t.uribuf ++ [c] } r := by
  conv_lhs => rw [normLoop, if_pos hlt]
  split
  next h' => simp [h] at h'
  next d q' h' =>
    obtain ⟨rfl, rfl⟩ : c = d ∧ q = q' := by simpa [h] using h'
    split <;> simp_all

theorem normLoop_success (hlt : s.uribuf.length < size) (h : getDecodedByte conf p = some (c, q))
    (hins : inspectUriChar conf size c s q = (.success, t, r)) :
    normLoop conf size s p = normLoop conf size t r := by
  conv_lhs => rw [normLoop, if_pos hlt]
  split
  next h' => simp [h] at h'
  next d q' h' =>
    obtain ⟨rfl, rfl⟩ : c = d ∧ q = q' := by simpa [h] using h'
    split <;> simp_all

theorem slash_ne_colon : chr '/' ≠ chr ':' := by decide

/-- A byte of a directory. -/
theorem normLoop_byte (hlt : s.uribuf.length < size) (h : getDecodedByte conf p = some (c, q))
    (hslash : c ≠ chr '/') (hcolon : c ≠ chr ':') :
    normLoop conf size s p =
      normLoop conf size { s with uribuf := s.uribuf ++ [c], param := s.param ∨ c = chr '?' } q := by
  have hins : inspectUriChar conf size c s q =
      (.nonfatalErr, { s with param := s.param ∨ c = chr '?' }, q) := by
    rw [inspectUriChar, if_neg (fun h => hcolon h.2.1), if_neg hslash]
  exact normLoop_err hlt h hins

/-- A slash in front of a `../`. -/
theorem normLoop_trav (hlt : s.uribuf.length < size)
    (h : getDecodedByte conf p = some (chr '/', q))
    (hdir : dirNorm conf s.param q = (.dirTrav, r)) :
    normLoop conf size s p = normLoop conf size (dirTrav s) r := by
  apply normLoop_success hlt h
  rw [inspectUriChar, if_neg (fun h => slash_ne_colon h.2.1), if_pos rfl, hdir]

/-- A slash with nothing behind it. -/
theorem normLoop_last (hlt : s.uribuf.length < size)
    (h : getDecodedByte conf p = some (chr '/', q))
    (hdir : dirNorm conf s.param q = (.endOfBuffer, r)) :
    normLoop conf size s p = dirSet s := by
  apply normLoop_end hlt h
  rw [inspectUriChar, if_neg (fun h => slash_ne_colon h.2.1), if_pos rfl, hdir]

/-- A slash and the byte behind it. -/
theorem normLoop_dir (hlt : s.uribuf.length < size)
    (h : getDecodedByte conf p = some (chr '/', q))
    (hdir : dirNorm conf s.param q = (.char c, r)) :
    normLoop conf size s p =
      if (dirSet s).uribuf.length < size then
        normLoop conf size { dirSet s with uribuf := (dirSet s).uribuf ++ [c] } r
      else dirSet s := by
  have hins : inspectUriChar conf size (chr '/') s q =
      if (dirSet s).uribuf.length < size then
        (.success, { dirSet s with uribuf := (dirSet s).uribuf ++ [c] }, r)
      else (.endOfBuffer, dirSet s, r) := by
    rw [inspectUriChar, if_neg (fun h => slash_ne_colon h.2.1), if_pos rfl, hdir]
  split_ifs at hins ⊢
  · exact normLoop_success hlt h hins
  · exact normLoop_end hlt h hins

/-- The loop does the same on two URIs with one text. -/
theorem normLoop_congr (h : decodeAll conf p = decodeAll conf q)
    (hcolon : chr ':' ∉ decodeAll conf p) :
    normLoop conf size s p = normLoop conf size s q := by
  induction hn : (decodeAll conf p).length using Nat.strong_induction_on generalizing s p q with
  | _ n ih =>
  subst hn
  by_cases hlt : s.uribuf.length < size
  case neg => rw [normLoop_full hlt, normLoop_full hlt]
  cases hp : getDecodedByte conf p with
  | none =>
    have hq := getDecodedByte_of_nil (h.symm.trans (decodeAll_none hp))
    rw [normLoop_none hp, normLoop_none hq]
  | some x =>
    obtain ⟨c, p'⟩ := x
    have hp_text := decodeAll_some hp
    obtain ⟨q', hq, htext⟩ := getDecodedByte_of_cons (h.symm.trans hp_text)
    rw [hp_text] at hcolon ih
    -- any pointer further on
    have hnext {r r' : List Byte} (hr : decodeAll conf r <:+ decodeAll conf p')
        (hrr : decodeAll conf r = decodeAll conf r') (t : UriNormState) :
        normLoop conf size t r = normLoop conf size t r' :=
      ih _ (Nat.lt_succ_of_le hr.length_le) hrr
        (fun hmem => hcolon (List.mem_cons_of_mem _ (hr.subset hmem))) rfl
    by_cases hslash : c = chr '/'
    · subst hslash
      obtain ⟨hfst, hsnd⟩ := dirNorm_congr s.param htext.symm
      have hsuffix := dirNorm_suffix conf s.param p'
      rcases hd : dirNorm conf s.param p' with ⟨dir, r⟩
      rcases hd' : dirNorm conf s.param q' with ⟨dir', r'⟩
      rw [hd, hd'] at hfst hsnd
      rw [hd] at hsuffix
      obtain rfl : dir = dir' := hfst
      cases dir with
      | endOfBuffer => rw [normLoop_last hlt hp hd, normLoop_last hlt hq hd']
      | dirTrav => rw [normLoop_trav hlt hp hd, normLoop_trav hlt hq hd', hnext hsuffix hsnd]
      | char d => rw [normLoop_dir hlt hp hd, normLoop_dir hlt hq hd', hnext hsuffix hsnd]
    · have hc : c ≠ chr ':' := fun h => hcolon (h ▸ List.mem_cons_self)
      rw [normLoop_byte hlt hp hslash hc, normLoop_byte hlt hq hslash hc,
        hnext List.suffix_rfl htext.symm]

end Loop

/-! ### The length -/

theorem dirNorm_lt {r : List Byte} (h : dirNorm conf param p = (.char c, r)) :
    r.length < p.length := by
  fun_induction dirNorm conf param p with
  | case1 p hp => simp at h
  | case2 p c p' hp hc ih => exact (ih h).trans (getDecodedByte_lt hp)
  | case4 p c p' hp hc hdot r' hr hp' => simp at h
  | case6 p c p' hp hc hdot r' hp' hne ih =>
    exact (ih h).trans ((getDecodedByte_lt hp').trans (getDecodedByte_lt hp))
  | case3 p c p' hp | case5 p c p' hp | case7 p c p' hp | case8 p c p' hp =>
    obtain ⟨-, rfl⟩ := Prod.mk.inj h
    exact getDecodedByte_lt hp

theorem dirTrav_length (s : UriNormState) : (dirTrav s).uribuf.length ≤ s.uribuf.length := by
  unfold dirTrav
  split
  · exact Nat.zero_le _
  · exact List.length_take_le' _ _

/-- `InspectUriChar` puts no more bytes than it takes, besides the one it gets. -/
theorem inspectUriChar_length (conf) (size : ℕ) (c : Byte) (s : UriNormState) (p : List Byte) :
    (inspectUriChar conf size c s p).2.1.uribuf.length +
        (inspectUriChar conf size c s p).2.2.length +
        (if (inspectUriChar conf size c s p).1 = .nonfatalErr then 1 else 0) ≤
      s.uribuf.length + p.length + 1 := by
  have hset : (dirSet s).uribuf.length = s.uribuf.length + 1 := List.length_append
  fun_cases inspectUriChar conf size c s p with
  | case1 hp =>
    obtain ⟨-, -, hlen, -⟩ := hp
    simp only [List.length_append, List.length_singleton, List.length_tail, reduceCtorEq, if_false]
    omega
  | case2 => simp
  | case3 _ _ q h =>
    have hle := dirNorm_le conf s.param p
    have htrav := dirTrav_length s
    rw [h] at hle
    change q.length ≤ p.length at hle
    simp only [reduceCtorEq, if_false]
    omega
  | case4 _ _ q h =>
    have hle := dirNorm_le conf s.param p
    rw [h] at hle
    change q.length ≤ p.length at hle
    simp only [reduceCtorEq, if_false]
    omega
  | case5 _ _ iDir q h t =>
    have hlt := dirNorm_lt h
    change t.uribuf.length = s.uribuf.length + 1 at hset
    simp only [List.length_append, List.length_singleton, reduceCtorEq, if_false]
    omega
  | case6 _ _ iDir q h t =>
    have hlt := dirNorm_lt h
    change t.uribuf.length = s.uribuf.length + 1 at hset
    simp only [reduceCtorEq, if_false]
    omega
  | case7 => exact le_rfl

theorem normLoop_length (conf) (size : ℕ) (s : UriNormState) (p : List Byte) :
    (normLoop conf size s p).uribuf.length ≤ s.uribuf.length + p.length := by
  fun_induction normLoop conf size s p with
  | case1 s p hlt hp => exact Nat.le_add_right _ _
  | case2 s p hlt iChar q hp t r hins =>
    have hle := inspectUriChar_length conf size iChar s q
    have hlt := getDecodedByte_lt hp
    simp only [hins, reduceCtorEq, if_false] at hle
    omega
  | case3 s p hlt iChar q hp t r hins ih =>
    have hle := inspectUriChar_length conf size iChar s q
    have hlt := getDecodedByte_lt hp
    simp only [hins, if_true] at hle
    rw [List.length_append, List.length_singleton] at ih
    omega
  | case4 s p hlt iChar q hp t r hins ih =>
    have hle := inspectUriChar_length conf size iChar s q
    have hlt := getDecodedByte_lt hp
    simp only [hins, reduceCtorEq, if_false] at hle
    omega
  | case5 s p hlt => exact Nat.le_add_right _ _

/-- `hi_norm_uri` fails only if there is nothing in the buffer. -/
theorem hiNormUri_snd (size : ℕ) (uri : List Byte) :
    (hiNormUri conf size uri).2 = decide ((hiNormUri conf size uri).1 ≠ []) := by
  have hlen := normLoop_length conf size {} uri
  simp only [List.length_nil, Nat.zero_add] at hlen
  simp [hiNormUri, Nat.not_lt.2 hlen]

/-- Two URIs with one text, without a colon in it, are normalised alike. -/
theorem hiNormUri_congr {size : ℕ} (h : decodeAll conf p = decodeAll conf q)
    (hcolon : chr ':' ∉ decodeAll conf p) : hiNormUri conf size p = hiNormUri conf size q := by
  have hbytes : (hiNormUri conf size p).1 = (hiNormUri conf size q).1 :=
    congrArg UriNormState.uribuf (normLoop_congr h hcolon)
  apply Prod.ext hbytes
  rw [hiNormUri_snd, hiNormUri_snd, hbytes]

/-! ### Encoded URIs -/

/-- Some bytes of a URI are replaced by `%XX`. -/
inductive Encoded : List Byte → List Byte → Prop
  | nil : Encoded [] []
  | raw {c : Byte} {u u' : List Byte} : Encoded u u' → Encoded (c :: u) (c :: u')
  | percent {c h l : Byte} {u u' : List Byte} {hi lo : ℕ} : hexLookup h = some hi →
      hexLookup l = some lo → c.toNat = 16 * hi + lo → Encoded u u' →
      Encoded (c :: u) (chr '%' :: h :: l :: u')

/-- The ASCII decoding is the only one that is on. -/
structure AsciiOnly (conf : HttpInspectConf) : Prop where
  ascii : conf.ascii = true
  doubleDecoding : conf.doubleDecoding = false
  uEncoding : conf.uEncoding = false
  utf8 : conf.utf8 = false
  bareByte : conf.bareByte = false
  iisUnicode : conf.iisUnicode = false

/-- A 7-bit byte that is neither a percent sign nor a colon. -/
def UriByte (c : Byte) : Prop := c < 0x80 ∧ c ≠ chr '%' ∧ c ≠ chr ':'

theorem UriByte.and_high (hc : UriByte c) : c &&& 0x80 = 0 := by
  obtain ⟨hlt, -, -⟩ := hc
  revert hlt
  revert c
  decide

theorem UriByte.replace_ne (hc : UriByte c) : replaceChar conf c ≠ chr ':' := by
  unfold replaceChar
  dsimp only
  split_ifs
  · decide
  · decide
  · decide
  · exact hc.2.2

section Ascii

variable (hconf : AsciiOnly conf)
include hconf

theorem decodeAll_raw (hc : UriByte c) (u : List Byte) :
    decodeAll conf (c :: u) = replaceChar conf c :: decodeAll conf u := by
  apply decodeAll_some
  have hchar : getChar conf (c :: u) = some (c, true, u) := by
    rw [getChar, if_neg (fun h => hc.2.1 h.1)]
    simp [hconf.bareByte]
  have hbyte : getByte conf (c :: u) = some (c, u) := by
    rw [getByte, hchar]
    simp
  rw [getDecodedByte, hbyte]
  simp [hconf.doubleDecoding]

theorem decodeAll_percent (hc : UriByte c) {h l : Byte} {hi lo : ℕ} (hh : hexLookup h = some hi)
    (hl : hexLookup l = some lo) (hcn : c.toNat = 16 * hi + lo) (u : List Byte) :
    decodeAll conf (chr '%' :: h :: l :: u) = replaceChar conf c :: decodeAll conf u := by
  apply decodeAll_some
  have hptr (d e : Byte) (q : List Byte) : getPtr conf (d :: e :: q) = (.char e, e :: q) := by
    simp [getPtr, hconf.doubleDecoding]
  have hval : BitVec.ofNat 8 (hi <<< 4 ||| lo) = c := by
    have hor : hi <<< 4 ||| lo = 16 * hi + lo := by
      rw [← Nat.shiftLeft_add_eq_or_of_lt (hexLookup_lt _ _ hl), Nat.shiftLeft_eq]
      ring
    rw [hor, ← hcn, BitVec.ofNat_toNat, BitVec.setWidth_eq]
  have hpercent : percentDecode conf (chr '%' :: h :: l :: u) = (some c, l :: u) := by
    simp only [percentDecode, hptr, hh, hl, hval]
  have hchar : getChar conf (chr '%' :: h :: l :: u) = some (c, false, u) := by
    rw [getChar, if_pos ⟨rfl, hconf.ascii⟩, hpercent]
    rfl
  have hbyte : getByte conf (chr '%' :: h :: l :: u) = some (c, u) := by
    rw [getByte, hchar]
    exact if_neg (fun h => h.2.1 hc.and_high)
  rw [getDecodedByte, hbyte]
  simp [hconf.doubleDecoding]

/-- An encoded URI has the text of the URI. -/
theorem decodeAll_encoded {u u' : List Byte} (hu : ∀ c ∈ u, UriByte c) (h : Encoded u u') :
    decodeAll conf u = u.map (replaceChar conf) ∧ decodeAll conf u' = decodeAll conf u := by
  induction h with
  | nil =>
    have hnil : decodeAll conf [] = [] := decodeAll_none (by rfl)
    exact ⟨hnil, rfl⟩
  | raw h ih =>
    obtain ⟨hc, hu⟩ := List.forall_mem_cons.1 hu
    obtain ⟨htext, heq⟩ := ih hu
    rw [decodeAll_raw hconf hc, decodeAll_raw hconf hc, heq, htext]
    exact ⟨rfl, rfl⟩
  | percent hh hl hcn h ih =>
    obtain ⟨hc, hu⟩ := List.forall_mem_cons.1 hu
    obtain ⟨htext, heq⟩ := ih hu
    rw [decodeAll_raw hconf hc, decodeAll_percent hconf hc hh hl hcn, heq, htext]
    exact ⟨rfl, rfl⟩

end Ascii

/-- **Bytes that are written as `%XX` do not change what a URI is normalised to.** -/
theorem hiNormUri_encoded (hconf : AsciiOnly conf) (size : ℕ) {u u' : List Byte}
    (hu : ∀ c ∈ u, UriByte c) (h : Encoded u u') :
    hiNormUri conf size u = hiNormUri conf size u' := by
  obtain ⟨htext, heq⟩ := decodeAll_encoded hconf hu h
  apply hiNormUri_congr heq.symm
  rw [htext, List.mem_map]
  rintro ⟨c, hc, hcolon⟩
  exact (hu c hc).replace_ne hcolon

/-- `/a/../b`, and a way to write it. -/
theorem hiNormUri_encoded_dots :
    let conf : HttpInspectConf := { ascii := true, directory := true, multipleSlash := true }
    let u := "/a/../b".toList.map chr
    let u' := "/a/%2e%2E/b".toList.map chr
    Encoded u u' ∧ hiNormUri conf 20 u = hiNormUri conf 20 u' := by
  have h : Encoded ("/a/../b".toList.map chr) ("/a/%2e%2E/b".toList.map chr) := by
    apply Encoded.raw
    apply Encoded.raw
    apply Encoded.raw
    apply @Encoded.percent _ _ _ _ _ 2 14 (by decide) (by decide) (by decide)
    apply @Encoded.percent _ _ _ _ _ 2 14 (by decide) (by decide) (by decide)
    apply Encoded.raw
    apply Encoded.raw
    exact Encoded.nil
  have hu : ∀ c ∈ "/a/../b".toList.map chr, UriByte c := by
    unfold UriByte
    decide
  exact ⟨h, hiNormUri_encoded ⟨rfl, rfl, rfl, rfl, rfl, rfl⟩ 20 hu h⟩

end Snort.HttpInspect
