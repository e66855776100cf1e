import Snort.Lib.Paths
import Snort.HttpInspect.Norm

/-!
# The path of a normalised URI

* `up`: what `DirTrav` makes of the directories, and `stateAt`, the state behind some segments.
* `normLoop_segment`, `normLoop_slash`: the loop on the rest of a segment and behind a slash.
* `normLoop_resolve`: the loop resolves the segments.
* **`hiNormUri_path`**: the URI is normalised to its resolved path, which has no `//`, `/./` or `/../`.

The directory stack has room for `maxDirs - 1` slashes, so that `..` goes back further than to the last one
behind so many directories (`hiNormUri_deep`).
-/

namespace Snort.HttpInspect

open HiPaf (Byte chr)

/-- The directories that are left of those in front of a `..`. -/
def up (kept : List (List Byte)) : List (List Byte) :=
  kept.take (min kept.length (maxDirs - 1) - 1)

/-- The offset of a slash. -/
def mark (kept : List (List Byte)) (i : ℕ) : ℕ := (Paths.render (chr '/') (kept.take i)).length

/-- The directory stack behind some segments. -/
def marks (kept : List (List Byte)) : List ℕ :=
  (List.range (min kept.length (maxDirs - 1))).reverse.map (mark kept)

/-- The state behind some segments. -/
def stateAt (kept : List (List Byte)) : UriNormState where
  uribuf := Paths.render (chr '/') kept
  dirTrack := marks kept

variable {kept : List (List Byte)} {conf : HttpInspectConf} {size : ℕ}

theorem mark_take {i n : ℕ} (h : i ≤ n) : mark (kept.take n) i = mark kept i := by
  rw [mark, List.take_take, Nat.min_eq_left h, mark]

theorem mark_append {i : ℕ} (h : i ≤ kept.length) (segs : List (List Byte)) :
    mark (kept ++ segs) i = mark kept i := by
  rw [mark, List.take_append_of_le_length h, mark]

theorem dirTrav_stateAt (kept : List (List Byte)) : dirTrav (stateAt kept) = stateAt (up kept) := by
  cases hn : min kept.length (maxDirs - 1) with
  | zero =>
    have hmarks : marks kept = [] := by simp [marks, hn]
    have hup : up kept = [] := by simp [up, hn]
    rw [hup, dirTrav]
    simp only [stateAt, hmarks]
    rfl
  | succ m =>
    have hm : m < kept.length := by omega
    have hmarks : marks kept = mark kept m :: (List.range m).reverse.map (mark kept) := by
      simp [marks, hn, List.range_succ]
    have hup : up kept = kept.take m := by simp [up, hn]
    have hlen : min (kept.take m).length (maxDirs - 1) = m := by
      rw [List.length_take]
      omega
    have hsame : marks (kept.take m) = (List.range m).reverse.map (mark kept) := by
      rw [marks, hlen]
      apply List.map_congr_left
      intro i hi
      exact mark_take (List.mem_range.1 (List.mem_reverse.1 hi)).le
    have htake : (Paths.render (chr '/') kept).take (mark kept m) =
        Paths.render (chr '/') (kept.take m) := by
      have happend : Paths.render (chr '/') kept =
          Paths.render (chr '/') (kept.take m) ++ Paths.render (chr '/') (kept.drop m) := by
        rw [← Paths.render_append, List.take_append_drop]
      rw [happend]
      exact List.take_left
    rw [hup, dirTrav]
    simp only [stateAt, hmarks, hsame, htake]

theorem render_up_length (kept : List (List Byte)) :
    (Paths.render (chr '/') (up kept)).length ≤ (Paths.render (chr '/') kept).length := by
  have happend := Paths.render_append (chr '/') (up kept)
    (kept.drop (min kept.length (maxDirs - 1) - 1))
  rw [up, List.take_append_drop] at happend
  rw [happend, List.length_append]
  exact Nat.le_add_right _ _

theorem marks_concat (kept : List (List Byte)) (s : List Byte) :
    marks (kept ++ [s]) =
      if kept.length < maxDirs - 1 then mark kept kept.length :: marks kept else marks kept := by
  have hmap (n : ℕ) (hn : n ≤ kept.length + 1) : (List.range n).reverse.map (mark (kept ++ [s])) =
      (List.range n).reverse.map (mark kept) := by
    apply List.map_congr_left
    intro i hi
    exact mark_append (by simp at hi; omega) _
  rw [marks, List.length_append, List.length_singleton]
  split_ifs with h
  · rw [Nat.min_eq_left (by omega), hmap _ le_rfl, marks, Nat.min_eq_left (by omega), List.range_succ]
    simp
  · rw [Nat.min_eq_right (by omega), hmap _ (by omega), marks, Nat.min_eq_right (by omega)]

theorem dirSet_stateAt (kept : List (List Byte)) :
    dirSet (stateAt kept) = stateAt (kept ++ [[]]) := by
  have hlen : (marks kept).length = min kept.length (maxDirs - 1) := by simp [marks]
  have hmark : mark kept kept.length = (Paths.render (chr '/') kept).length := by
    rw [mark, List.take_length]
  have hiff : (marks kept).length < maxDirs - 1 ↔ kept.length < maxDirs - 1 := by omega
  simp only [stateAt, dirSet, marks_concat, hmark, hiff]
  simp

theorem stateAt_byte (kept : List (List Byte)) (s : List Byte) (c : Byte) :
    { stateAt (kept ++ [s]) with uribuf := (stateAt (kept ++ [s])).uribuf ++ [c] } =
      stateAt (kept ++ [s ++ [c]]) := by
  simp [stateAt, marks_concat]

/-! ### Texts that are not decoded -/

/-- The decodings are off, the directories are resolved. -/
structure PathOnly (conf : HttpInspectConf) : Prop where
  ascii : conf.ascii = false
  doubleDecoding : conf.doubleDecoding = false
  uEncoding : conf.uEncoding = false
  utf8 : conf.utf8 = false
  bareByte : conf.bareByte = false
  iisUnicode : conf.iisUnicode = false
  directory : conf.directory = true
  multipleSlash : conf.multipleSlash = true

/-- A byte that stands for itself in a path. -/
def Plain (conf : HttpInspectConf) (c : Byte) : Prop :=
  replaceChar conf c = c ∧ c ≠ chr '?' ∧ c ≠ chr ':'

theorem replaceChar_of_ne {c : Byte} (hback : c ≠ chr '\\') (hplus : c ≠ chr '+') :
    replaceChar conf c = c := by
  simp [replaceChar, hback, hplus]

theorem plain_slash : Plain conf (chr '/') :=
  ⟨replaceChar_of_ne (by decide) (by decide), by decide, by decide⟩

theorem plain_dot : Plain conf (chr '.') :=
  ⟨replaceChar_of_ne (by decide) (by decide), by decide, by decide⟩

theorem dot_ne_slash : chr '.' ≠ chr '/' := by decide

/-- A segment is not what stands in front of the first slash. -/
theorem not_prefix_of_ne {s x r : List Byte} (hs : chr '/' ∉ s) (hx : chr '/' ∉ x) (hne : s ≠ x) :
    ¬ x ++ [chr '/'] <+: s ++ chr '/' :: r := by
  rintro ⟨y, hy⟩
  have hsplit := congrArg (List.splitOn (chr '/')) hy
  rw [List.append_assoc, List.singleton_append, List.splitOn_append_cons_self_of_not_mem hx,
    List.splitOn_append_cons_self_of_not_mem hs] at hsplit
  exact hne (List.cons.inj hsplit).1.symm

section Text

variable (hconf : PathOnly conf) {c : Byte} {l s q : List Byte}
include hconf

theorem getDecodedByte_cons (c : Byte) (q : List Byte) :
    getDecodedByte conf (c :: q) = some (replaceChar conf c, q) := by
  have hchar : getChar conf (c :: q) = some (c, true, q) := by
    rw [getChar, if_neg (fun h => by simp [hconf.ascii] at h)]
    simp [hconf.bareByte]
  have hbyte : getByte conf (c :: q) = some (c, q) := by
    rw [getByte, hchar]
    exact if_neg (fun h => h.2.2 rfl)
  rw [getDecodedByte, hbyte]
  simp [hconf.doubleDecoding]

theorem getDecodedByte_plain (hc : Plain conf c) (q : List Byte) :
    getDecodedByte conf (c :: q) = some (c, q) := by
  rw [getDecodedByte_cons hconf, hc.1]

theorem decodeAll_eq_map (l : List Byte) : decodeAll conf l = l.map (replaceChar conf) := by
  induction l with
  | nil => exact decodeAll_none rfl
  | cons c l ih => rw [decodeAll_some (getDecodedByte_cons hconf c l), ih, List.map_cons]

theorem decodeAll_plain (hl : ∀ c ∈ l, Plain conf c) : decodeAll conf l = l := by
  rw [decodeAll_eq_map hconf]
  exact (List.map_congr_left fun c hc => (hl c hc).1).trans (List.map_id l)

/-! ### `DirNorm` on the segment behind a slash -/

theorem dirNorm_cons_slash (q : List Byte) :
    dirNorm conf false (chr '/' :: q) = dirNorm conf false q :=
  dirNorm_slash hconf.multipleSlash (getDecodedByte_plain hconf plain_slash q)

theorem dirNorm_self (q : List Byte) :
    dirNorm conf false (chr '.' :: chr '/' :: q) = dirNorm conf false q := by
  rw [dirNorm_dot hconf.directory (getDecodedByte_plain hconf plain_dot _)
      (getDecodedByte_plain hconf plain_slash q), if_neg dot_ne_slash.symm, if_pos rfl]

theorem dirNorm_trav (q : List Byte) :
    dirNorm conf false (chr '.' :: chr '.' :: chr '/' :: q) = (.dirTrav, chr '/' :: q) := by
  have hhead : (decodeAll conf (chr '/' :: q)).head? = some (chr '/') := by
    rw [decodeAll_some (getDecodedByte_plain hconf plain_slash q), List.head?_cons]
  rw [dirNorm_dot hconf.directory (getDecodedByte_plain hconf plain_dot _)
      (getDecodedByte_plain hconf plain_dot _), if_pos rfl, if_pos hhead]

/-- The first byte of a segment that is kept. -/
theorem dirNorm_first (hl : ∀ d ∈ c :: l, Plain conf d) (hc : c ≠ chr '/')
    (hself : ¬ [chr '.', chr '/'] <+: c :: l)
    (htrav : ¬ [chr '.', chr '.', chr '/'] <+: c :: l) :
    dirNorm conf false (c :: l) = (.char c, l) := by
  obtain ⟨hplain, hrest⟩ := List.forall_mem_cons.1 hl
  have hget := getDecodedByte_plain hconf hplain l
  by_cases hdot : c = chr '.'
  case neg => exact dirNorm_char hget (fun h => hc h.2) (.inl fun h => hdot h.2.1)
  subst hdot
  cases l with
  | nil => exact dirNorm_char hget (fun h => hc h.2) (.inr (decodeAll_none rfl))
  | cons d l =>
    obtain ⟨hd, hrest⟩ := List.forall_mem_cons.1 hrest
    rw [dirNorm_dot hconf.directory hget (getDecodedByte_plain hconf hd l),
      decodeAll_plain hconf hrest]
    split_ifs with hdot hslash hslash
    · obtain ⟨l, rfl⟩ := List.head?_eq_some_iff.1 hslash
      subst hdot
      exact absurd ⟨l, rfl⟩ htrav
    · rfl
    · subst hslash
      exact absurd ⟨l, rfl⟩ hself
    · rfl

/-! ### The loop on segments -/

/-- The rest of a segment. -/
theorem normLoop_segment (hs : ∀ c ∈ s, Plain conf c) (hslash : chr '/' ∉ s) (t : List Byte)
    (hsize : (Paths.render (chr '/') (kept ++ [t])).length + s.length ≤ size) :
    normLoop conf size (stateAt (kept ++ [t])) (s ++ q) =
      normLoop conf size (stateAt (kept ++ [t ++ s])) q := by
  induction s generalizing t with
  | nil => rw [List.nil_append, List.append_nil]
  | cons c s ih =>
    obtain ⟨hc, hs⟩ := List.forall_mem_cons.1 hs
    obtain ⟨hne, hslash⟩ := not_or.1 (List.mem_cons.not.1 hslash)
    rw [List.length_cons] at hsize
    have hlt : (stateAt (kept ++ [t])).uribuf.length < size := by
      show (Paths.render (chr '/') (kept ++ [t])).length < size
      omega
    have hparam : decide ((stateAt (kept ++ [t])).param = true ∨ c = chr '?') = false := by
      simp [stateAt, hc.2.1]
    rw [List.cons_append, normLoop_byte hlt (getDecodedByte_plain hconf hc _) (Ne.symm hne) hc.2.2,
      hparam]
    have hstate := stateAt_byte kept t c
    have hnext := ih hs hslash (t ++ [c]) (by simp at hsize ⊢; omega)
    rw [← hstate, List.append_assoc, List.singleton_append] at hnext
    exact hnext

/-- Only what `DirNorm` returns counts behind a slash. -/
theorem normLoop_slash_congr {q q' : List Byte}
    (h : dirNorm conf false q = dirNorm conf false q') :
    normLoop conf size (stateAt kept) (chr '/' :: q) =
      normLoop conf size (stateAt kept) (chr '/' :: q') := by
  by_cases hlt : (stateAt kept).uribuf.length < size
  case neg => rw [normLoop_full hlt, normLoop_full hlt]
  have hget := getDecodedByte_plain hconf plain_slash q
  have hget' := getDecodedByte_plain hconf plain_slash q'
  rcases hd : dirNorm conf false q' with ⟨dir, r⟩
  rw [hd] at h
  cases dir with
  | endOfBuffer => rw [normLoop_last hlt hget h, normLoop_last hlt hget' hd]
  | dirTrav => rw [normLoop_trav hlt hget h, normLoop_trav hlt hget' hd]
  | char c => rw [normLoop_dir hlt hget h, normLoop_dir hlt hget' hd]

/-- A segment that is kept. -/
theorem normLoop_kept (hs : ∀ d ∈ c :: s ++ q, Plain conf d) (hslash : chr '/' ∉ c :: s)
    (hself : ¬ [chr '.', chr '/'] <+: c :: s ++ q)
    (htrav : ¬ [chr '.', chr '.', chr '/'] <+: c :: s ++ q)
    (hsize : (Paths.render (chr '/') kept).length + (c :: s).length + 1 ≤ size) :
    normLoop conf size (stateAt kept) (chr '/' :: (c :: s ++ q)) =
      normLoop conf size (stateAt (kept ++ [c :: s])) q := by
  obtain ⟨hne, hslash⟩ := not_or.1 (List.mem_cons.not.1 hslash)
  have hlt : (stateAt kept).uribuf.length < size := by
    show (Paths.render (chr '/') kept).length < size
    omega
  have hlen : (dirSet (stateAt kept)).uribuf.length < size := by
    rw [dirSet_stateAt]
    simp [stateAt] at hsize ⊢
    omega
  have hfirst : dirNorm conf false (c :: (s ++ q)) = (.char c, s ++ q) :=
    dirNorm_first hconf hs (Ne.symm hne) hself htrav
  have hstate := stateAt_byte kept [] c
  rw [List.cons_append, normLoop_dir hlt (getDecodedByte_plain hconf plain_slash _) hfirst,
    if_pos hlen, dirSet_stateAt, hstate, List.nil_append]
  exact normLoop_segment hconf (fun d hd => hs d (by simp [hd])) hslash [c]
    (by simp at hsize ⊢; omega)

/-- **The loop resolves the segments behind a slash.** -/
theorem normLoop_resolve (hq : ∀ c ∈ q, Plain conf c)
    (hsize : (Paths.render (chr '/') kept).length + q.length + 1 ≤ size) :
    normLoop conf size (stateAt kept) (chr '/' :: q) =
      stateAt (Paths.resolve (chr '.') up kept (q.splitOn (chr '/'))) := by
  induction hn : q.length using Nat.strong_induction_on generalizing q kept with
  | _ n ih =>
  subst hn
  by_cases hmem : chr '/' ∈ q
  case neg =>
    rw [List.splitOn_eq_singleton hmem]
    cases q with
    | nil =>
      have hlt : (stateAt kept).uribuf.length < size := hsize
      have hdir : dirNorm conf false [] = (.endOfBuffer, []) := dirNorm_none rfl
      rw [normLoop_last hlt (getDecodedByte_plain hconf plain_slash _) hdir, dirSet_stateAt]
      rfl
    | cons c s =>
      have hno {x : List Byte} (hx : chr '/' ∈ x) : ¬ x <+: c :: s ++ [] := by
        intro h
        rw [List.append_nil] at h
        exact hmem (h.subset hx)
      have hkept := normLoop_kept hconf (s := s) (q := []) (by simpa using hq) hmem
        (hno (by simp)) (hno (by simp)) hsize
      rw [List.append_nil] at hkept
      rw [hkept, normLoop_none rfl]
      rfl
  case pos =>
    obtain ⟨s, r, rfl, hs⟩ := List.eq_append_cons_of_mem hmem
    rw [List.length_append, List.length_cons] at hsize
    have hr : ∀ c ∈ r, Plain conf c := fun c hc => hq c (by simp [hc])
    have hnext {t : List (List Byte)}
        (ht : (Paths.render (chr '/') t).length + r.length + 1 ≤ size) :=
      ih r.length (by simp; omega) hr ht rfl
    rw [List.splitOn_append_cons_self_of_not_mem hs,
      Paths.resolve_cons (List.splitOn_ne_nil (chr '/') r)]
    by_cases hempty : s = []
    · subst hempty
      rw [List.nil_append, normLoop_slash_congr hconf (dirNorm_cons_slash hconf r), hnext (by omega),
        Paths.push, if_pos (.inl rfl)]
    by_cases hself : s = [chr '.']
    · subst hself
      rw [List.singleton_append, normLoop_slash_congr hconf (dirNorm_self hconf r),
        hnext (by omega), Paths.push, if_pos (.inr rfl)]
    by_cases htrav : s = [chr '.', chr '.']
    · subst htrav
      have hlt : (stateAt kept).uribuf.length < size := by
        show (Paths.render (chr '/') kept).length < size
        omega
      have hup := render_up_length kept
      have hdir : dirNorm conf (stateAt kept).param (chr '.' :: chr '.' :: chr '/' :: r) =
          (.dirTrav, chr '/' :: r) := dirNorm_trav hconf r
      have hpush : Paths.push (chr '.') up kept [chr '.', chr '.'] = up kept := by
        simp [Paths.push]
      rw [hpush, ← hnext (by omega), ← dirTrav_stateAt]
      exact normLoop_trav hlt (getDecodedByte_plain hconf plain_slash _) hdir
    · obtain ⟨c, s, rfl⟩ := List.exists_cons_of_ne_nil hempty
      have hname : Paths.Name (chr '/') (chr '.') (c :: s) := ⟨hempty, hself, htrav, hs⟩
      rw [Paths.push_name hname, ← hnext (by simp at hsize ⊢; omega)]
      exact normLoop_kept hconf hq hs (not_prefix_of_ne hs (by decide) hself)
        (not_prefix_of_ne hs (by decide) htrav) (by omega)

theorem hiNormUri_resolve (hq : ∀ c ∈ q, Plain conf c) (hsize : q.length + 1 ≤ size) :
    (hiNormUri conf size (chr '/' :: q)).1 =
      Paths.render (chr '/') (Paths.resolve (chr '.') up [] (q.splitOn (chr '/'))) := by
  have hstart : ({} : UriNormState) = stateAt [] := by simp [stateAt, marks]
  have hloop : normLoop conf size (stateAt []) (chr '/' :: q) =
      stateAt (Paths.resolve (chr '.') up [] (q.splitOn (chr '/'))) :=
    normLoop_resolve hconf hq (by simpa using hsize)
  show (normLoop conf size {} (chr '/' :: q)).uribuf = _
  rw [hstart, hloop]
  rfl

end Text

/-- **A URI is normalised to its resolved path.**  Its backslashes are slashes if `iis_backslash` is on. -/
theorem hiNormUri_path (hconf : PathOnly conf) (size : ℕ) (rest : List Byte)
    (hrest : ∀ c ∈ rest, c ≠ chr '?' ∧ c ≠ chr '+' ∧ c ≠ chr ':') (hsize : rest.length + 1 ≤ size) :
    let segs := (rest.map (replaceChar conf)).splitOn (chr '/')
    let path := Paths.render (chr '/') (Paths.resolve (chr '.') up [] segs)
    hiNormUri conf size (chr '/' :: rest) = (path, true) ∧
      ∀ x ∈ [[], [chr '.'], [chr '.', chr '.']], ¬ chr '/' :: (x ++ [chr '/']) <:+: path := by
  intro segs path
  have hplain : ∀ c ∈ rest.map (replaceChar conf), Plain conf c := by
    intro c hc
    obtain ⟨d, hd, rfl⟩ := List.mem_map.1 hc
    obtain ⟨hquery, hplus, hcolon⟩ := hrest d hd
    by_cases hback : conf.iisBackslash = true ∧ d = chr '\\'
    · have hslash : replaceChar conf d = chr '/' := by
        rw [replaceChar, if_pos hback]
        rfl
      rw [hslash]
      exact plain_slash
    · have hsame : replaceChar conf d = d := by
        simp [replaceChar, hback, hplus]
      rw [hsame]
      exact ⟨hsame, hquery, hcolon⟩
  have hplain' : ∀ c ∈ chr '/' :: rest.map (replaceChar conf), Plain conf c :=
    List.forall_mem_cons.2 ⟨plain_slash, hplain⟩
  have htext := decodeAll_plain hconf hplain'
  have hcongr : decodeAll conf (chr '/' :: rest) =
      decodeAll conf (chr '/' :: rest.map (replaceChar conf)) := by
    rw [htext, decodeAll_eq_map hconf, List.map_cons, plain_slash.1]
  have hnorm : hiNormUri conf size (chr '/' :: rest) =
      hiNormUri conf size (chr '/' :: rest.map (replaceChar conf)) := by
    apply hiNormUri_congr hcongr
    rw [hcongr, htext]
    exact fun h => (hplain' _ h).2.2 rfl
  have hpath : (hiNormUri conf size (chr '/' :: rest.map (replaceChar conf))).1 = path :=
    hiNormUri_resolve hconf hplain (by rw [List.length_map]; exact hsize)
  have hsegs : ∀ s ∈ segs, chr '/' ∉ s := fun s hs => Paths.not_mem_of_mem_splitOn hs
  have hne : segs ≠ [] := List.splitOn_ne_nil _ _
  constructor
  · rw [hnorm]
    apply Prod.ext hpath
    rw [hiNormUri_snd, hpath]
    apply decide_eq_true
    obtain ⟨s, rest, hresolve⟩ : ∃ s rest, Paths.resolve (chr '.') up [] segs = s :: rest :=
      List.exists_cons_of_ne_nil (Paths.resolve_ne_nil hne)
    simp only [path, hresolve]
    exact List.cons_ne_nil _ _
  · intro x hx
    exact Paths.not_infix_resolve dot_ne_slash.symm (fun kept => List.take_subset _ _) hne hsegs hx

/-- `/a/.//b/../c/..`, with the last `..` kept. -/
theorem hiNormUri_path_dots :
    let conf : HttpInspectConf := { directory := true, multipleSlash := true }
    hiNormUri conf 20 ("/a/.//b/../c/..".toList.map chr) =
      ("/a/c/..".toList.map chr, true) := by
  have hpath := @hiNormUri_path { directory := true, multipleSlash := true }
    ⟨rfl, rfl, rfl, rfl, rfl, rfl, rfl, rfl⟩ 20 ("a/.//b/../c/..".toList.map chr)
    (by decide) (by decide)
  exact hpath.1.trans (by decide +kernel)

/-- Behind more directories than the stack has room for, `..` goes back over more than one of them. -/
theorem hiNormUri_deep :
    ¬ ∀ (conf : HttpInspectConf) (size : ℕ) (rest : List Byte), PathOnly conf →
      (∀ c ∈ rest, c ≠ chr '?' ∧ c ≠ chr '+' ∧ c ≠ chr ':' ∧ c ≠ chr '\\') → rest.length + 1 ≤ size →
      (hiNormUri conf size (chr '/' :: rest)).1 =
        Paths.render (chr '/')
          (Paths.resolve (chr '.') List.dropLast [] (rest.splitOn (chr '/'))) := by
  intro h
  obtain ⟨n, hn⟩ : ∃ n, n = maxDirs - 1 := ⟨_, rfl⟩
  -- `a/a/…/a/../x`, with one directory more than the stack has room for
  let behind := [[chr '.', chr '.'], [chr 'x']]
  let rest := [chr 'a'] ++ Paths.render (chr '/') (List.replicate n [chr 'a'] ++ behind)
  have hsegs : rest.splitOn (chr '/') = List.replicate (n + 1) [chr 'a'] ++ behind := by
    apply Paths.splitOn_append_render (by decide)
    intro s hs
    rcases List.mem_append.1 hs with hs | hs
    · rw [List.eq_of_mem_replicate hs]
      decide
    · exact (by decide : ∀ s ∈ [[chr '.', chr '.'], [chr 'x']], chr '/' ∉ s) s hs
  have hname : ∀ s ∈ List.replicate (n + 1) [chr 'a'], Paths.Name (chr '/') (chr '.') s := by
    intro s hs
    rw [List.eq_of_mem_replicate hs]
    unfold Paths.Name
    decide
  have hresolve (f : List (List Byte) → List (List Byte)) :
      Paths.resolve (chr '.') f [] (rest.splitOn (chr '/')) =
        f (List.replicate (n + 1) [chr 'a']) ++ [[chr 'x']] := by
    rw [hsegs, Paths.resolve_names _ hname (by decide), List.nil_append]
    simp [behind, Paths.resolve, Paths.push]
  have hchars : ∀ c ∈ rest, c ≠ chr '?' ∧ c ≠ chr '+' ∧ c ≠ chr ':' ∧ c ≠ chr '\\' := by
    intro c hc
    have hmem : c ∈ [chr 'a', chr '/', chr '.', chr 'x'] := by
      simp only [rest, behind, Paths.render, List.mem_append, List.mem_flatMap, List.mem_replicate,
        List.mem_cons, List.not_mem_nil, or_false] at hc ⊢
      rcases hc with rfl | ⟨s, ⟨-, rfl⟩ | rfl | rfl, hc⟩
      · exact .inl rfl
      · simp at hc
        tauto
      · simp at hc
        tauto
      · simp at hc
        tauto
    exact (by decide : ∀ c ∈ [chr 'a', chr '/', chr '.', chr 'x'],
      c ≠ chr '?' ∧ c ≠ chr '+' ∧ c ≠ chr ':' ∧ c ≠ chr '\\') c hmem
  have hconf : PathOnly { directory := true, multipleSlash := true } :=
    ⟨rfl, rfl, rfl, rfl, rfl, rfl, rfl, rfl⟩
  have hplain : ∀ c ∈ rest, Plain { directory := true, multipleSlash := true } c := fun c hc =>
    ⟨replaceChar_of_ne (hchars c hc).2.2.2 (hchars c hc).2.1, (hchars c hc).1, (hchars c hc).2.2.1⟩
  have hclaim := h _ _ rest hconf hchars le_rfl
  rw [hiNormUri_resolve hconf hplain le_rfl, hresolve, hresolve] at hclaim
  have hlen := congrArg List.length hclaim
  have hpos : 1 ≤ n := by rw [hn]; decide
  simp [Paths.length_render, up, ← hn] at hlen
  omega

end Snort.HttpInspect
