import Snort.Email.Qp
import Snort.Email.UuFile

/-!
# Reads and writes of the attachment decoders

`sf_qpdecode`, `sf_uudecode` and `SnortStrnStr`, with every access: a read outside `src[0..slen)` and a
write outside `dst[0..dlen)` give `none`.  `src` is the source buffer, `dst` what has been written; the
rounds of a loop are counted, and too few of them give `none` as well.

* `Checked.qpLoop_eq`, `Checked.uuLoop_eq`: with all accesses inside, the decoders are those of the
  model without checks;
* `Ragged`: a text that ends with a line whose last group of four characters is cut;
* **`decoders_safe_iff`**: when all accesses are inside.
-/

namespace Snort.Email.Checked

open Buffer (drop_eq_cons)

/-- A byte is written behind the others. -/
def store (dlen : ℕ) (dst : List Byte) (b : Byte) : Option (List Byte) :=
  if dst.length < dlen then some (dst ++ [b]) else none

/-! ### Quoted-printable -/

/-- The loop of `sf_qpdecode`, with `bytes_read` and what has been copied. -/
def qpLoop (src : List Byte) (dlen : ℕ) :
    (rounds read : ℕ) → (dst : List Byte) → Option (ℕ × List Byte)
  | 0, _, _ => none
  | rounds + 1, read, dst =>
    if read < src.length ∧ dst.length < dlen then do
      let ch ← src[read]?
      if ch = chr '=' then
        if read + 1 < src.length then do
          let ch1 ← src[read + 1]?
          if ch1 = chr '\n' then qpLoop src dlen rounds (read + 2) dst
          else if read + 1 < src.length - 1 then do
            let ch2 ← src[read + 2]?
            if ch1 = chr '\r' ∧ ch2 = chr '\n' then qpLoop src dlen rounds (read + 3) dst
            else
              match xdigit ch1, xdigit ch2 with
              | some h1, some h2 => do
                let dst ← store dlen dst (BitVec.ofNat 8 (16 * h1 + h2))
                qpLoop src dlen rounds (read + 3) dst
              | _, _ => do
                let dst ← store dlen dst ch
                qpLoop src dlen rounds (read + 1) dst
          else some (read, dst)
        else some (read, dst)
      else do
        let dst ← store dlen dst ch
        qpLoop src dlen rounds (read + 1) dst
    else some (read, dst)

/-- `sf_qpdecode`: what it writes and `bytes_read`, or nothing where it returns -1. -/
def sfQpdecode (src : List Byte) (dlen : ℕ) : Option (Option (List Byte × ℕ)) :=
  if src.length = 0 ∨ dlen = 0 then some none
  else (qpLoop src dlen (src.length + 1) 0 []).map fun r => some (r.2, r.1)

variable {src : List Byte} {dlen : ℕ}

theorem store_of_lt {dst : List Byte} (h : dst.length < dlen) (b : Byte) :
    store dlen dst b = some (dst ++ [b]) := if_pos h

/-- What is left when the loop stops at `read`. -/
theorem read_eq {read : ℕ} {rest : List Byte} (h : src.drop read = rest) (hread : read ≤ src.length) :
    src.length - rest.length = read := by
  rw [← h, List.length_drop]
  omega

/-- `sf_qpdecode` stays in its buffers. -/
theorem qpLoop_eq {rounds read : ℕ} {rest : List Byte} (hrest : src.drop read = rest)
    (hrounds : src.length < read + rounds) (hread : read ≤ src.length) (dst : List Byte) :
    qpLoop src dlen rounds read dst =
      some (src.length - (Email.qpLoop dlen rest dst).2.length, (Email.qpLoop dlen rest dst).1) := by
  fun_induction Email.qpLoop dlen rest dst generalizing read rounds
  all_goals obtain ⟨rounds, rfl⟩ := Nat.exists_eq_add_one_of_ne_zero (show rounds ≠ 0 by omega)
  case case1 dst =>
    have hend := read_eq hrest hread
    rw [List.length_nil, Nat.sub_zero] at hend
    rw [qpLoop, if_neg (by omega), List.length_nil, Nat.sub_zero, hend]
  case case2 ch src dst hn => rw [qpLoop, if_neg (by omega), read_eq hrest hread]
  case case3 dst hn =>
    obtain ⟨hlength, hch, -⟩ := drop_eq_cons hrest
    rw [List.length_nil] at hlength
    rw [qpLoop, if_pos (by omega), hch, Option.bind_eq_bind, Option.bind_some, if_pos rfl,
      if_neg (by omega), read_eq hrest hread]
  case case4 dst hn src2 ih =>
    obtain ⟨hlength, hch, hrest1⟩ := drop_eq_cons hrest
    obtain ⟨hlength1, hch1, hrest2⟩ := drop_eq_cons hrest1
    rw [qpLoop, if_pos (by omega), hch, Option.bind_eq_bind, Option.bind_some, if_pos rfl,
      if_pos (by omega), hch1, Option.bind_eq_bind, Option.bind_some, if_pos rfl]
    exact ih hrest2 (by omega) (by omega)
  case case5 dst hn ch1 hlf =>
    obtain ⟨hlength, hch, hrest1⟩ := drop_eq_cons hrest
    obtain ⟨hlength1, hch1, -⟩ := drop_eq_cons hrest1
    rw [List.length_nil] at hlength1
    rw [qpLoop, if_pos (by omega), hch, Option.bind_eq_bind, Option.bind_some, if_pos rfl,
      if_pos (by omega), hch1, Option.bind_eq_bind, Option.bind_some, if_neg hlf, if_neg (by omega),
      read_eq hrest hread]
  case case6 dst hn ch1 hlf ch2 src2 hcrlf ih =>
    obtain ⟨hlength, hch, hrest1⟩ := drop_eq_cons hrest
    obtain ⟨hlength1, hch1, hrest2⟩ := drop_eq_cons hrest1
    obtain ⟨hlength2, hch2, hrest3⟩ := drop_eq_cons hrest2
    rw [qpLoop, if_pos (by omega), hch, Option.bind_eq_bind, Option.bind_some, if_pos rfl,
      if_pos (by omega), hch1, Option.bind_eq_bind, Option.bind_some, if_neg hlf, if_pos (by omega),
      hch2, Option.bind_some, if_pos hcrlf]
    exact ih hrest3 (by omega) (by omega)
  case case7 dst hn ch1 hlf ch2 src2 hcrlf h1 h2 e2 e1 ih =>
    obtain ⟨hlength, hch, hrest1⟩ := drop_eq_cons hrest
    obtain ⟨hlength1, hch1, hrest2⟩ := drop_eq_cons hrest1
    obtain ⟨hlength2, hch2, hrest3⟩ := drop_eq_cons hrest2
    rw [qpLoop, if_pos (by omega), hch, Option.bind_eq_bind, Option.bind_some, if_pos rfl,
      if_pos (by omega), hch1, Option.bind_eq_bind, Option.bind_some, if_neg hlf, if_pos (by omega),
      hch2, Option.bind_some, if_neg hcrlf]
    simp only [e1, e2, store_of_lt (Nat.lt_of_not_le hn)]
    exact ih hrest3 (by omega) (by omega)
  case case8 dst hn ch1 hlf ch2 src2 hcrlf hx ih =>
    obtain ⟨hlength, hch, hrest1⟩ := drop_eq_cons hrest
    obtain ⟨hlength1, hch1, hrest2⟩ := drop_eq_cons hrest1
    obtain ⟨hlength2, hch2, -⟩ := drop_eq_cons hrest2
    rw [qpLoop, if_pos (by omega), hch, Option.bind_eq_bind, Option.bind_some, if_pos rfl,
      if_pos (by omega), hch1, Option.bind_eq_bind, Option.bind_some, if_neg hlf, if_pos (by omega),
      hch2, Option.bind_some, if_neg hcrlf]
    simp only [store_of_lt (Nat.lt_of_not_le hn)]
    exact ih hrest1 (by omega) (by omega)
  case case9 ch src dst hn hne ih =>
    obtain ⟨hlength, hch, hrest1⟩ := drop_eq_cons hrest
    rw [qpLoop, if_pos (by omega), hch, Option.bind_eq_bind, Option.bind_some, if_neg hne,
      store_of_lt (Nat.lt_of_not_le hn), Option.bind_eq_bind, Option.bind_some]
    exact ih hrest1 (by omega) (by omega)

/-- **`sf_qpdecode` stays in its buffers**, and does what the model without checks does. -/
theorem sfQpdecode_eq (src : List Byte) (dlen : ℕ) :
    sfQpdecode src dlen = some (Email.sfQpdecode src dlen) := by
  unfold sfQpdecode Email.sfQpdecode
  split
  · rfl
  · rw [qpLoop_eq (List.drop_zero) (by omega) (Nat.zero_le _), Option.map_some]

theorem length_qpLoop_le {src dst : List Byte} (h : dst.length ≤ dlen) :
    (Email.qpLoop dlen src dst).1.length ≤ dlen := by
  fun_induction Email.qpLoop dlen src dst <;> grind

/-! ### Uuencode -/

/-- The inner loop of `sf_uudecode`, on `length` characters from `ptr` on. -/
def uuLine (src : List Byte) (dlen : ℕ) : (length ptr : ℕ) → (dst : List Byte) → Option (ℕ × List Byte)
  | 0, ptr, dst => some (ptr, dst)
  | length + 1, ptr, dst => do
    let c0 ← src[ptr]?
    let c1 ← src[ptr + 1]?
    let dst ← store dlen dst (uuDecodeChar c0 <<< 2 ||| uuDecodeChar c1 >>> 4)
    match length with
    | 0 => some (ptr + 1, dst)
    | length + 1 => do
      let c2 ← src[ptr + 2]?
      let dst ← store dlen dst (uuDecodeChar c1 <<< 4 ||| uuDecodeChar c2 >>> 2)
      match length with
      | 0 => some (ptr + 2, dst)
      | length + 1 => do
        let c3 ← src[ptr + 3]?
        let dst ← store dlen dst (uuDecodeChar c2 <<< 6 ||| uuDecodeChar c3)
        match length with
        | 0 => some (ptr + 4, dst)
        | length + 1 => uuLine src dlen length (ptr + 4) dst

/-- The loop of `sf_uudecode`. -/
def uuLoop (src : List Byte) (dlen : ℕ) :
    (rounds ptr : ℕ) → (sol : Bool) → (dst : List Byte) → Option (ℕ × List Byte × Bool)
  | 0, _, _, _ => none
  | rounds + 1, ptr, sol, dst =>
    if ptr < src.length ∧ dst.length < dlen then do
      let c ← src[ptr]?
      if c = chr '\n' then uuLoop src dlen rounds (ptr + 1) true dst
      else if sol then
        let length := (uuDecodeChar c).toNat
        if length = 0 then some (ptr, dst, false)
        else if length = 5 ∧ c = chr 'e' then some (ptr, dst, true)
        else
          let length := min length (dlen - dst.length) * 4 / 3
          if src.length - (ptr + 1) < length then some (ptr, dst, false)
          else do
            let r ← uuLine src dlen length (ptr + 1) dst
            uuLoop src dlen rounds r.1 false r.2
      else uuLoop src dlen rounds (ptr + 1) false dst
    else some (ptr, dst, false)

/-- `SnortStrnStr`, for a search string that is not empty; `slen` is what is left of an `int`. -/
def snortStrnStr (src : List Byte) (first : Byte) (search : List Byte) :
    (slen ptr : ℕ) → Option (Option ℕ)
  | 0, _ => some none
  | slen + 1, ptr => do
    let nc ← src[ptr]?
    if nc = 0 ∨ slen = 0 then some none
    else if nc ≠ first then snortStrnStr src first search slen (ptr + 1)
    else if CInt.i32 slen - search.length < 0 then some none
    else if src.length < ptr + 1 + search.length then none
    else if (src.drop (ptr + 1)).take search.length = search then some (some ptr)
    else snortStrnStr src first search slen (ptr + 1)

/-- What comes of the search for `begin`: an error, a return with `bytes_read` and `begin_found`, or the
place where the loop starts. -/
inductive Begin
  | error
  | done (bytesRead : ℕ) (beginFound : Bool)
  | loop (ptr : ℕ)
  deriving DecidableEq

/-- The search for `begin`, and for the end of its line. -/
def uuBegin (src : List Byte) (beginFound : Bool) : Option Begin :=
  if beginFound then some (.loop 0)
  else if src.length < 5 then some (.done 0 false)
  else do
    match ← snortStrnStr src (chr 'b') (bytes "egin") 5 0 with
    | none => some .error
    | some sod =>
      match ← snortStrnStr src (chr '\n') [] (src.length - sod) sod with
      | none => some (.done src.length true)
      | some ptr => some (.loop ptr)

/-- `sf_uudecode`, or nothing where it returns -1. -/
def sfUudecode (src : List Byte) (dlen : ℕ) (beginFound endFound : Bool) : Option (Option UuResult) :=
  if src.length = 0 ∨ dlen = 0 then some none
  else do
    match ← uuBegin src beginFound with
    | .error => some none
    | .done bytesRead beginFound => some (some ⟨bytesRead, [], beginFound, endFound⟩)
    | .loop ptr => do
      let r ← uuLoop src dlen (src.length + 1) ptr true []
      let endFound := endFound || r.2.2
      some (some ⟨if endFound then src.length else r.1, r.2.1, true, endFound⟩)

/-! ### A line -/

/-- The source as a memory. -/
def mem (src : List Byte) : ℕ → Byte := fun i => src.getD i 0

theorem get_eq_mem {i : ℕ} (h : i < src.length) : src[i]? = some (mem src i) := by
  rw [mem, List.getD_eq_getElem?_getD, List.getElem?_eq_getElem h, Option.getD_some]

/-- The bytes that `length` characters of a line stand for. -/
def lineBytes (length : ℕ) : ℕ := (3 * length + 3) / 4

/-- How many characters the inner loop reads: behind a cut group it looks at one more. -/
def lineReads (length : ℕ) : ℕ := if length % 4 = 0 then length else length + 1

theorem uuLine_group (length : ℕ) {ptr : ℕ} {dst : List Byte} (hsrc : ptr + 4 ≤ src.length)
    (hdst : dst.length + 3 ≤ dlen) :
    uuLine src dlen (length + 4) ptr dst = uuLine src dlen length (ptr + 4)
      (dst ++ [uuDecodeChar (mem src ptr) <<< 2 ||| uuDecodeChar (mem src (ptr + 1)) >>> 4,
        uuDecodeChar (mem src (ptr + 1)) <<< 4 ||| uuDecodeChar (mem src (ptr + 2)) >>> 2,
        uuDecodeChar (mem src (ptr + 2)) <<< 6 ||| uuDecodeChar (mem src (ptr + 3))]) := by
  conv_lhs => unfold uuLine
  simp only [get_eq_mem (show ptr < src.length by omega),
    get_eq_mem (show ptr + 1 < src.length by omega), get_eq_mem (show ptr + 2 < src.length by omega),
    get_eq_mem (show ptr + 3 < src.length by omega), Option.bind_eq_bind, Option.bind_some,
    store_of_lt (show dst.length < dlen by omega)]
  rw [store_of_lt (by simp; omega), Option.bind_some, store_of_lt (by simp; omega), Option.bind_some,
    List.append_assoc, List.append_assoc]
  cases length with
  | zero => rfl
  | succ length => rfl

/-- A line with all it reads inside the buffer. -/
theorem uuLine_eq (length : ℕ) {ptr : ℕ} {dst : List Byte} (h3 : length % 4 ≠ 3)
    (hsrc : ptr + lineReads length ≤ src.length) (hdst : dst.length + lineBytes length ≤ dlen) :
    uuLine src dlen length ptr dst = some (Email.uuLine (mem src) length ptr dst) := by
  unfold lineReads at hsrc
  unfold lineBytes at hdst
  fun_induction Email.uuLine (mem src) length ptr dst with
  | case1 ptr dst => rw [uuLine]
  | case2 ptr dst =>
    have hptr : ptr + 2 ≤ src.length := hsrc
    rw [uuLine, get_eq_mem (by omega), get_eq_mem (by omega)]
    simp only [Option.bind_eq_bind, Option.bind_some, store_of_lt (show dst.length < dlen by omega)]
  | case3 ptr dst =>
    have hptr : ptr + 3 ≤ src.length := hsrc
    rw [uuLine, get_eq_mem (by omega), get_eq_mem (by omega)]
    simp only [Option.bind_eq_bind, Option.bind_some, store_of_lt (show dst.length < dlen by omega)]
    rw [get_eq_mem (by omega), Option.bind_some, store_of_lt (by simp; omega), Option.bind_some,
      List.append_assoc]
    rfl
  | case4 ptr dst => exact absurd rfl h3
  | case5 length ptr dst ih =>
    rw [uuLine_group length (by split at hsrc <;> omega) (by omega)]
    exact ih (by omega) (by split at hsrc <;> split <;> omega) (by simp; omega)

/-- A line whose last group is cut by the end of the buffer. -/
theorem uuLine_none (length : ℕ) {ptr : ℕ} {dst : List Byte} (h0 : length % 4 ≠ 0)
    (h3 : length % 4 ≠ 3) (hsrc : ptr + length = src.length)
    (hdst : dst.length + lineBytes length ≤ dlen) : uuLine src dlen length ptr dst = none := by
  unfold lineBytes at hdst
  fun_induction Email.uuLine (mem src) length ptr dst with
  | case1 ptr dst => exact absurd rfl h0
  | case2 ptr dst =>
    have hend : src[ptr + 1]? = none := List.getElem?_eq_none (by omega)
    rw [uuLine, get_eq_mem (by omega), hend]
    rfl
  | case3 ptr dst =>
    have hend : src[ptr + 2]? = none := List.getElem?_eq_none (by omega)
    rw [uuLine, get_eq_mem (by omega), get_eq_mem (by omega)]
    simp only [Option.bind_eq_bind, Option.bind_some, store_of_lt (show dst.length < dlen by omega)]
    rw [hend]
    rfl
  | case4 ptr dst => exact absurd rfl h3
  | case5 length ptr dst ih =>
    rw [uuLine_group length (by omega) (by omega)]
    exact ih (by omega) (by omega) (by omega) (by simp; omega)

theorem uuLine_counts (m : ℕ → Byte) (length : ℕ) (ptr : ℕ) (dst : List Byte) (h3 : length % 4 ≠ 3) :
    (Email.uuLine m length ptr dst).1 = ptr + length ∧
      (Email.uuLine m length ptr dst).2.length = dst.length + lineBytes length := by
  unfold lineBytes
  fun_induction Email.uuLine m length ptr dst with
  | case1 ptr dst => exact ⟨rfl, rfl⟩
  | case2 ptr dst => exact ⟨rfl, by simp⟩
  | case3 ptr dst => exact ⟨rfl, by simp⟩
  | case4 ptr dst => exact absurd rfl h3
  | case5 length ptr dst ih =>
    obtain ⟨hptr, hlength⟩ := ih (by omega)
    rw [hptr, hlength, List.length_append]
    simp only [List.length_cons, List.length_nil]
    omega

/-! ### The lines -/

/-- A text, from the start of a line on, that ends with a line whose last group is cut: the length that
the line has left of its first character, or of the room, is not a multiple of three, and the text has
just the characters that `sf_uudecode` asks for. -/
def ragged : (room : ℕ) → (text : List Byte) → Bool
  | _, [] => false
  | room, c :: text =>
    if c = chr '\n' then ragged room text
    else
      let length := min (uuDecodeChar c).toNat room
      if length = 0 ∨ c = chr 'e' ∨ text.length < length * 4 / 3 then false
      else if text.length = length * 4 / 3 ∧ length % 3 ≠ 0 then true
      else ragged (room - length) ((text.drop (length * 4 / 3)).dropWhile (· ≠ chr '\n'))
termination_by _ text => text.length
decreasing_by
  · simp
  · exact Nat.lt_succ_of_le ((List.dropWhile_suffix _).length_le.trans (List.drop_suffix _ _).length_le)

@[simp] theorem ragged_nil (room : ℕ) : ragged room [] = false := by
  rw [ragged]

theorem ragged_lf (room : ℕ) (text : List Byte) :
    ragged room (chr '\n' :: text) = ragged room text := by
  rw [ragged, if_pos rfl]

/-- Without room no line is read. -/
theorem ragged_zero (text : List Byte) : ragged 0 text = false := by
  induction text with
  | nil => exact ragged_nil 0
  | cons c text ih =>
    by_cases hc : c = chr '\n'
    · rw [hc, ragged_lf, ih]
    · rw [ragged, if_neg hc]
      simp

/-- At these places no line is decoded. -/
theorem ragged_stop {room : ℕ} {c : Byte} {text : List Byte} (hlf : c ≠ chr '\n')
    (h : min (uuDecodeChar c).toNat room = 0 ∨ c = chr 'e' ∨
      text.length < min (uuDecodeChar c).toNat room * 4 / 3) : ragged room (c :: text) = false := by
  rw [ragged, if_neg hlf]
  exact if_pos h

theorem ragged_line {room : ℕ} {c : Byte} {text : List Byte} (hlf : c ≠ chr '\n')
    (h : ¬(min (uuDecodeChar c).toNat room = 0 ∨ c = chr 'e' ∨
      text.length < min (uuDecodeChar c).toNat room * 4 / 3)) :
    ragged room (c :: text) =
      if text.length = min (uuDecodeChar c).toNat room * 4 / 3 ∧
        min (uuDecodeChar c).toNat room % 3 ≠ 0 then true
      else ragged (room - min (uuDecodeChar c).toNat room)
        ((text.drop (min (uuDecodeChar c).toNat room * 4 / 3)).dropWhile (· ≠ chr '\n')) := by
  rw [ragged, if_neg hlf]
  exact if_neg h

/-- The inner loop, on a line for `length` bytes. -/
theorem uuLine_line {length ptr : ℕ} {dst : List Byte} (hsrc : ptr + length * 4 / 3 ≤ src.length)
    (hdst : dst.length + length ≤ dlen) :
    uuLine src dlen (length * 4 / 3) ptr dst =
      if src.length - ptr = length * 4 / 3 ∧ length % 3 ≠ 0 then none
      else some (Email.uuLine (mem src) (length * 4 / 3) ptr dst) := by
  have hbytes : lineBytes (length * 4 / 3) = length := by
    unfold lineBytes
    omega
  by_cases hcut : src.length - ptr = length * 4 / 3 ∧ length % 3 ≠ 0
  · rw [if_pos hcut, uuLine_none _ (by omega) (by omega) (by omega) (by omega)]
  · have hreads : ptr + lineReads (length * 4 / 3) ≤ src.length := by
      unfold lineReads
      split <;> omega
    rw [if_neg hcut, uuLine_eq _ (by omega) hreads (by omega)]

theorem uuLine_line_counts (length ptr : ℕ) (dst : List Byte) (m : ℕ → Byte) :
    (Email.uuLine m (length * 4 / 3) ptr dst).1 = ptr + length * 4 / 3 ∧
      (Email.uuLine m (length * 4 / 3) ptr dst).2.length = dst.length + length := by
  have hbytes : lineBytes (length * 4 / 3) = length := by
    unfold lineBytes
    omega
  have h := uuLine_counts m (length * 4 / 3) ptr dst (by omega)
  rwa [hbytes] at h

/-- The text that the loop has before it: at the start of a line, or from the next line feed on. -/
def ahead (src : List Byte) (ptr : ℕ) (sol : Bool) : List Byte :=
  if sol then src.drop ptr else (src.drop ptr).dropWhile (· ≠ chr '\n')

/-- **The loop reads behind the source exactly on a ragged text.** -/
theorem uuLoop_eq {rounds ptr : ℕ} (hrounds : src.length ≤ ptr + rounds) (hptr : ptr ≤ src.length)
    {dst : List Byte} (hdst : dst.length ≤ dlen) (sol : Bool) :
    uuLoop src dlen (rounds + 1) ptr sol dst =
      if ragged (dlen - dst.length) (ahead src ptr sol) then none
      else some (Email.uuLoop (mem src) src.length dlen rounds ptr sol dst) := by
  induction rounds generalizing ptr sol dst with
  | zero =>
    have hend : src.drop ptr = [] := List.drop_eq_nil_of_le hrounds
    have hahead : ahead src ptr sol = [] := by
      cases sol <;> simp [ahead, hend]
    rw [hahead, ragged_nil, uuLoop, if_neg (by omega)]
    rfl
  | succ rounds ih =>
    rw [uuLoop, Email.uuLoop]
    by_cases hgo : ptr < src.length ∧ dst.length < dlen
    · have hdrop : src.drop ptr = mem src ptr :: src.drop (ptr + 1) := by
        rw [List.drop_eq_getElem_cons hgo.1, mem, List.getD_eq_getElem?_getD,
          List.getElem?_eq_getElem hgo.1, Option.getD_some]
      have hlength : (src.drop (ptr + 1)).length = src.length - (ptr + 1) := List.length_drop
      rw [if_pos hgo, if_pos hgo, get_eq_mem hgo.1, Option.bind_eq_bind, Option.bind_some]
      by_cases hlf : mem src ptr = chr '\n'
      · have hahead : ragged (dlen - dst.length) (ahead src ptr sol) =
            ragged (dlen - dst.length) (ahead src (ptr + 1) true) := by
          rw [ahead, hdrop, hlf, List.dropWhile_cons_of_neg (by simp), ite_self, ragged_lf]
          rfl
        rw [if_pos hlf, if_pos hlf, hahead]
        exact ih (by omega) (by omega) hdst true
      rw [if_neg hlf, if_neg hlf]
      cases sol with
      | false =>
        have hahead : ahead src ptr false = ahead src (ptr + 1) false := by
          simp [ahead, hdrop, hlf]
        rw [hahead]
        exact ih (by omega) (by omega) hdst false
      | true =>
        have hahead : ahead src ptr true = mem src ptr :: src.drop (ptr + 1) := hdrop
        rw [hahead]
        dsimp only
        rw [if_pos rfl, if_pos rfl]
        by_cases hzero : (uuDecodeChar (mem src ptr)).toNat = 0
        · rw [if_pos hzero, if_pos hzero, ragged_stop hlf (Or.inl (by omega))]
          rfl
        by_cases he : mem src ptr = chr 'e'
        · have hfive : (uuDecodeChar (mem src ptr)).toNat = 5 ∧ mem src ptr = chr 'e' := by
            rw [he]
            exact ⟨rfl, rfl⟩
          rw [if_neg hzero, if_neg hzero, if_pos hfive, if_pos hfive, ragged_stop hlf (Or.inr (Or.inl he))]
          rfl
        have hgoes : ¬((uuDecodeChar (mem src ptr)).toNat = 5 ∧ mem src ptr = chr 'e') := fun h => he h.2
        rw [if_neg hzero, if_neg hzero, if_neg hgoes, if_neg hgoes]
        by_cases hshort : src.length - (ptr + 1) <
            min (uuDecodeChar (mem src ptr)).toNat (dlen - dst.length) * 4 / 3
        · rw [if_pos hshort, if_pos hshort,
            ragged_stop hlf (Or.inr (Or.inr (hlength.trans_lt hshort)))]
          rfl
        have hline : ¬(min (uuDecodeChar (mem src ptr)).toNat (dlen - dst.length) = 0 ∨
            mem src ptr = chr 'e' ∨ (src.drop (ptr + 1)).length <
              min (uuDecodeChar (mem src ptr)).toNat (dlen - dst.length) * 4 / 3) := by
          rw [hlength]
          rintro (h | h | h)
          · omega
          · exact he h
          · exact hshort h
        rw [if_neg hshort, if_neg hshort, ragged_line hlf hline, hlength]
        have hfits : min (uuDecodeChar (mem src ptr)).toNat (dlen - dst.length) ≤ dlen - dst.length :=
          Nat.min_le_right _ _
        generalize min (uuDecodeChar (mem src ptr)).toNat (dlen - dst.length) = length at hshort hfits
        rw [uuLine_line (by omega) (by omega)]
        split
        · rfl
        · obtain ⟨hend, hout⟩ := uuLine_line_counts length (ptr + 1) dst (mem src)
          have hbehind : ahead src (ptr + 1 + length * 4 / 3) false =
              ((src.drop (ptr + 1)).drop (length * 4 / 3)).dropWhile (· ≠ chr '\n') := by
            rw [List.drop_drop]
            rfl
          rw [Option.bind_eq_bind, Option.bind_some, ih (by omega) (by omega) (by omega), hend, hbehind,
            hout, Nat.sub_sub]
    · have hstop : ragged (dlen - dst.length) (ahead src ptr sol) = false := by
        by_cases hend : src.length ≤ ptr
        · have hnil : src.drop ptr = [] := List.drop_eq_nil_of_le hend
          have hahead : ahead src ptr sol = [] := by
            cases sol <;> simp [ahead, hnil]
          rw [hahead, ragged_nil]
        · rw [show dlen - dst.length = 0 by omega, ragged_zero]
      rw [if_neg hgo, if_neg hgo, hstop]
      rfl

/-- The loop leaves `ptr` and what it has written inside the buffers. -/
theorem uuLoop_le (rounds : ℕ) {ptr : ℕ} (hptr : ptr ≤ src.length) {dst : List Byte}
    (hdst : dst.length ≤ dlen) (sol : Bool) :
    (Email.uuLoop (mem src) src.length dlen rounds ptr sol dst).1 ≤ src.length ∧
      (Email.uuLoop (mem src) src.length dlen rounds ptr sol dst).2.1.length ≤ dlen := by
  induction rounds generalizing ptr sol dst with
  | zero => exact ⟨hptr, hdst⟩
  | succ rounds ih =>
    rw [Email.uuLoop]
    by_cases hgo : ptr < src.length ∧ dst.length < dlen
    · rw [if_pos hgo]
      split
      · exact ih (by omega) hdst true
      split
      · dsimp only
        split
        · exact ⟨hptr, hdst⟩
        split
        · exact ⟨hptr, hdst⟩
        split
        · exact ⟨hptr, hdst⟩
        · rename_i hlong
          obtain ⟨hend, hout⟩ := uuLine_line_counts
            (min (uuDecodeChar (mem src ptr)).toNat (dlen - dst.length)) (ptr + 1) dst (mem src)
          refine ih ?_ ?_ false
          · rw [hend]
            omega
          · rw [hout]
            omega
      · exact ih (by omega) hdst false
    · rw [if_neg hgo]
      exact ⟨hptr, hdst⟩

/-! ### The search for the data -/

/-- `SnortStrnStr` stays in the `slen` bytes. -/
theorem snortStrnStr_some (first : Byte) (search : List Byte) (slen : ℕ) {ptr : ℕ}
    (h : ptr + slen ≤ src.length) :
    ∃ found, snortStrnStr src first search slen ptr = some found ∧ ∀ p ∈ found, p < src.length := by
  induction slen generalizing ptr with
  | zero => exact ⟨none, rfl, by simp⟩
  | succ slen ih =>
    have hnext := ih (show ptr + 1 + slen ≤ src.length by omega)
    rw [snortStrnStr, get_eq_mem (by omega), Option.bind_eq_bind, Option.bind_some]
    split
    · exact ⟨none, rfl, by simp⟩
    split
    · exact hnext
    split
    · exact ⟨none, rfl, by simp⟩
    · rename_i hroom
      have hsearch : ¬src.length < ptr + 1 + search.length := by
        unfold CInt.i32 at hroom
        omega
      rw [if_neg hsearch]
      split
      · refine ⟨some ptr, rfl, fun p hp => ?_⟩
        cases hp
        omega
      · exact hnext

/-- The search for `begin` stays in the source. -/
theorem uuBegin_some (src : List Byte) (beginFound : Bool) :
    ∃ b, uuBegin src beginFound = some b ∧ (∀ n f, b = .done n f → n ≤ src.length) ∧
      ∀ ptr, b = .loop ptr → ptr ≤ src.length := by
  unfold uuBegin
  split
  · exact ⟨_, rfl, by simp, by simp⟩
  split
  · exact ⟨_, rfl, by simp, by simp⟩
  · rename_i hfive
    obtain ⟨sod, hsod, hlt⟩ := snortStrnStr_some (chr 'b') (bytes "egin") 5
      (show 0 + 5 ≤ src.length by omega)
    rw [hsod, Option.bind_eq_bind, Option.bind_some]
    cases sod with
    | none => exact ⟨_, rfl, by simp, by simp⟩
    | some sod =>
      have hle := hlt sod rfl
      obtain ⟨ptr, hptr, hplt⟩ := snortStrnStr_some (chr '\n') []
        (src.length - sod) (show sod + (src.length - sod) ≤ src.length by omega)
      dsimp only
      rw [hptr, Option.bind_some]
      cases ptr with
      | none => exact ⟨_, rfl, by simp, by simp⟩
      | some ptr => exact ⟨_, rfl, by simp, by simpa using (hplt ptr rfl).le⟩

/-! ### Memory safety -/

/-- All accesses of `sf_uudecode` are inside its buffers, and what it reports is as well. -/
def UuSafe (src : List Byte) (dlen : ℕ) (beginFound endFound : Bool) : Prop :=
  ∃ r, sfUudecode src dlen beginFound endFound = some r ∧
    ∀ u ∈ r, u.bytesRead ≤ src.length ∧ u.out.length ≤ dlen

/-- The same for `sf_qpdecode`. -/
def QpSafe (src : List Byte) (dlen : ℕ) : Prop :=
  ∃ r, sfQpdecode src dlen = some r ∧ ∀ p ∈ r, p.2 ≤ src.length ∧ p.1.length ≤ dlen

theorem qpSafe (src : List Byte) (dlen : ℕ) : QpSafe src dlen := by
  refine ⟨_, sfQpdecode_eq src dlen, fun p hp => ?_⟩
  unfold Email.sfQpdecode at hp
  split at hp
  · cases hp
  · cases hp
    exact ⟨Nat.sub_le _ _, length_qpLoop_le (Nat.zero_le _)⟩

/-- **When the decoders stay in their buffers**: the data that `sf_uudecode` starts with are not
ragged. -/
theorem decoders_safe_iff (src : List Byte) (dlen : ℕ) (beginFound endFound : Bool) :
    UuSafe src dlen beginFound endFound ∧ QpSafe src dlen ↔
      ∀ ptr, uuBegin src beginFound = some (.loop ptr) → ragged dlen (src.drop ptr) = false := by
  obtain ⟨b, hb, hdone, hloop⟩ := uuBegin_some src beginFound
  rw [and_iff_left (qpSafe src dlen), UuSafe, sfUudecode, hb]
  by_cases hempty : src.length = 0 ∨ dlen = 0
  · have hragged : ∀ ptr, ragged dlen (src.drop ptr) = false := by
      intro ptr
      rcases hempty with hsrc | hdst
      · rw [List.eq_nil_of_length_eq_zero hsrc, List.drop_nil, ragged_nil]
      · rw [hdst, ragged_zero]
    rw [if_pos hempty]
    exact ⟨fun _ ptr _ => hragged ptr, fun _ => ⟨none, rfl, by simp⟩⟩
  rw [if_neg hempty, Option.bind_eq_bind, Option.bind_some]
  cases b with
  | error => exact ⟨fun _ ptr h => (Begin.noConfusion (Option.some.inj h)), fun _ => ⟨none, rfl, by simp⟩⟩
  | done n f =>
    refine ⟨fun _ ptr h => (Begin.noConfusion (Option.some.inj h)), fun _ => ⟨_, rfl, ?_⟩⟩
    intro u hu
    cases hu
    exact ⟨hdone n f rfl, Nat.zero_le _⟩
  | loop ptr =>
    have hptr := hloop ptr rfl
    have hrounds : src.length ≤ ptr + src.length := Nat.le_add_left _ _
    have hroom : ([] : List Byte).length ≤ dlen := Nat.zero_le _
    have hrun := uuLoop_eq hrounds hptr hroom true
    have hahead : ahead src ptr true = src.drop ptr := rfl
    rw [hahead, List.length_nil, Nat.sub_zero] at hrun
    dsimp only
    rw [hrun]
    cases hragged : ragged dlen (src.drop ptr) with
    | true =>
      constructor
      · rintro ⟨r, hr, -⟩
        cases hr
      · intro h
        exact absurd (hragged.symm.trans (h ptr rfl)) Bool.noConfusion
    | false =>
      obtain ⟨hread, hout⟩ := uuLoop_le src.length hptr hroom true
      constructor
      · rintro - p hp
        cases hp
        exact hragged
      · refine fun _ => ⟨_, rfl, fun u hu => ?_⟩
        cases hu
        refine ⟨?_, hout⟩
        dsimp only
        split
        · exact le_rfl
        · exact hread

/-- A line for one byte asks for one character, and reads a second one behind the source. -/
theorem sfUudecode_overread : ¬UuSafe (bytes "!A") 10 true false := by
  rintro ⟨r, hr, -⟩
  have hnone : sfUudecode (bytes "!A") 10 true false = none := by decide +kernel
  exact absurd (hnone.symm.trans hr) (by simp)

end Snort.Email.Checked
