import Mathlib.Tactic

/-!
# UTF-16 and UTF-32: `util_utf.c`

`DecodeUTF` copies the low-order byte of each code unit and drops the others.  A code unit may be cut
between two calls: the state says how many of its bytes have been read.  The bytes are plain `char`s,
which are signed; arguments are not `NULL`.

* `decodeUTF`, with one loop for the four character sets;
* `decodeLoop_eq`: the loop copies the bytes at some places of each unit and looks at the others;
* **`decodeUTF_cut_iff`**: when the cut into calls does not matter and other bytes than zero are
  reported.
-/

namespace Snort.Utf

/-- A `char`. -/
abbrev Char8 := BitVec 8

/-- `CHARSET_*`. -/
inductive Charset
  | default
  | utf7
  | utf16le
  | utf16be
  | utf32le
  | utf32be
  | unknown
  deriving DecidableEq

/-- What a decoder leaves: the bytes copied, `dstate->state`, and whether it returns
`DECODE_UTF_FAILURE`. -/
structure Decoded where
  copied : List Char8
  state : ℕ
  failed : Bool

/-- The state behind a byte of a code unit of `size` bytes. -/
def nextState (size state : ℕ) : ℕ := if state + 1 = size then 0 else state + 1

/-- The loop of the decoders: of the `size` bytes of a unit the one at `keep` is copied, while the
destination has `room`. -/
def decodeLoop (size keep : ℕ) : ℕ → List Char8 → ℕ → Decoded
  | state, [], _ => ⟨[], state, false⟩
  | state, _ :: _, 0 => ⟨[], state, false⟩
  | state, b :: src, room + 1 =>
    if size ≤ state then ⟨[], state, true⟩
    else if state = keep then
      let r := decodeLoop size keep (nextState size state) src room
      { r with copied := b :: r.copied }
    else
      let r := decodeLoop size keep (nextState size state) src (room + 1)
      { r with failed := decide (0 < b.toInt) || r.failed }

/-- `DecodeUTF16LE`: copy first byte, skip second. -/
def decodeUTF16LE (state : ℕ) (src : List Char8) (dstLen : ℕ) : Decoded :=
  decodeLoop 2 0 state src dstLen

/-- `DecodeUTF16BE`: skip first byte, copy second. -/
def decodeUTF16BE (state : ℕ) (src : List Char8) (dstLen : ℕ) : Decoded :=
  decodeLoop 2 1 state src dstLen

/-- `DecodeUTF32LE`: copy the first byte, then skip three. -/
def decodeUTF32LE (state : ℕ) (src : List Char8) (dstLen : ℕ) : Decoded :=
  decodeLoop 4 0 state src dstLen

/-- `DecodeUTF32BE`: skip three bytes, copy the fourth. -/
def decodeUTF32BE (state : ℕ) (src : List Char8) (dstLen : ℕ) : Decoded :=
  decodeLoop 4 3 state src dstLen

/-- `DecodeUTF`. -/
def decodeUTF (charset : Charset) (state : ℕ) (src : List Char8) (dstLen : ℕ) : Decoded :=
  if src = [] ∨ dstLen = 0 then ⟨[], state, true⟩
  else
    match charset with
    | .utf16le => decodeUTF16LE state src dstLen
    | .utf16be => decodeUTF16BE state src dstLen
    | .utf32le => decodeUTF32LE state src dstLen
    | .utf32be => decodeUTF32BE state src dstLen
    | _ => ⟨[], state, true⟩

/-- Calls one after the other, each with its source and the length of its destination. -/
def decodeCalls (charset : Charset) : ℕ → List (List Char8 × ℕ) → Decoded
  | state, [] => ⟨[], state, false⟩
  | state, (src, dstLen) :: calls =>
    let r := decodeUTF charset state src dstLen
    let r' := decodeCalls charset r.state calls
    ⟨r.copied ++ r'.copied, r'.state, r.failed || r'.failed⟩

/-! ### The bytes of code units -/

/-- The number of bytes of a code unit, and the place of the low-order one. -/
structure Shape where
  size : ℕ
  keep : ℕ
  lt : keep < size

/-- The code units of a character set, if it is one that is decoded. -/
def Charset.shape : Charset → Option Shape
  | .utf16le => some ⟨2, 0, Nat.two_pos⟩
  | .utf16be => some ⟨2, 1, Nat.one_lt_two⟩
  | .utf32le => some ⟨4, 0, Nat.succ_pos 3⟩
  | .utf32be => some ⟨4, 3, Nat.lt_succ_self 3⟩
  | _ => none

variable {u : Shape}

/-- The low-order bytes of code units, when the first byte is the `k`th of the text. -/
def Shape.low (u : Shape) (k : ℕ) (bytes : List Char8) : List Char8 :=
  ((bytes.zipIdx k).filter fun p => p.2 % u.size = u.keep).map Prod.fst

/-- The other bytes. -/
def Shape.dropped (u : Shape) (k : ℕ) (bytes : List Char8) : List Char8 :=
  ((bytes.zipIdx k).filter fun p => p.2 % u.size ≠ u.keep).map Prod.fst

@[simp] theorem low_nil (k : ℕ) : u.low k [] = [] := rfl

@[simp] theorem dropped_nil (k : ℕ) : u.dropped k [] = [] := rfl

theorem low_cons_keep {k : ℕ} (h : k % u.size = u.keep) (b : Char8) (bytes : List Char8) :
    u.low k (b :: bytes) = b :: u.low (k + 1) bytes := by
  simp [Shape.low, List.zipIdx_cons, h]

theorem low_cons_drop {k : ℕ} (h : k % u.size ≠ u.keep) (b : Char8) (bytes : List Char8) :
    u.low k (b :: bytes) = u.low (k + 1) bytes := by
  simp [Shape.low, List.zipIdx_cons, h]

theorem dropped_cons_keep {k : ℕ} (h : k % u.size = u.keep) (b : Char8) (bytes : List Char8) :
    u.dropped k (b :: bytes) = u.dropped (k + 1) bytes := by
  simp [Shape.dropped, List.zipIdx_cons, h]

theorem dropped_cons_drop {k : ℕ} (h : k % u.size ≠ u.keep) (b : Char8) (bytes : List Char8) :
    u.dropped k (b :: bytes) = b :: u.dropped (k + 1) bytes := by
  simp [Shape.dropped, List.zipIdx_cons, h]

theorem low_append (k : ℕ) (a b : List Char8) :
    u.low k (a ++ b) = u.low k a ++ u.low (k + a.length) b := by
  simp [Shape.low, List.zipIdx_append]

theorem dropped_append (k : ℕ) (a b : List Char8) :
    u.dropped k (a ++ b) = u.dropped k a ++ u.dropped (k + a.length) b := by
  simp [Shape.dropped, List.zipIdx_append]

/-- The destination is large enough: whenever a byte is left to read, it is not full. -/
def Shape.Fits (u : Shape) (k : ℕ) (src : List Char8) (dstLen : ℕ) : Prop :=
  ∀ j < src.length, (u.low k (src.take j)).length < dstLen

theorem Shape.nextState_mod (u : Shape) (k : ℕ) :
    nextState u.size (k % u.size) = (k + 1) % u.size := by
  have hlt : k % u.size < u.size := Nat.mod_lt _ (Nat.zero_lt_of_lt u.lt)
  have hmod : (k % u.size + 1) % u.size = (k + 1) % u.size := Nat.mod_add_mod k u.size 1
  rw [nextState, ← hmod]
  split_ifs with h
  · rw [h, Nat.mod_self]
  · exact (Nat.mod_eq_of_lt (by omega)).symm

/-- A dropped byte is reported. -/
def reported (bytes : List Char8) : Bool := bytes.any fun b => decide (0 < b.toInt)

/-- What the loop does, when the destination is large enough. -/
theorem decodeLoop_eq (k : ℕ) (src : List Char8) (room : ℕ) (h : u.Fits k src room) :
    decodeLoop u.size u.keep (k % u.size) src room =
      ⟨u.low k src, (k + src.length) % u.size, reported (u.dropped k src)⟩ := by
  induction src generalizing k room with
  | nil => rfl
  | cons b src ih =>
    have hlt : ¬ u.size ≤ k % u.size := Nat.not_le.2 (Nat.mod_lt _ (Nat.zero_lt_of_lt u.lt))
    have hlen : k + (b :: src).length = k + 1 + src.length := by
      rw [List.length_cons]
      omega
    cases room with
    | zero => exact absurd (h 0 (Nat.succ_pos _)) (Nat.not_lt_zero _)
    | succ room =>
      rw [decodeLoop, if_neg hlt, u.nextState_mod, hlen]
      by_cases hkeep : k % u.size = u.keep
      · have hfits : u.Fits (k + 1) src room := fun j hj => by
          have hroom := h (j + 1) (Nat.succ_lt_succ hj)
          rw [List.take_succ_cons, low_cons_keep hkeep, List.length_cons] at hroom
          exact Nat.lt_of_succ_lt_succ hroom
        rw [if_pos hkeep, ih _ _ hfits, low_cons_keep hkeep, dropped_cons_keep hkeep]
      · have hfits : u.Fits (k + 1) src (room + 1) := fun j hj => by
          have hroom := h (j + 1) (Nat.succ_lt_succ hj)
          rwa [List.take_succ_cons, low_cons_drop hkeep] at hroom
        rw [if_neg hkeep, ih _ _ hfits, low_cons_drop hkeep, dropped_cons_drop hkeep]
        rfl

theorem decodeUTF_eq {charset : Charset} (hu : charset.shape = some u) (k : ℕ) {src : List Char8}
    {dstLen : ℕ} (hsrc : src ≠ []) (h : u.Fits k src dstLen) :
    decodeUTF charset (k % u.size) src dstLen =
      ⟨u.low k src, (k + src.length) % u.size, reported (u.dropped k src)⟩ := by
  have hdst : dstLen ≠ 0 := Nat.ne_zero_of_lt (h 0 (List.length_pos_of_ne_nil hsrc))
  have hloop := decodeLoop_eq k src dstLen h
  unfold decodeUTF
  rw [if_neg (not_or.2 ⟨hsrc, hdst⟩)]
  cases charset with
  | default | utf7 | unknown => cases hu
  | utf16le | utf16be | utf32le | utf32be =>
    obtain rfl := Option.some.inj hu
    exact hloop

/-- The calls are not empty and the destination of each is large enough. -/
def Shape.FitsAll (u : Shape) : ℕ → List (List Char8 × ℕ) → Prop
  | _, [] => True
  | k, (src, dstLen) :: calls =>
    src ≠ [] ∧ u.Fits k src dstLen ∧ u.FitsAll (k + src.length) calls

/-- The text of some calls. -/
def text (calls : List (List Char8 × ℕ)) : List Char8 := (calls.map Prod.fst).flatten

/-- Calls one after the other do what one call would do. -/
theorem decodeCalls_eq {charset : Charset} (hu : charset.shape = some u) (k : ℕ)
    {calls : List (List Char8 × ℕ)} (h : u.FitsAll k calls) :
    decodeCalls charset (k % u.size) calls =
      ⟨u.low k (text calls), (k + (text calls).length) % u.size,
        reported (u.dropped k (text calls))⟩ := by
  induction calls generalizing k with
  | nil => rfl
  | cons call calls ih =>
    obtain ⟨src, dstLen⟩ := call
    obtain ⟨hsrc, hfits, hall⟩ := h
    have htext : text ((src, dstLen) :: calls) = src ++ text calls := rfl
    rw [decodeCalls, decodeUTF_eq hu k hsrc hfits, ih _ hall, htext, low_append, dropped_append,
      List.length_append, Nat.add_assoc, reported, reported, reported, List.any_append]

/-- **When the cut into calls does not matter and other bytes than zero are reported**: the bytes
that are dropped are zero, or one of them is in ASCII. -/
theorem decodeUTF_cut_iff {charset : Charset} {u : Shape} (hu : charset.shape = some u)
    {calls : List (List Char8 × ℕ)} (h : u.FitsAll 0 calls) :
    ((decodeCalls charset 0 calls).copied = u.low 0 (text calls) ∧
      (decodeCalls charset 0 calls).state = (text calls).length % u.size ∧
      ((decodeCalls charset 0 calls).failed = true ↔ ∃ b ∈ u.dropped 0 (text calls), b ≠ 0)) ↔
    ((∀ b ∈ u.dropped 0 (text calls), b = 0) ∨ ∃ b ∈ u.dropped 0 (text calls), 0 < b.toInt) := by
  have hrun := decodeCalls_eq hu 0 h
  rw [Nat.zero_mod, Nat.zero_add] at hrun
  have hne : ∀ {b : Char8}, 0 < b.toInt → b ≠ 0 := by
    rintro b hb rfl
    exact absurd hb (by decide)
  have hfailed : reported (u.dropped 0 (text calls)) = true ↔
      ∃ b ∈ u.dropped 0 (text calls), 0 < b.toInt := by
    simp [reported]
  rw [hrun]
  dsimp only
  rw [hfailed]
  constructor
  · rintro ⟨-, -, hiff⟩
    by_cases hall : ∀ b ∈ u.dropped 0 (text calls), b = 0
    · exact Or.inl hall
    · push Not at hall
      exact Or.inr (hiff.2 hall)
  · rintro (hall | ⟨b, hb, hpos⟩)
    · refine ⟨rfl, rfl, fun ⟨b, hb, hpos⟩ => absurd (hall b hb) (hne hpos), ?_⟩
      exact fun ⟨b, hb, hnot⟩ => absurd (hall b hb) hnot
    · exact ⟨rfl, rfl, fun _ => ⟨b, hb, hne hpos⟩, fun _ => ⟨b, hb, hpos⟩⟩

/-- The letter A, as UTF-16LE in two calls. -/
theorem decodeUTF_cut_iff_letter :
    (decodeCalls .utf16le 0 [([0x41], 4), ([0], 4)]).copied = [0x41] ∧
    (decodeCalls .utf16le 0 [([0x41], 4), ([0], 4)]).state = 0 ∧
    (decodeCalls .utf16le 0 [([0x41], 4), ([0], 4)]).failed = false := by
  have hfits : ∀ {u : Shape} {k dstLen : ℕ} {b : Char8}, 0 < dstLen → u.Fits k [b] dstLen := by
    intro u k dstLen b hpos j hj
    rw [Nat.lt_one_iff.1 hj]
    exact hpos
  have hall : (⟨2, 0, Nat.two_pos⟩ : Shape).FitsAll 0 [([0x41], 4), ([0], 4)] :=
    ⟨by decide, hfits (by decide), by decide, hfits (by decide), trivial⟩
  have hu : Charset.utf16le.shape = some ⟨2, 0, Nat.two_pos⟩ := rfl
  have h := (decodeUTF_cut_iff hu hall).2 (Or.inl (by decide))
  exact ⟨h.1, h.2.1, by decide⟩

/-- A high-order byte from 0x80 on is not reported: `char` is signed. -/
theorem decodeUTF_signed :
    (decodeCalls .utf16le 0 [([0x41, 0x80], 4)]).failed = false ∧
    (⟨2, 0, Nat.two_pos⟩ : Shape).dropped 0 (text [([0x41, 0x80], 4)]) = [0x80] := by
  decide

end Snort.Utf
