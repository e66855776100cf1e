import Snort.Email.Base64

/-!
# Base64 encodings

What `sf_base64decode` makes of the encodings of a byte string, whatever the size of the output
buffer.

* `Encodes`: the encodings of a byte string, with any bits under the padding; `base64Encode` is the
  one with zeros there;
* `base64Loop_encodes`: the loop decodes groups of four until the buffer is full or
  `max_base64_chars` have been read;
* **`sfBase64decode_encodes_iff`**: when it gives the bytes back.  `max_base64_chars` is computed in 32
  bits.
-/

namespace Snort.Email

/-! ### The alphabet -/

/-- The digits of base64. -/
def base64Digits : List Byte :=
  bytes "ABCDEFGHIJKLMNOPQRSTUVWXYZabcdefghijklmnopqrstuvwxyz0123456789+/"

/-- The base64 alphabet: the digits and the padding. -/
def base64Alphabet : List Byte := base64Digits ++ [chr '=']

def digit (v : ℕ) : Byte := base64Digits.getD v 0

/-- The encodings of a byte string.  Under the padding of the last group there are bits left over. -/
inductive Encodes : List Byte → List Byte → Prop
  | nil : Encodes [] []
  | one (x : Byte) {l : ℕ} (hl : l < 16) :
      Encodes [x] [digit (x.toNat / 4), digit (x.toNat % 4 * 16 + l), chr '=', chr '=']
  | two (x y : Byte) {l : ℕ} (hl : l < 4) :
      Encodes [x, y] [digit (x.toNat / 4), digit (x.toNat % 4 * 16 + y.toNat / 16),
        digit (y.toNat % 16 * 4 + l), chr '=']
  | three (x y z : Byte) {xs cs : List Byte} (h : Encodes xs cs) :
      Encodes (x :: y :: z :: xs) (digit (x.toNat / 4) :: digit (x.toNat % 4 * 16 + y.toNat / 16) ::
        digit (y.toNat % 16 * 4 + z.toNat / 64) :: digit (z.toNat % 64) :: cs)

/-- The encoding with zeros under the padding. -/
def base64Encode : List Byte → List Byte
  | [] => []
  | [x] => [digit (x.toNat / 4), digit (x.toNat % 4 * 16), chr '=', chr '=']
  | [x, y] => [digit (x.toNat / 4), digit (x.toNat % 4 * 16 + y.toNat / 16),
      digit (y.toNat % 16 * 4), chr '=']
  | x :: y :: z :: xs => digit (x.toNat / 4) :: digit (x.toNat % 4 * 16 + y.toNat / 16) ::
      digit (y.toNat % 16 * 4 + z.toNat / 64) :: digit (z.toNat % 64) :: base64Encode xs

theorem encodes_base64Encode : ∀ xs : List Byte, Encodes xs (base64Encode xs)
  | [] => .nil
  | [x] => .one x (l := 0) (by decide)
  | [x, y] => .two x y (l := 0) (by decide)
  | x :: y :: z :: xs => .three x y z (encodes_base64Encode xs)

theorem length_base64Digits : base64Digits.length = 64 := by decide +kernel

theorem mem_base64Digits {c : Byte} : c ∈ base64Digits ↔ ∃ v < 64, digit v = c := by
  rw [List.mem_iff_getElem?]
  constructor
  · rintro ⟨v, hv⟩
    have hlt := (List.getElem?_eq_some_iff.1 hv).1
    rw [length_base64Digits] at hlt
    exact ⟨v, hlt, by rw [digit, List.getD_eq_getElem?_getD, hv, Option.getD_some]⟩
  · rintro ⟨v, hv, rfl⟩
    have hlt : v < base64Digits.length := length_base64Digits ▸ hv
    exact ⟨v, by rw [digit, List.getD_eq_getElem?_getD, List.getElem?_eq_getElem hlt, Option.getD_some]⟩

theorem tableval_digit {v : ℕ} (hv : v < 64) : tableval (digit v) = BitVec.ofNat 8 v := by
  have hall : ∀ v < 64, tableval (digit v) = BitVec.ofNat 8 v := by decide +kernel
  exact hall v hv

theorem sfDecode64tab_entries : sfDecode64tab.zipIdx.all (fun e => e.1 = 100 || BitVec.ofNat 8 e.2 = chr '=' ||
    e.1.toNat < 64 && digit e.1.toNat = BitVec.ofNat 8 e.2) = true := by
  decide +kernel

/-- The table has an entry for the characters of the alphabet. -/
theorem tableval_ne_iff (c : Byte) : tableval c ≠ 100 ↔ c ∈ base64Alphabet := by
  rw [base64Alphabet, List.mem_append, List.mem_singleton, mem_base64Digits]
  constructor
  · intro hc
    rw [tableval, List.getD_eq_getElem?_getD] at hc
    cases hx : sfDecode64tab[c.toNat]? with
    | none => exact absurd (by rw [hx]; rfl) hc
    | some x =>
      rw [hx, Option.getD_some] at hc
      have hentry := List.all_eq_true.1 sfDecode64tab_entries (x, c.toNat) (List.mk_mem_zipIdx_iff_getElem?.2 hx)
      simp only [BitVec.ofNat_toNat, BitVec.setWidth_eq, Bool.or_eq_true, Bool.and_eq_true,
        decide_eq_true_eq] at hentry
      rcases hentry with (hskip | hpad) | ⟨hlt, hdigit⟩
      · exact absurd hskip hc
      · exact .inr hpad
      · exact .inl ⟨_, hlt, hdigit⟩
  · rintro (⟨v, hv, rfl⟩ | rfl)
    · rw [tableval_digit hv, ne_eq, ← BitVec.toNat_inj, BitVec.toNat_ofNat, show (100 : Byte).toNat = 100 from rfl]
      omega
    · decide

theorem b64Chars_eq_filter (s : List Byte) : b64Chars s = s.filter (· ∈ base64Alphabet) := by
  apply List.filter_congr
  intro c _
  exact decide_eq_decide.2 (tableval_ne_iff c)

theorem digit_ne_pad {v : ℕ} (hv : v < 64) : digit v ≠ chr '=' := by
  have hall : ∀ v < 64, digit v ≠ chr '=' := by decide +kernel
  exact hall v hv

/-! ### One group -/

/-- Bytes without common bits. -/
theorem ofNat_or_ofNat {a b k : ℕ} (ha : 2 ^ k ∣ a) (hb : b < 2 ^ k) :
    BitVec.ofNat 8 a ||| BitVec.ofNat 8 b = BitVec.ofNat 8 (a + b) := by
  obtain ⟨n, rfl⟩ := ha
  rw [← BitVec.ofNat_or, ← Nat.two_pow_add_eq_or_of_lt hb]

/-- The three bytes of a group. -/
theorem bytes_of_digits {v w : ℕ} (hv : v < 64) (hw : w < 64) :
    BitVec.ofNat 8 v <<< 2 ||| BitVec.ofNat 8 w >>> 4 = BitVec.ofNat 8 (v * 4 + w / 16) ∧
    BitVec.ofNat 8 v <<< 4 ||| BitVec.ofNat 8 w >>> 2 = BitVec.ofNat 8 (v % 16 * 16 + w / 4) ∧
    BitVec.ofNat 8 v <<< 6 ||| BitVec.ofNat 8 w = BitVec.ofNat 8 (v % 4 * 64 + w) := by
  have hleft : ∀ k, BitVec.ofNat 8 v <<< k = BitVec.ofNat 8 (v * 2 ^ k % 256) := fun k => by
    apply BitVec.eq_of_toNat_eq
    simp [Nat.shiftLeft_eq]
  have hright : ∀ k, BitVec.ofNat 8 w >>> k = BitVec.ofNat 8 (w / 2 ^ k) := fun k => by
    have hle := Nat.div_le_self w (2 ^ k)
    apply BitVec.eq_of_toNat_eq
    rw [BitVec.toNat_ushiftRight, BitVec.toNat_ofNat, BitVec.toNat_ofNat, Nat.shiftRight_eq_div_pow,
      Nat.mod_eq_of_lt (by omega), Nat.mod_eq_of_lt (by omega)]
  simp only [hleft, hright]
  refine ⟨?_, ?_, ?_⟩
  · rw [@ofNat_or_ofNat _ _ 2 (by omega) (by omega), show v * 2 ^ 2 % 256 + w / 2 ^ 4 = v * 4 + w / 16 by omega]
  · rw [@ofNat_or_ofNat _ _ 4 (by omega) (by omega), show v * 2 ^ 4 % 256 + w / 2 ^ 2 = v % 16 * 16 + w / 4 by omega]
  · rw [@ofNat_or_ofNat _ _ 6 (by omega) (by omega), show v * 2 ^ 6 % 256 + w = v % 4 * 64 + w by omega]

/-- A byte from its upper and its lower bits. -/
theorem byte_eq {x : Byte} {n : ℕ} (h : n = x.toNat) : BitVec.ofNat 8 n = x := by
  rw [h, BitVec.ofNat_toNat, BitVec.setWidth_eq]

theorem first_eq (x : Byte) {l : ℕ} (hl : l < 16) :
    tableval (digit (x.toNat / 4)) <<< 2 ||| tableval (digit (x.toNat % 4 * 16 + l)) >>> 4 = x := by
  have hx := x.isLt
  rw [tableval_digit (by omega), tableval_digit (by omega),
    (bytes_of_digits (by omega) (by omega)).1]
  exact byte_eq (by omega)

theorem second_eq (k : ℕ) (hk : k < 4) (y : Byte) {l : ℕ} (hl : l < 4) :
    tableval (digit (k * 16 + y.toNat / 16)) <<< 4 |||
      tableval (digit (y.toNat % 16 * 4 + l)) >>> 2 = y := by
  have hy := y.isLt
  rw [tableval_digit (by omega), tableval_digit (by omega),
    (bytes_of_digits (by omega) (by omega)).2.1]
  exact byte_eq (by omega)

theorem third_eq (k : ℕ) (hk : k < 16) (z : Byte) :
    tableval (digit (k * 4 + z.toNat / 64)) <<< 6 ||| tableval (digit (z.toNat % 64)) = z := by
  have hz := z.isLt
  rw [tableval_digit (by omega), tableval_digit (by omega),
    (bytes_of_digits (by omega) (by omega)).2.2]
  exact byte_eq (by omega)

/-- A group, in any output buffer. -/
theorem base64Group_take {a b : Byte} (ha : a ≠ chr '=') (hb : b ≠ chr '=') (c d : Byte)
    (room : ℕ) :
    base64Group a b c d room =
      if c = chr '=' then some ([tableval a <<< 2 ||| tableval b >>> 4].take room, false)
      else if d = chr '=' then
        some ([tableval a <<< 2 ||| tableval b >>> 4,
          tableval b <<< 4 ||| tableval c >>> 2].take room, false)
      else some ([tableval a <<< 2 ||| tableval b >>> 4, tableval b <<< 4 ||| tableval c >>> 2,
        tableval c <<< 6 ||| tableval d].take room, decide (3 ≤ room)) := by
  rw [base64Group, if_neg (not_or.2 ⟨ha, hb⟩)]
  rcases room with _ | _ | _ | room <;> by_cases hc : c = chr '=' <;> by_cases hd : d = chr '=' <;>
    simp [hc, hd]

variable {outbufSize maxChars : ℕ}

variable (outbufSize) in
/-- Up to the next character of the alphabet the loop does nothing. -/
theorem base64Loop_next {s t : List Byte} {a : Byte} (h : b64Chars s = a :: t) {n : ℕ}
    (hn : n < maxChars) (data out : List Byte) :
    tableval a ≠ 100 ∧ ∃ s', b64Chars s' = t ∧ base64Loop outbufSize maxChars s n data out =
      base64Loop outbufSize maxChars (a :: s') n data out := by
  induction s with
  | nil => exact absurd h (List.cons_ne_nil a t).symm
  | cons c s ih =>
    by_cases hc : tableval c = 100
    · have hskip : b64Chars (c :: s) = b64Chars s := List.filter_cons_of_neg (by simpa using hc)
      rw [base64Loop_skip _ _ _ hn hc]
      exact ih (hskip.symm.trans h)
    · have hkeep : b64Chars (c :: s) = c :: b64Chars s := List.filter_cons_of_pos (by simpa using hc)
      rw [hkeep] at h
      cases h
      exact ⟨hc, s, rfl, rfl⟩

variable (outbufSize) in
/-- The loop on four characters. -/
theorem base64Loop_group {s t : List Byte} {a b c d : Byte} (h : b64Chars s = a :: b :: c :: d :: t)
    {n : ℕ} (hn : n + 4 ≤ maxChars) (out : List Byte) :
    ∃ s', b64Chars s' = t ∧ base64Loop outbufSize maxChars s n [] out =
      match base64Group a b c d (outbufSize - out.length) with
      | none => none
      | some (bs, true) => base64Loop outbufSize maxChars s' (n + 4) [] (out ++ bs)
      | some (bs, false) => some (out ++ bs) := by
  obtain ⟨ha, s1, h1, e1⟩ := base64Loop_next outbufSize h
    (show n < maxChars by omega) [] out
  obtain ⟨hb, s2, h2, e2⟩ := base64Loop_next outbufSize h1
    (show n + 1 < maxChars by omega) [a] out
  obtain ⟨hc, s3, h3, e3⟩ := base64Loop_next outbufSize h2
    (show n + 2 < maxChars by omega) [a, b] out
  obtain ⟨hd, s4, h4, e4⟩ := base64Loop_next outbufSize h3
    (show n + 3 < maxChars by omega) [a, b, c] out
  refine ⟨s4, h4, ?_⟩
  rw [e1, base64Loop_store _ _ (by omega) ha (by simp), List.nil_append, e2,
    base64Loop_store _ _ (by omega) hb (by simp), List.singleton_append, e3,
    base64Loop_store _ _ (by omega) hc (by simp), List.cons_append, List.singleton_append, e4]
  rw [base64Loop.eq_def]
  exact (if_neg (Nat.not_le.2 (show n + 3 < maxChars by omega))).trans (if_neg hd)

/-! ### The loop -/

/-- The budget is used up. -/
theorem base64Loop_full {n : ℕ} (h : maxChars ≤ n) (s data out : List Byte) :
    base64Loop outbufSize maxChars s n data out = some out := by
  cases s with
  | nil => rw [base64Loop]
  | cons c s =>
    rw [base64Loop.eq_def]
    exact if_pos h

/-- No character of the alphabet is left. -/
theorem base64Loop_nil {s : List Byte} (h : b64Chars s = []) (n : ℕ) (data out : List Byte) :
    base64Loop outbufSize maxChars s n data out = some out := by
  induction s with
  | nil => rw [base64Loop]
  | cons c s ih =>
    by_cases hn : maxChars ≤ n
    · exact base64Loop_full hn ..
    · have hc := List.filter_eq_nil_iff.1 h c List.mem_cons_self
      rw [base64Loop_skip _ _ _ (Nat.lt_of_not_le hn) (by simpa using hc)]
      exact ih (List.filter_eq_nil_iff.2 fun d hd =>
        List.filter_eq_nil_iff.1 h d (List.mem_cons_of_mem c hd))

variable (outbufSize) in
/-- The loop decodes an encoding until the buffer is full or the budget is used up. -/
theorem base64Loop_encodes (hmax : maxChars % 4 = 0) {x cs : List Byte} (h : Encodes x cs)
    {s : List Byte} (hs : b64Chars s = cs) {k : ℕ} {out : List Byte} (hout : out.length = 3 * k)
    (hk : 3 * k ≤ outbufSize) :
    base64Loop outbufSize maxChars s (4 * k) [] out =
      some (out ++ x.take (min (outbufSize - 3 * k) (3 * (maxChars / 4 - k)))) := by
  induction h generalizing s k out with
  | nil => rw [base64Loop_nil hs, List.take_nil, List.append_nil]
  | one x hl =>
    have hx := x.isLt
    by_cases hfull : maxChars ≤ 4 * k
    · rw [base64Loop_full hfull, show maxChars / 4 - k = 0 by omega]
      simp
    · obtain ⟨s', -, hloop⟩ := base64Loop_group outbufSize hs
        (show 4 * k + 4 ≤ maxChars by omega) out
      rw [hloop, base64Group_take (digit_ne_pad (by omega)) (digit_ne_pad (by omega)),
        if_pos rfl, first_eq x hl]
      refine congrArg (fun l => some (out ++ l)) ?_
      rw [List.take_eq_take_iff, List.length_singleton]
      omega
  | two x y hl =>
    have hx := x.isLt
    have hy := y.isLt
    by_cases hfull : maxChars ≤ 4 * k
    · rw [base64Loop_full hfull, show maxChars / 4 - k = 0 by omega]
      simp
    · obtain ⟨s', -, hloop⟩ := base64Loop_group outbufSize hs
        (show 4 * k + 4 ≤ maxChars by omega) out
      rw [hloop, base64Group_take (digit_ne_pad (by omega)) (digit_ne_pad (by omega)),
        if_neg (digit_ne_pad (by omega)), if_pos rfl, first_eq x (by omega),
        second_eq _ (by omega) y hl]
      refine congrArg (fun l => some (out ++ l)) ?_
      rw [List.take_eq_take_iff]
      simp only [List.length_cons, List.length_nil]
      omega
  | three x y z h ih =>
    have hx := x.isLt
    have hy := y.isLt
    have hz := z.isLt
    by_cases hfull : maxChars ≤ 4 * k
    · rw [base64Loop_full hfull, show maxChars / 4 - k = 0 by omega]
      simp
    · obtain ⟨s', hs', hloop⟩ := base64Loop_group outbufSize hs
        (show 4 * k + 4 ≤ maxChars by omega) out
      rw [hloop, base64Group_take (digit_ne_pad (by omega)) (digit_ne_pad (by omega)),
        if_neg (digit_ne_pad (by omega)), if_neg (digit_ne_pad (by omega)), first_eq x (by omega),
        second_eq _ (by omega) y (by omega), third_eq _ (by omega) z, hout]
      by_cases hroom : 3 ≤ outbufSize - 3 * k
      · rw [decide_eq_true hroom, List.take_of_length_le (by simpa using hroom)]
        have hlength : (out ++ [x, y, z]).length = 3 * (k + 1) := by
          simp only [List.length_append, List.length_cons, List.length_nil]
          omega
        have hrest := ih hs' hlength (by omega)
        have hmin : min (outbufSize - 3 * k) (3 * (maxChars / 4 - k)) =
            min (outbufSize - 3 * (k + 1)) (3 * (maxChars / 4 - (k + 1))) + 3 := by omega
        rw [Nat.mul_add_one, List.append_assoc] at hrest
        rw [hmin]
        exact hrest
      · rw [decide_eq_false hroom]
        refine congrArg (fun l => some (out ++ l)) ?_
        rw [show min (outbufSize - 3 * k) (3 * (maxChars / 4 - k)) = outbufSize - 3 * k by omega]
        have hthree : outbufSize - 3 * k ≤ [x, y, z].length := by
          simp only [List.length_cons, List.length_nil]
          omega
        exact (List.take_append_of_le_length hthree).symm

/-! ### The output buffer -/

/-- `max_base64_chars`, of which only the last 32 bits are kept. -/
theorem maxBase64Chars_eq {outbufSize : ℕ} (h : outbufSize < 2 ^ 32) :
    maxBase64Chars outbufSize =
      if outbufSize < 3221225469 then outbufSize / 3 * 4 + 4
      else (outbufSize / 3 - 1073741823) * 4 := by
  unfold maxBase64Chars CInt.u32
  split <;> omega

/-- **When `sf_base64decode` inverts base64**: `max_base64_chars` does not wrap around, or the bytes are
in what the budget still allows. -/
theorem sfBase64decode_encodes_iff {x s : List Byte}
    (h : Encodes x (s.filter (· ∈ base64Alphabet))) {outbufSize : ℕ} (hsize : outbufSize < 2 ^ 32) :
    sfBase64decode s outbufSize = some (x.take outbufSize) ↔
      outbufSize < 3221225469 ∨ x.length ≤ 3 * (outbufSize / 3 - 1073741823) := by
  have hmax := maxBase64Chars_eq hsize
  have hfour : maxBase64Chars outbufSize % 4 = 0 := by
    rw [hmax]
    split <;> omega
  have hloop := base64Loop_encodes outbufSize hfour h (b64Chars_eq_filter s) (k := 0)
    (List.length_nil) (Nat.zero_le _)
  rw [sfBase64decode, hloop, List.nil_append, Option.some_inj, List.take_eq_take_iff, hmax]
  split <;> omega

/-- The encoding of `ABC` with a line end in it. -/
theorem sfBase64decode_encodes_iff_abc :
    sfBase64decode (bytes "QU\r\nJD") 2 = some (bytes "AB") := by
  have h : Encodes (bytes "ABC") ((bytes "QU\r\nJD").filter (· ∈ base64Alphabet)) := by
    have hcs : (bytes "QU\r\nJD").filter (· ∈ base64Alphabet) = base64Encode (bytes "ABC") := by
      decide +kernel
    rw [hcs]
    exact encodes_base64Encode _
  exact (sfBase64decode_encodes_iff h (by decide)).2 (Or.inl (by decide))

/-- With an output buffer of 3221225469 bytes no character is read. -/
theorem sfBase64decode_wraps :
    sfBase64decode (base64Encode (bytes "ABC")) 3221225469 = some [] ∧
    (bytes "ABC").take 3221225469 = bytes "ABC" := by
  decide +kernel

end Snort.Email
