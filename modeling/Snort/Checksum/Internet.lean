import Snort.Lib.OnesSum

/-!
# Checksums: `checksum.h`

The functions of `checksum.h` on the bytes of a pseudo header and of a packet, for both orders of the bytes
of a `short` in memory.  What is behind the bytes cannot be read; the bytes that are read are recorded.

* `addShorts`, `unrolled`, `addRest`: words, the loops over them, the odd byte;
* `inChksumIp`, `inChksumTcp`, ...: the seven functions;
* `internetChecksum`: the complement of the sum in one's complement arithmetic;
* `Exact`: what holds between the words;
* **`inChksum_eq`**: the functions return the checksum, and each byte is read once;
* **`internetChecksum_eq_zero_iff`**: what they return for a packet with a checksum in it.
-/

namespace Snort.Checksum

open OnesSum

/-- The order of the bytes of a `short`. -/
inductive ByteOrder
  | little
  | big
  deriving DecidableEq

/-- The `short` at two bytes. -/
def word : ByteOrder → UInt8 → UInt8 → ℕ
  | .little, a, b => a.toNat + 256 * b.toNat
  | .big, a, b => 256 * a.toNat + b.toNat

/-- `cksum`, an `unsigned int`, whether it has ever overflowed, and the offsets of the bytes that were read. -/
structure Accum where
  cksum : ℕ
  overflow : Bool
  reads : List ℕ
  deriving DecidableEq

/-- `cksum += w`. -/
def Accum.add (s : Accum) (w : ℕ) (offsets : List ℕ) : Accum where
  cksum := (s.cksum + w) % 2 ^ 32
  overflow := s.overflow || decide (2 ^ 32 ≤ s.cksum + w)
  reads := s.reads ++ offsets

section Functions

variable (order : ByteOrder)

/-- `cksum += *p`. -/
def addShort (data : List UInt8) (p : ℕ) (s : Accum) : Option Accum := do
  let a ← data[p]?
  let b ← data[p + 1]?
  return s.add (word order a b) [p, p + 1]

/-- `cksum += p[0]`, ..., `cksum += p[n - 1]`. -/
def addShorts (data : List UInt8) (p : ℕ) : ℕ → Accum → Option Accum
  | 0, s => some s
  | n + 1, s => (addShorts data p n s).bind (addShort order data (p + 2 * n))

/-- A loop while `2 * n` bytes are left, with `n` words in a round: the pointer and the length behind it. -/
def unrolled (data : List UInt8) (n p len : ℕ) (s : Accum) : Option (ℕ × ℕ × Accum) :=
  if 0 < n ∧ 2 * n ≤ len then
    (addShorts order data p n s).bind fun s => unrolled data n (p + 2 * n) (len - 2 * n) s
  else some (p, len, s)
  termination_by len

/-- The odd byte, which is the first one of `answer`. -/
def addByte (data : List UInt8) (p : ℕ) (s : Accum) : Option Accum := do
  let a ← data[p]?
  return s.add (word order a 0) [p]

/-- The loops of 16 words, of 4 words and of one word, and the odd byte. -/
def addRest (data : List UInt8) (p len : ℕ) (s : Accum) : Option Accum := do
  let (p, len, s) ← unrolled order data 16 p len s
  let (p, len, s) ← unrolled order data 4 p len s
  let (p, len, s) ← unrolled order data 1 p len s
  if len = 1 then addByte order data p s else some s

/-- The carries of `cksum` are added twice, and the complement is returned. -/
def answer (cksum : ℕ) : ℕ :=
  let cksum := cksum / 2 ^ 16 + cksum % 2 ^ 16
  let cksum := cksum + cksum / 2 ^ 16
  (2 ^ 32 - 1 - cksum) % 2 ^ 16

/-- What a function returns, and what it did for it. -/
structure Returned where
  answer : ℕ
  overflow : Bool
  headerReads : List ℕ
  dataReads : List ℕ
  deriving DecidableEq

/-- The common body: `hwords` words of a pseudo header, `dwords` words that every packet has, and the rest. -/
def chksum (hwords dwords : ℕ) (h d : List UInt8) : Option Returned := do
  let s ← addShorts order h 0 hwords ⟨0, false, []⟩
  let r ← addShorts order d 0 dwords { s with reads := [] }
  let r ← addRest order d (2 * dwords) (d.length - 2 * dwords) r
  return ⟨answer r.cksum, r.overflow, s.reads, r.reads⟩

/-- `in_chksum_tcp`. -/
def inChksumTcp (h d : List UInt8) : Option Returned := chksum order 6 10 h d

/-- `in_chksum_tcp6`. -/
def inChksumTcp6 (h d : List UInt8) : Option Returned := chksum order 18 10 h d

/-- `in_chksum_udp6`. -/
def inChksumUdp6 (h d : List UInt8) : Option Returned := chksum order 18 4 h d

/-- `in_chksum_udp`. -/
def inChksumUdp (h d : List UInt8) : Option Returned := chksum order 6 4 h d

/-- `in_chksum_icmp`. -/
def inChksumIcmp (w : List UInt8) : Option Returned := chksum order 0 0 [] w

/-- `in_chksum_icmp6`. -/
def inChksumIcmp6 (h w : List UInt8) : Option Returned := chksum order 18 0 h w

/-- The loop of `in_chksum_ip`; a length that is no multiple of four leads beyond the header. -/
def ipLoop (w : List UInt8) (p blen : ℕ) (s : Accum) : Option Accum :=
  if blen = 0 then some s
  else (addShorts order w p 2 s).bind fun s => ipLoop w (p + 4) (blen - 4) s
  termination_by blen

/-- `in_chksum_ip`. -/
def inChksumIp (w : List UInt8) : Option Returned := do
  let s ← addShorts order w 0 10 ⟨0, false, []⟩
  let s ← ipLoop order w 20 (w.length - 20) s
  return ⟨answer s.cksum, s.overflow, [], s.reads⟩

/-! ### The Internet checksum -/

/-- The words of some bytes, with a zero behind an odd one. -/
def words : List UInt8 → List ℕ
  | [] => []
  | [a] => [word order a 0]
  | a :: b :: data => word order a b :: words data

/-- The complement of the sum of a pseudo header and some data. -/
def internetChecksum (h d : List UInt8) : ℕ := ones - sum (words order h ++ words order d)

end Functions

variable {order : ByteOrder} {h d data xs : List UInt8} {base k n len : ℕ} {s : Accum}

theorem word_lt (order : ByteOrder) (a b : UInt8) : word order a b < 65536 := by
  have ha := a.toNat_lt
  have hb := b.toNat_lt
  cases order
  · show a.toNat + 256 * b.toNat < 65536
    omega
  · show 256 * a.toNat + b.toNat < 65536
    omega

variable (order data) in
theorem words_lt : ∀ w ∈ words order data, w < 65536 := by
  induction data using words.induct with
  | case1 => simp [words]
  | case2 a => simp [words, word_lt]
  | case3 a b data ih => simpa [words, word_lt] using ih

theorem length_words : (words order data).length = (data.length + 1) / 2 := by
  induction data using words.induct with
  | case1 => rfl
  | case2 a => simp [words]
  | case3 a b data ih =>
    simp only [words, List.length_cons, ih]
    omega

/-- Words go on behind an even number of bytes. -/
theorem words_append (ys : List UInt8) (hk : xs.length = 2 * k) :
    words order (xs ++ ys) = words order xs ++ words order ys := by
  induction xs using words.induct generalizing k with
  | case1 => rfl
  | case2 a =>
    rw [List.length_singleton] at hk
    omega
  | case3 a b xs ih =>
    rw [List.length_cons, List.length_cons] at hk
    simp only [words, List.cons_append]
    rw [ih (k := k - 1) (by omega)]

theorem exists_cons_of_lt {p : ℕ} (hp : p < data.length) : ∃ a, data[p]? = some a ∧ data.drop p = a :: data.drop (p + 1) :=
  ⟨data[p], List.getElem?_eq_getElem hp, List.drop_eq_getElem_cons hp⟩

/-! ### Between the words -/

/-- The sum of the first `k` words is exact, on top of `base`, and their bytes have been read. -/
structure Exact (order : ByteOrder) (data : List UInt8) (base k : ℕ) (s : Accum) : Prop where
  cksum : s.cksum = base + (words order (data.take (2 * k))).sum
  overflow : s.overflow = false
  reads : s.reads = List.range (2 * k)

variable (order) in
/-- The words of the data up to some place and from there on. -/
theorem sum_take_drop (hk : 2 * k ≤ data.length) :
    (words order data).sum = (words order (data.take (2 * k))).sum + (words order (data.drop (2 * k))).sum := by
  have hlen : (data.take (2 * k)).length = 2 * k := by rw [List.length_take]; omega
  rw [← List.sum_append, ← words_append _ hlen, List.take_append_drop]

theorem Exact.add (h : Exact order data base k s) {w : ℕ}
    (hw : base + (words order (data.take (2 * k))).sum + w < 2 ^ 32)
    (offsets : List ℕ) :
    (s.add w offsets).cksum = base + (words order (data.take (2 * k))).sum + w ∧
      (s.add w offsets).overflow = false ∧ (s.add w offsets).reads = List.range (2 * k) ++ offsets := by
  refine ⟨?_, ?_, ?_⟩
  · rw [Accum.add, h.cksum, Nat.mod_eq_of_lt hw]
  · rw [Accum.add, h.cksum, h.overflow, Bool.false_or, decide_eq_false (Nat.not_le.2 hw)]
  · rw [Accum.add, h.reads]

theorem Exact.short (h : Exact order data base k s) (hbound : base + (words order data).sum < 2 ^ 32)
    (hk : 2 * k + 2 ≤ data.length) :
    ∃ s', addShort order data (2 * k) s = some s' ∧ Exact order data base (k + 1) s' := by
  obtain ⟨a, ha, hdrop⟩ := exists_cons_of_lt (show 2 * k < data.length by omega)
  obtain ⟨b, hb, hdrop'⟩ := exists_cons_of_lt (show 2 * k + 1 < data.length by omega)
  rw [hdrop'] at hdrop
  have hlen : (data.take (2 * k)).length = 2 * k := by rw [List.length_take]; omega
  have htake : data.take (2 * (k + 1)) = data.take (2 * k) ++ [a, b] := by
    rw [show 2 * (k + 1) = 2 * k + 2 by ring, List.take_add, hdrop]
    rfl
  have htotal := sum_take_drop order (show 2 * k ≤ data.length by omega)
  rw [hdrop, words, List.sum_cons] at htotal
  obtain ⟨hsum, hover, hreads⟩ := h.add (w := word order a b) (by omega) [2 * k, 2 * k + 1]
  refine ⟨_, by rw [addShort, ha, hb]; rfl, ?_, hover, ?_⟩
  · rw [hsum, htake, words_append _ hlen, List.sum_append]
    simp [words, Nat.add_assoc]
  · rw [hreads, show 2 * (k + 1) = 2 * k + 1 + 1 by ring, List.range_succ, List.range_succ, List.append_assoc]
    rfl

theorem Exact.shorts (h : Exact order data base k s) (hbound : base + (words order data).sum < 2 ^ 32)
    (hn : 2 * (k + n) ≤ data.length) :
    ∃ s', addShorts order data (2 * k) n s = some s' ∧ Exact order data base (k + n) s' := by
  induction n with
  | zero => exact ⟨s, rfl, h⟩
  | succ n ih =>
    obtain ⟨s', hs', hexact⟩ := ih (by omega)
    obtain ⟨t, ht, hexact'⟩ := hexact.short hbound (by omega)
    refine ⟨t, ?_, hexact'⟩
    rw [addShorts, hs', Option.bind_some, ← ht, Nat.mul_add]

/-- A loop stops where fewer bytes are left than a round takes. -/
theorem Exact.unrolled (h : Exact order data base k s) (hbound : base + (words order data).sum < 2 ^ 32)
    (hn : 0 < n) (hlen : data.length = 2 * k + len) :
    ∃ k' len' s', unrolled order data n (2 * k) len s = some (2 * k', len', s') ∧
      Exact order data base k' s' ∧ data.length = 2 * k' + len' ∧ len' < 2 * n := by
  induction len using Nat.strong_induction_on generalizing k s with
  | _ len ih =>
    rw [Checksum.unrolled]
    by_cases hround : 2 * n ≤ len
    · rw [if_pos ⟨hn, hround⟩]
      obtain ⟨s', hs', hexact⟩ := h.shorts (n := n) hbound (by omega)
      rw [hs', Option.bind_some, ← Nat.mul_add]
      exact ih (len - 2 * n) (by omega) hexact (by omega)
    · rw [if_neg fun hcond => hround hcond.2]
      exact ⟨k, len, s, rfl, h, hlen, by omega⟩

theorem Exact.rest (h : Exact order data base k s) (hbound : base + (words order data).sum < 2 ^ 32)
    (hlen : data.length = 2 * k + len) :
    ∃ s', addRest order data (2 * k) len s = some s' ∧ s'.cksum = base + (words order data).sum ∧
      s'.overflow = false ∧ s'.reads = List.range data.length := by
  obtain ⟨k₁, len₁, s₁, hrun₁, h₁, hlen₁, -⟩ := h.unrolled hbound (n := 16) (by decide) hlen
  obtain ⟨k₂, len₂, s₂, hrun₂, h₂, hlen₂, -⟩ := h₁.unrolled hbound (n := 4) (by decide) hlen₁
  obtain ⟨k₃, len₃, s₃, hrun₃, h₃, hlen₃, hlt⟩ := h₂.unrolled hbound (n := 1) (by decide) hlen₂
  have hrun : addRest order data (2 * k) len s =
      if len₃ = 1 then addByte order data (2 * k₃) s₃ else some s₃ := by
    rw [addRest, hrun₁]
    simp only [Option.bind_eq_bind, Option.bind_some, hrun₂, hrun₃]
  by_cases hodd : len₃ = 1
  · obtain ⟨a, ha, hdrop⟩ := exists_cons_of_lt (show 2 * k₃ < data.length by omega)
    have hend : data.drop (2 * k₃ + 1) = [] := List.drop_eq_nil_of_le (by omega)
    have htotal := sum_take_drop order (show 2 * k₃ ≤ data.length by omega)
    rw [hdrop, hend, words, List.sum_singleton] at htotal
    obtain ⟨hsum, hover, hreads⟩ := h₃.add (w := word order a 0) (by omega) [2 * k₃]
    refine ⟨_, by rw [hrun, if_pos hodd, addByte, ha]; rfl, ?_, hover, ?_⟩
    · rw [hsum, htotal, Nat.add_assoc]
    · rw [hreads, hlen₃, hodd, List.range_succ]
  · have hall : data.take (2 * k₃) = data := List.take_of_length_le (by omega)
    refine ⟨s₃, by rw [hrun, if_neg hodd], ?_, h₃.overflow, ?_⟩
    · rw [h₃.cksum, hall]
    · rw [h₃.reads, hlen₃, show len₃ = 0 by omega, Nat.add_zero]

/-! ### The functions -/

theorem answer_eq {cksum : ℕ} (h : cksum < 2 ^ 32) : answer cksum = ones - residue cksum := by
  rw [← fold_eq h]
  unfold answer fold ones
  dsimp only
  omega

/-- What a function has to return, and which bytes it has to read. -/
def good (order : ByteOrder) (h d : List UInt8) : Returned where
  answer := internetChecksum order h d
  overflow := false
  headerReads := List.range h.length
  dataReads := List.range d.length

variable (order) in
/-- All sums of a packet fit. -/
theorem sum_words_lt (hh : h.length ≤ 36) (hd : d.length ≤ 65535) :
    (words order h).sum + (words order d).sum < 2 ^ 32 := by
  have h₁ := sum_le (words_lt order h)
  have h₂ := sum_le (words_lt order d)
  rw [length_words] at h₁ h₂
  omega

theorem answer_words (hbound : (words order h).sum + (words order d).sum < 2 ^ 32) :
    answer ((words order h).sum + (words order d).sum) = internetChecksum order h d := by
  rw [answer_eq hbound, internetChecksum, sum_eq fun w hw => ?_, List.sum_append]
  rcases List.mem_append.1 hw with hw | hw
  · exact words_lt _ _ w hw
  · exact words_lt _ _ w hw

theorem exact_zero (order : ByteOrder) (data : List UInt8) (base : ℕ) : Exact order data base 0 ⟨base, false, []⟩ :=
  ⟨by simp [words], rfl, by simp⟩

theorem chksum_eq {hwords dwords : ℕ} (hh : h.length = 2 * hwords) (hhle : hwords ≤ 18) (hd : 2 * dwords ≤ d.length)
    (hdle : d.length ≤ 65535) : chksum order hwords dwords h d = some (good order h d) := by
  have hbound := sum_words_lt order (show h.length ≤ 36 by omega) hdle
  obtain ⟨s, hs, hexact⟩ := (exact_zero order h 0).shorts (n := hwords) (by omega) (by omega)
  have hall : h.take (2 * (0 + hwords)) = h := List.take_of_length_le (by omega)
  have hcksum : s.cksum = (words order h).sum := by rw [hexact.cksum, hall, Nat.zero_add]
  have hstart : { s with reads := [] } = (⟨(words order h).sum, false, []⟩ : Accum) := by
    rw [← hcksum, ← hexact.overflow]
  obtain ⟨r, hr, hexact'⟩ := (exact_zero order d (words order h).sum).shorts (n := dwords) hbound (by omega)
  obtain ⟨t, ht, hsum, hover, hreads⟩ := hexact'.rest hbound
    (show d.length = 2 * (0 + dwords) + (d.length - 2 * dwords) by omega)
  rw [Nat.zero_add] at ht
  rw [chksum, show addShorts order h 0 hwords ⟨0, false, []⟩ = some s from hs]
  simp only [Option.bind_eq_bind, Option.bind_some, hstart]
  rw [show addShorts order d 0 dwords ⟨(words order h).sum, false, []⟩ = some r from hr]
  simp only [Option.bind_some, ht, hsum, answer_words hbound]
  rw [good, hover, hreads, hexact.reads, hh, Nat.zero_add]
  rfl

theorem Exact.ipLoop (h : Exact order data base k s) (hbound : base + (words order data).sum < 2 ^ 32) {m : ℕ}
    (hlen : data.length = 2 * k + 4 * m) :
    ∃ s', ipLoop order data (2 * k) (4 * m) s = some s' ∧ Exact order data base (k + 2 * m) s' := by
  induction m generalizing k s with
  | zero => exact ⟨s, by rw [Checksum.ipLoop, if_pos rfl], h⟩
  | succ m ih =>
    obtain ⟨s', hs', hexact⟩ := h.shorts (n := 2) hbound (by omega)
    obtain ⟨t, ht, hexact'⟩ := ih hexact (by omega)
    refine ⟨t, ?_, by rwa [show k + 2 * (m + 1) = k + 2 + 2 * m by ring]⟩
    rw [Checksum.ipLoop, if_neg (by omega), hs', Option.bind_some, ← ht, Nat.mul_add, Nat.mul_add,
      Nat.add_sub_cancel]

theorem inChksumIp_eq (hw : d.length % 4 = 0) (hmin : 20 ≤ d.length) (hmax : d.length ≤ 60) :
    inChksumIp order d = some (good order [] d) := by
  have hbound := sum_words_lt order (h := []) (by simp) (show d.length ≤ 65535 by omega)
  obtain ⟨m, hm⟩ : ∃ m, d.length = 2 * (0 + 10) + 4 * m := ⟨(d.length - 20) / 4, by omega⟩
  have hbound' : 0 + (words order d).sum < 2 ^ 32 := by simpa [words] using hbound
  obtain ⟨s, hs, hexact⟩ := (exact_zero order d 0).shorts (n := 10) hbound' (by omega)
  obtain ⟨t, ht, hexact'⟩ := hexact.ipLoop hbound' hm
  have hall : d.take (2 * (0 + 10 + 2 * m)) = d := List.take_of_length_le (by omega)
  have hsum : t.cksum = (words order []).sum + (words order d).sum := by
    rw [hexact'.cksum, hall]
    rfl
  rw [inChksumIp, show addShorts order d 0 10 ⟨0, false, []⟩ = some s from hs]
  simp only [Option.bind_eq_bind, Option.bind_some]
  rw [show d.length - 20 = 4 * m by omega, show ipLoop order d 20 (4 * m) s = some t from ht, Option.bind_some, hsum,
    answer_words hbound, good, hexact'.overflow, hexact'.reads, hm, show 2 * (0 + 10 + 2 * m) = 2 * (0 + 10) + 4 * m by ring]
  rfl

/-! ### A checksum in the data -/

/-- The field `a`, `b` behind `pre` is the complement of the sum of everything else; of the two zeros of one's
complement arithmetic either will do. -/
def EmbeddedRight (order : ByteOrder) (h pre : List UInt8) (a b : UInt8) (post : List UInt8) : Prop :=
  let rest := sum (words order h ++ words order (pre ++ 0 :: 0 :: post))
  word order a b = ones - rest ∨ word order a b = ones ∧ rest = ones

theorem internetChecksum_eq_zero_iff {pre post : List UInt8} {a b : UInt8} (hpre : Even pre.length) :
    internetChecksum order h (pre ++ a :: b :: post) = 0 ↔ EmbeddedRight order h pre a b post := by
  obtain ⟨k, hk⟩ := hpre
  have hall : ∀ data, ∀ w ∈ words order h ++ words order data, w < 65536 := by
    intro data w hw
    rcases List.mem_append.1 hw with hw | hw
    · exact words_lt _ _ w hw
    · exact words_lt _ _ w hw
  have hzero : word order 0 0 = 0 := by cases order <;> rfl
  have hwith : (words order h ++ words order (pre ++ a :: b :: post)).sum =
      word order a b + (words order h ++ words order (pre ++ 0 :: 0 :: post)).sum := by
    rw [words_append _ (show pre.length = 2 * k by omega), words_append _ (show pre.length = 2 * k by omega)]
    simp only [words, List.sum_append, List.sum_cons, hzero]
    omega
  have hlt := residue_lt (words order h ++ words order (pre ++ 0 :: 0 :: post)).sum
  unfold EmbeddedRight
  dsimp only
  rw [internetChecksum, sum_eq (hall _), sum_eq (hall _), hwith, ← add_residue, residue_of_lt (word_lt order a b),
    ← add_eq_ones_iff (word_lt order a b) hlt]
  have hle : add (word order a b) (residue (words order h ++ words order (pre ++ 0 :: 0 :: post)).sum) ≤ ones := by
    have := word_lt order a b
    unfold add ones
    split_ifs <;> omega
  omega

/-- **The checksums**: each function returns the Internet checksum, the accumulator never overflows, and the bytes
of the pseudo header and of the packet are read, each of them once.  The checksum of a packet with a checksum in it
is zero exactly if that one is right. -/
theorem inChksum_eq (order : ByteOrder) :
    (∀ w, w.length % 4 = 0 → 20 ≤ w.length → w.length ≤ 60 → inChksumIp order w = some (good order [] w)) ∧
    (∀ h d, h.length = 12 → 20 ≤ d.length → d.length ≤ 65535 → inChksumTcp order h d = some (good order h d)) ∧
    (∀ h d, h.length = 36 → 20 ≤ d.length → d.length ≤ 65535 → inChksumTcp6 order h d = some (good order h d)) ∧
    (∀ h d, h.length = 12 → 8 ≤ d.length → d.length ≤ 65535 → inChksumUdp order h d = some (good order h d)) ∧
    (∀ h d, h.length = 36 → 8 ≤ d.length → d.length ≤ 65535 → inChksumUdp6 order h d = some (good order h d)) ∧
    (∀ w, w.length ≤ 65535 → inChksumIcmp order w = some (good order [] w)) ∧
    (∀ h w, h.length = 36 → w.length ≤ 65535 → inChksumIcmp6 order h w = some (good order h w)) ∧
    ∀ h pre a b post, Even pre.length →
      (internetChecksum order h (pre ++ a :: b :: post) = 0 ↔ EmbeddedRight order h pre a b post) :=
  ⟨fun _ hw hmin hmax => inChksumIp_eq hw hmin hmax, fun _ _ hh hd hmax => chksum_eq hh (by decide) hd hmax,
    fun _ _ hh hd hmax => chksum_eq hh (by decide) hd hmax, fun _ _ hh hd hmax => chksum_eq hh (by decide) hd hmax,
    fun _ _ hh hd hmax => chksum_eq hh (by decide) hd hmax,
    fun _ hmax => chksum_eq rfl (by decide) (Nat.zero_le _) hmax,
    fun _ _ hh hmax => chksum_eq hh (by decide) (Nat.zero_le _) hmax,
    fun _ _ _ _ _ hpre => internetChecksum_eq_zero_iff hpre⟩

/-- An echo reply of nine bytes. -/
theorem inChksum_eq_echo :
    inChksumIcmp .little [0, 0, 0x1e, 0x0d, 0, 1, 0, 2, 0x61] =
      some ⟨0xef80, false, [], [0, 1, 2, 3, 4, 5, 6, 7, 8]⟩ ∧
    inChksumUdp .big [10, 0, 0, 1, 10, 0, 0, 2, 0, 17, 0, 9] [0, 53, 0, 53, 0, 9, 0, 0, 0x61] =
      some (good .big [10, 0, 0, 1, 10, 0, 0, 2, 0, 17, 0, 9] [0, 53, 0, 53, 0, 9, 0, 0, 0x61]) ∧
    EmbeddedRight .big [] [0, 0] 0xff 0xfe [0, 1] := by
  obtain ⟨-, -, -, hudp, -, hicmp, -, hzero⟩ := inChksum_eq .little
  refine ⟨?_, ?_, ?_⟩
  · rw [hicmp _ (by decide)]
    decide
  · exact (inChksum_eq .big).2.2.2.1 _ _ (by decide) (by decide) (by decide)
  · exact ((inChksum_eq .big).2.2.2.2.2.2.2 _ _ _ _ _ (by decide)).1 (by decide)

end Snort.Checksum
