import Snort.Ssl.Reads

/-!
# Records of SSLv2

`SSL_decode_v2` looks at the length and the type of the first record only: it cuts a packet into pieces as long as the
first record, and decodes each of them as a record of its type.

* `V2Record`: a complete record;
* `sslDecodeV2_pieces`: the result for a packet that is a whole number of such pieces;
* `sslDecodeV2_truncated`: for any other packet;
* **`sslDecode_record_by_record`**: when the result is the one of the single records.
-/

namespace Snort.Ssl

open Loop

/-- A complete record of SSLv2; the top bit of the length has a meaning of its own. -/
structure V2Record where
  top : Bool
  type : V2Type
  body : List UInt8
  complete : 4 ≤ body.length ∧ body.length + 1 < 2 ^ 15

/-- The number of bytes behind the length. -/
def V2Record.length (r : V2Record) : ℕ := r.body.length + 1

/-- The bytes of a record. -/
def V2Record.bytes (r : V2Record) : List UInt8 :=
  UInt8.ofNat (r.length / 256 + if r.top then 128 else 0) :: UInt8.ofNat (r.length % 256) :: r.type.code :: r.body

/-- The bytes of some records. -/
def packet (rs : List V2Record) : List UInt8 := rs.flatMap V2Record.bytes

/-- The bitwise or of some results. -/
def orAll (l : List UInt32) : UInt32 := l.foldr (· ||| ·) 0

/-- The result on some records is the bitwise or of the results on the single ones. -/
def RecordByRecord (pktFlags : UInt32) (rs : List V2Record) : Prop :=
  ∃ singles : List UInt32, rs.map (fun r => sslDecodeV2 r.bytes pktFlags) = singles.map .returns ∧
    sslDecodeV2 (packet rs) pktFlags = .returns (orAll singles)

/-- Whether the version of a hello at an offset is not 2. -/
def badMajor (pkt : List UInt8) (pos : ℕ) : V2Type → Bool
  | .chello => decide (pkt[pos + 4]? ≠ some 2)
  | .shello => decide (pkt[pos + 6]? ≠ some 2)
  | .ckey => false

/-- The flags for a bad version. -/
def badFlags (bad : Bool) : UInt32 := if bad then sslBadVerFlag ||| sslUnknownFlag else 0

/-- Types with the same flags: both hellos of a packet that is said to come from both sides are bogus. -/
def V2Type.Alike (pktFlags : UInt32) (t t' : V2Type) : Prop :=
  t' = t ∨ t ≠ .ckey ∧ t' ≠ .ckey ∧ pktFlags &&& flagFromServer ≠ 0 ∧ pktFlags &&& flagFromClient ≠ 0

/-- The offsets at which a packet of `n` bytes is cut into pieces of `len` bytes. -/
def starts (n len : ℕ) : List ℕ := List.range' 0 (n / len) len

/-- The pieces that are decoded do not differ from the records. -/
structure LikeFirst (pktFlags : UInt32) (r : V2Record) (rs : List V2Record) : Prop where
  whole : r.bytes.length ∣ (packet (r :: rs)).length
  alike : ∀ r' ∈ rs, r.type.Alike pktFlags r'.type
  version : (∃ pos ∈ starts (packet (r :: rs)).length r.bytes.length, badMajor (packet (r :: rs)) pos r.type) ↔
    ∃ r' ∈ r :: rs, badMajor r'.bytes 0 r'.type

/-! ### Bitwise or -/

section Or

variable {x y : UInt32} {l l' : List UInt32} {α : Type*} {f g : α → UInt32} {xs : List α}

theorem or_and_distrib (x y z : UInt32) : (x ||| y) &&& z = (x &&& z) ||| (y &&& z) := by
  apply UInt32.eq_of_toBitVec_eq
  simp only [UInt32.toBitVec_and, UInt32.toBitVec_or]
  exact BitVec.and_or_distrib_right

@[simp] theorem orAll_nil : orAll [] = 0 := rfl

@[simp] theorem orAll_cons : orAll (x :: l) = x ||| orAll l := rfl

theorem or_orAll_of_mem (h : x ∈ l) : x ||| orAll l = orAll l := by
  induction l with
  | nil => cases h
  | cons y l ih =>
    rw [orAll_cons]
    rcases List.mem_cons.1 h with rfl | h
    · rw [← UInt32.or_assoc, UInt32.or_self]
    · rw [← UInt32.or_assoc, UInt32.or_comm x, UInt32.or_assoc, ih h]

theorem orAll_map_or : orAll (xs.map fun a => f a ||| g a) = orAll (xs.map f) ||| orAll (xs.map g) := by
  induction xs with
  | nil => exact UInt32.or_zero.symm
  | cons a xs ih =>
    simp only [List.map_cons, orAll_cons, ih]
    ac_rfl

theorem orAll_map_const (h : xs ≠ []) (hf : ∀ a ∈ xs, f a = x) : orAll (xs.map f) = x := by
  obtain ⟨a, xs, rfl⟩ := List.exists_cons_of_ne_nil h
  rw [List.map_cons, orAll_cons, hf a List.mem_cons_self]
  replace hf : ∀ b ∈ xs, f b = x := fun b hb => hf b (List.mem_cons_of_mem _ hb)
  clear h
  induction xs with
  | nil => exact UInt32.or_zero
  | cons b xs ih =>
    rw [List.map_cons, orAll_cons, hf b List.mem_cons_self, ← UInt32.or_assoc, UInt32.or_self]
    exact ih fun c hc => hf c (List.mem_cons_of_mem _ hc)

/-- No flag of a mask comes from nowhere. -/
theorem orAll_and_eq_zero (h : ∀ y ∈ l, y &&& x = 0) : orAll l &&& x = 0 := by
  induction l with
  | nil => exact UInt32.zero_and
  | cons y l ih =>
    rw [orAll_cons, or_and_distrib, h y List.mem_cons_self, ih fun z hz => h z (List.mem_cons_of_mem _ hz),
      UInt32.or_self]

theorem orAll_badFlags {b : α → Bool} : orAll (xs.map fun a => badFlags (b a)) = badFlags (xs.any b) := by
  induction xs with
  | nil => rfl
  | cons a xs ih =>
    rw [List.map_cons, orAll_cons, ih, List.any_cons]
    cases b a <;> cases xs.any b <;> decide

end Or

/-! ### Flags of a piece -/

variable {pkt rest : List UInt8} {pktFlags retval : UInt32} {r : V2Record} {rs : List V2Record} {pos n : ℕ}
  {t t' : V2Type}

/-- The flags of a piece. -/
def pieceFlags (pkt : List UInt8) (pktFlags : UInt32) (t : V2Type) (pos : ℕ) : UInt32 :=
  t.flags pktFlags ||| badFlags (badMajor pkt pos t)

theorem V2Type.alike_iff : t.Alike pktFlags t' ↔ t'.flags pktFlags = t.flags pktFlags := by
  by_cases hs : pktFlags &&& flagFromServer = 0 <;> by_cases hc : pktFlags &&& flagFromClient = 0 <;>
    cases t <;> cases t' <;> simp [V2Type.Alike, V2Type.flags, hs, hc] <;> decide

theorem V2Type.flags_and_badVer : t.flags pktFlags &&& sslBadVerFlag = 0 := by
  by_cases hs : pktFlags &&& flagFromServer = 0 <;> by_cases hc : pktFlags &&& flagFromClient = 0 <;>
    cases t <;> simp [V2Type.flags, hs, hc] <;> decide

theorem V2Type.flags_and_truncated : t.flags pktFlags &&& sslTruncatedFlag = 0 := by
  by_cases hs : pktFlags &&& flagFromServer = 0 <;> by_cases hc : pktFlags &&& flagFromClient = 0 <;>
    cases t <;> simp [V2Type.flags, hs, hc] <;> decide

/-- The flags of a type are told apart behind those of another one. -/
theorem V2Type.flags_eq_of_or_eq {b : Bool}
    (h : t'.flags pktFlags ||| (t.flags pktFlags ||| badFlags b ||| sslVerSslv2Flag) =
      t.flags pktFlags ||| badFlags b ||| sslVerSslv2Flag) : t'.flags pktFlags = t.flags pktFlags := by
  revert h
  by_cases hs : pktFlags &&& flagFromServer = 0 <;> by_cases hc : pktFlags &&& flagFromClient = 0 <;>
    cases t <;> cases t' <;> cases b <;> simp [V2Type.flags, hs, hc] <;> decide

theorem majorV2_eq {size : ℤ} {offset : ℕ} (hin : (pos : ℤ) + size ≤ pkt.length) (hsize : (offset : ℤ) + 1 ≤ size) :
    majorV2 pkt pos size offset retval = some (retval ||| badFlags (decide (pkt[pos + offset]? ≠ some 2))) := by
  obtain ⟨major, hmajor⟩ := getElem?_inside (show pos + offset < pkt.length by omega)
  rw [majorV2, if_neg (by omega), hmajor, Option.map_some]
  by_cases h : major = 2
  · simp [h, badFlags]
  · simp [h, badFlags]

theorem v2Flags_eq (pktFlags retval : UInt32) (t : V2Type) {size : ℤ} (hin : (pos : ℤ) + size ≤ pkt.length)
    (hsize : 7 ≤ size) :
    v2Flags pkt pktFlags pos size retval t = some (retval ||| pieceFlags pkt pktFlags t pos) := by
  cases t with
  | chello => rw [v2Flags, majorV2_eq hin (by push_cast; omega), UInt32.or_assoc]; rfl
  | shello => rw [v2Flags, majorV2_eq hin (by push_cast; omega), UInt32.or_assoc]; rfl
  | ckey => simp [v2Flags, pieceFlags, badMajor, badFlags]

/-! ### The loop -/

@[simp] theorem V2Record.length_bytes : r.bytes.length = r.length + 2 := by
  simp [V2Record.bytes, V2Record.length]

theorem V2Record.five_le_length : 5 ≤ r.length := by
  have := r.complete
  unfold V2Record.length
  omega

@[simp] theorem V2Type.ofCode_code : V2Type.ofCode t.code = some t := by cases t <;> rfl

/-- The length of the first record is read. -/
theorem ntohs_bytes (r : V2Record) (rest : List UInt8) : ∃ n, ntohs (r.bytes ++ rest) 0 = some n ∧ n &&& 0x7fff = r.length := by
  have hlen : r.length < 2 ^ 15 := r.complete.2
  refine ⟨_, rfl, ?_⟩
  rw [show (0x7fff : ℕ) = 2 ^ 15 - 1 from rfl, Nat.and_two_pow_sub_one_eq_mod, UInt8.toNat_ofNat', UInt8.toNat_ofNat']
  cases r.top
  · simp only [Bool.false_eq_true, if_false]
    omega
  · simp only [if_true]
    omega

/-- A turn takes a piece as long as the first record. -/
theorem v2Turn_bytes {s : Vars} {retval : UInt32} (hsize : 5 ≤ s.size)
    (hflags : v2Flags (r.bytes ++ rest) pktFlags s.pos s.size s.retval r.type = some retval) :
    v2Turn (r.bytes ++ rest) pktFlags s =
      some (.more ⟨s.pos + r.bytes.length, s.size - r.bytes.length, retval, false⟩) := by
  obtain ⟨n, hn, hand⟩ := ntohs_bytes r rest
  rw [v2Turn, if_neg (by omega), if_neg (by omega), hn]
  have hcode : (r.bytes ++ rest)[2]? = some r.type.code := rfl
  simp only [hcode, Option.bind_eq_bind, Option.bind_some, V2Type.ofCode_code, hflags, hand, V2Record.length_bytes]
  push_cast
  rfl

/-- **Pieces**: what the loop comes to when the rest of the packet is a number of pieces. -/
theorem run_v2Turn_pieces (pktFlags retval : UInt32) {k fuel : ℕ}
    (hin : pos + k * r.bytes.length = (r.bytes ++ rest).length) (hfuel : k < fuel) :
    run (v2Turn (r.bytes ++ rest) pktFlags) fuel ⟨pos, (k * r.bytes.length : ℕ), retval, false⟩ =
      .returns (retval ||| orAll ((List.range' pos k r.bytes.length).map
        (pieceFlags (r.bytes ++ rest) pktFlags r.type)) ||| sslVerSslv2Flag) := by
  induction k generalizing pos retval fuel with
  | zero =>
    obtain ⟨fuel, rfl⟩ := Nat.exists_eq_add_of_le' hfuel
    simp [run, v2Turn, truncated]
  | succ k ih =>
    obtain ⟨fuel, rfl⟩ : ∃ m, fuel = m + 1 := ⟨fuel - 1, by omega⟩
    have hfive := r.five_le_length
    have hlen := r.length_bytes
    rw [Nat.succ_mul] at hin ⊢
    have hflags := v2Flags_eq pktFlags retval r.type
      (show (pos : ℤ) + (k * r.bytes.length + r.bytes.length : ℕ) ≤ (r.bytes ++ rest).length by omega) (by
        push_cast
        omega)
    rw [run, v2Turn_bytes (s := ⟨pos, _, retval, false⟩) (by push_cast; omega) hflags]
    dsimp only
    rw [show ((k * r.bytes.length + r.bytes.length : ℕ) : ℤ) - r.bytes.length = (k * r.bytes.length : ℕ) by omega,
      ih _ (show pos + r.bytes.length + k * r.bytes.length = _ by omega) (by omega), List.range'_succ, List.map_cons, orAll_cons, UInt32.or_assoc retval]

theorem or_truncated_and (x y : UInt32) : (x ||| (sslTruncatedFlag ||| y)) &&& sslTruncatedFlag ≠ 0 := by
  have hself : sslTruncatedFlag ||| (x ||| (sslTruncatedFlag ||| y)) = x ||| (sslTruncatedFlag ||| y) := by
    rw [UInt32.or_comm x, ← UInt32.or_assoc, ← UInt32.or_assoc, UInt32.or_self]
  rw [← hself, or_and_distrib, UInt32.and_self]
  intro h
  have habsorb := congrArg (sslTruncatedFlag ||| ·) h
  rw [← UInt32.or_assoc, UInt32.or_self, h] at habsorb
  revert habsorb
  decide

/-- What the loop comes to when it is not: the last piece is truncated. -/
theorem run_v2Turn_truncated {fuel : ℕ} {s : Vars} (hin : Inside (r.bytes ++ rest) s)
    (hsize : ¬(r.bytes.length : ℤ) ∣ s.size) (hfuel : s.size.toNat < fuel) :
    ∃ x, run (v2Turn (r.bytes ++ rest) pktFlags) fuel s = .returns x ∧ x &&& sslTruncatedFlag ≠ 0 := by
  induction fuel generalizing s with
  | zero => exact absurd hfuel (Nat.not_lt_zero _)
  | succ fuel ih =>
    rw [run]
    rcases lt_trichotomy s.size 0 with hneg | hzero | hpos
    · refine ⟨_, by rw [v2Turn, if_pos hneg.le], ?_⟩
      rw [truncated, if_pos hneg, UInt32.or_assoc]
      exact or_truncated_and _ _
    · exact absurd (hzero ▸ Int.dvd_zero _) hsize
    · rcases lt_or_ge s.size 5 with hlt | hge
      · refine ⟨_, by rw [v2Turn, if_neg (by omega), if_pos hlt], ?_⟩
        rw [UInt32.or_assoc, UInt32.or_assoc]
        exact or_truncated_and _ _
      · obtain ⟨x, hx⟩ := v2Flags_inside pktFlags s.retval r.type hin
        rw [v2Turn_bytes hge hx]
        have hlen := r.length_bytes
        refine ih ?_ (fun h => hsize ?_) (by dsimp only; omega)
        · unfold Inside at hin ⊢
          push_cast
          omega
        · exact dvd_sub_self_right.1 h

theorem packet_cons : packet (r :: rs) = r.bytes ++ packet rs := rfl

/-- A whole number of pieces. -/
theorem sslDecodeV2_pieces (pktFlags : UInt32) (h : r.bytes.length ∣ (packet (r :: rs)).length) :
    sslDecodeV2 (packet (r :: rs)) pktFlags =
      .returns (r.type.flags pktFlags ||| badFlags ((starts (packet (r :: rs)).length r.bytes.length).any
        fun pos => badMajor (packet (r :: rs)) pos r.type) ||| sslVerSslv2Flag) := by
  obtain ⟨k, hk⟩ := h
  have hlen := r.length_bytes
  have hpos : 0 < r.bytes.length := by omega
  have hk' : k * r.bytes.length = (r.bytes ++ packet rs).length := by rw [← packet_cons, hk, Nat.mul_comm]
  have hdiv : (packet (r :: rs)).length / r.bytes.length = k := by rw [hk, Nat.mul_div_cancel_left _ hpos]
  have hne : k ≠ 0 := by
    rintro rfl
    rw [Nat.mul_zero, packet_cons, List.length_append] at hk
    omega
  have hrun := run_v2Turn_pieces pktFlags 0 (show 0 + k * r.bytes.length = (r.bytes ++ packet rs).length by omega)
    (show k < (packet (r :: rs)).length + 1 by
      rw [packet_cons, ← hk']
      exact Nat.lt_succ_of_le (Nat.le_mul_of_pos_right _ hpos))
  rw [hk', ← packet_cons] at hrun
  rw [sslDecodeV2, hrun, starts, hdiv, UInt32.zero_or]
  unfold pieceFlags
  rw [orAll_map_or, orAll_map_const (x := r.type.flags pktFlags) _ fun _ _ => rfl, orAll_badFlags]
  rw [ne_eq, List.range'_eq_nil_iff]
  exact hne

/-- Any other packet. -/
theorem sslDecodeV2_truncated (pktFlags : UInt32) (h : ¬r.bytes.length ∣ (packet (r :: rs)).length) :
    ∃ x, sslDecodeV2 (packet (r :: rs)) pktFlags = .returns x ∧ x &&& sslTruncatedFlag ≠ 0 :=
  run_v2Turn_truncated (show Inside (r.bytes ++ packet rs) _ by simp [Inside, packet_cons]) (by
    dsimp only
    rwa [Int.natCast_dvd_natCast]) (by dsimp only; omega)

/-- A single record. -/
theorem sslDecodeV2_single :
    sslDecodeV2 r.bytes pktFlags = .returns (pieceFlags r.bytes pktFlags r.type 0 ||| sslVerSslv2Flag) := by
  have hlen := r.length_bytes
  have hpacket : packet [r] = r.bytes := List.append_nil _
  have h := sslDecodeV2_pieces pktFlags (show r.bytes.length ∣ (packet [r]).length by rw [hpacket])
  have hstarts : starts r.bytes.length r.bytes.length = [0] := by
    rw [starts, Nat.div_self (by omega)]
    rfl
  rw [hpacket, hstarts, List.any_cons, List.any_nil, Bool.or_false] at h
  exact h

/-! ### The records -/

theorem map_sslDecodeV2 : rs.map (fun r => sslDecodeV2 r.bytes pktFlags) =
    (rs.map fun r => pieceFlags r.bytes pktFlags r.type 0 ||| sslVerSslv2Flag).map .returns := by
  rw [List.map_map]
  exact List.map_congr_left fun r _ => sslDecodeV2_single

/-- The result that is to be: the flags of all types, and those for a bad version. -/
theorem recordByRecord_cons_iff : RecordByRecord pktFlags (r :: rs) ↔
    sslDecodeV2 (packet (r :: rs)) pktFlags = .returns (orAll ((r :: rs).map fun r => r.type.flags pktFlags) |||
      badFlags ((r :: rs).any fun r => badMajor r.bytes 0 r.type) ||| sslVerSslv2Flag) := by
  have hor : orAll ((r :: rs).map fun r => pieceFlags r.bytes pktFlags r.type 0 ||| sslVerSslv2Flag) =
      orAll ((r :: rs).map fun r => r.type.flags pktFlags) |||
        badFlags ((r :: rs).any fun r => badMajor r.bytes 0 r.type) ||| sslVerSslv2Flag := by
    unfold pieceFlags
    rw [orAll_map_or, orAll_map_or, orAll_badFlags, orAll_map_const (by simp) fun _ _ => rfl]
  have hinj : Function.Injective (Outcome.returns : UInt32 → Outcome UInt32) := fun _ _ h => Outcome.returns.inj h
  rw [← hor]
  constructor
  · rintro ⟨singles, hsingles, h⟩
    rw [map_sslDecodeV2] at hsingles
    rw [h, List.map_injective_iff.2 hinj hsingles]
  · exact fun h => ⟨_, map_sslDecodeV2, h⟩

theorem orAll_flags_and {x : UInt32} (h : ∀ t : V2Type, t.flags pktFlags &&& x = 0) :
    orAll (rs.map fun r => r.type.flags pktFlags) &&& x = 0 :=
  orAll_and_eq_zero fun y hy => by
    obtain ⟨r, -, rfl⟩ := List.mem_map.1 hy
    exact h r.type

/-- The bad version of a result. -/
theorem badFlags_of_or {x : UInt32} {b : Bool} (h : x &&& sslBadVerFlag = 0) :
    (x ||| badFlags b ||| sslVerSslv2Flag) &&& sslBadVerFlag = if b then sslBadVerFlag else 0 := by
  rw [UInt32.or_assoc, or_and_distrib, h, UInt32.zero_or]
  cases b <;> decide

/-- **Record by record**: the result on a packet is the one of its records exactly when they are like the first. -/
theorem recordByRecord_iff :
    RecordByRecord pktFlags rs ↔ ∃ r rs', rs = r :: rs' ∧ LikeFirst pktFlags r rs' := by
  cases rs with
  | nil =>
    refine iff_of_false ?_ (by simp)
    rintro ⟨singles, hsingles, h⟩
    obtain rfl : singles = [] := by simpa using hsingles.symm
    exact absurd (Outcome.returns.inj h) (by decide)
  | cons r rs =>
    rw [recordByRecord_cons_iff]
    constructor
    · intro h
      have hwhole : r.bytes.length ∣ (packet (r :: rs)).length := by
        by_contra hnot
        obtain ⟨x, hx, hbit⟩ := sslDecodeV2_truncated pktFlags hnot
        rw [h] at hx
        obtain rfl := Outcome.returns.inj hx
        refine hbit ?_
        rw [UInt32.or_assoc, or_and_distrib, orAll_flags_and fun t => V2Type.flags_and_truncated, UInt32.zero_or]
        cases (r :: rs).any fun r => badMajor r.bytes 0 r.type <;> decide
      rw [sslDecodeV2_pieces pktFlags hwhole] at h
      have heq := Outcome.returns.inj h
      refine ⟨r, rs, rfl, hwhole, fun r' hr' => ?_, ?_⟩
      · refine V2Type.alike_iff.2 (V2Type.flags_eq_of_or_eq (b := (starts (packet (r :: rs)).length r.bytes.length).any
          fun pos => badMajor (packet (r :: rs)) pos r.type) ?_)
        rw [heq, ← UInt32.or_assoc, ← UInt32.or_assoc,
          or_orAll_of_mem (List.mem_map_of_mem (f := fun r : V2Record => r.type.flags pktFlags)
            (List.mem_cons_of_mem r hr'))]
      · have hbits := congrArg (· &&& sslBadVerFlag) heq
        rw [badFlags_of_or V2Type.flags_and_badVer,
          badFlags_of_or (orAll_flags_and fun t => V2Type.flags_and_badVer)] at hbits
        rw [← List.any_eq_true, ← List.any_eq_true, ← Bool.eq_iff_iff]
        revert hbits
        cases (starts (packet (r :: rs)).length r.bytes.length).any fun pos => badMajor (packet (r :: rs)) pos r.type <;>
          cases (r :: rs).any fun r => badMajor r.bytes 0 r.type <;> decide
    · rintro ⟨r', rs', heq, hlike⟩
      obtain ⟨rfl, rfl⟩ := List.cons.inj heq
      rw [sslDecodeV2_pieces pktFlags hlike.whole, orAll_map_const (x := r.type.flags pktFlags) (by simp)]
      · congr 4
        rw [Bool.eq_iff_iff, List.any_eq_true, List.any_eq_true]
        exact hlike.version
      · intro r' hr'
        rcases List.mem_cons.1 hr' with rfl | hr'
        · rfl
        · exact V2Type.alike_iff.1 (hlike.alike r' hr')

/-- **The decoder**: records of SSLv2 are decoded one by one when they are like the first, and nothing outside of a packet
is read unless it has eight bytes and could be a server hello of SSLv2. -/
theorem sslDecode_record_by_record (pktFlags : UInt32) (rs : List V2Record) (pkt : List UInt8) :
    (RecordByRecord pktFlags rs ↔ ∃ r rs', rs = r :: rs' ∧ LikeFirst pktFlags r rs') ∧
      ((∃ r, sslDecode pkt pktFlags = .returns r) ↔ ¬EightBytes pkt) :=
  ⟨recordByRecord_iff, sslDecode_returns_iff pkt pktFlags⟩

/-- A client hello, and a client key of the same length. -/
def helloAndKey : List V2Record :=
  [⟨true, .chello, [0, 2, 0, 0], by decide⟩, ⟨true, .ckey, [0, 2, 0, 0], by decide⟩]

/-- The key is taken for another hello, and the ninth byte of eight is read. -/
theorem sslDecode_not_record_by_record :
    ¬RecordByRecord 0 helloAndKey ∧ sslDecode [0, 0, 0, 0, 0, 0, 0, 2] 0 = .fault := by
  refine ⟨?_, by decide⟩
  rw [helloAndKey, recordByRecord_cons_iff]
  decide

end Snort.Ssl
