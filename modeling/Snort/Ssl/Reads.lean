import Snort.Ssl.Model

/-!
# What the SSL decoder reads

* `Inside`: what is left of the packet is inside of it;
* `returns_of_turn`: a loop whose turns keep `Inside` and take a byte comes to a result;
* `sslDecodeV2_returns`, `sslDecodeHandshakeV3_returns`, `sslDecodeV3_returns`: the three loops;
* `looksV2_eq_none_iff`: the one read that may be outside of the packet.
-/

namespace Snort.Ssl

open Loop

/-- What is left of the packet is inside of it. -/
def Inside (pkt : List UInt8) (s : Vars) : Prop := (s.pos : ℤ) + s.size ≤ pkt.length

variable {pkt : List UInt8} {pktFlags curFlags retval : UInt32} {pos : ℕ} {size : ℤ}

theorem getElem?_inside {i : ℕ} (h : i < pkt.length) : ∃ b, pkt[i]? = some b := ⟨_, List.getElem?_eq_getElem h⟩

theorem ntohs_inside (h : pos + 2 ≤ pkt.length) : ∃ n, ntohs pkt pos = some n := by
  obtain ⟨hi, hhi⟩ := getElem?_inside (show pos < pkt.length by omega)
  obtain ⟨lo, hlo⟩ := getElem?_inside (show pos + 1 < pkt.length by omega)
  exact ⟨hi.toNat * 256 + lo.toNat, by simp [ntohs, hhi, hlo]⟩

theorem threeByteLen_inside (h : pos + 3 ≤ pkt.length) : ∃ n, threeByteLen pkt pos = some n := by
  obtain ⟨hi, hhi⟩ := getElem?_inside (show pos < pkt.length by omega)
  obtain ⟨mid, hmid⟩ := getElem?_inside (show pos + 1 < pkt.length by omega)
  obtain ⟨lo, hlo⟩ := getElem?_inside (show pos + 2 < pkt.length by omega)
  exact ⟨lo.toNat + mid.toNat * 256 + hi.toNat * 65536, by simp [threeByteLen, hhi, hmid, hlo]⟩

theorem threeByteLen_outside (h : pkt.length ≤ pos + 2) : threeByteLen pkt pos = none := by
  rw [threeByteLen, List.getElem?_eq_none h]
  cases pkt[pos]? <;> cases pkt[pos + 1]? <;> rfl

/-- A turn goes on with less of the packet, or ends the loop. -/
def Shrinks (pkt : List UInt8) (s : Vars) : Turn Vars UInt32 → Prop :=
  Turn.Keeps (Inside pkt) (fun s => s.size.toNat) (fun _ => True) s.size.toNat

/-- **A loop comes to a result** when each turn can read what it needs and takes a byte. -/
theorem returns_of_turn {turn : Vars → Option (Turn Vars UInt32)} {s : Vars} {fuel : ℕ}
    (hturn : ∀ s, Inside pkt s → ∃ t, turn s = some t ∧ Shrinks pkt s t) (hs : Inside pkt s)
    (hfuel : s.size.toNat < fuel) : ∃ r, run turn fuel s = .returns r := by
  obtain ⟨r, hr, -⟩ := run_returns hturn hs hfuel
  exact ⟨r, hr⟩

/-- The next turn starts behind what this one has taken. -/
theorem shrinks_more {s : Vars} (len : ℕ) (retval : UInt32) (ccs : Bool) (hs : Inside pkt s) (hsize : 0 < s.size) (hlen : 0 < len) :
    Shrinks pkt s (.more ⟨s.pos + len, s.size - len, retval, ccs⟩) := by
  unfold Inside at hs
  refine ⟨?_, ?_⟩
  · unfold Inside
    push_cast
    omega
  · dsimp only
    omega

/-! ### SSLv2 -/

theorem majorV2_inside {offset : ℕ} (hin : (pos : ℤ) + size ≤ pkt.length) :
    ∃ r, majorV2 pkt pos size offset retval = some r := by
  unfold majorV2
  split
  · exact ⟨_, rfl⟩
  · obtain ⟨major, hmajor⟩ := getElem?_inside (show pos + offset < pkt.length by omega)
    exact ⟨_, by rw [hmajor]; rfl⟩

theorem v2Flags_inside (pktFlags retval : UInt32) (type : V2Type) (hin : (pos : ℤ) + size ≤ pkt.length) :
    ∃ r, v2Flags pkt pktFlags pos size retval type = some r := by
  cases type with
  | chello => exact majorV2_inside hin
  | shello => exact majorV2_inside hin
  | ckey => exact ⟨_, rfl⟩

theorem v2Turn_spec (s : Vars) (hs : Inside pkt s) : ∃ t, v2Turn pkt pktFlags s = some t ∧ Shrinks pkt s t := by
  unfold v2Turn
  split
  · exact ⟨_, rfl, trivial⟩
  split
  · exact ⟨_, rfl, trivial⟩
  have hin := hs
  unfold Inside at hin
  obtain ⟨length, hlength⟩ := ntohs_inside (show 0 + 2 ≤ pkt.length by omega)
  obtain ⟨code, hcode⟩ := getElem?_inside (show 2 < pkt.length by omega)
  simp only [hlength, hcode, Option.bind_eq_bind, Option.bind_some]
  cases V2Type.ofCode code with
  | none => exact ⟨_, rfl, trivial⟩
  | some type =>
    obtain ⟨r, hr⟩ := v2Flags_inside pktFlags s.retval type hin
    refine ⟨_, by dsimp only; rw [hr]; rfl, ?_⟩
    have := shrinks_more ((length &&& 0x7fff) + 2) r false hs (by omega) (by omega)
    push_cast at this ⊢
    exact this

/-- Whatever the lengths in it, a packet is decoded as SSLv2 without a read outside of it. -/
theorem sslDecodeV2_returns (pkt : List UInt8) (pktFlags : UInt32) : ∃ r, sslDecodeV2 pkt pktFlags = .returns r :=
  returns_of_turn v2Turn_spec (by simp [Inside]) (by dsimp only; omega)

/-! ### SSLv3 and TLS -/

theorem helloVersion_inside (curFlags retval : UInt32) (hin : (pos : ℤ) + 4 + size ≤ pkt.length) :
    ∃ r, helloVersion pkt curFlags pos size retval = some r := by
  unfold helloVersion
  split
  · exact ⟨_, rfl⟩
  · obtain ⟨major, hmajor⟩ := getElem?_inside (show pos + 4 < pkt.length by omega)
    obtain ⟨minor, hminor⟩ := getElem?_inside (show pos + 5 < pkt.length by omega)
    simp only [hmajor, hminor, Option.bind_eq_bind, Option.bind_some]
    exact ⟨_, rfl⟩

theorem handshakeFlags_inside (pktFlags curFlags retval : UInt32) (type : UInt8) (hin : (pos : ℤ) + 4 + size ≤ pkt.length) :
    ∃ t, handshakeFlags pkt pktFlags curFlags pos size retval type = some t := by
  unfold handshakeFlags
  dsimp only
  split
  case h_1 =>
    obtain ⟨r, hr⟩ := helloVersion_inside curFlags (retval ||| if pktFlags &&& flagFromServer ≠ 0
      then sslBogusHsDirFlag else sslClientHelloFlag ||| sslCurClientHelloFlag) hin
    exact ⟨_, by rw [hr]; rfl⟩
  case h_2 =>
    obtain ⟨r, hr⟩ := helloVersion_inside curFlags (retval ||| if pktFlags &&& flagFromServer ≠ 0
      then sslServerHelloFlag ||| sslCurServerHelloFlag else sslBogusHsDirFlag) hin
    exact ⟨_, by rw [hr]; rfl⟩
  all_goals exact ⟨_, rfl⟩

theorem handshakeTurn_spec (s : Vars) (hs : Inside pkt s) :
    ∃ t, handshakeTurn pkt pktFlags curFlags s = some t ∧ Shrinks pkt s t := by
  unfold handshakeTurn
  split
  · exact ⟨_, rfl, trivial⟩
  split
  · exact ⟨_, rfl, trivial⟩
  have hin := hs
  unfold Inside at hin
  obtain ⟨hsLen, hlen⟩ := threeByteLen_inside (show s.pos + 1 + 3 ≤ pkt.length by omega)
  obtain ⟨type, htype⟩ := getElem?_inside (show s.pos < pkt.length by omega)
  obtain ⟨t, ht⟩ := handshakeFlags_inside pktFlags curFlags s.retval type
    (show (s.pos : ℤ) + 4 + (s.size - 4) ≤ pkt.length by omega)
  simp only [hlen, htype, ht, Option.bind_eq_bind, Option.bind_some]
  cases t with
  | done r => exact ⟨_, rfl, trivial⟩
  | more r =>
    refine ⟨_, rfl, ?_⟩
    have := shrinks_more (4 + hsLen) r false hs (by omega) (by omega)
    push_cast at this ⊢
    rwa [← add_assoc, ← sub_sub] at this

theorem sslDecodeHandshakeV3_returns (pktFlags curFlags : UInt32) (hin : (pos : ℤ) + size ≤ pkt.length) :
    ∃ r, sslDecodeHandshakeV3 pkt pktFlags pos size curFlags = .returns r :=
  returns_of_turn handshakeTurn_spec hin (Nat.lt_succ_self _)

theorem recordFlags_inside (pktFlags retval : UInt32) (ccs : Bool) (type : UInt8) (reclen : ℕ)
    (hin : (pos : ℤ) + size ≤ pkt.length) :
    ∃ r, recordFlags pkt pktFlags pos size retval ccs type reclen = some r := by
  unfold recordFlags
  dsimp only
  split
  case h_3 =>
    split
    · obtain ⟨r, hr⟩ := sslDecodeHandshakeV3_returns pktFlags retval
        (show (pos : ℤ) + (if size < reclen then size else reclen) ≤ pkt.length by split <;> omega)
      exact ⟨_, by rw [hr]; rfl⟩
    · exact ⟨_, rfl⟩
  all_goals exact ⟨_, rfl⟩

theorem v3Turn_spec (s : Vars) (hs : Inside pkt s) : ∃ t, v3Turn pkt pktFlags s = some t ∧ Shrinks pkt s t := by
  unfold v3Turn
  split
  · exact ⟨_, rfl, trivial⟩
  split
  · exact ⟨_, rfl, trivial⟩
  have hin := hs
  unfold Inside at hin
  obtain ⟨major, hmajor⟩ := getElem?_inside (show s.pos + 1 < pkt.length by omega)
  obtain ⟨minor, hminor⟩ := getElem?_inside (show s.pos + 2 < pkt.length by omega)
  obtain ⟨reclen, hreclen⟩ := ntohs_inside (show s.pos + 3 + 2 ≤ pkt.length by omega)
  obtain ⟨type, htype⟩ := getElem?_inside (show s.pos < pkt.length by omega)
  obtain ⟨⟨r, ccs⟩, hr⟩ := recordFlags_inside pktFlags (s.retval ||| sslDecodeVersionV3 major minor) s.ccs type reclen
    (show ((s.pos + 5 : ℕ) : ℤ) + (s.size - 5) ≤ pkt.length by push_cast; omega)
  simp only [hmajor, hminor, hreclen, htype, hr, Option.bind_eq_bind, Option.bind_some]
  refine ⟨_, rfl, ?_⟩
  have := shrinks_more (5 + reclen) r ccs hs (by omega) (by omega)
  push_cast at this ⊢
  rwa [← add_assoc, ← sub_sub] at this

/-- Whatever the lengths in it, a packet is decoded as SSLv3 without a read outside of it. -/
theorem sslDecodeV3_returns (pkt : List UInt8) (pktFlags : UInt32) : ∃ r, sslDecodeV3 pkt pktFlags = .returns r :=
  returns_of_turn v3Turn_spec (by simp [Inside]) (by dsimp only; omega)

/-! ### The decoder -/

theorem lengthsDiffer_inside (h : 9 ≤ pkt.length) : ∃ b, lengthsDiffer pkt = some b := by
  obtain ⟨datalen, hdatalen⟩ := threeByteLen_inside (show 6 + 3 ≤ pkt.length by omega)
  obtain ⟨reclen, hreclen⟩ := ntohs_inside (show 3 + 2 ≤ pkt.length by omega)
  exact ⟨_, by rw [lengthsDiffer, hdatalen, hreclen]; rfl⟩

/-- The length of the handshake of a record of TLS is not all in a packet of eight bytes. -/
theorem lengthsDiffer_outside (h : pkt.length = 8) : lengthsDiffer pkt = none := by
  rw [lengthsDiffer, threeByteLen_outside (by omega)]
  rfl

/-- A read outside of a packet of more than five bytes: it has eight, and could be a server hello of SSLv2. -/
theorem looksV2_eq_none_iff (h : 5 < pkt.length) :
    looksV2 pkt = none ↔ pkt.length = 8 ∧ pkt[4]? ≠ some 2 ∧ pkt[7]? = some 2 := by
  obtain ⟨helloType, htype⟩ := getElem?_inside (show 4 < pkt.length by omega)
  rw [looksV2, htype]
  simp only [Option.bind_eq_bind, Option.bind_some]
  by_cases h2 : helloType = 2
  · rw [if_pos h2]
    refine iff_of_false ?_ (by simp [h2])
    by_cases h10 : 10 ≤ pkt.length
    · obtain ⟨major, hmajor⟩ := getElem?_inside (show 9 < pkt.length by omega)
      obtain ⟨b, hb⟩ := lengthsDiffer_inside (show 9 ≤ pkt.length by omega)
      rw [if_pos h10, hmajor, Option.bind_some]
      by_cases h3 : major = 3
      · simp [if_pos h3, hb]
      · simp [if_neg h3]
    · simp [if_neg h10]
  · rw [if_neg h2]
    by_cases h8 : 8 ≤ pkt.length
    · obtain ⟨major, hmajor⟩ := getElem?_inside (show 7 < pkt.length by omega)
      rw [if_pos h8, hmajor, Option.bind_some]
      by_cases h7 : major = 2
      · rw [if_pos h7]
        rcases Nat.lt_or_ge 8 pkt.length with hlt | hle
        · obtain ⟨b, hb⟩ := lengthsDiffer_inside (show 9 ≤ pkt.length by omega)
          refine iff_of_false (by simp [hb]) (fun hbad => by omega)
        · have hlen : pkt.length = 8 := le_antisymm hle h8
          exact iff_of_true (lengthsDiffer_outside hlen) ⟨hlen, by simpa using h2, by rw [h7]⟩
      · rw [if_neg h7]
        exact iff_of_false (by simp) (fun hbad => h7 (Option.some.inj hbad.2.2))
    · rw [if_neg h8]
      exact iff_of_false (by simp) (fun hbad => h8 hbad.1.ge)

/-- A packet of eight bytes that could be a server hello of SSLv2. -/
def EightBytes (pkt : List UInt8) : Prop :=
  pkt.length = 8 ∧ (∀ first ∈ pkt[0]?, first &&& 0x80 = 0 ∧ first &&& 0x40 = 0) ∧ pkt[4]? ≠ some 2 ∧ pkt[7]? = some 2

/-- The decoder comes to a result, and reads nothing outside of the packet, but for one packet length. -/
theorem sslDecode_returns_iff (pkt : List UInt8) (pktFlags : UInt32) :
    (∃ r, sslDecode pkt pktFlags = .returns r) ↔ ¬EightBytes pkt := by
  rw [sslDecode]
  by_cases h0 : pkt.length = 0
  · rw [if_pos h0]
    exact iff_of_true ⟨_, rfl⟩ fun h => by have := h.1; omega
  rw [if_neg h0]
  by_cases h5 : pkt.length < 5
  · rw [if_pos h5]
    exact iff_of_true ⟨_, rfl⟩ fun h => by have := h.1; omega
  rw [if_neg h5]
  obtain ⟨first, hfirst⟩ := getElem?_inside (show 0 < pkt.length by omega)
  rw [hfirst]
  dsimp only
  by_cases hbits : first &&& 0x80 ≠ 0 ∨ first &&& 0x40 ≠ 0
  · rw [if_pos hbits]
    refine iff_of_true (sslDecodeV2_returns pkt pktFlags) fun h => ?_
    obtain ⟨h80, h40⟩ := h.2.1 first hfirst
    exact hbits.elim (fun h => h h80) fun h => h h40
  rw [if_neg hbits]
  by_cases hlen : pkt.length = 5
  · rw [if_pos hlen]
    exact iff_of_true (sslDecodeV3_returns pkt pktFlags) fun h => by have := h.1; omega
  rw [if_neg hlen]
  have hnone := looksV2_eq_none_iff (show 5 < pkt.length by omega)
  cases hlooks : looksV2 pkt with
  | none =>
    obtain ⟨hlen, h4, h7⟩ := hnone.1 hlooks
    refine iff_of_false (by simp) (not_not.2 ⟨hlen, fun b hb => ?_, h4, h7⟩)
    obtain rfl : first = b := Option.some.inj (hfirst.symm.trans hb)
    simpa using hbits
  | some b =>
    refine iff_of_true ?_ fun h => ?_
    · cases b with
      | true => exact sslDecodeV2_returns pkt pktFlags
      | false => exact sslDecodeV3_returns pkt pktFlags
    · rw [hnone.2 ⟨h.1, h.2.2.1, h.2.2.2⟩] at hlooks
      cases hlooks

end Snort.Ssl
