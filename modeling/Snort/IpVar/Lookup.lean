import Snort.IpVar.Model
import Snort.Sfrt.Address

/-!
# Looking an address up in an IP variable

* `ipIn_iff` is the walk over both lists at once, for any test of a network.
* `sfipFastCont4_iff` and `sfipFastCont6_iff`: on a network that has been masked the fast tests
  compare the leading bits.
* **`sfvarIpIn_iff`** puts both together.
-/

namespace Snort.IpVar

open Slice Sfrt

/-! ### The walk over both lists -/

section

variable {cont : Sfip → Bool}

/-- The negated list is walked to its end or to a match, the positive one up to its first match. -/
theorem ipInLoop_iff (isMatch : Bool) (pos neg : List SfipNode) :
    ipInLoop cont isMatch pos neg = true ↔
      (isMatch = true ∧ pos ≠ [] ∨
        ∃ node ∈ pos, sfipIsSet node.ip = false ∨ cont node.ip = true) ∧
        ∀ node ∈ neg, cont node.ip = false := by
  fun_induction ipInLoop cont isMatch pos neg with
  | case1 => simp
  | case2 => simp
  | case3 pos posRest neg negRest hneg => simp [hneg]
  | case4 pos posRest neg negRest hneg ih => simp [ih, hneg]
  | case5 pos posRest hpos ih =>
    -- the cursor stays on the match
    simp only [Bool.not_eq_true] at hpos
    simp [ih, hpos]
  | case6 pos posRest hpos ih =>
    simp only [Bool.not_eq_true] at hpos
    simp [ih, hpos]
  | case7 pos posRest neg negRest hneg => simp [hneg]
  | case8 pos posRest neg negRest hneg hpos ih =>
    simp only [Bool.not_eq_true] at hpos
    simp [ih, hneg, hpos]
  | case9 pos posRest neg negRest hneg hpos ih =>
    simp only [Bool.not_eq_true] at hpos
    simp [ih, hneg, hpos]

theorem ipIn_iff (var : SfipVar) :
    ipIn cont var = true ↔
      (∀ node ∈ var.negHead, cont node.ip = false) ∧
        (var.head = [] ∨
          ∃ node ∈ var.head, sfipIsSet node.ip = false ∨ cont node.ip = true) := by
  unfold ipIn
  split_ifs with hhead
  · simp [hhead]
  · rw [ipInLoop_iff]
    simp [hhead, and_comm]

end

/-! ### The test of a network -/

/-- The number that an address is. -/
def Sfip.value (ip : Sfip) : ℕ := (Adr.sfip ip.toSfip).value

/-- A network as `sfip_cidr_mask` leaves it. -/
structure Sfip.Masked (net : Sfip) : Prop where
  bits_le : net.bits ≤ net.family.bits
  value_mod : net.value % 2 ^ (net.family.bits - net.bits) = 0

/-- The address is in the network: they agree in its leading bits. -/
def Sfip.Contains (net ip : Sfip) : Prop :=
  net.family = ip.family ∧
    net.value / 2 ^ (net.family.bits - net.bits) = ip.value / 2 ^ (net.family.bits - net.bits)

theorem eq_div_mul_iff {v x n : ℕ} (hn : 0 < n) (hv : v % n = 0) :
    v = x / n * n ↔ v / n = x / n := by
  have hdiv : v / n * n = v := Nat.div_mul_cancel (Nat.dvd_of_mod_eq_zero hv)
  constructor
  · intro h
    rw [h, Nat.mul_div_cancel _ hn]
  · intro h
    rw [← h, hdiv]

/-- Masking a word as the fast tests do. -/
theorem word_eq_mask_iff {v x : BitVec 32} {k : ℕ} (hv : v.toNat % 2 ^ k = 0) :
    v = (x >>> k) <<< k ↔ v.toNat / 2 ^ k = x.toNat / 2 ^ k := by
  have hle : x.toNat / 2 ^ k * 2 ^ k < 2 ^ 32 := (Nat.div_mul_le_self _ _).trans_lt x.isLt
  rw [← eq_div_mul_iff (Nat.two_pow_pos k) hv, ← BitVec.toNat_inj, BitVec.toNat_shiftLeft,
    BitVec.toNat_ushiftRight, Nat.shiftRight_eq_div_pow, Nat.shiftLeft_eq, Nat.mod_eq_of_lt hle]

theorem sfipBits_toNat {net : Sfip} (h : net.bits ≤ 128) : (sfipBits net).toNat = net.bits := by
  rw [sfipBits, BitVec.toNat_ofNat]
  exact Nat.mod_eq_of_lt (by omega)

/-- `sfip_fast_cont4`. -/
theorem sfipFastCont4_iff {net ip : Sfip} (hnet : net.Masked) (hfam : net.family = .inet)
    (hip : ip.family = .inet) : sfipFastCont4 net ip = true ↔ net.Contains ip := by
  have hle : net.bits ≤ 32 := by
    have h := hnet.bits_le
    rwa [hfam] at h
  have hmod := hnet.value_mod
  have hvalue : ∀ a : Sfip, a.family = .inet → a.value = (a.ip32 0).toNat := by
    intro a ha
    simp only [Sfip.value, Adr.value, ha]
  have hshift : (32 - (sfipBits net).setWidth 32).toNat = 32 - net.bits := by
    have hbits : ((sfipBits net).setWidth 32).toNat = net.bits := by
      rw [BitVec.toNat_setWidth, sfipBits_toNat (by omega)]
      exact Nat.mod_eq_of_lt (by omega)
    rw [BitVec.toNat_sub_of_le (by rwa [BitVec.le_def, hbits]), hbits]
    rfl
  rw [hfam, hvalue net hfam, show Family.inet.bits = 32 from rfl] at hmod
  rw [sfipFastCont4, Sfip.Contains, hfam, hip, hvalue net hfam, hvalue ip hip, decide_eq_true_iff,
    BitVec.ushiftRight_eq', BitVec.shiftLeft_eq', hshift, word_eq_mask_iff hmod]
  exact (and_iff_right rfl).symm

/-- The words at the front of an IPv6 address. -/
theorem words_eq_iff {a b : Sfip} (ha : a.family = .inet6) (hb : b.family = .inet6) {n : ℕ}
    (hn : n ≤ 4) :
    (∀ i < n, a.ip32 i = b.ip32 i) ↔
      slice 128 a.value 0 (32 * n) = slice 128 b.value 0 (32 * n) := by
  induction n with
  | zero => simp
  | succ n ih =>
    have hword : ∀ c : Sfip, c.family = .inet6 →
        (c.ip32 n).toNat = slice 128 c.value (32 * n) 32 := by
      intro c hc
      exact slice_word c.toSfip hc hn
    rw [Nat.mul_succ, slice_append_iff (by omega), ← ih (by omega), Nat.zero_add, ← hword a ha,
      ← hword b hb, BitVec.toNat_inj]
    exact Nat.forall_lt_succ_right

/-- The word of a masked network in which its bits end. -/
theorem masked_word {net : Sfip} (hnet : net.Masked) (hfam : net.family = .inet6) {i k : ℕ}
    (hbits : net.bits + k = 32 * i + 32) (hk : k ≤ 32) (hi : i < 4) :
    (net.ip32 i).toNat % 2 ^ k = 0 := by
  have hmod := hnet.value_mod
  have hexp : 128 - net.bits = 96 - 32 * i + k := by omega
  rw [hfam, show Family.inet6.bits = 128 from rfl, hexp] at hmod
  have hword : (net.ip32 i).toNat = slice 128 net.value (32 * i) 32 := slice_word net.toSfip hfam hi
  have hmod' : net.value % 2 ^ (96 - 32 * i + k) / 2 ^ (96 - 32 * i) = 0 := by
    rw [hmod, Nat.zero_div]
  rw [hword, slice, show 128 - 32 * i - 32 = 96 - 32 * i by omega,
    Nat.mod_mod_of_dvd _ (pow_dvd_pow 2 hk), ← mod_div, hmod']

/-- `sfip_fast_cont6`. -/
theorem sfipFastCont6_iff {net ip : Sfip} (hnet : net.Masked) (hfam : net.family = .inet6)
    (hip : ip.family = .inet6) : sfipFastCont6 net ip = true ↔ net.Contains ip := by
  have hle : net.bits ≤ 128 := by
    have h := hnet.bits_le
    rwa [hfam] at h
  have hlt : ∀ a : Sfip, a.family = .inet6 → a.value < 2 ^ 128 := by
    intro a ha
    have h := value_lt (Adr.sfip a.toSfip)
    rwa [Adr.family, ha] at h
  have hcontains : net.Contains ip ↔
      slice 128 net.value 0 net.bits = slice 128 ip.value 0 net.bits := by
    rw [Sfip.Contains, hfam, hip, slice_top (hlt net hfam) hle, slice_top (hlt ip hip) hle]
    exact and_iff_right rfl
  -- the words in front of the one in which the bits end, and the bits in that one
  obtain ⟨n, m, hm, hbits⟩ : ∃ n m, m < 32 ∧ net.bits = 32 * n + m :=
    ⟨net.bits / 32, net.bits % 32, Nat.mod_lt _ (by omega), (Nat.div_add_mod _ _).symm⟩
  have hn : net.bits / 32 = n := by omega
  have hmod : net.bits % 32 = m := by omega
  have hwords := words_eq_iff hfam hip (show n ≤ 4 by omega)
  have hany : (List.range n).any (fun i => net.ip32 i ≠ ip.ip32 i) =
      true ↔ ¬ slice 128 net.value 0 (32 * n) = slice 128 ip.value 0 (32 * n) := by
    rw [← hwords]
    simp
  unfold sfipFastCont6
  simp only [sfipBits_toNat hle, hn, hmod]
  rw [hcontains, hbits, slice_append_iff (by omega), Nat.zero_add]
  split_ifs with hne hzero
  · exact iff_of_false (by simp) fun h => hany.1 hne h.1
  · obtain rfl : m = 0 := by omega
    simpa using hany.not_left.1 hne
  · have hfront := hany.not_left.1 hne
    have hlow : ∀ a : Sfip, a.family = .inet6 →
        (a.ip32 n).toNat / 2 ^ (32 - m) = slice 128 a.value (32 * n) m := by
      intro a ha
      have hword : (a.ip32 n).toNat = slice 128 a.value (32 * n) 32 :=
        slice_word a.toSfip ha (by omega)
      have hsum : slice 128 a.value (32 * n) (m + (32 - m)) / 2 ^ (32 - m) =
          slice 128 a.value (32 * n) m := slice_div (by omega)
      rw [show m + (32 - m) = 32 by omega] at hsum
      rwa [hword]
    have hmask := masked_word hnet hfam (show net.bits + (32 - m) = 32 * n + 32 by omega)
      (by omega) (by omega)
    rw [decide_eq_true_iff, word_eq_mask_iff hmask, hlow net hfam, hlow ip hip]
    exact (and_iff_right hfront).symm

/-! ### Membership -/

/-- The test of a network that `sfvar_ip_in` uses for the family of the address. -/
def fastCont (ip net : Sfip) : Bool :=
  net.family = ip.family ∧
    if ip.family = .inet then sfipFastCont4 net ip = true else sfipFastCont6 net ip = true

theorem fastCont_iff {net ip : Sfip} (hnet : net.Masked) :
    fastCont ip net = true ↔ net.Contains ip := by
  unfold fastCont
  rw [decide_eq_true_iff]
  cases hip : ip.family with
  | inet =>
    rw [if_pos rfl]
    constructor
    · exact fun h => (sfipFastCont4_iff hnet h.1 hip).1 h.2
    · exact fun h => ⟨h.1.trans hip, (sfipFastCont4_iff hnet (h.1.trans hip) hip).2 h⟩
  | inet6 =>
    rw [if_neg (by decide)]
    constructor
    · exact fun h => (sfipFastCont6_iff hnet h.1 hip).1 h.2
    · exact fun h => ⟨h.1.trans hip, (sfipFastCont6_iff hnet (h.1.trans hip) hip).2 h⟩

theorem sfvarIpIn_eq (var : SfipVar) (ip : Sfip) : sfvarIpIn var ip = ipIn (fastCont ip) var := by
  unfold sfvarIpIn sfvarIpIn4 sfvarIpIn6
  split_ifs with hip
  · congr 1
    funext net
    simp [fastCont, hip]
  · have hip6 : ip.family = .inet6 := by
      cases h : ip.family with
      | inet => exact absurd h hip
      | inet6 => rfl
    congr 1
    funext net
    simp [fastCont, hip6]

/-- What a variable says of an address. -/
def SfipVar.Holds (var : SfipVar) (ip : Sfip) : Prop :=
  (∀ node ∈ var.negHead, ¬ node.ip.Contains ip) ∧
    (var.head = [] ∨ ∃ node ∈ var.head, sfipIsSet node.ip = false ∨ node.ip.Contains ip)

/-- All networks of a variable are masked. -/
def SfipVar.Masked (var : SfipVar) : Prop := ∀ node ∈ var.head ++ var.negHead, node.ip.Masked

theorem sfvarIpIn_eq_true_iff {var : SfipVar} (hvar : var.Masked) (ip : Sfip) :
    sfvarIpIn var ip = true ↔ var.Holds ip := by
  have hcont : ∀ node ∈ var.head ++ var.negHead,
      (fastCont ip node.ip = true ↔ node.ip.Contains ip) := fun node hnode =>
    fastCont_iff (hvar node hnode)
  rw [sfvarIpIn_eq, ipIn_iff]
  refine and_congr ?_ (or_congr Iff.rfl ?_)
  · refine forall₂_congr fun node hnode => ?_
    rw [← hcont node (List.mem_append_right _ hnode), Bool.not_eq_true]
  · refine exists_congr fun node => and_congr_right fun hnode => ?_
    rw [hcont node (List.mem_append_left _ hnode)]

/-- A network with a length of its family that is not 0, masked. -/
structure Sfip.Network (net : Sfip) : Prop extends net.Masked where
  bits_pos : 1 ≤ net.bits

/-- **Membership**: no negated network contains the address, and there is no other network or one
that is unset or contains it. -/
theorem sfvarIpIn_iff (var : SfipVar) (ip : Sfip)
    (hnodes : ∀ node ∈ var.head ++ var.negHead, node.ip.Network) :
    sfvarIpIn var ip = true ↔
      (∀ node ∈ var.negHead, ¬ node.ip.Contains ip) ∧
        (var.head = [] ∨
          ∃ node ∈ var.head, sfipIsSet node.ip = false ∨ node.ip.Contains ip) :=
  sfvarIpIn_eq_true_iff (fun node hnode => (hnodes node hnode).toMasked) ip

/-- An IPv4 network. -/
def net4 (ip : BitVec 32) (bits : ℕ) : Sfip := ⟨⟨.inet, fun i => [ip].getD i 0⟩, bits⟩

/-- A node for a network. -/
def node4 (ip : BitVec 32) (bits : ℕ) : SfipNode := ⟨net4 ip bits, false, false, false⟩

/-- `192.168.0.0/16,10.0.0.0/8,!10.1.0.0/16` and 10.2.3.4. -/
theorem sfvarIpIn_iff_lists :
    let var : SfipVar :=
      ⟨[node4 0x0a000000 8, node4 0xc0a80000 16], [node4 0x0a010000 16], 0, []⟩
    let ip := net4 0x0a020304 32
    sfvarIpIn var ip = true ↔
      (∀ node ∈ var.negHead, ¬ node.ip.Contains ip) ∧
        (var.head = [] ∨
          ∃ node ∈ var.head, sfipIsSet node.ip = false ∨ node.ip.Contains ip) := by
  refine sfvarIpIn_iff _ _ fun node hnode => ?_
  simp only [List.cons_append, List.nil_append, List.mem_cons, List.not_mem_nil, or_false] at hnode
  rcases hnode with rfl | rfl | rfl
  · exact ⟨⟨by decide, by decide⟩, by decide⟩
  · exact ⟨⟨by decide, by decide⟩, by decide⟩
  · exact ⟨⟨by decide, by decide⟩, by decide⟩

end Snort.IpVar
