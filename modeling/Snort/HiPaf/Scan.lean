import Mathlib.Data.List.TakeWhile
import Snort.Lib.Scanner
import Snort.HiPaf.Model

/-!
# `hi_paf` scans from left to right

* `findRow_matches`: the loop of `hi_scan_fsm` ends at a row that matches.
* `hiPafLoop_eq`: the jump to the next line feed changes nothing, so that `hi_paf` is a scanner of
  bytes.
* **`hiPaf_append`**: the splitting law.
-/

namespace Snort.HiPaf

open Scanner

/-- From every row the others lead to one that matches anything. -/
theorem exists_any : ∀ i < hiFsm.length, (row i).event = any ∨ (row (row i).other).event = any ∨
    (row (row (row i).other).other).event = any ∨
    (row (row (row (row i).other).other).other).event = any ∨
    (row (row (row (row (row i).other).other).other).other).event = any := by
  decide +kernel

/-- The loop of `hi_scan_fsm` ends. -/
theorem findRow_matches (c : Byte) {i : ℕ} (hi : i < hiFsm.length) :
    (findRow c 4 i).event = any ∨ (findRow c 4 i).event = c := by
  have hany := exists_any i hi
  simp only [findRow]
  grind

/-- One byte of `hi_scan_msg`: a new state, or a verdict with the state and `*fp`. -/
def scanByte (s : HiState) (c : Byte) : HiState ⊕ PafStatus × HiState × BitVec 32 :=
  let r := hiScanMsg s c 0
  if r.1 = .search then .inl r.2.1 else .inr r

/-- What `hi_paf` makes of a scan. -/
def ofOutcome (fromClient : Bool) (len : ℕ) (peer : Option HiState) :
    Outcome HiState (PafStatus × HiState × BitVec 32) → PafResult
  | .more s => ⟨.search, 0, s, peer⟩
  | .stop r n => selectPoint fromClient len n r peer

/-- While `hi_paf` goes on, `*fp` stays 0. -/
theorem hiScanMsg_fp {s : HiState} {c : Byte} (h : (hiScanMsg s c 0).1 = .search) :
    (hiScanMsg s c 0).2.2 = 0 := by
  unfold hiScanMsg at h ⊢
  split_ifs with hcr
  · rfl
  · rw [if_neg hcr] at h
    exact if_neg (not_not.2 h)

theorem fold_ne_eol : ∀ c : Byte, c ≠ eol → fold c ≠ eol := by
  decide +kernel

/-- In a line that does not matter every byte but a line feed is passed over. -/
theorem findRow_z9 {c : Byte} (hc : c ≠ eol) : findRow c 4 z9 = row (z9 + 1) := by
  have hnext : (row z9).other = z9 + 1 := by decide
  have hevent : (row z9).event = eol := by decide
  have hany : (row (z9 + 1)).event = any := by decide
  rw [findRow, if_neg, hnext, findRow, if_pos (Or.inl hany)]
  rw [hevent]
  exact not_or.2 ⟨by decide, hc.symm⟩

theorem scanByte_stay {s : HiState} (hmsg : s.msg = 0) (hfsm : s.fsm = z9) {c : Byte}
    (hc : c ≠ eol) : scanByte s c = .inl s := by
  obtain ⟨len, flags, msg, fsm⟩ := s
  obtain rfl : msg = 0 := hmsg
  obtain rfl : fsm = z9 := hfsm
  unfold scanByte hiScanMsg
  split_ifs with hcr
  · rfl
  · simp only [scanSwitch, hiScanFsm]
    rw [if_neg hc, findRow_z9 (fold_ne_eol c hc)]
    rfl

/-- The jump to the next line feed. -/
theorem run_jump (s : HiState) (data : List Byte) :
    run scanByte s data =
      (run scanByte s (jump s data)).shift (data.length - (jump s data).length) := by
  unfold jump
  split_ifs with h
  · have hsplit := List.takeWhile_append_dropWhile (p := fun c => decide (c ≠ eol)) (l := data)
    have hlen := congrArg List.length hsplit
    rw [List.length_append] at hlen
    have hne : ∀ c ∈ data.takeWhile (fun c => decide (c ≠ eol)), c ≠ eol := fun c hc =>
      of_decide_eq_true (p := c ≠ eol) (List.mem_takeWhile_imp (p := fun c => decide (c ≠ eol)) hc)
    have hstay := run_stay (data.dropWhile fun c => decide (c ≠ eol))
      fun c hc => scanByte_stay h.1 h.2 (hne c hc)
    rw [hsplit] at hstay
    rw [hstay]
    congr 1
    omega
  · rw [Nat.sub_self, Outcome.shift_zero]

/-- **The loop of `hi_paf` is a scan of bytes.** -/
theorem hiPafLoop_eq (fromClient : Bool) (peer : Option HiState) (len : ℕ) (s : HiState)
    (data : List Byte) (hlen : data.length ≤ len) :
    hiPafLoop fromClient len peer s 0 data =
      ofOutcome fromClient len peer ((run scanByte s data).shift (len - data.length)) := by
  generalize hn : data.length = n
  induction n using Nat.strong_induction_on generalizing s data with
  | _ n ih =>
    have hle := length_jump_le s data
    have hrun := run_jump s data
    rw [hiPafLoop]
    split
    · rename_i hjump
      rw [hjump] at hrun
      rw [hrun]
      rfl
    · rename_i c rest hjump
      rw [hjump, List.length_cons] at hle hrun
      rw [hrun]
      dsimp only
      by_cases hpaf : (hiScanMsg s c 0).1 = .search
      · have hbyte : scanByte s c = .inl (hiScanMsg s c 0).2.1 := if_pos hpaf
        rw [if_neg (not_not.2 hpaf), hiScanMsg_fp hpaf,
          ih rest.length (by omega) _ rest (by omega) rfl, run_cons_inl _ hbyte,
          Outcome.shift_shift, Outcome.shift_shift]
        congr 2
        omega
      · have hbyte : scanByte s c = .inr (hiScanMsg s c 0) := if_neg hpaf
        rw [if_pos hpaf, run_cons_inr _ hbyte, Outcome.shift_stop, Outcome.shift_stop]
        show _ = selectPoint _ _ _ _ _
        congr 1
        omega

/-- The state that `hi_paf` scans from. -/
def startState (fromClient : Bool) (hip : Option HiState) : HiState :=
  hip.getD (hiReset fromClient)

/-- `hi_paf` where no error has been flagged. -/
theorem hiPaf_eq (fromClient : Bool) (hip peer : Option HiState) (data : List Byte)
    (h : (startState fromClient hip).flags.err = false) :
    hiPaf fromClient hip peer data =
      ofOutcome fromClient data.length peer
        (run scanByte (startState fromClient hip) data) := by
  unfold hiPaf
  show (if (startState fromClient hip).flags.err = true then _ else _) = _
  rw [if_neg (by simp [h]), hiPafLoop_eq _ _ _ _ _ le_rfl, Nat.sub_self, Outcome.shift_zero]
  rfl

/-- A flagged error ends scanning. -/
theorem hiPaf_of_err (fromClient : Bool) (hip peer : Option HiState) (data : List Byte)
    (h : (startState fromClient hip).flags.err = true) :
    hiPaf fromClient hip peer data = ⟨.abort, 0, startState fromClient hip, peer⟩ := if_pos h

theorem scanByte_stop {s : HiState} {c : Byte} {r : PafStatus × HiState × BitVec 32}
    (h : scanByte s c = .inr r) : r.1 ≠ .search := by
  unfold scanByte at h
  dsimp only at h
  split_ifs at h with hpaf
  rw [← Sum.inr.inj h]
  exact hpaf

theorem run_stop {s : HiState} {data : List Byte} {r : PafStatus × HiState × BitVec 32} {n : ℕ}
    (h : run scanByte s data = .stop r n) : r.1 ≠ .search := by
  obtain ⟨s', c, hbyte⟩ := exists_of_stop h
  exact scanByte_stop hbyte

section

variable {fromClient : Bool} {len n : ℕ} {r : PafStatus × HiState × BitVec 32}
  {peer : Option HiState}

theorem selectPoint_of_err (h : r.2.1.flags.err = true) :
    selectPoint fromClient len n r peer = ⟨r.1, BitVec.ofNat 32 len, r.2.1, peer⟩ := if_pos h

theorem selectPoint_of_not_err (h : ¬ r.2.1.flags.err = true) :
    selectPoint fromClient len n r peer =
      ⟨r.1, r.2.2 + BitVec.ofNat 32 n, if r.1 ≠ .skip then hiReset fromClient else r.2.1,
        hiUpdatePeer r.2.1 peer⟩ := if_neg h

theorem selectPoint_paf : (selectPoint fromClient len n r peer).paf = r.1 := by
  by_cases h : r.2.1.flags.err = true
  · rw [selectPoint_of_err h]
  · rw [selectPoint_of_not_err h]

/-- A point that is selected without an error does not depend on what follows. -/
theorem selectPoint_of_err_false (len' : ℕ)
    (h : (selectPoint fromClient len n r peer).state.flags.err = false) :
    selectPoint fromClient len' n r peer = selectPoint fromClient len n r peer := by
  by_cases herr : r.2.1.flags.err = true
  · rw [selectPoint_of_err herr, herr] at h
    cases h
  · rw [selectPoint_of_not_err herr, selectPoint_of_not_err herr]

/-- A point that is selected behind `k` more bytes. -/
theorem selectPoint_add (k : ℕ) :
    selectPoint fromClient (len + k) (n + k) r peer =
      { selectPoint fromClient len n r peer with
        fp := (selectPoint fromClient len n r peer).fp + BitVec.ofNat 32 k } := by
  by_cases herr : r.2.1.flags.err = true
  · rw [selectPoint_of_err herr, selectPoint_of_err herr, BitVec.ofNat_add]
  · rw [selectPoint_of_not_err herr, selectPoint_of_not_err herr, BitVec.ofNat_add,
      BitVec.add_assoc]

end

/-- A verdict on bytes that follow `k` others: the offset of a point is larger. -/
def PafResult.shift (k : ℕ) (r : PafResult) : PafResult :=
  if r.paf = .search then r else { r with fp := r.fp + BitVec.ofNat 32 k }

theorem ofOutcome_run_shift (fromClient : Bool) (peer : Option HiState) (s : HiState)
    (data : List Byte) (len k : ℕ) :
    ofOutcome fromClient (len + k) peer ((run scanByte s data).shift k) =
      (ofOutcome fromClient len peer (run scanByte s data)).shift k := by
  cases hrun : run scanByte s data with
  | more t => rfl
  | stop r n =>
    have hne : (selectPoint fromClient len n r peer).paf ≠ .search :=
      selectPoint_paf.trans_ne (run_stop hrun)
    show selectPoint fromClient (len + k) (n + k) r peer =
      (selectPoint fromClient len n r peer).shift k
    rw [PafResult.shift, if_neg hne, selectPoint_add]

/-- **The splitting law.**  As long as no error is flagged in the first part, `hi_paf` on two parts at
once does what it does on one after the other; and the jump to the next line feed changes nothing. -/
theorem hiPaf_append (fromClient : Bool) (hip peer : Option HiState) (a b : List Byte)
    (herr : (hiPaf fromClient hip peer a).state.flags.err = false) :
    let first := hiPaf fromClient hip peer a
    let both := hiPaf fromClient hip peer (a ++ b)
    (first.paf = .search →
      both = (hiPaf fromClient (some first.state) first.peer b).shift a.length) ∧
    (first.paf ≠ .search → both = first) ∧
    first = ofOutcome fromClient a.length peer (run scanByte (startState fromClient hip) a) := by
  have hstart : (startState fromClient hip).flags.err = false := by
    by_contra hne
    rw [hiPaf_of_err _ _ _ _ (Bool.eq_true_of_not_eq_false hne)] at herr
    exact hne herr
  have hfirst := hiPaf_eq fromClient hip peer a hstart
  have hboth := hiPaf_eq fromClient hip peer (a ++ b) hstart
  dsimp only
  rw [hfirst] at herr ⊢
  rw [hboth]
  cases hrun : run scanByte (startState fromClient hip) a with
  | more s' =>
    rw [hrun] at herr
    refine ⟨fun _ => ?_, fun hne => absurd rfl hne, rfl⟩
    rw [run_append_more b hrun, List.length_append, Nat.add_comm, ofOutcome_run_shift]
    exact congrArg _ (hiPaf_eq fromClient (some s') peer b herr).symm
  | stop r n =>
    rw [hrun] at herr
    rw [run_append_stop b hrun]
    refine ⟨fun hsearch => ?_, fun _ => selectPoint_of_err_false _ herr, rfl⟩
    exact absurd (selectPoint_paf.symm.trans hsearch) (run_stop hrun)

/-- A request that is cut in its second line. -/
theorem hiPaf_append_request :
    let a := "GET / HTTP/1.1\r\nHo".toList.map chr
    let b := "st: a\r\n\r\nGET".toList.map chr
    let first := hiPaf true none none a
    let both := hiPaf true none none (a ++ b)
    (first.paf = .search →
      both = (hiPaf true (some first.state) first.peer b).shift a.length) ∧
    (first.paf ≠ .search → both = first) ∧
    first = ofOutcome true a.length none (run scanByte (startState true none) a) := by
  refine hiPaf_append true none none _ _ ?_
  rw [hiPaf_eq _ _ _ _ rfl]
  decide +kernel

end Snort.HiPaf
