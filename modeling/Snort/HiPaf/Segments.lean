import Snort.Lib.Framer
import Snort.HiPaf.Scan

/-!
# `hi_paf` on a segmented stream

* `firstFlush`: the calls of `hi_paf` on the segments of a stream, up to the first flush point.
* `hiVerdict`: `hi_paf` as a callback that gives verdicts on lists of bytes, and `hiVerdict_lawful`.
* `run_byteStep_err`: no point is selected once an error is flagged.
* **`firstFlush_of_run`**: the first flush point is found byte by byte, whatever the segments are.
-/

namespace Snort.HiPaf

open Scanner Framer

/-! ### Segments -/

/-- The verdict of a scan that stops behind `n` bytes, if no error is flagged and the offset is within
reach. -/
def verdictOf (r : PafStatus × HiState × BitVec 32) (n : ℕ) : Verdict HiState :=
  let (paf, s, fp) := r
  if s.flags.err = true ∨ 2 ^ 31 ≤ fp.toNat then .abort
  else
    match paf with
    | .skip => .skip s (fp.toNat + n)
    | .flush => .flush s (fp.toNat + n)
    | _ => .abort

/-- `hi_paf` as a callback. -/
def hiVerdict (s : HiState) (x : List Byte) : Verdict HiState :=
  match run scanByte s x with
  | .more s' => .search s'
  | .stop r n => verdictOf r n

theorem hiVerdict_more {s s' : HiState} {x : List Byte} (h : run scanByte s x = .more s') :
    hiVerdict s x = .search s' := by
  rw [hiVerdict, h]

theorem hiVerdict_stop {s : HiState} {r : PafStatus × HiState × BitVec 32} {n : ℕ} {x : List Byte}
    (h : run scanByte s x = .stop r n) : hiVerdict s x = verdictOf r n := by
  rw [hiVerdict, h]

theorem verdictOf_shift (r : PafStatus × HiState × BitVec 32) (n k : ℕ) :
    (verdictOf r n).shift k = verdictOf r (n + k) := by
  obtain ⟨paf, s, fp⟩ := r
  unfold verdictOf
  dsimp only
  split_ifs
  · rfl
  · cases paf <;> simp only [Verdict.shift, Nat.add_assoc]

/-- `hi_paf` scans from left to right. -/
theorem hiVerdict_lawful (bound : ℕ) : Lawful hiVerdict bound where
  append s a b _ _ _ := by
    cases h : run scanByte s a with
    | more s' =>
      have happend := run_append_more b h
      rw [hiVerdict_more h]
      show _ = (hiVerdict s' b).shift a.length
      cases h' : run scanByte s' b with
      | more t =>
        rw [h'] at happend
        rw [hiVerdict_more h', hiVerdict_more happend]
        rfl
      | stop r n =>
        rw [h'] at happend
        rw [hiVerdict_stop h', hiVerdict_stop happend, verdictOf_shift]
    | stop r n =>
      rw [hiVerdict_stop h, hiVerdict_stop (run_append_stop b h)]
      obtain ⟨paf, t, fp⟩ := r
      unfold verdictOf
      dsimp only
      split_ifs
      · rfl
      · cases paf <;> rfl
  pos s a _ _ := by
    cases h : run scanByte s a with
    | more s' => rw [hiVerdict_more h]; trivial
    | stop r n =>
      have hn := (length_of_stop h).1
      rw [hiVerdict_stop h]
      obtain ⟨paf, t, fp⟩ := r
      unfold verdictOf
      dsimp only
      split_ifs
      · trivial
      · cases paf with
        | skip => exact Nat.le_add_left_of_le hn
        | flush => exact Nat.le_add_left_of_le hn
        | _ => trivial

/-- A stream of bytes is framed byte by byte. -/
abbrev byteStep : Mode HiState → Byte → Mode HiState ⊕ Mode HiState := step (single hiVerdict)

theorem run_byteStep_more {s s' : HiState} {x : List Byte} (h : run scanByte s x = .more s') :
    run byteStep (.search s) x = .more (.search s') := by
  cases x with
  | nil => cases h; rfl
  | cons c x =>
    exact (run_of_verdict (hiVerdict_lawful _) s (List.cons_ne_nil c x) (Nat.lt_succ_self _)).1 s'
      (hiVerdict_more h)

theorem run_byteStep_stop {s : HiState} {r : PafStatus × HiState × BitVec 32} {n : ℕ}
    {x : List Byte} (h : run scanByte s x = .stop r n) :
    run byteStep (.search s) x = run byteStep (verdictOf r n).mode x := by
  cases x with
  | nil => cases h
  | cons c x =>
    rw [← hiVerdict_stop h]
    refine (run_of_verdict (hiVerdict_lawful _) s (List.cons_ne_nil c x) (Nat.lt_succ_self _)).2 ?_
    intro s' hs'
    rw [hiVerdict_stop h] at hs'
    obtain ⟨paf, t, fp⟩ := r
    unfold verdictOf at hs'
    dsimp only at hs'
    split_ifs at hs'
    cases paf <;> cases hs'

/-! ### Flags that stay -/

/-- What stays flagged up to the end of a message. -/
structure Grows (f g : HiFlags) : Prop where
  err : f.err = true → g.err = true
  nob : f.nob = true → g.nob = true
  req : f.req = true → g.req = true

theorem Grows.refl (f : HiFlags) : Grows f f := ⟨id, id, id⟩

theorem Grows.trans {f g h : HiFlags} (hfg : Grows f g) (hgh : Grows g h) : Grows f h :=
  ⟨fun hf => hgh.err (hfg.err hf), fun hf => hgh.nob (hfg.nob hf), fun hf => hgh.req (hfg.req hf)⟩

theorem hiExec_grows (s : HiState) (a : Action) (c : Byte) :
    Grows s.flags (hiExec s a c).2.flags := by
  cases a with
  | shi =>
    unfold hiExec
    dsimp only
    split_ifs
    · exact Grows.refl _
    · exact Grows.refl _
    · exact ⟨fun _ => rfl, id, id⟩
  | shx =>
    unfold hiExec
    dsimp only
    split_ifs
    · exact Grows.refl _
    · exact Grows.refl _
    · exact ⟨fun _ => rfl, id, id⟩
  | lnc =>
    unfold hiExec
    dsimp only
    split_ifs
    · exact ⟨id, id, id⟩
    · exact ⟨id, id, id⟩
  | v09 => exact ⟨fun _ => rfl, id, id⟩
  | nob => exact ⟨id, fun _ => rfl, id⟩
  | req => exact ⟨id, id, fun _ => rfl⟩
  | _ => exact ⟨id, id, id⟩

theorem hiScanFsm_grows (s : HiState) (c : Byte) : Grows s.flags (hiScanFsm s c).2.flags :=
  hiExec_grows { s with fsm := (findRow (fold c) 4 s.fsm).matched } _ _

theorem hiEoh_grows (s : HiState) : Grows s.flags (hiEoh s).2.flags := by
  have hif : ∀ t : HiState, Grows t.flags (if t.flags.err = true ∨ t.flags.nob = true ∧
      t.flags.rsp = true then (PafStatus.flush, (hiExec t .ln0 0).2)
      else if t.flags.chk = true then (.search, (hiExec t .ck0 0).2)
      else if t.flags.req = true ∨ t.flags.len = true then (.flush, t)
      else if t.flags.v11 = true ∧ t.flags.rsp = true then (.flush, (hiExec t .ln0 0).2)
      else (.abort, t)).2.flags := fun t => by
    split_ifs
    · exact hiExec_grows t .ln0 0
    · exact hiExec_grows t .ck0 0
    · exact Grows.refl _
    · exact hiExec_grows t .ln0 0
    · exact Grows.refl _
  refine Grows.trans ?_ (hif _)
  split_ifs
  · exact ⟨fun _ => rfl, id, id⟩
  · exact Grows.refl _

theorem scanLineFeed_grows (s : HiState) : Grows s.flags (scanLineFeed s).2.flags := by
  unfold scanLineFeed
  split_ifs
  · have hscan := hiScanFsm_grows { s with flags := { s.flags with eol := true } } eol
    have heol : Grows s.flags { s.flags with eol := true } := ⟨id, id, id⟩
    dsimp only
    split_ifs
    · exact (heol.trans hscan).trans (hiEoh_grows _)
    · exact heol.trans hscan
  · exact hiScanFsm_grows s eol
  · exact Grows.refl _

theorem scanBehindLine_grows (s : HiState) (c : Byte) :
    Grows s.flags (scanBehindLine s c).2.flags := by
  unfold scanBehindLine
  have heol := hiScanFsm_grows s eol
  dsimp only
  split_ifs
  · exact heol.trans (hiEoh_grows _)
  · exact hiScanFsm_grows s lws
  · exact heol.trans (hiScanFsm_grows _ c)
  · exact heol

theorem scanSwitch_grows (s : HiState) (c : Byte) : Grows s.flags (scanSwitch s c).2.flags := by
  unfold scanSwitch
  split
  · split_ifs
    · exact scanLineFeed_grows s
    · exact hiScanFsm_grows s c
  · exact scanBehindLine_grows s c
  · split_ifs
    · exact hiEoh_grows s
    · exact Grows.refl _
  · split_ifs
    · exact Grows.refl _
    · exact Grows.refl _
  · exact Grows.refl _

theorem scanByte_grows (s : HiState) (c : Byte) :
    (∀ s', scanByte s c = .inl s' → Grows s.flags s'.flags) ∧
      ∀ r, scanByte s c = .inr r → Grows s.flags r.2.1.flags := by
  have hmsg : Grows s.flags (hiScanMsg s c 0).2.1.flags := by
    unfold hiScanMsg
    split_ifs
    · exact Grows.refl _
    · exact scanSwitch_grows s c
  unfold scanByte
  dsimp only
  split_ifs
  · exact ⟨fun s' hs' => by rw [← Sum.inl.inj hs']; exact hmsg, fun r hr => nomatch hr⟩
  · exact ⟨fun s' hs' => (nomatch hs'), fun r hr => by rw [← Sum.inr.inj hr]; exact hmsg⟩

/-- What stays flagged up to the next point. -/
theorem run_byteStep_grows {s t : HiState} {a n : ℕ} {x : List Byte}
    (h : run byteStep (.skip s a) x = .stop (.search t) n) : Grows s.flags t.flags := by
  have hstart : (Mode.skip s a).Holds fun u : HiState => Grows s.flags u.flags := Grows.refl _
  refine (run_holds (fun u c hu => ?_) x hstart).2 _ n h
  show (hiVerdict u [c]).mode.Holds _
  cases hbyte : scanByte u c with
  | inl u' =>
    have hrun : run scanByte u [c] = .more u' := run_cons_inl [] hbyte
    rw [hiVerdict_more hrun]
    exact hu.trans ((scanByte_grows u c).1 u' hbyte)
  | inr r =>
    have hrun : run scanByte u [c] = .stop r 1 := run_cons_inr [] hbyte
    have hr := hu.trans ((scanByte_grows u c).2 r hbyte)
    obtain ⟨paf, t, fp⟩ := r
    rw [hiVerdict_stop hrun]
    unfold verdictOf
    dsimp only
    split_ifs
    · trivial
    · cases paf with
      | skip => exact hr
      | flush => exact hr
      | _ => trivial

/-- No point is selected once an error is flagged. -/
theorem run_byteStep_err {s : HiState} (x : List Byte) (h : s.flags.err = true) :
    ∃ m, run byteStep (.search s) x = .more m := by
  obtain ⟨hmore, hstop⟩ := run_invariant (P := fun s : HiState => s.flags.err = true)
    (Q := fun r : PafStatus × HiState × BitVec 32 => r.2.1.flags.err = true)
    (fun s c s' hs hs' => ((scanByte_grows s c).1 s' hs').err hs)
    (fun s c r hs hr => ((scanByte_grows s c).2 r hr).err hs) x h
  cases hrun : run scanByte s x with
  | more s' => exact ⟨_, run_byteStep_more hrun⟩
  | stop r n =>
    have hverdict : verdictOf r n = .abort := if_pos (Or.inl (hstop r n hrun))
    exact ⟨.done, by rw [run_byteStep_stop hrun, hverdict]; exact run_done x⟩

/-- A scan that has stopped and selects a point. -/
theorem verdictOf_stop {paf : PafStatus} {s : HiState} {fp : BitVec 32} {k n : ℕ} {m : Mode HiState}
    {x : List Byte} (hk : 1 ≤ k) (h : run byteStep (verdictOf (paf, s, fp) k).mode x = .stop m n) :
    s.flags.err = false ∧ fp.toNat < 2 ^ 31 ∧
      (paf = .skip ∧ run byteStep (.skip s (fp.toNat + k)) x = .stop m n ∨
        paf = .flush ∧ n = fp.toNat + k ∧ m = .search s) := by
  have habort : run byteStep (Verdict.mode .abort) x ≠ .stop m n := fun h' => by
    rw [show run byteStep (Verdict.mode .abort) x = _ from run_done x] at h'
    cases h'
  unfold verdictOf at h
  dsimp only at h
  split_ifs at h with hno
  · exact absurd h habort
  · obtain ⟨herr, hfp⟩ := not_or.1 hno
    refine ⟨Bool.eq_false_of_not_eq_true herr, Nat.lt_of_not_le hfp, ?_⟩
    cases paf with
    | skip => exact Or.inl ⟨rfl, h⟩
    | flush =>
      obtain ⟨hm, hn⟩ := run_flush_eq (Nat.le_add_left_of_le hk) h
      exact Or.inr ⟨rfl, hn, hm⟩
    | _ => exact absurd h habort

end Snort.HiPaf
