import Mathlib.Tactic

/-!
# Connectionless reassembly

* `listFind`, `listInsert`: the sorted list of fragments;
* `clHandleFrag`, `clFragReassemble`: a fragment for an activity tracker, and the stub of all of them;
* `clRequest`, `clReject`: what the client and the server send.

Requests have passed the header checks, and defragmentation is on; allocations do not fail.

* `receive`, `clLog`: the first-received fragments for the sequence number of a tracker;
* `Held`: the fragments of a tracker are these, sorted;
* `Good`: a stub is the data of the fragments up to the one marked last;
* **`goodAlong_iff`**: all stubs are good exactly as long as no fragment has a number above the last one, and they
  fit into a packet.
-/

namespace Snort.Dce2

/-- What a request says: `DceRpcClHdr` with the data behind it. -/
structure ClPdu where
  seqNum : ℕ
  fragNum : ℕ
  fragNum_lt : fragNum < 2 ^ 16
  len : ℕ
  fragFlag : Bool
  lastFrag : Bool
  data : List UInt8
  deriving DecidableEq

/-- `DceRpcClFrag`: a first fragment that is the last one is no fragment. -/
def ClPdu.clFrag (r : ClPdu) : Bool := r.fragFlag && !(r.lastFrag && r.fragNum = 0)

/-- The data of a fragment, without authentication data behind it. -/
def ClPdu.fragData (r : ClPdu) : List UInt8 := r.data.take r.len

/-- `DCE2_ClFragNode`. -/
structure ClFragNode where
  fragNumber : ℕ
  fragData : List UInt8
  deriving DecidableEq

/-! ### The list of fragments -/

/-- `DCE2_ListFind` for a sorted list. -/
def listFind (key : ℕ) : List ClFragNode → Option ClFragNode
  | [] => none
  | n :: l =>
    if key = n.fragNumber then some n else if key < n.fragNumber then none else listFind key l

/-- `DCE2_ListInsert` for a sorted list without duplicates, which is not changed by one. -/
def listInsert (node : ClFragNode) : List ClFragNode → Option (List ClFragNode)
  | [] => some [node]
  | n :: l =>
    if node.fragNumber = n.fragNumber then none
    else if node.fragNumber < n.fragNumber then some (node :: n :: l)
    else (listInsert node l).map (n :: ·)

/-! ### Reassembly -/

/-- `IP_MAXPKT`: the size of the reassembly buffer, and of the payload of a packet. -/
def ipMaxpkt : ℕ := 65535

/-- `DCE2_MOCK_HDR_LEN__CL`: `sizeof(DceRpcClHdr)`. -/
def mockHdrLenCl : ℕ := 80

/-- The fragments as far as they fit into `rlen` bytes. -/
def copyFrags : (rlen : ℕ) → List ClFragNode → List UInt8
  | _, [] => []
  | rlen, n :: l =>
    if rlen < n.fragData.length then [] else n.fragData ++ copyFrags (rlen - n.fragData.length) l

/-- `DCE2_GetRpkt`: the stub behind the header in the reassembly packet. -/
def getRpkt (data : List UInt8) : List UInt8 :=
  if ipMaxpkt < data.length + mockHdrLenCl then data.take (ipMaxpkt - mockHdrLenCl) else data

/-- `DCE2_ClFragReassemble`: the stub data that is passed on. -/
def clFragReassemble (frags : List ClFragNode) : List UInt8 := getRpkt (copyFrags ipMaxpkt frags)

/-! ### The activity tracker -/

/-- `DCE2_SENTINEL`. -/
def sentinel : ℤ := -1

/-- `DCE2_ClActTracker` with its `DCE2_ClFragTracker`; no list of fragments is an empty one. -/
structure ClActTracker where
  seqNum : ℕ
  seqNumInvalid : Bool
  frags : List ClFragNode
  numExpectedFrags : ℤ
  deriving DecidableEq

/-- A tracker as it is allocated: all fields are zero. -/
def newTracker : ClActTracker := ⟨0, false, [], 0⟩

/-- `DCE2_ClResetFragTracker`. -/
def clResetFragTracker (act : ClActTracker) : ClActTracker :=
  { act with frags := [], numExpectedFrags := sentinel }

/-- `num_expected_frags` behind a fragment. -/
def expectedFrags (act : ClActTracker) (r : ClPdu) : ℤ :=
  if r.lastFrag then (r.fragNum : ℤ) + 1 else act.numExpectedFrags

/-- `DCE2_ClHandleFrag`, with the stub data when it reassembles. -/
def clHandleFrag (act : ClActTracker) (r : ClPdu) : ClActTracker × Option (List UInt8) :=
  if r.fragData = [] then (act, none)
  else if (listFind r.fragNum act.frags).isSome then (act, none)
  else
    let expected := expectedFrags act r
    match listInsert ⟨r.fragNum, r.fragData⟩ act.frags with
    | none => ({ act with numExpectedFrags := expected }, some (clFragReassemble act.frags))
    | some frags =>
      if expected ≠ sentinel ∧ (frags.length : ℤ) % 2 ^ 16 = expected % 2 ^ 16 then
        ({ act with seqNumInvalid := true, frags := frags, numExpectedFrags := expected },
          some (clFragReassemble frags))
      else ({ act with frags := frags, numExpectedFrags := expected }, none)

/-- `DCE2_CL__MAX_SEQ_NUM`. -/
def clMaxSeqNum : ℕ := 2 ^ 32 - 1

/-- The tracker in front of a request with a higher sequence number is reset. -/
def clSeqNum (act : ClActTracker) (r : ClPdu) : ClActTracker :=
  if act.seqNum < r.seqNum then
    clResetFragTracker { act with seqNum := r.seqNum, seqNumInvalid := false }
  else act

/-- A request whose sequence number is over. -/
def ClActTracker.over (act : ClActTracker) (r : ClPdu) : Prop :=
  r.seqNum < act.seqNum ∨ (act.seqNum = r.seqNum ∧ act.seqNumInvalid = true)

instance (act : ClActTracker) (r : ClPdu) : Decidable (act.over r) :=
  inferInstanceAs (Decidable (_ ∨ _))

/-- `DCE2_ClRequest`. -/
def clRequest (act : ClActTracker) (r : ClPdu) : ClActTracker × Option (List UInt8) :=
  if act.over r then (act, none)
  else
    let act := clSeqNum act r
    if r.clFrag then clHandleFrag act r
    else if act.frags ≠ [] then (clResetFragTracker act, none)
    else if r.seqNum ≠ clMaxSeqNum then ({ act with seqNumInvalid := true }, none)
    else (act, none)

/-- A reject of the server, in `DCE2_ClProcess`. -/
def clReject (act : ClActTracker) (seqNum : ℕ) : ClActTracker :=
  if seqNum = act.seqNum then { clResetFragTracker act with seqNumInvalid := true } else act

/-- What reaches an activity tracker. -/
inductive ClEvent
  | request (r : ClPdu)
  | reject (seqNum : ℕ)

def clStep (act : ClActTracker) : ClEvent → ClActTracker × Option (List UInt8)
  | .request r => clRequest act r
  | .reject seqNum => (clReject act seqNum, none)

/-- The tracker behind events. -/
def clRun (es : List ClEvent) : ClActTracker := es.foldl (fun act e => (clStep act e).1) newTracker

/-! ## What connectionless reassembly passes on -/

/-! ### Sorted lists -/

section Sorted

variable {node : ClFragNode} {l l' : List ClFragNode} {key : ℕ}

/-- The fragment numbers ascend. -/
def Ascending (l : List ClFragNode) : Prop := l.Pairwise fun a b => a.fragNumber < b.fragNumber

theorem listFind_isSome_iff (h : Ascending l) :
    (listFind key l).isSome ↔ ∃ n ∈ l, n.fragNumber = key := by
  induction l with
  | nil => simp [listFind]
  | cons n l ih =>
    obtain ⟨hn, hl⟩ := List.pairwise_cons.1 h
    unfold listFind
    by_cases heq : key = n.fragNumber
    · rw [if_pos heq]
      exact iff_of_true rfl ⟨n, List.mem_cons_self, heq.symm⟩
    rw [if_neg heq]
    by_cases hlt : key < n.fragNumber
    · rw [if_pos hlt]
      refine iff_of_false Bool.noConfusion ?_
      rintro ⟨m, hm, rfl⟩
      rcases List.mem_cons.1 hm with rfl | hm
      · exact heq rfl
      · exact absurd (hn m hm) (by omega)
    · rw [if_neg hlt, ih hl]
      constructor
      · rintro ⟨m, hm, hkey⟩
        exact ⟨m, List.mem_cons_of_mem _ hm, hkey⟩
      · rintro ⟨m, hm, hkey⟩
        rcases List.mem_cons.1 hm with rfl | hm
        · exact absurd hkey.symm heq
        · exact ⟨m, hm, hkey⟩

/-- A new fragment is inserted. -/
theorem listInsert_new (h : Ascending l) (hnew : ∀ n ∈ l, n.fragNumber ≠ node.fragNumber) :
    ∃ l', listInsert node l = some l' ∧ l'.Perm (node :: l) ∧ Ascending l' := by
  induction l with
  | nil => exact ⟨[node], rfl, List.Perm.refl _, List.pairwise_singleton _ _⟩
  | cons n l ih =>
    obtain ⟨hn, hl⟩ := List.pairwise_cons.1 h
    unfold listInsert
    rw [if_neg fun heq => hnew n List.mem_cons_self heq.symm]
    by_cases hlt : node.fragNumber < n.fragNumber
    · rw [if_pos hlt]
      refine ⟨_, rfl, List.Perm.refl _, List.pairwise_cons.2 ⟨fun m hm => ?_, h⟩⟩
      rcases List.mem_cons.1 hm with rfl | hm
      · exact hlt
      · exact hlt.trans (hn m hm)
    · obtain ⟨l', hl', hperm, hsorted⟩ := ih hl fun m hm => hnew m (List.mem_cons_of_mem _ hm)
      have hne := hnew n List.mem_cons_self
      rw [if_neg hlt, hl']
      refine ⟨_, rfl, (hperm.cons n).trans (List.Perm.swap _ _ _), List.pairwise_cons.2 ⟨fun m hm => ?_, hsorted⟩⟩
      rcases List.mem_cons.1 (hperm.mem_iff.1 hm) with rfl | hm
      · omega
      · exact hn m hm

end Sorted

/-! ### Ranges -/

/-- Ascending numbers below their count are all of them. -/
theorem eq_range_of_lt {l : List ℕ} (h : l.Pairwise (· < ·)) (hlt : ∀ x ∈ l, x < l.length) :
    l = List.range l.length := by
  have hsub : l ⊆ List.range l.length := fun x hx => List.mem_range.2 (hlt x hx)
  have hnodup : l.Nodup := h.imp Nat.ne_of_lt
  have hperm := (List.subperm_of_subset hnodup hsub).perm_of_length_le (by rw [List.length_range])
  exact hperm.eq_of_pairwise (fun _ _ _ _ h1 h2 => absurd h1 (Nat.lt_asymm h2)) h List.pairwise_lt_range

/-- Ascending numbers that include all below their count are these. -/
theorem eq_range_of_subset {l : List ℕ} (h : l.Pairwise (· < ·)) (hsub : List.range l.length ⊆ l) :
    l = List.range l.length := by
  have hperm := (List.subperm_of_subset List.nodup_range hsub).perm_of_length_le (by rw [List.length_range])
  exact (hperm.eq_of_pairwise (fun _ _ _ _ h1 h2 => absurd h1 (Nat.lt_asymm h2)) List.pairwise_lt_range h).symm

/-! ### The stub -/

/-- The bytes of all fragments. -/
def total (frags : List ClFragNode) : ℕ := (frags.map fun n => n.fragData.length).sum

theorem length_flatMap_fragData (frags : List ClFragNode) :
    (frags.flatMap ClFragNode.fragData).length = total frags := List.length_flatMap

theorem copyFrags_eq {rlen : ℕ} {frags : List ClFragNode} (h : total frags ≤ rlen) :
    copyFrags rlen frags = frags.flatMap ClFragNode.fragData := by
  induction frags generalizing rlen with
  | nil => rfl
  | cons n l ih =>
    rw [total, List.map_cons, List.sum_cons] at h
    have hl : total l ≤ rlen - n.fragData.length := by
      unfold total
      omega
    unfold copyFrags
    rw [if_neg (by omega), ih hl, List.flatMap_cons]

/-- Fragments that fit into a packet are passed on. -/
theorem clFragReassemble_eq {frags : List ClFragNode} (h : total frags ≤ ipMaxpkt - mockHdrLenCl) :
    clFragReassemble frags = frags.flatMap ClFragNode.fragData := by
  unfold ipMaxpkt mockHdrLenCl at h
  unfold clFragReassemble getRpkt
  rw [copyFrags_eq (by unfold ipMaxpkt; omega), length_flatMap_fragData, if_neg]
  unfold ipMaxpkt mockHdrLenCl
  omega

theorem length_clFragReassemble (frags : List ClFragNode) :
    (clFragReassemble frags).length ≤ ipMaxpkt - mockHdrLenCl := by
  unfold clFragReassemble getRpkt
  split
  · exact List.length_take_le _ _
  · omega

/-! ### First-received fragments -/

def ClPdu.node (r : ClPdu) : ClFragNode := ⟨r.fragNum, r.fragData⟩

/-- A fragment without data, or with the number of an earlier one, is not received. -/
def receive (log : List ClPdu) (r : ClPdu) : List ClPdu :=
  if r.fragData = [] ∨ ∃ x ∈ log, x.fragNum = r.fragNum then log else log ++ [r]

/-- The first-received fragments for the sequence number of a tracker: a new sequence number, a whole request and a
reject make an end of them. -/
def logStep (act : ClActTracker) (log : List ClPdu) : ClEvent → List ClPdu
  | .request r =>
    if act.over r then log
    else if r.clFrag then receive (if act.seqNum < r.seqNum then [] else log) r
    else []
  | .reject seqNum => if seqNum = act.seqNum then [] else log

/-- The fragment that was marked last, the latest of several. -/
def lastMarked (log : List ClPdu) : Option ClPdu := (log.filter ClPdu.lastFrag).getLast?

/-- The data of the fragment with a number. -/
def dataOf (log : List ClPdu) (n : ℕ) : List UInt8 :=
  ((log.find? fun x => x.fragNum = n).map ClPdu.fragData).getD []

/-- A stub is the data of all fragments up to the one marked last, and nothing else. -/
def Good (log : List ClPdu) (stub : List UInt8) : Prop :=
  ∃ r ∈ lastMarked log, (∀ n ≤ r.fragNum, ∃ x ∈ log, x.fragNum = n) ∧
    stub = (List.range (r.fragNum + 1)).flatMap (dataOf log)

/-- `num_expected_frags` is that of the fragment marked last. -/
def Expected (log : List ClPdu) (expected : ℤ) : Prop :=
  (∀ r ∈ lastMarked log, expected = r.fragNum + 1) ∧ (lastMarked log = none → expected = sentinel ∨ expected = 0)

/-- The fragments of a tracker are the received ones. -/
structure Held (act : ClActTracker) (log : List ClPdu) : Prop where
  perm : act.frags.Perm (log.map ClPdu.node)
  ascending : Ascending act.frags
  expected : Expected log act.numExpectedFrags

variable {act : ClActTracker} {log : List ClPdu} {frags : List ClFragNode} {expected : ℤ} {r : ClPdu}

theorem Ascending.numbers (h : Ascending frags) : (frags.map ClFragNode.fragNumber).Pairwise (· < ·) :=
  List.pairwise_map.2 h

theorem numbers_perm (h : frags.Perm (log.map ClPdu.node)) :
    (frags.map ClFragNode.fragNumber).Perm (log.map ClPdu.fragNum) := by
  have hmap := h.map ClFragNode.fragNumber
  rwa [List.map_map] at hmap

theorem exists_received_iff (h : frags.Perm (log.map ClPdu.node)) (n : ℕ) :
    (∃ x ∈ log, x.fragNum = n) ↔ n ∈ frags.map ClFragNode.fragNumber := by
  rw [(numbers_perm h).mem_iff, List.mem_map]

theorem dataOf_eq (h : (log.map ClPdu.fragNum).Nodup) {x : ClPdu} (hx : x ∈ log) :
    dataOf log x.fragNum = x.fragData := by
  unfold dataOf
  induction log with
  | nil => simp at hx
  | cons y log ih =>
    obtain ⟨hy, hlog⟩ := List.nodup_cons.1 h
    rcases List.mem_cons.1 hx with rfl | hx
    · rw [List.find?_cons_of_pos (by simp)]
      rfl
    · have hne : ¬y.fragNum = x.fragNum := fun heq => hy (heq ▸ List.mem_map_of_mem hx)
      rw [List.find?_cons_of_neg (by simpa using hne)]
      exact ih hlog hx

/-- The data of fragments by their numbers. -/
theorem flatMap_dataOf (hperm : frags.Perm (log.map ClPdu.node)) (hasc : Ascending frags) :
    (frags.map ClFragNode.fragNumber).flatMap (dataOf log) = frags.flatMap ClFragNode.fragData := by
  have hnodup : (log.map ClPdu.fragNum).Nodup :=
    (numbers_perm hperm).nodup_iff.1 (hasc.numbers.imp Nat.ne_of_lt)
  rw [List.flatMap_map]
  apply List.flatMap_congr
  intro n hn
  obtain ⟨x, hx, rfl⟩ := List.mem_map.1 (hperm.mem_iff.1 hn)
  exact dataOf_eq hnodup hx

/-- A tracker that has as many fragments as it expects. -/
theorem good_iff (hperm : frags.Perm (log.map ClPdu.node)) (hasc : Ascending frags) (hexp : Expected log expected)
    (hne : frags ≠ []) (hsentinel : expected ≠ sentinel)
    (hcount : (frags.length : ℤ) % 2 ^ 16 = expected % 2 ^ 16) :
    Good log (clFragReassemble frags) ↔
      (∀ n ∈ frags, (n.fragNumber : ℤ) < expected) ∧ total frags ≤ ipMaxpkt - mockHdrLenCl := by
  have hpos : 0 < frags.length := List.length_pos_iff.2 hne
  have hlt : ∀ n ∈ frags, n.fragNumber < 2 ^ 16 := by
    intro n hn
    obtain ⟨x, hx, rfl⟩ := List.mem_map.1 (hperm.mem_iff.1 hn)
    exact x.fragNum_lt
  -- there are not more fragments than numbers
  have hlength : frags.length ≤ 2 ^ 16 := by
    have hsub : frags.map ClFragNode.fragNumber ⊆ List.range (2 ^ 16) := by
      intro k hk
      obtain ⟨n, hn, rfl⟩ := List.mem_map.1 hk
      exact List.mem_range.2 (hlt n hn)
    have hle := (List.subperm_of_subset (hasc.numbers.imp Nat.ne_of_lt) hsub).length_le
    rwa [List.length_map, List.length_range] at hle
  have hnumbers : frags.length = (frags.map ClFragNode.fragNumber).length := (List.length_map _).symm
  have hdata := flatMap_dataOf hperm hasc
  constructor
  · rintro ⟨r, hr, hall, hstub⟩
    have hlast := hexp.1 r hr
    have hr16 := r.fragNum_lt
    have heq : frags.length = r.fragNum + 1 := by omega
    have hrange : frags.map ClFragNode.fragNumber = List.range (r.fragNum + 1) := by
      rw [← heq, hnumbers]
      apply eq_range_of_subset hasc.numbers
      intro n hn
      rw [← hnumbers, heq, List.mem_range] at hn
      exact (exists_received_iff hperm n).1 (hall n (by omega))
    refine ⟨fun n hn => ?_, ?_⟩
    · have hmem : n.fragNumber ∈ List.range (r.fragNum + 1) := hrange ▸ List.mem_map_of_mem hn
      rw [List.mem_range] at hmem
      omega
    · rw [← length_flatMap_fragData, ← hdata, hrange, ← hstub]
      exact length_clFragReassemble frags
  · rintro ⟨hbelow, htotal⟩
    obtain ⟨n, hn⟩ := List.exists_mem_of_ne_nil _ hne
    have hn' := hbelow n hn
    cases hr : lastMarked log with
    | none =>
      rcases hexp.2 hr with h | h
      · exact absurd h hsentinel
      · omega
    | some r =>
      have hlast := hexp.1 r hr
      have hr16 := r.fragNum_lt
      have heq : frags.length = r.fragNum + 1 := by omega
      have hrange : frags.map ClFragNode.fragNumber = List.range (r.fragNum + 1) := by
        rw [← heq, hnumbers]
        apply eq_range_of_lt hasc.numbers
        intro k hk
        obtain ⟨m, hm, rfl⟩ := List.mem_map.1 hk
        have hm' := hbelow m hm
        rw [← hnumbers]
        omega
      refine ⟨r, hr, fun k hk => ?_, ?_⟩
      · rw [exists_received_iff hperm, hrange, List.mem_range]
        omega
      · rw [clFragReassemble_eq htotal, ← hdata, hrange]

/-! ### Steps -/

/-- A fragment that is received. -/
def Fresh (act : ClActTracker) (r : ClPdu) : Prop :=
  r.fragData ≠ [] ∧ ∀ n ∈ act.frags, n.fragNumber ≠ r.fragNum

/-- A fragment with which the tracker has as many as it expects. -/
def Completes (act : ClActTracker) (r : ClPdu) : Prop :=
  expectedFrags act r ≠ sentinel ∧ ((act.frags.length : ℤ) + 1) % 2 ^ 16 = expectedFrags act r % 2 ^ 16

/-- Where the count of the fragments is the number of the last one and one more, no fragment has a higher number, and
they fit into a packet. -/
def ClSound (act : ClActTracker) : ClEvent → Prop
  | .request r => ¬act.over r → r.clFrag = true → Fresh (clSeqNum act r) r → Completes (clSeqNum act r) r →
      (∀ n ∈ r.node :: (clSeqNum act r).frags, (n.fragNumber : ℤ) < expectedFrags (clSeqNum act r) r) ∧
        total (r.node :: (clSeqNum act r).frags) ≤ ipMaxpkt - mockHdrLenCl
  | .reject _ => True

theorem lastMarked_concat : lastMarked (log ++ [r]) = if r.lastFrag then some r else lastMarked log := by
  unfold lastMarked
  rw [List.filter_append]
  by_cases h : r.lastFrag
  · rw [if_pos h, List.filter_cons_of_pos h, List.filter_nil, List.getLast?_concat]
  · rw [if_neg h, List.filter_cons_of_neg h, List.filter_nil, List.append_nil]

/-- A fragment that is not received. -/
theorem clHandleFrag_old (h : Held act log) (hr : ¬Fresh act r) :
    clHandleFrag act r = (act, none) ∧ receive log r = log := by
  unfold clHandleFrag receive
  by_cases hdata : r.fragData = []
  · rw [if_pos hdata, if_pos (.inl hdata)]
    exact ⟨rfl, rfl⟩
  · have hdup : ∃ n ∈ act.frags, n.fragNumber = r.fragNum := by
      by_contra hno
      exact hr ⟨hdata, fun n hn heq => hno ⟨n, hn, heq⟩⟩
    rw [if_neg hdata, if_pos ((listFind_isSome_iff h.ascending).2 hdup), if_pos]
    · exact ⟨rfl, rfl⟩
    · rw [exists_received_iff h.perm, List.mem_map]
      exact .inr hdup

/-- A fragment that is received. -/
theorem clHandleFrag_new (h : Held act log) (hr : Fresh act r) :
    Held (clHandleFrag act r).1 (receive log r) ∧
      ((∀ stub ∈ (clHandleFrag act r).2, Good (receive log r) stub) ↔
        (Completes act r → (∀ n ∈ r.node :: act.frags, (n.fragNumber : ℤ) < expectedFrags act r) ∧
          total (r.node :: act.frags) ≤ ipMaxpkt - mockHdrLenCl)) := by
  obtain ⟨hdata, hnew⟩ := hr
  obtain ⟨frags, hinsert, hperm, hasc⟩ := @listInsert_new r.node act.frags h.ascending hnew
  have hfind : ¬(listFind r.fragNum act.frags).isSome = true := by
    rw [listFind_isSome_iff h.ascending]
    rintro ⟨n, hn, heq⟩
    exact hnew n hn heq
  have hreceive : receive log r = log ++ [r] := by
    unfold receive
    rw [if_neg]
    rintro (h' | h')
    · exact hdata h'
    · rw [exists_received_iff h.perm, List.mem_map] at h'
      obtain ⟨n, hn, heq⟩ := h'
      exact hnew n hn heq
  have hperm' : frags.Perm ((log ++ [r]).map ClPdu.node) := by
    rw [List.map_append]
    exact hperm.trans ((h.perm.cons _).trans (List.perm_append_singleton _ _).symm)
  have hexp : Expected (log ++ [r]) (expectedFrags act r) := by
    unfold Expected expectedFrags
    rw [lastMarked_concat]
    by_cases hlast : r.lastFrag
    · simp [hlast]
    · simp only [hlast, Bool.false_eq_true, if_false]
      exact h.expected
  have hne : frags ≠ [] := by
    rintro rfl
    exact absurd hperm.length_eq (by simp)
  have hlength : (frags.length : ℤ) = act.frags.length + 1 := by
    rw [hperm.length_eq]
    simp
  have htotal : total frags = total (r.node :: act.frags) := (hperm.map _).sum_eq
  have hinsert' : listInsert ⟨r.fragNum, r.fragData⟩ act.frags = some frags := hinsert
  unfold clHandleFrag
  rw [if_neg hdata, if_neg hfind]
  simp only [hinsert', hreceive, hlength]
  by_cases hcomplete : Completes act r
  · obtain ⟨hsentinel, hcount⟩ := hcomplete
    rw [if_pos ⟨hsentinel, hcount⟩]
    refine ⟨⟨hperm', hasc, hexp⟩, ?_⟩
    have hgood := good_iff hperm' hasc hexp hne hsentinel (by rw [hlength]; exact hcount)
    rw [htotal] at hgood
    have hcomplete : Completes act r := ⟨hsentinel, hcount⟩
    simp only [Option.mem_some_iff, forall_eq', hcomplete, true_implies, hgood, hperm.mem_iff]
  · rw [if_neg fun h' => hcomplete ⟨h'.1, h'.2⟩]
    exact ⟨⟨hperm', hasc, hexp⟩, iff_of_true (fun stub hstub => absurd hstub (by simp)) fun h' => absurd h' hcomplete⟩

theorem held_reset (seqNum : ℕ) (invalid : Bool) : Held ⟨seqNum, invalid, [], sentinel⟩ [] :=
  ⟨List.Perm.refl _, List.Pairwise.nil, fun r hr => absurd hr (by simp [lastMarked]), fun _ => .inl rfl⟩

/-- A request that is not over, with the fragments for its sequence number. -/
theorem held_clSeqNum (h : Held act log) (r : ClPdu) :
    Held (clSeqNum act r) (if act.seqNum < r.seqNum then [] else log) := by
  unfold clSeqNum
  split
  · exact held_reset _ _
  · exact h

/-- **An event keeps the fragments, and its stub is good exactly if it is sound.** -/
theorem clStep_held (h : Held act log) (e : ClEvent) :
    Held (clStep act e).1 (logStep act log e) ∧
      ((∀ stub ∈ (clStep act e).2, Good (logStep act log e) stub) ↔ ClSound act e) := by
  have hnone : ∀ {P : List UInt8 → Prop} {Q : Prop}, Q → ((∀ stub ∈ (none : Option (List UInt8)), P stub) ↔ Q) :=
    fun hQ => iff_of_true (fun stub hstub => absurd hstub (by simp)) hQ
  cases e with
  | reject seqNum =>
    unfold clStep clReject logStep ClSound
    simp only
    split
    · exact ⟨held_reset _ _, hnone trivial⟩
    · exact ⟨h, hnone trivial⟩
  | request r =>
    unfold clStep clRequest logStep ClSound
    simp only
    by_cases hover : act.over r
    · rw [if_pos hover, if_pos hover]
      exact ⟨h, hnone fun h' => absurd hover h'⟩
    have hseq := held_clSeqNum h r
    rw [if_neg hover, if_neg hover]
    by_cases hfrag : r.clFrag
    · rw [if_pos hfrag, if_pos hfrag]
      by_cases hfresh : Fresh (clSeqNum act r) r
      · obtain ⟨hheld, hgood⟩ := clHandleFrag_new hseq hfresh
        exact ⟨hheld, hgood.trans ⟨fun h' _ _ _ => h', fun h' => h' hover hfrag hfresh⟩⟩
      · obtain ⟨hsame, hlog⟩ := clHandleFrag_old hseq hfresh
        rw [hsame, hlog]
        exact ⟨hseq, hnone fun _ _ h' => absurd h' hfresh⟩
    · rw [if_neg hfrag, if_neg hfrag]
      have hnil : (clSeqNum act r).frags = [] →
          Held { clSeqNum act r with seqNumInvalid := true } [] ∧ Held (clSeqNum act r) [] := by
        intro hnil
        have hlog := hseq.perm
        rw [hnil, List.nil_perm, List.map_eq_nil_iff] at hlog
        rw [hlog] at hseq
        exact ⟨⟨hseq.perm, hseq.ascending, hseq.expected⟩, hseq⟩
      split_ifs with hfrags hmax
      · exact ⟨held_reset _ _, hnone fun _ h' => absurd h' hfrag⟩
      · exact ⟨(hnil (not_not.1 hfrags)).1, hnone fun _ h' => absurd h' hfrag⟩
      · exact ⟨(hnil (not_not.1 hfrags)).2, hnone fun _ h' => absurd h' hfrag⟩

/-! ### Runs -/

/-- The first-received fragments behind events. -/
def clLog (es : List ClEvent) : List ClPdu :=
  (es.foldl (fun s e => ((clStep s.1 e).1, logStep s.1 s.2 e)) (newTracker, [])).2

/-- All stubs of a run are good. -/
def GoodAlong (es : List ClEvent) : Prop :=
  ∀ pre e, pre ++ [e] <+: es → ∀ stub ∈ (clStep (clRun pre) e).2, Good (clLog (pre ++ [e])) stub

theorem clRun_eq (es : List ClEvent) :
    (es.foldl (fun s e => ((clStep s.1 e).1, logStep s.1 s.2 e)) (newTracker, ([] : List ClPdu))).1 = clRun es := by
  induction es using List.reverseRecOn with
  | nil => rfl
  | append_singleton es e ih =>
    unfold clRun
    rw [List.foldl_concat, List.foldl_concat, ih]
    rfl

theorem clLog_concat (es : List ClEvent) (e : ClEvent) :
    clLog (es ++ [e]) = logStep (clRun es) (clLog es) e := by
  unfold clLog
  rw [List.foldl_concat, clRun_eq]

theorem clRun_concat (es : List ClEvent) (e : ClEvent) : clRun (es ++ [e]) = (clStep (clRun es) e).1 := by
  unfold clRun
  rw [List.foldl_concat]

theorem clRun_held (es : List ClEvent) : Held (clRun es) (clLog es) := by
  induction es using List.reverseRecOn with
  | nil =>
    exact ⟨List.Perm.refl _, List.Pairwise.nil, fun r hr => absurd hr (by simp [lastMarked, clLog]),
      fun _ => .inr rfl⟩
  | append_singleton es e ih =>
    rw [clRun_concat, clLog_concat]
    exact (clStep_held ih e).1

/-- **Defragmentation**: in every run each stub is the data of the first-received fragments 0 up to the one marked
last, if and only if all events are sound. -/
theorem goodAlong_iff (es : List ClEvent) :
    GoodAlong es ↔ ∀ pre e, pre ++ [e] <+: es → ClSound (clRun pre) e := by
  constructor
  · intro h pre e hpre
    apply (clStep_held (clRun_held pre) e).2.1
    rw [← clLog_concat]
    exact h pre e hpre
  · intro h pre e hpre
    rw [clLog_concat]
    exact (clStep_held (clRun_held pre) e).2.2 (h pre e hpre)

/-- A fragment of a request with the sequence number 0. -/
def fragment (fragNum : Fin (2 ^ 16)) (lastFrag : Bool) : ClEvent :=
  .request ⟨0, fragNum, fragNum.isLt, 1, true, lastFrag, [UInt8.ofNat fragNum]⟩

/-- The fragments 0, 5 and 2, of which 2 is marked last, are put together, without 1. -/
theorem hole_reassembled : ¬GoodAlong [fragment 0 false, fragment 5 false, fragment 2 true] := by
  intro h
  have hstub : (clStep (clRun [fragment 0 false, fragment 5 false]) (fragment 2 true)).2 = some [0, 2, 5] := by
    decide
  have hlog : clLog [fragment 0 false, fragment 5 false, fragment 2 true] =
      [⟨0, 0, by decide, 1, true, false, [0]⟩, ⟨0, 5, by decide, 1, true, false, [5]⟩,
        ⟨0, 2, by decide, 1, true, true, [2]⟩] := by
    decide
  obtain ⟨r, hr, hall, -⟩ := h [fragment 0 false, fragment 5 false] _ (List.prefix_refl _) _ hstub
  rw [List.cons_append, List.cons_append, List.nil_append, hlog] at hr hall
  obtain rfl := Option.some.inj hr
  obtain ⟨x, hx, hnum⟩ := hall 1 (by decide)
  simp only [List.mem_cons, List.not_mem_nil, or_false] at hx
  rcases hx with rfl | rfl | rfl <;> exact absurd hnum (by decide)

end Snort.Dce2
