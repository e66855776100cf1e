import Snort.Obfuscation.Entries

/-!
# The obfuscated payload

`OB_API_GetObfuscatedPayload` gathers what the walk hands over in a block that grows when a part does not
fit, in 16 bits.

* `Filled`: what is in the block;
* **`runCalls_getObfuscatedPayload`**: a payload that leaves room for the spare bytes is gathered as it
  is handed over;
* **`obfuscatedPayload_hides`**: in every run the payload is hidden where an entry covers it, provided
  that the sorted array is not stale.
-/

namespace Snort.Obfuscation

open CInt Buffer

/-- The byte that is written. -/
def Out.byte : Out → UInt8
  | .data b => b
  | .hidden c => c

/-! ### The block -/

theorem safeMemcpy_eq {dst src : List UInt8} {off n : ℕ} (hn : 0 < n) (hle : off + n ≤ dst.length) :
    safeMemcpy dst off src n = some (dst.take off ++ src.take n ++ dst.drop (off + n)) :=
  if_neg (by omega)

/-- The bytes `out` have been gathered. -/
structure Filled (ob : ObfuscatedPayload) (out : List UInt8) : Prop where
  payloadLen : ob.payloadLen = out.length
  block : (ob.payload = none ∧ ob.payloadSize = 0 ∧ out = []) ∨
    ∃ block, ob.payload = some block ∧ block.length = ob.payloadSize ∧ out ≠ [] ∧ out <+: block

theorem filled_nil : Filled ⟨none, 0, 0⟩ [] := ⟨rfl, Or.inl ⟨rfl, rfl, rfl⟩⟩

/-- The larger block starts with what has been gathered. -/
theorem growPayload_eq {ob : ObfuscatedPayload} {out : List UInt8} (h : Filled ob out) {n : ℕ}
    (hn : out.length + n + 100 < 65536) :
    ∃ block, growPayload ob n = some ⟨some block, ob.payloadLen, out.length + n + 100⟩ ∧
      block.length = out.length + n + 100 ∧ out <+: block := by
  have hsize : u16 ((out.length : ℕ) + (n : ℕ) + 100) = out.length + n + 100 :=
    u16_of_eq (by push_cast; ring) hn
  unfold growPayload
  rcases h.block with ⟨hnone, -, rfl⟩ | ⟨block, hsome, hlen, hne, hprefix⟩
  · simp only [h.payloadLen, hnone, hsize]
    exact ⟨_, rfl, List.length_replicate, List.nil_prefix⟩
  · have hpos : 0 < out.length := List.length_pos_iff.2 hne
    have hcopy : safeMemcpy (List.replicate (out.length + n + 100) 0) 0 block out.length =
        some (out ++ List.replicate (n + 100) 0) := by
      rw [safeMemcpy_eq hpos (by rw [List.length_replicate]; omega), List.take_zero, List.nil_append,
        ← List.prefix_iff_eq_take.1 hprefix, List.drop_replicate]
      congr 3
      omega
    simp only [h.payloadLen, hsome, hsize, hcopy]
    refine ⟨_, rfl, ?_, List.prefix_append ..⟩
    rw [List.length_append, List.length_replicate]
    omega

/-- What a call writes. -/
theorem Call.Part.bytes {c : Call} (h : c.Part) :
    (c.packetData.getD (List.replicate c.length c.obChar)).take c.length = c.out.map Out.byte ∧
      (c.out.map Out.byte).length = c.length := by
  obtain ⟨pkth, packetData, n, obChar⟩ := c
  cases packetData with
  | none => simp [Call.out, Out.byte]
  | some d =>
    have hle := h.le d rfl
    have hbyte : Out.byte ∘ Out.data = id := rfl
    simp only [Call.out, Option.getD_some, List.map_map, hbyte, List.map_id, List.length_take]
    exact ⟨trivial, Nat.min_eq_left hle⟩

theorem getObfuscatedPayloadCallback_eq {ob : ObfuscatedPayload} {out : List UInt8} {c : Call}
    (h : Filled ob out) (hc : c.Part) (hn : out.length + c.length + 100 < 65536) :
    ∃ ob', getObfuscatedPayloadCallback c ob = some ob' ∧ Filled ob' (out ++ c.out.map Out.byte) := by
  obtain ⟨hbytes, hlen⟩ := hc.bytes
  have hpos := hc.pos
  -- a block with room for the part
  have hroom : ∃ block size, reservePayload ob c.length = some ⟨some block, ob.payloadLen, size⟩ ∧
      block.length = size ∧ out <+: block ∧ out.length + c.length ≤ block.length := by
    unfold reservePayload
    by_cases hgrow : ob.payloadSize < ob.payloadLen + c.length
    · obtain ⟨block, heq, hblock, hprefix⟩ := growPayload_eq h hn
      exact ⟨block, _, (if_pos hgrow).trans heq, hblock, hprefix, by omega⟩
    · rw [if_neg hgrow]
      rcases h.block with ⟨-, hzero, rfl⟩ | ⟨block, hsome, hblock, -, hprefix⟩
      · exact absurd hgrow (by rw [hzero]; omega)
      · refine ⟨block, ob.payloadSize, ?_, hblock, hprefix, by rw [hblock, ← h.payloadLen]; omega⟩
        rw [← hsome]
  obtain ⟨block, size, hroom, hblock, hprefix, hle⟩ := hroom
  have hcopy := @safeMemcpy_eq block (c.packetData.getD (List.replicate c.length c.obChar)) _ _ hpos hle
  rw [← List.prefix_iff_eq_take.1 hprefix, hbytes] at hcopy
  have hsum : u16 ((out.length : ℕ) + (c.length : ℕ)) = out.length + c.length :=
    u16_of_eq (by push_cast; ring) (by omega)
  refine ⟨⟨some (out ++ c.out.map Out.byte ++ block.drop (out.length + c.length)),
    out.length + c.length, size⟩, ?_, ?_⟩
  · simp only [getObfuscatedPayloadCallback, hroom, Option.bind_eq_bind, Option.bind_some, h.payloadLen,
      hcopy, hsum]
  · refine ⟨by rw [List.length_append, hlen], Or.inr ⟨_, rfl, ?_, ?_, List.prefix_append ..⟩⟩
    · show _ = size
      rw [List.length_append, List.length_append, hlen, List.length_drop]
      omega
    · rw [ne_eq, List.append_eq_nil_iff]
      rintro ⟨-, hnil⟩
      rw [hnil] at hlen
      exact absurd hlen (by simp; omega)

/-- A first part of more than 65435 bytes is refused: the size of the block wraps. -/
theorem getObfuscatedPayloadCallback_wraps {c : Call} (h : 65435 < c.length) (h' : c.length < 65536) :
    getObfuscatedPayloadCallback c ⟨none, 0, 0⟩ = none := by
  have hsize : u16 (((0 : ℕ) : ℤ) + (c.length : ℕ) + 100) = c.length - 65436 := by
    unfold u16
    omega
  have hcopy : safeMemcpy (List.replicate (c.length - 65436) 0) 0
      (c.packetData.getD (List.replicate c.length c.obChar)) c.length = none :=
    if_pos (Or.inr (by rw [List.length_replicate]; omega))
  unfold getObfuscatedPayloadCallback reservePayload growPayload
  rw [if_pos (by simp only; omega)]
  simp only [hsize, Option.bind_eq_bind, Option.bind_some, hcopy]
  rfl

/-- **The parts are gathered** if they leave room for the spare bytes. -/
theorem runCalls_getObfuscatedPayload {calls : List Call} (hcalls : ∀ c ∈ calls, c.Part) :
    ∀ {ob : ObfuscatedPayload} {out : List UInt8}, Filled ob out →
      out.length + (calls.flatMap Call.out).length + 100 < 65536 →
      ∃ ob', runCalls getObfuscatedPayloadCallback calls ob = some ob' ∧
        Filled ob' (out ++ (calls.flatMap Call.out).map Out.byte) := by
  induction calls with
  | nil =>
    intro ob out h _
    exact ⟨ob, rfl, by simpa using h⟩
  | cons c calls ih =>
    intro ob out h hn
    have hc := hcalls c List.mem_cons_self
    obtain ⟨-, hlen⟩ := hc.bytes
    rw [List.length_map] at hlen
    rw [List.flatMap_cons, List.length_append] at hn
    obtain ⟨ob₁, hrun, h₁⟩ := getObfuscatedPayloadCallback_eq h hc (by omega)
    obtain ⟨ob₂, hrun₂, h₂⟩ := ih (fun c hc => hcalls c (List.mem_cons_of_mem _ hc)) h₁
      (by rw [List.length_append, List.length_map]; omega)
    refine ⟨ob₂, ?_, ?_⟩
    · rw [runCalls, List.foldlM_cons, hrun]
      exact hrun₂
    · rw [List.flatMap_cons, List.map_append, ← List.append_assoc]
      exact h₂

/-! ### The payload -/

variable {P : Type*} (Q : Qsort)

theorem mem_added_of_listed {s : State P} (h : Recorded s) {e : ObfuscationEntry P}
    (he : e ∈ (sortObfuscationEntries Q s.ob).listed) : e ∈ s.added := by
  obtain ⟨i, hi, rfl⟩ := (mem_listed (h.sort Q)).1 he
  exact (h.sort Q).accepted i hi

theorem payloadObfuscationRequired_of_added {s : State P} (h : Recorded s) {p : P}
    (hadded : ∃ e ∈ s.added, e.p = p) {header payload : List UInt8} (hheader : header ≠ []) :
    payloadObfuscationRequired s.ob (s.packet p header payload) = true := by
  obtain ⟨e, he, rfl⟩ := hadded
  obtain ⟨i, hi, -⟩ := h.represented e he
  have hpos : 0 < header.length := List.length_pos_iff.2 hheader
  have hu : u16 header.length ≤ header.length := by unfold u16; omega
  unfold payloadObfuscationRequired State.packet
  simp only
  rw [if_neg (by omega), if_neg]
  rw [h.flagged e he]
  simp only [Bool.not_true, Bool.false_eq_true, false_or]
  omega

variable [DecidableEq P]

/-- What the obfuscated payload is to be, given the entries added so far: of the same length, a byte that
is covered is the character of an entry that covers it, and any other byte is unchanged. -/
def Hides (added : List (ObfuscationEntry P)) (p : P) (payload buf : List UInt8) : Prop :=
  buf.length = payload.length ∧ ∀ k < payload.length,
    ((∃ e ∈ added, e.p = p ∧ e.Covers k) →
      ∃ e ∈ added, e.p = p ∧ e.Covers k ∧ buf[k]? = some e.obChar) ∧
    ((∀ e ∈ added, e.p = p → ¬e.Covers k) → buf[k]? = payload[k]?)

/-- No slice is empty. -/
def Op.Sliced : Op P → Prop
  | .add _ _ length _ => length ≠ 0
  | .get .. => True

theorem length_ne_zero_of_run {ob : ObfuscationStruct P} {obfuscate : P → Bool} {ops : List (Op P)}
    (hops : ∀ op ∈ ops, op.Sliced) :
    ∀ e ∈ (run Q (start ob obfuscate) ops).added, e.length ≠ 0 := by
  induction ops using List.reverseRecOn with
  | nil => exact fun e he => absurd he (by simp [run, start])
  | append_singleton ops op ih =>
    have ih := ih fun op hop => hops op (List.mem_append_left _ hop)
    have hop := hops op (by simp)
    rw [run, List.foldl_append]
    cases op with
    | get => exact ih
    | add p offset length obChar =>
      intro e he
      simp only [List.foldl_cons, List.foldl_nil, step, State.add] at he
      split at he
      · rcases List.mem_append.1 he with he | he
        · exact ih e he
        · rw [List.mem_singleton.1 he]
          exact hop
      · exact ih e he

/-- The entries through which a payload goes are those accepted, or stand for them. -/
theorem covers_listed {s : State P} (h : Recorded s) {e : ObfuscationEntry P} (he : e ∈ s.added) {k : ℕ}
    (hk : e.Covers k) : ∃ f ∈ mine e.p (sortObfuscationEntries Q s.ob).listed, f.Covers k := by
  obtain ⟨i, hi, hrep⟩ := h.represented e he
  refine ⟨s.ob.entries i, ?_, hrep.covers hk⟩
  have hmem := (mem_listed (h.sort Q)).2 ⟨i, ?_, rfl⟩
  · rw [(sort_entries Q s.ob).1] at hmem
    exact mem_mine.2 ⟨hmem, hrep.1⟩
  · exact (sort_numEntries Q s.ob).symm ▸ hi

/-- What is handed over at an offset, if the entries are in order. -/
theorem outAt_spec {s : State P} (h : Recorded s) {p : P} (hord : Ordered s.ob p) (payload : List UInt8)
    (base : ℕ) {k : ℕ} (hk : k < 65535) :
    ((∃ e ∈ s.added, e.p = p ∧ e.Covers k) →
      ∃ e ∈ s.added, e.p = p ∧ e.Covers k ∧
        outAt (mine p (sortObfuscationEntries Q s.ob).listed) payload base k = .hidden e.obChar) ∧
    ((∀ e ∈ s.added, e.p = p → ¬e.Covers k) →
      outAt (mine p (sortObfuscationEntries Q s.ob).listed) payload base k =
        .data (payload.getD (k - base) 0)) := by
  constructor
  · rintro ⟨e, he, rfl, hcov⟩
    obtain ⟨f, hf, hfcov⟩ := covers_listed Q h he hcov
    obtain ⟨g, hg⟩ := Sweep.decider_of_pairwise (sorted_listed Q hord) hf ((covers_iff f hk).1 hfcov)
    obtain ⟨hmem, hgcov⟩ := Sweep.mem_of_decider hg
    obtain ⟨hmem, hp⟩ := mem_mine.1 hmem
    refine ⟨g, mem_added_of_listed Q h hmem, hp, (covers_iff g hk).2 hgcov, ?_⟩
    rw [outAt, hg]
  · intro hnone
    rw [outAt, Sweep.decider_eq_none]
    intro e he hcov
    obtain ⟨hmem, hp⟩ := mem_mine.1 he
    exact hnone e (mem_added_of_listed Q h hmem) hp ((covers_iff e hk).2 hcov)

/-- **The payload is hidden wherever an entry covers it**, in every run and for every packet: if the
entries of the packet are in order whenever they are not sorted again, and the payload leaves room for
the spare bytes of the block. -/
theorem obfuscatedPayload_hides (ob : ObfuscationStruct P) (obfuscate : P → Bool) (ops : List (Op P))
    (hops : ∀ op ∈ ops, op.Sliced) (p : P) (header payload : List UInt8) (hheader : header ≠ [])
    (hpayload : payload ≠ [])
    (hadded : ∃ e ∈ (run Q (start ob obfuscate) ops).added, e.p = p)
    (hord : Ordered (run Q (start ob obfuscate) ops).ob p) (hroom : payload.length ≤ 65435) :
    ∃ buf, (getObfuscatedPayload Q (run Q (start ob obfuscate) ops).ob
        ((run Q (start ob obfuscate) ops).packet p header payload)).2 = some buf ∧
      Hides (run Q (start ob obfuscate) ops).added p payload buf := by
  have h := recorded_run Q ob obfuscate ops
  have hne := @length_ne_zero_of_run _ Q _ ob obfuscate ops hops
  generalize run Q (start ob obfuscate) ops = s at *
  have hreq : payloadObfuscationRequired s.ob (s.packet p header payload) = true :=
    payloadObfuscationRequired_of_added h hadded hheader
  have hl : ∀ e ∈ (sortObfuscationEntries Q s.ob).listed, e.p = p → e.length ≠ 0 :=
    fun e he _ => hne e (mem_added_of_listed Q h he)
  obtain ⟨calls, i', hrun, hparts, hout, -⟩ :=
    traverseObfuscationList_calls (sortObfuscationEntries Q s.ob) hpayload
      (show 0 + payload.length < 65536 by omega) hl
      (show ∀ e ∈ mine p ((sortObfuscationEntries Q s.ob).listed.take 0), e.stop ≤ 0 by simp)
  have hlen : (calls.flatMap Call.out).length = payload.length := by
    rw [hout, length_readBuf]
  obtain ⟨ob', hfill, hfilled⟩ := runCalls_getObfuscatedPayload hparts filled_nil
    (by rw [hlen, List.length_nil]; omega)
  rw [List.nil_append, hout] at hfilled
  have hsize : (s.packet p header payload).payloadSize = payload.length := by
    unfold Packet.payloadSize State.packet
    exact u16_of_eq (by push_cast; ring) (by omega)
  refine ⟨(readBuf (outAt (mine p (sortObfuscationEntries Q s.ob).listed) payload 0) 0
    payload.length).map Out.byte, ?_, ?_, ?_⟩
  · have hblock : (ob'.payload.getD []).take ob'.payloadLen =
        (readBuf (outAt (mine p (sortObfuscationEntries Q s.ob).listed) payload 0) 0
          payload.length).map Out.byte := by
      rw [hfilled.payloadLen]
      rcases hfilled.block with ⟨-, -, hnil⟩ | ⟨block, hsome, -, -, hprefix⟩
      · rw [hnil, List.length_nil, List.take_zero]
      · rw [hsome, Option.getD_some]
        exact (List.prefix_iff_eq_take.1 hprefix).symm
    have hrun' := hrun _ getObfuscatedPayloadCallback ⟨none, 0, 0⟩
    rw [hfill] at hrun'
    unfold getObfuscatedPayload
    rw [hreq, hsize]
    simp only [Bool.not_true, Bool.false_eq_true, if_false]
    show (traverseObfuscationList _ _ p ⟨0, 0⟩ false payload payload.length _).bind _ = _
    rw [hrun']
    exact congrArg some hblock
  · rw [List.length_map, length_readBuf]
  · intro k hk
    have hget : ((readBuf (outAt (mine p (sortObfuscationEntries Q s.ob).listed) payload 0) 0
        payload.length).map Out.byte)[k]? =
        some (outAt (mine p (sortObfuscationEntries Q s.ob).listed) payload 0 k).byte := by
      rw [List.getElem?_map, readBuf, List.getElem?_map, List.getElem?_range hk]
      simp
    obtain ⟨hcov, hnone⟩ := outAt_spec Q h hord payload 0 (k := k) (by omega)
    rw [hget]
    constructor
    · intro hex
      obtain ⟨e, he, hp, hecov, heq⟩ := hcov hex
      exact ⟨e, he, hp, hecov, by rw [heq]; rfl⟩
    · intro hall
      rw [hnone hall, Nat.sub_zero]
      show some (payload.getD k 0) = _
      rw [List.getElem?_eq_getElem hk, ← List.getElem_eq_getD]

/-! ### A stale order -/

/-- A `qsort` by insertion. -/
def insertionQsort : Qsort where
  sort compar base := base.insertionSort fun a b => compar a b ≤ 0
  perm _ _ := List.perm_insertionSort ..
  sorted compar base htotal htrans :=
    haveI : Std.Total fun a b => compar a b ≤ 0 := ⟨htotal⟩
    haveI : IsTrans ℕ fun a b => compar a b ≤ 0 := ⟨htrans⟩
    List.pairwise_insertionSort _ base

/-- The entries of the packet 0 before the last call: a slice, an entry of maximal length behind it, a
call, and an entry of maximal length in front of it. -/
def staleOps : List (Op ℕ) :=
  [.add 0 3 1 88, .add 0 6 obLengthMax 88, .get 0 [0] [1, 2, 3, 4, 5, 6, 7, 8],
    .add 0 1 obLengthMax 88]

def staleState : State ℕ :=
  run insertionQsort (start ⟨false, fun _ => ⟨0, 0, 0, 0⟩, [], []⟩ fun _ => false) staleOps

/-- The entry that covers everything from the offset 1 on is in the list, but the bytes 1 and 2 come out
as they are. -/
theorem staleOps_exposed :
    (getObfuscatedPayload insertionQsort staleState.ob
        (staleState.packet 0 [0] [1, 2, 3, 4, 5, 6, 7, 8])).2 =
      some [1, 2, 3, 88, 88, 88, 88, 88] ∧
    ¬Hides staleState.added 0 [1, 2, 3, 4, 5, 6, 7, 8] [1, 2, 3, 88, 88, 88, 88, 88] := by
  have hadded : staleState.added = [⟨0, 3, 1, 88⟩, ⟨0, 6, obLengthMax, 88⟩, ⟨0, 1, obLengthMax, 88⟩] := by
    decide +kernel
  refine ⟨by decide +kernel, fun ⟨_, h⟩ => ?_⟩
  obtain ⟨e, he, -, -, heq⟩ := (h 1 (by decide)).1 ⟨⟨0, 1, obLengthMax, 88⟩, by simp [hadded], rfl,
    by decide, Or.inl rfl⟩
  rw [hadded] at he
  have hchar : e.obChar = 88 := by
    simp only [List.mem_cons, List.not_mem_nil, or_false] at he
    rcases he with rfl | rfl | rfl <;> rfl
  rw [hchar] at heq
  exact absurd heq (by decide)

/-- Two slices that overlap, added from back to front. -/
def sliceOps : List (Op ℕ) := [.add 0 2 2 88, .add 0 1 2 89]

theorem obfuscatedPayload_hides_slices :
    ∃ buf, (getObfuscatedPayload insertionQsort
        (run insertionQsort (start ⟨false, fun _ => ⟨0, 0, 0, 0⟩, [], []⟩ fun _ => false) sliceOps).ob
        ((run insertionQsort (start ⟨false, fun _ => ⟨0, 0, 0, 0⟩, [], []⟩ fun _ => false)
          sliceOps).packet 0 [0] [1, 2, 3, 4, 5])).2 = some buf ∧
      Hides (run insertionQsort (start ⟨false, fun _ => ⟨0, 0, 0, 0⟩, [], []⟩ fun _ => false)
        sliceOps).added 0 [1, 2, 3, 4, 5] buf := by
  apply obfuscatedPayload_hides insertionQsort _ _ sliceOps _ 0 [0] [1, 2, 3, 4, 5]
  · simp
  · simp
  · exact ⟨⟨0, 2, 2, 88⟩, by decide +kernel, rfl⟩
  · intro hsorted
    exact absurd hsorted (by decide +kernel)
  · simp
  · simp [sliceOps, Op.Sliced]

end Snort.Obfuscation
