import Mathlib.Tactic

/-!
# Fragments of connection-oriented requests: `DCE2_CoHandleFrag`

Allocations succeed, and memory that is allocated is zero.  What is read beyond a fragment is a fault.

* `Buffer`, `reAlloc`, `bufferAddData`: buffers that grow;
* `coHandleFrag`, `coRun`: a fragment, and a sequence of fragments of both directions;
* `collect`, `collectAll`: what one direction is for, without memory;
* `coHandleFrag_spec`, `coRun_spec`: the buffers of the two directions do as they are to;
* **`coRun_reassembles`**: no buffer holds too much, and a request is reassembled after any history.
-/

namespace Snort.Dce2.CoFrag

/-! ### Buffers -/

/-- `DCE2_BufferMinAddFlag`. -/
inductive MinAddFlag
  | use
  | ignore
  deriving DecidableEq

/-- `DCE2_Buffer`. -/
structure Buffer where
  data : Option (List UInt8)
  size : ℕ
  len : ℕ
  minAddSize : ℕ

/-- `DCE2_FRAG__MIN_ALLOC_SIZE`. -/
def fragMinAllocSize : ℕ := 50

/-- `DCE2_BufferNew`. -/
def bufferNew (initialSize minAddSize : ℕ) : Buffer :=
  ⟨if initialSize ≠ 0 then some (List.replicate initialSize 0) else none, initialSize, 0, minAddSize⟩

/-- `DCE2_BufferIsEmpty`. -/
def Buffer.isEmpty (buf : Buffer) : Bool := buf.data.isNone || buf.len == 0

/-- `DCE2_BufferEmpty`. -/
def Buffer.empty (buf : Buffer) : Buffer := { buf with len := 0 }

/-- What is in a buffer. -/
def Buffer.contents (buf : Buffer) : List UInt8 := (buf.data.getD []).take buf.len

/-- The check of `DCE2_Memcpy`: `n` bytes from an offset on are inside of memory of some size. -/
def MemcpyCheck (n offset size : ℕ) : Prop := 1 ≤ n ∧ offset + n ≤ size

instance (n offset size : ℕ) : Decidable (MemcpyCheck n offset size) := inferInstanceAs (Decidable (_ ∧ _))

/-- `DCE2_ReAlloc`. -/
def reAlloc (oldMem : List UInt8) (oldSize newSize : ℕ) : Option (List UInt8) :=
  if newSize < oldSize then none
  else if newSize = oldSize then some oldMem
  else if MemcpyCheck oldSize 0 newSize then some (oldMem ++ List.replicate (newSize - oldSize) 0)
  else none

/-- The memory of `DCE2_BufferAddData`: there is enough of it for `need` bytes. -/
def Buffer.grow (buf : Buffer) (need : ℕ) (mflag : MinAddFlag) : Option Buffer :=
  match buf.data with
  | none =>
    let size := if need < buf.minAddSize ∧ mflag = .use then buf.minAddSize else need
    some { buf with data := some (List.replicate size 0), size := size }
  | some mem =>
    if buf.size < need then
      let newSize := if need - buf.size < buf.minAddSize ∧ mflag = .use then (need + buf.minAddSize) % 2 ^ 32 else need
      (reAlloc mem buf.size newSize).map fun mem => { buf with data := some mem, size := newSize }
    else some buf

/-- `DCE2_BufferAddData`: whether it succeeds, and the buffer. -/
def bufferAddData (buf : Buffer) (data : List UInt8) (dataLen offset : ℕ) (mflag : MinAddFlag) :
    Option (Bool × Buffer) :=
  if dataLen = 0 then some (true, buf)
  else
    let offset := if offset = 0 then buf.len else offset
    match buf.grow ((offset + dataLen) % 2 ^ 32) mflag with
    | none => some (false, buf)
    | some buf =>
      if MemcpyCheck dataLen offset buf.size then
        if dataLen ≤ data.length then
          let mem := buf.data.getD []
          some (true, { buf with
            data := some (mem.take offset ++ data.take dataLen ++ mem.drop (offset + dataLen))
            len := (offset + dataLen) % 2 ^ 32 })
        else none
      else some (false, buf)

/-! ### Fragments -/

/-- `DCE2_CoFragTracker`. -/
structure CoFragTracker where
  cliFragBuf : Option Buffer
  srvFragBuf : Option Buffer
  opnum : ℤ
  ctxId : ℤ
  expectedCallId : ℤ
  expectedOpnum : ℤ
  expectedCtxId : ℤ

/-- `DCE2_CoTracker`, as far as fragments go. -/
structure CoTracker where
  opnum : ℤ
  fragTracker : CoFragTracker

/-- `DCE2_SENTINEL`. -/
def sentinel : ℤ := -1

/-- `DCE2_CoResetFragTracker`. -/
def coResetFragTracker (ft : CoFragTracker) : CoFragTracker :=
  { ft with opnum := sentinel, ctxId := sentinel, expectedCallId := sentinel, expectedCtxId := sentinel,
            expectedOpnum := sentinel }

/-- A tracker without buffers. -/
def coTrackerNew : CoTracker := ⟨sentinel, none, none, sentinel, sentinel, sentinel, sentinel, sentinel⟩

/-- What is configured: `DCE2_GetRpktMaxData` for the packets from the client and from the server, and
`DCE2_GcMaxFragLen`. -/
structure Setting where
  maxFragData : Bool → ℕ
  maxFrag : Option ℕ
  pos : ∀ fromServer, 1 ≤ maxFragData fromServer
  short : ∀ fromServer, maxFragData fromServer < 2 ^ 16

/-- A fragment: its direction, its flags and its stub data, with a length of 16 bits. -/
structure Frag where
  fromServer : Bool
  first : Bool
  last : Bool
  stub : List UInt8
  short : stub.length < 2 ^ 16

/-- `DCE2_CoGetFragBuf`. -/
def coGetFragBuf (ft : CoFragTracker) (fromServer : Bool) : Option Buffer :=
  if fromServer then ft.srvFragBuf else ft.cliFragBuf

/-- The buffer of a direction is set. -/
def CoTracker.setFragBuf (cot : CoTracker) (fromServer : Bool) (buf : Buffer) : CoTracker :=
  if fromServer then { cot with fragTracker := { cot.fragTracker with srvFragBuf := some buf } }
  else { cot with fragTracker := { cot.fragTracker with cliFragBuf := some buf } }

/-- The size of a new buffer. -/
def initialSize (fragLen : ℕ) : ℕ := if fragLen < fragMinAllocSize then fragMinAllocSize else fragLen

/-- The buffer that a fragment is added to: it is made when there is none, and emptied for a first fragment. -/
def fragBuf (cot : CoTracker) (f : Frag) : Buffer :=
  let buf := (coGetFragBuf cot.fragTracker f.fromServer).getD (bufferNew (initialSize f.stub.length) fragMinAllocSize)
  if f.first ∧ ¬buf.isEmpty then buf.empty else buf

/-- `max_frag_data - (uint16_t)DCE2_BufferLength(frag_buf)`, of 16 bits. -/
def lengthLeft (maxFragData len : ℕ) : ℕ := (((maxFragData : ℤ) - (len % 2 ^ 16 : ℕ)) % 2 ^ 16).toNat

/-- `frag_len`, after both limits. -/
def limitLen (cfg : Setting) (f : Frag) (len : ℕ) : ℕ :=
  let fragLen := match cfg.maxFrag with
    | some maxFragLen => if maxFragLen < f.stub.length then maxFragLen else f.stub.length
    | none => f.stub.length
  if cfg.maxFragData f.fromServer < (len + fragLen) % 2 ^ 32 then lengthLeft (cfg.maxFragData f.fromServer) len
  else fragLen

/-- `DCE2_CoHandleFrag`: the tracker, and what is in the buffer when `DCE2_CoFragReassemble` is called. -/
def coHandleFrag (cfg : Setting) (cot : CoTracker) (f : Frag) : Option (CoTracker × Option (List UInt8)) :=
  let buf := fragBuf cot f
  let mflag := if f.last ∨ buf.len = cfg.maxFragData f.fromServer then MinAddFlag.ignore else .use
  (bufferAddData buf f.stub (limitLen cfg f buf.len) 0 mflag).map fun added =>
    let cot := cot.setFragBuf f.fromServer added.2
    let emptied := cot.setFragBuf f.fromServer added.2.empty
    if ¬added.1 then (emptied, some added.2.contents)
    else if f.last then
      (⟨emptied.fragTracker.opnum, coResetFragTracker emptied.fragTracker⟩, some added.2.contents)
    else if added.2.len = cfg.maxFragData f.fromServer then (emptied, some added.2.contents)
    else (cot, none)

/-- Some fragments, with what is reassembled at each of them. -/
def coRun (cfg : Setting) : CoTracker → List Frag → Option (CoTracker × List (Option (List UInt8)))
  | cot, [] => some (cot, [])
  | cot, f :: fs =>
    (coHandleFrag cfg cot f).bind fun r => (coRun cfg r.1 fs).map fun rest => (rest.1, r.2 :: rest.2)

/-! ### What it is for -/

/-- A fragment is put to the others of its direction, as far as it fits in; these are dropped before a first one. -/
def whole (cfg : Setting) (content : List UInt8) (f : Frag) : List UInt8 :=
  let base := if f.first then [] else content
  base ++ f.stub.take (min (cfg.maxFrag.getD f.stub.length) (cfg.maxFragData f.fromServer - base.length))

/-- All of it is given out at the last fragment, or when no more fits in. -/
def collect (cfg : Setting) (content : List UInt8) (f : Frag) : List UInt8 × Option (List UInt8) :=
  if f.last ∨ (whole cfg content f).length = cfg.maxFragData f.fromServer then ([], some (whole cfg content f))
  else (whole cfg content f, none)

/-- Some fragments of one direction. -/
def collectAll (cfg : Setting) : List UInt8 → List Frag → List UInt8 × List (Option (List UInt8))
  | content, [] => (content, [])
  | content, f :: fs =>
    let r := collect cfg content f
    let rest := collectAll cfg r.1 fs
    (rest.1, r.2 :: rest.2)

/-- The fragments of a direction. -/
def ofDirection (fromServer : Bool) (fs : List Frag) : List Frag := fs.filter fun f => f.fromServer == fromServer

/-- What is reassembled at the fragments of a direction. -/
def outputsOf (fromServer : Bool) (fs : List Frag) (outs : List (Option (List UInt8))) : List (Option (List UInt8)) :=
  ((fs.zip outs).filter fun p => p.1.fromServer == fromServer).map Prod.snd

/-- A request: the first flag is on the first fragment and the last flag on the last one, and it is within the limits. -/
structure IsRequest (cfg : Setting) (fromServer : Bool) (fs : List Frag) : Prop where
  firsts : fs.map Frag.first = true :: List.replicate (fs.length - 1) false
  lasts : fs.map Frag.last = List.replicate (fs.length - 1) false ++ [true]
  total : (fs.flatMap Frag.stub).length < cfg.maxFragData fromServer
  each : ∀ f ∈ fs, ∀ maxFragLen ∈ cfg.maxFrag, f.stub.length ≤ maxFragLen

/-! ### A buffer -/

/-- What holds of a buffer with room for `maxFragData` bytes. -/
structure Buffer.Holds (maxFragData : ℕ) (buf : Buffer) (content : List UInt8) : Prop where
  contents : buf.contents = content
  mem : ∃ mem, buf.data = some mem ∧ mem.length = buf.size
  len : buf.len = content.length
  fits : content.length ≤ buf.size
  max : content.length ≤ maxFragData
  pos : 1 ≤ buf.size
  size : buf.size ≤ 2 ^ 17
  minAdd : buf.minAddSize = fragMinAllocSize

variable {cfg : Setting} {buf : Buffer} {content data : List UInt8} {maxFragData n : ℕ} {mflag : MinAddFlag}
  {cot : CoTracker} {f : Frag} {fs : List Frag} {fromServer : Bool}

variable (maxFragData) in
theorem bufferNew_holds {size : ℕ} (hpos : 1 ≤ size) (hsize : size ≤ 2 ^ 17) :
    (bufferNew size fragMinAllocSize).Holds maxFragData [] where
  contents := rfl
  mem := ⟨List.replicate size 0, if_pos (by omega), List.length_replicate⟩
  len := rfl
  fits := Nat.zero_le _
  max := Nat.zero_le _
  pos := hpos
  size := hsize
  minAdd := rfl

theorem Buffer.Holds.emptied (h : buf.Holds maxFragData content) : buf.empty.Holds maxFragData [] where
  contents := rfl
  mem := h.mem
  len := rfl
  fits := Nat.zero_le _
  max := Nat.zero_le _
  pos := h.pos
  size := h.size
  minAdd := h.minAdd

/-- There is enough memory, and what was in the buffer is still there. -/
theorem Buffer.Holds.grown (h : buf.Holds maxFragData content) (mflag : MinAddFlag) {need : ℕ} (hneed : need < 2 ^ 16) :
    ∃ buf', buf.grow need mflag = some buf' ∧ buf'.Holds maxFragData content ∧ need ≤ buf'.size := by
  obtain ⟨mem, hmem, hlen⟩ := h.mem
  have hsize := h.size
  have hmin := h.minAdd
  have hpos := h.pos
  unfold Buffer.grow
  rw [hmem]
  dsimp only
  by_cases hlt : buf.size < need
  · rw [if_pos hlt]
    obtain ⟨newSize, hnew, hle, hbound⟩ : ∃ newSize, newSize = (if need - buf.size < buf.minAddSize ∧ mflag = .use then
        (need + buf.minAddSize) % 2 ^ 32 else need) ∧ need ≤ newSize ∧ newSize ≤ need + 50 := by
      refine ⟨_, rfl, ?_⟩
      rw [hmin, fragMinAllocSize]
      split_ifs <;> omega
    rw [← hnew, reAlloc, if_neg (by omega), if_neg (by omega), if_pos ⟨hpos, by omega⟩]
    refine ⟨_, rfl, ⟨?_, ⟨_, rfl, ?_⟩, h.len, ?_, h.max, ?_, ?_, hmin⟩, hle⟩
    · have hcontents := h.contents
      rw [Buffer.contents, hmem, Option.getD_some] at hcontents
      rw [Buffer.contents, Option.getD_some, List.take_append_of_le_length (by rw [hlen, h.len]; exact h.fits), hcontents]
    · rw [List.length_append, List.length_replicate]
      dsimp only
      omega
    · exact h.fits.trans (by dsimp only; omega)
    · dsimp only
      omega
    · dsimp only
      omega
  · rw [if_neg hlt]
    exact ⟨buf, rfl, h, not_lt.1 hlt⟩

variable (mflag) in
/-- Data is put behind what is in the buffer. -/
theorem bufferAddData_spec (h : buf.Holds maxFragData content) (hmax : maxFragData < 2 ^ 16) (hn : n ≤ data.length)
    (hroom : content.length + n ≤ maxFragData) :
    ∃ buf', bufferAddData buf data n 0 mflag = some (true, buf') ∧ buf'.Holds maxFragData (content ++ data.take n) := by
  unfold bufferAddData
  rcases Nat.eq_zero_or_pos n with rfl | hpos
  · rw [if_pos rfl]
    exact ⟨buf, rfl, by rwa [List.take_zero, List.append_nil]⟩
  rw [if_neg (by omega), if_pos rfl, h.len]
  dsimp only
  rw [Nat.mod_eq_of_lt (by omega)]
  obtain ⟨buf', hgrow, h', hneed⟩ := h.grown mflag (show content.length + n < 2 ^ 16 by omega)
  obtain ⟨mem, hmem, hlen⟩ := h'.mem
  have hold : mem.take content.length = content := by
    have hcontents := h'.contents
    rwa [Buffer.contents, hmem, Option.getD_some, h'.len] at hcontents
  rw [hgrow]
  dsimp only
  rw [if_pos ⟨hpos, hneed⟩, if_pos hn, hmem, Option.getD_some, hold]
  have hnew : (content ++ data.take n).length = content.length + n := by
    rw [List.length_append, List.length_take]
    omega
  refine ⟨_, rfl, ⟨?_, ⟨_, rfl, ?_⟩, hnew.symm, ?_, ?_, h'.pos, h'.size, h'.minAdd⟩⟩
  · rw [Buffer.contents, Option.getD_some, ← hnew, List.take_left]
  · rw [List.length_append, hnew, List.length_drop, hlen]
    dsimp only
    omega
  · rw [hnew]
    exact hneed
  · rw [hnew]
    exact hroom

/-! ### A fragment -/

/-- The buffer of a direction, which may not be there yet. -/
def Collected (cfg : Setting) (cot : CoTracker) (fromServer : Bool) (content : List UInt8) : Prop :=
  match coGetFragBuf cot.fragTracker fromServer with
  | none => content = []
  | some buf => buf.Holds (cfg.maxFragData fromServer) content

theorem fragBuf_holds (h : Collected cfg cot f.fromServer content) :
    (fragBuf cot f).Holds (cfg.maxFragData f.fromServer) (if f.first then [] else content) := by
  have hshort := f.short
  unfold Collected at h
  unfold fragBuf
  cases hbuf : coGetFragBuf cot.fragTracker f.fromServer with
  | none =>
    rw [hbuf] at h
    obtain rfl : content = [] := h
    have hnew := bufferNew_holds (cfg.maxFragData f.fromServer)
      (show 1 ≤ initialSize f.stub.length by unfold initialSize fragMinAllocSize; split_ifs <;> omega) (by unfold initialSize fragMinAllocSize; split_ifs <;> omega)
    simp only [Option.getD_none, ite_self]
    split_ifs
    · exact hnew.emptied
    · exact hnew
  | some buf =>
    rw [hbuf] at h
    replace h : buf.Holds (cfg.maxFragData f.fromServer) content := h
    simp only [Option.getD_some]
    by_cases hfirst : f.first = true
    · simp only [hfirst, true_and, if_true]
      by_cases hempty : buf.isEmpty = true
      · rw [if_neg (by rw [hempty]; simp)]
        obtain ⟨mem, hmem, -⟩ := h.mem
        have hzero : content = [] := by
          rw [Buffer.isEmpty, hmem] at hempty
          have hlen := h.len
          rw [← List.length_eq_zero_iff, ← hlen]
          simpa using hempty
        rwa [hzero] at h
      · rw [if_pos hempty]
        exact h.emptied
    · simp only [hfirst, false_and, if_false, Bool.false_eq_true]
      exact h

/-- The length that is left does not wrap. -/
theorem lengthLeft_eq {len : ℕ} (hlen : len ≤ maxFragData) (hmax : maxFragData < 2 ^ 16) :
    lengthLeft maxFragData len = maxFragData - len := by
  unfold lengthLeft
  omega

theorem limitLen_eq {len : ℕ} (hlen : len ≤ cfg.maxFragData f.fromServer) :
    limitLen cfg f len = min (min (cfg.maxFrag.getD f.stub.length) f.stub.length) (cfg.maxFragData f.fromServer - len) := by
  have hmax := cfg.short f.fromServer
  have hshort := f.short
  unfold limitLen
  rw [lengthLeft_eq hlen hmax]
  cases cfg.maxFrag with
  | none =>
    simp only [Option.getD_none]
    split_ifs <;> omega
  | some maxFragLen =>
    simp only [Option.getD_some]
    split_ifs <;> omega

@[simp] theorem coGetFragBuf_setFragBuf : coGetFragBuf (cot.setFragBuf fromServer buf).fragTracker fromServer = some buf := by
  cases fromServer <;> rfl

theorem coGetFragBuf_setFragBuf_of_ne {fromServer' : Bool} (hne : fromServer' ≠ fromServer) :
    coGetFragBuf (cot.setFragBuf fromServer buf).fragTracker fromServer' = coGetFragBuf cot.fragTracker fromServer' := by
  cases fromServer <;> cases fromServer' <;> first | rfl | exact absurd rfl hne

@[simp] theorem coGetFragBuf_coResetFragTracker (ft : CoFragTracker) :
    coGetFragBuf (coResetFragTracker ft) fromServer = coGetFragBuf ft fromServer := rfl

/-- **A fragment**: the buffer of its direction does as it is to, and the other one is left alone. -/
theorem coHandleFrag_spec (h : Collected cfg cot f.fromServer content) :
    ∃ cot', coHandleFrag cfg cot f = some (cot', (collect cfg content f).2) ∧
      Collected cfg cot' f.fromServer (collect cfg content f).1 ∧
      ∀ fromServer ≠ f.fromServer, coGetFragBuf cot'.fragTracker fromServer = coGetFragBuf cot.fragTracker fromServer := by
  have hbuf := fragBuf_holds h
  have hlimit := limitLen_eq (show (fragBuf cot f).len ≤ cfg.maxFragData f.fromServer by rw [hbuf.len]; exact hbuf.max)
  set base := if f.first then [] else content with hbase
  have hmax := hbuf.max
  rw [hbuf.len] at hlimit
  obtain ⟨buf', hadd, hbuf'⟩ := bufferAddData_spec
    (if f.last ∨ (fragBuf cot f).len = cfg.maxFragData f.fromServer then .ignore else .use) hbuf (cfg.short f.fromServer)
    (show limitLen cfg f (fragBuf cot f).len ≤ f.stub.length by rw [hbuf.len, hlimit]; omega)
    (by rw [hbuf.len, hlimit]; omega)
  have htake : f.stub.take (limitLen cfg f (fragBuf cot f).len) =
      f.stub.take (min (cfg.maxFrag.getD f.stub.length) (cfg.maxFragData f.fromServer - base.length)) := by
    rw [hbuf.len, hlimit, min_right_comm, List.take_eq_take_min (i := min _ (_ - _))]
  rw [htake, ← show whole cfg content f = base ++ f.stub.take _ from rfl] at hbuf'
  have hlen := hbuf'.len
  unfold coHandleFrag collect
  simp only [hadd, Option.map_some, not_true_eq_false, if_false]
  by_cases hlast : f.last = true
  · rw [if_pos hlast, if_pos (Or.inl hlast), hbuf'.contents]
    refine ⟨_, rfl, ?_, fun fromServer hne => ?_⟩
    · unfold Collected
      simp only [coGetFragBuf_coResetFragTracker, coGetFragBuf_setFragBuf]
      exact hbuf'.emptied
    · simp only [coGetFragBuf_coResetFragTracker, coGetFragBuf_setFragBuf_of_ne hne]
  · rw [if_neg hlast]
    by_cases hfull : buf'.len = cfg.maxFragData f.fromServer
    · rw [if_pos hfull, if_pos (Or.inr (hlen ▸ hfull)), hbuf'.contents]
      refine ⟨_, rfl, ?_, fun fromServer hne => ?_⟩
      · unfold Collected
        simp only [coGetFragBuf_setFragBuf]
        exact hbuf'.emptied
      · simp only [coGetFragBuf_setFragBuf_of_ne hne]
    · rw [if_neg hfull, if_neg (not_or.2 ⟨hlast, hlen ▸ hfull⟩)]
      refine ⟨_, rfl, ?_, fun fromServer hne => coGetFragBuf_setFragBuf_of_ne hne⟩
      unfold Collected
      simp only [coGetFragBuf_setFragBuf]
      exact hbuf'

/-! ### Sequences of fragments -/

theorem length_whole_le (h : content.length ≤ cfg.maxFragData f.fromServer) :
    (whole cfg content f).length ≤ cfg.maxFragData f.fromServer := by
  have hbase : (if f.first then [] else content).length ≤ cfg.maxFragData f.fromServer := by
    split_ifs
    · exact Nat.zero_le _
    · exact h
  unfold whole
  rw [List.length_append, List.length_take]
  omega

/-- No more than fits in is given out. -/
theorem collect_le (h : content.length ≤ cfg.maxFragData f.fromServer) :
    ∀ data ∈ (collect cfg content f).2, data.length ≤ cfg.maxFragData f.fromServer := by
  intro data hdata
  unfold collect at hdata
  split_ifs at hdata
  · cases hdata
    exact length_whole_le h
  · cases hdata

theorem Collected.le {fromServer : Bool} (h : Collected cfg cot fromServer content) :
    content.length ≤ cfg.maxFragData fromServer := by
  unfold Collected at h
  cases hbuf : coGetFragBuf cot.fragTracker fromServer with
  | none =>
    rw [hbuf] at h
    obtain rfl : content = [] := h
    exact Nat.zero_le _
  | some buf =>
    rw [hbuf] at h
    exact h.max

theorem Collected.congr {cot' : CoTracker} {fromServer : Bool}
    (heq : coGetFragBuf cot'.fragTracker fromServer = coGetFragBuf cot.fragTracker fromServer)
    (h : Collected cfg cot fromServer content) : Collected cfg cot' fromServer content := by
  unfold Collected at h ⊢
  rwa [heq]

/-- **A sequence of fragments** of both directions: each of them goes its own way. -/
theorem coRun_spec (fs : List Frag) {content : Bool → List UInt8} (h : ∀ fromServer, Collected cfg cot fromServer (content fromServer)) :
    ∃ cot' outs, coRun cfg cot fs = some (cot', outs) ∧
      (∀ p ∈ fs.zip outs, ∀ data ∈ p.2, data.length ≤ cfg.maxFragData p.1.fromServer) ∧
      ∀ fromServer,
        Collected cfg cot' fromServer (collectAll cfg (content fromServer) (ofDirection fromServer fs)).1 ∧
          outputsOf fromServer fs outs = (collectAll cfg (content fromServer) (ofDirection fromServer fs)).2 := by
  induction fs generalizing cot content with
  | nil => exact ⟨cot, [], rfl, by simp, fun fromServer => ⟨h fromServer, rfl⟩⟩
  | cons f fs ih =>
    obtain ⟨cot₁, hstep, hsame, hother⟩ := coHandleFrag_spec (h f.fromServer)
    have h₁ : ∀ fromServer, Collected cfg cot₁ fromServer
        (Function.update content f.fromServer (collect cfg (content f.fromServer) f).1 fromServer) := by
      intro fromServer
      by_cases hdir : fromServer = f.fromServer
      · rw [hdir, Function.update_self]
        exact hsame
      · rw [Function.update_of_ne hdir]
        exact (h fromServer).congr (hother fromServer hdir)
    obtain ⟨cot₂, outs, hrun, hle, hdirs⟩ := ih h₁
    refine ⟨cot₂, (collect cfg (content f.fromServer) f).2 :: outs, by rw [coRun, hstep, Option.bind_some, hrun]; rfl,
      ?_, fun fromServer => ?_⟩
    · intro p hp
      rw [List.zip_cons_cons] at hp
      rcases List.mem_cons.1 hp with rfl | hp
      · exact collect_le (h f.fromServer).le
      · exact hle p hp
    · have hdir := hdirs fromServer
      unfold ofDirection outputsOf at hdir ⊢
      rw [List.zip_cons_cons]
      by_cases hsame : f.fromServer = fromServer
      · subst hsame
        rw [Function.update_self] at hdir
        rw [List.filter_cons_of_pos (by simp), List.filter_cons_of_pos (by simp), List.map_cons, hdir.2]
        exact ⟨hdir.1, rfl⟩
      · rw [Function.update_of_ne (Ne.symm hsame)] at hdir
        rw [List.filter_cons_of_neg (by simpa using hsame), List.filter_cons_of_neg (by simpa using hsame)]
        exact hdir

/-! ### Requests -/

/-- A fragment that fits in is taken whole. -/
theorem whole_eq {base : List UInt8} (hbase : (if f.first then [] else content) = base)
    (hfits : base.length + f.stub.length < cfg.maxFragData f.fromServer)
    (heach : ∀ maxFragLen ∈ cfg.maxFrag, f.stub.length ≤ maxFragLen) : whole cfg content f = base ++ f.stub := by
  have hlimit : f.stub.length ≤ cfg.maxFrag.getD f.stub.length := by
    cases hmax : cfg.maxFrag with
    | none => exact le_rfl
    | some maxFragLen => exact heach maxFragLen hmax
  unfold whole
  rw [hbase]
  dsimp only
  rw [List.take_of_length_le (by omega)]

theorem collect_eq {base : List UInt8} (hbase : (if f.first then [] else content) = base)
    (hfits : base.length + f.stub.length < cfg.maxFragData f.fromServer)
    (heach : ∀ maxFragLen ∈ cfg.maxFrag, f.stub.length ≤ maxFragLen) :
    collect cfg content f = if f.last then ([], some (base ++ f.stub)) else (base ++ f.stub, none) := by
  unfold collect
  rw [whole_eq hbase hfits heach]
  by_cases hlast : f.last = true
  · rw [if_pos (Or.inl hlast), if_pos hlast]
  · rw [if_neg (not_or.2 ⟨hlast, by rw [List.length_append]; omega⟩), if_neg hlast]

/-- The fragments of a request from some fragment on, with what is before it. -/
theorem collectAll_request {base : List UInt8} (hdir : ∀ g ∈ f :: fs, g.fromServer = fromServer)
    (hbase : (if f.first then [] else content) = base) (hfirsts : ∀ g ∈ fs, g.first = false)
    (hlasts : (f :: fs).map Frag.last = List.replicate fs.length false ++ [true])
    (htotal : base.length + ((f :: fs).flatMap Frag.stub).length < cfg.maxFragData fromServer)
    (heach : ∀ g ∈ f :: fs, ∀ maxFragLen ∈ cfg.maxFrag, g.stub.length ≤ maxFragLen) :
    (collectAll cfg content (f :: fs)).2 =
      List.replicate fs.length none ++ [some (base ++ (f :: fs).flatMap Frag.stub)] := by
  induction fs generalizing f content base with
  | nil =>
    obtain rfl := hdir f List.mem_cons_self
    have hlast : f.last = true := by simpa using hlasts
    have hcollect := collect_eq hbase (by simpa using htotal) (heach f List.mem_cons_self)
    rw [if_pos hlast] at hcollect
    simp [collectAll, hcollect]
  | cons g fs ih =>
    obtain rfl := hdir f List.mem_cons_self
    rw [List.map_cons, List.length_cons, List.replicate_succ, List.cons_append] at hlasts
    obtain ⟨hlast, hlasts⟩ := List.cons.inj hlasts
    rw [List.flatMap_cons, List.length_append] at htotal
    have hcollect := collect_eq hbase (by omega) (heach f List.mem_cons_self)
    rw [hlast, if_neg Bool.false_ne_true] at hcollect
    have hrest := ih (fun g' hg' => hdir g' (List.mem_cons_of_mem _ hg'))
      (show (if g.first then [] else base ++ f.stub) = base ++ f.stub by rw [hfirsts g List.mem_cons_self]; rfl)
      (fun g' hg' => hfirsts g' (List.mem_cons_of_mem _ hg')) hlasts (by rw [List.length_append]; omega)
      (fun g' hg' => heach g' (List.mem_cons_of_mem _ hg'))
    rw [collectAll]
    dsimp only
    rw [hcollect, hrest, List.length_cons, List.replicate_succ, List.cons_append, List.flatMap_cons (x := f),
      List.append_assoc]

theorem IsRequest.collectAll {content : List UInt8} (h : IsRequest cfg fromServer fs)
    (hdir : ∀ f ∈ fs, f.fromServer = fromServer) :
    (collectAll cfg content fs).2 = List.replicate (fs.length - 1) none ++ [some (fs.flatMap Frag.stub)] := by
  cases fs with
  | nil => exact absurd h.lasts (by simp)
  | cons f fs =>
    have hfirsts := h.firsts
    rw [List.map_cons, List.length_cons, Nat.add_sub_cancel] at hfirsts
    obtain ⟨hfirst, hfirsts⟩ := List.cons.inj hfirsts
    refine collectAll_request hdir (if_pos hfirst) (fun g hg => ?_) h.lasts (by simpa using h.total) h.each
    have hmem := List.mem_map_of_mem (f := Frag.first) hg
    rw [hfirsts] at hmem
    exact List.eq_of_mem_replicate hmem

/-- The length of the data in the buffer of a direction. -/
def CoTracker.held (cot : CoTracker) (fromServer : Bool) : ℕ :=
  ((coGetFragBuf cot.fragTracker fromServer).map Buffer.len).getD 0

theorem Collected.held {fromServer : Bool} (h : Collected cfg cot fromServer content) :
    cot.held fromServer = content.length := by
  unfold Collected at h
  unfold CoTracker.held
  cases hbuf : coGetFragBuf cot.fragTracker fromServer with
  | none =>
    rw [hbuf] at h
    obtain rfl : content = [] := h
    rfl
  | some buf =>
    rw [hbuf] at h
    exact h.len

/-- **Reassembly of requests**: after any fragments no buffer holds more than `max_frag_data` bytes, none was given out
with more, and the length that is left does not wrap for the next fragment; and then a request, with fragments of the other
direction between its own, is reassembled at its last fragment and nowhere else. -/
theorem coRun_reassembles (cfg : Setting) (history : List Frag) :
    ∃ cot outs, coRun cfg coTrackerNew history = some (cot, outs) ∧
      (∀ fromServer, cot.held fromServer ≤ cfg.maxFragData fromServer) ∧
      (∀ p ∈ history.zip outs, ∀ data ∈ p.2, data.length ≤ cfg.maxFragData p.1.fromServer) ∧
      (∀ f, (lengthLeft (cfg.maxFragData f.fromServer) (fragBuf cot f).len : ℤ) =
        cfg.maxFragData f.fromServer - (fragBuf cot f).len) ∧
      ∀ fromServer fs, IsRequest cfg fromServer (ofDirection fromServer fs) →
        ∃ cot' outs', coRun cfg cot fs = some (cot', outs') ∧
          outputsOf fromServer fs outs' = List.replicate ((ofDirection fromServer fs).length - 1) none ++
            [some ((ofDirection fromServer fs).flatMap Frag.stub)] := by
  have hnew : ∀ fromServer, Collected cfg coTrackerNew fromServer [] := by
    intro fromServer
    cases fromServer <;> rfl
  obtain ⟨cot, outs, hrun, hle, hdirs⟩ := coRun_spec history hnew
  refine ⟨cot, outs, hrun, fun fromServer => ?_, hle, fun f => ?_, fun fromServer fs h => ?_⟩
  · rw [(hdirs fromServer).1.held]
    exact (hdirs fromServer).1.le
  · have hbuf := fragBuf_holds (hdirs f.fromServer).1
    have hmax := hbuf.max
    rw [lengthLeft_eq (by rw [hbuf.len]; exact hmax) (cfg.short f.fromServer), hbuf.len]
    omega
  · obtain ⟨cot', outs', hrun', -, hdirs'⟩ := coRun_spec fs fun fromServer => (hdirs fromServer).1
    refine ⟨cot', outs', hrun', ?_⟩
    rw [(hdirs' fromServer).2]
    exact h.collectAll fun f hf => by simpa using (List.mem_filter.1 hf).2

/-- A hundred bytes for each direction, and no limit for a fragment. -/
def hundred : Setting := ⟨fun _ => 100, none, fun _ => by decide, fun _ => by decide⟩

/-- A request of the client in two fragments, with a fragment of the server between them. -/
def interleaved : List Frag :=
  [⟨false, true, false, [1, 2], by decide⟩, ⟨true, false, false, [9], by decide⟩, ⟨false, false, true, [3], by decide⟩]

/-- There was another first fragment of the client before. -/
theorem coRun_reassembles_interleaved :
    ∃ cot outs, coRun hundred coTrackerNew [⟨false, true, false, [7, 7, 7], by decide⟩] = some (cot, outs) ∧
      ∃ cot' outs', coRun hundred cot interleaved = some (cot', outs') ∧
        outputsOf false interleaved outs' = [none, some [1, 2, 3]] := by
  obtain ⟨cot, outs, hrun, -, -, -, hrequest⟩ :=
    coRun_reassembles hundred [⟨false, true, false, [7, 7, 7], by decide⟩]
  refine ⟨cot, outs, hrun, hrequest false interleaved ⟨rfl, rfl, by decide, ?_⟩⟩
  intro f hf maxFragLen hmax
  cases hmax

end Snort.Dce2.CoFrag
