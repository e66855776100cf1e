import Snort.Lib.Buffer
import Snort.Lib.Sweep
import Snort.Obfuscation.Model

/-!
# The walk through a payload

`traverseObfuscationList` calls the callback for one part of the payload after the other.  The calls do
not depend on the callback (it only says when to stop), and together they hand over the payload with
every byte that belongs to an entry replaced by the character of this entry.

* `Walk`: what a run of the loop does;
* `Walk.skip`, `Walk.prepend`: an entry that is passed over, and a call in front of the others;
* **`traverseObfuscationList_calls`**: the calls for a payload.

Nothing is assumed about the order of the entries.
-/

namespace Snort.Obfuscation

open CInt Buffer

/-- A byte that is handed over: one of the packet, or an obfuscation character. -/
inductive Out
  | data (b : UInt8)
  | hidden (c : UInt8)
  deriving DecidableEq, Repr

/-- What a call hands over. -/
def Call.out (c : Call) : List Out :=
  match c.packetData with
  | some d => (d.take c.length).map .data
  | none => List.replicate c.length (.hidden c.obChar)

/-- A call for a part of a payload: not empty, and within the data it points to. -/
structure Call.Part (c : Call) : Prop where
  pkth : c.pkth = false
  pos : 0 < c.length
  le : ∀ d, c.packetData = some d → c.length ≤ d.length

/-- The calls of a callback, up to the first that fails. -/
def runCalls {σ : Type*} (callback : Callback σ) (calls : List Call) (d : σ) : Option σ :=
  calls.foldlM (fun d c => callback c d) d

section Entry

variable {P : Type*}

def ObfuscationEntry.start (e : ObfuscationEntry P) : ℕ := e.offset.toNat

def ObfuscationEntry.stop (e : ObfuscationEntry P) : ℕ := e.offset.toNat + e.length.toNat

/-- The offset `k` is to be obfuscated: it is in the slice, or behind the offset of an entry of maximal
length. -/
def ObfuscationEntry.Covers (e : ObfuscationEntry P) (k : ℕ) : Prop :=
  e.offset.toNat ≤ k ∧ (e.length = obLengthMax ∨ k < e.offset.toNat + e.length.toNat)

theorem covers_iff (e : ObfuscationEntry P) {k : ℕ} (hk : k < 65535) :
    e.Covers k ↔ Sweep.Covers ObfuscationEntry.start ObfuscationEntry.stop e k := by
  unfold ObfuscationEntry.Covers Sweep.Covers ObfuscationEntry.start ObfuscationEntry.stop
  constructor
  · rintro ⟨hle, hmax | hlt⟩
    · rw [hmax]
      exact ⟨hle, Nat.lt_of_lt_of_le hk (Nat.le_add_left _ _)⟩
    · exact ⟨hle, hlt⟩
  · rintro ⟨hle, hlt⟩
    exact ⟨hle, Or.inr hlt⟩

/-- The byte at the offset `k` of what the entries `l` are about; the payload starts at `base`. -/
def outAt (l : List (ObfuscationEntry P)) (payload : List UInt8) (base k : ℕ) : Out :=
  match Sweep.decider ObfuscationEntry.start ObfuscationEntry.stop l k with
  | some e => .hidden e.obChar
  | none => .data (payload.getD (k - base) 0)

variable [DecidableEq P]

/-- The entries of a packet. -/
def mine (packet : P) (l : List (ObfuscationEntry P)) : List (ObfuscationEntry P) :=
  l.filter fun e => e.p = packet

@[simp] theorem mem_mine {packet : P} {l : List (ObfuscationEntry P)} {e : ObfuscationEntry P} :
    e ∈ mine packet l ↔ e ∈ l ∧ e.p = packet := by
  simp [mine]

theorem mine_cons_of_ne {packet : P} {e : ObfuscationEntry P} (h : e.p ≠ packet)
    (l : List (ObfuscationEntry P)) : mine packet (e :: l) = mine packet l :=
  List.filter_cons_of_neg (by simpa using h)

theorem mine_cons_of_eq {packet : P} {e : ObfuscationEntry P} (h : e.p = packet)
    (l : List (ObfuscationEntry P)) : mine packet (e :: l) = e :: mine packet l :=
  List.filter_cons_of_pos (by simpa using h)

end Entry

/-! ### The two kinds of calls -/

section Parts

variable {P : Type*}
variable {packet : P} {payload : List UInt8} {base o n : ℕ}
variable {e : ObfuscationEntry P} {l : List (ObfuscationEntry P)}

/-- The call for a part that is not obfuscated. -/
def dataCall (payload : List UInt8) (o n : ℕ) : Call := ⟨false, some (payload.drop o), n, 0⟩

/-- The call for a part of an entry. -/
def hideCall (e : ObfuscationEntry P) (n : ℕ) : Call := ⟨false, none, n, e.obChar⟩

theorem dataCall_part (hn : 0 < n) (hle : o + n ≤ payload.length) : (dataCall payload o n).Part where
  pkth := rfl
  pos := hn
  le := by
    rintro d ⟨⟩
    rw [List.length_drop]
    show n ≤ _
    omega

theorem hideCall_part (hn : 0 < n) : (hideCall e n).Part where
  pkth := rfl
  pos := hn
  le := by rintro d ⟨⟩

theorem dataCall_out (hle : o + n ≤ payload.length)
    (hnone : ∀ j < n, Sweep.decider ObfuscationEntry.start ObfuscationEntry.stop l (base + o + j) =
      none) :
    (dataCall payload o n).out = readBuf (outAt l payload base) (base + o) n := by
  apply List.ext_getElem
  · simp [dataCall, Call.out]
    omega
  · intro j h1 h2
    rw [length_readBuf] at h2
    have hj : base + o + j - base = o + j := by omega
    simp only [dataCall, Call.out, List.getElem_map, List.getElem_take, List.getElem_drop, readBuf,
      List.getElem_range, outAt, hnone j h2, hj]
    rw [← List.getElem_eq_getD]

theorem hideCall_out (hcov : ∀ j < n, Sweep.Covers ObfuscationEntry.start ObfuscationEntry.stop e
      (base + o + j)) :
    (hideCall e n).out = readBuf (outAt (e :: l) payload base) (base + o) n := by
  symm
  apply readBuf_eq_replicate
  intro j hj
  unfold outAt
  rw [Sweep.decider_cons_of_covers (hcov j hj)]
  rfl

variable {σ : Type} (callback : Callback σ) (d : σ)

theorem logData_eq (hbase : base + payload.length < 65536) (hle : o + n ≤ payload.length) :
    logData callback payload n ⟨false, base + o, o, d⟩ =
      (callback (dataCall payload o n) d).bind fun d => some ⟨false, base + (o + n), o + n, d⟩ := by
  have h1 : u16 ((base + o : ℕ) + (n : ℕ)) = base + (o + n) := u16_of_eq (by push_cast; ring) (by omega)
  have h2 : u16 ((o : ℕ) + (n : ℕ)) = o + n := u16_of_eq (by push_cast; ring) (by omega)
  simp only [logData, h1, h2]
  rfl

theorem hideData_eq {L : ℕ} (hbase : base + payload.length < 65536) (hL : 0 < L)
    (ho : o ≤ payload.length) :
    hideData callback payload.length e L ⟨false, base + o, o, d⟩ =
      (callback (hideCall e (min L (payload.length - o))) d).bind fun d =>
        some ⟨false, base + (o + min L (payload.length - o)), o + min L (payload.length - o), d⟩ := by
  have hn : (if payload.length < o + L ∨ o + L ≤ o then u16 ((payload.length : ℤ) - o) else L) =
      min L (payload.length - o) := by
    split
    · rw [u16_of_eq (n := payload.length - o) (by push_cast [ho]; ring) (by omega)]
      omega
    · omega
  have h1 : u16 ((base + o : ℕ) + (min L (payload.length - o) : ℕ)) =
      base + (o + min L (payload.length - o)) := u16_of_eq (by push_cast; ring) (by omega)
  have h2 : u16 ((o : ℕ) + (min L (payload.length - o) : ℕ)) = o + min L (payload.length - o) :=
    u16_of_eq (by push_cast; ring) (by omega)
  simp only [hideData, hn, h1, h2]
  rfl

end Parts

/-! ### Runs of the loop -/

variable {P : Type*} [DecidableEq P]

/-- What a run `f` of the loop over `l` does from the index `i` and the payload offset `o` on: it makes
the calls and ends at `i'` and `o'`. -/
structure Walk (packet : P) (payload : List UInt8) (base : ℕ) (l : List (ObfuscationEntry P))
    (i o : ℕ) (f : ∀ σ : Type, Callback σ → σ → Option (ℕ × Traverse σ)) (calls : List Call)
    (i' o' : ℕ) : Prop where
  run : ∀ σ callback d, f σ callback d =
    (runCalls callback calls d).map fun d => (i', ⟨false, base + o', o', d⟩)
  le : o ≤ o'
  le_size : o' ≤ payload.length
  out : calls.flatMap Call.out = readBuf (outAt (mine packet l) payload base) (base + o) (o' - o)
  parts : ∀ c ∈ calls, c.Part
  rest : o' = payload.length ∨ ∀ e ∈ mine packet l, e.stop ≤ base + o'
  index : i ≤ i'
  passed : ∀ e ∈ mine packet (l.take (i' - i)), e.stop ≤ base + o'

section Walk

variable {packet : P} {payload : List UInt8} {base i i' o o' : ℕ}
variable {e : ObfuscationEntry P} {l : List (ObfuscationEntry P)} {calls : List Call}
variable {f g : ∀ σ : Type, Callback σ → σ → Option (ℕ × Traverse σ)}

theorem Walk.congr (h : Walk packet payload base l i o f calls i' o')
    (hfg : ∀ σ callback d, g σ callback d = f σ callback d) :
    Walk packet payload base l i o g calls i' o' :=
  { h with run := fun σ callback d => (hfg σ callback d).trans (h.run σ callback d) }

/-- The end of the list. -/
theorem Walk.nil (ho : o ≤ payload.length) :
    Walk packet payload base [] i o (fun _ _ d => some (i, ⟨false, base + o, o, d⟩)) [] i o where
  run := fun _ _ _ => rfl
  le := le_rfl
  le_size := ho
  out := by rw [Nat.sub_self]; rfl
  parts := by simp
  rest := Or.inr (by simp)
  index := le_rfl
  passed := by simp

/-- The end of the payload. -/
theorem Walk.done :
    Walk packet payload base l i payload.length
      (fun _ _ d => some (i, ⟨false, base + payload.length, payload.length, d⟩)) [] i
      payload.length where
  run := fun _ _ _ => rfl
  le := le_rfl
  le_size := le_rfl
  out := by rw [Nat.sub_self]; rfl
  parts := by simp
  rest := Or.inl rfl
  index := le_rfl
  passed := by simp

/-- An entry of another packet, or one that ends in front of the offset, is passed over. -/
theorem Walk.skip (h : Walk packet payload base l (i + 1) o f calls i' o')
    (he : e.p = packet → e.stop ≤ base + o) :
    Walk packet payload base (e :: l) i o f calls i' o' := by
  have hi : i' - i = (i' - (i + 1)) + 1 := by have := h.index; omega
  by_cases hp : e.p = packet
  · have hstop := he hp
    have hle := h.le
    refine ⟨h.run, h.le, h.le_size, ?_, h.parts, ?_, Nat.le_of_succ_le h.index, ?_⟩
    · rw [h.out, mine_cons_of_eq hp]
      apply readBuf_congr
      intro j _
      unfold outAt
      rw [Sweep.decider_cons_of_le (by omega)]
    · refine h.rest.imp_right fun hrest f hf => ?_
      rw [mine_cons_of_eq hp] at hf
      rcases List.mem_cons.1 hf with rfl | hf
      · omega
      · exact hrest f hf
    · intro f hf
      rw [hi, List.take_succ_cons, mine_cons_of_eq hp] at hf
      rcases List.mem_cons.1 hf with rfl | hf
      · omega
      · exact h.passed f hf
  · refine ⟨h.run, h.le, h.le_size, ?_, h.parts, ?_, Nat.le_of_succ_le h.index, ?_⟩
    · rw [h.out, mine_cons_of_ne hp]
    · rw [mine_cons_of_ne hp]
      exact h.rest
    · rw [hi, List.take_succ_cons, mine_cons_of_ne hp]
      exact h.passed

/-- A call in front of the others. -/
theorem Walk.prepend {n : ℕ} {c : Call} (h : Walk packet payload base l i (o + n) f calls i' o')
    (hc : c.Part) (hout : c.out = readBuf (outAt (mine packet l) payload base) (base + o) n) :
    Walk packet payload base l i o (fun σ callback d => (callback c d).bind (f σ callback))
      (c :: calls) i' o' := by
  have hle := h.le
  refine ⟨fun σ callback d => ?_, by omega, h.le_size, ?_, ?_, h.rest, h.index, h.passed⟩
  · rw [runCalls, List.foldlM_cons]
    cases callback c d with
    | none => rfl
    | some d => exact h.run σ callback d
  · have hn : o' - o = n + (o' - (o + n)) := by omega
    rw [List.flatMap_cons, hout, h.out, hn, readBuf_add, Nat.add_assoc]
  · intro c' hc'
    rcases List.mem_cons.1 hc' with rfl | hc'
    · exact hc
    · exact h.parts c' hc'

end Walk

/-! ### The loop -/

variable {packet : P} {payload : List UInt8} {base : ℕ}

/-- The part of an entry that is left, and the entries behind. -/
theorem hide_walk {e : ObfuscationEntry P} {l : List (ObfuscationEntry P)} {i o L : ℕ}
    (hbase : base + payload.length < 65536) (hp : e.p = packet) (ho : o < payload.length)
    (hstart : e.start ≤ base + o) (hL : base + o + L = e.stop) (hpos : 0 < L)
    (hrec : ∀ o', o' < payload.length → ∃ calls i₁ o₁, Walk packet payload base l (i + 1) o'
      (fun _ callback d => traverseLoop callback packet payload payload.length l (i + 1)
        ⟨false, base + o', o', d⟩) calls i₁ o₁) :
    ∃ calls i₁ o₁, Walk packet payload base (e :: l) i o
      (fun _ callback d => (hideData callback payload.length e L ⟨false, base + o, o, d⟩).bind fun t =>
        if t.payloadOffset = payload.length then some (i, t)
        else traverseLoop callback packet payload payload.length l (i + 1) t) calls i₁ o₁ := by
  have hmin : 0 < min L (payload.length - o) := by omega
  have hcov : ∀ j < min L (payload.length - o),
      Sweep.Covers ObfuscationEntry.start ObfuscationEntry.stop e (base + o + j) := by
    intro j hj
    exact ⟨by omega, by omega⟩
  have hout : (hideCall e (min L (payload.length - o))).out =
      readBuf (outAt (mine packet (e :: l)) payload base) (base + o) (min L (payload.length - o)) := by
    rw [mine_cons_of_eq hp]
    exact hideCall_out hcov
  by_cases hend : o + min L (payload.length - o) = payload.length
  · -- the entry reaches the end of the payload
    have hdone : Walk packet payload base (e :: l) i (o + min L (payload.length - o))
        (fun _ _ d => some (i, ⟨false, base + payload.length, payload.length, d⟩)) [] i
        payload.length := by
      rw [hend]
      exact Walk.done
    refine ⟨_, _, _, (hdone.prepend (hideCall_part hmin) hout).congr fun σ callback d => ?_⟩
    rw [hideData_eq callback d hbase hpos ho.le, hend]
    cases callback (hideCall e (min L (payload.length - o))) d with
    | none => rfl
    | some d => exact if_pos rfl
  · obtain ⟨calls, i₁, o₁, hwalk⟩ := hrec (o + min L (payload.length - o)) (by omega)
    have hskip := hwalk.skip (e := e) fun _ => by omega
    refine ⟨_, _, _, (hskip.prepend (hideCall_part hmin) hout).congr fun σ callback d => ?_⟩
    rw [hideData_eq callback d hbase hpos ho.le]
    cases callback (hideCall e (min L (payload.length - o))) d with
    | none => rfl
    | some d => exact if_neg hend

theorem traverseLoop_walk (hbase : base + payload.length < 65536) (l : List (ObfuscationEntry P))
    (hl : ∀ e ∈ l, e.p = packet → e.length ≠ 0) :
    ∀ i o, o < payload.length → ∃ calls i' o', Walk packet payload base l i o
      (fun _ callback d => traverseLoop callback packet payload payload.length l i
        ⟨false, base + o, o, d⟩) calls i' o' := by
  induction l with
  | nil => exact fun i o ho => ⟨_, _, _, Walk.nil ho.le⟩
  | cons e l ih =>
    intro i o ho
    have hrec := fun o' => ih (fun e he => hl e (List.mem_cons_of_mem _ he)) (i + 1) o'
    have hstop : e.stop = e.offset.toNat + e.length.toNat := rfl
    have hstart : e.start = e.offset.toNat := rfl
    by_cases hp : e.p = packet
    · have hlen : 0 < e.length.toNat := by
        refine Nat.pos_of_ne_zero fun h0 => hl e List.mem_cons_self hp ?_
        exact UInt16.toNat_inj.1 h0
      by_cases hdone : e.stop ≤ base + o
      · -- this part of the payload is obfuscated already
        obtain ⟨calls, i', o', hwalk⟩ := hrec o ho
        refine ⟨calls, i', o', (hwalk.skip fun _ => hdone).congr fun σ callback d => ?_⟩
        rw [traverseLoop, if_neg (not_not_intro hp)]
        exact if_pos ⟨hdone, by omega⟩
      · by_cases hlt : base + o < e.start
        · -- the data in front of the entry
          have hn : (if ((payload.length : ℕ) : ℤ) - (o : ℕ) < (u16 (e.offset.toNat - (base + o : ℕ)) : ℕ)
              then u16 ((payload.length : ℤ) - (o : ℕ)) else u16 (e.offset.toNat - (base + o : ℕ))) =
              min (e.start - (base + o)) (payload.length - o) := by
            rw [u16_of_eq (n := e.start - (base + o)) (by omega)
              (by have := e.offset.toNat_lt; omega)]
            split
            · rw [u16_of_eq (n := payload.length - o) (by omega) (by omega)]
              omega
            · omega
          have hpart : (dataCall payload o (min (e.start - (base + o)) (payload.length - o))).Part :=
            dataCall_part (by omega) (by omega)
          have hout : (dataCall payload o (min (e.start - (base + o)) (payload.length - o))).out =
              readBuf (outAt (mine packet (e :: l)) payload base) (base + o)
                (min (e.start - (base + o)) (payload.length - o)) := by
            rw [mine_cons_of_eq hp]
            refine dataCall_out (by omega) fun j hj => ?_
            exact Sweep.decider_cons_of_lt (by omega) (by omega)
          have hloop : ∀ σ (callback : Callback σ) d, traverseLoop callback packet payload
              payload.length (e :: l) i ⟨false, base + o, o, d⟩ =
              (callback (dataCall payload o (min (e.start - (base + o)) (payload.length - o))) d).bind
                fun d => if o + min (e.start - (base + o)) (payload.length - o) = payload.length then
                  some (i, ⟨false, base + (o + min (e.start - (base + o)) (payload.length - o)),
                    o + min (e.start - (base + o)) (payload.length - o), d⟩)
                else (hideData callback payload.length e e.length.toNat
                  ⟨false, base + (o + min (e.start - (base + o)) (payload.length - o)),
                    o + min (e.start - (base + o)) (payload.length - o), d⟩).bind fun t =>
                    if t.payloadOffset = payload.length then some (i, t)
                    else traverseLoop callback packet payload payload.length l (i + 1) t := by
            intro σ callback d
            rw [traverseLoop, if_neg (not_not_intro hp)]
            simp only
            rw [if_neg fun h => hdone h.1, if_pos (show base + o < e.offset.toNat from hlt), hn, logData_eq callback d hbase (by omega)]
            cases callback (dataCall payload o (min (e.start - (base + o)) (payload.length - o))) d with
            | none => rfl
            | some d => rfl
          by_cases hend : o + min (e.start - (base + o)) (payload.length - o) = payload.length
          · have hwalk : Walk packet payload base (e :: l) i
                (o + min (e.start - (base + o)) (payload.length - o))
                (fun _ _ d => some (i, ⟨false, base + payload.length, payload.length, d⟩)) [] i
                payload.length := by
              rw [hend]
              exact Walk.done
            refine ⟨_, _, _, (hwalk.prepend hpart hout).congr fun σ callback d => ?_⟩
            rw [hloop, hend]
            simp only [if_true]
          · obtain ⟨calls, i', o', hwalk⟩ := hide_walk (e := e) (l := l) (i := i)
              (o := o + min (e.start - (base + o)) (payload.length - o)) (L := e.length.toNat) hbase hp
              (by omega) (by omega) (by omega) hlen hrec
            refine ⟨_, _, _, (hwalk.prepend hpart hout).congr fun σ callback d => ?_⟩
            rw [hloop]
            simp only [if_neg hend]
        · -- the entry starts at the offset, or in front of it
          have hL : (if e.offset.toNat < base + o then
              u16 ((e.length.toNat : ℕ) - ((base + o : ℕ) - (e.offset.toNat : ℕ))) else e.length.toNat) =
              e.stop - (base + o) := by
            split
            · exact u16_of_eq (by omega) (by have := e.length.toNat_lt; omega)
            · omega
          obtain ⟨calls, i', o', hwalk⟩ := hide_walk (e := e) (l := l) (i := i) (o := o)
            (L := e.stop - (base + o)) hbase hp ho (by omega) (by omega) (by omega) hrec
          refine ⟨calls, i', o', hwalk.congr fun σ callback d => ?_⟩
          rw [traverseLoop, if_neg (not_not_intro hp)]
          simp only
          rw [if_neg fun h => hdone h.1, if_neg (show ¬base + o < e.offset.toNat from hlt), hL]
          rfl
    · obtain ⟨calls, i', o', hwalk⟩ := hrec o ho
      refine ⟨calls, i', o', (hwalk.skip fun h => absurd h hp).congr fun σ callback d => ?_⟩
      rw [traverseLoop, if_pos hp]

/-! ### A payload -/

/-- **The calls for a payload** that starts at `base`, from the entry `idx` on: what they hand over, and
where they leave the walk. -/
theorem traverseObfuscationList_calls (ob : ObfuscationStruct P) (hne : payload ≠ [])
    (hbase : base + payload.length < 65536) {idx : ℕ}
    (hl : ∀ e ∈ ob.listed, e.p = packet → e.length ≠ 0)
    (hpassed : ∀ e ∈ mine packet (ob.listed.take idx), e.stop ≤ base) :
    ∃ calls i', (∀ (σ : Type) (callback : Callback σ) d,
      traverseObfuscationList ob callback packet ⟨idx, base⟩ false payload payload.length d =
        (runCalls callback calls d).map fun d => (⟨i', base + payload.length⟩, d)) ∧
      (∀ c ∈ calls, c.Part) ∧
      calls.flatMap Call.out =
        readBuf (outAt (mine packet ob.listed) payload base) base payload.length ∧
      ∀ e ∈ mine packet (ob.listed.take i'), e.stop ≤ base + payload.length := by
  have hlen : 0 < payload.length := List.length_pos_iff.2 hne
  have hl' : ∀ e ∈ ob.listed.drop idx, e.p = packet → e.length ≠ 0 :=
    fun e he => hl e (List.mem_of_mem_drop he)
  obtain ⟨calls, i', o', hwalk⟩ := traverseLoop_walk hbase _ hl' idx 0 hlen
  -- the entries in front of the index play no part
  have hout : ∀ n, readBuf (outAt (mine packet ob.listed) payload base) base n =
      readBuf (outAt (mine packet (ob.listed.drop idx)) payload base) base n := by
    intro n
    apply readBuf_congr
    intro j _
    have hsplit : mine packet ob.listed =
        mine packet (ob.listed.take idx) ++ mine packet (ob.listed.drop idx) := by
      rw [mine, mine, mine, ← List.filter_append, List.take_append_drop]
    unfold outAt
    rw [hsplit, Sweep.decider_append_of_le fun e he => by have := hpassed e he; omega]
  have hpassed' : ∀ e ∈ mine packet (ob.listed.take i'), e.stop ≤ base + payload.length := by
    intro e he
    have hi : ob.listed.take i' = ob.listed.take idx ++ (ob.listed.drop idx).take (i' - idx) := by
      rw [← List.take_add, Nat.add_sub_cancel' hwalk.index]
    rw [hi, mine, List.filter_append] at he
    have hle := hwalk.le_size
    rcases List.mem_append.1 he with he | he
    · have := hpassed e he
      omega
    · have := hwalk.passed e he
      omega
  rw [hout]
  by_cases hend : o' = payload.length
  · refine ⟨calls, i', fun σ callback d => ?_, hwalk.parts, ?_, hpassed'⟩
    · have hrun := hwalk.run σ callback d
      rw [Nat.add_zero] at hrun
      rw [traverseObfuscationList, if_neg (by omega)]
      simp only [hrun]
      cases runCalls callback calls d with
      | none => rfl
      | some d => simp [hend]
    · rw [hwalk.out, hend]
      rfl
  · -- the data behind the last entry
    have hle := hwalk.le_size
    have hrest := hwalk.rest.resolve_left hend
    refine ⟨calls ++ [dataCall payload o' (payload.length - o')], i', fun σ callback d => ?_, ?_, ?_,
      hpassed'⟩
    · have hn : u16 ((payload.length : ℕ) - (o' : ℕ)) = payload.length - o' :=
        u16_of_eq (by omega) (by omega)
      have hrun := hwalk.run σ callback d
      rw [Nat.add_zero] at hrun
      rw [traverseObfuscationList, if_neg (by omega)]
      simp only [hrun]
      rw [runCalls, runCalls, List.foldlM_append]
      cases calls.foldlM (fun d c => callback c d) d with
      | none => rfl
      | some d =>
        have hlt : o' < payload.length := by omega
        simp only [Option.map_some, Option.bind_eq_bind, Option.bind_some, if_pos hlt, hn,
          List.foldlM_cons, List.foldlM_nil]
        rw [logData_eq callback d hbase (by omega), Nat.add_sub_cancel' hle]
        cases callback (dataCall payload o' (payload.length - o')) d with
        | none => rfl
        | some d => rfl
    · intro c hc
      rcases List.mem_append.1 hc with hc | hc
      · exact hwalk.parts c hc
      · rw [List.mem_singleton.1 hc]
        exact dataCall_part (by omega) (by omega)
    · have hn : payload.length = (o' - 0) + (payload.length - o') := by omega
      rw [List.flatMap_append, hwalk.out]
      conv_rhs => rw [hn, readBuf_add]
      congr 1
      rw [List.flatMap_singleton, Nat.sub_zero]
      refine dataCall_out (by omega) fun j hj => ?_
      apply Sweep.decider_eq_none
      rintro e he ⟨-, hk⟩
      have := hrest e he
      omega

end Snort.Obfuscation
