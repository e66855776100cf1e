import Snort.Obfuscation.Traverse

/-!
# The entries of a run

Between two resets entries are added and obfuscated payloads are asked for, in any order and for any
packets.  The run records which entries have been accepted.

* `Op`, `State`, `step`, `run`;
* `Recorded`: the arrays stand for the entries accepted so far; an entry of maximal length may be
  represented by one that starts earlier;
* **`recorded_run`**: this holds after every run;
* **`sorted_listed`**: the order in which a payload is gone through, if the sorted array is not stale.
-/

namespace Snort.Obfuscation

/-- What happens between two resets. -/
inductive Op (P : Type*)
  | add (p : P) (offset length : UInt16) (obChar : UInt8)
  | get (p : P) (header payload : List UInt8)

/-- The arrays, the flags `PKT_PAYLOAD_OBFUSCATE` of the packets, and the entries accepted so far. -/
structure State (P : Type*) where
  ob : ObfuscationStruct P
  obfuscate : P → Bool
  added : List (ObfuscationEntry P)

variable {P : Type*}

/-- The packet at an address, with the flag it has. -/
def State.packet (s : State P) (p : P) (header payload : List UInt8) : Packet P :=
  ⟨p, header, payload, s.obfuscate p⟩

/-! ### What the arrays stand for -/

/-- The state behind `OB_API_ResetObfuscationEntries`. -/
def start (ob : ObfuscationStruct P) (obfuscate : P → Bool) : State P :=
  ⟨resetObfuscationEntries ob, obfuscate, []⟩

/-- The entry `f` stands for `e`: it is this entry, or both are of maximal length and it does not start
behind `e`. -/
def Represents (f e : ObfuscationEntry P) : Prop :=
  f.p = e.p ∧ (f = e ∨ f.length = obLengthMax ∧ e.length = obLengthMax ∧
    f.offset.toNat ≤ e.offset.toNat)

theorem Represents.refl (e : ObfuscationEntry P) : Represents e e := ⟨rfl, Or.inl rfl⟩

theorem Represents.covers {f e : ObfuscationEntry P} (h : Represents f e) {k : ℕ} (hk : e.Covers k) :
    f.Covers k := by
  rcases h.2 with rfl | ⟨hf, -, hle⟩
  · exact hk
  · exact ⟨hle.trans hk.1, Or.inl hf⟩

/-- The arrays stand for the entries accepted so far. -/
structure Recorded (s : State P) : Prop where
  perm : s.ob.sortEntries.Perm (List.range s.ob.numEntries)
  maxlen : ∀ i ∈ s.ob.maxlenEntries, i < s.ob.numEntries ∧ (s.ob.entries i).length = obLengthMax
  accepted : ∀ i < s.ob.numEntries, s.ob.entries i ∈ s.added
  represented : ∀ e ∈ s.added, ∃ i < s.ob.numEntries, Represents (s.ob.entries i) e
  flagged : ∀ e ∈ s.added, s.obfuscate e.p = true

theorem recorded_start (ob : ObfuscationStruct P) (obfuscate : P → Bool) :
    Recorded (start ob obfuscate) where
  perm := .refl _
  maxlen i hi := absurd hi (by simp [start, resetObfuscationEntries])
  accepted i hi := absurd hi (by simp [start, resetObfuscationEntries, ObfuscationStruct.numEntries])
  represented e he := absurd he (by simp [start])
  flagged e he := absurd he (by simp [start])

theorem mem_listed {s : State P} (h : Recorded s) {e : ObfuscationEntry P} :
    e ∈ s.ob.listed ↔ ∃ i < s.ob.numEntries, s.ob.entries i = e := by
  unfold ObfuscationStruct.listed
  rw [List.mem_map]
  constructor
  · rintro ⟨i, hi, rfl⟩
    exact ⟨i, List.mem_range.1 (h.perm.mem_iff.1 hi), rfl⟩
  · rintro ⟨i, hi, rfl⟩
    exact ⟨i, h.perm.mem_iff.2 (List.mem_range.2 hi), rfl⟩

theorem obfuscationEntrySort_le (a b : ObfuscationEntry P) :
    obfuscationEntrySort a b ≤ 0 ↔ a.offset.toNat < b.offset.toNat ∨
      a.offset.toNat = b.offset.toNat ∧ a.length.toNat ≤ b.length.toNat := by
  unfold obfuscationEntrySort
  simp only [UInt16.lt_iff_toNat_lt]
  split_ifs <;> omega

variable (Q : Qsort)

theorem sort_entries (ob : ObfuscationStruct P) :
    (sortObfuscationEntries Q ob).entries = ob.entries ∧
      (sortObfuscationEntries Q ob).maxlenEntries = ob.maxlenEntries ∧
      (sortObfuscationEntries Q ob).sortEntries.Perm ob.sortEntries := by
  unfold sortObfuscationEntries
  split
  · exact ⟨rfl, rfl, .refl _⟩
  · exact ⟨rfl, rfl, Q.perm ..⟩

theorem sort_numEntries (ob : ObfuscationStruct P) :
    (sortObfuscationEntries Q ob).numEntries = ob.numEntries :=
  (sort_entries Q ob).2.2.length_eq

theorem Recorded.sort {s : State P} (h : Recorded s) :
    Recorded { s with ob := sortObfuscationEntries Q s.ob } := by
  obtain ⟨hentries, hmaxlen, hperm⟩ := sort_entries Q s.ob
  have hnum := sort_numEntries Q s.ob
  refine ⟨?_, ?_, ?_, ?_, h.flagged⟩
  · show (sortObfuscationEntries Q s.ob).sortEntries.Perm _
    rw [hnum]
    exact hperm.trans h.perm
  · show ∀ i ∈ (sortObfuscationEntries Q s.ob).maxlenEntries, _
    rw [hmaxlen, hnum, hentries]
    exact h.maxlen
  · show ∀ i < (sortObfuscationEntries Q s.ob).numEntries, _
    rw [hnum, hentries]
    exact h.accepted
  · show ∀ e ∈ s.added, ∃ i < (sortObfuscationEntries Q s.ob).numEntries, _
    rw [hnum, hentries]
    exact h.represented

/-! ### Runs -/

variable [DecidableEq P]

def State.add (s : State P) (p : P) (offset length : UInt16) (obChar : UInt8) : State P where
  ob := (obAddObfuscationEntry s.ob (s.packet p [] []) offset length obChar).1.1
  obfuscate := Function.update s.obfuscate p
    (obAddObfuscationEntry s.ob (s.packet p [] []) offset length obChar).2.obfuscate
  added :=
    if (obAddObfuscationEntry s.ob (s.packet p [] []) offset length obChar).1.2 = .success then
      s.added ++ [⟨p, offset, length, obChar⟩]
    else s.added

def step (s : State P) : Op P → State P
  | .add p offset length obChar => s.add p offset length obChar
  | .get p header payload =>
    { s with ob := (getObfuscatedPayload Q s.ob (s.packet p header payload)).1 }

def run (s : State P) (ops : List (Op P)) : State P := ops.foldl (step Q) s

/-! ### Adding an entry -/

theorem findMaxlen_spec {ob : ObfuscationStruct P} {p : P} {i : ℕ} (h : findMaxlen ob p = some i) :
    i ∈ ob.maxlenEntries ∧ (ob.entries i).p = p :=
  ⟨List.mem_of_find?_eq_some h, by simpa using List.find?_some h⟩

/-- What adding an entry does: an entry of maximal length is lowered, or found not to start behind the
new one; or there is no room; or the entry is appended. -/
theorem addObfuscationEntry_cases (ob : ObfuscationStruct P) (p : P) (offset length : UInt16)
    (obChar : UInt8) :
    (∃ i ∈ ob.maxlenEntries, (ob.entries i).p = p ∧ length = obLengthMax ∧
      (offset < (ob.entries i).offset ∧
        addObfuscationEntry ob p offset length obChar = (lowerEntry ob i offset obChar, .success) ∨
      ¬offset < (ob.entries i).offset ∧
        addObfuscationEntry ob p offset length obChar = (ob, .success))) ∨
    addObfuscationEntry ob p offset length obChar = (ob, .overflow) ∨
    addObfuscationEntry ob p offset length obChar =
      (appendEntry ob p offset length obChar, .success) := by
  unfold addObfuscationEntry
  cases hfind : (if length = obLengthMax then findMaxlen ob p else none) with
  | some i =>
    left
    by_cases hlen : length = obLengthMax
    · rw [if_pos hlen] at hfind
      obtain ⟨hmem, hp⟩ := findMaxlen_spec hfind
      refine ⟨i, hmem, hp, hlen, ?_⟩
      by_cases hlt : offset < (ob.entries i).offset
      · exact Or.inl ⟨hlt, if_pos hlt⟩
      · exact Or.inr ⟨hlt, if_neg hlt⟩
    · rw [if_neg hlen] at hfind
      cases hfind
  | none =>
    right
    by_cases hover : obfuscationEntryOverflow ob length ≠ .success
    · exact Or.inl (if_pos hover)
    · exact Or.inr (if_neg hover)

section Add

variable {s : State P} {p : P} {offset length : UInt16} {obChar : UInt8}

theorem State.add_eq {ob : ObfuscationStruct P} {ret : ObRet}
    (h : addObfuscationEntry s.ob p offset length obChar = (ob, ret)) :
    s.add p offset length obChar = ⟨ob, Function.update s.obfuscate p true,
      if ret = .success then s.added ++ [⟨p, offset, length, obChar⟩] else s.added⟩ := by
  simp only [State.add, obAddObfuscationEntry, State.packet, h]

theorem flagged_update (h : ∀ e ∈ s.added, s.obfuscate e.p = true) :
    ∀ e ∈ s.added ++ [⟨p, offset, length, obChar⟩],
      Function.update s.obfuscate p true e.p = true := by
  intro e he
  by_cases hp : e.p = p
  · rw [hp, Function.update_self]
  · rw [Function.update_of_ne hp]
    rcases List.mem_append.1 he with he | he
    · exact h e he
    · rw [List.mem_singleton.1 he] at hp
      exact absurd rfl hp

theorem Recorded.append (h : Recorded s) :
    Recorded ⟨appendEntry s.ob p offset length obChar, Function.update s.obfuscate p true,
      s.added ++ [⟨p, offset, length, obChar⟩]⟩ := by
  have hnum : (appendEntry s.ob p offset length obChar).numEntries = s.ob.numEntries + 1 := by
    simp [appendEntry, ObfuscationStruct.numEntries]
  have hold : ∀ i < s.ob.numEntries,
      (appendEntry s.ob p offset length obChar).entries i = s.ob.entries i :=
    fun i hi => Function.update_of_ne (by omega) ..
  have hnew : (appendEntry s.ob p offset length obChar).entries s.ob.numEntries =
      ⟨p, offset, length, obChar⟩ := Function.update_self ..
  refine ⟨?_, ?_, ?_, ?_, flagged_update h.flagged⟩
  · rw [hnum, List.range_succ]
    exact h.perm.append_right _
  · intro i hi
    have hi' : i ∈ s.ob.maxlenEntries ∨ i = s.ob.numEntries ∧ length = obLengthMax := by
      by_cases hlen : length = obLengthMax
      · have hmem : i ∈ s.ob.maxlenEntries ++ [s.ob.numEntries] := by
          simpa only [appendEntry, if_pos hlen] using hi
        rcases List.mem_append.1 hmem with hmem | hmem
        · exact Or.inl hmem
        · exact Or.inr ⟨List.mem_singleton.1 hmem, hlen⟩
      · exact Or.inl (by simpa only [appendEntry, if_neg hlen] using hi)
    rcases hi' with hi' | ⟨rfl, hlen⟩
    · obtain ⟨hlt, hmax⟩ := h.maxlen i hi'
      exact ⟨by rw [hnum]; omega, by rw [hold i hlt]; exact hmax⟩
    · exact ⟨by rw [hnum]; omega, by rw [hnew]; exact hlen⟩
  · intro i hi
    rw [hnum] at hi
    rcases Nat.lt_succ_iff_lt_or_eq.1 hi with hlt | rfl
    · exact List.mem_append_left _ (by rw [hold i hlt]; exact h.accepted i hlt)
    · exact List.mem_append_right _ (by rw [hnew]; exact List.mem_singleton_self _)
  · intro e he
    rcases List.mem_append.1 he with he | he
    · obtain ⟨i, hi, hrep⟩ := h.represented e he
      exact ⟨i, by rw [hnum]; omega, by rw [hold i hi]; exact hrep⟩
    · refine ⟨s.ob.numEntries, by rw [hnum]; omega, ?_⟩
      rw [hnew, List.mem_singleton.1 he]
      exact .refl _

theorem Recorded.lower (h : Recorded s) {i : ℕ} (hi : i ∈ s.ob.maxlenEntries)
    (hp : (s.ob.entries i).p = p) (hlt : offset < (s.ob.entries i).offset) :
    Recorded ⟨lowerEntry s.ob i offset obChar, Function.update s.obfuscate p true,
      s.added ++ [⟨p, offset, obLengthMax, obChar⟩]⟩ := by
  obtain ⟨hlt', hmax⟩ := h.maxlen i hi
  have hold : ∀ j, j ≠ i → (lowerEntry s.ob i offset obChar).entries j = s.ob.entries j :=
    fun j hj => Function.update_of_ne hj ..
  have hnew : (lowerEntry s.ob i offset obChar).entries i = ⟨p, offset, obLengthMax, obChar⟩ := by
    show Function.update s.ob.entries i _ i = _
    rw [Function.update_self, ← hp, ← hmax]
  refine ⟨h.perm, ?_, ?_, ?_, flagged_update h.flagged⟩
  · intro j hj
    refine ⟨(h.maxlen j hj).1, ?_⟩
    by_cases hji : j = i
    · rw [hji, hnew]
    · rw [hold j hji]
      exact (h.maxlen j hj).2
  · intro j hj
    by_cases hji : j = i
    · rw [hji, hnew]
      exact List.mem_append_right _ (List.mem_singleton_self _)
    · rw [hold j hji]
      exact List.mem_append_left _ (h.accepted j hj)
  · intro e he
    rcases List.mem_append.1 he with he | he
    · obtain ⟨j, hj, hrep⟩ := h.represented e he
      refine ⟨j, hj, ?_⟩
      by_cases hji : j = i
      · subst hji
        rw [hnew]
        have hle : offset.toNat ≤ (s.ob.entries j).offset.toNat :=
          (UInt16.lt_iff_toNat_lt.1 hlt).le
        refine ⟨hp.symm.trans hrep.1, Or.inr ?_⟩
        rcases hrep.2 with heq | ⟨-, he', hle'⟩
        · exact ⟨rfl, heq ▸ hmax, heq ▸ hle⟩
        · exact ⟨rfl, he', hle.trans hle'⟩
      · rw [hold j hji]
        exact hrep
    · refine ⟨i, hlt', ?_⟩
      rw [hnew, List.mem_singleton.1 he]
      exact .refl _

theorem Recorded.add (h : Recorded s) : Recorded (s.add p offset length obChar) := by
  rcases addObfuscationEntry_cases s.ob p offset length obChar with
    ⟨i, hi, hp, hlen, ⟨hlt, heq⟩ | ⟨hlt, heq⟩⟩ | heq | heq
  · rw [State.add_eq heq, if_pos rfl, hlen]
    exact h.lower hi hp hlt
  · -- the entry that is there starts no later
    rw [State.add_eq heq, if_pos rfl]
    refine ⟨h.perm, h.maxlen, fun j hj => List.mem_append_left _ (h.accepted j hj), ?_,
      flagged_update h.flagged⟩
    intro e he
    rcases List.mem_append.1 he with he | he
    · exact h.represented e he
    · refine ⟨i, (h.maxlen i hi).1, ?_⟩
      rw [List.mem_singleton.1 he]
      refine ⟨hp, Or.inr ⟨(h.maxlen i hi).2, hlen, ?_⟩⟩
      rw [UInt16.lt_iff_toNat_lt] at hlt
      exact Nat.le_of_not_lt hlt
  · rw [State.add_eq heq, if_neg (by simp)]
    refine ⟨h.perm, h.maxlen, h.accepted, h.represented, fun e he => ?_⟩
    by_cases hp : e.p = p
    · exact hp ▸ Function.update_self ..
    · exact (Function.update_of_ne hp ..).trans (h.flagged e he)
  · rw [State.add_eq heq, if_pos rfl]
    exact h.append

end Add

/-! ### Every run -/

theorem getObfuscatedPayload_fst (ob : ObfuscationStruct P) (p : Packet P) :
    (getObfuscatedPayload Q ob p).1 = ob ∨
      (getObfuscatedPayload Q ob p).1 = sortObfuscationEntries Q ob := by
  unfold getObfuscatedPayload
  split
  · exact Or.inl rfl
  · exact Or.inr rfl

theorem recorded_step {s : State P} (h : Recorded s) (op : Op P) : Recorded (step Q s op) := by
  cases op with
  | add p offset length obChar => exact h.add
  | get p header payload =>
    unfold step
    rcases getObfuscatedPayload_fst Q s.ob (s.packet p header payload) with heq | heq
    · simp only [heq]
      exact h
    · simp only [heq]
      exact h.sort Q

/-- **The arrays stand for the entries accepted**, after every run. -/
theorem recorded_run (ob : ObfuscationStruct P) (obfuscate : P → Bool) (ops : List (Op P)) :
    Recorded (run Q (start ob obfuscate) ops) := by
  induction ops using List.reverseRecOn with
  | nil => exact recorded_start ob obfuscate
  | append_singleton ops op ih =>
    rw [run, List.foldl_append]
    exact recorded_step Q ih op

/-! ### The order of the entries -/

/-- The sorted array is not stale: it will be sorted, or the entries of the packet are in order. -/
def Ordered (ob : ObfuscationStruct P) (p : P) : Prop :=
  ob.sorted = true → (mine p ob.listed).Pairwise fun e f => e.offset.toNat ≤ f.offset.toNat

/-- **The order of the entries of a packet** after `sortObfuscationEntries`. -/
theorem sorted_listed {ob : ObfuscationStruct P} {p : P} (h : Ordered ob p) :
    (mine p (sortObfuscationEntries Q ob).listed).Pairwise fun e f => e.start ≤ f.start := by
  unfold sortObfuscationEntries
  split
  · exact h ‹_›
  · have hsorted := Q.sorted (fun i j => obfuscationEntrySort (ob.entries i) (ob.entries j))
      ob.sortEntries
      (fun i j => by simp only [obfuscationEntrySort_le]; omega)
      (fun i j k => by simp only [obfuscationEntrySort_le]; omega)
    refine List.Pairwise.filter _ (List.pairwise_map.2 (hsorted.imp fun {i j} hij => ?_))
    rw [obfuscationEntrySort_le] at hij
    show (ob.entries i).offset.toNat ≤ (ob.entries j).offset.toNat
    omega

end Snort.Obfuscation
