import Snort.Sfrt.Address

/-!
# Insertions that fail

* `Reached`: the tables that insertions and removals lead to.
* `sfrtInsert_cases`: what an insertion does to the table.
* `Fresh`: behind the slot that was allocated last no slot has ever been used.  Up to the end of `data`
  the search therefore ends at its first step.
* **`allocateTableIndex_safe_iff`**: it goes wrong exactly when that slot is the last of all.

* `Entry.Shaped`: the widths of the arrays follow the dimensions, so that no prefix of a legal length
  goes past the last of them.
* `lookup_dirSubInsert`: an insertion that gets no memory clears the entry it wanted an array for, and
  with it all addresses that found what its own address found.
* **`failed_insert_iff`**: an insertion that fails leaves all lookups alone exactly if it was refused
  beforehand, or if nothing was found at its address.
-/

namespace Snort.Sfrt

section

variable {P : Type*} {table table' : Table P}

/-- The tables that `sfrt_insert` and `sfrt_remove` lead to, as long as `data` is not read past its
end. -/
inductive Reached : Table P → Prop
  | new (supIp6 : Bool) (tableType : TableType) (ipType : IpType) (dataSize : ℕ) {table : Table P}
      (h : sfrtNew supIp6 tableType ipType dataSize = some table) : Reached table
  | insert (alloc : ℕ → Bool) (adr : Adr) (len : ℕ) (ptr : Option P) (behavior : Behavior)
      {table table' : Table P} {res : ReturnCode} (h : Reached table)
      (hins : sfrtInsert alloc adr len ptr behavior table = some (res, table')) : Reached table'
  | remove (adr : Adr) (len : ℕ) (behavior : Behavior) {table : Table P} (h : Reached table) :
      Reached (sfrtRemove adr len behavior table).2.2

/-! ### What an insertion does -/

/-- `sfrt_insert` gives up before it comes to the DIR table: a bad length, a family without a table, or
no room for a new entry. -/
def Refused (adr : Adr) (len : ℕ) (table : Table P) : Prop :=
  len = 0 ∨ badLength table len = true ∨ table.select adr.family = none ∨
    (sfrtDirLookup adr table.rt).length ≠ len ∧
      (table.maxSize ≤ table.numEnt ∨ allocateTableIndex table = some 0)

/-- The DIR table takes the index of a new slot. -/
def Table.enter (table : Table P) (res : ReturnCode) (index : ℕ) (ptr : Option P) : Table P :=
  if res = .rtSuccess then
    { table with
      lastAllocatedIndex := index
      numEnt := table.numEnt + 1
      data := Function.update table.data index ptr }
  else { table with lastAllocatedIndex := index }

theorem sfrtInsert_cases {alloc : ℕ → Bool} {adr : Adr} {len : ℕ} {ptr : Option P}
    {behavior : Behavior} {res : ReturnCode}
    (h : sfrtInsert alloc adr len ptr behavior table = some (res, table')) :
    (Refused adr len table ∧ res ≠ .rtSuccess ∧ table' = table) ∨
      ∃ rt index, ¬ Refused adr len table ∧ table.select adr.family = some rt ∧
        res = (sfrtDirInsert alloc adr len index behavior rt).1 ∧
        ((allocateTableIndex table = some index ∧ index ≠ 0 ∧
            table' = (table.store adr.family
              (sfrtDirInsert alloc adr len index behavior rt).2).enter res index ptr) ∨
          table' = table.store adr.family (sfrtDirInsert alloc adr len index behavior rt).2) := by
  unfold sfrtInsert at h
  by_cases hlen : len = 0 ∨ badLength table len = true
  · rw [if_pos hlen] at h
    cases h
    exact .inl ⟨hlen.imp_right .inl, by decide, rfl⟩
  rw [if_neg hlen] at h
  rw [not_or] at hlen
  cases hrt : table.select adr.family with
  | none =>
    simp only [hrt] at h
    cases h
    exact .inl ⟨.inr (.inr (.inl hrt)), by decide, rfl⟩
  | some rt =>
    simp only [hrt] at h
    by_cases hreuse : (sfrtDirLookup adr table.rt).length = len
    · rw [if_neg (not_not.2 hreuse)] at h
      cases h
      refine .inr ⟨rt, _, ?_, rfl, rfl, .inr rfl⟩
      simp [Refused, hlen, hrt, hreuse]
    rw [if_pos hreuse] at h
    by_cases hfull : table.numEnt ≥ table.maxSize
    · rw [if_pos hfull] at h
      cases h
      exact .inl ⟨.inr (.inr (.inr ⟨hreuse, .inl hfull⟩)), by decide, rfl⟩
    rw [if_neg hfull] at h
    split at h
    · cases h
    · rename_i hnone
      cases h
      exact .inl ⟨.inr (.inr (.inr ⟨hreuse, .inr hnone⟩)), by decide, rfl⟩
    · rename_i i hindex
      refine .inr ⟨rt, i + 1, ?_, rfl, ?_⟩
      · simp [Refused, hlen, hrt, hindex, Nat.not_le.1 hfull]
      · rw [Table.enter]
        split_ifs at h with hres <;> cases h
        · exact ⟨rfl, .inl ⟨hindex, Nat.succ_ne_zero i, by rw [if_pos hres]⟩⟩
        · exact ⟨rfl, .inl ⟨hindex, Nat.succ_ne_zero i, by rw [if_neg hres]⟩⟩

/-! ### Slots that were never used -/

/-- No slot behind the one allocated last is in use, and neither is slot 0. -/
structure Fresh (table : Table P) : Prop where
  behind : ∀ i, table.lastAllocatedIndex < i → table.data i = none
  zero : table.data 0 = none

/-- The search takes the next slot, or reads `data` past its end. -/
theorem Fresh.allocateTableIndex_eq (h : Fresh table) :
    allocateTableIndex table =
      if table.lastAllocatedIndex + 1 < table.maxSize then some (table.lastAllocatedIndex + 1)
      else none := by
  have hnone : table.data (table.lastAllocatedIndex + 1) = none := h.behind _ (Nat.lt_succ_self _)
  rw [allocateTableIndex, allocateLoop, if_neg (Nat.succ_ne_self _)]
  by_cases hlt : table.lastAllocatedIndex + 1 < table.maxSize
  · simp [hlt, hnone, Nat.not_le.2 hlt]
  · simp [hlt, Nat.not_lt.1 hlt]

/-- Putting back a DIR table leaves the slots alone. -/
theorem Fresh.store (h : Fresh table) (family : Family) (rt : DirTable) :
    Fresh (table.store family rt) := by
  cases family with
  | inet => exact ⟨h.behind, h.zero⟩
  | inet6 => exact ⟨h.behind, h.zero⟩

theorem Fresh.enter {index : ℕ} (h : Fresh table) (hindex : table.lastAllocatedIndex < index)
    (res : ReturnCode) (ptr : Option P) : Fresh (table.enter res index ptr) := by
  unfold Table.enter
  split_ifs
  · refine ⟨fun i hi => ?_, ?_⟩
    · exact (Function.update_of_ne (Nat.ne_of_gt hi) ..).trans (h.behind i (hindex.trans hi))
    · exact (Function.update_of_ne (Nat.zero_lt_of_lt hindex).ne ..).trans h.zero
  · exact ⟨fun i hi => h.behind i (hindex.trans hi), h.zero⟩

theorem Fresh.insert {alloc : ℕ → Bool} {adr : Adr} {len : ℕ} {ptr : Option P} {behavior : Behavior}
    {res : ReturnCode} (h : Fresh table)
    (hins : sfrtInsert alloc adr len ptr behavior table = some (res, table')) : Fresh table' := by
  obtain ⟨-, -, rfl⟩ | ⟨rt, index, -, -, -, ⟨hindex, -, rfl⟩ | rfl⟩ := sfrtInsert_cases hins
  · exact h
  · refine (h.store _ _).enter ?_ _ _
    rw [h.allocateTableIndex_eq] at hindex
    split_ifs at hindex
    cases hindex
    cases adr.family <;> exact Nat.lt_succ_self _
  · exact h.store _ _

/-- A slot is emptied. -/
theorem Fresh.clear (h : Fresh table) (index n : ℕ) :
    Fresh { table with data := Function.update table.data index none, numEnt := n } := by
  have hclear : ∀ i, table.data i = none → Function.update table.data index none i = none := by
    intro i hi
    by_cases hindex : i = index
    · rw [hindex, Function.update_self]
    · rwa [Function.update_of_ne hindex]
  exact ⟨fun i hi => hclear i (h.behind i hi), hclear 0 h.zero⟩

theorem Fresh.remove (h : Fresh table) (adr : Adr) (len : ℕ) (behavior : Behavior) :
    Fresh (sfrtRemove adr len behavior table).2.2 := by
  unfold sfrtRemove
  split_ifs
  · exact h
  · split
    · exact h
    · dsimp only
      split_ifs
      · exact (h.store _ _).clear _ _
      · exact h.store _ _

theorem data_sfrtNew {supIp6 : Bool} {tableType : TableType} {ipType : IpType} {dataSize : ℕ}
    (h : sfrtNew supIp6 tableType ipType dataSize = some table) (i : ℕ) : table.data i = none := by
  unfold sfrtNew at h
  dsimp only at h
  by_cases hsize : dataSize ≥ 0x8000000
  · rw [if_pos hsize] at h
    cases h
  rw [if_neg hsize] at h
  cases supIp6 <;> cases hdims : tableType.dimensions6 <;> simp only [hdims] at h
  · split_ifs at h
    cases h
    rfl
  · cases h
  · cases h
  · cases h
    rfl

theorem Reached.fresh (h : Reached table) : Fresh table := by
  induction h with
  | new supIp6 tableType ipType dataSize h => exact ⟨fun i _ => data_sfrtNew h i, data_sfrtNew h 0⟩
  | insert alloc adr len ptr behavior _ hins ih => exact ih.insert hins
  | remove adr len behavior _ ih => exact ih.remove adr len behavior

/-! ### Safety -/

/-- The search stays within `data`; a slot that it gives is free, and without one there is none. -/
def AllocSafe (table : Table P) : Prop :=
  ∃ index, allocateTableIndex table = some index ∧
    (index ≠ 0 → index < table.maxSize ∧ table.data index = none) ∧
    (index = 0 → ∀ i < table.maxSize, i ≠ 0 → table.data i ≠ none)

/-- **The search for a free slot is right** unless it starts behind the last slot. -/
theorem allocateTableIndex_safe_iff (h : Reached table) :
    AllocSafe table ↔ table.lastAllocatedIndex + 1 < table.maxSize := by
  have hfresh := h.fresh
  rw [AllocSafe, hfresh.allocateTableIndex_eq]
  constructor
  · rintro ⟨index, hindex, -⟩
    by_contra hge
    rw [if_neg hge] at hindex
    cases hindex
  · intro hlt
    refine ⟨_, if_pos hlt, fun _ => ⟨hlt, hfresh.behind _ (Nat.lt_succ_self _)⟩, fun h0 => ?_⟩
    exact absurd h0 (Nat.succ_ne_zero _)

/-- The first slot of a new table is found. -/
theorem allocateTableIndex_safe_new : ∃ table : Table Unit,
    sfrtNew false .dir2x16 .ipv4 2 = some table ∧
      (AllocSafe table ↔ table.lastAllocatedIndex + 1 < table.maxSize) :=
  ⟨_, rfl, allocateTableIndex_safe_iff (.new false .dir2x16 .ipv4 2 rfl)⟩

/-- A table of two slots is filled with 64.0.0.0/2, which is then removed: to insert another prefix
`data[2]` is read. -/
theorem allocate_past_end : ∃ table : Table Unit,
    Reached table ∧ ¬ AllocSafe table ∧
      sfrtInsert (fun _ => true) (.u32 0x80000000) 2 (some ()) .favorSpecific table = none := by
  obtain ⟨new, hnew⟩ : ∃ new, (sfrtNew false .dir2x16 .ipv4 2 : Option (Table Unit)) = some new :=
    ⟨_, rfl⟩
  obtain ⟨res, full, hins⟩ : ∃ res full,
      sfrtInsert (fun _ => true) (.u32 0x40000000) 2 (some ()) .favorSpecific new =
        some (res, full) := by
    cases hnew
    exact ⟨_, _, rfl⟩
  refine ⟨(sfrtRemove (.u32 0x40000000) 2 .favorSpecific full).2.2,
    .remove _ _ _ (.insert _ _ _ _ _ (.new _ _ _ _ hnew) hins), ?_, ?_⟩
  · cases hnew
    cases hins
    rintro ⟨index, hindex, -⟩
    exact absurd hindex (Option.some_ne_none _).symm
  · cases hnew
    cases hins
    rfl

end

/-! ## Insertions that fail -/

/-! ### The shape of the arrays -/

/-- See the module documentation. -/
def Entry.Shaped : Entry → List ℕ → Prop
  | .data _ _, _ => True
  | .table _ _ _, [] => False
  | .table width _ entries, w :: dims => width = w ∧ ∀ i, (entries i).Shaped dims

/-- The entry points to an array. -/
def Entry.isTable : Entry → Bool
  | .data _ _ => false
  | .table _ _ _ => true

theorem Entry.Shaped.update {w filled filled' : ℕ} {dims : List ℕ} {entries : ℕ → Entry} {e : Entry}
    (h : (Entry.table w filled entries).Shaped dims) (he : e.Shaped dims.tail) (i : ℕ) :
    (Entry.table w filled' (Function.update entries i e)).Shaped dims := by
  cases dims with
  | nil => exact absurd h id
  | cons d dims =>
    refine ⟨h.1, fun j => ?_⟩
    by_cases hj : j = i
    · rw [hj, Function.update_self]
      exact he
    · rw [Function.update_of_ne hj]
      exact h.2 j

/-- Each entry of an array may be replaced by one of the right shape. -/
theorem Entry.Shaped.map {w filled filled' : ℕ} {dims : List ℕ} {entries : ℕ → Entry}
    {entries' : ℕ → Entry} (h : (Entry.table w filled entries).Shaped dims)
    (hentries : ∀ i, (entries i).Shaped dims.tail → (entries' i).Shaped dims.tail) :
    (Entry.table w filled' entries').Shaped dims := by
  cases dims with
  | nil => exact absurd h id
  | cons d dims => exact ⟨h.1, fun i => hentries i (h.2 i)⟩

theorem shaped_fillLessSpecific {e : Entry} {dims : List ℕ} (h : e.Shaped dims) (length val : ℕ) :
    (e.fillLessSpecific length val).Shaped dims := by
  induction e generalizing dims with
  | data index l =>
    rw [Entry.fillLessSpecific]
    split_ifs <;> trivial
  | table width filled entries ih =>
    rw [Entry.fillLessSpecific]
    refine h.map fun i hi => ?_
    split_ifs
    · exact ih i hi
    · exact hi

theorem shaped_subTableNew {ok : Bool} {width prefill bitLength : ℕ} {next : Entry}
    (h : subTableNew ok width prefill bitLength = some next) (dims : List ℕ) :
    next.Shaped (width :: dims) := by
  unfold subTableNew at h
  split_ifs at h <;> cases h <;> exact ⟨rfl, fun _ => trivial⟩

theorem shaped_nextSub {e next : Entry} {ok : Bool} {dim : ℕ} {dims : List ℕ}
    (h : e.Shaped (dim :: dims)) (hnext : e.nextSub ok dim = some next) : next.Shaped (dim :: dims) := by
  cases e with
  | data index l => exact shaped_subTableNew hnext dims
  | table width filled entries =>
    cases hnext
    exact h

theorem isTable_nextSub {e next : Entry} {ok : Bool} {dim : ℕ} (hnext : e.nextSub ok dim = some next) :
    next.isTable = true := by
  cases e with
  | data index l =>
    rw [Entry.nextSub, subTableNew] at hnext
    split_ifs at hnext <;> cases hnext <;> rfl
  | table width filled entries =>
    cases hnext
    rfl

/-! ### One array of an insertion -/

/-- Induction over the arrays that an insertion goes through: an entry that is no array, the array in
which the prefix ends, the last dimension, no memory for the next array, and a further array. -/
theorem dirSubInsert_induction (alloc : ℕ → Bool) (behavior : Behavior) (length ptr : ℕ)
    {motive : List ℕ → IpLookup → ℕ → Entry → ReturnCode × Entry → Prop}
    (hdata : ∀ dims ip curLen index l,
      motive dims ip curLen (.data index l) (.rtInsertFailure, .data index l))
    (hend : ∀ dims ip curLen w filled entries filled' entries', curLen ≤ w →
      (∀ i ds, (entries i).Shaped ds → (entries' i).Shaped ds) →
      motive dims ip curLen (.table w filled entries) (.rtSuccess, .table w filled' entries'))
    (hnil : ∀ ip curLen w filled entries, w < curLen →
      motive [] ip curLen (.table w filled entries) (.rtInsertFailure, .table w filled entries))
    (hnone : ∀ dim dims ip curLen w filled entries filled' ok, w < curLen →
      (entries (ip.index w)).nextSub ok dim = none →
      motive (dim :: dims) ip curLen (.table w filled entries)
        (.memAllocFailure, .table w filled' (Function.update entries (ip.index w) (.data 0 0))))
    (hsome : ∀ dim dims ip curLen w filled entries filled' ok next r, w < curLen →
      (entries (ip.index w)).nextSub ok dim = some next →
      motive dims (ip.advance w) (curLen - w) next r →
      motive (dim :: dims) ip curLen (.table w filled entries)
        (r.1, .table w filled' (Function.update entries (ip.index w) r.2)))
    (dims : List ℕ) (ip : IpLookup) (curLen : ℕ) (e : Entry) :
    motive dims ip curLen e (dirSubInsert alloc behavior length ptr dims ip curLen e) := by
  have hfill : ∀ dims ip curLen w filled entries, curLen ≤ w → motive dims ip curLen
      (.table w filled entries)
      (dirSubInsert alloc behavior length ptr dims ip curLen (.table w filled entries)) := by
    intro dims ip curLen w filled entries hle
    unfold dirSubInsert
    simp only [if_pos hle]
    cases behavior with
    | favorTime =>
      refine hend _ _ _ _ _ _ _ _ hle fun i ds hi => ?_
      split_ifs
      · trivial
      · exact hi
    | favorSpecific =>
      refine hend _ _ _ _ _ _ _ _ hle fun i ds hi => ?_
      split_ifs
      · exact shaped_fillLessSpecific hi length ptr
      · exact hi
  induction dims generalizing ip curLen e with
  | nil =>
    cases e with
    | data index l => exact hdata _ _ _ _ _
    | table w filled entries =>
      rcases Nat.lt_or_ge w curLen with hlt | hle
      · rw [dirSubInsert, if_neg (Nat.not_le.2 hlt)]
        exact hnil _ _ _ _ _ hlt
      · exact hfill _ _ _ _ _ _ hle
  | cons dim dims ih =>
    cases e with
    | data index l => exact hdata _ _ _ _ _
    | table w filled entries =>
      rcases Nat.lt_or_ge w curLen with hlt | hle
      · rw [dirSubInsert, if_neg (Nat.not_le.2 hlt)]
        cases hnext : (entries (ip.index w)).nextSub (alloc dims.length) dim with
        | none =>
          exact hnone _ _ _ _ _ _ _ _ _ hlt hnext
        | some next =>
          exact hsome _ _ _ _ _ _ _ _ _ _ _ hlt hnext (ih _ _ _)
      · exact hfill _ _ _ _ _ _ hle

/-! ### The shape of a table -/

/-- An insertion keeps the shape of an array. -/
theorem shaped_dirSubInsert (alloc : ℕ → Bool) (behavior : Behavior) (length ptr : ℕ)
    (dims : List ℕ) (ip : IpLookup) (curLen : ℕ) (e : Entry) :
    (dirSubInsert alloc behavior length ptr dims ip curLen e).2.isTable = e.isTable ∧
      ∀ w, e.Shaped (w :: dims) →
        (dirSubInsert alloc behavior length ptr dims ip curLen e).2.Shaped (w :: dims) := by
  refine dirSubInsert_induction alloc behavior length ptr
    (motive := fun dims _ _ e r => r.2.isTable = e.isTable ∧
      ∀ w, e.Shaped (w :: dims) → r.2.Shaped (w :: dims)) ?_ ?_ ?_ ?_ ?_ dims ip curLen e
  · exact fun _ _ _ _ _ => ⟨rfl, fun _ h => h⟩
  · exact fun _ _ _ _ _ _ _ _ _ hentries => ⟨rfl, fun _ h => h.map fun i hi => hentries i _ hi⟩
  · exact fun _ _ _ _ _ _ => ⟨rfl, fun _ h => h⟩
  · exact fun _ _ _ _ _ _ _ _ _ _ _ => ⟨rfl, fun _ h => h.update (e := .data 0 0) trivial _⟩
  · intro dim dims ip curLen w filled entries filled' ok next r _ hnext ih
    exact ⟨rfl, fun _ h => h.update (ih.2 _ (shaped_nextSub (h.2 _) hnext)) _⟩

/-- An insertion of a legal length succeeds or gets no memory. -/
theorem dirSubInsert_code (alloc : ℕ → Bool) (behavior : Behavior) (length ptr : ℕ)
    (dims : List ℕ) (ip : IpLookup) (curLen : ℕ) (e : Entry) {w : ℕ} (htable : e.isTable = true)
    (hshape : e.Shaped (w :: dims)) (hlen : curLen ≤ (w :: dims).sum) :
    (dirSubInsert alloc behavior length ptr dims ip curLen e).1 = .rtSuccess ∨
      (dirSubInsert alloc behavior length ptr dims ip curLen e).1 = .memAllocFailure := by
  revert htable w
  refine dirSubInsert_induction alloc behavior length ptr
    (motive := fun dims _ curLen e r => ∀ {w}, e.isTable = true → e.Shaped (w :: dims) →
      curLen ≤ (w :: dims).sum → r.1 = .rtSuccess ∨ r.1 = .memAllocFailure)
    ?_ ?_ ?_ ?_ ?_ dims ip curLen e
  · exact fun _ _ _ _ _ _ htable => by cases htable
  · exact fun _ _ _ _ _ _ _ _ _ _ _ _ _ _ => .inl rfl
  · intro ip curLen w filled entries hlt w' _ hshape hsum
    rw [List.sum_singleton, ← hshape.1] at hsum
    exact absurd hlt (Nat.not_lt.2 hsum)
  · exact fun _ _ _ _ _ _ _ _ _ _ _ _ _ _ _ => .inr rfl
  · intro dim dims ip curLen w filled entries filled' ok next r _ hnext ih w' _ hshape hsum
    rw [List.sum_cons, ← hshape.1] at hsum
    exact ih (isTable_nextSub hnext) (shaped_nextSub (hshape.2 _) hnext) (by omega)

theorem shaped_collapse {e : Entry} {dims : List ℕ} (h : e.Shaped dims) : e.collapse.Shaped dims := by
  cases e with
  | data index l => trivial
  | table width filled entries =>
    rw [Entry.collapse]
    split_ifs
    · trivial
    · exact h

theorem shaped_removeLessSpecific {e : Entry} {dims : List ℕ} (h : e.Shaped dims) (length : ℕ) :
    (e.removeLessSpecific length).2.Shaped dims := by
  induction e generalizing dims with
  | data index l =>
    rw [Entry.removeLessSpecific]
    split_ifs <;> trivial
  | table width filled entries ih =>
    rw [Entry.removeLessSpecific]
    refine shaped_collapse (h.map fun i hi => ?_)
    split_ifs
    · exact ih i hi
    · exact hi

theorem shaped_removeAll (e : Entry) (dims : List ℕ) (length : ℕ) :
    (e.removeAll length).2.Shaped dims := by
  cases e with
  | data index l =>
    rw [Entry.removeAll]
    dsimp only
    split_ifs <;> trivial
  | table width filled entries => trivial

theorem shaped_dirSubRemove (behavior : Behavior) (length : ℕ) {dims : List ℕ} {e : Entry}
    (ip : IpLookup) (curLen : ℕ) (h : e.Shaped dims) :
    (dirSubRemove behavior length ip curLen e).2.isTable = e.isTable ∧
      (dirSubRemove behavior length ip curLen e).2.Shaped dims := by
  induction e generalizing dims ip curLen with
  | data index l => exact ⟨rfl, trivial⟩
  | table width filled entries ih =>
    rw [dirSubRemove]
    split_ifs with hle
    · refine ⟨rfl, h.map fun i hi => ?_⟩
      split_ifs
      · cases behavior with
        | favorTime => exact shaped_removeAll _ _ _
        | favorSpecific => exact shaped_removeLessSpecific hi _
      · exact hi
    · split
      · exact ⟨rfl, h⟩
      · rename_i hentry
        have hshape : ∀ i ds, (entries i).Shaped ds →
            (dirSubRemove behavior length (ip.advance width) (curLen - width) (entries i)).2.Shaped ds :=
          fun i ds hi => (ih i (ip.advance width) (curLen - width) hi).2
        have hentries : (entries (ip.index width)).Shaped dims.tail := by
          cases dims with
          | nil => exact absurd h id
          | cons d dims => exact h.2 _
        dsimp only
        split_ifs
        · exact ⟨rfl, h.update (e := .data 0 0) trivial _⟩
        · exact ⟨rfl, h.update (hshape _ _ hentries) _⟩

/-- The shape of a DIR table. -/
structure DirTable.Shaped (t : DirTable) (bits : ℕ) : Prop where
  sum : t.dimensions.sum = bits
  ne_nil : t.dimensions ≠ []
  isTable : t.subTable.isTable = true
  shaped : t.subTable.Shaped t.dimensions

theorem shaped_sfrtDirNew {dimensions : List ℕ} {bits : ℕ} (hsum : dimensions.sum = bits)
    (hne : dimensions ≠ []) : (sfrtDirNew dimensions).Shaped bits := by
  cases dimensions with
  | nil => exact absurd rfl hne
  | cons w dims => exact ⟨hsum, hne, rfl, rfl, fun _ => trivial⟩

theorem DirTable.Shaped.insert {t : DirTable} {bits : ℕ} (h : t.Shaped bits) (alloc : ℕ → Bool)
    (ip : Adr) (len index : ℕ) (behavior : Behavior) :
    (sfrtDirInsert alloc ip len index behavior t).2.Shaped bits := by
  obtain ⟨dimensions, subTable⟩ := t
  obtain ⟨hsum, hne, htable, hshape⟩ := h
  cases dimensions with
  | nil => exact absurd rfl hne
  | cons w dims =>
    obtain ⟨htable', hshape'⟩ :=
      shaped_dirSubInsert alloc behavior len index dims ip.lookup len subTable
    exact ⟨hsum, hne, htable'.trans htable, hshape' w hshape⟩

theorem DirTable.Shaped.insert_code {t : DirTable} {bits : ℕ} (h : t.Shaped bits)
    (alloc : ℕ → Bool) (ip : Adr) {len : ℕ} (hlen : len ≤ bits) (index : ℕ) (behavior : Behavior) :
    (sfrtDirInsert alloc ip len index behavior t).1 = .rtSuccess ∨
      (sfrtDirInsert alloc ip len index behavior t).1 = .memAllocFailure := by
  obtain ⟨dimensions, subTable⟩ := t
  obtain ⟨hsum, hne, htable, hshape⟩ := h
  cases dimensions with
  | nil => exact absurd rfl hne
  | cons w dims =>
    exact dirSubInsert_code alloc behavior len index dims ip.lookup len subTable htable hshape
      (hlen.trans_eq hsum.symm)

theorem DirTable.Shaped.remove {t : DirTable} {bits : ℕ} (h : t.Shaped bits) (ip : Adr) (len : ℕ)
    (behavior : Behavior) : (sfrtDirRemove ip len behavior t).2.Shaped bits := by
  obtain ⟨htable, hshape⟩ := shaped_dirSubRemove behavior len ip.lookup len h.shaped
  exact ⟨h.sum, h.ne_nil, htable.trans h.isTable, hshape⟩

/-! ### The shape of reachable tables -/

variable {P : Type*} {table table' : Table P}

/-- The DIR tables of both families have their shape. -/
def Table.Shaped (table : Table P) : Prop :=
  ∀ family rt, table.select family = some rt → rt.Shaped family.bits

theorem select_store (table : Table P) (family : Family) (rt : DirTable) (other : Family) :
    (table.store family rt).select other = if other = family then some rt else table.select other := by
  cases family <;> cases other <;> rfl

theorem Table.Shaped.store (h : table.Shaped) {family : Family} {rt : DirTable}
    (hrt : rt.Shaped family.bits) : (table.store family rt).Shaped := by
  intro other rt' hsel
  rw [select_store] at hsel
  split_ifs at hsel with hother
  · cases hsel
    rwa [hother]
  · exact h other rt' hsel

theorem Table.Shaped.of_select (h : table.Shaped) (heq : ∀ family, table'.select family = table.select family) :
    table'.Shaped := fun family rt hsel => h family rt (heq family ▸ hsel)

theorem select_enter (table : Table P) (res : ReturnCode) (index : ℕ) (ptr : Option P)
    (family : Family) : (table.enter res index ptr).select family = table.select family := by
  unfold Table.enter
  split_ifs <;> cases family <;> rfl

theorem shaped_sfrtNew {supIp6 : Bool} {tableType : TableType} {ipType : IpType} {dataSize : ℕ}
    (h : sfrtNew supIp6 tableType ipType dataSize = some table) : table.Shaped := by
  have hrt : (sfrtDirNew tableType.dimensions).Shaped 32 := by
    cases tableType <;> exact shaped_sfrtDirNew rfl (by simp [TableType.dimensions])
  have hrt6 : ∀ dims, tableType.dimensions6 = some dims → (sfrtDirNew dims).Shaped 128 := by
    intro dims hdims
    cases tableType <;> cases hdims <;> exact shaped_sfrtDirNew rfl (by simp)
  unfold sfrtNew at h
  dsimp only at h
  by_cases hsize : dataSize ≥ 0x8000000
  · rw [if_pos hsize] at h
    cases h
  rw [if_neg hsize] at h
  intro family rt hsel
  cases supIp6 <;> cases hdims : tableType.dimensions6 <;> simp only [hdims] at h
  · split_ifs at h
    cases h
    cases family <;> cases hsel
    exact hrt
  · cases h
  · cases h
  · cases h
    cases family <;> cases hsel
    · exact hrt
    · exact hrt6 _ hdims

theorem Reached.shaped (h : Reached table) : table.Shaped := by
  induction h with
  | new supIp6 tableType ipType dataSize h => exact shaped_sfrtNew h
  | insert alloc adr len ptr behavior _ hins ih =>
    obtain ⟨-, -, rfl⟩ | ⟨rt, index, -, hrt, -, ⟨-, -, rfl⟩ | rfl⟩ := sfrtInsert_cases hins
    · exact ih
    · exact (ih.store ((ih _ _ hrt).insert alloc adr len index behavior)).of_select
        (select_enter _ _ _ _)
    · exact ih.store ((ih _ _ hrt).insert alloc adr len index behavior)
  | remove adr len behavior _ ih =>
    unfold sfrtRemove
    split_ifs
    · exact ih
    · split
      · exact ih
      · rename_i rt hrt
        have hstore := ih.store ((ih _ _ hrt).remove adr len behavior)
        dsimp only
        split_ifs
        · exact hstore.of_select fun family => by cases family <;> rfl
        · exact hstore

/-! ### What addresses find after a failure -/

/-- The entry that an address finds is cleared, for all that find it. -/
def Cleared (e e' : Entry) (ip : IpLookup) : Prop :=
  dirSubLookup ip e' = ⟨0, 0⟩ ∧
    ∀ a, dirSubLookup a e' = dirSubLookup a e ∨
      dirSubLookup a e' = ⟨0, 0⟩ ∧ dirSubLookup a e = dirSubLookup ip e

/-- A new array gives every address what the entry gave it. -/
theorem lookup_nextSub {e next : Entry} {ok : Bool} {dim : ℕ} (hnext : e.nextSub ok dim = some next)
    (a : IpLookup) : dirSubLookup a next = dirSubLookup a e := by
  cases e with
  | data index l =>
    rw [Entry.nextSub, subTableNew] at hnext
    split_ifs at hnext <;> cases hnext <;> rfl
  | table width filled entries =>
    cases hnext
    rfl

theorem Cleared.update {ip : IpLookup} {w filled filled' : ℕ} {entries : ℕ → Entry} {e e' : Entry}
    (hfind : ∀ a, dirSubLookup a e = dirSubLookup a (entries (ip.index w)))
    (h : Cleared e e' (ip.advance w)) :
    Cleared (.table w filled entries)
      (.table w filled' (Function.update entries (ip.index w) e')) ip := by
  obtain ⟨hip, hall⟩ := h
  have hsame : ∀ a : IpLookup, a.index w = ip.index w →
      dirSubLookup a (.table w filled' (Function.update entries (ip.index w) e')) =
        dirSubLookup (a.advance w) e' := by
    intro a ha
    rw [dirSubLookup, ha, Function.update_self]
  refine ⟨(hsame ip rfl).trans hip, fun a => ?_⟩
  by_cases ha : a.index w = ip.index w
  · rw [hsame a ha, dirSubLookup, dirSubLookup, ha, ← hfind, ← hfind]
    exact hall _
  · refine .inl ?_
    rw [dirSubLookup, dirSubLookup, Function.update_of_ne ha]

/-- **An insertion without memory.** -/
theorem lookup_dirSubInsert (alloc : ℕ → Bool) (behavior : Behavior) (length ptr : ℕ)
    (dims : List ℕ) (ip : IpLookup) (curLen : ℕ) (e : Entry)
    (hres : (dirSubInsert alloc behavior length ptr dims ip curLen e).1 = .memAllocFailure) :
    Cleared e (dirSubInsert alloc behavior length ptr dims ip curLen e).2 ip := by
  revert hres
  refine dirSubInsert_induction alloc behavior length ptr
    (motive := fun _ ip _ e r => r.1 = .memAllocFailure → Cleared e r.2 ip)
    ?_ ?_ ?_ ?_ ?_ dims ip curLen e
  · exact fun _ _ _ _ _ hres => by cases hres
  · exact fun _ _ _ _ _ _ _ _ _ _ hres => by cases hres
  · exact fun _ _ _ _ _ _ hres => by cases hres
  · intro dim dims ip curLen w filled entries filled' ok _ hnext _
    refine Cleared.update (fun _ => rfl) ⟨rfl, fun a => ?_⟩
    -- only an entry that is not a pointer wants a new array
    cases hentry : entries (ip.index w) with
    | data index l => exact .inr ⟨rfl, rfl⟩
    | table _ _ _ => simp [hentry, Entry.nextSub] at hnext
  · intro dim dims ip curLen w filled entries filled' ok next r _ hnext ih hres
    exact Cleared.update (lookup_nextSub hnext) (ih hres)

/-! ### Lookups after a failure -/

/-- What `sfrt_lookup` makes of an entry. -/
def Table.value (table : Table P) (tuple : Tuple) : Option P :=
  if tuple.index ≥ table.maxSize then none else table.data tuple.index

theorem sfrtLookup_eq (adr : Adr) {rt : DirTable} (hrt : table.select adr.family = some rt) :
    sfrtLookup adr table = table.value (sfrtDirLookup adr rt) := by
  rw [sfrtLookup, hrt]
  rfl

theorem Fresh.value_zero (h : Fresh table) : table.value ⟨0, 0⟩ = none := by
  rw [Table.value]
  split_ifs
  · rfl
  · exact h.zero

/-- The table after an insertion without memory. -/
structure Failed (adr : Adr) (rt : DirTable) (table table' : Table P) : Prop where
  own : ∃ rt', table'.select adr.family = some rt' ∧ Cleared rt.subTable rt'.subTable adr.lookup
  other : ∀ family, family ≠ adr.family → table'.select family = table.select family
  value : table'.value = table.value

theorem lookup_failed_iff {adr : Adr} {rt : DirTable} (hzero : table.value ⟨0, 0⟩ = none)
    (hrt : table.select adr.family = some rt) (h : Failed adr rt table table') :
    (∀ a, sfrtLookup a table' = sfrtLookup a table) ↔ sfrtLookup adr table = none := by
  obtain ⟨⟨rt', hrt', hip, hall⟩, hother, hvalue⟩ := h
  have hadr : sfrtLookup adr table' = none := by
    rw [sfrtLookup_eq adr hrt', hvalue, sfrtDirLookup, hip, hzero]
  constructor
  · intro hsame
    rw [← hsame adr, hadr]
  · intro hnone a
    by_cases hfam : a.family = adr.family
    · rw [sfrtLookup_eq a (hfam ▸ hrt'), sfrtLookup_eq a (hfam ▸ hrt), hvalue, sfrtDirLookup,
        sfrtDirLookup]
      rcases hall a.lookup with heq | ⟨hlost, heq⟩
      · rw [heq]
      · rw [hlost, hzero, heq, ← hnone, sfrtLookup_eq adr hrt, sfrtDirLookup]
    · cases hsel : table.select a.family with
      | none => rw [sfrtLookup, sfrtLookup, hother _ hfam, hsel]
      | some rta => rw [sfrtLookup_eq a ((hother _ hfam).trans hsel), sfrtLookup_eq a hsel, hvalue]

/-- A DIR table is put back in a table whose slots stay. -/
theorem failed_of_store {adr : Adr} {rt : DirTable} {r : ReturnCode × DirTable}
    (hcleared : Cleared rt.subTable r.2.subTable adr.lookup)
    (hsel : ∀ family, table'.select family = (table.store adr.family r.2).select family)
    (hvalue : table'.value = table.value) : Failed adr rt table table' where
  own := ⟨r.2, (hsel _).trans (by rw [select_store, if_pos rfl]), hcleared⟩
  other family hne := (hsel _).trans (by rw [select_store, if_neg hne])
  value := hvalue

theorem value_store (table : Table P) (family : Family) (rt : DirTable) :
    (table.store family rt).value = table.value := by
  cases family <;> rfl

theorem value_enter {res : ReturnCode} (hres : res ≠ .rtSuccess) (table : Table P) (index : ℕ)
    (ptr : Option P) : (table.enter res index ptr).value = table.value := by
  rw [Table.enter, if_neg hres]
  rfl

/-- **Insertions that fail.**  A length beyond the bits of the address that passes the check against
`ip_type` is left out: it makes `_sub_table_new` read `dimensions` past its end. -/
theorem failed_insert_iff {alloc : ℕ → Bool} {adr : Adr} {len : ℕ} {ptr : Option P}
    {behavior : Behavior} {res : ReturnCode} (hreach : Reached table)
    (h : sfrtInsert alloc adr len ptr behavior table = some (res, table')) (hres : res ≠ .rtSuccess)
    (hlen : len ≤ adr.family.bits ∨ badLength table len = true) :
    (∀ a, sfrtLookup a table' = sfrtLookup a table) ↔
      Refused adr len table ∨ sfrtLookup adr table = none := by
  obtain ⟨hrefused, -, rfl⟩ | ⟨rt, index, hnot, hrt, hret, hcases⟩ := sfrtInsert_cases h
  · exact iff_of_true (fun _ => rfl) (.inl hrefused)
  have hbits : len ≤ adr.family.bits := hlen.resolve_right fun hbad => hnot (.inr (.inl hbad))
  have hmem : (sfrtDirInsert alloc adr len index behavior rt).1 = .memAllocFailure :=
    ((hreach.shaped _ _ hrt).insert_code alloc adr hbits index behavior).resolve_left
      fun hsuccess => hres (hret.trans hsuccess)
  have hcleared : Cleared rt.subTable (sfrtDirInsert alloc adr len index behavior rt).2.subTable
      adr.lookup := lookup_dirSubInsert alloc behavior len index _ adr.lookup len _ hmem
  have hfailed : Failed adr rt table table' := by
    rcases hcases with ⟨-, -, rfl⟩ | rfl
    · exact failed_of_store hcleared (select_enter _ _ _ _)
        ((value_enter hres _ _ _).trans (value_store _ _ _))
    · exact failed_of_store hcleared (fun _ => rfl) (value_store _ _ _)
  rw [lookup_failed_iff hreach.fresh.value_zero hrt hfailed]
  exact ⟨.inr, fun hor => hor.resolve_left hnot⟩

/-- Without memory for the second array of 64.0.0.0/4. -/
theorem failed_insert_iff_new : ∃ table table' : Table Unit,
    sfrtNew false .dir2x16 .ipv4 4 = some table ∧
      sfrtInsert (fun _ => false) (.u32 0x40000000) 4 (some ()) .favorSpecific table =
        some (.memAllocFailure, table') ∧
      ((∀ a, sfrtLookup a table' = sfrtLookup a table) ↔
        Refused (.u32 0x40000000) 4 table ∨ sfrtLookup (.u32 0x40000000) table = none) := by
  obtain ⟨table, hnew⟩ : ∃ table, (sfrtNew false .dir2x16 .ipv4 4 : Option (Table Unit)) = some table :=
    ⟨_, rfl⟩
  obtain ⟨table', hins⟩ : ∃ table',
      sfrtInsert (fun _ => false) (.u32 0x40000000) 4 (some ()) .favorSpecific table =
        some (.memAllocFailure, table') := by
    cases hnew
    exact ⟨_, rfl⟩
  exact ⟨table, table', hnew, hins,
    failed_insert_iff (.new _ _ _ _ hnew) hins (by decide) (.inl (by decide))⟩

/-- 64.0.0.0/2 is lost when there is no memory for 64.0.0.0/4. -/
theorem lookup_lost : ∃ table table' : Table Unit,
    Reached table ∧
      sfrtInsert (fun _ => false) (.u32 0x40000000) 4 (some ()) .favorSpecific table =
        some (.memAllocFailure, table') ∧
      sfrtLookup (.u32 0x40000000) table = some () ∧ sfrtLookup (.u32 0x40000000) table' = none := by
  obtain ⟨new, hnew⟩ : ∃ new, (sfrtNew false .dir2x16 .ipv4 4 : Option (Table Unit)) = some new :=
    ⟨_, rfl⟩
  obtain ⟨res, table, hins⟩ : ∃ res table,
      sfrtInsert (fun _ => true) (.u32 0x40000000) 2 (some ()) .favorSpecific new =
        some (res, table) := by
    cases hnew
    exact ⟨_, _, rfl⟩
  have hreach : Reached table := .insert _ _ _ _ _ (.new _ _ _ _ hnew) hins
  cases hnew
  cases hins
  exact ⟨_, _, hreach, rfl, rfl, rfl⟩

end Snort.Sfrt
