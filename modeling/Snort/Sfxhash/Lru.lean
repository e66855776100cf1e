import Snort.Sfxhash.Operations

/-!
# A hash table is an LRU map

With splay on the global list is ordered by the time of the last use.

* `Lru`: a map with the time at which each key was added or found last; `LruStep`: what calls do to
  it, where a map that is full drops the least recently used of the keys that may be dropped;
* `Run`: a run of `sfxhash_add`, `sfxhash_find` and `sfxhash_remove`;
* **`run_lru`**: every run is a run of an `Lru`, and the global list holds its keys in the order of
  their use.
-/

namespace Snort.Sfxhash.Pointers

variable {K D : Type*} [DecidableEq K]

/-! ### LRU maps -/

/-- A map, and the time of the last use of each key. -/
structure Lru (K D : Type*) where
  data : K → Option (Option D)
  used : K → ℕ
  time : ℕ

/-- Nothing is in the map. -/
def Lru.empty : Lru K D := ⟨fun _ => none, fun _ => 0, 0⟩

/-- A key is used. -/
def Lru.touch (m : Lru K D) (key : K) : Lru K D :=
  { m with used := Function.update m.used key m.time, time := m.time + 1 }

def Lru.insert (m : Lru K D) (key : K) (data : Option D) : Lru K D :=
  { m.touch key with data := Function.update m.data key (some data) }

def Lru.erase (m : Lru K D) (key : K) : Lru K D :=
  { m with data := Function.update m.data key none }

/-- A call; `anrfree` says no to a node by its key and data. -/
inductive LruCall (K D : Type*)
  | add (anrfree : K → Option D → Bool) (key : K) (data : Option D)
  | find (key : K)
  | remove (key : K)

/-- The result of a call. -/
inductive LruResult (D : Type*)
  | added (status : SfxStatus)
  | found (data : Option D)
  | removed (done : Bool)

/-- What a table has for a new node: a free one or memory for one; whether a node in use may be
recovered, and whether data are copied. -/
structure Supply where
  spare : Prop
  anr : Bool
  copies : Bool

/-- The least recently used of the keys to which `anrfree` does not say no. -/
def IsOldest (m : Lru K D) (anrfree : K → Option D → Bool) (key : K) : Prop :=
  ∃ data, m.data key = some data ∧ anrfree key data = false ∧
    ∀ key' data', m.data key' = some data' → anrfree key' data' = false → m.used key ≤ m.used key'

/-- What calls do to an LRU map.  A table that copies data keeps old data when it gets none. -/
inductive LruStep (s : Supply) (m : Lru K D) : LruCall K D → LruResult D → Lru K D → Prop
  | found {key : K} {data : Option D} (h : m.data key = some data) :
      LruStep s m (.find key) (.found data) (m.touch key)
  | notFound {key : K} (h : m.data key = none) : LruStep s m (.find key) (.found none) m
  | inTable {anrfree : K → Option D → Bool} {key : K} {data data' : Option D}
      (h : m.data key = some data') :
      LruStep s m (.add anrfree key data) (.added .inTable) (m.touch key)
  | added {anrfree : K → Option D → Bool} {key : K} {data data' : Option D} (h : m.data key = none)
      (hspare : s.spare) (hdata : data' = data ∨ (s.copies = true ∧ data = none)) :
      LruStep s m (.add anrfree key data) (.added .ok) (m.insert key data')
  | recovered {anrfree : K → Option D → Bool} {key oldest : K} {data data' : Option D}
      (h : m.data key = none) (hspare : ¬ s.spare) (hanr : s.anr = true)
      (holdest : IsOldest m anrfree oldest)
      (hdata : data' = data ∨ (s.copies = true ∧ data = none)) :
      LruStep s m (.add anrfree key data) (.added .ok) ((m.erase oldest).insert key data')
  | noMem {anrfree : K → Option D → Bool} {key : K} {data : Option D} (h : m.data key = none)
      (hspare : ¬ s.spare)
      (hanr : s.anr = true → ∀ key' data', m.data key' = some data' → anrfree key' data' = true) :
      LruStep s m (.add anrfree key data) (.added .noMem) m
  | removed {key : K} {data : Option D} (h : m.data key = some data) :
      LruStep s m (.remove key) (.removed true) (m.erase key)
  | notRemoved {key : K} (h : m.data key = none) : LruStep s m (.remove key) (.removed false) m

/-! ### Runs -/

/-- A call with its result, and what there was for a new node. -/
structure Event (K D : Type*) where
  call : LruCall K D
  result : LruResult D
  supply : Supply

/-- A run of an LRU map. -/
inductive LruRun : List (Event K D) → Lru K D → Prop
  | empty : LruRun [] .empty
  | step {es : List (Event K D)} {m m' : Lru K D} {e : Event K D} (h : LruRun es m)
      (hstep : LruStep e.supply m e.call e.result m') : LruRun (es ++ [e]) m'

/-- A call on a table. -/
def SfxHash.run (t : SfxHash K D) : LruCall K D → Option (LruResult D × SfxHash K D)
  | .add anrfree key data =>
    (sfxhashAdd (fun x => anrfree (t.key x) (t.data x)) t key data).map fun r => (.added r.1, r.2)
  | .find key => (sfxhashFind t key).map fun r => (.found r.1, r.2)
  | .remove key => (sfxhashRemove t key).map fun r => (.removed r.1, r.2)

/-- What a table has for a new node. -/
def SfxHash.supply (t : SfxHash K D) : Supply where
  spare := t.fhead ≠ none ∨ CanAlloc t
  anr := t.anrFlag
  copies := t.datasize ≠ 0

/-- A run of a new table with splay on. -/
inductive Run : SfxHash K D → List (Event K D) → Prop
  | new (hashFcn : K → BitVec 32) (k datasize maxNodes : ℕ) (room : Option ℕ)
      (anrFlag recycleNodes : Bool) (nokey : K) :
      Run (sfxhashNew hashFcn (2 ^ k) datasize maxNodes room true anrFlag recycleNodes nokey) []
  | call {t t' : SfxHash K D} {es : List (Event K D)} {call : LruCall K D} {result : LruResult D}
      (h : Run t es) (hcall : t.run call = some (result, t')) :
      Run t' (es ++ [⟨call, result, t.supply⟩])

/-! ### The table holds the map -/

/-- The nodes in use hold the map, and are in the order of their last use. -/
structure Agrees (t : SfxHash K D) (v : View) (m : Lru K D) : Prop where
  held : ∀ x ∈ v.used, m.data (t.key x) = some (t.data x)
  exists_node : ∀ key, m.data key ≠ none → ∃ x ∈ v.used, t.key x = key
  order : v.used.Pairwise fun x y => m.used (t.key y) < m.used (t.key x)
  lt_time : ∀ x ∈ v.used, m.used (t.key x) < m.time

variable {t t' : SfxHash K D} {v : View} {m : Lru K D} {x : ℕ}

omit [DecidableEq K] in
theorem Agrees.none_iff (h : Agrees t v m) {key : K} :
    m.data key = none ↔ ∀ x ∈ v.used, t.key x ≠ key := by
  constructor
  · rintro hnone x hx rfl
    exact Option.some_ne_none _ ((h.held x hx).symm.trans hnone)
  · intro hkey
    by_contra hne
    obtain ⟨x, hx, hkeyx⟩ := h.exists_node key hne
    exact hkey x hx hkeyx

omit [DecidableEq K] in
/-- Agreement depends only on keys, data and the global list. -/
theorem Agrees.congr (h : Agrees t v m) {v' : View} (hkey : t'.key = t.key) (hdata : t'.data = t.data)
    (hused : v'.used = v.used) : Agrees t' v' m := by
  refine ⟨?_, ?_, ?_, ?_⟩
  · rw [hused, hkey, hdata]
    exact h.held
  · rw [hused, hkey]
    exact h.exists_node
  · rw [hused, hkey]
    exact h.order
  · rw [hused, hkey]
    exact h.lt_time

/-- A node that is found moves to the front. -/
theorem Agrees.touch (h : Agrees t v m) (hrep : Rep t v) (hx : x ∈ v.used) {v' : View}
    (hused : v'.used = x :: v.used.erase x) : Agrees t v' (m.touch (t.key x)) := by
  have hnd := hrep.used_holds.nodup
  have hmem : ∀ y, y ∈ x :: v.used.erase x ↔ y ∈ v.used := fun y =>
    (List.perm_cons_erase hx).mem_iff.symm
  have hother : ∀ y ∈ v.used.erase x, (m.touch (t.key x)).used (t.key y) = m.used (t.key y) := by
    intro y hy
    obtain ⟨hyx, hyu⟩ := hnd.mem_erase_iff.1 hy
    exact Function.update_of_ne (fun hkey => hyx (hrep.key_inj y hyu x hx hkey)) _ _
  have hself : (m.touch (t.key x)).used (t.key x) = m.time := Function.update_self _ _ _
  refine ⟨?_, fun key hkey => ?_, ?_, ?_⟩
  · rw [hused]
    exact fun y hy => h.held y ((hmem y).1 hy)
  · obtain ⟨y, hy, hkeyy⟩ := h.exists_node key hkey
    rw [hused]
    exact ⟨y, (hmem y).2 hy, hkeyy⟩
  · rw [hused, List.pairwise_cons]
    constructor
    · intro y hy
      rw [hother y hy, hself]
      exact h.lt_time y (List.mem_of_mem_erase hy)
    · refine (h.order.sublist List.erase_sublist).imp_of_mem fun {y z} hy hz hlt => ?_
      rw [hother y hy, hother z hz]
      exact hlt
  · rw [hused]
    intro y hy
    rcases List.mem_cons.1 hy with rfl | hy
    · rw [hself]
      exact Nat.lt_succ_self _
    · rw [hother y hy]
      exact (h.lt_time y (List.mem_of_mem_erase hy)).trans (Nat.lt_succ_self _)

/-- A node that is taken out. -/
theorem Agrees.erase (h : Agrees t v m) (hrep : Rep t v) (hx : x ∈ v.used) {v' : View}
    (hused : v'.used = v.used.erase x) : Agrees t v' (m.erase (t.key x)) := by
  have hnd := hrep.used_holds.nodup
  have hother : ∀ y ∈ v.used.erase x, t.key y ≠ t.key x := by
    intro y hy hkey
    obtain ⟨hyx, hyu⟩ := hnd.mem_erase_iff.1 hy
    exact hyx (hrep.key_inj y hyu x hx hkey)
  refine ⟨?_, fun key hkey => ?_, ?_, ?_⟩
  · rw [hused]
    intro y hy
    exact (Function.update_of_ne (hother y hy) _ _).trans (h.held y (List.mem_of_mem_erase hy))
  · have hne : key ≠ t.key x := by
      rintro rfl
      exact hkey (Function.update_self _ _ _)
    have hkey' : m.data key ≠ none := fun hnone =>
      hkey ((Function.update_of_ne hne _ _).trans hnone)
    obtain ⟨y, hy, rfl⟩ := h.exists_node key hkey'
    rw [hused]
    exact ⟨y, hnd.mem_erase_iff.2 ⟨fun hyx => hne (by rw [hyx]), hy⟩, rfl⟩
  · rw [hused]
    exact h.order.sublist List.erase_sublist
  · rw [hused]
    exact fun y hy => h.lt_time y (List.mem_of_mem_erase hy)

/-- A node for a key that is not in the map. -/
theorem Agrees.insert (h : Agrees t v m) (hrep : Rep t v) (hx : x ∉ v.used) {key : K}
    (hkey : m.data key = none) (data : Option D) {v' : View} (hused : v'.used = x :: v.used) :
    Agrees (insertNode t x key data) v'
      (m.insert key (if t.datasize = 0 then data else data.or (t.data x))) := by
  rw [hrep.insertNode_eq]
  have hne : ∀ y ∈ v.used, y ≠ x := fun y hy hyx => hx (hyx ▸ hy)
  have hkeyx : (inserted t v x key data).key x = key := Function.update_self _ _ _
  have hdatax : (inserted t v x key data).data x =
      if t.datasize = 0 then data else data.or (t.data x) := Function.update_self _ _ _
  have hkeyOf : ∀ y ∈ v.used, (inserted t v x key data).key y = t.key y := fun y hy =>
    Function.update_of_ne (hne y hy) _ _
  have hdataOf : ∀ y ∈ v.used, (inserted t v x key data).data y = t.data y := fun y hy =>
    Function.update_of_ne (hne y hy) _ _
  have hnew : ∀ y ∈ v.used, t.key y ≠ key := h.none_iff.1 hkey
  have husedOf : ∀ y ∈ v.used, ∀ d, (m.insert key d).used (t.key y) = m.used (t.key y) :=
    fun y hy d => Function.update_of_ne (hnew y hy) _ _
  have husedx : ∀ d, (m.insert key d).used key = m.time := fun d => Function.update_self _ _ _
  refine ⟨?_, fun key' hkey' => ?_, ?_, ?_⟩
  · rw [hused]
    intro y hy
    rcases List.mem_cons.1 hy with rfl | hy
    · rw [hkeyx, hdatax]
      exact Function.update_self _ _ _
    · rw [hkeyOf y hy, hdataOf y hy]
      exact (Function.update_of_ne (hnew y hy) _ _).trans (h.held y hy)
  · rw [hused]
    by_cases hkk : key' = key
    · exact ⟨x, List.mem_cons_self, hkeyx.trans hkk.symm⟩
    · have hold : m.data key' ≠ none := fun hnone =>
        hkey' ((Function.update_of_ne hkk _ _).trans hnone)
      obtain ⟨y, hy, hyk⟩ := h.exists_node key' hold
      exact ⟨y, List.mem_cons_of_mem x hy, (hkeyOf y hy).trans hyk⟩
  · rw [hused, List.pairwise_cons]
    constructor
    · intro y hy
      rw [hkeyOf y hy, hkeyx, husedOf y hy, husedx]
      exact h.lt_time y hy
    · refine h.order.imp_of_mem fun {y z} hy hz hlt => ?_
      rw [hkeyOf y hy, hkeyOf z hz, husedOf y hy, husedOf z hz]
      exact hlt
  · rw [hused]
    intro y hy
    rcases List.mem_cons.1 hy with rfl | hy
    · rw [hkeyx, husedx]
      exact Nat.lt_succ_self _
    · rw [hkeyOf y hy, husedOf y hy]
      exact (h.lt_time y hy).trans (Nat.lt_succ_self _)

/-! ### Calls -/

omit [DecidableEq K] in
/-- What an added node holds. -/
theorem stored_data (t : SfxHash K D) (data old : Option D) :
    (if t.datasize = 0 then data else data.or old) = data ∨
      (t.supply.copies = true ∧ data = none) := by
  by_cases hsize : t.datasize = 0
  · exact .inl (if_pos hsize)
  · cases data with
    | none => exact .inr ⟨decide_eq_true hsize, rfl⟩
    | some d => exact .inl (by rw [if_neg hsize]; rfl)

omit [DecidableEq K] in
/-- The node recovered is the least recently used one that may be. -/
theorem Agrees.isOldest (h : Agrees t v m) {anrfree : K → Option D → Bool}
    (hx : (v.used.reverse.find? fun y => !anrfree (t.key y) (t.data y)) = some x) :
    x ∈ v.used ∧ IsOldest m anrfree (t.key x) := by
  obtain ⟨hveto, as, bs, hsplit, has⟩ := List.find?_eq_some_iff_append.1 hx
  have hused : v.used = bs.reverse ++ x :: as.reverse := by
    rw [← List.reverse_reverse v.used, hsplit]
    simp
  have hmem : x ∈ v.used := by
    rw [hused]
    exact List.mem_append_right _ List.mem_cons_self
  refine ⟨hmem, t.data x, h.held x hmem, by simpa using hveto, fun key' data' hkey' hveto' => ?_⟩
  obtain ⟨y, hy, rfl⟩ := h.exists_node key' (by rw [hkey']; exact Option.some_ne_none _)
  obtain rfl : data' = t.data y := Option.some.inj (hkey'.symm.trans (h.held y hy))
  have horder := h.order
  rw [hused] at horder hy
  rcases List.mem_append.1 hy with hy | hy
  · exact ((List.pairwise_append.1 horder).2.2 y hy x List.mem_cons_self).le
  · rcases List.mem_cons.1 hy with rfl | hy
    · exact le_rfl
    · -- a node behind it may not be dropped
      have hvetoed := has y (List.mem_reverse.1 hy)
      rw [hveto'] at hvetoed
      exact absurd hvetoed (by decide)

omit [DecidableEq K] in
theorem Rep.spare_iff (h : Rep t v) : t.supply.spare ↔ v.free ≠ [] ∨ CanAlloc t := by
  have hhead : t.fhead ≠ none ↔ v.free ≠ [] := by
    rw [h.fhead, ne_eq, List.head?_eq_none_iff]
  exact or_congr_left hhead

omit [DecidableEq K] in
theorem NodeSource.cases {anrfree : ℕ → Bool} {used : List ℕ} (h : NodeSource t v anrfree x used) :
    (used = v.used ∧ (v.free ≠ [] ∨ CanAlloc t)) ∨
      (used = v.used.erase x ∧ v.free = [] ∧ ¬ CanAlloc t ∧ t.anrFlag = true ∧
        (v.used.reverse.find? fun y => !anrfree y) = some x) := by
  cases h with
  | free hfree => exact .inl ⟨rfl, .inl (by rw [hfree]; exact List.cons_ne_nil _ _)⟩
  | alloc _ halloc => exact .inl ⟨rfl, .inr halloc⟩
  | recovered hfree halloc hanr hx => exact .inr ⟨rfl, hfree, halloc, hanr, hx⟩

/-- A key that was not in the map gets a node. -/
theorem Agrees.newNode (h : Agrees t v m) (hrep : Rep t v) {anrfree : K → Option D → Bool}
    {t₁ : SfxHash K D} {v₁ : View}
    (hnew : NewNode t v (fun x => anrfree (t.key x) (t.data x)) x t₁ v₁) {key : K}
    (hkey : m.data key = none) (data : Option D) :
    ∃ m', Agrees (insertNode t₁ x key data) (v₁.insert (t.index key) x) m' ∧
      LruStep t.supply m (.add anrfree key data) (.added .ok) m' := by
  have hstored : (if t₁.datasize = 0 then data else data.or (t₁.data x)) = data ∨
      (t.supply.copies = true ∧ data = none) := by
    rw [hnew.same.datasize]
    exact stored_data t data (t₁.data x)
  -- the map without the node that is recovered
  have hbefore : ∃ m₁, Agrees t v₁ m₁ ∧ m₁.data key = none ∧ (∀ y ∈ v₁.used, y ∈ v.used) ∧
      ∀ data', data' = data ∨ (t.supply.copies = true ∧ data = none) →
        LruStep t.supply m (.add anrfree key data) (.added .ok) (m₁.insert key data') := by
    rcases hnew.source.cases with ⟨hused, hspare⟩ | ⟨hused, hfree, halloc, hanr, hfind⟩
    · exact ⟨m, h.congr rfl rfl hused, hkey, fun y hy => hused ▸ hy,
        fun data' hdata => .added hkey (hrep.spare_iff.2 hspare) hdata⟩
    · obtain ⟨hx, holdest⟩ := h.isOldest hfind
      have hne : key ≠ t.key x := fun hkeyx => h.none_iff.1 hkey x hx hkeyx.symm
      refine ⟨m.erase (t.key x), h.erase hrep hx hused, ?_, fun y hy => ?_, fun data' hdata => ?_⟩
      · exact (Function.update_of_ne hne _ _).trans hkey
      · rw [hused] at hy
        exact List.mem_of_mem_erase hy
      · refine .recovered hkey ?_ hanr holdest hdata
        rw [hrep.spare_iff]
        exact not_or.2 ⟨fun hne => hne hfree, halloc⟩
  obtain ⟨m₁, hagrees, hnone, hsub, hstep⟩ := hbefore
  have hagrees₁ : Agrees t₁ v₁ m₁ := by
    refine ⟨fun y hy => ?_, ?_, ?_, ?_⟩
    · rw [hnew.same.key, hnew.data y (hsub y hy)]
      exact hagrees.held y hy
    · rw [hnew.same.key]
      exact hagrees.exists_node
    · rw [hnew.same.key]
      exact hagrees.order
    · rw [hnew.same.key]
      exact hagrees.lt_time
  exact ⟨_, hagrees₁.insert hnew.rep hnew.not_used hnone data rfl, hstep _ hstored⟩

/-- A call on a table that holds a map. -/
theorem Agrees.run (h : Agrees t v m) (hrep : Rep t v) (hsplay : t.splay = true)
    {call : LruCall K D} {result : LruResult D} (hcall : t.run call = some (result, t')) :
    ∃ v' m', Rep t' v' ∧ Agrees t' v' m' ∧ t'.splay = true ∧
      LruStep t.supply m call result m' := by
  have hfound : ∀ x, (v.found t.splay (t.rindex x) x).used = x :: v.used.erase x := by
    intro x
    rw [View.found, if_pos hsplay]
    rfl
  cases call with
  | find key =>
    rw [SfxHash.run, sfxhashFind] at hcall
    rcases hrep.findNodeRow key with ⟨x, hx, rfl, t₁, heq, hrep', hkeeps⟩ | ⟨hkey, heq⟩
    · rw [heq] at hcall
      obtain ⟨rfl, rfl⟩ := Prod.mk.inj (Option.some.inj hcall)
      refine ⟨_, m.touch (t.key x), hrep', ?_, hkeeps.splay.trans hsplay, ?_⟩
      · exact (h.touch hrep hx (hfound x)).congr hkeeps.key hkeeps.data rfl
      · show LruStep t.supply m (.find (t.key x)) (.found (t₁.data x)) _
        rw [congrFun hkeeps.data x]
        exact .found (h.held x hx)
    · rw [heq] at hcall
      obtain ⟨rfl, rfl⟩ := Prod.mk.inj (Option.some.inj hcall)
      exact ⟨v, m, hrep, h, hsplay, .notFound (h.none_iff.2 hkey)⟩
  | remove key =>
    rw [SfxHash.run] at hcall
    rcases hrep.remove key with ⟨x, hx, rfl, heq⟩ | ⟨hkey, heq⟩
    · rw [heq] at hcall
      obtain ⟨rfl, rfl⟩ := Prod.mk.inj (Option.some.inj hcall)
      obtain ⟨hrep', hkeeps⟩ := hrep.freeNode hx
      refine ⟨_, m.erase (t.key x), hrep', ?_, hkeeps.splay.trans hsplay, .removed (h.held x hx)⟩
      exact (h.erase hrep hx rfl).congr hkeeps.key hkeeps.data rfl
    · rw [heq] at hcall
      obtain ⟨rfl, rfl⟩ := Prod.mk.inj (Option.some.inj hcall)
      exact ⟨v, m, hrep, h, hsplay, .notRemoved (h.none_iff.2 hkey)⟩
  | add anrfree key data =>
    rw [SfxHash.run] at hcall
    rcases hrep.add (fun x => anrfree (t.key x) (t.data x)) key data with
      ⟨x, hx, rfl, t₁, heq, hrep', hkeeps⟩ | ⟨hkey, ⟨x, t₁, v₁, heq, hnew⟩ | ⟨heq, hfree, halloc, hanr⟩⟩
    · rw [heq] at hcall
      obtain ⟨rfl, rfl⟩ := Prod.mk.inj (Option.some.inj hcall)
      refine ⟨_, m.touch (t.key x), rep_walk hrep' _ _, ?_, hkeeps.splay.trans hsplay,
        .inTable (h.held x hx)⟩
      exact (h.touch hrep hx (hfound x)).congr hkeeps.key hkeeps.data rfl
    · rw [heq] at hcall
      obtain ⟨rfl, rfl⟩ := Prod.mk.inj (Option.some.inj hcall)
      obtain ⟨m', hagrees, hstep⟩ := h.newNode hrep hnew (h.none_iff.2 hkey) data
      refine ⟨_, m', hnew.insertNode hkey data, hagrees, ?_, hstep⟩
      rw [hnew.rep.insertNode_eq]
      exact hnew.same.splay.trans hsplay
    · rw [heq] at hcall
      obtain ⟨rfl, rfl⟩ := Prod.mk.inj (Option.some.inj hcall)
      refine ⟨v, m, hrep, h, hsplay, .noMem (h.none_iff.2 hkey) ?_ fun hflag key' data' hkey' => ?_⟩
      · rw [hrep.spare_iff]
        exact not_or.2 ⟨fun hne => hne hfree, halloc⟩
      · obtain ⟨y, hy, rfl⟩ := h.exists_node key' (by rw [hkey']; exact Option.some_ne_none _)
        obtain rfl : data' = t.data y := Option.some.inj (hkey'.symm.trans (h.held y hy))
        exact hanr hflag y hy

/-- The calls of a run end. -/
theorem Rep.isSome_run (h : Rep t v) (call : LruCall K D) : (t.run call).isSome := by
  cases call with
  | add anrfree key data => exact Option.isSome_map.trans (h.ends.add _ key data)
  | find key => exact Option.isSome_map.trans (h.ends.find key)
  | remove key => exact Option.isSome_map.trans (h.ends.remove key)

/-- **A hash table with splay on behaves as an LRU map.**  Every run gives the results of a run of
an `Lru`; the global list holds its keys and data, the most recently used key first; and every
further call ends. -/
theorem run_lru {es : List (Event K D)} (h : Run t es) :
    ∃ v m, Rep t v ∧ Agrees t v m ∧ LruRun es m ∧ ∀ call, (t.run call).isSome := by
  have hrun : ∃ v m, Rep t v ∧ Agrees t v m ∧ t.splay = true ∧ LruRun es m := by
    induction h with
    | new hashFcn k datasize maxNodes room anrFlag recycleNodes nokey =>
      exact ⟨_, .empty, rep_sfxhashNew _ _ _ _ _ _ _ _ _,
        ⟨fun x hx => absurd hx List.not_mem_nil, fun key hkey => absurd rfl hkey, List.Pairwise.nil,
          fun x hx => absurd hx List.not_mem_nil⟩, rfl, .empty⟩
    | call _ hcall ih =>
      obtain ⟨v, m, hrep, hagrees, hsplay, hlru⟩ := ih
      obtain ⟨v', m', hrep', hagrees', hsplay', hstep⟩ := hagrees.run hrep hsplay hcall
      exact ⟨v', m', hrep', hagrees', hsplay', .step hlru hstep⟩
  obtain ⟨v, m, hrep, hagrees, -, hlru⟩ := hrun
  exact ⟨v, m, hrep, hagrees, hlru, hrep.isSome_run⟩

/-- A table for one node that gets two keys: the first one is dropped. -/
theorem run_lru_two :
    ∃ (t : SfxHash ℕ ℕ) (es : List (Event ℕ ℕ)), es.length = 2 ∧ Run t es ∧
      ∃ v m, Rep t v ∧ Agrees t v m ∧ LruRun es m ∧ ∀ call, (t.run call).isSome := by
  have hok : ((sfxhashNew (D := ℕ) (fun key => BitVec.ofNat 32 key) (2 ^ 1) 4 1 none true true true
      0).run (.add (fun _ _ => false) 7 (some 1))).isSome := by decide
  obtain ⟨⟨r₁, t₁⟩, h₁⟩ := Option.isSome_iff_exists.1 hok
  have hrun := Run.call (.new _ 1 _ _ _ _ _ _) h₁
  obtain ⟨-, -, -, -, -, hsome⟩ := run_lru hrun
  obtain ⟨⟨r₂, t₂⟩, h₂⟩ := Option.isSome_iff_exists.1 (hsome (.add (fun _ _ => false) 8 (some 2)))
  exact ⟨t₂, _, rfl, hrun.call h₂, run_lru (hrun.call h₂)⟩

end Snort.Sfxhash.Pointers
