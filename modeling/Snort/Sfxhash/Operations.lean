import Snort.Sfxhash.Invariant

/-!
# The operations of a hash table

Each operation ends, and the representation invariant holds afterwards.

* `Rep.findNodeRow`, `Rep.newnode`, `Rep.add`: the node that is found, made or recovered;
* **`reached_rep`**: the invariant holds in every table that is reached.
-/

namespace Snort.Sfxhash.Pointers

variable {K D : Type*} {t t' : SfxHash K D} {v : View} {x : ℕ}

/-! ### Loops -/

theorem length_le_of_forall_lt {l : List ℕ} {n : ℕ} (hnd : l.Nodup) (hlt : ∀ x ∈ l, x < n) :
    l.length ≤ n := by
  have hsub : l.Subperm (List.range n) := hnd.subperm fun x hx => List.mem_range.2 (hlt x hx)
  rw [← List.length_range (n := n)]
  exact hsub.length_le

/-- The loop along a row. -/
theorem findLoop_eq [DecidableEq K] (key : K) {l : List ℕ} : ∀ {fuel : ℕ} {p : Option ℕ},
    t.row.Seg p l none → l.length ≤ fuel →
      findLoop t key fuel l.head? = some (l.find? fun x => t.key x = key) := by
  induction l with
  | nil =>
    intro fuel p _ _
    cases fuel <;> rfl
  | cons x l ih =>
    intro fuel p hseg hfuel
    cases fuel with
    | zero => exact absurd hfuel (Nat.not_succ_le_zero _)
    | succ fuel =>
      obtain ⟨-, hnext, hrest⟩ := hseg
      rw [Option.or_none] at hnext
      rw [List.head?_cons, findLoop, List.find?_cons]
      by_cases hx : t.key x = key
      · simp [hx]
      · simpa [hx, hnext] using ih hrest (Nat.le_of_succ_le_succ hfuel)

/-- The loop along the global list, from its end. -/
theorem recoverLoop_eq (anrfree : ℕ → Bool) {a : List ℕ} : ∀ {b : List ℕ} {fuel : ℕ},
    t.glob.Holds (a ++ b) → a.length ≤ fuel →
      recoverLoop t anrfree fuel a.getLast? = some (a.reverse.find? fun x => !anrfree x) := by
  induction a using List.reverseRecOn with
  | nil =>
    intro b fuel _ _
    cases fuel <;> rfl
  | append_singleton a x ih =>
    intro b fuel hholds hfuel
    rw [List.length_append, List.length_singleton] at hfuel
    cases fuel with
    | zero => exact absurd hfuel (Nat.not_succ_le_zero _)
    | succ fuel =>
      rw [List.append_assoc] at hholds
      have hprev : t.glob.prev x = a.getLast? := hholds.cell.2
      rw [List.getLast?_concat, recoverLoop, List.reverse_append, List.reverse_singleton,
        List.singleton_append, List.find?_cons]
      by_cases hx : anrfree x = true
      · simpa [hx, hprev] using ih hholds (Nat.le_of_succ_le_succ hfuel)
      · simp [hx]

theorem Rep.length_row_le (h : Rep t v) (r : ℕ) : (v.row r).length ≤ t.brk :=
  length_le_of_forall_lt (h.rows.holds r).nodup fun x hx =>
    h.used_lt x ((h.mem_row r x).1 hx).1

theorem Rep.length_used_le (h : Rep t v) : v.used.length ≤ t.brk :=
  length_le_of_forall_lt h.used_holds.nodup h.used_lt

/-! ### Nodes found and made -/

/-- The walk along the row of a key: a node of the table with this key, or there is none. -/
theorem Rep.findLoop_spec [DecidableEq K] (h : Rep t v) (key : K) :
    (∃ x ∈ v.used, t.key x = key ∧
        findLoop t key t.brk (t.table (t.index key)) = some (some x)) ∨
      ((∀ x ∈ v.used, t.key x ≠ key) ∧
        findLoop t key t.brk (t.table (t.index key)) = some none) := by
  have heq := findLoop_eq key (h.rows.holds (t.index key)).seg (h.length_row_le _)
  rw [h.table, heq]
  cases hfind : (v.row (t.index key)).find? fun x => t.key x = key with
  | some x =>
    have hmem := List.mem_of_find?_eq_some hfind
    have hkey := List.find?_some hfind
    exact .inl ⟨x, ((h.mem_row _ x).1 hmem).1, of_decide_eq_true hkey, rfl⟩
  | none =>
    refine .inr ⟨fun x hx hkey => ?_, rfl⟩
    have hrow : x ∈ v.row (t.index key) := (h.mem_row _ x).2 ⟨hx, by rw [h.rindex x hx, hkey]⟩
    exact absurd hkey (by simpa using List.find?_eq_none.1 hfind x hrow)

/-- The lists behind a lookup that finds a node. -/
def View.found (v : View) (splay : Bool) (r x : ℕ) : View :=
  if splay then (v.rfront r x).gfront x else v

/-- `sfxhash_find_node_row`. -/
theorem Rep.findNodeRow [DecidableEq K] (h : Rep t v) (key : K) :
    (∃ x ∈ v.used, t.key x = key ∧ ∃ t', sfxhashFindNodeRow t key = some (some x, t') ∧
        Rep t' (v.found t.splay (t.rindex x) x) ∧ Keeps t t') ∨
      ((∀ x ∈ v.used, t.key x ≠ key) ∧ sfxhashFindNodeRow t key = some (none, t)) := by
  rcases h.findLoop_spec key with ⟨x, hx, hkey, heq⟩ | ⟨hkey, heq⟩
  · refine .inl ⟨x, hx, hkey, _, by rw [sfxhashFindNodeRow, heq]; rfl, ?_⟩
    show Rep (if t.splay then movetofront t x else t) _ ∧
      Keeps t (if t.splay then movetofront t x else t)
    rw [View.found]
    by_cases hsplay : t.splay = true
    · rw [if_pos hsplay, if_pos hsplay]
      exact h.toFront hx
    · rw [if_neg hsplay, if_neg hsplay]
      exact ⟨h, .refl t⟩
  · exact .inr ⟨hkey, by rw [sfxhashFindNodeRow, heq]; rfl⟩

/-- A node may be allocated. -/
def CanAlloc (t : SfxHash K D) : Prop :=
  (t.maxNodes = 0 ∨ t.count < t.maxNodes) ∧ t.room ≠ some 0

instance (t : SfxHash K D) : Decidable (CanAlloc t) := instDecidableAnd

/-- Where the node of `sfxhash_newnode` comes from, and the nodes in use afterwards: the free list,
an allocation, or the nodes in use. -/
inductive NodeSource (t : SfxHash K D) (v : View) (anrfree : ℕ → Bool) : ℕ → List ℕ → Prop
  | free {y : ℕ} {l : List ℕ} (hfree : v.free = y :: l) : NodeSource t v anrfree y v.used
  | alloc (hfree : v.free = []) (halloc : CanAlloc t) : NodeSource t v anrfree t.brk v.used
  | recovered {y : ℕ} (hfree : v.free = []) (halloc : ¬ CanAlloc t) (hanr : t.anrFlag = true)
      (hy : (v.used.reverse.find? fun z => !anrfree z) = some y) :
      NodeSource t v anrfree y (v.used.erase y)

/-- A node that is on no list. -/
structure NewNode (t : SfxHash K D) (v : View) (anrfree : ℕ → Bool) (x : ℕ) (t' : SfxHash K D)
    (v' : View) : Prop where
  rep : Rep t' v'
  same : SameTable t t'
  source : NodeSource t v anrfree x v'.used
  not_used : x ∉ v'.used
  not_free : x ∉ v'.free
  lt_brk : x < t'.brk
  data : ∀ y ∈ v.used, t'.data y = t.data y

theorem sAlloc_eq (t : SfxHash K D) :
    (if t.maxNodes = 0 ∨ t.count < t.maxNodes then sAlloc t else none) =
      if CanAlloc t then
        some (t.brk, { t with
          room := t.room.map fun n => n - 1
          brk := t.brk + 1
          data := Function.update t.data t.brk none })
      else none := by
  by_cases hmax : t.maxNodes = 0 ∨ t.count < t.maxNodes
  · rw [if_pos hmax, sAlloc]
    by_cases hroom : t.room = some 0
    · rw [if_pos hroom, if_neg fun h => h.2 hroom]
    · rw [if_neg hroom, if_pos ⟨hmax, hroom⟩]
  · rw [if_neg hmax, if_neg fun h => hmax h.1]

/-- `sfxhash_newnode`. -/
theorem Rep.newnode (h : Rep t v) (anrfree : ℕ → Bool) :
    (∃ x t' v', sfxhashNewnode anrfree t = some (some x, t') ∧ NewNode t v anrfree x t' v') ∨
      (sfxhashNewnode anrfree t = some (none, t) ∧ v.free = [] ∧ ¬ CanAlloc t ∧
        (t.anrFlag = true → ∀ x ∈ v.used, anrfree x = true)) := by
  have hcases : (∃ x l, v.free = x :: l) ∨ v.free = [] := by
    cases v.free <;> simp
  rcases hcases with ⟨x, l, hfree⟩ | hfree
  · have hhead : t.fhead = some x := by rw [h.fhead, hfree]; rfl
    obtain ⟨hrep, hkeeps⟩ := h.getFreeNode hfree
    have hnd := h.free_holds.nodup
    rw [hfree] at hnd
    refine .inl ⟨x, _, _, by rw [sfxhashNewnode, hhead], hrep, hkeeps.toSameTable, .free hfree, ?_,
      (List.nodup_cons.1 hnd).1, ?_, fun y _ => congrFun hkeeps.data y⟩
    · exact fun hx => h.not_free hx (hfree ▸ List.mem_cons_self)
    · rw [hkeeps.brk]
      exact h.free_lt x (hfree ▸ List.mem_cons_self)
  · have hhead : t.fhead = none := by rw [h.fhead, hfree]; rfl
    rw [sfxhashNewnode, hhead]
    simp only [sAlloc_eq]
    by_cases halloc : CanAlloc t
    · rw [if_pos halloc]
      have hlt : ∀ y ∈ v.used, y < t.brk + 1 := fun y hy => (h.used_lt y hy).trans (Nat.lt_succ_self _)
      refine .inl ⟨t.brk, _, v, rfl, ?_, ⟨rfl, rfl, rfl, rfl, rfl, rfl, rfl, rfl, rfl, rfl, rfl⟩,
        .alloc hfree halloc, fun hx => absurd (h.used_lt _ hx) (lt_irrefl _), by simp [hfree],
        Nat.lt_succ_self _, fun y hy => Function.update_of_ne (h.used_lt y hy).ne _ _⟩
      exact ⟨h.rows, h.table, h.globs, h.ghead, h.gtail, h.fhead, h.ftail, h.mem_row, h.rindex,
        h.key_inj, hlt, fun y hy => (h.free_lt y hy).trans (Nat.lt_succ_self _), h.count⟩
    · rw [if_neg halloc]
      simp only
      have hloop := recoverLoop_eq anrfree (a := v.used) (b := []) (by
        rw [List.append_nil]
        exact h.used_holds) h.length_used_le
      rw [← h.gtail] at hloop
      by_cases hanr : t.anrFlag = true ∧ t.gtail ≠ none
      · rw [if_pos hanr, hloop]
        cases hfind : v.used.reverse.find? fun y => !anrfree y with
        | none =>
          refine .inr ⟨rfl, hfree, halloc, fun _ x hx => ?_⟩
          simpa using List.find?_eq_none.1 hfind x (List.mem_reverse.2 hx)
        | some x =>
          have hx : x ∈ v.used := List.mem_reverse.1 (List.mem_of_find?_eq_some hfind)
          have hrep := h.erase hx
          refine .inl ⟨x, _, v.erase (t.rindex x) x, rfl, ?_, ?_, .recovered hfree halloc hanr.1 hfind,
            h.used_holds.nodup.not_mem_erase, h.not_free hx, ?_, fun y _ => ?_⟩
          · rw [(h.detached_eq hx).2]
            exact hrep
          · rw [(h.detached_eq hx).2]
            exact (keeps_detached t v x _).toSameTable
          · rw [(h.detached_eq hx).2]
            exact h.used_lt x hx
          · rw [(h.detached_eq hx).2]
            rfl
      · rw [if_neg hanr]
        refine .inr ⟨rfl, hfree, halloc, fun hflag x hx => absurd ⟨hflag, ?_⟩ hanr⟩
        rw [h.gtail]
        exact Option.isSome_iff_ne_none.1 (List.getLast?_isSome.2 (List.ne_nil_of_mem hx))

/-! ### Operations -/

section Operations

variable [DecidableEq K]

omit [DecidableEq K] in
/-- The new node with its key and data. -/
theorem NewNode.insertNode {anrfree : ℕ → Bool} {v' : View} (h : NewNode t v anrfree x t' v')
    {key : K} (hkey : ∀ y ∈ v.used, t.key y ≠ key) (data : Option D) :
    Rep (insertNode t' x key data) (v'.insert (t.index key) x) := by
  have hsub : ∀ y ∈ v'.used, y ∈ v.used := by
    intro y hy
    have hsource := h.source
    generalize v'.used = used at hy hsource
    cases hsource with
    | free _ => exact hy
    | alloc _ _ => exact hy
    | recovered _ _ _ _ => exact List.mem_of_mem_erase hy
  rw [← h.same.index]
  refine h.rep.insert h.not_used h.not_free h.lt_brk (fun y hy => ?_) data
  rw [h.same.key]
  exact hkey y (hsub y hy)

/-- What `sfxhash_add` does: the key is there, it gets a new node, or there is no node for it. -/
theorem Rep.add (h : Rep t v) (anrfree : ℕ → Bool) (key : K) (data : Option D) :
    (∃ x ∈ v.used, t.key x = key ∧ ∃ t',
        sfxhashAdd anrfree t key data = some (.inTable, { t' with cnode := some x }) ∧
        Rep t' (v.found t.splay (t.rindex x) x) ∧ Keeps t t') ∨
      ((∀ x ∈ v.used, t.key x ≠ key) ∧
        ((∃ x t' v', sfxhashAdd anrfree t key data = some (.ok, insertNode t' x key data) ∧
            NewNode t v anrfree x t' v') ∨
          (sfxhashAdd anrfree t key data = some (.noMem, t) ∧ v.free = [] ∧ ¬ CanAlloc t ∧
            (t.anrFlag = true → ∀ x ∈ v.used, anrfree x = true)))) := by
  rcases h.findNodeRow key with ⟨x, hx, hkey, t', heq, hrep, hkeeps⟩ | ⟨hkey, heq⟩
  · exact .inl ⟨x, hx, hkey, t', by rw [sfxhashAdd, heq], hrep, hkeeps⟩
  · refine .inr ⟨hkey, ?_⟩
    rcases h.newnode anrfree with ⟨x, t', v', hnew, hnode⟩ | ⟨hnew, hfail⟩
    · exact .inl ⟨x, t', v', by rw [sfxhashAdd, heq]; simp only [hnew]; rfl, hnode⟩
    · exact .inr ⟨by rw [sfxhashAdd, heq]; simp only [hnew]; rfl, hfail⟩

/-- What `sfxhash_get_node` does. -/
theorem Rep.getNode (h : Rep t v) (anrfree : ℕ → Bool) (key : K) :
    (∃ x ∈ v.used, t.key x = key ∧ ∃ t',
        sfxhashGetNode anrfree t key = some (some x, { t' with cnode := some x }) ∧
        Rep t' (v.found t.splay (t.rindex x) x) ∧ Keeps t t') ∨
      ((∀ x ∈ v.used, t.key x ≠ key) ∧
        ((∃ x t' v', sfxhashGetNode anrfree t key = some (some x, insertNode t' x key none) ∧
            NewNode t v anrfree x t' v') ∨
          sfxhashGetNode anrfree t key = some (none, t))) := by
  rcases h.findNodeRow key with ⟨x, hx, hkey, t', heq, hrep, hkeeps⟩ | ⟨hkey, heq⟩
  · exact .inl ⟨x, hx, hkey, t', by rw [sfxhashGetNode, heq], hrep, hkeeps⟩
  · refine .inr ⟨hkey, ?_⟩
    rcases h.newnode anrfree with ⟨x, t', v', hnew, hnode⟩ | ⟨hnew, -⟩
    · exact .inl ⟨x, t', v', by rw [sfxhashGetNode, heq]; simp only [hnew]; rfl, hnode⟩
    · exact .inr (by rw [sfxhashGetNode, heq]; simp only [hnew]; rfl)

/-- What `sfxhash_remove` does. -/
theorem Rep.remove (h : Rep t v) (key : K) :
    (∃ x ∈ v.used, t.key x = key ∧ sfxhashRemove t key = some (true, sfxhashFreeNode t x)) ∨
      ((∀ x ∈ v.used, t.key x ≠ key) ∧ sfxhashRemove t key = some (false, t)) := by
  rcases h.findLoop_spec key with ⟨x, hx, hkey, heq⟩ | ⟨hkey, heq⟩
  · exact .inl ⟨x, hx, hkey, by rw [sfxhashRemove, heq]; rfl⟩
  · exact .inr ⟨hkey, by rw [sfxhashRemove, heq]; rfl⟩

/-! ### Runs -/

/-- The node is one that a lookup gives. -/
def Linked (t : SfxHash K D) (x : ℕ) : Prop := ∃ key t', sfxhashFindNodeRow t key = some (some x, t')

/-- A call on a table, with any verdicts of `anrfree`.  Calls on a node are made with a node of the
table. -/
inductive Call (t : SfxHash K D) : SfxHash K D → Prop
  | add (anrfree : ℕ → Bool) (key : K) (data : Option D) {status : SfxStatus} {t' : SfxHash K D}
      (h : sfxhashAdd anrfree t key data = some (status, t')) : Call t t'
  | getNode (anrfree : ℕ → Bool) (key : K) {node : Option ℕ} {t' : SfxHash K D}
      (h : sfxhashGetNode anrfree t key = some (node, t')) : Call t t'
  | findNode (key : K) {node : Option ℕ} {t' : SfxHash K D}
      (h : sfxhashFindNodeRow t key = some (node, t')) : Call t t'
  | find (key : K) {data : Option D} {t' : SfxHash K D}
      (h : sfxhashFind t key = some (data, t')) : Call t t'
  | remove (key : K) {found : Bool} {t' : SfxHash K D}
      (h : sfxhashRemove t key = some (found, t')) : Call t t'
  | findfirst : Call t (sfxhashFindfirst t).2
  | findnext : Call t (sfxhashFindnext t).2
  | freeNode {x : ℕ} (h : Linked t x) : Call t (sfxhashFreeNode t x)
  | gmovetofront {x : ℕ} (h : Linked t x) : Call t (sfxhashGmovetofront t x)

/-- A table that calls lead to, from a new one with a power of two of rows. -/
inductive Reached : SfxHash K D → Prop
  | new (hashFcn : K → BitVec 32) (k datasize maxNodes : ℕ) (room : Option ℕ)
      (splay anrFlag recycleNodes : Bool) (nokey : K) :
      Reached (sfxhashNew hashFcn (2 ^ k) datasize maxNodes room splay anrFlag recycleNodes nokey)
  | call {t t' : SfxHash K D} (ht : Reached t) (hcall : Call t t') : Reached t'

/-- All calls end. -/
structure Ends (t : SfxHash K D) : Prop where
  add : ∀ anrfree key data, (sfxhashAdd anrfree t key data).isSome
  getNode : ∀ anrfree key, (sfxhashGetNode anrfree t key).isSome
  findNode : ∀ key, (sfxhashFindNodeRow t key).isSome
  find : ∀ key, (sfxhashFind t key).isSome
  remove : ∀ key, (sfxhashRemove t key).isSome

theorem Rep.ends (h : Rep t v) : Ends t where
  add anrfree key data := by
    rcases h.add anrfree key data with ⟨x, -, -, t', heq, -⟩ | ⟨-, ⟨x, t', v', heq, -⟩ | ⟨heq, -⟩⟩ <;>
      rw [heq] <;> rfl
  getNode anrfree key := by
    rcases h.getNode anrfree key with ⟨x, -, -, t', heq, -⟩ | ⟨-, ⟨x, t', v', heq, -⟩ | heq⟩ <;>
      rw [heq] <;> rfl
  findNode key := by
    rcases h.findNodeRow key with ⟨x, -, -, t', heq, -⟩ | ⟨-, heq⟩ <;> rw [heq] <;> rfl
  find key := by
    rcases h.findNodeRow key with ⟨x, -, -, t', heq, -⟩ | ⟨-, heq⟩ <;> rw [sfxhashFind, heq] <;> rfl
  remove key := by
    rcases h.remove key with ⟨x, -, -, heq⟩ | ⟨-, heq⟩ <;> rw [heq] <;> rfl

omit [DecidableEq K] in
theorem rep_walk (h : Rep t v) (crow : ℕ) (cnode : Option ℕ) :
    Rep { t with crow := crow, cnode := cnode } v :=
  ⟨h.rows, h.table, h.globs, h.ghead, h.gtail, h.fhead, h.ftail, h.mem_row, h.rindex, h.key_inj,
    h.used_lt, h.free_lt, h.count⟩

omit [DecidableEq K] in
/-- The cursor is all that a walk changes. -/
theorem Rep.next (h : Rep t v) : Rep (sfxhashNext t) v ∧ (sfxhashNext t).nrows = t.nrows := by
  rw [sfxhashNext]
  cases t.cnode with
  | none => exact ⟨h, rfl⟩
  | some x =>
    cases hnext : t.row.next x with
    | none =>
      simp only [hnext]
      exact ⟨rep_walk h _ _, trivial⟩
    | some y =>
      simp only [hnext]
      exact ⟨rep_walk h t.crow (some y), trivial⟩

omit [DecidableEq K] in
theorem Rep.findfirst (h : Rep t v) :
    Rep (sfxhashFindfirst t).2 v ∧ (sfxhashFindfirst t).2.nrows = t.nrows := by
  have hrep := rep_walk h (nextRow t t.nrows 0).1 (nextRow t t.nrows 0).2
  rw [sfxhashFindfirst]
  cases hrow : nextRow t t.nrows 0 with
  | mk crow cnode =>
    rw [hrow] at hrep
    cases cnode with
    | none => exact ⟨hrep, rfl⟩
    | some x => exact hrep.next

omit [DecidableEq K] in
theorem rep_sfxhashNew (hashFcn : K → BitVec 32) (nrows datasize maxNodes : ℕ) (room : Option ℕ)
    (splay anrFlag recycleNodes : Bool) (nokey : K) :
    Rep (sfxhashNew (D := D) hashFcn nrows datasize maxNodes room splay anrFlag recycleNodes nokey)
      ⟨fun _ => [], [], []⟩ where
  rows := Links.family_nil _
  table _ := rfl
  globs := ⟨fun p => by cases p <;> exact Links.holds_nil _, fun {p _ x} hx => by
    cases p <;> exact absurd hx List.not_mem_nil⟩
  ghead := rfl
  gtail := rfl
  fhead := rfl
  ftail := rfl
  mem_row r x := by simp
  rindex x hx := absurd hx List.not_mem_nil
  key_inj x hx := absurd hx List.not_mem_nil
  used_lt x hx := absurd hx List.not_mem_nil
  free_lt x hx := absurd hx List.not_mem_nil
  count := rfl

theorem Rep.mem_of_linked (h : Rep t v) (hx : Linked t x) : x ∈ v.used := by
  obtain ⟨key, t', heq⟩ := hx
  rcases h.findNodeRow key with ⟨y, hy, -, t'', heq', -⟩ | ⟨-, heq'⟩
  · obtain ⟨hxy, -⟩ := Prod.mk.inj (Option.some.inj (heq.symm.trans heq'))
    exact Option.some.inj hxy ▸ hy
  · obtain ⟨hxy, -⟩ := Prod.mk.inj (Option.some.inj (heq.symm.trans heq'))
    exact absurd hxy (Option.some_ne_none x)

/-- One call keeps the invariant. -/
theorem Rep.call (h : Rep t v) (hcall : Call t t') :
    (∃ v', Rep t' v') ∧ t'.nrows = t.nrows := by
  cases hcall with
  | add anrfree key data heq =>
    rcases h.add anrfree key data with ⟨x, -, -, t₁, heq', hrep, hkeeps⟩ |
      ⟨hkey, ⟨x, t₁, v₁, heq', hnew⟩ | ⟨heq', -⟩⟩
    · obtain ⟨-, rfl⟩ := Prod.mk.inj (Option.some.inj (heq.symm.trans heq'))
      exact ⟨⟨_, rep_walk hrep _ _⟩, hkeeps.nrows⟩
    · obtain ⟨-, rfl⟩ := Prod.mk.inj (Option.some.inj (heq.symm.trans heq'))
      refine ⟨⟨_, hnew.insertNode hkey data⟩, ?_⟩
      rw [hnew.rep.insertNode_eq]
      exact hnew.same.nrows
    · obtain ⟨-, rfl⟩ := Prod.mk.inj (Option.some.inj (heq.symm.trans heq'))
      exact ⟨⟨v, h⟩, rfl⟩
  | getNode anrfree key heq =>
    rcases h.getNode anrfree key with ⟨x, -, -, t₁, heq', hrep, hkeeps⟩ |
      ⟨hkey, ⟨x, t₁, v₁, heq', hnew⟩ | heq'⟩
    · obtain ⟨-, rfl⟩ := Prod.mk.inj (Option.some.inj (heq.symm.trans heq'))
      exact ⟨⟨_, rep_walk hrep _ _⟩, hkeeps.nrows⟩
    · obtain ⟨-, rfl⟩ := Prod.mk.inj (Option.some.inj (heq.symm.trans heq'))
      refine ⟨⟨_, hnew.insertNode hkey none⟩, ?_⟩
      rw [hnew.rep.insertNode_eq]
      exact hnew.same.nrows
    · obtain ⟨-, rfl⟩ := Prod.mk.inj (Option.some.inj (heq.symm.trans heq'))
      exact ⟨⟨v, h⟩, rfl⟩
  | findNode key heq =>
    rcases h.findNodeRow key with ⟨x, -, -, t₁, heq', hrep, hkeeps⟩ | ⟨-, heq'⟩
    · obtain ⟨-, rfl⟩ := Prod.mk.inj (Option.some.inj (heq.symm.trans heq'))
      exact ⟨⟨_, hrep⟩, hkeeps.nrows⟩
    · obtain ⟨-, rfl⟩ := Prod.mk.inj (Option.some.inj (heq.symm.trans heq'))
      exact ⟨⟨v, h⟩, rfl⟩
  | find key heq =>
    rcases h.findNodeRow key with ⟨x, -, -, t₁, heq', hrep, hkeeps⟩ | ⟨-, heq'⟩
    · rw [sfxhashFind, heq'] at heq
      obtain ⟨-, rfl⟩ := Prod.mk.inj (Option.some.inj heq)
      exact ⟨⟨_, hrep⟩, hkeeps.nrows⟩
    · rw [sfxhashFind, heq'] at heq
      obtain ⟨-, rfl⟩ := Prod.mk.inj (Option.some.inj heq)
      exact ⟨⟨v, h⟩, rfl⟩
  | remove key heq =>
    rcases h.remove key with ⟨x, hx, -, heq'⟩ | ⟨-, heq'⟩
    · obtain ⟨-, rfl⟩ := Prod.mk.inj (Option.some.inj (heq.symm.trans heq'))
      exact ⟨⟨_, (h.freeNode hx).1⟩, (h.freeNode hx).2.nrows⟩
    · obtain ⟨-, rfl⟩ := Prod.mk.inj (Option.some.inj (heq.symm.trans heq'))
      exact ⟨⟨v, h⟩, rfl⟩
  | findfirst => exact ⟨⟨v, h.findfirst.1⟩, h.findfirst.2⟩
  | findnext => exact ⟨⟨v, h.next.1⟩, h.next.2⟩
  | freeNode hx =>
    have hused := h.mem_of_linked hx
    exact ⟨⟨_, (h.freeNode hused).1⟩, (h.freeNode hused).2.nrows⟩
  | gmovetofront hx =>
    have hused := h.mem_of_linked hx
    exact ⟨⟨_, (h.gmovetofront hused).1⟩, (h.gmovetofront hused).2.nrows⟩

/-- Every reached table has lists, and rows. -/
theorem Reached.exists_rep (h : Reached t) : (∃ v, Rep t v) ∧ 0 < t.nrows := by
  induction h with
  | new hashFcn k datasize maxNodes room splay anrFlag recycleNodes nokey =>
    exact ⟨⟨_, rep_sfxhashNew _ _ _ _ _ _ _ _ _⟩, Nat.two_pow_pos k⟩
  | call _ hcall ih =>
    obtain ⟨⟨v, hrep⟩, hpos⟩ := ih
    obtain ⟨hrep', hnrows⟩ := hrep.call hcall
    exact ⟨hrep', hnrows ▸ hpos⟩

/-- **The representation invariant holds after every call**, and every call ends. -/
theorem reached_rep (h : Reached t) : ∃ v, Rep t v ∧ Ends t := by
  obtain ⟨⟨v, hrep⟩, -⟩ := h.exists_rep
  exact ⟨v, hrep, hrep.ends⟩

/-- A table of two rows and one node. -/
theorem reached_rep_add :
    ∃ t' : SfxHash ℕ ℕ, sfxhashAdd (fun _ => false) (sfxhashNew (fun key => BitVec.ofNat 32 key)
        (2 ^ 1) 4 0 none true true true 0) 7 (some 1) = some (.ok, t') ∧
      ∃ v, Rep t' v ∧ Ends t' := by
  have hok : (sfxhashAdd (D := ℕ) (fun _ => false) (sfxhashNew (fun key => BitVec.ofNat 32 key)
      (2 ^ 1) 4 0 none true true true 0) 7 (some 1)).map Prod.fst = some .ok := by decide
  obtain ⟨⟨status, t'⟩, heq, rfl⟩ := Option.map_eq_some_iff.1 hok
  exact ⟨t', heq, reached_rep (.call (.new _ 1 _ _ _ _ _ _ _) (.add _ _ _ heq))⟩

end Operations

end Snort.Sfxhash.Pointers
