import Snort.Sfxhash.Operations

/-!
# Walking over a hash table

`sfxhash_findfirst` and `sfxhash_findnext` keep a cursor one node ahead of the node they return, so
that the loop body may take that node out of the table.

* `Ahead`: the nodes that the cursor still leads to;
* **`walk_visits`**: whatever nodes the loop body takes out, the walk visits each node of the table
  once and ends.
-/

namespace Snort.Sfxhash.Pointers

variable {K D : Type*} {t : SfxHash K D} {v : View} {x : ℕ}

/-! ### The loop -/

/-- `for( n = sfxhash_findfirst(t); n != 0; n = sfxhash_findnext(t) )` from a node on.  The body
calls `sfxhash_remove` on the key of the node, or it does not: `remove` decides that from the nodes
seen so far. -/
def walkLoop [DecidableEq K] (remove : List ℕ → Bool) :
    ℕ → SfxHash K D → Option ℕ → List ℕ → Option (List ℕ × SfxHash K D)
  | _, t, none, seen => some (seen, t)
  | 0, _, some _, _ => none
  | fuel + 1, t, some n, seen =>
    let seen := seen ++ [n]
    (if remove seen then (sfxhashRemove t (t.key n)).map Prod.snd else some t).bind fun t =>
      walkLoop remove fuel (sfxhashFindnext t).2 (sfxhashFindnext t).1 seen

/-- The nodes that a walk visits; it ends after `count` rounds. -/
def walk [DecidableEq K] (remove : List ℕ → Bool) (t : SfxHash K D) :
    Option (List ℕ × SfxHash K D) :=
  walkLoop remove t.count (sfxhashFindfirst t).2 (sfxhashFindfirst t).1 []

/-! ### The cursor -/

/-- The nodes of `n` rows from `r` on. -/
def View.nodesFrom (v : View) (r n : ℕ) : List ℕ := (List.range' r n).flatMap v.row

theorem View.nodesFrom_succ (v : View) (r n : ℕ) :
    v.nodesFrom r (n + 1) = v.row r ++ v.nodesFrom (r + 1) n := by
  rw [nodesFrom, List.range'_succ, List.flatMap_cons]
  rfl

/-- The cursor leads to the nodes of a list: they are the rest of its row and the rows behind. -/
structure Ahead (t : SfxHash K D) (v : View) (l : List ℕ) : Prop where
  cnode : t.cnode = l.head?
  rest : l ≠ [] → ∃ a b, v.row t.crow = a ++ b ∧ b ≠ [] ∧ t.crow < t.nrows ∧
    l = b ++ v.nodesFrom (t.crow + 1) (t.nrows - (t.crow + 1))

/-- The row that is looked for is the first one that is not empty. -/
theorem Rep.nextRow_spec (h : Rep t v) (n : ℕ) : ∀ crow,
    (nextRow t n crow).2 = (v.nodesFrom crow n).head? ∧
      (v.nodesFrom crow n ≠ [] → (nextRow t n crow).1 < crow + n ∧ v.row (nextRow t n crow).1 ≠ [] ∧
        v.nodesFrom crow n = v.row (nextRow t n crow).1 ++
          v.nodesFrom ((nextRow t n crow).1 + 1) (crow + n - ((nextRow t n crow).1 + 1))) := by
  induction n with
  | zero => exact fun crow => ⟨rfl, fun hne => absurd rfl hne⟩
  | succ n ih =>
    intro crow
    rw [v.nodesFrom_succ, nextRow, h.table crow]
    cases hrow : v.row crow with
    | nil =>
      obtain ⟨hhead, hrest⟩ := ih (crow + 1)
      rw [List.nil_append, List.head?_nil, Nat.add_right_comm crow 1 n, Nat.add_assoc crow n 1] at *
      exact ⟨hhead, hrest⟩
    | cons y b =>
      rw [List.head?_cons]
      refine ⟨rfl, fun _ => ⟨Nat.lt_add_of_pos_right (Nat.succ_pos n), ?_, ?_⟩⟩
      · rw [hrow]
        exact List.cons_ne_nil y b
      · have hn : crow + (n + 1) - (crow + 1) = n := by omega
        simp only [hrow, hn]

/-- The cursor at the first node of some rows. -/
theorem Rep.ahead_nextRow (h : Rep t v) {crow n : ℕ} (hn : crow + n = t.nrows) :
    Ahead { t with crow := (nextRow t n crow).1, cnode := (nextRow t n crow).2 } v
      (v.nodesFrom crow n) := by
  obtain ⟨hhead, hrest⟩ := h.nextRow_spec n crow
  refine ⟨hhead, fun hne => ?_⟩
  obtain ⟨hlt, hrow, heq⟩ := hrest hne
  rw [hn] at hlt heq
  exact ⟨[], v.row (nextRow t n crow).1, rfl, hrow, hlt, heq⟩

/-- `sfxhash_next` moves the cursor by one node. -/
theorem Rep.ahead_next (h : Rep t v) {l : List ℕ} (hl : Ahead t v (x :: l)) :
    Ahead (sfxhashNext t) v l := by
  obtain ⟨hcnode, hrest⟩ := hl
  obtain ⟨a, b, hrow, hb, hlt, heq⟩ := hrest (List.cons_ne_nil x l)
  cases b with
  | nil => exact absurd rfl hb
  | cons y b =>
    obtain ⟨rfl, rfl⟩ := List.cons.inj heq
    have hholds := h.rows.holds t.crow
    rw [hrow] at hholds
    have hnext : t.row.next x = b.head? := hholds.cell.1
    rw [List.head?_cons] at hcnode
    rw [sfxhashNext, hcnode]
    cases b with
    | nil =>
      -- the end of the row
      rw [List.head?_nil] at hnext
      simp only [hnext]
      exact h.ahead_nextRow (by omega)
    | cons z b =>
      rw [List.head?_cons] at hnext
      simp only [hnext]
      refine ⟨rfl, fun _ => ⟨a ++ [x], z :: b, ?_, List.cons_ne_nil z b, hlt, rfl⟩⟩
      rw [hrow, List.append_assoc]
      rfl

theorem Rep.ahead_findfirst (h : Rep t v) :
    (sfxhashFindfirst t).1 = (v.nodesFrom 0 t.nrows).head? ∧
      Ahead (sfxhashFindfirst t).2 v (v.nodesFrom 0 t.nrows).tail := by
  have hahead := h.ahead_nextRow (Nat.zero_add t.nrows)
  refine ⟨hahead.cnode, ?_⟩
  rw [sfxhashFindfirst]
  have hcnode : (nextRow t t.nrows 0).2 = (v.nodesFrom 0 t.nrows).head? := hahead.cnode
  cases hl : v.nodesFrom 0 t.nrows with
  | nil =>
    rw [hl, List.head?_nil] at hcnode
    simp only [hcnode, Option.elim]
    exact ⟨rfl, fun hne => absurd rfl hne⟩
  | cons x l =>
    rw [hl] at hahead hcnode
    rw [List.head?_cons] at hcnode
    simp only [hcnode, Option.elim]
    rw [hcnode] at hahead
    exact (rep_walk h _ _).ahead_next hahead

/-- A node that the cursor does not lead to may be taken out. -/
theorem Rep.ahead_freeNode (h : Rep t v) {l : List ℕ} (hl : Ahead t v l) (hx : x ∈ v.used)
    (hxl : x ∉ l) : Ahead (sfxhashFreeNode t x) (v.erase (t.rindex x) x) l := by
  have hkeeps := (h.freeNode hx).2
  refine ⟨hkeeps.cnode.trans hl.cnode, fun hne => ?_⟩
  obtain ⟨a, b, hrow, hb, hlt, heq⟩ := hl.rest hne
  have hxb : x ∉ b := fun hxb => hxl (heq ▸ List.mem_append_left _ hxb)
  have hbehind : (v.erase (t.rindex x) x).nodesFrom (t.crow + 1) (t.nrows - (t.crow + 1)) =
      v.nodesFrom (t.crow + 1) (t.nrows - (t.crow + 1)) := by
    rw [View.nodesFrom, View.nodesFrom, List.flatMap_def, List.flatMap_def]
    refine congrArg List.flatten (List.map_congr_left fun r hr => ?_)
    have hxr : x ∉ v.row r := fun hxr =>
      hxl (heq ▸ List.mem_append_right _ (List.mem_flatMap.2 ⟨r, hr, hxr⟩))
    refine Function.update_of_ne (fun hrx => hxr ?_) _ _
    rw [hrx]
    exact h.mem_rindex hx
  rw [hkeeps.crow, hkeeps.nrows, hbehind]
  by_cases hr : t.crow = t.rindex x
  · refine ⟨a.erase x, b, ?_, hb, hlt, heq⟩
    have hxa : x ∈ a := by
      have hmem := h.mem_rindex hx
      rw [← hr, hrow] at hmem
      exact (List.mem_append.1 hmem).resolve_right hxb
    show Function.update v.row (t.rindex x) _ t.crow = _
    rw [hr, Function.update_self, ← hr, hrow, List.erase_append_left _ hxa]
  · exact ⟨a, b, (Function.update_of_ne hr _ _).trans hrow, hb, hlt, heq⟩

/-! ### The walk -/

/-- The nodes of the table. -/
theorem Rep.mem_nodesFrom (h : Rep t v) (hpos : 0 < t.nrows) :
    x ∈ v.nodesFrom 0 t.nrows ↔ x ∈ v.used := by
  rw [View.nodesFrom, List.mem_flatMap]
  constructor
  · rintro ⟨r, -, hx⟩
    exact ((h.mem_row r x).1 hx).1
  · intro hx
    refine ⟨t.rindex x, List.mem_range'_1.2 ⟨Nat.zero_le _, ?_⟩, h.mem_rindex hx⟩
    have hle : t.index (t.key x) ≤ t.nrows - 1 := Nat.and_le_right
    rw [h.rindex x hx]
    omega

theorem Rep.nodup_nodesFrom (h : Rep t v) (r n : ℕ) : (v.nodesFrom r n).Nodup := by
  rw [View.nodesFrom, List.nodup_flatMap]
  refine ⟨fun r _ => (h.rows.holds r).nodup, ?_⟩
  refine List.Pairwise.imp (fun {r r'} hlt x hx hx' => ?_) List.pairwise_lt_range'
  exact hlt.ne (h.rows.disjoint hx hx')

variable [DecidableEq K]

/-- A node is what the lookup of its key gives. -/
theorem Rep.linked_iff (h : Rep t v) : Linked t x ↔ x ∈ v.used := by
  refine ⟨h.mem_of_linked, fun hx => ?_⟩
  rcases h.findNodeRow (t.key x) with ⟨y, hy, hkey, t', heq, -⟩ | ⟨hkey, -⟩
  · obtain rfl := h.key_inj y hy x hx hkey
    exact ⟨t.key y, t', heq⟩
  · exact absurd rfl (hkey x hx)

/-- The loop body: the node may be taken out. -/
theorem Rep.walk_round (h : Rep t v) {l : List ℕ} (hl : Ahead t v l) (hx : x ∈ v.used) (hxl : x ∉ l)
    (take : Bool) :
    ∃ t' v', (if take then (sfxhashRemove t (t.key x)).map Prod.snd else some t) = some t' ∧
      Rep t' v' ∧ Ahead t' v' l ∧ ∀ y ∈ v.used, y ≠ x → y ∈ v'.used := by
  cases take with
  | false => exact ⟨t, v, rfl, h, hl, fun y hy _ => hy⟩
  | true =>
    rcases h.remove (t.key x) with ⟨y, hy, hkey, heq⟩ | ⟨hkey, -⟩
    · -- the node that is found is the node of the walk
      obtain rfl := h.key_inj y hy x hx hkey
      obtain ⟨hcnode, hrest⟩ := h.ahead_freeNode hl hx hxl
      refine ⟨_, _, by rw [if_pos rfl, heq]; rfl, (h.freeNode hx).1, ⟨hcnode, hrest⟩,
        fun z hz hzy => ?_⟩
      exact (h.used_holds.nodup.mem_erase_iff).2 ⟨hzy, hz⟩
    · exact absurd rfl (hkey x hx)

/-- The loop visits the node it has and those that the cursor leads to. -/
theorem Rep.walkLoop_eq (remove : List ℕ → Bool) {l : List ℕ} :
    ∀ {t : SfxHash K D} {v : View} {x fuel : ℕ} (seen : List ℕ), Rep t v → Ahead t v l →
      (∀ y ∈ x :: l, y ∈ v.used) → (x :: l).Nodup → l.length < fuel →
      ∃ t', walkLoop remove fuel t (some x) seen = some (seen ++ x :: l, t') := by
  induction l with
  | nil =>
    intro t v x fuel seen h hahead hused hnodup hfuel
    obtain ⟨fuel, rfl⟩ := Nat.exists_eq_add_one.2 hfuel
    obtain ⟨t', v', heq, -, hahead', -⟩ := h.walk_round hahead (hused x List.mem_cons_self)
      List.not_mem_nil (remove (seen ++ [x]))
    have hnone : (sfxhashFindnext t').1 = none := hahead'.cnode
    refine ⟨(sfxhashFindnext t').2, ?_⟩
    rw [walkLoop]
    simp only [heq, Option.bind_some, hnone]
    cases fuel <;> rfl
  | cons y l ih =>
    intro t v x fuel seen h hahead hused hnodup hfuel
    obtain ⟨fuel, rfl⟩ := Nat.exists_eq_add_one.2 (Nat.zero_lt_of_lt hfuel)
    obtain ⟨hx, hnodup'⟩ := List.nodup_cons.1 hnodup
    obtain ⟨t', v', heq, hrep, hahead', hkeep⟩ := h.walk_round hahead (hused x List.mem_cons_self) hx
      (remove (seen ++ [x]))
    have hsome : (sfxhashFindnext t').1 = some y := hahead'.cnode
    obtain ⟨t'', hloop⟩ := ih (seen ++ [x]) hrep.next.1 (hrep.ahead_next hahead')
      (fun z hz => hkeep z (hused z (List.mem_cons_of_mem x hz)) fun hzx => hx (hzx ▸ hz)) hnodup'
      (Nat.lt_of_succ_lt_succ hfuel)
    refine ⟨t'', ?_⟩
    rw [walkLoop]
    simp only [heq, Option.bind_some, hsome]
    rw [List.append_assoc] at hloop
    exact hloop

/-- **A walk visits every node once**, whatever nodes its body takes out. -/
theorem walk_visits (h : Reached t) :
    ∃ nodes : List ℕ, nodes.Nodup ∧ (∀ x, x ∈ nodes ↔ Linked t x) ∧
      ∀ remove, ∃ t', walk remove t = some (nodes, t') := by
  obtain ⟨⟨v, hrep⟩, hpos⟩ := h.exists_rep
  have hmem : ∀ x, x ∈ v.nodesFrom 0 t.nrows ↔ x ∈ v.used := fun x => hrep.mem_nodesFrom hpos
  refine ⟨v.nodesFrom 0 t.nrows, hrep.nodup_nodesFrom _ _, fun x => (hmem x).trans hrep.linked_iff.symm,
    fun remove => ?_⟩
  obtain ⟨hfirst, hahead⟩ := hrep.ahead_findfirst
  have hnodup := hrep.nodup_nodesFrom 0 t.nrows
  have hcount : (v.nodesFrom 0 t.nrows).length = t.count := by
    rw [hrep.count]
    exact ((List.perm_ext_iff_of_nodup hnodup hrep.used_holds.nodup).2 hmem).length_eq
  rw [walk, hfirst]
  cases hl : v.nodesFrom 0 t.nrows with
  | nil =>
    rw [List.head?_nil]
    refine ⟨(sfxhashFindfirst t).2, ?_⟩
    cases t.count <;> rfl
  | cons x l =>
    rw [hl] at hahead hmem hnodup hcount
    rw [List.head?_cons]
    exact hrep.findfirst.1.walkLoop_eq remove [] hahead (fun y hy => (hmem y).1 hy) hnodup
      (by rw [← hcount]; exact Nat.lt_succ_self _)

/-- A table of two rows and one node. -/
theorem walk_visits_add :
    ∃ t' : SfxHash ℕ ℕ, sfxhashAdd (fun _ => false) (sfxhashNew (fun key => BitVec.ofNat 32 key)
        (2 ^ 1) 4 0 none true true true 0) 7 (some 1) = some (.ok, t') ∧
      ∃ nodes : List ℕ, nodes.Nodup ∧ (∀ x, x ∈ nodes ↔ Linked t' x) ∧
        ∀ remove, ∃ t'', walk remove t' = some (nodes, t'') := by
  have hok : (sfxhashAdd (D := ℕ) (fun _ => false) (sfxhashNew (fun key => BitVec.ofNat 32 key)
      (2 ^ 1) 4 0 none true true true 0) 7 (some 1)).map Prod.fst = some .ok := by decide
  obtain ⟨⟨status, t'⟩, heq, rfl⟩ := Option.map_eq_some_iff.1 hok
  exact ⟨t', heq, walk_visits (.call (.new _ 1 _ _ _ _ _ _ _) (.add _ _ _ heq))⟩

end Snort.Sfxhash.Pointers
