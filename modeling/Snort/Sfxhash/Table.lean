import Mathlib.Tactic

/-!
# Hash tables with automatic node recovery

A table whose nodes are only added and looked up: `nodes` is the global list, from the node touched last
to the oldest one, and `room` is the number of nodes for which there is still memory.

* `sfxhashGetNode`, `sfxhashAdd`: a node is found, or a new one is made, and is at the front then;
* `SfxHash.find`: the data of a key, and `SfxHash.setFront`: data written to the node at the front;
* `find_moveToFront`: what is found behind an operation.
-/

namespace Snort.Sfxhash

/-- `SFXHASH`. -/
structure SfxHash (K D : Type*) where
  nodes : List (K × D)
  room : ℕ
  anrFlag : Bool

variable {K D : Type*}

/-- The data of the node at the front. -/
def SfxHash.front (t : SfxHash K D) : Option D := t.nodes.head?.map Prod.snd

/-- Data written to the node at the front. -/
def SfxHash.setFront (t : SfxHash K D) (data : D) : SfxHash K D :=
  match t.nodes with
  | [] => t
  | n :: nodes => { t with nodes := (n.1, data) :: nodes }

/-- `sfxhash_newnode`: memory is cleared, but the data of a recovered node is still there. -/
def sfxhashNewnode (cleared : D) (t : SfxHash K D) : Option (D × SfxHash K D) :=
  if 0 < t.room then some (cleared, { t with room := t.room - 1 })
  else if t.anrFlag then
    t.nodes.getLast?.map fun n => (n.2, { t with nodes := t.nodes.dropLast })
  else none

variable [DecidableEq K]

def SfxHash.find (t : SfxHash K D) (key : K) : Option D :=
  (t.nodes.find? fun n => n.1 = key).map Prod.snd

/-- `movetofront`. -/
def SfxHash.moveToFront (t : SfxHash K D) (key : K) (data : D) : SfxHash K D :=
  { t with nodes := (key, data) :: t.nodes.eraseP fun n => n.1 = key }

/-- `sfxhash_get_node`: the data of the node, which is at the front. -/
def sfxhashGetNode (cleared : D) (t : SfxHash K D) (key : K) : Option (D × SfxHash K D) :=
  match t.find key with
  | some data => some (data, t.moveToFront key data)
  | none =>
    (sfxhashNewnode cleared t).map fun r => (r.1, { r.2 with nodes := (key, r.1) :: r.2.nodes })

/-- `SFXHASH_OK`, `SFXHASH_INTABLE` and `SFXHASH_NOMEM`. -/
inductive SfxStatus
  | ok | inTable | noMem
  deriving DecidableEq

/-- `sfxhash_add`; a node that was found or added is at the front. -/
def sfxhashAdd (cleared : D) (t : SfxHash K D) (key : K) (data : D) : SfxStatus × SfxHash K D :=
  match t.find key with
  | some found => (.inTable, t.moveToFront key found)
  | none =>
    match sfxhashNewnode cleared t with
    | none => (.noMem, t)
    | some r => (.ok, { r.2 with nodes := (key, data) :: r.2.nodes })

/-! ### What is found -/

variable {t : SfxHash K D} {key : K} {data : D}

theorem find_cons (n : K × D) (nodes : List (K × D)) (room : ℕ) (anr : Bool) (k : K) :
    (⟨n :: nodes, room, anr⟩ : SfxHash K D).find k =
      if n.1 = k then some n.2 else (⟨nodes, room, anr⟩ : SfxHash K D).find k := by
  unfold SfxHash.find
  rw [List.find?_cons]
  by_cases h : n.1 = k
  · simp [h]
  · simp [h]

theorem mem_of_find {data : D} (h : t.find key = some data) : (key, data) ∈ t.nodes := by
  obtain ⟨n, hn, rfl⟩ := Option.map_eq_some_iff.1 h
  have hkey := List.find?_some hn
  rw [decide_eq_true_iff] at hkey
  rw [← hkey]
  exact List.mem_of_find?_eq_some hn

theorem find_moveToFront (t : SfxHash K D) (key : K) (data : D) (k : K) :
    (t.moveToFront key data).find k = if key = k then some data else t.find k := by
  unfold SfxHash.moveToFront
  rw [find_cons]
  by_cases hk : key = k
  · rw [if_pos hk, if_pos hk]
  · rw [if_neg hk, if_neg hk]
    unfold SfxHash.find
    simp only
    congr 1
    induction t.nodes with
    | nil => rfl
    | cons n nodes ih =>
      by_cases hn : n.1 = key
      · have hnk : ¬n.1 = k := fun h => hk (hn.symm.trans h)
        rw [List.eraseP_cons_of_pos (by simp [hn]), List.find?_cons_of_neg (by simp [hnk])]
      · rw [List.eraseP_cons_of_neg (by simp [hn]), List.find?_cons, List.find?_cons, ih]

theorem find_setFront_moveToFront (t : SfxHash K D) (key : K) (data data' : D) (k : K) :
    ((t.moveToFront key data).setFront data').find k = if key = k then some data' else t.find k :=
  find_moveToFront t key data' k

theorem length_moveToFront (h : (t.find key).isSome) :
    (t.moveToFront key data).nodes.length = t.nodes.length := by
  obtain ⟨d, hd⟩ := Option.isSome_iff_exists.1 h
  have hmem := mem_of_find hd
  have hpos := List.length_pos_of_mem hmem
  unfold SfxHash.moveToFront
  rw [List.length_cons, List.length_eraseP_of_mem hmem (by simp)]
  omega

/-- A node for a key that was not there. -/
theorem sfxhashGetNode_new (cleared : D) (h : t.find key = none) (hroom : 0 < t.room) :
    sfxhashGetNode cleared t key =
      some (cleared, { t with nodes := (key, cleared) :: t.nodes, room := t.room - 1 }) := by
  unfold sfxhashGetNode sfxhashNewnode
  rw [h]
  simp only [if_pos hroom, Option.map_some]

/-- A node that is recovered keeps the data of the oldest one. -/
theorem sfxhashGetNode_recovered (cleared : D) (h : t.find key = none) (hroom : t.room = 0)
    (hanr : t.anrFlag = true) {n : K × D} (hn : t.nodes.getLast? = some n) :
    sfxhashGetNode cleared t key =
      some (n.2, { t with nodes := (key, n.2) :: t.nodes.dropLast }) := by
  unfold sfxhashGetNode sfxhashNewnode
  rw [h]
  simp only [hroom, lt_irrefl, if_false, hanr, if_true, hn, Option.map_some]

theorem sfxhashGetNode_found (cleared : D) (h : t.find key = some data) :
    sfxhashGetNode cleared t key = some (data, t.moveToFront key data) := by
  unfold sfxhashGetNode
  rw [h]

theorem sfxhashAdd_found (cleared : D) {found : D} (h : t.find key = some found) :
    sfxhashAdd cleared t key data = (.inTable, t.moveToFront key found) := by
  unfold sfxhashAdd
  rw [h]

theorem sfxhashAdd_new (cleared : D) (h : t.find key = none) (hroom : 0 < t.room) :
    sfxhashAdd cleared t key data =
      (.ok, { t with nodes := (key, data) :: t.nodes, room := t.room - 1 }) := by
  unfold sfxhashAdd sfxhashNewnode
  rw [h]
  simp only [if_pos hroom]

end Snort.Sfxhash
