import Snort.Lib.Links
import Snort.Sfxhash.Table

/-!
# The nodes of a hash table

`sfxhash.c` with its pointers.  A node is named by its address; it is on the list of its row
(`next`, `prev`) and on the global list, or else on the free list (`gnext`, `gprev`).

* `sfxhashAdd`, `sfxhashGetNode`, `sfxhashFind`, `sfxhashRemove`, `sfxhashFreeNode`,
  `sfxhashGmovetofront`;
* `sfxhashFindfirst`, `sfxhashFindnext`: the walk over all nodes.

A null pointer is `none`.  A loop along links carries fuel, one for each address that has been
allocated; the result is `none` when it runs out.  An address is not given out twice.
-/

namespace Snort.Sfxhash.Pointers

/-- `SFXHASH` and its nodes.  `room` is the number of nodes that `memcap` still allows, if it is
set. -/
structure SfxHash (K D : Type*) where
  hashFcn : K → BitVec 32
  nrows : ℕ
  datasize : ℕ
  splay : Bool
  anrFlag : Bool
  recycleNodes : Bool
  maxNodes : ℕ
  room : Option ℕ
  /-- `next` and `prev`. -/
  row : Links ℕ
  /-- `gnext` and `gprev`. -/
  glob : Links ℕ
  rindex : ℕ → ℕ
  key : ℕ → K
  data : ℕ → Option D
  table : ℕ → Option ℕ
  ghead : Option ℕ
  gtail : Option ℕ
  fhead : Option ℕ
  ftail : Option ℕ
  count : ℕ
  crow : ℕ
  cnode : Option ℕ
  /-- The address of the next allocation. -/
  brk : ℕ

variable {K D : Type*}

/-- The row of a key. -/
def SfxHash.index (t : SfxHash K D) (key : K) : ℕ := (t.hashFcn key).toNat &&& (t.nrows - 1)

/-! ### The lists -/

/-- `sfxhash_save_free_node`. -/
def sfxhashSaveFreeNode (t : SfxHash K D) (hnode : ℕ) : SfxHash K D :=
  match t.fhead with
  | some fhead =>
    { t with
      glob := ((t.glob.setPrev hnode none).setNext hnode (some fhead)).setPrev fhead (some hnode)
      fhead := some hnode }
  | none =>
    { t with
      glob := (t.glob.setPrev hnode none).setNext hnode none
      fhead := some hnode
      ftail := some hnode }

/-- `sfxhash_get_free_node` with a node in the free list: the table without it. -/
def sfxhashGetFreeNode (t : SfxHash K D) (node : ℕ) : SfxHash K D :=
  let fhead := t.glob.next node
  { t with
    fhead := fhead
    glob := t.glob.setPrevOf fhead none
    ftail := if t.ftail = some node then none else t.ftail }

/-- `sfxhash_glink_node`. -/
def sfxhashGlinkNode (t : SfxHash K D) (hnode : ℕ) : SfxHash K D :=
  match t.ghead with
  | some ghead =>
    { t with
      glob := ((t.glob.setPrev hnode none).setNext hnode (some ghead)).setPrev ghead (some hnode)
      ghead := some hnode }
  | none =>
    { t with
      glob := (t.glob.setPrev hnode none).setNext hnode none
      ghead := some hnode
      gtail := some hnode }

/-- `sfxhash_gunlink_node`. -/
def sfxhashGunlinkNode (t : SfxHash K D) (hnode : ℕ) : SfxHash K D :=
  let t :=
    if t.ghead = some hnode then
      { t with
        ghead := t.glob.next hnode
        glob := t.glob.setPrevOf (t.glob.next hnode) none }
    else t
  let glob := t.glob.setNextOf (t.glob.prev hnode) (t.glob.next hnode)
  let glob := glob.setPrevOf (glob.next hnode) (glob.prev hnode)
  { t with
    glob := glob
    gtail := if t.gtail = some hnode then glob.prev hnode else t.gtail }

/-- `sfxhash_gmovetofront`. -/
def sfxhashGmovetofront (t : SfxHash K D) (hnode : ℕ) : SfxHash K D :=
  if t.ghead = some hnode then t else sfxhashGlinkNode (sfxhashGunlinkNode t hnode) hnode

/-- `sfxhash_link_node`. -/
def sfxhashLinkNode (t : SfxHash K D) (hnode : ℕ) : SfxHash K D :=
  match t.table (t.rindex hnode) with
  | some first =>
    { t with
      row := ((t.row.setPrev hnode none).setNext hnode (some first)).setPrev first (some hnode)
      table := Function.update t.table (t.rindex hnode) (some hnode) }
  | none =>
    { t with
      row := (t.row.setPrev hnode none).setNext hnode none
      table := Function.update t.table (t.rindex hnode) (some hnode) }

/-- `sfxhash_unlink_node`. -/
def sfxhashUnlinkNode (t : SfxHash K D) (hnode : ℕ) : SfxHash K D :=
  match t.row.prev hnode with
  | some prev =>
    let row := t.row.setNext prev (t.row.next hnode)
    { t with row := row.setPrevOf (row.next hnode) (row.prev hnode) }
  | none =>
    match t.table (t.rindex hnode) with
    | some first =>
      { t with
        table := Function.update t.table (t.rindex hnode) (t.row.next first)
        row := t.row.setPrevOf (t.row.next first) none }
    | none => t

/-- `movetofront`. -/
def movetofront (t : SfxHash K D) (n : ℕ) : SfxHash K D :=
  let t :=
    if t.table (t.rindex n) = some n then t else sfxhashLinkNode (sfxhashUnlinkNode t n) n
  sfxhashGmovetofront t n

/-! ### New nodes -/

/-- `s_alloc`: a cleared node. -/
def sAlloc (t : SfxHash K D) : Option (ℕ × SfxHash K D) :=
  if t.room = some 0 then none
  else
    some (t.brk, { t with
      room := t.room.map fun n => n - 1
      brk := t.brk + 1
      data := Function.update t.data t.brk none })

/-- "Find the oldes node the users willing to let go": the loop of `sfxhash_newnode`; `anrfree` says
no to a node. -/
def recoverLoop (t : SfxHash K D) (anrfree : ℕ → Bool) : ℕ → Option ℕ → Option (Option ℕ)
  | _, none => some none
  | 0, some _ => none
  | fuel + 1, some hnode =>
    if anrfree hnode then recoverLoop t anrfree fuel (t.glob.prev hnode) else some (some hnode)

/-- `sfxhash_newnode`. -/
def sfxhashNewnode (anrfree : ℕ → Bool) (t : SfxHash K D) : Option (Option ℕ × SfxHash K D) :=
  match t.fhead with
  | some node => some (some node, sfxhashGetFreeNode t node)
  | none =>
    match if t.maxNodes = 0 ∨ t.count < t.maxNodes then sAlloc t else none with
    | some (node, t) => some (some node, t)
    | none =>
      if t.anrFlag = true ∧ t.gtail ≠ none then
        (recoverLoop t anrfree t.brk t.gtail).map fun r => r.elim (none, t) fun hnode =>
          let t := sfxhashUnlinkNode (sfxhashGunlinkNode t hnode) hnode
          (some hnode, { t with count := t.count - 1 })
      else some (none, t)

/-- `sfxhash_free_node`. -/
def sfxhashFreeNode (t : SfxHash K D) (hnode : ℕ) : SfxHash K D :=
  let t := sfxhashGunlinkNode (sfxhashUnlinkNode t hnode) hnode
  let t := { t with count := t.count - 1 }
  if t.recycleNodes then sfxhashSaveFreeNode t hnode else { t with room := t.room.map (· + 1) }

/-- The end of `sfxhash_add` and `sfxhash_get_node`: the new node gets its key and data and is
linked. -/
def insertNode (t : SfxHash K D) (hnode : ℕ) (key : K) (data : Option D) : SfxHash K D :=
  let t :=
    { t with
      key := Function.update t.key hnode key
      rindex := Function.update t.rindex hnode (t.index key)
      data := Function.update t.data hnode (if t.datasize = 0 then data else data.or (t.data hnode)) }
  let t := sfxhashGlinkNode (sfxhashLinkNode t hnode) hnode
  { t with count := t.count + 1 }

/-! ### Operations -/

variable [DecidableEq K]

/-- The walk along a row. -/
def findLoop (t : SfxHash K D) (key : K) : ℕ → Option ℕ → Option (Option ℕ)
  | _, none => some none
  | 0, some _ => none
  | fuel + 1, some hnode =>
    if t.key hnode = key then some (some hnode) else findLoop t key fuel (t.row.next hnode)

/-- `sfxhash_find_node_row`: the node, at the front if nodes are splayed. -/
def sfxhashFindNodeRow (t : SfxHash K D) (key : K) : Option (Option ℕ × SfxHash K D) :=
  (findLoop t key t.brk (t.table (t.index key))).map fun r =>
    (r, r.elim t fun hnode => if t.splay then movetofront t hnode else t)

/-- `sfxhash_add`. -/
def sfxhashAdd (anrfree : ℕ → Bool) (t : SfxHash K D) (key : K) (data : Option D) :
    Option (SfxStatus × SfxHash K D) :=
  match sfxhashFindNodeRow t key with
  | none => none
  | some (some hnode, t) => some (.inTable, { t with cnode := some hnode })
  | some (none, t) =>
    (sfxhashNewnode anrfree t).map fun r =>
      r.1.elim (.noMem, r.2) fun hnode => (.ok, insertNode r.2 hnode key data)

/-- `sfxhash_get_node`. -/
def sfxhashGetNode (anrfree : ℕ → Bool) (t : SfxHash K D) (key : K) :
    Option (Option ℕ × SfxHash K D) :=
  match sfxhashFindNodeRow t key with
  | none => none
  | some (some hnode, t) => some (some hnode, { t with cnode := some hnode })
  | some (none, t) =>
    (sfxhashNewnode anrfree t).map fun r =>
      r.1.elim (none, r.2) fun hnode => (some hnode, insertNode r.2 hnode key none)

/-- `sfxhash_find`. -/
def sfxhashFind (t : SfxHash K D) (key : K) : Option (Option D × SfxHash K D) :=
  (sfxhashFindNodeRow t key).map fun r => (r.1.bind r.2.data, r.2)

/-- `sfxhash_remove`: whether the key was there. -/
def sfxhashRemove (t : SfxHash K D) (key : K) : Option (Bool × SfxHash K D) :=
  (findLoop t key t.brk (t.table (t.index key))).map fun r =>
    r.elim (false, t) fun hnode => (true, sfxhashFreeNode t hnode)

/-- `sfxhash_new`; `splay` and `max_nodes` may be set afterwards. -/
def sfxhashNew (hashFcn : K → BitVec 32) (nrows datasize maxNodes : ℕ) (room : Option ℕ)
    (splay anrFlag recycleNodes : Bool) (nokey : K) : SfxHash K D where
  hashFcn := hashFcn
  nrows := nrows
  datasize := datasize
  splay := splay
  anrFlag := anrFlag
  recycleNodes := recycleNodes
  maxNodes := maxNodes
  room := room
  row := ⟨fun _ => none, fun _ => none⟩
  glob := ⟨fun _ => none, fun _ => none⟩
  rindex := fun _ => 0
  key := fun _ => nokey
  data := fun _ => none
  table := fun _ => none
  ghead := none
  gtail := none
  fhead := none
  ftail := none
  count := 0
  crow := 0
  cnode := none
  brk := 0

omit [DecidableEq K]

/-! ### The walk -/

/-- The first row from `crow` on that is not empty, and its first node; `n` rows are left. -/
def nextRow (t : SfxHash K D) : ℕ → ℕ → ℕ × Option ℕ
  | 0, crow => (crow, none)
  | n + 1, crow =>
    match t.table crow with
    | some cnode => (crow, some cnode)
    | none => nextRow t n (crow + 1)

/-- `sfxhash_next`. -/
def sfxhashNext (t : SfxHash K D) : SfxHash K D :=
  match t.cnode with
  | none => t
  | some cnode =>
    match t.row.next cnode with
    | some next => { t with cnode := some next }
    | none =>
      let (crow, cnode) := nextRow t (t.nrows - (t.crow + 1)) (t.crow + 1)
      { t with crow := crow, cnode := cnode }

/-- `sfxhash_findfirst`. -/
def sfxhashFindfirst (t : SfxHash K D) : Option ℕ × SfxHash K D :=
  let (crow, n) := nextRow t t.nrows 0
  let t := { t with crow := crow, cnode := n }
  (n, n.elim t fun _ => sfxhashNext t)

/-- `sfxhash_findnext`. -/
def sfxhashFindnext (t : SfxHash K D) : Option ℕ × SfxHash K D := (t.cnode, sfxhashNext t)

end Snort.Sfxhash.Pointers
