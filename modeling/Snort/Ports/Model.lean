import Mathlib.Tactic

/-!
# Port objects

* `PortObjectItem`, `PortObject`, `PortObjectHasAny`, `PortObjectHasPort`;
* `portObjectCharPortArray`, `portObjectItemListFromCharPortArray`: from items to an array of ports, and back;
* `PortObjectNormalize`, `PortObjectNegate`, `PortObjectRemovePorts`, `PortObjectEqual`;
* `portSet`: the ports that a list of items denotes.

An array is a function of the port; the callers clear it first.  The rules of an object are left out.
-/

namespace Snort.Ports

/-- `PORT_OBJECT_PORT`, `PORT_OBJECT_RANGE` and `PORT_OBJECT_ANY`. -/
inductive ItemType
  | port
  | range
  | any
  deriving DecidableEq

/-- `PortObjectItem`; `notFlag` is `PORT_OBJECT_NOT_FLAG` of its flags. -/
structure PortObjectItem where
  type : ItemType
  notFlag : Bool
  lport : UInt16
  hport : UInt16
  deriving DecidableEq

/-- `PortObject`. -/
structure PortObject where
  name : List Char
  itemList : List PortObjectItem
  deriving DecidableEq

/-- `SFPO_MAX_PORTS`. -/
def maxPorts : ℕ := 65536

/-- `PortObjectHasAny`. -/
def portObjectHasAny (po : PortObject) : Bool := po.itemList.any (·.type = .any)

/-- The loop of `PortObjectHasPort`. -/
def hasPort (port : ℕ) : List PortObjectItem → Bool
  | [] => false
  | poi :: items =>
    match poi.type with
    | .any => false
    | .port => if poi.lport.toNat = port % 65536 then true else if poi.notFlag then true else hasPort port items
    | .range =>
      if poi.lport.toNat ≤ port % 65536 ∧ port % 65536 ≤ poi.hport.toNat then true
      else if poi.notFlag then true else hasPort port items

/-- `PortObjectHasPort`. -/
def portObjectHasPort (po : PortObject) (port : ℕ) : Bool := hasPort port po.itemList

/-! ### Arrays -/

/-- An array of ports, with the number of ports in it. -/
structure PortArray where
  parray : ℕ → Bool
  cnt : ℤ

/-- A cleared array. -/
def newPortArray : PortArray := ⟨fun _ => false, 0⟩

/-- A port is switched on or off. -/
def PortArray.switch (on : Bool) (a : PortArray) (port : ℕ) : PortArray :=
  ⟨Function.update a.parray port on,
    if on then if a.parray port then a.cnt else a.cnt + 1 else if a.parray port then a.cnt - 1 else a.cnt⟩

/-- The ports that an item names. -/
def PortObjectItem.ports (poi : PortObjectItem) : List ℕ :=
  match poi.type with
  | .port => [poi.lport.toNat]
  | .range => List.range' poi.lport.toNat (poi.hport.toNat + 1 - poi.lport.toNat)
  | .any => []

/-- The items with or without the flag are switched on or off. -/
def PortArray.switchItems (on flag : Bool) (a : PortArray) (items : List PortObjectItem) : PortArray :=
  items.foldl (fun a poi => if poi.notFlag = flag then poi.ports.foldl (PortArray.switch on) a else a) a

/-- All ports are switched on. -/
def PortArray.enableAll (a : PortArray) : PortArray :=
  ⟨fun p => if p < maxPorts then true else a.parray p, a.cnt + maxPorts⟩

/-- `PortObjectCharPortArray`; nothing for an object with any port. -/
def portObjectCharPortArray (a : PortArray) (po : PortObject) : Option PortArray :=
  if portObjectHasAny po then none
  else
    -- ports are added, then those with the flag are removed
    let a := (a.switchItems true false po.itemList).switchItems false true po.itemList
    -- a pure not list
    if po.itemList.length = po.itemList.countP (·.notFlag) then
      some (a.enableAll.switchItems false true po.itemList)
    else some a

/-- An item for the ports from `lport` to `hport`. -/
def newItem (lport hport : ℕ) : PortObjectItem :=
  if hport = lport then ⟨.port, false, UInt16.ofNat lport, 0⟩
  else ⟨.range, false, UInt16.ofNat lport, UInt16.ofNat hport⟩

/-- The loops of `PortObjectItemListFromCharPortArray` over `left` ports from `i` on, with the first port of an open
range. -/
def itemsFrom (parray : ℕ → Bool) : (left i : ℕ) → (lport : Option ℕ) → List PortObjectItem
  | 0, _, none => []
  | 0, i, some lport => [newItem lport (i - 1)]
  | left + 1, i, none => if parray i then itemsFrom parray left (i + 1) (some i) else itemsFrom parray left (i + 1) none
  | left + 1, i, some lport =>
    if parray i then itemsFrom parray left (i + 1) (some lport)
    else newItem lport (i - 1) :: itemsFrom parray left (i + 1) none

/-- `PortObjectItemListFromCharPortArray`. -/
def portObjectItemListFromCharPortArray (parray : ℕ → Bool) (n : ℕ) : List PortObjectItem :=
  itemsFrom parray n 0 none

/-- The array of an object; it stays clear for any port. -/
def portsOf (po : PortObject) : PortArray := (portObjectCharPortArray newPortArray po).getD newPortArray

/-- `PortObjectRemovePorts`. -/
def portObjectRemovePorts (a b : PortObject) : PortObject :=
  let parray := fun p => if (portsOf b).parray p then false else (portsOf a).parray p
  { a with itemList := portObjectItemListFromCharPortArray parray maxPorts }

/-- `PortObjectNormalize`, with the number of ports. -/
def portObjectNormalize (po : PortObject) : ℤ × PortObject :=
  if portObjectHasAny po then (0, po)
  else
    ((portsOf po).cnt, { po with itemList := portObjectItemListFromCharPortArray (portsOf po).parray maxPorts })

/-- `PortObjectNegate`, with the number of ports before. -/
def portObjectNegate (po : PortObject) : ℤ × PortObject :=
  if portObjectHasAny po then (0, po)
  else
    ((portsOf po).cnt,
      { po with itemList := portObjectItemListFromCharPortArray (fun p => !(portsOf po).parray p) maxPorts })

/-- `PortObjectItemsEqual`. -/
def portObjectItemsEqual (a b : PortObjectItem) : Bool :=
  if a.type ≠ b.type then false
  else
    match a.type with
    | .any => true
    | .port => a.lport = b.lport
    | .range => a.lport = b.lport ∧ a.hport = b.hport

/-- The loop of `PortObjectEqual`. -/
def itemsEqual : List PortObjectItem → List PortObjectItem → Bool
  | [], [] => true
  | pa :: as, pb :: bs => if portObjectItemsEqual pa pb then itemsEqual as bs else false
  | _, _ => false

/-- `PortObjectEqual`. -/
def portObjectEqual (a b : PortObject) : Bool :=
  if a.itemList.length ≠ b.itemList.length then false else itemsEqual a.itemList b.itemList

/-! ### Sets of ports -/

/-- The ports that an item is about. -/
def PortObjectItem.portSet (poi : PortObjectItem) : Set ℕ := {p | p ∈ poi.ports}

/-- The ports that a list of items denotes: those of its positive items, or all ports when it has negated items
only, and none of those of its negated items. -/
def portSet (items : List PortObjectItem) : Set ℕ :=
  {p | p < maxPorts ∧ ((∃ poi ∈ items, poi.notFlag = false ∧ p ∈ poi.portSet) ∨
    (items ≠ [] ∧ ∀ poi ∈ items, poi.notFlag = true)) ∧ ∀ poi ∈ items, poi.notFlag = true → p ∉ poi.portSet}

end Snort.Ports
