import Mathlib.Tactic

/-!
# The routing table of `sfrt.c` and `sfrt_dir.c`

A DIR-n-m table is a tree of arrays.  An array of width `w` is indexed by the next `w` bits of an
address; an entry is an index into the data table with the length of the prefix that set it, or a
pointer to an array for the bits that follow.

* `_dir_sub_insert`, `_dir_sub_lookup` and `_dir_sub_remove` walk down the arrays.
* `sfrt_insert`, `sfrt_lookup` and `sfrt_remove` add the data table, in which slot 0 stays `NULL`.

`unsigned long` has 32 bits, so that `ARCH_WIDTH` is the width of a word of an address.  Both builds
are modelled: without `SUP_IP6` an address is one word, with it an `sfip_t`.  Whether
`_sub_table_new` gets its memory (the cap, `malloc`) is the argument `alloc`.
-/

namespace Snort.Sfrt

/-! ### Addresses -/

/-- `AF_INET`, `AF_INET6`. -/
inductive Family
  | inet
  | inet6
  deriving DecidableEq

/-- The fields of an `sfip_t` that the table reads; `ip32` has four words. -/
structure Sfip where
  family : Family
  ip32 : ℕ → BitVec 32

/-- `*adr`: a word without `SUP_IP6`, an `sfip_t` with it. -/
inductive Adr
  | u32 (ip : BitVec 32)
  | sfip (ip : Sfip)

/-- `IPLOOKUP`: the word with the bits used so far shifted out, or the address with their number. -/
inductive IpLookup
  | u32 (ip : BitVec 32)
  | sfip (ip : Sfip) (bits : ℕ)

/-- The family that selects `rt` or `rt6`. -/
def Adr.family : Adr → Family
  | .u32 _ => .inet
  | .sfip ip => ip.family

/-- The `IPLOOKUP` at the root. -/
def Adr.lookup : Adr → IpLookup
  | .u32 ip => .u32 ip
  | .sfip ip => .sfip ip 0

/-- The index in an array of a width. -/
def IpLookup.index : IpLookup → ℕ → ℕ
  | .u32 ip, width => (ip >>> (32 - width)).toNat
  | .sfip ip bits, width =>
    let i :=
      match ip.family with
      | .inet => 0
      | .inet6 => if bits < 32 then 0 else if bits < 64 then 1 else if bits < 96 then 2 else 3
    let localIndex := ip.ip32 i <<< (bits % 32)
    (localIndex >>> (32 - width)).toNat

/-- Behind an array of a width. -/
def IpLookup.advance : IpLookup → ℕ → IpLookup
  | .u32 ip, width => .u32 (ip <<< width)
  | .sfip ip bits, width => .sfip ip (bits + width)

/-! ### Arrays -/

/-- An entry of an array with its length, or the `dir_sub_table_t` it points to. -/
inductive Entry
  | data (index length : ℕ)
  | table (width filledEntries : ℕ) (entries : ℕ → Entry)

/-- `tuple_t`. -/
structure Tuple where
  index : ℕ
  length : ℕ
  deriving DecidableEq

/-- `RT_FAVOR_TIME`, `RT_FAVOR_SPECIFIC`. -/
inductive Behavior
  | favorTime
  | favorSpecific
  deriving DecidableEq

/-- The return codes in use. -/
inductive ReturnCode
  | rtSuccess
  | rtInsertFailure
  | rtPolicyTableExceeded
  | memAllocFailure
  | rtRemoveFailure
  deriving DecidableEq

/-- `!entries[index]`. -/
def Entry.isNull : Entry → Bool
  | .data index _ => index = 0
  | .table _ _ _ => false

/-- `filledEntries` of the array an entry points to. -/
def Entry.filledEntries : Entry → ℕ
  | .data _ _ => 0
  | .table _ filled _ => filled

/-- `_sub_table_new`. -/
def subTableNew (ok : Bool) (width prefill bitLength : ℕ) : Option Entry :=
  if ¬ ok ∨ bitLength > 128 then none
  else
    some (.table width (if prefill ≠ 0 then 2 ^ width else 0) fun _ => .data prefill bitLength)

/-! ### Filling -/

/-- `_dir_fill_all` on the entries from `index` to `fill`. -/
def dirFillAll (index fill length val width filled : ℕ) (entries : ℕ → Entry) : Entry :=
  .table width (filled + (List.range' index (fill - index)).countP fun i => (entries i).isNull)
    fun i => if index ≤ i ∧ i < fill then .data val length else entries i

/-- An entry that was `NULL` and is filled by `_dir_fill_less_specific`. -/
def Entry.newlyFilled (length : ℕ) : Entry → Bool
  | .data index l => index = 0 ∧ length ≥ l
  | .table _ _ _ => false

/-- The body of the loop of `_dir_fill_less_specific`; behind a pointer the whole array is filled. -/
def Entry.fillLessSpecific (length val : ℕ) : Entry → Entry
  | .data index l => if length ≥ l then .data val length else .data index l
  | .table width filled entries =>
    .table width (filled + (List.range (2 ^ width)).countP fun i => (entries i).newlyFilled length)
      fun i => if i < 2 ^ width then (entries i).fillLessSpecific length val else entries i

/-- `_dir_fill_less_specific` on the entries from `index` to `fill`. -/
def dirFillLessSpecific (index fill length val width filled : ℕ) (entries : ℕ → Entry) : Entry :=
  .table width
    (filled + (List.range' index (fill - index)).countP fun i => (entries i).newlyFilled length)
    fun i => if index ≤ i ∧ i < fill then (entries i).fillLessSpecific length val else entries i

/-- The array behind an entry: a new one, filled with the entry, if it is not a pointer. -/
def Entry.nextSub (ok : Bool) (dimension : ℕ) : Entry → Option Entry
  | .data index l => subTableNew ok dimension index l
  | .table width filled entries => some (.table width filled entries)

/-- `_dir_sub_insert`; the list holds the dimensions below the array. -/
def dirSubInsert (alloc : ℕ → Bool) (behavior : Behavior) (length ptr : ℕ) :
    List ℕ → IpLookup → ℕ → Entry → ReturnCode × Entry
  | _, _, _, .data index l => (.rtInsertFailure, .data index l)
  | dims, ip, curLen, .table width filled entries =>
    let index := ip.index width
    if width ≥ curLen then
      let index := (index >>> (width - curLen)) <<< (width - curLen)
      let fill := 2 ^ (width - curLen) + index
      match behavior with
      | .favorTime => (.rtSuccess, dirFillAll index fill length ptr width filled entries)
      | .favorSpecific =>
        (.rtSuccess, dirFillLessSpecific index fill length ptr width filled entries)
    else
      match dims with
      -- past the last dimension, which no legal length gets to
      | [] => (.rtInsertFailure, .table width filled entries)
      | dim :: dims =>
        let filled := if (entries index).isNull then filled + 1 else filled
        match (entries index).nextSub (alloc dims.length) dim with
        | none =>
          (.memAllocFailure, .table width filled (Function.update entries index (.data 0 0)))
        | some next =>
          let (res, next) :=
            dirSubInsert alloc behavior length ptr dims (ip.advance width) (curLen - width) next
          (res, .table width filled (Function.update entries index next))

/-! ### Looking up -/

/-- `_dir_sub_lookup`. -/
def dirSubLookup : IpLookup → Entry → Tuple
  | _, .data index length => ⟨index, length⟩
  | ip, .table width _ entries => dirSubLookup (ip.advance width) (entries (ip.index width))

/-! ### Removing -/

/-- The last value index that a loop over entries has found, zero if there is none. -/
def lastValue (values : List ℕ) : ℕ := values.foldl (fun ret v => if v ≠ 0 then v else ret) 0

/-- The array after a loop that replaces the entries from `index` to `fill`. -/
def replaceEntries (index fill width filled : ℕ) (entries entries' : ℕ → Entry) : Entry :=
  .table width
    (filled - (List.range' index (fill - index)).countP fun i =>
      !(entries i).isNull && (entries' i).isNull)
    fun i => if index ≤ i ∧ i < fill then entries' i else entries i

/-- The body of the loop of `_dir_remove_all`. -/
def Entry.removeAll (length : ℕ) : Entry → ℕ × Entry
  | .data index l => (if length = l then index else 0, if index ≠ 0 then .data 0 0 else .data index l)
  | .table _ _ _ => (0, .data 0 0)

/-- An array all of whose entries are free is collapsed. -/
def Entry.collapse : Entry → Entry
  | .data index l => .data index l
  | .table width filled entries => if filled = 0 then .data 0 0 else .table width filled entries

/-- The body of the loop of `_dir_remove_less_specific`: the value index and what is left. -/
def Entry.removeLessSpecific (length : ℕ) : Entry → ℕ × Entry
  | .data index l => if length = l then (index, .data 0 0) else (0, .data index l)
  | .table width filled entries =>
    (lastValue ((List.range (2 ^ width)).map fun i => ((entries i).removeLessSpecific length).1),
      (replaceEntries 0 (2 ^ width) width filled entries fun i =>
        ((entries i).removeLessSpecific length).2).collapse)

/-- `_dir_sub_remove`. -/
def dirSubRemove (behavior : Behavior) (length : ℕ) : IpLookup → ℕ → Entry → ℕ × Entry
  | _, _, .data index l => (0, .data index l)
  | ip, curLen, .table width filled entries =>
    let index := ip.index width
    if width ≥ curLen then
      let index := (index >>> (width - curLen)) <<< (width - curLen)
      let fill := 2 ^ (width - curLen) + index
      let remove := fun e : Entry =>
        match behavior with
        | .favorTime => e.removeAll length
        | .favorSpecific => e.removeLessSpecific length
      (lastValue ((List.range' index (fill - index)).map fun i => (remove (entries i)).1),
        replaceEntries index fill width filled entries fun i => (remove (entries i)).2)
    else
      match entries index with
      | .data _ _ => (0, .table width filled entries)
      | .table _ _ _ =>
        let (valueIndex, next) :=
          dirSubRemove behavior length (ip.advance width) (curLen - width) (entries index)
        if next.filledEntries = 0 then
          (valueIndex, .table width (filled - 1) (Function.update entries index (.data 0 0)))
        else (valueIndex, .table width filled (Function.update entries index next))

/-! ### DIR tables -/

/-- A `dir_table_t`. -/
structure DirTable where
  dimensions : List ℕ
  subTable : Entry

/-- `sfrt_dir_new`. -/
def sfrtDirNew (dimensions : List ℕ) : DirTable :=
  ⟨dimensions, .table (dimensions.headD 0) 0 fun _ => .data 0 0⟩

/-- `sfrt_dir_insert`. -/
def sfrtDirInsert (alloc : ℕ → Bool) (ip : Adr) (len dataIndex : ℕ) (behavior : Behavior)
    (table : DirTable) : ReturnCode × DirTable :=
  let (res, subTable) := dirSubInsert alloc behavior len dataIndex table.dimensions.tail ip.lookup len
    table.subTable
  (res, { table with subTable := subTable })

/-- `sfrt_dir_lookup`. -/
def sfrtDirLookup (ip : Adr) (table : DirTable) : Tuple := dirSubLookup ip.lookup table.subTable

/-- `sfrt_dir_remove`. -/
def sfrtDirRemove (ip : Adr) (len : ℕ) (behavior : Behavior) (table : DirTable) : ℕ × DirTable :=
  let (valueIndex, subTable) := dirSubRemove behavior len ip.lookup len table.subTable
  (valueIndex, { table with subTable := subTable })

/-! ### The table with its data -/

/-- The DIR types of `sfrt_new`; the last four exist with `SUP_IP6` only. -/
inductive TableType
  | dir24x8
  | dir16x2
  | dir16x8x2
  | dir16x4x4
  | dir8x4
  | dir4x8
  | dir2x16
  | dir16x4x4x16x5x4x4
  | dir16x7x4x4
  | dir16x8
  | dir8x16
  deriving DecidableEq

/-- `IPv4`, `IPv6`. -/
inductive IpType
  | ipv4
  | ipv6
  deriving DecidableEq

/-- The dimensions of `rt`. -/
def TableType.dimensions : TableType → List ℕ
  | .dir24x8 => [24, 8]
  | .dir16x2 => [16, 16]
  | .dir16x8x2 => [16, 8, 8]
  | .dir16x4x4 => [16, 4, 4, 4, 4]
  | .dir8x4 => [8, 8, 8, 8]
  | .dir4x8 => [4, 4, 4, 4, 4, 4, 4, 4]
  | .dir2x16 => [2, 2, 2, 2, 2, 2, 2, 2, 2, 2, 2, 2, 2, 2, 2, 2]
  | .dir16x4x4x16x5x4x4 => [16, 4, 4, 4, 4]
  | .dir16x7x4x4 => [16, 4, 4, 4, 4]
  | .dir16x8 => [16, 16]
  | .dir8x16 => [16, 8, 4, 4]

/-- The dimensions of `rt6`. -/
def TableType.dimensions6 : TableType → Option (List ℕ)
  | .dir16x4x4x16x5x4x4 => some [16, 4, 4, 4, 4, 16, 16, 16, 16, 16, 4, 4, 4, 4]
  | .dir16x7x4x4 => some [16, 16, 16, 16, 16, 16, 16, 4, 4, 4, 4]
  | .dir16x8 => some [16, 16, 16, 16, 16, 16, 16, 16]
  | .dir8x16 => some [8, 8, 8, 8, 8, 8, 8, 8, 8, 8, 8, 8, 8, 8, 8, 8]
  | _ => none

/-- The fields of a `table_t` in use; `P` is the type of pointers other than `NULL`. -/
structure Table (P : Type*) where
  data : ℕ → Option P
  numEnt : ℕ
  maxSize : ℕ
  lastAllocatedIndex : ℕ
  ipType : IpType
  rt : DirTable
  rt6 : Option DirTable

variable {P : Type*}

/-- `sfrt_new`; `none` also stands for a table that is freed before it is returned. -/
def sfrtNew (supIp6 : Bool) (tableType : TableType) (ipType : IpType) (dataSize : ℕ) :
    Option (Table P) :=
  let table : Table P :=
    { data := fun _ => none
      numEnt := 1
      maxSize := dataSize
      lastAllocatedIndex := 0
      ipType := ipType
      rt := sfrtDirNew tableType.dimensions
      rt6 := none }
  if dataSize ≥ 0x8000000 then none
  else
    match supIp6, tableType.dimensions6 with
    | false, none => if ipType = .ipv6 then none else some table
    | false, some _ => none
    | true, none => none
    | true, some dims => some { table with rt6 := some (sfrtDirNew dims) }

/-- `rt` or `rt6`. -/
def Table.select (table : Table P) : Family → Option DirTable
  | .inet => some table.rt
  | .inet6 => table.rt6

/-- Put a DIR table back. -/
def Table.store (table : Table P) (family : Family) (rt : DirTable) : Table P :=
  match family with
  | .inet => { table with rt := rt }
  | .inet6 => { table with rt6 := some rt }

/-- `sfrt_lookup`. -/
def sfrtLookup (adr : Adr) (table : Table P) : Option P :=
  match table.select adr.family with
  | none => none
  | some rt =>
    let tuple := sfrtDirLookup adr rt
    if tuple.index ≥ table.maxSize then none else table.data tuple.index

/-- The loop of `allocateTableIndex`; `none` when `data` is read past its end. -/
def allocateLoop (table : Table P) : ℕ → ℕ → Option ℕ
  | 0, _ => none
  | fuel + 1, index =>
    if index = table.lastAllocatedIndex then some 0
    else if index ≥ table.maxSize then none
    else if index ≠ 0 ∧ (table.data index).isNone then some index
    else allocateLoop table fuel ((index + 1) % table.maxSize)

/-- `allocateTableIndex`, but for setting `lastAllocatedIndex`. -/
def allocateTableIndex (table : Table P) : Option ℕ :=
  allocateLoop table (table.maxSize + 1) (table.lastAllocatedIndex + 1)

/-- The check of `len` against `ip_type`. -/
def badLength (table : Table P) (len : ℕ) : Bool :=
  table.ipType = .ipv4 ∧ len > 32 ∨ table.ipType = .ipv6 ∧ len > 128

/-- `sfrt_insert`; `none` when `allocateTableIndex` reads past the end of `data`. -/
def sfrtInsert (alloc : ℕ → Bool) (adr : Adr) (len : ℕ) (ptr : Option P) (behavior : Behavior)
    (table : Table P) : Option (ReturnCode × Table P) :=
  if len = 0 ∨ badLength table len then some (.rtInsertFailure, table)
  else
    match table.select adr.family with
    | none => some (.rtInsertFailure, table)
    | some rt =>
      -- the lookup is in `rt` for both families
      let tuple := sfrtDirLookup adr table.rt
      if tuple.length ≠ len then
        if table.numEnt ≥ table.maxSize then some (.rtPolicyTableExceeded, table)
        else
          match allocateTableIndex table with
          | none => none
          | some 0 => some (.rtPolicyTableExceeded, table)
          | some (i + 1) =>
            let (res, rt) := sfrtDirInsert alloc adr len (i + 1) behavior rt
            let table := { table.store adr.family rt with lastAllocatedIndex := i + 1 }
            if res = .rtSuccess then
              some (res, { table with
                numEnt := table.numEnt + 1
                data := Function.update table.data (i + 1) ptr })
            else some (res, table)
      else
        let (res, rt) := sfrtDirInsert alloc adr len tuple.index behavior rt
        some (res, table.store adr.family rt)

/-- `sfrt_remove`; the second component is `*ptr` where it is written. -/
def sfrtRemove (adr : Adr) (len : ℕ) (behavior : Behavior) (table : Table P) :
    ReturnCode × Option (Option P) × Table P :=
  if len = 0 ∨ badLength table len then (.rtRemoveFailure, none, table)
  else
    match table.select adr.family with
    | none => (.rtRemoveFailure, none, table)
    | some rt =>
      let (index, rt) := sfrtDirRemove adr len behavior rt
      let table := table.store adr.family rt
      if index ≠ 0 then
        (.rtSuccess, some (table.data index), { table with
          data := Function.update table.data index none
          numEnt := table.numEnt - 1 })
      else (.rtSuccess, none, table)

end Snort.Sfrt
