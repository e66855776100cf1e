import Snort.Lib.Firsts

/-!
# The keyword map of HTTP inspect

* `Keynode`, `Kmapnode`, `Kmap`: the entries, the character nodes with a first child and a next sibling,
  and the map, with one chain of nodes for each first character;
* `kmapAdd`, `kmapFind`: insertion and search, with keys of a given size or ended by a zero byte;
* `kmapFindFirst`, `kmapFindNext`: the entries one after the other.

User data is a pointer, `none` for `NULL`.  A result `none` of a call is a read or write outside of the
key or of the buffer `xkey`; allocations succeed.

* `findWalk_addWalk`: what a walk finds after an insertion, in any tree;
* `Represents`: the map after a list of calls, kept by each call;
* `kmap_finite_map`: `KMapAdd`, `KMapFind`, `KMapFindFirst` and `KMapFindNext` after any calls.
-/

namespace Snort.KMap

section

variable {α : Type}

/-- `tolower`. -/
def lowercase (c : UInt8) : UInt8 := if 65 ≤ c ∧ c ≤ 90 then c + 32 else c

/-- `KEYNODE`. -/
structure Keynode (α : Type) where
  key : List UInt8
  nkey : ℕ
  userdata : Option α
  deriving DecidableEq

/-- `KMAPNODE`. -/
inductive Kmapnode (α : Type)
  | null
  | node (nodechar : UInt8) (knode : Option (Keynode α)) (sibling child : Kmapnode α)

/-- `KMAP`; `keynext` is the rest of the list from this node on. -/
structure Kmap (α : Type) where
  root : UInt8 → Kmapnode α
  keylist : List (Keynode α)
  keynext : List (Keynode α)
  nocase : Bool

def kmapNew : Kmap α := ⟨fun _ => .null, [], [], false⟩

def kmapSetNoCase (km : Kmap α) (flag : Bool) : Kmap α := { km with nocase := flag }

/-! ### Keys -/

/-- `sizeof(xkey)`. -/
def xkeySize : ℕ := 256

/-- The bytes of a key of `n` bytes, or up to the first zero byte when `n` is not positive. -/
def keyBytes (key : List UInt8) (n : ℤ) : Option (List UInt8) :=
  if n ≤ 0 then
    if 0 ∈ key then some (key.takeWhile (· ≠ 0)) else none
  else if n.toNat ≤ key.length then some (key.take n.toNat)
  else none

/-- The first character and the others that the walk compares; `xkey` takes 256 of them.  The walk of the
string of no bytes ends at the node of its zero byte; with `nocase` there is no such byte in `xkey`. -/
def walkChars (nocase : Bool) (bytes : List UInt8) : Option (UInt8 × List UInt8) :=
  if nocase then
    if bytes.length ≤ xkeySize then
      match bytes.map lowercase with
      | [] => none
      | c :: P => some (c, P)
    else none
  else
    match bytes with
    | [] => some (0, [])
    | c :: P => some (c, P)

/-! ### Insertion -/

/-- The rest of a key as a chain of child nodes. -/
def childNodes (k : Keynode α) (c : UInt8) : List UInt8 → Kmapnode α
  | [] => .node c (some k) .null .null
  | d :: P => .node c none .null (childNodes k d P)

/-- The walk of `KMapAdd`, with the character `c` and then `P` left; where it cannot continue the tree is
expanded by a child or a sibling.  The last node gets `k`, if it has none. -/
def addWalk (k : Keynode α) : Kmapnode α → UInt8 → List UInt8 → Kmapnode α
  | .null, c, P => childNodes k c P
  | .node nodechar knode sibling child, c, P =>
    if nodechar = c then
      match P with
      | [] => .node nodechar (knode.or (some k)) sibling child
      | d :: P => .node nodechar knode sibling (addWalk k child d P)
    else .node nodechar knode (addWalk k sibling c P) child

/-- The key node at which a walk with the character `c` and then `P` left ends, when it uses up the key. -/
def findWalk : Kmapnode α → UInt8 → List UInt8 → Option (Keynode α)
  | .null, _, _ => none
  | .node nodechar knode sibling child, c, P =>
    if nodechar = c then
      match P with
      | [] => knode
      | d :: P => findWalk child d P
    else findWalk sibling c P

/-- `KMapAdd`: -99 for a string that is too long, 1 when the key is in the map, 0 when it was added. -/
def kmapAdd (km : Kmap α) (key : List UInt8) (n : ℤ) (userdata : Option α) : Option (Kmap α × ℤ) := do
  let bytes ← keyBytes key n
  if n ≤ 0 ∧ xkeySize < bytes.length then return (km, -99)
  let (c, P) ← walkChars km.nocase bytes
  let k : Keynode α := ⟨bytes, bytes.length, userdata⟩
  let root := Function.update km.root c (addWalk k (km.root c) c P)
  if (findWalk (km.root c) c P).isSome then return ({ km with root := root }, 1)
  return ({ km with root := root, keylist := k :: km.keylist }, 0)

/-! ### Search -/

/-- `KMapFind`. -/
def kmapFind (ks : Kmap α) (key : List UInt8) (n : ℤ) : Option (Option α) := do
  let bytes ← keyBytes key n
  if n ≤ 0 ∧ xkeySize < bytes.length then return none
  let (c, P) ← walkChars ks.nocase bytes
  return (findWalk (ks.root c) c P).bind (·.userdata)

/-! ### Iteration -/

def kmapFindFirstKey (km : Kmap α) : Kmap α × Option (Keynode α) :=
  ({ km with keynext := km.keylist }, km.keylist.head?)

def kmapFindFirst (km : Kmap α) : Kmap α × Option α :=
  ({ km with keynext := km.keylist }, km.keylist.head?.bind (·.userdata))

def kmapFindNextKey (km : Kmap α) : Kmap α × Option (Keynode α) :=
  ({ km with keynext := km.keynext.tail }, km.keynext.tail.head?)

def kmapFindNext (km : Kmap α) : Kmap α × Option α :=
  ({ km with keynext := km.keynext.tail }, km.keynext.tail.head?.bind (·.userdata))

/-- The results of `m` further calls of `KMapFindNext`. -/
def findNexts (km : Kmap α) : ℕ → List (Option α)
  | 0 => []
  | m + 1 => (kmapFindNext km).2 :: findNexts (kmapFindNext km).1 m

/-- The results of `KMapFindFirst` and of `m` calls of `KMapFindNext` after it. -/
def findFirstNexts (km : Kmap α) (m : ℕ) : List (Option α) :=
  (kmapFindFirst km).2 :: findNexts (kmapFindFirst km).1 m

end

/-! ## The keyword map is a finite map -/

open Firsts

variable {α : Type}

/-! ### One insertion -/

theorem findWalk_childNodes (k : Keynode α) (c : UInt8) (P : List UInt8) (d : UInt8) (Q : List UInt8) :
    findWalk (childNodes k c P) d Q = if d :: Q = c :: P then some k else none := by
  induction P generalizing c d Q with
  | nil =>
    by_cases h : c = d
    · cases Q with
      | nil => simp [childNodes, findWalk, h]
      | cons e Q => simp [childNodes, findWalk]
    · simp [childNodes, findWalk, h, Ne.symm h]
  | cons e P ih =>
    by_cases h : c = d
    · cases Q with
      | nil => simp [childNodes, findWalk]
      | cons f Q => simp [childNodes, findWalk, ih, h]
    · simp [childNodes, findWalk, h, Ne.symm h]

/-- The key of an insertion is found, with its first entry; every other key finds what it did. -/
theorem findWalk_addWalk (k : Keynode α) (t : Kmapnode α) (c : UInt8) (P : List UInt8) (d : UInt8)
    (Q : List UInt8) :
    findWalk (addWalk k t c P) d Q = (findWalk t d Q).or (if c :: P = d :: Q then some k else none) := by
  induction t generalizing c P d Q with
  | null => simp [addWalk, findWalk, findWalk_childNodes, eq_comm]
  | node nodechar knode sibling child ihs ihc =>
    by_cases hc : nodechar = c
    · subst hc
      cases P with
      | nil =>
        by_cases hd : nodechar = d
        · cases Q with
          | nil => simp [addWalk, findWalk, hd]
          | cons e Q => simp [addWalk, findWalk]
        · simp [addWalk, findWalk, hd]
      | cons e P =>
        by_cases hd : nodechar = d
        · cases Q with
          | nil => simp [addWalk, findWalk]
          | cons f Q => simp [addWalk, findWalk, ihc, hd]
        · simp [addWalk, findWalk, hd]
    · by_cases hd : nodechar = d
      · have hcd : d ≠ c := fun h => hc (hd.trans h)
        simp [addWalk, findWalk, hd, hcd, hcd.symm]
      · simp [addWalk, findWalk, hc, hd, ihs]

/-- The insertion of a key that is there leaves the tree as it is. -/
theorem addWalk_of_isSome (k : Keynode α) (t : Kmapnode α) (c : UInt8) (P : List UInt8)
    (h : (findWalk t c P).isSome) : addWalk k t c P = t := by
  induction t generalizing c P with
  | null => simp [findWalk] at h
  | node nodechar knode sibling child ihs ihc =>
    by_cases hc : nodechar = c
    · cases P with
      | nil =>
        obtain ⟨j, rfl⟩ := Option.isSome_iff_exists.1 (by simpa [findWalk, hc] using h)
        simp [addWalk, hc]
      | cons e P => simp [addWalk, hc, ihc e P (by simpa [findWalk, hc] using h)]
    · simp [addWalk, hc, ihs c P (by simpa [findWalk, hc] using h)]

/-! ### Calls -/

/-- The bytes of a key as the map compares them. -/
def folded (nocase : Bool) (bytes : List UInt8) : List UInt8 :=
  if nocase then bytes.map lowercase else bytes

@[simp] theorem length_folded (nocase : Bool) (bytes : List UInt8) :
    (folded nocase bytes).length = bytes.length := by
  cases nocase <;> simp [folded]

/-- A call of `KMapAdd` with a key of 1..256 bytes, in any form. -/
structure AddCall (α : Type) where
  key : List UInt8
  n : ℤ
  userdata : Option α
  bytes : List UInt8
  reads : keyBytes key n = some bytes
  nonempty : bytes ≠ []
  size : bytes.length ≤ xkeySize

/-- The key node of a call. -/
def AddCall.knode (a : AddCall α) : Keynode α := ⟨a.bytes, a.bytes.length, a.userdata⟩

/-- The key of a call as the map compares it. -/
def AddCall.folded (nocase : Bool) (a : AddCall α) : List UInt8 := KMap.folded nocase a.bytes

/-- The map and the results after a list of calls. -/
def kmapAdds (km : Kmap α) : List (AddCall α) → Option (Kmap α × List ℤ)
  | [] => some (km, [])
  | a :: calls => do
    let (km, r) ← kmapAdd km a.key a.n a.userdata
    let (km, rs) ← kmapAdds km calls
    return (km, r :: rs)

theorem walkChars_eq (nocase : Bool) {bytes : List UInt8} (hne : bytes ≠ [])
    (hsize : nocase → bytes.length ≤ xkeySize) :
    ∃ c P, folded nocase bytes = c :: P ∧ walkChars nocase bytes = some (c, P) := by
  obtain ⟨b, bytes, rfl⟩ := List.exists_cons_of_ne_nil hne
  cases nocase with
  | false => exact ⟨b, bytes, rfl, rfl⟩
  | true => exact ⟨_, _, rfl, by rw [walkChars, if_pos rfl, if_pos (hsize rfl)]; rfl⟩

/-- A search for the characters of a key, from the root of its first one. -/
def findChars (km : Kmap α) : List UInt8 → Option (Keynode α)
  | [] => none
  | c :: P => findWalk (km.root c) c P

/-- An addition of a key that is there gives 1 and the map as it was. -/
theorem kmapAdd_of_mem (km : Kmap α) (a : AddCall α) (h : (findChars km (a.folded km.nocase)).isSome) :
    kmapAdd km a.key a.n a.userdata = some (km, 1) := by
  obtain ⟨c, P, hf, hw⟩ := walkChars_eq km.nocase a.nonempty fun _ => a.size
  have hlong : ¬ (a.n ≤ 0 ∧ xkeySize < a.bytes.length) := fun h => absurd a.size (by omega)
  rw [AddCall.folded, hf, findChars] at h
  simp [kmapAdd, a.reads, hlong, hw, h, addWalk_of_isSome _ _ _ _ h]

/-- An addition of a key that is not there gives 0 and puts its entry in front. -/
theorem kmapAdd_of_notMem (km : Kmap α) (a : AddCall α) (h : findChars km (a.folded km.nocase) = none) :
    ∃ km', kmapAdd km a.key a.n a.userdata = some (km', 0) ∧ km'.nocase = km.nocase ∧
      km'.keylist = a.knode :: km.keylist ∧
      ∀ k, findChars km' k = (findChars km k).or (if a.folded km.nocase = k then some a.knode else none) := by
  obtain ⟨c, P, hf, hw⟩ := walkChars_eq km.nocase a.nonempty fun _ => a.size
  have hlong : ¬ (a.n ≤ 0 ∧ xkeySize < a.bytes.length) := fun h => absurd a.size (by omega)
  rw [AddCall.folded, hf, findChars] at h
  refine ⟨{ km with
    root := Function.update km.root c (addWalk a.knode (km.root c) c P)
    keylist := a.knode :: km.keylist }, ?_, rfl, rfl, fun k => ?_⟩
  · simp [kmapAdd, a.reads, hlong, hw, h, AddCall.knode]
  rw [AddCall.folded, hf]
  cases k with
  | nil => simp [findChars]
  | cons d Q =>
    by_cases hd : d = c
    · subst hd
      simp [findChars, findWalk_addWalk]
    · simp [findChars, Function.update_of_ne hd, Ne.symm hd]

/-! ### Runs of calls -/

/-- The map after the calls: each key finds its first entry, and the list has these, the last one in
front. -/
structure Represents (nocase : Bool) (calls : List (AddCall α)) (km : Kmap α) : Prop where
  flag : km.nocase = nocase
  keylist : km.keylist = ((firsts (AddCall.folded nocase) calls).map AddCall.knode).reverse
  find : ∀ k, findChars km k = (find? (AddCall.folded nocase) calls k).map AddCall.knode

theorem represents_new (nocase : Bool) :
    Represents nocase [] (kmapSetNoCase (kmapNew : Kmap α) nocase) :=
  ⟨rfl, rfl, fun k => by cases k <;> rfl⟩

/-- What one more call returns, and the map after it. -/
theorem Represents.add {nocase : Bool} {calls : List (AddCall α)} {km : Kmap α}
    (hkm : Represents nocase calls km) (a : AddCall α) :
    ∃ km', kmapAdd km a.key a.n a.userdata =
        some (km', if a.folded nocase ∈ calls.map (AddCall.folded nocase) then 1 else 0) ∧
      (a.folded nocase ∈ calls.map (AddCall.folded nocase) → km' = km) ∧
      Represents nocase (calls ++ [a]) km' := by
  obtain ⟨rfl, hlist, hfind⟩ := hkm
  by_cases ha : a.folded km.nocase ∈ calls.map (AddCall.folded km.nocase)
  · have hsome : (findChars km (a.folded km.nocase)).isSome := by
      rw [hfind, Option.isSome_map, find?_isSome_iff]
      exact ha
    refine ⟨km, ?_, fun _ => rfl, rfl, ?_, fun k => ?_⟩
    · rw [if_pos ha, kmapAdd_of_mem km a hsome]
    · rw [firsts_concat, addNew_of_mem ((mem_map_firsts _ _ _).2 ha), hlist]
    · have hold := find?_firsts (AddCall.folded km.nocase) (calls ++ [a]) k
      rw [firsts_concat, addNew_of_mem ((mem_map_firsts _ _ _).2 ha), find?_firsts] at hold
      rw [hfind, hold]
  · have hnone : findChars km (a.folded km.nocase) = none := by
      rw [hfind, Option.map_eq_none_iff, find?_eq_none_iff]
      exact ha
    obtain ⟨km', hadd, hcase, hlist', hfind'⟩ := kmapAdd_of_notMem km a hnone
    refine ⟨km', by rw [if_neg ha, hadd], fun h => absurd h ha, hcase, ?_, fun k => ?_⟩
    · have hnew : a.folded km.nocase ∉ (firsts (AddCall.folded km.nocase) calls).map _ :=
        fun h => ha ((mem_map_firsts _ _ _).1 h)
      rw [firsts_concat, addNew_of_notMem hnew, hlist', hlist, List.map_append, List.reverse_append]
      rfl
    · rw [hfind', hfind, find?_concat]
      cases find? (AddCall.folded km.nocase) calls k with
      | some b => rfl
      | none => by_cases hk : a.folded km.nocase = k <;> simp [hk]

/-- The result of each call of a list. -/
def addResults (nocase : Bool) (before : List (AddCall α)) : List (AddCall α) → List ℤ
  | [] => []
  | a :: calls =>
    (if a.folded nocase ∈ before.map (AddCall.folded nocase) then 1 else 0) ::
      addResults nocase (before ++ [a]) calls

theorem Represents.adds {nocase : Bool} {before : List (AddCall α)} {km : Kmap α}
    (hkm : Represents nocase before km) (calls : List (AddCall α)) :
    ∃ km', kmapAdds km calls = some (km', addResults nocase before calls) ∧
      Represents nocase (before ++ calls) km' := by
  induction calls generalizing before km with
  | nil => exact ⟨km, rfl, by simpa using hkm⟩
  | cons a calls ih =>
    obtain ⟨km₁, hadd, -, hkm₁⟩ := hkm.add a
    obtain ⟨km', hadds, hkm'⟩ := ih hkm₁
    refine ⟨km', ?_, by simpa using hkm'⟩
    simp [kmapAdds, addResults, hadd, hadds]

/-! ### Search and iteration -/

theorem Represents.find_eq {nocase : Bool} {calls : List (AddCall α)} {km : Kmap α}
    (hkm : Represents nocase calls km) {key : List UInt8} {n : ℤ} {bytes : List UInt8}
    (hbytes : keyBytes key n = some bytes) (hne : bytes ≠ [])
    (hsize : nocase → 0 < n → bytes.length ≤ xkeySize) :
    kmapFind km key n =
      some ((find? (AddCall.folded nocase) calls (folded nocase bytes)).bind (·.userdata)) := by
  obtain ⟨rfl, -, hfind⟩ := hkm
  by_cases hlong : n ≤ 0 ∧ xkeySize < bytes.length
  · have hnone : find? (AddCall.folded km.nocase) calls (folded km.nocase bytes) = none := by
      rw [find?_eq_none_iff, List.mem_map]
      rintro ⟨a, -, ha⟩
      have := congrArg List.length ha
      rw [AddCall.folded, length_folded, length_folded] at this
      have := a.size
      omega
    simp [kmapFind, hbytes, hlong, hnone]
  · obtain ⟨c, P, hf, hw⟩ := walkChars_eq km.nocase hne fun h => by
      have := hsize h
      omega
    have := hfind (c :: P)
    rw [findChars] at this
    simp only [kmapFind, hbytes, hlong, hw, hf, this, if_false, Option.bind_eq_bind, Option.bind_some]
    cases find? (AddCall.folded km.nocase) calls (c :: P) <;> rfl

theorem take_append_replicate (l : List (Option α)) (m : ℕ) :
    (l ++ List.replicate (m + 1) none).take m = (l ++ List.replicate m none).take m := by
  have h₁ : min (m - l.length) (m + 1) = m - l.length := by omega
  have h₂ : min (m - l.length) m = m - l.length := by omega
  rw [List.take_append, List.take_append, List.take_replicate, List.take_replicate, h₁, h₂]

theorem findNexts_eq (km : Kmap α) (m : ℕ) :
    findNexts km m = (km.keynext.tail.map Keynode.userdata ++ List.replicate m none).take m := by
  induction m generalizing km with
  | zero => rfl
  | succ m ih =>
    rw [findNexts, ih]
    cases h : km.keynext.tail with
    | nil => simp [kmapFindNext, h, List.replicate_succ]
    | cons k l => simp [kmapFindNext, h, take_append_replicate]

/-- The calls walk through the list, and give `NULL` from its end on. -/
theorem findFirstNexts_eq (km : Kmap α) (m : ℕ) :
    findFirstNexts km m =
      (km.keylist.map Keynode.userdata ++ List.replicate (m + 1) none).take (m + 1) := by
  rw [findFirstNexts, findNexts_eq]
  cases h : km.keylist with
  | nil => simp [kmapFindFirst, h, List.replicate_succ]
  | cons k l => simp [kmapFindFirst, h, take_append_replicate]

/-- After any calls, each with a key of 1..256 bytes: a call returns 1 when an earlier call had its key,
and leaves the map as it was; a search finds what the first call with its key added, and `NULL` when no
call had it; and the iteration gives the entries of the first calls of all keys, once each. -/
theorem kmap_finite_map (nocase : Bool) (calls : List (AddCall α)) :
    ∃ km, kmapAdds (kmapSetNoCase kmapNew nocase) calls = some (km, addResults nocase [] calls) ∧
      (∀ a : AddCall α, a.folded nocase ∈ calls.map (AddCall.folded nocase) →
        kmapAdd km a.key a.n a.userdata = some (km, 1)) ∧
      (∀ a : AddCall α, a.folded nocase ∉ calls.map (AddCall.folded nocase) →
        ∃ km', kmapAdd km a.key a.n a.userdata = some (km', 0)) ∧
      (∀ key n bytes, keyBytes key n = some bytes → bytes ≠ [] →
        (nocase → 0 < n → bytes.length ≤ xkeySize) →
        kmapFind km key n = some ((calls.find? fun a => a.folded nocase = folded nocase bytes).bind
          AddCall.userdata)) ∧
      (∃ entries : List (AddCall α), entries.Sublist calls ∧
        (entries.map (AddCall.folded nocase)).Nodup ∧
        (∀ e ∈ entries, calls.find? (fun a => a.folded nocase = e.folded nocase) = some e) ∧
        (∀ a ∈ calls, a.folded nocase ∈ entries.map (AddCall.folded nocase)) ∧
        km.keylist = (entries.map AddCall.knode).reverse ∧
        ∀ m, findFirstNexts km m =
          ((entries.map AddCall.userdata).reverse ++ List.replicate (m + 1) none).take (m + 1)) := by
  obtain ⟨km, hadds, hkm⟩ := (represents_new nocase).adds calls
  rw [List.nil_append] at hkm
  refine ⟨km, hadds, fun a ha => ?_, fun a ha => ?_, fun key n bytes hbytes hne hsize => ?_, ?_⟩
  · obtain ⟨km', hadd, hsame, -⟩ := hkm.add a
    rw [hadd, if_pos ha, hsame ha]
  · obtain ⟨km', hadd, -⟩ := hkm.add a
    exact ⟨km', by rw [hadd, if_neg ha]⟩
  · exact hkm.find_eq hbytes hne hsize
  · refine ⟨firsts (AddCall.folded nocase) calls, sublist_firsts _ _, nodup_firsts _ _,
      fun e he => find?_of_mem_firsts he, fun a ha => ?_, hkm.keylist, fun m => ?_⟩
    · exact (mem_map_firsts _ _ _).2 (List.mem_map_of_mem ha)
    · rw [findFirstNexts_eq, hkm.keylist, List.map_reverse, List.map_map]
      rfl

end Snort.KMap
