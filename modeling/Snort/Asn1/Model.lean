import Snort.Lib.Loop

/-!
# Decoding ASN.1

* `asn1DecodeTagNumExt`, `asn1DecodeIdent`, `asn1DecodeLenExt`, `asn1DecodeLen`, `decodeNode`: one structure, read
  from a window of the buffer;
* `Decoding`, `asn1DecodeType`: the pool of nodes, and a structure decoded into a link;
* `step`, `asn1Decode`: the loops of `asn1_decode`, one iteration at a time;
* `visit`, `asn1Traverse`: the loops of `asn1_traverse`.

A position is an offset in the buffer, and a node is given by its index in the pool.  `none` is a fault: a byte
outside of the window, a window that is not inside of the buffer, a place outside of the stack, a node that does not
exist or a difference with a null pointer.
-/

namespace Snort.Asn1

open Loop

/-- The return values. -/
inductive Ret
  | ok
  | oob
  | overlongLen
  | nullMem
  | invalidBerTagLen
  | memAlloc
  | invalidIndefLen
  | stack
  deriving DecidableEq

/-! ### Identifier and length -/

/-- `asn1_decode_tag_num_ext`, with the tag number so far: the return value, what is left of the window and the tag
number.  The shift and the octet are taken in 32 bits. -/
def asn1DecodeTagNumExt : List UInt8 → (tagNum : ℕ) → Option (Ret × List UInt8 × ℕ)
  | [], _ => none
  | b :: rest, tagNum =>
    let newTagNum := (128 * tagNum + b.toNat % 128) % 2 ^ 32
    if tagNum ≠ 0 ∧ newTagNum ≤ tagNum then some (.overlongLen, b :: rest, tagNum)
    else if rest = [] then some (.oob, rest, newTagNum)
    else if 128 ≤ b.toNat then asn1DecodeTagNumExt rest newTagNum
    else some (.ok, rest, newTagNum)

/-- `ASN1_IDENT`. -/
structure Asn1Ident where
  asn1Class : ℕ
  flag : ℕ
  tagType : ℕ
  tag : ℕ
  deriving DecidableEq

/-- `SF_ASN1_FLAG_CONSTRUCT`. -/
def flagConstruct : ℕ := 32

/-- `SF_ASN1_TAG_EXTENSION`. -/
def tagExtension : ℕ := 31

/-- `asn1_decode_ident`. -/
def asn1DecodeIdent : List UInt8 → Option (Ret × List UInt8 × Asn1Ident)
  | [] => none
  | b :: rest =>
    let ident : Asn1Ident := ⟨(b &&& 0xc0).toNat, (b &&& 0x20).toNat, 0, (b &&& 0x1f).toNat⟩
    if rest = [] then some (.oob, rest, ident)
    else if ident.tag = tagExtension then
      (asn1DecodeTagNumExt rest 0).map fun r =>
        (if r.1 = .ok then .ok else .invalidBerTagLen, r.2.1, { ident with tagType := tagExtension, tag := r.2.2 })
    else some (.ok, rest, ident)

/-- The loop of `asn1_decode_len_ext`, with the octets still to be read and the size so far. -/
def lenExtLoop : ℕ → List UInt8 → (size : ℕ) → Option (Ret × List UInt8 × ℕ)
  | 0, rest, size => some (.ok, rest, size)
  | _ + 1, [], _ => none
  | bytes + 1, b :: rest, size =>
    let newSize := (256 * size + b.toNat) % 2 ^ 32
    if size ≠ 0 ∧ newSize ≤ size then some (.overlongLen, b :: rest, size)
    else if rest = [] then
      -- a length of zero may end the buffer
      if newSize = 0 ∧ bytes = 0 then some (.ok, rest, newSize) else some (.oob, rest, newSize)
    else lenExtLoop bytes rest newSize

/-- `asn1_decode_len_ext`. -/
def asn1DecodeLenExt : List UInt8 → Option (Ret × List UInt8 × ℕ)
  | [] => none
  | b :: rest => if rest = [] then some (.oob, rest, 0) else lenExtLoop (b.toNat % 128) rest 0

/-- The type of a length; `unset` in a node that was just allocated. -/
inductive LenType
  | unset
  | defShort
  | defLong
  | indef
  deriving DecidableEq

/-- `ASN1_LEN`. -/
structure Asn1Len where
  type : LenType
  size : ℕ
  deriving DecidableEq

/-- `asn1_decode_len`. -/
def asn1DecodeLen : List UInt8 → Option (Ret × List UInt8 × Asn1Len)
  | [] => none
  | b :: rest =>
    if b.toNat < 128 then
      some (if rest = [] ∧ b.toNat ≠ 0 then .oob else .ok, rest, ⟨.defShort, b.toNat⟩)
    else if b.toNat % 128 ≠ 0 then
      (asn1DecodeLenExt (b :: rest)).map fun r => (r.1, r.2.1, ⟨.defLong, r.2.2⟩)
    else some (if rest = [] then .oob else .ok, rest, ⟨.indef, 0⟩)

/-! ### Structures -/

/-- `ASN1_TYPE`. -/
structure Asn1Type where
  ident : Asn1Ident
  len : Asn1Len
  data : Option ℕ
  dataLen : ℕ
  eoc : Bool
  next : Option ℕ
  cnext : Option ℕ
  deriving DecidableEq

/-- A node after `memset`. -/
def newNode : Asn1Type := ⟨⟨0, 0, 0, 0⟩, ⟨.unset, 0⟩, none, 0, false, none, none⟩

/-- A construct. -/
def Asn1Type.Construct (t : Asn1Type) : Prop := t.ident.flag = flagConstruct

instance (t : Asn1Type) : Decidable t.Construct := inferInstanceAs (Decidable (_ = _))

/-- An indefinite length. -/
def Asn1Type.Indef (t : Asn1Type) : Prop := t.len.type = .indef

instance (t : Asn1Type) : Decidable t.Indef := inferInstanceAs (Decidable (_ = _))

/-- `asn1_is_eoc`. -/
def asn1IsEoc (t : Asn1Type) : Bool :=
  t.ident.asn1Class = 0 ∧ t.ident.flag = 0 ∧ t.ident.tag = 0 ∧ t.len.type = .defShort ∧ t.len.size = 0

/-- The data part of `asn1_decode_type`, with what is left of a window that ends at `finish`. -/
def decodeData (finish : ℕ) (t : Asn1Type) (rest : List UInt8) : Ret × List UInt8 × Asn1Type :=
  let pos := finish - rest.length
  if t.len.size = 0 then
    if ¬t.Indef then (.ok, rest, { t with data := some pos, dataLen := 0, eoc := asn1IsEoc t })
    else if t.Construct then (.ok, rest, { t with data := some pos, dataLen := rest.length })
    else (.invalidIndefLen, rest, t)
  else if rest.length < t.len.size then
    -- a construct is decoded as far as it goes
    (if t.Construct then .ok else .oob, rest, { t with data := some pos, dataLen := rest.length })
  else
    (.ok, if t.Construct then rest else rest.drop t.len.size, { t with data := some pos, dataLen := t.len.size })

/-- `asn1_decode_type` on a window that ends at `finish`: the return value, what is left of the window and the
node. -/
def decodeNode (finish : ℕ) (window : List UInt8) : Option (Ret × List UInt8 × Asn1Type) :=
  (asn1DecodeIdent window).bind fun r =>
    if r.1 ≠ .ok then some (r.1, r.2.1, { newNode with ident := r.2.2 })
    else
      (asn1DecodeLen r.2.1).map fun r' =>
        let t := { newNode with ident := r.2.2, len := r'.2.2 }
        if r'.1 ≠ .ok then (r'.1, r'.2.1, t) else decodeData finish t r'.2.1

/-! ### The pool -/

/-- A place for a link: the result, or a field of a node. -/
inductive Slot
  | root
  | next (i : ℕ)
  | cnext (i : ℕ)
  deriving DecidableEq

/-- The variables of `asn1_decode`.  The pool holds the nodes allocated so far; the top of the stack comes first. -/
structure Decoding where
  pool : List Asn1Type
  root : Option ℕ
  data : ℕ
  len : ℕ
  stack : List ℕ
  child : Option ℕ
  deriving DecidableEq

/-- A link. -/
def Decoding.link (d : Decoding) : Slot → Option ℕ
  | .root => d.root
  | .next i => d.pool[i]?.bind (·.next)
  | .cnext i => d.pool[i]?.bind (·.cnext)

/-- A link is set. -/
def Decoding.setLink (d : Decoding) (σ : Slot) (v : Option ℕ) : Decoding :=
  match σ with
  | .root => { d with root := v }
  | .next i => { d with pool := d.pool.modify i fun t => { t with next := v } }
  | .cnext i => { d with pool := d.pool.modify i fun t => { t with cnext := v } }

/-- `ASN1_MAX_STACK`. -/
def maxStack : ℕ := 128

/-- `asnstack[index++] = cur`. -/
def Decoding.push (d : Decoding) (i : ℕ) : Option Decoding :=
  if d.stack.length < maxStack then some { d with stack := i :: d.stack } else none

section Decode

variable (buf : List UInt8) (numNodes : ℕ)

/-- `asn1_decode_type`; the node is linked before it is decoded. -/
def asn1DecodeType (σ : Slot) (d : Decoding) : Option (Ret × Decoding) :=
  if d.len = 0 then some (.ok, d.setLink σ none)
  else if numNodes ≤ d.pool.length then some (.memAlloc, d.setLink σ none)
  else if buf.length < d.data + d.len then none
  else
    let finish := d.data + d.len
    (decodeNode finish ((buf.drop d.data).take d.len)).map fun r =>
      let d' := { d.setLink σ (some d.pool.length) with
        pool := (d.setLink σ (some d.pool.length)).pool ++ [r.2.2] }
      if r.1 = .ok then (.ok, { d' with data := finish - r.2.1.length, len := r.2.1.length }) else (r.1, d')

/-- `indef->len.size` and `indef->data_len` at the end of its contents. -/
def closeIndef (data : ℕ) (t : Asn1Type) : Option Asn1Type :=
  t.data.map fun start =>
    let size := ((data - start - 2 : ℤ) % 2 ^ 32).toNat
    { t with len := { t.len with size := size }, dataLen := size }

/-- The node at a link is an end of contents. -/
def Decoding.atEoc (d : Decoding) (σ : Slot) : Bool := ((d.link σ).bind (d.pool[·]?)).any (·.eoc)

/-- An end of contents at a link closes the construct on top of the stack if that is an indefinite one: the
construct, or nothing when there is no end of contents or it is an ordinary child. -/
def closeEoc (σ : Slot) (d : Decoding) : Option (Decoding × Option ℕ) :=
  if d.atEoc σ then
    match d.stack with
    | [] => some (d, none)
    | i :: stack =>
      d.pool[i]?.bind fun t =>
        if t.Indef then
          (closeIndef d.data t).map fun t' =>
            ({ d with pool := d.pool.set i t', stack := stack }.setLink σ none, some i)
        else ({ d with stack := stack }.push i).map fun d' => (d', none)
  else some (d, none)

/-! ### The loops of `asn1_decode` -/

/-- Where the function is: at the outer loop, at the loop for constructs, at the loop for ends of contents behind
peers, or at the loop that closes constructs. -/
inductive Phase
  | outer (cur : Option ℕ)
  | construct (cur : Option ℕ)
  | eocs (cur : ℕ)
  | close
  deriving DecidableEq

/-- A turn of the loops. -/
abbrev DecodeTurn : Type := Turn (Phase × Decoding) (Ret × Decoding)

/-- `asn1_decode_type`, and how to go on unless it fails. -/
def decodeThen (σ : Slot) (d : Decoding) (f : Decoding → Option DecodeTurn) :
    Option DecodeTurn :=
  (asn1DecodeType buf numNodes σ d).bind fun r => if r.1 = .ok then f r.2 else some (.done r)

/-- The peer of a node is decoded. -/
def peer (cur : ℕ) (d : Decoding) : Option DecodeTurn :=
  decodeThen buf numNodes (.next cur) d fun d => some (.more (.eocs cur, d))

/-- A construct is entered. -/
def enter (cur : ℕ) (t : Asn1Type) (d : Decoding) : Option DecodeTurn :=
  if d.stack.length < maxStack then
    (d.push cur).bind fun d =>
      if ¬t.Indef ∧ d.len < t.dataLen then some (.done (.overlongLen, d))
      else
        decodeThen buf numNodes (.cnext cur) (if t.Indef then d else { d with len := t.dataLen }) fun d =>
          (closeEoc (.cnext cur) d).bind fun r =>
            match r.2 with
            | some indef => peer buf numNodes indef r.1
            | none => some (.more (.construct (r.1.link (.cnext cur)), r.1))
  else some (.done (.stack, d))

/-- Behind the last peer the next one is looked for in the enclosing construct. -/
def goOn (cur : ℕ) (d : Decoding) : Option DecodeTurn :=
  match d.link (.next cur) with
  | some k => some (.more (.outer (some k), d))
  | none => some (.more (.close, d))

/-- The length that is left of a construct, when there is more of it. -/
def restLen (t : Asn1Type) (d : Decoding) : Option ℕ :=
  t.data.map fun start =>
    let conLen := ((d.data - start : ℤ) % 2 ^ 32).toNat
    if conLen < t.dataLen then t.dataLen - conLen else d.len

/-- A construct taken from the stack that has more data goes back, and the child is looked at instead. -/
def pickChild (i : ℕ) (d : Decoding) : Option (ℕ × Decoding) :=
  if d.len = 0 then some (i, { d with child := some i })
  else
    match d.child with
    | some child => (d.push i).map fun d => (child, { d with child := none })
    | none => some (i, d)

/-- Peers of the root when nothing else is left. -/
def moreRoots (cur : ℕ) (d : Decoding) : Option DecodeTurn :=
  if d.stack = [] ∧ d.link (.next cur) = none ∧ d.data < buf.length then
    decodeThen buf numNodes (.next cur) { d with len := buf.length - d.data } (goOn cur)
  else goOn cur d

/-- An iteration of the loop that closes constructs. -/
def closeTop (i : ℕ) (d : Decoding) : Option DecodeTurn :=
  d.pool[i]?.bind fun t => (restLen t d).bind fun len => (pickChild i { d with len := len }).bind fun r =>
    decodeThen buf numNodes (.next r.1) r.2 fun d =>
      (closeEoc (.next r.1) d).bind fun r' => moreRoots buf numNodes (r'.2.getD r.1) r'.1

/-- One iteration. -/
def step : Phase × Decoding → Option DecodeTurn
  | (.outer none, d) => some (.done (.ok, d))
  | (.outer (some cur), d) => some (.more (.construct (some cur), d))
  | (.construct none, d) => some (.more (.close, d))
  | (.construct (some cur), d) =>
    d.pool[cur]?.bind fun t => if t.Construct then enter buf numNodes cur t d else peer buf numNodes cur d
  | (.eocs cur, d) =>
    (closeEoc (.next cur) d).bind fun r =>
      match r.2 with
      | some indef => peer buf numNodes indef r.1
      | none => goOn cur r.1
  | (.close, d) =>
    match d.stack with
    | [] => some (.more (.outer none, d))
    | i :: stack => closeTop buf numNodes i { d with stack := stack }

/-- The variables at the start. -/
def newDecoding : Decoding := ⟨[], none, 0, buf.length, [], none⟩

/-- `asn1_decode`. -/
def asn1Decode (fuel : ℕ) : Outcome (Ret × Decoding) :=
  if buf = [] then .returns (.nullMem, newDecoding buf)
  else
    match asn1DecodeType buf numNodes .root (newDecoding buf) with
    | none => .fault
    | some (ret, d) => if ret = .ok then run (step buf numNodes) fuel (.outer d.root, d) else .returns (ret, d)

end Decode

/-! ### Traversal -/

/-- The variables of `asn1_traverse`, with the calls of the detection function so far, the last one first. -/
structure Traversal where
  stack : List ℕ
  calls : List ℕ
  deriving DecidableEq

/-- Where the function is. -/
inductive Place
  | outer (cur : Option ℕ)
  | construct (cur : Option ℕ)
  | close
  deriving DecidableEq

section Traverse

variable (pool : List Asn1Type) (detectFunc : Asn1Type → Bool)

/-- The detection function is called. -/
def Traversal.call (v : Traversal) (i : ℕ) : Traversal := { v with calls := i :: v.calls }

/-- One iteration. -/
def visit : Place × Traversal → Option (Turn (Place × Traversal) (Bool × Traversal))
  | (.outer none, v) => some (.done (false, v))
  | (.outer (some cur), v) => some (.more (.construct (some cur), v))
  | (.construct none, v) => some (.more (.close, v))
  | (.construct (some cur), v) =>
    pool[cur]?.bind fun t =>
      if t.Construct then
        if v.stack.length < maxStack then
          let v' := { v with stack := cur :: v.stack }.call cur
          if detectFunc t then some (.done (true, v')) else some (.more (.construct t.cnext, v'))
        else some (.done (false, v))
      else if detectFunc t then some (.done (true, v.call cur))
      else some (.more (if t.next.isSome then .outer t.next else .close, v.call cur))
  | (.close, v) =>
    match v.stack with
    | [] => some (.more (.outer none, v))
    | i :: stack =>
      pool[i]?.bind fun t =>
        some (.more (if t.next.isSome then .outer t.next else .close, { v with stack := stack }))

/-- `asn1_traverse`. -/
def asn1Traverse (asn1 : Option ℕ) (fuel : ℕ) : Outcome (Bool × Traversal) :=
  match asn1 with
  | none => .returns (false, ⟨[], []⟩)
  | some i => run (visit pool detectFunc) fuel (.outer (some i), ⟨[], []⟩)

end Traverse

end Snort.Asn1
