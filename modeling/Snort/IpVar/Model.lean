import Snort.Sfrt.Model

/-!
# IP variables: `sf_ip.c`, `sf_ip.h` and `sf_ipvar.c`

An IP variable is a list of networks and a list of negated networks.

* `sfipPton` reads a network from text and masks it, `sfvarParseIplist` reads a variable;
* `sfvarIpIn` looks an address up, `sfvarCompare` compares two variables.

The words of an address are in host order.  `inet_pton` is the parameter `inetPton`.  A shift by 32,
which C leaves undefined, is one by 32 here: it leaves zero.
-/

namespace Snort.IpVar

open Sfrt (Family)

/-! ### Addresses and networks -/

/-- `sfip_t`. -/
structure Sfip extends Sfrt.Sfip where
  bits : ℕ

/-- The return codes in use. -/
inductive SfipRet
  | success
  | failure
  | lesser
  | greater
  | equal
  | cidrErr
  | inetParseErr
  | invalidMask
  | allocErr
  | lookupFailure
  | unmatchedBracket
  | notAny
  deriving DecidableEq

/-- `sfip_bits`. -/
def sfipBits (ip : Sfip) : BitVec 8 := BitVec.ofNat 8 ip.bits

/-- `sfip_is_set`. -/
def sfipIsSet (ip : Sfip) : Bool :=
  ip.ip32 0 ≠ 0 ∨
    ip.family = .inet6 ∧ (ip.ip32 1 ≠ 0 ∨ ip.ip32 2 ≠ 0 ∨ ip.ip32 3 ≠ 0 ∨ ip.bits ≠ 128) ∨
    ip.family = .inet ∧ ip.bits ≠ 32

/-- `_ip4_cmp`. -/
def ip4Cmp (ip1 ip2 : BitVec 32) : SfipRet :=
  if ip1 < ip2 then .lesser else if ip1 > ip2 then .greater else .equal

/-- `_ip6_cmp`. -/
def ip6Cmp (ip1 ip2 : Sfip) : SfipRet :=
  if ip4Cmp (ip1.ip32 0) (ip2.ip32 0) ≠ .equal then ip4Cmp (ip1.ip32 0) (ip2.ip32 0)
  else if ip4Cmp (ip1.ip32 1) (ip2.ip32 1) ≠ .equal then ip4Cmp (ip1.ip32 1) (ip2.ip32 1)
  else if ip4Cmp (ip1.ip32 2) (ip2.ip32 2) ≠ .equal then ip4Cmp (ip1.ip32 2) (ip2.ip32 2)
  else ip4Cmp (ip1.ip32 3) (ip2.ip32 3)

/-- `sfip_compare`. -/
def sfipCompare (ip1 ip2 : Sfip) : SfipRet :=
  if ¬ sfipIsSet ip1 ∨ ¬ sfipIsSet ip2 then .equal
  else
    match ip1.family, ip2.family with
    | .inet, .inet => ip4Cmp (ip1.ip32 0) (ip2.ip32 0)
    | .inet6, .inet6 => ip6Cmp ip1 ip2
    | _, _ => .failure

/-- `sfip_fast_cont4`. -/
def sfipFastCont4 (ip1 ip2 : Sfip) : Bool :=
  let shift := 32 - (sfipBits ip1).setWidth 32
  ip1.ip32 0 = (ip2.ip32 0 >>> shift) <<< shift

/-- `sfip_fast_cont6`. -/
def sfipFastCont6 (ip1 ip2 : Sfip) : Bool :=
  let words := (sfipBits ip1).toNat / 32
  let bits := 32 - (sfipBits ip1).toNat % 32
  if (List.range words).any fun i => ip1.ip32 i ≠ ip2.ip32 i then false
  else if bits = 32 then true
  else ip1.ip32 words = (ip2.ip32 words >>> bits) <<< bits

/-! ### Networks from text -/

/-- `isspace`. -/
def isspace (c : Char) : Bool := c = ' ' ∨ '\t' ≤ c ∧ c ≤ '\r'

/-- `isdigit`. -/
def isdigit (c : Char) : Bool := '0' ≤ c ∧ c ≤ '9'

/-- `isxdigit`. -/
def isxdigit (c : Char) : Bool := isdigit c ∨ 'a' ≤ c ∧ c ≤ 'f' ∨ 'A' ≤ c ∧ c ≤ 'F'

/-- `sfip_str_to_fam`; `none` is `AF_UNSPEC`. -/
def sfipStrToFam (str : List Char) : Option Family :=
  if ((str.dropWhile (· ≠ ':')).drop 1).contains ':' then some .inet6
  else if str.contains '.' then some .inet
  else none

/-- `sfip_cidr_mask`. -/
def sfipCidrMask (ip : Sfip) (val : ℤ) : Option Sfip :=
  let index := (val + 31) / 32 - 1
  if val < 0 ∨ ip.family = .inet6 ∧ val > 128 ∨ ip.family = .inet ∧ val > 32 then none
  else
    let mask := 1#32 <<< (32 - (val - index * 32)).toNat - 1#32
    -- with `val` 0 the word before the address is masked with 0
    some { ip with
      ip32 := fun i =>
        if (i : ℤ) < index then ip.ip32 i else if (i : ℤ) = index then ip.ip32 i &&& ~~~mask else 0 }

/-- `_count_bits`. -/
def countBits (val : BitVec 32) : ℕ := (List.range 32).countP val.getLsbD

/-- A byte of an address. -/
def byte (ip32 : ℕ → BitVec 32) (i : ℕ) : BitVec 8 :=
  (ip32 (i / 4) >>> (24 - 8 * (i % 4))).setWidth 8

variable (inetPton : Family → List Char → Option (ℕ → BitVec 32))

/-- `_netmask_str_to_bit_count`. -/
def netmaskStrToBitCount (mask : List Char) : Option Family → ℤ
  | none => -1
  | some family =>
    match inetPton family mask with
    | none => -1
    | some buf =>
      let nBytes := match family with | .inet6 => 16 | .inet => 4
      let bits := ((List.range (nBytes / 4)).map fun i => countBits (buf i)).sum
      let ones := fun i => 0xff00#16 >>> min 8 (bits - 8 * i)
      if (List.range nBytes).all fun i => byte buf i = (ones i).setWidth 8 then bits else -1

/-- `atoi` on text without a sign. -/
def atoi (str : List Char) : ℤ :=
  (str.takeWhile isdigit).foldl (fun (n : ℤ) c => n * 10 + (c.toNat - '0'.toNat : ℕ)) 0

/-- The text up to a character, without the blanks at its end. -/
def upTo (c : Char) (str : List Char) : List Char :=
  ((str.takeWhile (· ≠ c)).reverse.dropWhile isspace).reverse

/-- The text behind a character, without the blanks at its start. -/
def behind (c : Char) (str : List Char) : List Char :=
  ((str.dropWhile (· ≠ c)).drop 1).dropWhile isspace

/-- The number of bits of a family. -/
def maxBits : Family → ℕ
  | .inet => 32
  | .inet6 => 128

/-- The address and the number of bits in the text of a network. -/
def sfipMask (family : Family) (ip : List Char) : Except SfipRet (List Char × ℤ) :=
  let leading := fun mask : List Char =>
    match family with
    | .inet => isdigit (mask.headD '\x00')
    | .inet6 => isxdigit (mask.headD '\x00')
  let netmask := fun mask => netmaskStrToBitCount inetPton mask (sfipStrToFam mask)
  if ip.contains '/' then
    let mask := behind '/' ip
    if leading mask = false then .error .cidrErr
    else if mask.contains '.' || mask.contains ':' then .ok (upTo '/' ip, netmask mask)
    else .ok (upTo '/' ip, atoi mask)
  else
    let sep := if family = .inet ∧ ip.contains ':' then ':' else ' '
    if ip.contains sep then
      let mask := behind sep ip
      if leading mask || decide (family = .inet6) && mask.head? == some ':' then
        .ok (upTo sep ip, netmask mask)
      else .ok (upTo sep ip, maxBits family)
    else .ok (ip, maxBits family)

/-- `sfip_pton` into a fresh `sfip_t`, that is `sfip_alloc`. -/
def sfipPton (src : List Char) : Except SfipRet Sfip :=
  match sfipStrToFam src with
  -- whatever the mask, `inet_pton` knows no such family
  | none => .error .inetParseErr
  | some family =>
    match sfipMask inetPton family (src.dropWhile fun c => isspace c || c = '[') with
    | .error ret => .error ret
    | .ok (ip, bits) =>
      match inetPton family ip with
      | none => .error .inetParseErr
      | some ip32 =>
        let words := fun i => if family = .inet ∧ i ≠ 0 then 0 else ip32 i
        match sfipCidrMask { family := family, ip32 := words, bits := bits.toNat } bits with
        | none => .error .invalidMask
        | some dst => .ok dst

/-! ### Nodes and variables -/

/-- `sfip_node_t`; `negated` and `any` are the bits of `flags`, `addrNegated` that of `addr_flags`. -/
structure SfipNode where
  ip : Sfip
  negated : Bool
  any : Bool
  addrNegated : Bool

/-- The fields of an `sfip_var_t` in use. -/
structure SfipVar where
  head : List SfipNode
  negHead : List SfipNode
  id : BitVec 32
  name : List Char

/-- `_alloc_var`. -/
def allocVar : SfipVar := ⟨[], [], 0, []⟩

/-- `strncasecmp(str, "any", 3)` is 0. -/
def startsWithAny (str : List Char) : Bool := (str.take 3).map Char.toLower = ['a', 'n', 'y']

/-- `sfipnode_alloc`. -/
def sfipnodeAlloc (str : List Char) : Except SfipRet SfipNode :=
  let negated := str.head? = some '!'
  let str := if negated then str.drop 1 else str
  if startsWithAny str then
    if negated then .error .notAny
    else
      match sfipPton inetPton "0.0.0.0".toList with
      | .error _ => .error .allocErr
      | .ok ip => .ok ⟨ip, false, true, false⟩
  else
    match sfipPton inetPton str with
    | .error _ => .error .inetParseErr
    | .ok ip =>
      if ¬ sfipIsSet ip ∧ negated then .error .notAny else .ok ⟨ip, negated, false, false⟩

/-- `sfvar_add`. -/
def sfvarAdd (dst src : SfipVar) : SfipVar :=
  { dst with head := src.head ++ dst.head, negHead := src.negHead ++ dst.negHead }

/-- The insertion sort of `sfvar_add_node`, behind a node that stays. -/
def insertNode (node : SfipNode) : List SfipNode → List SfipNode
  | [] => [node]
  | p :: rest =>
    if sfipCompare node.ip p.ip = .lesser then node :: p :: rest else p :: insertNode node rest

/-- One list of `sfvar_add_node`. -/
def addNode (node : SfipNode) : List SfipNode → List SfipNode
  | [] => [node]
  | head :: rest =>
    if node.any ∨ sfipCompare node.ip head.ip = .lesser then node :: head :: rest
    else head :: insertNode node rest

/-- `sfvar_add_node`. -/
def sfvarAddNode (var : SfipVar) (node : SfipNode) (negated : Bool) : SfipVar :=
  if negated then { var with negHead := addNode node var.negHead }
  else { var with head := addNode node var.head }

/-- `_negate_node`. -/
def negateNode (node : SfipNode) : SfipNode :=
  { node with addrNegated := !node.addrNegated, negated := !node.addrNegated }

/-- `_negate_lists`. -/
def negateLists (var : SfipVar) : SfipVar :=
  { var with head := var.negHead.map negateNode, negHead := var.head.map negateNode }

/-! ### Lists from text -/

/-- `sfvt_lookup_var`. -/
def sfvtLookupVar (table : List SfipVar) (name : List Char) : Option SfipVar :=
  let name := if name.head? = some '$' then name.drop 1 else name
  let name := name.takeWhile fun c => !(isspace c || c = '\\' || c = ']')
  if name = [] then none else table.find? fun p => p.name = name

/-- `_find_end_token`: the text in front of the token; none if the brackets are not closed. -/
def findEndToken : ℤ → List Char → Option (List Char)
  | _, [] => none
  | stack, c :: str =>
    let stack := if c = '[' then stack + 1 else if c = ']' then stack - 1 else stack
    if stack = 0 then some [] else (findEndToken stack str).map (c :: ·)

/-- The token that starts at `str`, which is not empty. -/
def token (str : List Char) : List Char :=
  str.take 1 ++ (str.drop 1).takeWhile fun c => !(isspace c || c = ']' || c = ',')

/-- The case of a variable in `sfvar_parse_iplist`. -/
def parseVariable (table : List SfipVar) (var : SfipVar) (tok : List Char) (negation : Bool) :
    SfipRet × SfipVar :=
  match sfvtLookupVar table tok with
  | none => (.lookupFailure, var)
  | some copyVar =>
    if negation then
      if copyVar.head.head?.any fun node => node.any || !sfipIsSet node.ip then (.notAny, var)
      else (.success, sfvarAdd var (negateLists copyVar))
    else (.success, sfvarAdd var copyVar)

/-- The case of an address in `sfvar_parse_iplist`. -/
def parseAddress (var : SfipVar) (tok : List Char) (negation : Bool) : SfipRet × SfipVar :=
  if negation ∧ tok.map Char.toLower = ['a', 'n', 'y'] then (.notAny, var)
  else
    match sfipnodeAlloc inetPton tok with
    | .error ret => (ret, var)
    | .ok node =>
      let node := if negation then negateNode node else node
      if ¬ sfipIsSet node.ip ∧ node.negated then (.notAny, var)
      else (.success, sfvarAddNode var node negation)

/-- How `sfvar_parse_iplist` goes on behind the end of a token that has been read. -/
def goOn (loop : SfipVar → List Char → Option (SfipRet × SfipVar)) (behind : List Char) :
    Option (SfipRet × SfipVar) → Option (SfipRet × SfipVar)
  | some (.success, var) => if behind = [] then some (.success, var) else loop var (behind.drop 1)
  | res => res

/-- The loop of `sfvar_parse_iplist`; `none` when it reads behind the end of the text. -/
def parseLoop (table : List SfipVar) :
    ℕ → SfipVar → List Char → Bool → Option (SfipRet × SfipVar)
  | 0, var, _, _ => some (.success, var)
  | fuel + 1, var, str, negation =>
    match str with
    | [] => some (.success, var)
    | c :: rest =>
      if isspace c || c = ',' then parseLoop table fuel var rest negation
      else
        let negIp := negation ^^ ((c :: rest).takeWhile (· = '!')).length % 2 = 1
        let str := (c :: rest).dropWhile (· = '!')
        let next := goOn fun var str => parseLoop table fuel var str negation
        match str with
        | [] => none
        | '[' :: list =>
          match findEndToken 1 list with
          | none => some (.unmatchedBracket, var)
          | some listTok =>
            next (list.drop listTok.length) (parseLoop table fuel var listTok negIp)
        | '$' :: _ =>
          next (str.drop (token str).length) (some (parseVariable table var (token str) negIp))
        | ']' :: rest =>
          if rest = [] then some (.success, var) else some (.unmatchedBracket, var)
        | _ =>
          next (str.drop (token str).length) (some (parseAddress inetPton var (token str) negIp))

/-- `sfvar_parse_iplist`; every round and every list inside takes a character away. -/
def sfvarParseIplist (table : List SfipVar) (var : SfipVar) (str : List Char) (negation : Bool) :
    Option (SfipRet × SfipVar) :=
  parseLoop inetPton table (str.length + 1) var str negation

/-! ### Comparing -/

section

variable (cont : Sfip → Bool)

/-- The loop over both lists: `match`, and what is left of `pos_idx` and `neg_idx`. -/
def ipInLoop : Bool → List SfipNode → List SfipNode → Bool
  | _, [], _ => false
  | true, _ :: _, [] => true
  | true, pos :: posRest, neg :: negRest =>
    if cont neg.ip then false else ipInLoop true (pos :: posRest) negRest
  | false, pos :: posRest, [] =>
    if ¬ sfipIsSet pos.ip ∨ cont pos.ip then ipInLoop true (pos :: posRest) []
    else ipInLoop false posRest []
  | false, pos :: posRest, neg :: negRest =>
    if cont neg.ip then false
    else if ¬ sfipIsSet pos.ip ∨ cont pos.ip then ipInLoop true (pos :: posRest) negRest
    else ipInLoop false posRest negRest
  termination_by isMatch pos neg => (pos.length + neg.length, if isMatch then 0 else 1)

/-- `_sfvar_ip_in4` and `_sfvar_ip_in6`, which differ in the test of a network. -/
def ipIn (var : SfipVar) : Bool :=
  if var.head = [] then var.negHead.all fun neg => !cont neg.ip
  else ipInLoop cont false var.head var.negHead

end

/-- `_sfvar_ip_in4`. -/
def sfvarIpIn4 (var : SfipVar) (ip : Sfip) : Bool :=
  ipIn (fun net => net.family = .inet ∧ sfipFastCont4 net ip) var

/-- `_sfvar_ip_in6`. -/
def sfvarIpIn6 (var : SfipVar) (ip : Sfip) : Bool :=
  ipIn (fun net => net.family = .inet6 ∧ sfipFastCont6 net ip) var

/-- `sfvar_ip_in`. -/
def sfvarIpIn (var : SfipVar) (ip : Sfip) : Bool :=
  if ip.family = .inet then sfvarIpIn4 var ip else sfvarIpIn6 var ip

end Snort.IpVar
