import Snort.Lib.Buffer

/-!
# The keyword trie of the low-memory pattern matcher

* `KTriePattern`, `KTrieNode`, `KTrieStruct`: the patterns and the trie, whose nodes have a first child
  and a next sibling;
* `ktrieAddPattern`, `ktrieCompile`: patterns are listed, and then inserted into the trie;
* `ktrieSearch`: the search, with or without bad character shifts, or with a queue.

The static copy `Tnocase` of the text in lower case is a memory that the searches share.  Pointers into
the text are offsets.  A callback gets the pattern that a match state stands for and the index.
-/

namespace Snort.KTrie

open Buffer

/-- The table of `tolower`. -/
def xlatcase (c : UInt8) : UInt8 := if 65 ≤ c ∧ c ≤ 90 then c + 32 else c

/-- `KTRIEPATTERN`: `addr` is its address. -/
structure KTriePattern (I : Type*) where
  addr : ℕ
  P : List UInt8
  Pcase : List UInt8
  nocase : ℤ
  negative : ℤ
  id : I
  lowered : P = Pcase.map xlatcase
  nonempty : P ≠ []

/-- `KTRIENODE`; `pkeyword` is the list along `mnext`. -/
inductive KTrieNode (I : Type*)
  | null
  | node (edge : UInt8) (pkeyword : List (KTriePattern I)) (child sibling : KTrieNode I)

/-- `KTRIEMETHOD_STD` and `KTRIEMETHOD_QUEUE`. -/
inductive KTrieMethod
  | std | queue
  deriving DecidableEq

/-- `KTRIE_STRUCT`; `q` is the part of the queue that is in use. -/
structure KTrieStruct (I : Type*) where
  patrn : List (KTriePattern I)
  root : UInt8 → KTrieNode I
  npats : ℕ
  method : KTrieMethod
  bcSize : ℕ
  bcShift : UInt8 → ℕ
  q : List (KTriePattern I)

variable {I : Type*} {σ : Type*}

def KTriePattern.n (p : KTriePattern I) : ℕ := p.P.length

def ktrieNew (method : KTrieMethod) : KTrieStruct I :=
  ⟨[], fun _ => .null, 0, method, 0, fun _ => 0, []⟩

/-! ### Building the trie -/

def ktrieNewPattern (addr : ℕ) (P : List UInt8) (nocase negative : ℤ) (id : I) :
    Option (KTriePattern I) :=
  if h : P.length < 1 then none
  else some ⟨addr, P.map xlatcase, P, nocase, negative, id, rfl, by
    intro hnil
    rw [List.map_eq_nil_iff.1 hnil] at h
    exact h Nat.zero_lt_one⟩

def ktrieAddPattern (ts : KTrieStruct I) (P : List UInt8) (nocase negative : ℤ) (id : I) :
    KTrieStruct I × ℤ :=
  match ktrieNewPattern ts.npats P nocase negative id with
  | none => (ts, -1)
  | some pnew => ({ ts with patrn := pnew :: ts.patrn, npats := ts.npats + 1 }, 0)

/-- The keyword `px` finished as child nodes. -/
def finishKeyword (px : KTriePattern I) : List UInt8 → KTrieNode I
  | [] => .null
  | b :: P =>
    if P = [] then .node b [px] .null .null
    else .node b [] (finishKeyword px P) .null

/-- The walk of `KTrieInsert` from a node on; the trie is expanded where it cannot continue. -/
def insertKeyword (px : KTriePattern I) : KTrieNode I → List UInt8 → KTrieNode I
  | .null, P => finishKeyword px P
  | .node edge pkeyword child sibling, [] => .node edge pkeyword child sibling
  | .node edge pkeyword child sibling, b :: P =>
    if edge = b then
      if P = [] then .node edge (px :: pkeyword) child sibling
      else .node edge pkeyword (insertKeyword px child P) sibling
    else .node edge pkeyword child (insertKeyword px sibling (b :: P))

def ktrieInsert (ts : KTrieStruct I) (px : KTriePattern I) : KTrieStruct I :=
  let c := px.P.getD 0 0
  { ts with root := Function.update ts.root c (insertKeyword px (ts.root c) px.P) }

/-- The smallest pattern size. -/
def minPatternSize (patrn : List (KTriePattern I)) : ℕ :=
  patrn.foldl (fun bcSize p => if p.n < bcSize then p.n else bcSize) 32000

/-- One step of the loop over the first characters of a pattern. -/
def lowerShift (bcSize : ℕ) (P : List UInt8) (bcShift : UInt8 → ℕ) (k : ℕ) : UInt8 → ℕ :=
  let shift := bcSize - 1 - k
  let cindex := P.getD k 0
  if shift < bcShift cindex then Function.update bcShift cindex shift else bcShift

def buildBadCharacterShifts (kt : KTrieStruct I) : KTrieStruct I :=
  let bcSize := minPatternSize kt.patrn
  { kt with
    bcSize := bcSize
    bcShift := kt.patrn.foldl
      (fun bcShift p => (List.range bcSize).foldl (lowerShift bcSize p.P) bcShift) fun _ => bcSize }

def ktrieCompile (ts : KTrieStruct I) : KTrieStruct I :=
  buildBadCharacterShifts (ts.patrn.foldl ktrieInsert ts)

/-! ### Searching -/

/-- A match callback; a positive value stops. -/
abbrev Match (I σ : Type*) := KTriePattern I → ℤ → σ → ℤ × σ

/-- `ConvertCaseEx` of the text to `Tnocase`. -/
def convertCaseEx (d : ℕ → UInt8) (s : List UInt8) : ℕ → UInt8 := write d 0 (s.map xlatcase)

/-- The loop of `KTriePrefixMatch` at a node, with `n` characters at `T`. -/
def prefixMatchLoop (onMatch : Match I σ) (Tnocase : ℕ → UInt8) :
    KTrieNode I → (T n nfound : ℕ) → σ → ℕ × σ
  | .null, _, _, nfound, data => (nfound, data)
  | .node edge pkeyword child sibling, T, n, nfound, data =>
    if n = 0 then (nfound, data)
    else if edge = Tnocase T then
      match pkeyword with
      | [] => prefixMatchLoop onMatch Tnocase child (T + 1) (n - 1) nfound data
      | pk :: _ =>
        let r := onMatch pk ((T + 1 : ℕ) - (pk.n : ℤ)) data
        if 0 < r.1 then (nfound + 1, r.2)
        else prefixMatchLoop onMatch Tnocase child (T + 1) (n - 1) (nfound + 1) r.2
    else prefixMatchLoop onMatch Tnocase sibling T n nfound data

def ktriePrefixMatch (kt : KTrieStruct I) (onMatch : Match I σ) (Tnocase : ℕ → UInt8) (T n : ℕ)
    (data : σ) : ℕ × σ :=
  prefixMatchLoop onMatch Tnocase (kt.root (Tnocase T)) T n 0 data

/-- The loop of `KTrieSearchNoBC`. -/
def searchNoBCLoop (ks : KTrieStruct I) (onMatch : Match I σ) (Tnocase : ℕ → UInt8) :
    (n T nfound : ℕ) → σ → ℕ × σ
  | 0, _, nfound, data => (nfound, data)
  | n + 1, T, nfound, data =>
    let r := ktriePrefixMatch ks onMatch Tnocase T (n + 1) data
    searchNoBCLoop ks onMatch Tnocase n (T + 1) (nfound + r.1) r.2

/-- The inner loop of `KTrieSearchBC`; `none` is the return behind `Tend`. -/
def skipLoop (ks : KTrieStruct I) (Tnocase : ℕ → UInt8) (Tend : ℤ) (T : ℕ) : Option ℕ :=
  let tshift := ks.bcShift (Tnocase (T + (ks.bcSize - 1)))
  if 0 < tshift then
    if Tend < (T + tshift : ℕ) then none else skipLoop ks Tnocase Tend (T + tshift)
  else some T
termination_by (Tend - T).toNat

theorem le_of_skipLoop {ks : KTrieStruct I} {Tnocase : ℕ → UInt8} {Tend : ℤ} {T T' : ℕ}
    (h : skipLoop ks Tnocase Tend T = some T') : T ≤ T' := by
  fun_induction skipLoop ks Tnocase Tend T with
  | case1 T tshift hpos hend => cases h
  | case2 T tshift hpos hend ih => exact (Nat.le_add_right T tshift).trans (ih h)
  | case3 T tshift hpos =>
    cases h
    exact le_refl _

/-- The outer loop of `KTrieSearchBC`.  `n` counts the rounds of this loop only. -/
def searchBCLoop (ks : KTrieStruct I) (onMatch : Match I σ) (Tnocase : ℕ → UInt8) (Tend : ℤ)
    (T n nfound : ℕ) (data : σ) : ℕ × σ :=
  if (T : ℤ) ≤ Tend then
    match h : skipLoop ks Tnocase Tend T with
    | none => (nfound, data)
    | some T' =>
      have := le_of_skipLoop h
      let r := ktriePrefixMatch ks onMatch Tnocase T' n data
      searchBCLoop ks onMatch Tnocase Tend (T' + 1) (n - 1) (nfound + r.1) r.2
  else (nfound, data)
termination_by (Tend + 1 - T).toNat

def ktrieSearchNoBC (ks : KTrieStruct I) (Tnocase : ℕ → UInt8) (Tx : List UInt8)
    (onMatch : Match I σ) (data : σ) : (ℕ → UInt8) × ℕ × σ :=
  let Tnocase := convertCaseEx Tnocase Tx
  (Tnocase, searchNoBCLoop ks onMatch Tnocase Tx.length 0 0 data)

def ktrieSearchBC (ks : KTrieStruct I) (Tnocase : ℕ → UInt8) (Tx : List UInt8)
    (onMatch : Match I σ) (data : σ) : (ℕ → UInt8) × ℕ × σ :=
  let Tnocase := convertCaseEx Tnocase Tx
  (Tnocase, searchBCLoop ks onMatch Tnocase (Tx.length - ks.bcSize) 0 Tx.length 0 data)

/-! ### Searching with a queue -/

/-- `SFK_MAX_INQ`. -/
def sfkMaxInq : ℕ := 32

/-- `_add_queue`: whether the queue is full then, and the queue. -/
def addQueue (q : List (KTriePattern I)) (p : KTriePattern I) : Bool × List (KTriePattern I) :=
  if q.any fun p' => p'.addr = p.addr then (false, q)
  else
    let q := if q.length < sfkMaxInq then q ++ [p] else q
    (q.length = sfkMaxInq, q)

/-- The loop of `_process_queue`; the queue is empty behind it. -/
def processQueue (onMatch : Match I σ) : List (KTriePattern I) → σ → Bool × σ
  | [], data => (false, data)
  | pk :: q, data =>
    let r := onMatch pk 0 data
    if 0 < r.1 then (true, r.2) else processQueue onMatch q r.2

/-- The queue takes a keyword that was found, and is processed when it is full. -/
def queueKeyword (onMatch : Match I σ) (pk : KTriePattern I) (s : List (KTriePattern I) × σ) :
    Bool × List (KTriePattern I) × σ :=
  let a := addQueue s.1 pk
  if a.1 then
    let r := processQueue onMatch a.2 s.2
    (r.1, [], r.2)
  else (false, a.2, s.2)

/-- The loop of `KTriePrefixMatchQ` at a node; the result says whether a callback stopped it. -/
def prefixMatchQLoop (onMatch : Match I σ) (text : ℕ → UInt8) :
    KTrieNode I → (T n : ℕ) → List (KTriePattern I) × σ → Bool × List (KTriePattern I) × σ
  | .null, _, _, s => (false, s)
  | .node edge pkeyword child sibling, T, n, s =>
    if n = 0 then (false, s)
    else if edge = xlatcase (text T) then
      match pkeyword with
      | [] => prefixMatchQLoop onMatch text child (T + 1) (n - 1) s
      | pk :: _ =>
        let r := queueKeyword onMatch pk s
        if r.1 then r else prefixMatchQLoop onMatch text child (T + 1) (n - 1) r.2
    else prefixMatchQLoop onMatch text sibling T n s

/-- The loop of `KTrieSearchQ`. -/
def searchQLoop (ks : KTrieStruct I) (onMatch : Match I σ) (text : ℕ → UInt8) :
    (n T : ℕ) → List (KTriePattern I) × σ → List (KTriePattern I) × σ
  | 0, _, s => ([], (processQueue onMatch s.1 s.2).2)
  | n + 1, T, s =>
    let r := prefixMatchQLoop onMatch text (ks.root (xlatcase (text T))) T (n + 1) s
    if r.1 then r.2 else searchQLoop ks onMatch text n (T + 1) r.2

def ktrieSearchQ (ks : KTrieStruct I) (T : List UInt8) (onMatch : Match I σ) (data : σ) :
    KTrieStruct I × σ :=
  let s := searchQLoop ks onMatch (fun i => T.getD i 0) T.length 0 ([], data)
  ({ ks with q := s.1 }, s.2)

/-- `KTrieSearch`: the trie, `Tnocase`, the number of matches and the data of the callback. -/
def ktrieSearch (ks : KTrieStruct I) (Tnocase : ℕ → UInt8) (T : List UInt8) (onMatch : Match I σ)
    (data : σ) : KTrieStruct I × (ℕ → UInt8) × ℕ × σ :=
  match ks.method with
  | .queue =>
    let r := ktrieSearchQ ks T onMatch data
    (r.1, Tnocase, 0, r.2)
  | .std =>
    if ks.bcSize < 3 then (ks, ktrieSearchNoBC ks Tnocase T onMatch data)
    else (ks, ktrieSearchBC ks Tnocase T onMatch data)

end Snort.KTrie
