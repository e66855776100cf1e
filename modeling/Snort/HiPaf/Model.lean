import Mathlib.Tactic

/-!
# Finding the ends of HTTP messages: `hi_paf.c`

`hi_paf` scans the in-order payload of one direction of a connection byte by byte, in two steps:

* `hiScanMsg` tells lines and the end of headers apart, unfolds headers and leaves out `\r`;
* `hiScanFsm` runs the table `hiFsm` over what is left, and `hiExec` its actions.

`hi_cap` is 0 (the only call of `hi_paf_init` sets it so), the events and the counters that nothing
reads are left out.
-/

namespace Snort.HiPaf

/-- A byte of the payload. -/
abbrev Byte := BitVec 8

/-- The byte of a character. -/
def chr (c : Char) : Byte := BitVec.ofNat 8 c.toNat

/-- `EOL`. -/
def eol : Byte := chr '\n'

/-- `ANY`. -/
def any : Byte := 0

/-- `LWS`. -/
def lws : Byte := chr ' '

/-- `PAF_Status`. -/
inductive PafStatus
  | abort
  | start
  | search
  | flush
  | skip
  deriving DecidableEq

/-! ### State -/

/-- The `HIF_` flags. -/
structure HiFlags where
  req : Bool := false
  rsp : Bool := false
  len : Bool := false
  chk : Bool := false
  nob : Bool := false
  nof : Bool := false
  v09 : Bool := false
  v10 : Bool := false
  v11 : Bool := false
  err : Bool := false
  pst : Bool := false
  eol : Bool := false
  deriving DecidableEq

/-- `HiState`. -/
structure HiState where
  len : BitVec 32
  flags : HiFlags
  msg : ℕ
  fsm : ℕ
  deriving DecidableEq

/-- `Action`. -/
inductive Action
  | nop
  | nob
  | pst
  | v09
  | v10
  | v11
  | req
  | rsp
  | shi
  | shx
  | lnb
  | lnc
  | ln0
  | chk
  | ck0
  deriving DecidableEq

/-- `HiFsm`. -/
structure HiFsm where
  state : ℕ
  event : Byte
  matched : ℕ
  other : ℕ
  action : Action
  deriving DecidableEq

/-! ### The table -/

/-- `Z0`, the start of a response. -/
def z0 : ℕ := 0

/-- `Z1`, the start of a request. -/
def z1 : ℕ := z0 + 18

/-- `Z2`, the start of a header line. -/
def z2 : ℕ := z1 + 18

/-- `Z3`. -/
def z3 : ℕ := z2 + 17

/-- `Z4`. -/
def z4 : ℕ := z3 + 20

/-- `Z5`, in the digits of a content length. -/
def z5 : ℕ := z4 + 7

/-- `Z6`, in the digits of a chunk length. -/
def z6 : ℕ := z5 + 2

/-- `Z7`, behind the data of a chunk. -/
def z7 : ℕ := z6 + 2

/-- `Z8`. -/
def z8 : ℕ := z7 + 2

/-- `Z9`, to the end of the line. -/
def z9 : ℕ := z8 + 2

/-- `hi_fsm`. -/
def hiFsm : List HiFsm := [
    -- http version starts response
    ⟨z0 + 0, chr 'H', z0 + 1, z8, .nop⟩,
    ⟨z0 + 1, chr 'T', z0 + 2, z9, .nop⟩,
    ⟨z0 + 2, chr 'T', z0 + 3, z9, .nop⟩,
    ⟨z0 + 3, chr 'P', z0 + 4, z9, .nop⟩,
    ⟨z0 + 4, chr '/', z0 + 5, z9, .nop⟩,
    ⟨z0 + 5, chr '1', z0 + 6, z9, .nop⟩,
    ⟨z0 + 6, chr '.', z0 + 7, z9, .nop⟩,
    ⟨z0 + 7, chr '0', z0 + 9, z0 + 8, .v10⟩,
    ⟨z0 + 8, chr '1', z0 + 9, z9, .v11⟩,
    ⟨z0 + 9, lws, z0 + 10, z9, .nop⟩,
    ⟨z0 + 10, lws, z0 + 10, z0 + 11, .nop⟩,
    ⟨z0 + 11, chr '1', z0 + 16, z0 + 12, .nob⟩,
    ⟨z0 + 12, chr '2', z0 + 14, z0 + 13, .nop⟩,
    ⟨z0 + 13, chr '3', z0 + 14, z0 + 16, .nop⟩,
    ⟨z0 + 14, chr '0', z0 + 15, z0 + 16, .nop⟩,
    ⟨z0 + 15, chr '4', z0 + 17, z0 + 16, .nob⟩,
    ⟨z0 + 16, any, z0 + 17, z0 + 17, .nop⟩,
    ⟨z0 + 17, lws, z9 + 0, z0 + 16, .rsp⟩,
    -- head method signals no body in response
    -- post method must have content-length or chunks
    ⟨z1 + 0, chr 'H', z1 + 1, z1 + 5, .nop⟩,
    ⟨z1 + 1, chr 'E', z1 + 2, z1 + 10, .nop⟩,
    ⟨z1 + 2, chr 'A', z1 + 3, z1 + 10, .nop⟩,
    ⟨z1 + 3, chr 'D', z1 + 4, z1 + 10, .nop⟩,
    ⟨z1 + 4, lws, z1 + 12, z1 + 10, .nob⟩,
    ⟨z1 + 5, chr 'P', z1 + 6, z1 + 10, .nop⟩,
    ⟨z1 + 6, chr 'O', z1 + 7, z1 + 10, .nop⟩,
    ⟨z1 + 7, chr 'S', z1 + 8, z1 + 10, .nop⟩,
    ⟨z1 + 8, chr 'T', z1 + 9, z1 + 10, .nop⟩,
    ⟨z1 + 9, lws, z1 + 12, z1 + 10, .pst⟩,
    -- now tokens before eol to determine version
    -- 2 tokens is a 0.9 SimpleRequest (1 line header)
    -- 3 tokens is >= 1.0 (1 or more header lines)
    ⟨z1 + 10, lws, z1 + 12, z1 + 11, .nop⟩,
    ⟨z1 + 11, any, z1 + 10, z1 + 10, .nop⟩,
    ⟨z1 + 12, lws, z1 + 12, z1 + 13, .nop⟩,
    ⟨z1 + 13, eol, z9 + 0, z1 + 14, .v09⟩,
    ⟨z1 + 14, lws, z1 + 16, z1 + 15, .nop⟩,
    ⟨z1 + 15, any, z1 + 13, z1 + 13, .nop⟩,
    ⟨z1 + 16, lws, z1 + 16, z1 + 17, .nop⟩,
    ⟨z1 + 17, eol, z9 + 0, z9 + 0, .v09⟩,
    -- content-length can be anywhere after 1st header
    ⟨z2 + 0, chr 'C', z2 + 1, z3, .nop⟩,
    ⟨z2 + 1, chr 'O', z2 + 2, z9, .nop⟩,
    ⟨z2 + 2, chr 'N', z2 + 3, z9, .nop⟩,
    ⟨z2 + 3, chr 'T', z2 + 4, z9, .nop⟩,
    ⟨z2 + 4, chr 'E', z2 + 5, z9, .nop⟩,
    ⟨z2 + 5, chr 'N', z2 + 6, z9, .nop⟩,
    ⟨z2 + 6, chr 'T', z2 + 7, z9, .nop⟩,
    ⟨z2 + 7, chr '-', z2 + 8, z9, .nop⟩,
    ⟨z2 + 8, chr 'L', z2 + 9, z9, .nop⟩,
    ⟨z2 + 9, chr 'E', z2 + 10, z9, .nop⟩,
    ⟨z2 + 10, chr 'N', z2 + 11, z9, .nop⟩,
    ⟨z2 + 11, chr 'G', z2 + 12, z9, .nop⟩,
    ⟨z2 + 12, chr 'T', z2 + 13, z9, .nop⟩,
    ⟨z2 + 13, chr 'H', z2 + 14, z9, .nop⟩,
    ⟨z2 + 14, lws, z2 + 14, z2 + 15, .nop⟩,
    ⟨z2 + 15, chr ':', z2 + 16, z9, .nop⟩,
    ⟨z2 + 16, lws, z2 + 16, z5, .ln0⟩,
    -- transfer-encoding can be anywhere after 1st header
    ⟨z3 + 0, chr 'T', z3 + 1, z9, .nop⟩,
    ⟨z3 + 1, chr 'R', z3 + 2, z9, .nop⟩,
    ⟨z3 + 2, chr 'A', z3 + 3, z9, .nop⟩,
    ⟨z3 + 3, chr 'N', z3 + 4, z9, .nop⟩,
    ⟨z3 + 4, chr 'S', z3 + 5, z9, .nop⟩,
    ⟨z3 + 5, chr 'F', z3 + 6, z9, .nop⟩,
    ⟨z3 + 6, chr 'E', z3 + 7, z9, .nop⟩,
    ⟨z3 + 7, chr 'R', z3 + 8, z9, .nop⟩,
    ⟨z3 + 8, chr '-', z3 + 9, z9, .nop⟩,
    ⟨z3 + 9, chr 'E', z3 + 10, z9, .nop⟩,
    ⟨z3 + 10, chr 'N', z3 + 11, z9, .nop⟩,
    ⟨z3 + 11, chr 'C', z3 + 12, z9, .nop⟩,
    ⟨z3 + 12, chr 'O', z3 + 13, z9, .nop⟩,
    ⟨z3 + 13, chr 'D', z3 + 14, z9, .nop⟩,
    ⟨z3 + 14, chr 'I', z3 + 15, z9, .nop⟩,
    ⟨z3 + 15, chr 'N', z3 + 16, z9, .nop⟩,
    ⟨z3 + 16, chr 'G', z3 + 17, z9, .nop⟩,
    ⟨z3 + 17, lws, z3 + 17, z3 + 18, .nop⟩,
    ⟨z3 + 18, chr ':', z3 + 19, z9, .nop⟩,
    ⟨z3 + 19, lws, z3 + 19, z4, .nop⟩,
    -- only recognized encoding
    ⟨z4 + 0, chr 'C', z4 + 1, z9, .nop⟩,
    ⟨z4 + 1, chr 'H', z4 + 2, z9, .nop⟩,
    ⟨z4 + 2, chr 'U', z4 + 3, z9, .nop⟩,
    ⟨z4 + 3, chr 'N', z4 + 4, z9, .nop⟩,
    ⟨z4 + 4, chr 'K', z4 + 5, z9, .nop⟩,
    ⟨z4 + 5, chr 'E', z4 + 6, z9, .nop⟩,
    ⟨z4 + 6, chr 'D', z9, z9, .chk⟩,
    -- extract decimal content length
    ⟨z5 + 0, eol, z2, z5 + 1, .lnb⟩,
    ⟨z5 + 1, any, z5, z5, .shi⟩,
    -- extract hex chunk length
    ⟨z6 + 0, eol, z7, z6 + 1, .lnc⟩,
    ⟨z6 + 1, any, z6, z6, .shx⟩,
    -- skip to end of line after chunk data
    ⟨z7 + 0, eol, z6, z7 + 1, .ln0⟩,
    ⟨z7 + 1, any, z7, z7, .nop⟩,
    -- ignore empty lines before start of message
    ⟨z8 + 0, lws, z0, z8 + 1, .nop⟩,
    ⟨z8 + 1, eol, z0, z9 + 1, .nop⟩,
    -- skip to end of line
    ⟨z9 + 0, eol, z2, z9 + 1, .nop⟩,
    ⟨z9 + 1, any, z9, z9, .nop⟩]

/-- The states match the indices of the table, as `hi_check` asserts. -/
example : hiFsm.map HiFsm.state = List.range hiFsm.length := by decide

/-! ### Actions -/

/-- `isdigit`. -/
def isdigit (c : Byte) : Bool := chr '0' ≤ c ∧ c ≤ chr '9'

/-- `isupper`. -/
def isupper (c : Byte) : Bool := chr 'A' ≤ c ∧ c ≤ chr 'Z'

/-- `isxdigit`. -/
def isxdigit (c : Byte) : Bool :=
  isdigit c ∨ chr 'A' ≤ c ∧ c ≤ chr 'F' ∨ chr 'a' ≤ c ∧ c ≤ chr 'f'

/-- `toupper`. -/
def toupper (c : Byte) : Byte :=
  if chr 'a' ≤ c ∧ c ≤ chr 'z' then c - (chr 'a' - chr 'A') else c

/-- `dton`. -/
def dton (c : Byte) : BitVec 32 := (c - chr '0').setWidth 32

/-- `xton`. -/
def xton (c : Byte) : BitVec 32 :=
  if isdigit c then (c - chr '0').setWidth 32
  else if isupper c then (c - chr 'A' + 10).setWidth 32
  else (c - chr 'a' + 10).setWidth 32

/-- `hi_exec`. -/
def hiExec (s : HiState) (a : Action) (c : Byte) : PafStatus × HiState :=
  match a with
  | .nop => (.search, s)
  | .v09 => (.search, { s with flags := { s.flags with v09 := true, err := true } })
  | .v10 => (.search, { s with flags := { s.flags with v10 := true } })
  | .v11 => (.search, { s with flags := { s.flags with v11 := true } })
  | .nob => (.search, { s with flags := { s.flags with nob := true } })
  | .pst => (.search, { s with flags := { s.flags with pst := true } })
  | .req => (.search, { s with flags := { s.flags with req := true } })
  | .rsp => (.search, { s with flags := { s.flags with rsp := true } })
  | .shi =>
    if s.flags.err then (.search, s)
    else if isdigit c ∧ s.len < 429496728 then (.search, { s with len := 10 * s.len + dton c })
    else (.search, { s with flags := { s.flags with err := true } })
  | .shx =>
    if s.flags.err then (.search, s)
    else if isxdigit c ∧ s.len &&& 0xF8000000 = 0 then
      (.search, { s with len := (s.len <<< 4) + xton c })
    else (.flush, { s with flags := { s.flags with err := true } })
  | .lnb => (.search, { s with flags := { s.flags with len := true } })
  | .lnc =>
    if s.len ≠ 0 then (.skip, { s with flags := { s.flags with len := true } })
    else (.search, { s with flags := { s.flags with len := true, nof := false }, msg := 3 })
  | .ln0 => (.search, { s with len := 0 })
  | .chk => (.search, { s with flags := { s.flags with chk := true } })
  | .ck0 =>
    (.search, { s with flags := { s.flags with nof := true, chk := false }, fsm := z6, len := 0 })

/-! ### Control -/

/-- The row of the table at an index. -/
def row (i : ℕ) : HiFsm := hiFsm.getD i ⟨i, any, i, i, .nop⟩

/-- The loop of `hi_scan_fsm`: the first row from `i` on that matches. -/
def findRow (c : Byte) : ℕ → ℕ → HiFsm
  | 0, i => row i
  | fuel + 1, i =>
    if (row i).event = any ∨ (row i).event = c then row i else findRow c fuel (row i).other

/-- What `hi_scan_fsm` makes of a byte before it matches it. -/
def fold (c : Byte) : Byte := if c = chr '\t' then lws else toupper c

/-- `hi_scan_fsm`; no row is further than four others from one that matches anything. -/
def hiScanFsm (s : HiState) (c : Byte) : PafStatus × HiState :=
  let c := fold c
  let m := findRow c 4 s.fsm
  hiExec { s with fsm := m.matched } m.action c

/-- `hi_eoh`. -/
def hiEoh (s : HiState) : PafStatus × HiState :=
  let s :=
    if s.flags.pst ∧ ¬ (s.flags.chk ∨ s.flags.len) then
      { s with flags := { s.flags with err := true } }
    else s
  if s.flags.err ∨ s.flags.nob ∧ s.flags.rsp then (.flush, (hiExec s .ln0 0).2)
  else if s.flags.chk then (.search, (hiExec s .ck0 0).2)
  else if s.flags.req ∨ s.flags.len then (.flush, s)
  else if s.flags.v11 ∧ s.flags.rsp then (.flush, (hiExec s .ln0 0).2)
  else (.abort, s)

/-- A line feed in `hi_scan_msg` while `msg` is 0. -/
def scanLineFeed (s : HiState) : PafStatus × HiState :=
  if s.flags.eol = false then
    let (paf, s) := hiScanFsm { s with flags := { s.flags with eol := true } } eol
    if s.flags.v09 then hiEoh s else (paf, { s with msg := 1 })
  else if s.flags.nof then hiScanFsm s eol
  else (.search, { s with msg := 1 })

/-- The byte behind a line feed in `hi_scan_msg`, while `msg` is 1. -/
def scanBehindLine (s : HiState) (c : Byte) : PafStatus × HiState :=
  let (paf, s) :=
    if c = eol then hiEoh (hiScanFsm s eol).2
    else if c = chr ' ' ∨ c = chr '\t' then hiScanFsm s lws
    else
      let (paf, s) := hiScanFsm s eol
      if paf = .search then hiScanFsm s c else (paf, s)
  (paf, { s with msg := 0 })

/-- The switch of `hi_scan_msg`. -/
def scanSwitch (s : HiState) (c : Byte) : PafStatus × HiState :=
  match s.msg with
  | 0 => if c = eol then scanLineFeed s else hiScanFsm s c
  | 1 => scanBehindLine s c
  | 3 => if c = eol then hiEoh s else (.search, { s with msg := 4 })
  | 4 => if c = eol then (.search, { s with msg := 3 }) else (.search, s)
  | _ => (.search, s)

/-- `hi_scan_msg`; the last component is `*fp`. -/
def hiScanMsg (s : HiState) (c : Byte) (fp : BitVec 32) : PafStatus × HiState × BitVec 32 :=
  if c = chr '\r' then (.search, s, 0)
  else
    let (paf, s) := scanSwitch s c
    (paf, s, if paf ≠ .search then s.len else fp)

/-- `hi_reset` on the flags of a packet; `fromClient` is `PKT_FROM_CLIENT`. -/
def hiReset (fromClient : Bool) : HiState :=
  if fromClient then ⟨0, { req := true }, 0, z1⟩ else ⟨0, { rsp := true }, 0, z0⟩

/-- `hi_update_peer`: the state of the peer, which need not exist before. -/
def hiUpdatePeer (s : HiState) (peer : Option HiState) : Option HiState :=
  if s.flags.nob ∧ s.flags.req then
    let p := peer.getD (hiReset false)
    some { p with flags := { p.flags with nob := true } }
  else peer

/-- What `hi_paf` returns and leaves. -/
structure PafResult where
  paf : PafStatus
  fp : BitVec 32
  state : HiState
  peer : Option HiState
  deriving DecidableEq

/-- The end of a scan in `hi_paf` that selects a point behind `n` of `len` bytes. -/
def selectPoint (fromClient : Bool) (len n : ℕ) (r : PafStatus × HiState × BitVec 32)
    (peer : Option HiState) : PafResult :=
  let (paf, s, fp) := r
  if s.flags.err then ⟨paf, BitVec.ofNat 32 len, s, peer⟩
  else
    ⟨paf, fp + BitVec.ofNat 32 n, if paf ≠ .skip then hiReset fromClient else s,
      hiUpdatePeer s peer⟩

/-- The jump to the next line feed in `hi_paf`. -/
def jump (s : HiState) (data : List Byte) : List Byte :=
  if s.msg = 0 ∧ s.fsm = z9 then data.dropWhile (· ≠ eol) else data

theorem length_jump_le (s : HiState) (data : List Byte) : (jump s data).length ≤ data.length := by
  unfold jump
  split_ifs
  · exact (List.dropWhile_suffix _).length_le
  · exact le_rfl

/-- The loop of `hi_paf` over what is left of `len` bytes. -/
def hiPafLoop (fromClient : Bool) (len : ℕ) (peer : Option HiState) (s : HiState) (fp : BitVec 32)
    (data : List Byte) : PafResult :=
  match h : jump s data with
  | [] => ⟨.search, fp, s, peer⟩
  | c :: rest =>
    let r := hiScanMsg s c fp
    if r.1 ≠ .search then selectPoint fromClient len (len - rest.length) r peer
    else
      have : rest.length < data.length := by
        have hle := length_jump_le s data
        rw [h] at hle
        exact hle
      hiPafLoop fromClient len peer r.2.1 r.2.2 rest
  termination_by data.length

/-- `hi_paf` on the state of a direction, if there is one, and that of its peer. -/
def hiPaf (fromClient : Bool) (hip peer : Option HiState) (data : List Byte) : PafResult :=
  let s := hip.getD (hiReset fromClient)
  if s.flags.err then ⟨.abort, 0, s, peer⟩
  else hiPafLoop fromClient data.length peer s 0 data

end Snort.HiPaf
