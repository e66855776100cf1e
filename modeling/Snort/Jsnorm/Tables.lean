import Snort.Lib.FallThrough

/-!
# The tables of the Javascript normalization: `util_jsnorm.c`

The four automata: the script itself, the arguments of `unescape` and its kind, those of
`String.fromCharCode`, and strings that are joined by `+`.
-/

namespace Snort.Jsnorm

/-- The rows of the tables; `match` is `next`. -/
abbrev JSNorm := FallThrough.Row

/-- The event of a character. -/
def ev (c : Char) : ℕ := c.toNat

def isOct : ℕ := 0x1

def isDec : ℕ := 0x2

def isHex : ℕ := 0x4

/-- `ANY`. -/
def any : ℕ := 0

/-! ### Actions -/

inductive ActionPNorm
  | dquotes
  | nop
  | plus
  | space
  | squotes
  | withinQuotes
  deriving DecidableEq

inductive ActionSFCC
  | comma
  | dec
  | hex
  | inv
  | nop
  | oct
  | quit
  | space
  deriving DecidableEq

inductive ActionUnsc
  | backslash
  | conv
  | nop
  | paren
  | percent
  | quit
  | save
  | saveNop
  | space
  | ubackslash
  | upercent
  | unescape
  deriving DecidableEq

inductive ActionJSNorm
  | nop
  | quit
  | save
  | sfcc
  | space
  | unescape
  deriving DecidableEq

/-! ### `sfcc_norm` -/

abbrev S0 : ℕ := 0
abbrev S1 : ℕ := S0 + 3
abbrev S2 : ℕ := S1 + 1
abbrev S3 : ℕ := S2 + 1
abbrev S4 : ℕ := S3 + 1

/-- `sfcc_norm`. -/
def sfccNorm : List (JSNorm ActionSFCC) := [
  ⟨ev '(', S0 + 1, S0 + 1, .nop⟩,
  ⟨ev '0', S0 + 2, S1 + 0, .nop⟩,
  ⟨ev 'X', S3 + 0, S2 + 0, .nop⟩,
  -- decimal
  ⟨isDec, S1 + 0, S4 + 0, .dec⟩,
  -- octal
  ⟨isOct, S2 + 0, S1 + 0, .oct⟩,
  -- hex
  ⟨isHex, S3 + 0, S4 + 0, .hex⟩,
  ⟨ev ',', S0 + 1, S4 + 1, .comma⟩,
  ⟨ev ')', S0 + 1, S4 + 2, .quit⟩,
  ⟨any, S4 + 1, S0 + 1, .inv⟩]

/-! ### `unescape_norm` -/

abbrev U0 : ℕ := 0
abbrev U1 : ℕ := U0 + 1
abbrev U2 : ℕ := U1 + 8
abbrev U3 : ℕ := U2 + 9
abbrev U4 : ℕ := U3 + 8
abbrev U5 : ℕ := U4 + 19
abbrev U6 : ℕ := U5 + 18
abbrev U7 : ℕ := U6 + 1

/-- `unescape_norm`. -/
def unescapeNorm : List (JSNorm ActionUnsc) := [
  ⟨ev '(', U1 + 0, U1 + 0, .paren⟩,
  ⟨ev '%', U1 + 1, U2 + 0, .save⟩,
  ⟨isHex, U1 + 2, U1 + 3, .conv⟩,
  ⟨isHex, U0 + 0, U0 + 0, .percent⟩,
  ⟨ev 'U', U1 + 4, U0 + 0, .saveNop⟩,
  ⟨isHex, U1 + 5, U0 + 0, .conv⟩,
  ⟨isHex, U1 + 6, U0 + 0, .conv⟩,
  ⟨isHex, U1 + 7, U0 + 0, .conv⟩,
  ⟨isHex, U0 + 0, U0 + 0, .upercent⟩,
  ⟨ev '\\', U2 + 1, U3 + 0, .save⟩,
  ⟨ev 'X', U2 + 2, U2 + 4, .saveNop⟩,
  ⟨isHex, U2 + 3, U0 + 0, .conv⟩,
  ⟨isHex, U0 + 0, U0 + 0, .backslash⟩,
  ⟨ev 'U', U2 + 5, U0 + 0, .conv⟩,
  ⟨isHex, U2 + 6, U0 + 0, .conv⟩,
  ⟨isHex, U2 + 7, U0 + 0, .conv⟩,
  ⟨isHex, U2 + 8, U0 + 0, .conv⟩,
  ⟨isHex, U0 + 0, U0 + 0, .ubackslash⟩,
  ⟨ev 'U', U3 + 1, U4 + 0, .nop⟩,
  ⟨ev 'N', U3 + 2, U0 + 0, .nop⟩,
  ⟨ev 'E', U3 + 3, U0 + 0, .nop⟩,
  ⟨ev 'S', U3 + 4, U0 + 0, .nop⟩,
  ⟨ev 'C', U3 + 5, U0 + 0, .nop⟩,
  ⟨ev 'A', U3 + 6, U0 + 0, .nop⟩,
  ⟨ev 'P', U3 + 7, U0 + 0, .nop⟩,
  ⟨ev 'E', U0 + 0, U0 + 0, .unescape⟩,
  ⟨ev 'S', U4 + 1, U5 + 0, .nop⟩,
  ⟨ev 'T', U4 + 2, U0 + 0, .nop⟩,
  ⟨ev 'R', U4 + 3, U0 + 0, .nop⟩,
  ⟨ev 'I', U4 + 4, U0 + 0, .nop⟩,
  ⟨ev 'N', U4 + 5, U0 + 0, .nop⟩,
  ⟨ev 'G', U4 + 6, U0 + 0, .nop⟩,
  ⟨ev '.', U4 + 7, U0 + 0, .nop⟩,
  ⟨ev 'F', U4 + 8, U0 + 0, .nop⟩,
  ⟨ev 'R', U4 + 9, U0 + 0, .nop⟩,
  ⟨ev 'O', U4 + 10, U0 + 0, .nop⟩,
  ⟨ev 'M', U4 + 11, U0 + 0, .nop⟩,
  ⟨ev 'C', U4 + 12, U0 + 0, .nop⟩,
  ⟨ev 'H', U4 + 13, U0 + 0, .nop⟩,
  ⟨ev 'A', U4 + 14, U0 + 0, .nop⟩,
  ⟨ev 'R', U4 + 15, U0 + 0, .nop⟩,
  ⟨ev 'C', U4 + 16, U0 + 0, .nop⟩,
  ⟨ev 'O', U4 + 17, U0 + 0, .nop⟩,
  ⟨ev 'D', U4 + 18, U0 + 0, .nop⟩,
  ⟨ev 'E', U0 + 0, U0 + 0, .unescape⟩,
  ⟨ev 'D', U5 + 1, U6 + 0, .nop⟩,
  ⟨ev 'E', U5 + 2, U0 + 0, .nop⟩,
  ⟨ev 'C', U5 + 3, U0 + 0, .nop⟩,
  ⟨ev 'O', U5 + 4, U0 + 0, .nop⟩,
  ⟨ev 'D', U5 + 5, U0 + 0, .nop⟩,
  ⟨ev 'E', U5 + 6, U0 + 0, .nop⟩,
  ⟨ev 'U', U5 + 7, U0 + 0, .nop⟩,
  ⟨ev 'R', U5 + 8, U0 + 0, .nop⟩,
  ⟨ev 'I', U5 + 9, U0 + 0, .unescape⟩,
  ⟨ev 'C', U5 + 10, U0 + 0, .nop⟩,
  ⟨ev 'O', U5 + 11, U0 + 0, .nop⟩,
  ⟨ev 'M', U5 + 12, U0 + 0, .nop⟩,
  ⟨ev 'P', U5 + 13, U0 + 0, .nop⟩,
  ⟨ev 'O', U5 + 14, U0 + 0, .nop⟩,
  ⟨ev 'N', U5 + 15, U0 + 0, .nop⟩,
  ⟨ev 'E', U5 + 16, U0 + 0, .nop⟩,
  ⟨ev 'N', U5 + 17, U0 + 0, .nop⟩,
  ⟨ev 'T', U0 + 0, U0 + 0, .unescape⟩,
  ⟨ev ')', U0 + 0, U7 + 0, .quit⟩,
  ⟨any, U0 + 0, U0 + 0, .nop⟩]

/-! ### `plus_norm` -/

abbrev P0 : ℕ := 0
abbrev P1 : ℕ := P0 + 3
abbrev P2 : ℕ := P1 + 2
abbrev P3 : ℕ := P2 + 2
abbrev P4 : ℕ := P3 + 1

/-- `plus_norm`. -/
def plusNorm : List (JSNorm ActionPNorm) := [
  ⟨ev ' ', P0 + 0, P0 + 1, .space⟩,
  ⟨ev '"', P1 + 0, P0 + 2, .dquotes⟩,
  ⟨ev '\'', P2 + 0, P3 + 0, .squotes⟩,
  ⟨ev '"', P0 + 0, P1 + 1, .dquotes⟩,
  ⟨any, P1 + 0, P1 + 0, .withinQuotes⟩,
  ⟨ev '\'', P0 + 0, P2 + 1, .squotes⟩,
  ⟨any, P2 + 0, P2 + 0, .withinQuotes⟩,
  ⟨ev '+', P0 + 0, P4 + 0, .plus⟩,
  ⟨any, P0 + 0, P0 + 0, .nop⟩]

/-! ### `javascript_norm` -/

abbrev Z0 : ℕ := 0
abbrev Z1 : ℕ := Z0 + 9
abbrev Z2 : ℕ := Z1 + 20
abbrev Z3 : ℕ := Z2 + 19
abbrev Z6 : ℕ := Z3 + 10

/-- `javascript_norm`. -/
def javascriptNorm : List (JSNorm ActionJSNorm) := [
  ⟨ev 'U', Z0 + 1, Z1 + 0, .save⟩,
  ⟨ev 'N', Z0 + 2, Z0 + 0, .nop⟩,
  ⟨ev 'E', Z0 + 3, Z0 + 0, .nop⟩,
  ⟨ev 'S', Z0 + 4, Z0 + 0, .nop⟩,
  ⟨ev 'C', Z0 + 5, Z0 + 0, .nop⟩,
  ⟨ev 'A', Z0 + 6, Z0 + 0, .nop⟩,
  ⟨ev 'P', Z0 + 7, Z0 + 0, .nop⟩,
  ⟨ev 'E', Z0 + 8, Z0 + 0, .nop⟩,
  ⟨ev '(', Z0 + 0, Z0 + 0, .unescape⟩,
  ⟨ev 'S', Z1 + 1, Z2 + 0, .save⟩,
  ⟨ev 'T', Z1 + 2, Z0 + 0, .nop⟩,
  ⟨ev 'R', Z1 + 3, Z0 + 0, .nop⟩,
  ⟨ev 'I', Z1 + 4, Z0 + 0, .nop⟩,
  ⟨ev 'N', Z1 + 5, Z0 + 0, .nop⟩,
  ⟨ev 'G', Z1 + 6, Z0 + 0, .nop⟩,
  ⟨ev '.', Z1 + 7, Z0 + 0, .nop⟩,
  ⟨ev 'F', Z1 + 8, Z0 + 0, .nop⟩,
  ⟨ev 'R', Z1 + 9, Z0 + 0, .nop⟩,
  ⟨ev 'O', Z1 + 10, Z0 + 0, .nop⟩,
  ⟨ev 'M', Z1 + 11, Z0 + 0, .nop⟩,
  ⟨ev 'C', Z1 + 12, Z0 + 0, .nop⟩,
  ⟨ev 'H', Z1 + 13, Z0 + 0, .nop⟩,
  ⟨ev 'A', Z1 + 14, Z0 + 0, .nop⟩,
  ⟨ev 'R', Z1 + 15, Z0 + 0, .nop⟩,
  ⟨ev 'C', Z1 + 16, Z0 + 0, .nop⟩,
  ⟨ev 'O', Z1 + 17, Z0 + 0, .nop⟩,
  ⟨ev 'D', Z1 + 18, Z0 + 0, .nop⟩,
  ⟨ev 'E', Z1 + 19, Z0 + 0, .nop⟩,
  ⟨ev '(', Z0 + 0, Z0 + 0, .sfcc⟩,
  ⟨ev 'D', Z2 + 1, Z3 + 0, .save⟩,
  ⟨ev 'E', Z2 + 2, Z0 + 0, .nop⟩,
  ⟨ev 'C', Z2 + 3, Z0 + 0, .nop⟩,
  ⟨ev 'O', Z2 + 4, Z0 + 0, .nop⟩,
  ⟨ev 'D', Z2 + 5, Z0 + 0, .nop⟩,
  ⟨ev 'E', Z2 + 6, Z0 + 0, .nop⟩,
  ⟨ev 'U', Z2 + 7, Z0 + 0, .nop⟩,
  ⟨ev 'R', Z2 + 8, Z0 + 0, .nop⟩,
  ⟨ev 'I', Z2 + 9, Z0 + 0, .nop⟩,
  ⟨ev 'C', Z2 + 10, Z2 + 18, .nop⟩,
  ⟨ev 'O', Z2 + 11, Z0 + 0, .nop⟩,
  ⟨ev 'M', Z2 + 12, Z0 + 0, .nop⟩,
  ⟨ev 'P', Z2 + 13, Z0 + 0, .nop⟩,
  ⟨ev 'O', Z2 + 14, Z0 + 0, .nop⟩,
  ⟨ev 'N', Z2 + 15, Z0 + 0, .nop⟩,
  ⟨ev 'E', Z2 + 16, Z0 + 0, .nop⟩,
  ⟨ev 'N', Z2 + 17, Z0 + 0, .nop⟩,
  ⟨ev 'T', Z2 + 18, Z0 + 0, .nop⟩,
  ⟨ev '(', Z0 + 0, Z0 + 0, .unescape⟩,
  ⟨ev '<', Z3 + 1, Z6 + 0, .nop⟩,
  ⟨ev '/', Z3 + 2, Z0 + 0, .nop⟩,
  ⟨ev 'S', Z3 + 3, Z0 + 0, .nop⟩,
  ⟨ev 'C', Z3 + 4, Z0 + 0, .nop⟩,
  ⟨ev 'R', Z3 + 5, Z0 + 0, .nop⟩,
  ⟨ev 'I', Z3 + 6, Z0 + 0, .nop⟩,
  ⟨ev 'P', Z3 + 7, Z0 + 0, .nop⟩,
  ⟨ev 'T', Z3 + 8, Z0 + 0, .nop⟩,
  ⟨ev '>', Z3 + 0, Z3 + 9, .quit⟩,
  ⟨any, Z3 + 8, Z3 + 8, .nop⟩,
  ⟨any, Z0 + 0, Z0 + 0, .nop⟩]

end Snort.Jsnorm
