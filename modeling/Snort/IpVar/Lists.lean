import Snort.IpVar.Parse
import Snort.Lib.Brackets

/-!
# The brackets of an IP list

`_find_end_token` pairs the brackets of a list; the brackets inside other tokens, behind them and at
the end of the text are not paired by anything.

* `scan`: the tokens of a text, the brackets that belong to no list, and how the text ends;
* `parseLoop_scan`: `sfvar_parse_iplist` returns what the first refused token or the end says;
* `scan_depth`: a text that is read to its end is as balanced as its loose brackets;
* **`parse_safe_iff`**: when `sfvar_parse_iplist` stays inside its text and accepts only balanced
  ones.
-/

namespace Snort.IpVar

open Sfrt (Family)
open Brackets (depth)

/-- The square brackets of a text are balanced and properly nested. -/
abbrev Balanced (str : List Char) : Prop := Brackets.Balanced '[' ']' str

/-! ### The tokens of a text -/

/-- A token that is no list, and whether it is read as a negated one. -/
structure Word where
  text : List Char
  negated : Bool

/-- How a text ends when none of its tokens is refused. -/
inductive Ending
  | complete
  | unmatched
  | overrun
  deriving DecidableEq

/-- The tokens of a text that are no lists, in reading order and those inside lists too; the brackets
that belong to no list; and how the text ends. -/
structure Scan where
  words : List Word
  loose : List Char
  ending : Ending

/-- Go on with the rest of the text, if there is one. -/
def Scan.andThen (s t : Scan) : Scan :=
  match s.ending with
  | .complete => ⟨s.words ++ t.words, s.loose ++ t.loose, t.ending⟩
  | _ => s

/-- The text is finished. -/
def Scan.done : Scan := ⟨[], [], .complete⟩

/-- A square bracket. -/
def isBracket (c : Char) : Bool := c = '[' ∨ c = ']'

/-- The text behind the character that ends a token. -/
def pastToken (str : List Char) : List Char := (str.drop (token str).length).drop 1

/-- Whether a token behind a run of `!` is read as a negated one. -/
def negates (negation : Bool) (str : List Char) : Bool :=
  negation ^^ (str.takeWhile (· = '!')).length % 2 = 1

/-- The tokens of a text, as `sfvar_parse_iplist` finds them: no address or variable is looked at. -/
def scan : ℕ → List Char → Bool → Scan
  | 0, _, _ => .done
  | _ + 1, [], _ => .done
  | fuel + 1, c :: rest, negation =>
    if isspace c || c = ',' then scan fuel rest negation
    else
      match (c :: rest).dropWhile (· = '!') with
      | [] => ⟨[], [], .overrun⟩
      | d :: list =>
        if d = '[' then
          match findEndToken 1 list with
          | none => ⟨[], [], .unmatched⟩
          | some listTok =>
            ({ scan fuel listTok (negates negation (c :: rest)) with loose := [] } : Scan).andThen
              (scan fuel ((list.drop listTok.length).drop 1) negation)
        else if d = ']' then ⟨[], [']'], if list = [] then .complete else .unmatched⟩
        else
          -- the token, and the bracket that may have ended it
          (⟨[⟨token (d :: list), negates negation (c :: rest)⟩],
              (token (d :: list) ++ ((d :: list).drop (token (d :: list)).length).take 1).filter
                isBracket, .complete⟩ : Scan).andThen
            (scan fuel (pastToken (d :: list)) negation)

variable (inetPton : Family → List Char → Option (ℕ → BitVec 32)) (table : List SfipVar)

/-- The token is accepted: the variable is known, or the address is one, and it is not the negated
"any". -/
def accepts (w : Word) : Bool :=
  if w.text.head? = some '$' then (parseVariable table allocVar w.text w.negated).1 = .success
  else (parseAddress inetPton allocVar w.text w.negated).1 = .success

/-- Some token is refused. -/
def Scan.refused (s : Scan) : Bool := s.words.any fun w => !accepts inetPton table w

/-- The result that a scan promises. -/
def Scan.Gives (s : Scan) (res : Option (SfipRet × SfipVar)) : Prop :=
  if s.refused inetPton table then ∃ ret var, ret ≠ .success ∧ res = some (ret, var)
  else
    match s.ending with
    | .complete => ∃ var, res = some (.success, var)
    | .unmatched => ∃ var, res = some (.unmatchedBracket, var)
    | .overrun => res = none

/-! ### The parser follows the tokens -/

section

variable {inetPton table}

/-- The variable that is read into does not matter. -/
theorem parseVariable_ret (var var' : SfipVar) (tok : List Char) (negation : Bool) :
    (parseVariable table var tok negation).1 = (parseVariable table var' tok negation).1 := by
  unfold parseVariable
  cases sfvtLookupVar table tok with
  | none => rfl
  | some copyVar =>
    dsimp only
    split_ifs <;> rfl

theorem parseAddress_ret (var var' : SfipVar) (tok : List Char) (negation : Bool) :
    (parseAddress inetPton var tok negation).1 = (parseAddress inetPton var' tok negation).1 := by
  unfold parseAddress
  by_cases hany : negation = true ∧ tok.map Char.toLower = ['a', 'n', 'y']
  · rw [if_pos hany, if_pos hany]
  · rw [if_neg hany, if_neg hany]
    cases sfipnodeAlloc inetPton tok with
    | error ret => rfl
    | ok node =>
      dsimp only
      split_ifs <;> rfl

/-- A single token gives what its own reading gives. -/
theorem gives_word {w : Word} {loose : List Char} {res : SfipRet × SfipVar}
    (h : accepts inetPton table w = decide (res.1 = .success)) :
    (⟨[w], loose, .complete⟩ : Scan).Gives inetPton table (some res) := by
  unfold Scan.Gives Scan.refused
  simp only [List.any_cons, List.any_nil, Bool.or_false, h]
  by_cases hret : res.1 = .success
  · rw [decide_eq_true hret, if_neg (by decide)]
    exact ⟨res.2, by rw [← hret]⟩
  · rw [decide_eq_false hret, if_pos (by decide)]
    exact ⟨res.1, res.2, hret, rfl⟩

theorem refused_andThen {s t : Scan} (h : s.ending = .complete) :
    (s.andThen t).refused inetPton table =
      (s.refused inetPton table || t.refused inetPton table) := by
  simp only [Scan.andThen, h, Scan.refused, List.any_append]

/-- Going on behind a token. -/
theorem gives_goOn {s t : Scan} {res : Option (SfipRet × SfipVar)} {behind : List Char}
    {loop : SfipVar → List Char → Option (SfipRet × SfipVar)} (hs : s.Gives inetPton table res)
    (hend : behind = [] → t = .done)
    (ht : ∀ var, behind ≠ [] → t.Gives inetPton table (loop var (behind.drop 1))) :
    (s.andThen t).Gives inetPton table (goOn loop behind res) := by
  have hfail : ∀ {ret : SfipRet} {var : SfipVar}, ret ≠ .success →
      goOn loop behind (some (ret, var)) = some (ret, var) := by
    intro ret var hret
    cases ret <;> first | rfl | exact absurd rfl hret
  unfold Scan.Gives at hs
  by_cases hrefused : s.refused inetPton table = true
  · -- the token is refused
    rw [if_pos hrefused] at hs
    obtain ⟨ret, var, hret, rfl⟩ := hs
    have hrefused' : (s.andThen t).refused inetPton table = true := by
      cases hs : s.ending with
      | complete => rw [refused_andThen hs, hrefused, Bool.true_or]
      | unmatched | overrun =>
        simp only [Scan.andThen, hs]
        exact hrefused
    unfold Scan.Gives
    rw [if_pos hrefused']
    exact ⟨ret, var, hret, hfail hret⟩
  rw [if_neg hrefused] at hs
  cases hs' : s.ending with
  | complete =>
    simp only [hs'] at hs
    obtain ⟨var, rfl⟩ := hs
    have hnot : (s.andThen t).refused inetPton table = t.refused inetPton table := by
      rw [refused_andThen hs', Bool.eq_false_iff.2 hrefused, Bool.false_or]
    have hending : (s.andThen t).ending = t.ending := by simp only [Scan.andThen, hs']
    have hgoal : t.Gives inetPton table (goOn loop behind (some (.success, var))) := by
      by_cases hb : behind = []
      · rw [hend hb, goOn, if_pos hb]
        exact ⟨var, rfl⟩
      · rw [goOn, if_neg hb]
        exact ht var hb
    unfold Scan.Gives at hgoal ⊢
    rw [hnot, hending]
    exact hgoal
  | unmatched =>
    have hsame : s.andThen t = s := by simp only [Scan.andThen, hs']
    simp only [hs'] at hs
    obtain ⟨var, rfl⟩ := hs
    unfold Scan.Gives
    rw [hsame, if_neg hrefused, hs']
    exact ⟨var, rfl⟩
  | overrun =>
    have hsame : s.andThen t = s := by simp only [Scan.andThen, hs']
    simp only [hs'] at hs
    unfold Scan.Gives
    rw [hsame, if_neg hrefused, hs', hs]
    rfl

theorem scan_nil (fuel : ℕ) (negation : Bool) : scan fuel [] negation = .done := by
  cases fuel <;> rfl

theorem gives_done (var : SfipVar) :
    Scan.done.Gives inetPton table (some (.success, var)) := ⟨var, rfl⟩

/-- The brackets that are not paired do not matter for the result. -/
theorem Scan.Gives.loose {s : Scan} {res : Option (SfipRet × SfipVar)}
    (h : s.Gives inetPton table res) (loose : List Char) :
    ({ s with loose := loose } : Scan).Gives inetPton table res := h

/-! One round of the parser. -/

variable {fuel : ℕ} {var : SfipVar} {c : Char} {rest list tok : List Char} {negation : Bool}

theorem parseLoop_overrun (hspace : ¬ (isspace c || decide (c = ',')) = true)
    (hstr : (c :: rest).dropWhile (· = '!') = []) :
    parseLoop inetPton table (fuel + 1) var (c :: rest) negation = none := by
  rw [parseLoop, if_neg hspace]
  simp only [hstr]

theorem parseLoop_unmatched (hspace : ¬ (isspace c || decide (c = ',')) = true)
    (hstr : (c :: rest).dropWhile (· = '!') = '[' :: list) (hfind : findEndToken 1 list = none) :
    parseLoop inetPton table (fuel + 1) var (c :: rest) negation = some (.unmatchedBracket, var) := by
  rw [parseLoop, if_neg hspace]
  simp only [hstr, hfind]

theorem parseLoop_list (hspace : ¬ (isspace c || decide (c = ',')) = true)
    (hstr : (c :: rest).dropWhile (· = '!') = '[' :: list) (hfind : findEndToken 1 list = some tok) :
    parseLoop inetPton table (fuel + 1) var (c :: rest) negation =
      goOn (fun var str => parseLoop inetPton table fuel var str negation) (list.drop tok.length)
        (parseLoop inetPton table fuel var tok (negates negation (c :: rest))) := by
  rw [parseLoop, if_neg hspace]
  simp only [hstr, hfind, negates]

theorem parseLoop_close (hspace : ¬ (isspace c || decide (c = ',')) = true)
    (hstr : (c :: rest).dropWhile (· = '!') = ']' :: list) :
    parseLoop inetPton table (fuel + 1) var (c :: rest) negation =
      some (if list = [] then .success else .unmatchedBracket, var) := by
  rw [parseLoop, if_neg hspace]
  simp only [hstr]
  split_ifs <;> rfl

theorem parseLoop_word {d : Char} (hspace : ¬ (isspace c || decide (c = ',')) = true)
    (hstr : (c :: rest).dropWhile (· = '!') = d :: list) (hop : d ≠ '[') (hcl : d ≠ ']') :
    parseLoop inetPton table (fuel + 1) var (c :: rest) negation =
      goOn (fun var str => parseLoop inetPton table fuel var str negation)
        ((d :: list).drop (token (d :: list)).length)
        (some (if d = '$' then
          parseVariable table var (token (d :: list)) (negates negation (c :: rest))
        else parseAddress inetPton var (token (d :: list)) (negates negation (c :: rest)))) := by
  rw [parseLoop, if_neg hspace]
  by_cases hvar : d = '$'
  · subst hvar
    rw [if_pos rfl]
    simp only [hstr, negates]
  · rw [if_neg hvar]
    simp only [hstr, negates]
    split
    · rename_i heq
      cases heq
    · rename_i heq
      exact absurd (List.cons.inj heq).1 hop
    · rename_i heq
      exact absurd (List.cons.inj heq).1 hvar
    · rename_i heq
      exact absurd (List.cons.inj heq).1 hcl
    · rfl

/-- `sfvar_parse_iplist` returns what the first refused token or the end of the text says. -/
theorem parseLoop_scan (inetPton : Family → List Char → Option (ℕ → BitVec 32))
    (table : List SfipVar) (fuel : ℕ) : ∀ (var : SfipVar) (str : List Char) (negation : Bool),
    (scan fuel str negation).Gives inetPton table
      (parseLoop inetPton table fuel var str negation) := by
  induction fuel with
  | zero => exact fun var _ _ => gives_done var
  | succ fuel ih =>
    intro var str negation
    have hnext : ∀ (s : Scan) (res : Option (SfipRet × SfipVar)) (behind : List Char),
        s.Gives inetPton table res →
        (s.andThen (scan fuel (behind.drop 1) negation)).Gives inetPton table
          (goOn (fun var str => parseLoop inetPton table fuel var str negation) behind res) := by
      intro s res behind hs
      refine gives_goOn hs (fun hb => ?_) fun var _ => ih var _ _
      rw [hb]
      exact scan_nil fuel negation
    cases str with
    | nil => exact gives_done var
    | cons c rest =>
      by_cases hspace : (isspace c || decide (c = ',')) = true
      · rw [scan, parseLoop, if_pos hspace, if_pos hspace]
        exact ih var rest negation
      rw [scan, if_neg hspace]
      cases hstr : (c :: rest).dropWhile (· = '!') with
      | nil => rw [parseLoop_overrun hspace hstr]; rfl
      | cons d list =>
        dsimp only
        by_cases hop : d = '['
        · subst hop
          rw [if_pos rfl]
          cases hfind : findEndToken 1 list with
          | none =>
            rw [parseLoop_unmatched hspace hstr hfind]
            exact ⟨var, rfl⟩
          | some listTok =>
            rw [parseLoop_list hspace hstr hfind]
            exact hnext _ _ _ ((ih var listTok _).loose [])
        by_cases hcl : d = ']'
        · subst hcl
          rw [if_neg hop, if_pos rfl, parseLoop_close hspace hstr]
          by_cases hrest : list = []
          · rw [if_pos hrest, if_pos hrest]
            exact ⟨var, rfl⟩
          · rw [if_neg hrest, if_neg hrest]
            exact ⟨var, rfl⟩
        · rw [if_neg hop, if_neg hcl, parseLoop_word hspace hstr hop hcl]
          refine hnext _ _ _ (gives_word ?_)
          have hhead : (token (d :: list)).head? = some d := rfl
          rw [accepts, hhead]
          by_cases hvar : d = '$'
          · rw [if_pos (congrArg some hvar), if_pos hvar, parseVariable_ret allocVar var]
          · rw [if_neg fun h => hvar (Option.some.inj h), if_neg hvar,
              parseAddress_ret allocVar var]

/-! ### The loose brackets -/

/-- What `_find_end_token` returns is balanced, and a closing bracket stands behind it. -/
theorem findEndToken_spec {list : List Char} : ∀ {n : ℕ} {tok : List Char},
    findEndToken (n + 1) list = some tok →
      depth '[' ']' n tok = some 0 ∧ ∃ t, list = tok ++ ']' :: t := by
  have hne : ']' ≠ '[' := by decide
  induction list with
  | nil => exact fun h => absurd h.symm (Option.some_ne_none _)
  | cons c list ih =>
    intro n tok h
    rw [findEndToken] at h
    by_cases hop : c = '['
    · rw [if_pos hop, if_neg (by omega)] at h
      obtain ⟨tok', htok, rfl⟩ := Option.map_eq_some_iff.1 h
      obtain ⟨hd, t, rfl⟩ := ih (n := n + 1) (by exact_mod_cast htok)
      refine ⟨?_, t, rfl⟩
      rw [hop, Brackets.depth_open]
      exact hd
    rw [if_neg hop] at h
    by_cases hcl : c = ']'
    · rw [if_pos hcl] at h
      cases n with
      | zero =>
        rw [if_pos (by norm_num)] at h
        obtain rfl := Option.some.inj h
        exact ⟨Brackets.depth_nil 0, list, by rw [hcl, List.nil_append]⟩
      | succ n =>
        rw [if_neg (by push_cast; omega)] at h
        obtain ⟨tok', htok, rfl⟩ := Option.map_eq_some_iff.1 h
        obtain ⟨hd, t, rfl⟩ := ih (n := n) (by rw [← htok]; congr 1; push_cast; ring)
        refine ⟨?_, t, rfl⟩
        rw [hcl, Brackets.depth_close hne]
        exact hd
    · rw [if_neg hcl, if_neg (by omega)] at h
      obtain ⟨tok', htok, rfl⟩ := Option.map_eq_some_iff.1 h
      obtain ⟨hd, t, rfl⟩ := ih htok
      refine ⟨?_, t, rfl⟩
      rw [Brackets.depth_skip hop hcl]
      exact hd

theorem token_append (str : List Char) : token str ++ str.drop (token str).length = str := by
  rw [token]
  cases str with
  | nil => rfl
  | cons c rest =>
    simp only [List.take_succ_cons, List.take_zero, List.drop_succ_cons, List.drop_zero,
      List.cons_append, List.nil_append, List.length_cons]
    congr 1
    induction rest with
    | nil => rfl
    | cons a rest ih =>
      rw [List.takeWhile_cons]
      split_ifs
      · rw [List.cons_append, List.length_cons, List.drop_succ_cons, ih]
      · rfl

theorem andThen_complete {s t : Scan} (h : (s.andThen t).ending = .complete) :
    t.ending = .complete ∧ (s.andThen t).loose = s.loose ++ t.loose := by
  unfold Scan.andThen at h ⊢
  cases hs : s.ending with
  | complete =>
    simp only [hs] at h ⊢
    exact ⟨h, trivial⟩
  | unmatched | overrun =>
    simp only [hs] at h
    cases h

/-- A text that is read to its end is as balanced as its loose brackets. -/
theorem scan_depth (fuel : ℕ) : ∀ (str : List Char) (negation : Bool), str.length < fuel →
    (scan fuel str negation).ending = .complete →
      ∀ d, depth '[' ']' d (scan fuel str negation).loose = depth '[' ']' d str := by
  induction fuel with
  | zero => exact fun _ _ h => absurd h (Nat.not_lt_zero _)
  | succ fuel ih =>
    intro str negation hlen hend n
    cases str with
    | nil => rfl
    | cons c rest =>
      have hlen : rest.length < fuel := Nat.lt_of_succ_lt_succ hlen
      rw [scan] at hend ⊢
      by_cases hspace : (isspace c || decide (c = ',')) = true
      · rw [if_pos hspace] at hend ⊢
        have hop : c ≠ '[' := by rintro rfl; revert hspace; decide
        have hcl : c ≠ ']' := by rintro rfl; revert hspace; decide
        rw [ih rest negation hlen hend, Brackets.depth_skip hop hcl]
      rw [if_neg hspace] at hend ⊢
      -- the run of `!` holds no bracket
      have hbang := Brackets.depth_dropWhile (· = '!') (by decide : decide ('[' = '!') = false)
        (by decide : decide (']' = '!') = false) n (c :: rest)
      have hlen' : ((c :: rest).dropWhile (· = '!')).length ≤ fuel :=
        (List.dropWhile_sublist _).length_le.trans hlen
      cases hstr : (c :: rest).dropWhile (· = '!') with
      | nil =>
        rw [hstr] at hend
        cases hend
      | cons d list =>
        rw [hstr] at hend hbang hlen'
        rw [← hbang]
        dsimp only at hend ⊢
        rw [List.length_cons] at hlen'
        by_cases hop : d = '['
        · rw [if_pos hop] at hend ⊢
          cases hfind : findEndToken 1 list with
          | none =>
            rw [hfind] at hend
            cases hend
          | some listTok =>
            rw [hfind] at hend
            dsimp only at hend ⊢
            obtain ⟨htok, t, rfl⟩ := findEndToken_spec (n := 0) hfind
            have hbehind : ((listTok ++ ']' :: t).drop listTok.length).drop 1 = t := by
              rw [List.drop_left]
              rfl
            rw [hbehind] at hend ⊢
            rw [List.length_append, List.length_cons] at hlen'
            obtain ⟨hcomplete, hloose⟩ := andThen_complete hend
            rw [hloose, List.nil_append, ih t negation (by omega) hcomplete, hop,
              Brackets.depth_nest (by decide) htok]
        rw [if_neg hop] at hend ⊢
        by_cases hcl : d = ']'
        · rw [if_pos hcl] at hend ⊢
          by_cases hlist : list = []
          · rw [hlist, hcl]
          · dsimp only at hend
            rw [if_neg hlist] at hend
            cases hend
        · rw [if_neg hcl] at hend ⊢
          obtain ⟨hcomplete, hloose⟩ := andThen_complete hend
          have hpast : (pastToken (d :: list)).length < fuel := by
            rw [pastToken, List.length_drop, List.length_drop, List.length_cons, token,
              List.length_append]
            simp only [List.take_succ_cons, List.length_cons]
            omega
          have hsplit : (token (d :: list) ++ ((d :: list).drop (token (d :: list)).length).take 1)
              ++ pastToken (d :: list) = d :: list := by
            rw [List.append_assoc, pastToken, List.take_append_drop, token_append]
          rw [hloose, Brackets.depth_append, Brackets.depth_filter isBracket rfl rfl]
          conv_rhs => rw [← hsplit, Brackets.depth_append]
          congr 1
          funext n'
          exact ih _ negation hpast hcomplete n'

/-! ### The whole text -/

variable (inetPton table) in
/-- **When `sfvar_parse_iplist` stays inside its text and accepts only balanced ones**: a token is
refused, a bracket is reported, or no run of `!` comes to an end of the text and the loose brackets
are balanced. -/
theorem parse_safe_iff (var : SfipVar) (str : List Char) (negation : Bool) :
    (sfvarParseIplist inetPton table var str negation ≠ none ∧
      ∀ var', sfvarParseIplist inetPton table var str negation = some (.success, var') →
        Balanced str) ↔
    ((scan (str.length + 1) str negation).refused inetPton table = true ∨
      (scan (str.length + 1) str negation).ending = .unmatched ∨
      (scan (str.length + 1) str negation).ending = .complete ∧
        Balanced (scan (str.length + 1) str negation).loose) := by
  have hne : ']' ≠ '[' := by decide
  have hgives := parseLoop_scan inetPton table (str.length + 1) var str negation
  have hdepth := scan_depth (str.length + 1) str negation (Nat.lt_succ_self _)
  unfold sfvarParseIplist
  generalize scan (str.length + 1) str negation = s at hgives hdepth ⊢
  generalize parseLoop inetPton table (str.length + 1) var str negation = res at hgives ⊢
  unfold Scan.Gives at hgives
  by_cases hrefused : s.refused inetPton table = true
  · rw [if_pos hrefused] at hgives
    obtain ⟨ret, var', hret, rfl⟩ := hgives
    refine iff_of_true ⟨Option.some_ne_none _, fun var'' h => ?_⟩ (Or.inl hrefused)
    exact absurd (congrArg Prod.fst (Option.some.inj h)) hret
  rw [if_neg hrefused] at hgives
  cases hend : s.ending with
  | complete =>
    simp only [hend] at hgives
    obtain ⟨var', rfl⟩ := hgives
    have hbalanced : Balanced s.loose ↔ Balanced str := by
      rw [Balanced, Balanced, Brackets.balanced_iff_depth hne, Brackets.balanced_iff_depth hne,
        hdepth hend 0]
    constructor
    · exact fun h => Or.inr (Or.inr ⟨rfl, hbalanced.2 (h.2 var' rfl)⟩)
    · rintro (h | h | ⟨-, h⟩)
      · exact absurd h hrefused
      · cases h
      · exact ⟨Option.some_ne_none _, fun _ _ => hbalanced.1 h⟩
  | unmatched =>
    simp only [hend] at hgives
    obtain ⟨var', rfl⟩ := hgives
    refine iff_of_true ⟨Option.some_ne_none _, fun var'' h => ?_⟩ (Or.inr (Or.inl rfl))
    cases congrArg Prod.fst (Option.some.inj h)
  | overrun =>
    simp only [hend] at hgives
    rw [hgives]
    refine iff_of_false (fun h => h.1 rfl) ?_
    rintro (h | h | ⟨h, -⟩)
    · exact hrefused h
    · cases h
    · cases h

end

/-- A closing bracket that belongs to nothing is accepted, and a `!` at the end of the text leads
behind it. -/
theorem parse_stray :
    (∃ var, sfvarParseIplist inetPtonTen [] allocVar "10.0.0.0]".toList false =
      some (.success, var)) ∧ ¬ Balanced "10.0.0.0]".toList ∧
    sfvarParseIplist inetPtonTen [] allocVar "!".toList false = none := by
  refine ⟨⟨_, rfl⟩, ?_, rfl⟩
  rw [Balanced, Brackets.balanced_iff_depth (by decide)]
  decide

end Snort.IpVar
