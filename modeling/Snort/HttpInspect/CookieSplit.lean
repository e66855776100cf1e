import Mathlib.Tactic

/-!
# Cookies are taken out of the headers: `hi_split_header_cookie`

Pointers into the raw header are offsets.  The nodes of the list of cookies have addresses; what is not
allocated cannot be read or freed, and nothing outside of the raw header can be read.

* `CookiePtr`, `SplitState`: the nodes, the two buffers and what was freed;
* `copyOut`, `splitRound`, `splitLoop`, `hiSplitHeaderCookie`: the function;
* `Linked`: a list of ranges in the nodes; `outside`: the bytes outside of some ranges;
* `splitLoop_spec`: what the loop has done for each cookie;
* **`hiSplitHeaderCookie_splits`**: the headers and the cookies that come out.
-/

namespace Snort.HttpInspect.CookieSplit

/-- `MAX_URI`. -/
def maxUri : ℕ := 8192

/-- `COOKIE_PTR`. -/
structure CookiePtr where
  cookie : Option ℕ
  cookieEnd : Option ℕ
  next : Option ℕ
  deriving DecidableEq

/-- What has been written to the buffers, the nodes that are allocated, and those that were freed, in order. -/
structure SplitState where
  header : List UInt8
  cookieHeader : List UInt8
  nodes : ℕ → Option CookiePtr
  freed : List ℕ

/-- `HI_SUCCESS`, `HI_OUT_OF_BOUNDS` and `HI_INVALID_ARG`. -/
inductive Returned
  | success (s : SplitState)
  | outOfBounds
  | invalidArg

section Function

variable (raw : List UInt8)

/-- `len` bytes of the raw header. -/
def readRaw (start len : ℕ) : Option (List UInt8) :=
  if start + len ≤ raw.length then some ((raw.drop start).take len) else none

/-- A stretch is trimmed to what is left of `MAX_URI`, and copied behind `out` if it fits into `size` bytes. -/
def copyOut (size : ℕ) (out : List UInt8) (start : ℕ) (len : ℤ) : Option (List UInt8) :=
  let len : ℤ := if (maxUri : ℤ) < out.length + len then maxUri - out.length else len
  if 0 < len then
    -- `SafeMemcpy`
    if out.length + len ≤ size then (readRaw raw start len.toNat).map fun bytes => out ++ bytes else some out
  else some out

/-- `free`. -/
def free (s : SplitState) (p : ℕ) : Option SplitState :=
  if (s.nodes p).isSome then some { s with nodes := Function.update s.nodes p none, freed := s.freed ++ [p] }
  else none

/-- `free(last_cookie)`, but for the first one. -/
def freeLast (first : ℕ) (s : SplitState) : Option ℕ → Option SplitState
  | none => some s
  | some last => if last ≠ first then free s last else some s

/-- The end of the plain stretch in front of the next cookie, or of the last one. -/
def stretchEnd (s : SplitState) : Option ℕ → Option ℕ
  | none => some raw.length
  | some cookie => (s.nodes cookie).bind CookiePtr.cookie

/-- A round of the loop: the next cookie, the start of the next plain stretch and its length. -/
def splitRound (headerSize cookieSize first : ℕ) (s : SplitState) (cookie : ℕ) (last : Option ℕ) (start : ℕ) :
    Option (SplitState × Option ℕ × ℕ × ℤ) := do
  let c ← s.nodes cookie
  let lo ← c.cookie
  let hi ← c.cookieEnd
  let header ← copyOut raw headerSize s.header start (lo - start)
  let cookieHeader ← copyOut raw cookieSize s.cookieHeader lo (hi - lo)
  let s ← freeLast first { s with header := header, cookieHeader := cookieHeader } last
  let stop ← stretchEnd raw s c.next
  return (s, c.next, hi, stop - hi)

/-- The `do`-`while` loop: the start of the trailing stretch and its length. -/
def splitLoop (headerSize cookieSize first : ℕ) :
    ℕ → SplitState → ℕ → Option ℕ → ℕ → Option (SplitState × ℕ × ℤ)
  | 0, _, _, _, _ => none
  | fuel + 1, s, cookie, last, start =>
    (splitRound raw headerSize cookieSize first s cookie last start).bind fun r =>
      match r.2.1 with
      | none => some (r.1, r.2.2)
      | some n =>
        if r.1.header.length = maxUri ∨ r.1.cookieHeader.length = maxUri then some (r.1, r.2.2)
        else splitLoop headerSize cookieSize first fuel r.1 n (some n) r.2.2.1

/-- `hi_split_header_cookie`. -/
def hiSplitHeaderCookie (fuel headerSize cookieSize : ℕ) (nodes : ℕ → Option CookiePtr) :
    Option ℕ → Option Returned
  | none => some .invalidArg
  | some first => do
    let c ← nodes first
    let hi ← c.cookieEnd
    if raw.length < hi then return .outOfBounds
    let (s, start, len) ← splitLoop raw headerSize cookieSize first fuel ⟨[], [], nodes, []⟩ first none 0
    -- `memset(first_cookie, 0, sizeof(COOKIE_PTR))`
    let _ ← s.nodes first
    let s := { s with nodes := Function.update s.nodes first (some ⟨none, none, none⟩) }
    if len ≠ 0 ∧ start < raw.length then
      let header ← copyOut raw headerSize s.header start len
      return .success { s with header := header }
    return .success s

end Function

/-! ### Ranges -/

/-- The bytes from `lo` up to `hi`. -/
structure Range where
  lo : ℕ
  hi : ℕ
  deriving DecidableEq

/-- The ranges are inside `n` bytes, disjoint and in increasing order. -/
structure InOrder (n : ℕ) (rs : List Range) : Prop where
  inside : ∀ r ∈ rs, r.lo ≤ r.hi ∧ r.hi ≤ n
  ascending : rs.Pairwise fun r r' => r.hi ≤ r'.lo

/-- The bytes of a range. -/
def bytesOf (raw : List UInt8) (r : Range) : List UInt8 := (raw.drop r.lo).take (r.hi - r.lo)

/-- The bytes outside of the ranges, from an offset on. -/
def outsideFrom (rs : List Range) (data : List UInt8) (start : ℕ) : List UInt8 :=
  ((data.zipIdx start).filter fun b => rs.all fun r => !decide (r.lo ≤ b.2 ∧ b.2 < r.hi)).map Prod.fst

/-- The bytes outside of the ranges. -/
def outside (rs : List Range) (raw : List UInt8) : List UInt8 := outsideFrom rs raw 0

/-- The cookies are the ranges, in a list that starts at `p`. -/
def Linked (nodes : ℕ → Option CookiePtr) : Option ℕ → List (ℕ × Range) → Prop
  | p, [] => p = none
  | p, a :: cookies =>
    p = some a.1 ∧ ∃ next, nodes a.1 = some ⟨some a.2.lo, some a.2.hi, next⟩ ∧ Linked nodes next cookies

variable {raw data : List UInt8} {nodes : ℕ → Option CookiePtr} {p : Option ℕ} {cookies : List (ℕ × Range)}
  {rs : List Range} {r : Range} {start size len n : ℕ} {out : List UInt8}

theorem InOrder.tail (h : InOrder n (r :: rs)) : InOrder n rs :=
  ⟨fun r' hr' => h.inside r' (List.mem_cons_of_mem _ hr'), (List.pairwise_cons.1 h.ascending).2⟩

theorem InOrder.head (h : InOrder n (r :: rs)) : r.lo ≤ r.hi ∧ r.hi ≤ n := h.inside r List.mem_cons_self

theorem InOrder.after (h : InOrder n (r :: rs)) : ∀ r' ∈ rs, r.hi ≤ r'.lo := (List.pairwise_cons.1 h.ascending).1

theorem outsideFrom_append (xs ys : List UInt8) :
    outsideFrom rs (xs ++ ys) start = outsideFrom rs xs start ++ outsideFrom rs ys (start + xs.length) := by
  unfold outsideFrom
  rw [List.zipIdx_append, List.filter_append, List.map_append]

/-- Bytes in front of all ranges. -/
theorem outsideFrom_before (h : ∀ r ∈ rs, start + data.length ≤ r.lo) : outsideFrom rs data start = data := by
  unfold outsideFrom
  rw [List.filter_eq_self.2, List.zipIdx_map_fst]
  intro b hb
  have hlt := List.snd_lt_of_mem_zipIdx hb
  rw [List.all_eq_true]
  intro r hr
  have := h r hr
  simp only [Bool.not_eq_true', decide_eq_false_iff_not]
  omega

/-- Bytes in a range. -/
theorem outsideFrom_inside (hr : r ∈ rs) (hlo : r.lo ≤ start) (hhi : start + data.length ≤ r.hi) :
    outsideFrom rs data start = [] := by
  unfold outsideFrom
  rw [List.filter_eq_nil_iff.2, List.map_nil]
  intro b hb
  have hlt := List.snd_lt_of_mem_zipIdx hb
  have hle := List.le_snd_of_mem_zipIdx hb
  rw [List.all_eq_true]
  intro hall
  have := hall r hr
  simp only [Bool.not_eq_true', decide_eq_false_iff_not] at this
  omega

/-- Bytes behind a range. -/
theorem outsideFrom_behind (hhi : r.hi ≤ start) : outsideFrom (r :: rs) data start = outsideFrom rs data start := by
  unfold outsideFrom
  congr 1
  refine List.filter_congr fun b hb => ?_
  have hle := List.le_snd_of_mem_zipIdx hb
  rw [List.all_cons, decide_eq_false (by omega), Bool.not_false, Bool.true_and]

theorem length_drop_take (h : start + len ≤ raw.length) : ((raw.drop start).take len).length = len := by
  rw [List.length_take, List.length_drop]
  omega

theorem InOrder.length_bytesOf (h : InOrder raw.length (r :: rs)) : (bytesOf raw r).length = r.hi - r.lo :=
  length_drop_take (by have := h.head; omega)

/-- The plain stretch in front of the first range, and what is outside behind it. -/
theorem outsideFrom_cons (h : InOrder raw.length (r :: rs)) (hstart : start ≤ r.lo) :
    outsideFrom (r :: rs) (raw.drop start) start =
      (raw.drop start).take (r.lo - start) ++ outsideFrom rs (raw.drop r.hi) r.hi := by
  obtain ⟨hle, hin⟩ := h.head
  have hstretch : ((raw.drop start).take (r.lo - start)).length = r.lo - start := length_drop_take (by omega)
  have hcookie := h.length_bytesOf
  have hsplit : raw.drop start = (raw.drop start).take (r.lo - start) ++ (bytesOf raw r ++ raw.drop r.hi) := by
    have h₁ := List.take_append_drop (r.lo - start) (raw.drop start)
    have h₂ := List.take_append_drop (r.hi - r.lo) (raw.drop r.lo)
    rw [List.drop_drop, Nat.add_sub_cancel' hstart] at h₁
    rw [List.drop_drop, Nat.add_sub_cancel' hle] at h₂
    rw [bytesOf, h₂, h₁]
  calc outsideFrom (r :: rs) (raw.drop start) start
      = outsideFrom (r :: rs) ((raw.drop start).take (r.lo - start)) start ++
          (outsideFrom (r :: rs) (bytesOf raw r) r.lo ++ outsideFrom (r :: rs) (raw.drop r.hi) r.hi) := by
        conv_lhs => rw [hsplit]
        rw [outsideFrom_append, outsideFrom_append, hstretch, hcookie, Nat.add_sub_cancel' hstart,
          Nat.add_sub_cancel' hle]
    _ = (raw.drop start).take (r.lo - start) ++ ([] ++ outsideFrom rs (raw.drop r.hi) r.hi) := by
        rw [outsideFrom_before, outsideFrom_inside List.mem_cons_self le_rfl (by omega), outsideFrom_behind le_rfl]
        intro r' hr'
        rcases List.mem_cons.1 hr' with rfl | hr'
        · omega
        · have := h.after r' hr'
          omega
    _ = (raw.drop start).take (r.lo - start) ++ outsideFrom rs (raw.drop r.hi) r.hi := rfl

/-! ### The list -/

theorem Linked.unique {cookies' : List (ℕ × Range)} (h : Linked nodes p cookies) (h' : Linked nodes p cookies') :
    cookies = cookies' := by
  induction cookies generalizing p cookies' with
  | nil =>
    cases cookies' with
    | nil => rfl
    | cons a cookies' => exact absurd (h.symm.trans h'.1) (by simp)
  | cons a cookies ih =>
    cases cookies' with
    | nil => exact absurd (h.1.symm.trans h') (by simp)
    | cons a' cookies' =>
      obtain ⟨hp, next, hnode, hrest⟩ := h
      obtain ⟨hp', next', hnode', hrest'⟩ := h'
      have ha : a.1 = a'.1 := Option.some.inj (hp.symm.trans hp')
      rw [← ha, hnode, Option.some.injEq, CookiePtr.mk.injEq, Option.some.injEq, Option.some.injEq] at hnode'
      obtain ⟨hlo, hhi, rfl⟩ := hnode'
      have hr : a = a' := by
        obtain ⟨x, lo, hi⟩ := a
        obtain ⟨x', lo', hi'⟩ := a'
        simp_all
      rw [hr, ih hrest hrest']

/-- A part of the list starts at each of its nodes. -/
theorem Linked.of_mem {a : ℕ} (h : Linked nodes p cookies) (ha : a ∈ cookies.map Prod.fst) :
    ∃ cookies', Linked nodes (some a) cookies' ∧ cookies' <:+ cookies := by
  induction cookies generalizing p with
  | nil => simp at ha
  | cons c cookies ih =>
    rcases List.mem_cons.1 ha with rfl | ha
    · refine ⟨c :: cookies, ?_, List.suffix_refl _⟩
      rw [← h.1]
      exact h
    · obtain ⟨-, next, -, hrest⟩ := h
      obtain ⟨cookies', hlinked, hsuffix⟩ := ih hrest ha
      exact ⟨cookies', hlinked, hsuffix.trans (List.suffix_cons _ _)⟩

/-- No node is met twice: the list ends. -/
theorem Linked.nodup (h : Linked nodes p cookies) : (cookies.map Prod.fst).Nodup := by
  induction cookies generalizing p with
  | nil => exact List.nodup_nil
  | cons a cookies ih =>
    obtain ⟨hp, next, hnode, hrest⟩ := h
    refine List.nodup_cons.2 ⟨fun hmem => ?_, ih hrest⟩
    obtain ⟨cookies', hlinked, hsuffix⟩ := hrest.of_mem hmem
    have hself : Linked nodes (some a.1) (a :: cookies) := ⟨rfl, next, hnode, hrest⟩
    have heq := hself.unique hlinked
    have hle := hsuffix.length_le
    rw [← heq, List.length_cons] at hle
    omega

theorem Linked.congr {nodes' : ℕ → Option CookiePtr} (h : Linked nodes p cookies)
    (heq : ∀ x ∈ cookies.map Prod.fst, nodes' x = nodes x) : Linked nodes' p cookies := by
  induction cookies generalizing p with
  | nil => exact h
  | cons b cookies ih =>
    obtain ⟨hp, next, hnode, hrest⟩ := h
    refine ⟨hp, next, ?_, ih hrest fun x hx => heq x (List.mem_cons_of_mem _ hx)⟩
    rw [heq b.1 List.mem_cons_self, hnode]

/-! ### The loop -/

/-- A stretch that has room is copied whole. -/
theorem copyOut_fits {k : ℤ} (hk : k = len) (hin : start + len ≤ raw.length) (hroom : out.length + len < maxUri) :
    copyOut raw maxUri out start k = some (out ++ (raw.drop start).take len) := by
  subst hk
  have htrim : ¬(maxUri : ℤ) < out.length + len := by omega
  unfold copyOut
  dsimp only
  rw [if_neg htrim]
  rcases Nat.eq_zero_or_pos len with rfl | hpos
  · rw [if_neg (by simp), List.take_zero, List.append_nil]
  · rw [if_pos (by exact_mod_cast hpos), if_pos (by omega), readRaw, Int.toNat_natCast, if_pos hin]
    rfl

/-- The node of a cookie is freed unless it is the first one. -/
structure Freed (last : Option ℕ) (s s' : SplitState) : Prop where
  header : s'.header = s.header
  cookieHeader : s'.cookieHeader = s.cookieHeader
  freed : s'.freed = s.freed ++ last.toList
  others : ∀ x, x ∉ last.toList → s'.nodes x = s.nodes x
  gone : ∀ x ∈ last.toList, s'.nodes x = none

theorem freeLast_spec {first a : ℕ} {last : Option ℕ} {s : SplitState}
    (hlast : last = none ∨ last = some a ∧ a ≠ first) (hnode : (s.nodes a).isSome) :
    ∃ s', freeLast first s last = some s' ∧ Freed last s s' := by
  rcases hlast with rfl | ⟨rfl, hne⟩
  · exact ⟨s, rfl, rfl, rfl, by simp, fun _ _ => rfl, by simp⟩
  · refine ⟨{ s with nodes := Function.update s.nodes a none, freed := s.freed ++ [a] },
      by rw [freeLast, if_pos hne, free, if_pos hnode], rfl, rfl, rfl, fun x hx => ?_, fun x hx => ?_⟩
    · exact Function.update_of_ne (by simpa using hx) _ _
    · obtain rfl : x = a := by simpa using hx
      exact Function.update_self _ _ _

/-- What a round does with the cookie `r` at `a`. -/
theorem splitRound_spec {first a : ℕ} {last : Option ℕ} {s : SplitState}
    (hlinked : Linked s.nodes (some a) ((a, r) :: cookies)) (hrs : InOrder raw.length (r :: cookies.map Prod.snd))
    (hstart : start ≤ r.lo) (hheader : s.header.length + (r.lo - start) < maxUri)
    (hcookie : s.cookieHeader.length + (r.hi - r.lo) < maxUri) (hlast : last = none ∨ last = some a ∧ a ≠ first) :
    ∃ s', splitRound raw maxUri maxUri first s a last start =
        some (s', cookies.head?.map Prod.fst, r.hi,
          ((cookies.head?.elim raw.length fun c => c.2.lo : ℕ) : ℤ) - r.hi) ∧
      Freed last { s with
        header := s.header ++ (raw.drop start).take (r.lo - start)
        cookieHeader := s.cookieHeader ++ bytesOf raw r } s' ∧
      Linked s'.nodes (cookies.head?.map Prod.fst) cookies := by
  have hnodup := hlinked.nodup
  obtain ⟨-, next, hnode, hrest⟩ := hlinked
  obtain ⟨hle, hin⟩ := hrs.head
  obtain ⟨s', hfree, hfreed⟩ := freeLast_spec (s := { s with
    header := s.header ++ (raw.drop start).take (r.lo - start)
    cookieHeader := s.cookieHeader ++ bytesOf raw r }) hlast (by rw [hnode]; rfl)
  have hrest' : Linked s'.nodes next cookies := by
    refine hrest.congr fun x hx => hfreed.others x fun hmem => ?_
    rcases hlast with rfl | ⟨rfl, -⟩
    · simp at hmem
    · obtain rfl : x = a := by simpa using hmem
      exact (List.nodup_cons.1 hnodup).1 hx
  have hnext : next = cookies.head?.map Prod.fst := by
    cases cookies with
    | nil => exact hrest
    | cons c cookies => exact hrest.1
  have hstop : stretchEnd raw s' next = some (cookies.head?.elim raw.length fun c => c.2.lo) := by
    cases cookies with
    | nil =>
      rw [hnext]
      rfl
    | cons c cookies =>
      obtain ⟨-, next', hnode', -⟩ := hrest'
      rw [hnext]
      simp [stretchEnd, hnode']
  refine ⟨s', ?_, hfreed, hnext ▸ hrest'⟩
  have hcopy := copyOut_fits (show (r.lo : ℤ) - start = (r.lo - start : ℕ) by omega)
    (show start + (r.lo - start) ≤ raw.length by omega) hheader
  have hcopy' := copyOut_fits (show (r.hi : ℤ) - r.lo = (r.hi - r.lo : ℕ) by omega)
    (show r.lo + (r.hi - r.lo) ≤ raw.length by omega) hcookie
  rw [splitRound, hnode]
  simp only [Option.bind_eq_bind, Option.bind_some, hcopy, hcopy']
  rw [show bytesOf raw r = (raw.drop r.lo).take (r.hi - r.lo) from rfl] at hfree
  rw [hfree]
  simp only [Option.bind_some]
  rw [hstop, Option.bind_some, hnext]
  rfl

/-- The ranges behind `start`, and what the loop has done for them. -/
structure Done (raw : List UInt8) (start : ℕ) (rs : List Range) (away : List ℕ) (s s' : SplitState) (stop : ℕ) :
    Prop where
  stop_le : stop ≤ raw.length
  header : s'.header ++ raw.drop stop = s.header ++ outsideFrom rs (raw.drop start) start
  cookieHeader : s'.cookieHeader = s.cookieHeader ++ rs.flatMap (bytesOf raw)
  freed : s'.freed = s.freed ++ away
  gone : ∀ x ∈ away, s'.nodes x = none
  others : ∀ x, x ∉ away → s'.nodes x = s.nodes x

/-- The loop goes through all cookies. -/
theorem splitLoop_spec {first : ℕ} : ∀ {cookies : List (ℕ × Range)} {s : SplitState} {a : ℕ} {r : Range}
    {last : Option ℕ} {start fuel : ℕ}, Linked s.nodes (some a) ((a, r) :: cookies) →
    InOrder raw.length (r :: cookies.map Prod.snd) →
    start ≤ r.lo →
    s.header.length + (outsideFrom (r :: cookies.map Prod.snd) (raw.drop start) start).length < maxUri →
    s.cookieHeader.length + ((r :: cookies.map Prod.snd).flatMap (bytesOf raw)).length < maxUri →
    (last = none ∨ last = some a ∧ a ≠ first) → first ∉ cookies.map Prod.fst → cookies.length < fuel →
    ∃ (s' : SplitState) (stop : ℕ),
      splitLoop raw maxUri maxUri first fuel s a last start = some (s', stop, (raw.length : ℤ) - stop) ∧
      Done raw start (r :: cookies.map Prod.snd) (last.toList ++ cookies.map Prod.fst) s s' stop := by
  intro cookies
  induction cookies with
  | nil =>
    intro s a r last start fuel hlinked hrs hstart hheader hcookie hlast hfirst hfuel
    obtain ⟨fuel, rfl⟩ : ∃ n, fuel = n + 1 := ⟨fuel - 1, by rw [List.length_nil] at hfuel; omega⟩
    have hlen := outsideFrom_cons hrs hstart
    obtain ⟨hle, hin⟩ := hrs.head
    rw [hlen, List.length_append, length_drop_take (by omega)] at hheader
    rw [List.flatMap_cons, List.length_append, hrs.length_bytesOf] at hcookie
    obtain ⟨s', hround, hfreed, -⟩ := splitRound_spec hlinked hrs hstart (by omega) (by omega) hlast
    refine ⟨s', r.hi, by rw [splitLoop, hround]; rfl, hin, ?_, ?_, ?_, ?_, ?_⟩
    · have hlast' : outsideFrom [] (raw.drop r.hi) r.hi = raw.drop r.hi := outsideFrom_before (by simp)
      rw [hlen, hfreed.header, List.map_nil, hlast', List.append_assoc]
    · rw [hfreed.cookieHeader]
      simp
    · rw [hfreed.freed, List.map_nil, List.append_nil]
    · exact fun x hx => hfreed.gone x (by simpa using hx)
    · exact fun x hx => hfreed.others x (by simpa using hx)
  | cons c cookies ih =>
    intro s a r last start fuel hlinked hrs hstart hheader hcookie hlast hfirst hfuel
    obtain ⟨fuel, rfl⟩ : ∃ n, fuel = n + 1 := ⟨fuel - 1, by omega⟩
    have hnodup := hlinked.nodup
    have hlen := outsideFrom_cons hrs hstart
    obtain ⟨hle, hin⟩ := hrs.head
    rw [hlen, List.length_append, length_drop_take (by omega)] at hheader
    rw [List.flatMap_cons, List.length_append, hrs.length_bytesOf] at hcookie
    obtain ⟨s', hround, hfreed, hlinked'⟩ := splitRound_spec hlinked hrs hstart (by omega) (by omega) hlast
    have hheader' : s'.header.length = s.header.length + (r.lo - start) := by
      rw [hfreed.header, List.length_append, length_drop_take (by omega)]
    have hcookie' : s'.cookieHeader.length = s.cookieHeader.length + (r.hi - r.lo) := by
      rw [hfreed.cookieHeader, List.length_append, hrs.length_bytesOf]
    rw [List.map_cons, List.mem_cons, not_or] at hfirst
    obtain ⟨s'', stop, hloop, hdone⟩ := ih hlinked' hrs.tail
      (hrs.after c.2 List.mem_cons_self) (by rw [hheader']; rw [List.map_cons] at hheader; omega)
      (by rw [hcookie']; rw [List.map_cons] at hcookie; omega) (.inr ⟨rfl, Ne.symm hfirst.1⟩) hfirst.2
      (show cookies.length < fuel by rw [List.length_cons] at hfuel; omega)
    have hne : ¬(s'.header.length = maxUri ∨ s'.cookieHeader.length = maxUri) := by
      rw [hheader', hcookie']
      omega
    refine ⟨s'', stop, ?_, hdone.stop_le, ?_, ?_, ?_, ?_, ?_⟩
    · rw [splitLoop, hround]
      simp only [List.head?_cons, Option.map_some, Option.bind_some]
      rw [if_neg hne]
      exact hloop
    · rw [hdone.header, hlen, hfreed.header, List.append_assoc, List.map_cons]
    · rw [hdone.cookieHeader, hfreed.cookieHeader, List.map_cons]
      simp only [List.flatMap_cons, List.append_assoc]
    · rw [hdone.freed, hfreed.freed, List.append_assoc]
      rfl
    · intro x hx
      rcases List.mem_append.1 hx with hx | hx
      · by_cases hx' : x ∈ (some c.1).toList ++ cookies.map Prod.fst
        · exact hdone.gone x hx'
        · rw [hdone.others x hx', hfreed.gone x hx]
      · exact hdone.gone x hx
    · intro x hx
      rw [List.mem_append, not_or] at hx
      rw [hdone.others x hx.2, hfreed.others x hx.1]

/-- **Cookies are split off**: the header gets the bytes outside of the ranges and the cookie header gets the ranges,
all nodes but the first are freed once and no freed node is read. -/
theorem hiSplitHeaderCookie_splits (raw : List UInt8) (nodes : ℕ → Option CookiePtr) (first : ℕ) (r : Range)
    (cookies : List (ℕ × Range)) (fuel : ℕ) (hlinked : Linked nodes (some first) ((first, r) :: cookies))
    (hrs : InOrder raw.length (r :: cookies.map Prod.snd))
    (hheader : (outside (r :: cookies.map Prod.snd) raw).length < maxUri)
    (hcookie : ((r :: cookies.map Prod.snd).flatMap (bytesOf raw)).length < maxUri) (hfuel : cookies.length < fuel) :
    ∃ s, hiSplitHeaderCookie raw fuel maxUri maxUri nodes (some first) = some (.success s) ∧
      s.header = outside (r :: cookies.map Prod.snd) raw ∧
      s.cookieHeader = (r :: cookies.map Prod.snd).flatMap (bytesOf raw) ∧
      s.freed = cookies.map Prod.fst ∧ s.freed.Nodup ∧ first ∉ s.freed ∧ ∀ x ∈ s.freed, s.nodes x = none := by
  obtain ⟨hfirst, hnodup⟩ := List.nodup_cons.1 hlinked.nodup
  obtain ⟨s, stop, hloop, hdone⟩ := splitLoop_spec (s := ⟨[], [], nodes, []⟩) hlinked hrs (Nat.zero_le _)
    (by simpa [outside] using hheader) (by simpa using hcookie) (.inl rfl) hfirst hfuel
  obtain ⟨-, next, hnode, -⟩ := hlinked
  have hkept : s.nodes first = some ⟨some r.lo, some r.hi, next⟩ := by
    rw [← hnode]
    exact hdone.others first (by simpa using hfirst)
  have hall : s.header ++ raw.drop stop = outside (r :: cookies.map Prod.snd) raw := by
    simpa [outside] using hdone.header
  have hbytes : s.cookieHeader = (r :: cookies.map Prod.snd).flatMap (bytesOf raw) := by simpa using hdone.cookieHeader
  have hfreed : s.freed = cookies.map Prod.fst := by simpa using hdone.freed
  have hgone : ∀ x ∈ s.freed, Function.update s.nodes first (some (⟨none, none, none⟩ : CookiePtr)) x = none := by
    intro x hx
    rw [hfreed] at hx
    rw [Function.update_of_ne (ne_of_mem_of_not_mem hx hfirst)]
    exact hdone.gone x (by simpa using hx)
  have hlen : s.header.length + (raw.length - stop) < maxUri := by
    rw [← hall, List.length_append, List.length_drop] at hheader
    exact hheader
  have hstop := hdone.stop_le
  rw [hiSplitHeaderCookie]
  simp only [hnode, Option.bind_eq_bind, Option.bind_some, hloop, hkept]
  rw [if_neg (Nat.not_lt.2 hrs.head.2)]
  by_cases htrail : (raw.length : ℤ) - stop ≠ 0 ∧ stop < raw.length
  · rw [if_pos htrail, copyOut_fits (show (raw.length : ℤ) - stop = (raw.length - stop : ℕ) by omega) (by omega) hlen]
    refine ⟨_, rfl, ?_, hbytes, hfreed, hfreed ▸ hnodup, hfreed ▸ hfirst, hgone⟩
    rw [← hall, List.take_of_length_le (by rw [List.length_drop])]
  · rw [if_neg htrail]
    refine ⟨_, rfl, ?_, hbytes, hfreed, hfreed ▸ hnodup, hfreed ▸ hfirst, hgone⟩
    rw [← hall, List.drop_eq_nil_of_le (by omega), List.append_nil]

/-- `"aXbYYc"` with the cookies `"X"` and `"YY"`. -/
def twoCookies : ℕ → Option CookiePtr
  | 7 => some ⟨some 1, some 2, some 9⟩
  | 9 => some ⟨some 3, some 5, none⟩
  | _ => none

theorem hiSplitHeaderCookie_splits_two :
    ∃ s, hiSplitHeaderCookie [97, 88, 98, 89, 89, 99] 2 maxUri maxUri twoCookies (some 7) = some (.success s) ∧
      s.header = [97, 98, 99] ∧ s.cookieHeader = [88, 89, 89] ∧ s.freed = [9] ∧ s.freed.Nodup ∧ 7 ∉ s.freed ∧
      ∀ x ∈ s.freed, s.nodes x = none :=
  hiSplitHeaderCookie_splits [97, 88, 98, 89, 89, 99] twoCookies 7 ⟨1, 2⟩ [(9, ⟨3, 5⟩)] 2
    ⟨rfl, some 9, rfl, rfl, none, rfl, rfl⟩ ⟨by decide, by decide⟩ (by decide) (by decide) (by decide)

end Snort.HttpInspect.CookieSplit
