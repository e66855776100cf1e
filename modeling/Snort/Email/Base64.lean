import Snort.Email.Calls

/-!
# Base64 text over packets

* `b64Chars`, `groups`: the characters `sf_base64decode` looks at, and what it makes of them in fours;
* **`sfBase64decode_eq`**: it decodes these groups;
* **`base64Decode_eq`**: one call;
* `GroupsWhole`: at no call are characters left over from the last group of four that others follow;
* **`base64_cut`**: then the calls decode what `sf_base64decode` makes of the whole stream.
-/

namespace Snort.Email

open Buffer

/-! ### Groups of four -/

/-- The characters that `sf_base64decode` looks at. -/
def b64Chars (s : List Byte) : List Byte := s.filter fun c => tableval c ≠ 100

/-- What groups of four characters are decoded to. -/
def groups : List Byte → Option (List Byte)
  | a :: b :: c :: d :: cs =>
    if a = chr '=' ∨ b = chr '=' then none
    else if c = chr '=' then some [tableval a <<< 2 ||| tableval b >>> 4]
    else if d = chr '=' then
      some [tableval a <<< 2 ||| tableval b >>> 4, tableval b <<< 4 ||| tableval c >>> 2]
    else (groups cs).map ([tableval a <<< 2 ||| tableval b >>> 4,
      tableval b <<< 4 ||| tableval c >>> 2, tableval c <<< 6 ||| tableval d] ++ ·)
  | _ => some []

theorem b64Chars_append (s t : List Byte) : b64Chars (s ++ t) = b64Chars s ++ b64Chars t :=
  List.filter_append ..

theorem groups_of_length_lt {cs : List Byte} (h : cs.length < 4) : groups cs = some [] := by
  unfold groups
  split
  · simp at h
    omega
  · rfl

/-- A group, in an output buffer with room for it. -/
theorem base64Group_eq (a b c d : Byte) {room : ℕ} (h : 3 ≤ room) :
    base64Group a b c d room =
      if a = chr '=' ∨ b = chr '=' then none
      else if c = chr '=' then some ([tableval a <<< 2 ||| tableval b >>> 4], false)
      else if d = chr '=' then
        some ([tableval a <<< 2 ||| tableval b >>> 4, tableval b <<< 4 ||| tableval c >>> 2], false)
      else some ([tableval a <<< 2 ||| tableval b >>> 4, tableval b <<< 4 ||| tableval c >>> 2,
        tableval c <<< 6 ||| tableval d], true) := by
  unfold base64Group
  by_cases hab : a = chr '=' ∨ b = chr '='
  · rw [if_pos hab, if_pos hab]
  rw [if_neg hab, if_neg hab, if_pos (by omega : 0 < room)]
  by_cases hc : c = chr '='
  · simp [hc]
  by_cases hd : d = chr '='
  · simp [hc, hd, show 1 < room by omega]
  · simp [hc, hd, show 1 < room by omega, show 2 < room by omega]

theorem base64Loop_skip {outbufSize maxChars n : ℕ} {c : Byte} (cs data out : List Byte)
    (hn : n < maxChars) (hc : tableval c = 100) :
    base64Loop outbufSize maxChars (c :: cs) n data out =
      base64Loop outbufSize maxChars cs n data out := by
  rw [base64Loop.eq_def]
  simp only [Nat.not_le.2 hn, hc, if_true, if_false]

theorem base64Loop_store {outbufSize maxChars n : ℕ} {c : Byte} (cs out : List Byte) {data : List Byte}
    (hn : n < maxChars) (hc : tableval c ≠ 100) (hdata : data.length < 3) :
    base64Loop outbufSize maxChars (c :: cs) n data out =
      base64Loop outbufSize maxChars cs (n + 1) (data ++ [c]) out := by
  have hne : ∀ d0 d1 d2 : Byte, data = [d0, d1, d2] → False := by
    rintro d0 d1 d2 rfl
    exact absurd hdata (by simp)
  rw [base64Loop.eq_def]
  simp only [Nat.not_le.2 hn, hc, if_false]

/-- The loop of `sf_base64decode`, with room for what it decodes. -/
theorem base64Loop_eq {outbufSize maxChars : ℕ} {cs data out : List Byte} {n : ℕ}
    (hdata : data.length = n % 4) (hout : out.length = 3 * (n / 4))
    (hmax : maxChars = outbufSize / 3 * 4 + 4)
    (hroom : 3 * ((n + (b64Chars cs).length) / 4) ≤ outbufSize) :
    base64Loop outbufSize maxChars cs n data out =
      (groups (data ++ b64Chars cs)).map (out ++ ·) := by
  induction cs generalizing n data out with
  | nil =>
    rw [show b64Chars [] = [] from rfl, List.append_nil, groups_of_length_lt (by omega), base64Loop,
      Option.map_some, List.append_nil]
  | cons c cs ih =>
    have hn : n < maxChars := by omega
    by_cases hc : tableval c = 100
    · have e : b64Chars (c :: cs) = b64Chars cs := List.filter_cons_of_neg (by simpa using hc)
      rw [e] at hroom ⊢
      rw [base64Loop_skip _ _ _ hn hc]
      exact ih hdata hout hroom
    have e : b64Chars (c :: cs) = c :: b64Chars cs := List.filter_cons_of_pos (by simpa using hc)
    rw [e, List.length_cons] at hroom
    rw [e]
    by_cases h3 : data.length = 3
    · -- the fourth character of a group
      obtain ⟨d0, d1, d2, rfl⟩ := List.length_eq_three.1 h3
      have hgroup := base64Group_eq d0 d1 d2 c (show 3 ≤ outbufSize - out.length by omega)
      rw [List.cons_append, List.cons_append, List.cons_append, List.nil_append, groups,
        base64Loop.eq_def]
      by_cases hab : d0 = chr '=' ∨ d1 = chr '='
      · rw [if_pos hab] at hgroup ⊢
        simp only [Nat.not_le.2 hn, hc, if_false, hgroup]
        rfl
      rw [if_neg hab] at hgroup ⊢
      by_cases h2 : d2 = chr '='
      · rw [if_pos h2] at hgroup ⊢
        simp only [Nat.not_le.2 hn, hc, if_false, hgroup]
        rfl
      rw [if_neg h2] at hgroup ⊢
      by_cases h3 : c = chr '='
      · rw [if_pos h3] at hgroup ⊢
        simp only [Nat.not_le.2 hn, hc, if_false, hgroup]
        rfl
      rw [if_neg h3] at hgroup ⊢
      simp only [Nat.not_le.2 hn, hc, if_false, hgroup]
      rw [ih (by simp; omega) (by simp; omega) (by omega), List.nil_append, Option.map_map]
      apply congrArg (fun f => Option.map f _)
      funext l
      simp
    · rw [base64Loop_store _ _ hn hc (by omega), ih (by simp; omega) (by omega) (by omega),
        List.append_assoc]
      rfl

/-- **`sf_base64decode`**, with room for what it decodes. -/
theorem sfBase64decode_eq {s : List Byte} {outbufSize : ℕ}
    (hroom : 3 * ((b64Chars s).length / 4) ≤ outbufSize) (hwrap : outbufSize / 3 * 4 + 4 < 2 ^ 32) :
    sfBase64decode s outbufSize = groups (b64Chars s) := by
  have hmax : maxBase64Chars outbufSize = outbufSize / 3 * 4 + 4 :=
    CInt.u32_of_eq (by push_cast; rfl) (by omega)
  unfold sfBase64decode
  rw [base64Loop_eq rfl rfl hmax (by simpa using hroom)]
  simp

/-! ### Groups of two parts -/

theorem eq_nil_of_not_four {u : List Byte} (h4 : u.length % 4 = 0)
    (h : ∀ (a b c d : Byte) (cs : List Byte), u = a :: b :: c :: d :: cs → False) : u = [] := by
  rcases u with _ | ⟨a, _ | ⟨b, _ | ⟨c, _ | ⟨d, cs⟩⟩⟩⟩
  · rfl
  · simp at h4
  · simp at h4
  · simp at h4
  · exact (h a b c d cs rfl).elim

/-- **Whole groups without padding** are decoded ahead of what follows. -/
theorem groups_append {u : List Byte} (h4 : u.length % 4 = 0) (hpad : chr '=' ∉ u) :
    ∃ o : List Byte, ∀ v : List Byte, groups (u ++ v) = (groups v).map (o ++ ·) := by
  fun_induction groups u with
  | case1 => simp at hpad; grind
  | case2 => simp at hpad
  | case3 => simp at hpad
  | case4 a b c d cs hab hc hd ih =>
    simp only [List.mem_cons, not_or] at hpad
    obtain ⟨o, ho⟩ := ih (by simp at h4; omega) hpad.2.2.2.2
    refine ⟨[tableval a <<< 2 ||| tableval b >>> 4, tableval b <<< 4 ||| tableval c >>> 2,
      tableval c <<< 6 ||| tableval d] ++ o, fun v => ?_⟩
    rw [List.cons_append, List.cons_append, List.cons_append, List.cons_append, groups, if_neg hab,
      if_neg hc, if_neg hd, ho v, Option.map_map]
    rfl
  | case5 u hu =>
    rw [eq_nil_of_not_four h4 hu]
    refine ⟨[], fun v => ?_⟩
    simp

/-- **Padding in a whole group** is the end of the text. -/
theorem groups_append_of_mem {u : List Byte} (h4 : u.length % 4 = 0) (hpad : chr '=' ∈ u)
    (v : List Byte) : groups (u ++ v) = groups u := by
  fun_induction groups u with
  | case1 a b c d cs hab => simp only [List.cons_append, groups, if_pos hab]
  | case2 a b d cs hab => simp only [List.cons_append, groups, if_neg hab, if_true]
  | case3 a b c cs hab hc => simp only [List.cons_append, groups, if_neg hab, if_neg hc, if_true]
  | case4 a b c d cs hab hc hd ih =>
    have hmem : chr '=' ∈ cs := by
      simp only [List.mem_cons] at hpad
      grind
    simp only [List.cons_append, groups, if_neg hab, if_neg hc, if_neg hd]
    rw [ih (by simp at h4; omega) hmem]
  | case5 u hu =>
    rw [eq_nil_of_not_four h4 hu] at hpad
    cases hpad

/-- There is nothing in a text: fewer than four characters, or only padding. -/
def Silent (cs : List Byte) : Prop := cs.length < 4 ∨ ∀ c ∈ cs, c = chr '='

theorem Silent.of_append {u v : List Byte} (h : Silent (u ++ v)) : Silent u ∧ Silent v := by
  rcases h with h | h
  · rw [List.length_append] at h
    exact ⟨.inl (by omega), .inl (by omega)⟩
  · exact ⟨.inr fun c hc => h c (List.mem_append_left _ hc),
      .inr fun c hc => h c (List.mem_append_right _ hc)⟩

theorem Silent.groups {cs : List Byte} (h : Silent cs) : (groups cs).getD [] = [] := by
  rcases h with h | h
  · rw [groups_of_length_lt h]
    rfl
  · unfold Email.groups
    split
    · rw [if_pos (.inl (h _ List.mem_cons_self))]
      rfl
    · rfl

/-! ### A call -/

theorem sfStripCRLF_eq {s : List Byte} {n : ℕ} (h : s.length ≤ n) :
    sfStripCRLF s n = s.filter fun c => c ≠ chr '\n' ∧ c ≠ chr '\r' := by
  induction s generalizing n with
  | nil => rfl
  | cons c s ih =>
    rw [List.length_cons] at h
    rw [sfStripCRLF, if_neg (by omega)]
    by_cases hc : c ≠ chr '\n' ∧ c ≠ chr '\r'
    · rw [if_pos hc, List.filter_cons_of_pos (by simpa using hc), ih (by omega)]
    · rw [if_neg hc, List.filter_cons_of_neg (by simpa using hc), ih (by omega)]

/-- A packet without its line ends. -/
def withoutCRLF (p : List Byte) : List Byte := sfStripCRLF p p.length

theorem b64Chars_withoutCRLF (p : List Byte) : b64Chars (withoutCRLF p) = b64Chars p := by
  unfold withoutCRLF b64Chars
  rw [sfStripCRLF_eq le_rfl, List.filter_filter]
  apply List.filter_congr
  intro c _
  by_cases h : c = chr '\n' ∨ c = chr '\r'
  · rcases h with rfl | rfl <;> rfl
  · rw [not_or] at h
    simp [h.1, h.2]

/-- The bytes that a call decodes, of those in the encode buffer. -/
def b64Ready (buf : List Byte) : List Byte := buf.take (buf.length / 4 * 4)

/-- The bytes that a call leaves. -/
def b64Left (buf : List Byte) : List Byte := buf.drop (buf.length / 4 * 4)

theorem b64Ready_append_b64Left (buf : List Byte) : b64Ready buf ++ b64Left buf = buf :=
  List.take_append_drop ..

/-- Neither depth is exhausted by a call: there is none, or the packet is copied as a whole and what it
is decoded to fits the decode depth, an `int`. -/
def B64Room (p : List Byte) (ds : EmailDecodeState) : Prop :=
  ds.b64State.encodeDepth = 0 ∨
    0 < ds.b64State.encodeDepth ∧
    (carry ds).length < ds.b64State.encodeAvail ∧
    sfStripCRLF p (ds.b64State.encodeAvail - (carry ds).length) = withoutCRLF p ∧
    3 * ((carry ds ++ withoutCRLF p).length / 4) ≤ ds.b64State.decodeAvail ∧
    0 < ds.b64State.decodeAvail ∧ ds.b64State.decodeAvail < 2 ^ 31

instance (p : List Byte) (ds : EmailDecodeState) : Decidable (B64Room p ds) :=
  inferInstanceAs (Decidable (_ ∨ _))

/-- **One call.** -/
theorem base64Decode_eq {p : List Byte} {ds : EmailDecodeState} (hp : Packet p) (hplaced : Placed ds)
    (hcarry : (carry ds).length ≤ 3) (hroom : B64Room p ds) :
    (groups (b64Chars (b64Ready (carry ds ++ withoutCRLF p))) = none ∧
      ∃ ds' : EmailDecodeState, base64Decode p ds = (false, ds') ∧ Placed ds' ∧ carry ds' = []) ∨
    ∃ (out : List Byte) (ds' : EmailDecodeState),
      groups (b64Chars (b64Ready (carry ds ++ withoutCRLF p))) = some out ∧
      base64Decode p ds = (true, ds') ∧ Placed ds' ∧ ds'.decoded = out ∧
      carry ds' = b64Left (carry ds ++ withoutCRLF p) := by
  obtain ⟨hne, hlen⟩ := hp
  have hle : (withoutCRLF p).length ≤ p.length := by
    unfold withoutCRLF
    rw [sfStripCRLF_eq le_rfl]
    exact List.length_filter_le ..
  have hdepth : ¬ds.b64State.encodeDepth < 0 ∧ (carry ds).length < ds.b64State.encodeAvail ∧
      sfStripCRLF p (ds.b64State.encodeAvail - (carry ds).length) = withoutCRLF p ∧
      3 * ((carry ds ++ withoutCRLF p).length / 4) ≤ ds.b64State.decodeAvail ∧
      0 < ds.b64State.decodeAvail ∧ ds.b64State.decodeAvail < 2 ^ 31 := by
    rcases hroom with h0 | ⟨hpos, h1, h2, h3, h4, h5⟩
    · rw [DecodeState.encodeAvail, DecodeState.decodeAvail, if_pos h0, if_pos h0, List.length_append]
      unfold maxBuf at hlen ⊢
      refine ⟨by omega, by omega, ?_, by omega, by omega, by omega⟩
      rw [sfStripCRLF_eq (by omega)]
      exact (sfStripCRLF_eq le_rfl).symm
    · exact ⟨by omega, h1, h2, h3, h4, h5⟩
  obtain ⟨hneg, havail, hcopy, hdec, hdec0, hdec1⟩ := hdepth
  obtain ⟨buf, hload, hbuf⟩ := loadPrev_eq hplaced havail.le
  have hbuf' := hbuf (withoutCRLF p)
  generalize hb : carry ds ++ withoutCRLF p = b at hbuf' hdec ⊢
  have hsize : (withoutCRLF p).length + (carry ds).length = b.length := by
    rw [← hb, List.length_append, Nat.add_comm]
  rw [hsize] at hbuf'
  have hact : b.length - b.length % 4 = b.length / 4 * 4 := by omega
  have hready : readBuf (write buf (carry ds).length (withoutCRLF p)) 0 (b.length / 4 * 4) =
      b64Ready b := by
    have h := take_readBuf (write buf (carry ds).length (withoutCRLF p)) 0
      (show b.length / 4 * 4 ≤ b.length by omega)
    rw [← h, hbuf']
    rfl
  have hchars : (b64Chars (b64Ready b)).length ≤ b.length :=
    (List.length_filter_le ..).trans (List.length_take_le' ..)
  have hgroups : sfBase64decode (b64Ready b) ds.b64State.decodeAvail =
      groups (b64Chars (b64Ready b)) :=
    sfBase64decode_eq (by omega) (by omega)
  unfold base64Decode
  rw [if_neg hneg, if_neg (by omega)]
  simp only [hload, hcopy, hsize, hact, hready, hgroups]
  cases hg : groups (b64Chars (b64Ready b)) with
  | none => exact .inl ⟨rfl, _, rfl, placed_reset _, carry_reset _⟩
  | some out =>
    refine .inr ⟨out, ?_⟩
    simp only
    rw [if_neg (by omega)]
    have hlt : b.length % 4 = 0 ↔ ¬b.length / 4 * 4 < b.length := by omega
    have hmod : b.length % 4 = b.length - b.length / 4 * 4 := by omega
    simp only [hlt, ite_not]
    simp only [hmod]
    refine ⟨_, trivial, rfl, ?_⟩
    obtain ⟨h1, h2⟩ := @carry_of_read ⟨_, _, _, _, _, _, _, _, _, _, _⟩ b.length (b.length / 4 * 4)
      ds.prevEncodedBuf (b64Ready b) (b64Left b) (hbuf'.trans (b64Ready_append_b64Left b).symm)
      (by rw [b64Ready, List.length_take]; omega) rfl rfl
    exact ⟨h1, rfl, h2⟩

/-! ### Runs -/

theorem length_b64Left (buf : List Byte) : (b64Left buf).length ≤ 3 := by
  rw [b64Left, List.length_drop]
  omega

theorem b64Chars_call (left p : List Byte) (rest : List Byte) :
    b64Chars (left ++ (p ++ rest)) = b64Chars (b64Ready (left ++ withoutCRLF p)) ++
      b64Chars (b64Left (left ++ withoutCRLF p) ++ rest) := by
  have e := congrArg b64Chars (b64Ready_append_b64Left (left ++ withoutCRLF p))
  simp only [b64Chars_append, b64Chars_withoutCRLF] at e ⊢
  rw [← List.append_assoc, ← List.append_assoc, e]

/-- Where only silence is left, nothing more is decoded. -/
theorem base64_silent {ps : List (List Byte)} {ds : EmailDecodeState} (hps : ∀ p ∈ ps, Packet p)
    (hplaced : Placed ds) (hcarry : (carry ds).length ≤ 3) (hroom : Along base64Decode B64Room ps ds)
    (h : Silent (b64Chars (carry ds ++ ps.flatten))) : (decodeAll base64Decode ps ds).1 = [] := by
  induction ps generalizing ds with
  | nil => rfl
  | cons p ps ih =>
    have hps' : ∀ p ∈ ps, Packet p := fun p' hp' => hps p' (List.mem_cons_of_mem _ hp')
    rw [List.flatten_cons, b64Chars_call] at h
    obtain ⟨hready, hleft⟩ := h.of_append
    rcases base64Decode_eq (hps p List.mem_cons_self) hplaced hcarry hroom.1 with
      ⟨-, ds', hcall, hplaced', hleft'⟩ | ⟨out, ds', hout, hcall, hplaced', hdec, hleft'⟩
    · have hroom' : Along base64Decode B64Room ps ds' := by
        have h := hroom.2
        rw [hcall] at h
        exact h
      rw [b64Chars_append] at hleft
      have hrest := ih hps' hplaced' (by simp [hleft']) hroom' (by
        rw [hleft', List.nil_append]
        exact hleft.of_append.2)
      rw [decodeAll, hcall, hrest]
      rfl
    · have hroom' : Along base64Decode B64Room ps ds' := by
        have h := hroom.2
        rw [hcall] at h
        exact h
      have hnil : out = [] := by
        have := hready.groups
        rwa [hout] at this
      have hrest := ih hps' hplaced' (hleft' ▸ length_b64Left _) hroom' (hleft' ▸ hleft)
      rw [decodeAll, hcall, hrest, hdec, hnil]
      rfl

/-- No characters are left over from the groups of four in `u`, but for padding, unless what is left
over makes up no group with what follows, `v`. -/
def NoneLost (u v : List Byte) : Prop :=
  (∀ c ∈ u.drop (u.length / 4 * 4), c = chr '=') ∨ (u.drop (u.length / 4 * 4)).length + v.length < 4

/-- At no call are characters lost; `left` is what the last call has left. -/
def GroupsWhole (left : List Byte) : List (List Byte) → Prop
  | [] => True
  | p :: ps =>
    NoneLost (b64Chars (b64Ready (left ++ withoutCRLF p)))
      (b64Chars (b64Left (left ++ withoutCRLF p) ++ ps.flatten)) ∧
    GroupsWhole (b64Left (left ++ withoutCRLF p)) ps

/-- Padding only at the end. -/
def PaddingLast (cs : List Byte) : Prop := cs.Pairwise fun a b => a = chr '=' → b = chr '='

instance (u v : List Byte) : Decidable (NoneLost u v) := inferInstanceAs (Decidable (_ ∨ _))

instance decidableGroupsWhole :
    (left : List Byte) → (ps : List (List Byte)) → Decidable (GroupsWhole left ps)
  | _, [] => isTrue trivial
  | left, p :: ps =>
    have := decidableGroupsWhole (b64Left (left ++ withoutCRLF p)) ps
    inferInstanceAs (Decidable (_ ∧ _))

instance (cs : List Byte) : Decidable (PaddingLast cs) := inferInstanceAs (Decidable (List.Pairwise _ cs))

theorem base64_run {ps : List (List Byte)} {ds : EmailDecodeState} {out : List Byte}
    (hps : ∀ p ∈ ps, Packet p) (hplaced : Placed ds) (hcarry : (carry ds).length ≤ 3)
    (hroom : Along base64Decode B64Room ps ds)
    (hpad : PaddingLast (b64Chars (carry ds ++ ps.flatten))) (hwhole : GroupsWhole (carry ds) ps)
    (hout : groups (b64Chars (carry ds ++ ps.flatten)) = some out) :
    (decodeAll base64Decode ps ds).1 = out := by
  induction ps generalizing ds out with
  | nil =>
    have hlen : (b64Chars (carry ds ++ [].flatten)).length < 4 := by
      refine lt_of_le_of_lt (List.length_filter_le ..) ?_
      simp
      omega
    rw [groups_of_length_lt hlen] at hout
    exact Option.some.inj hout
  | cons p ps ih =>
    have hps' : ∀ p ∈ ps, Packet p := fun p' hp' => hps p' (List.mem_cons_of_mem _ hp')
    rw [List.flatten_cons, b64Chars_call] at hpad hout
    obtain ⟨hlost, hwhole'⟩ := hwhole
    have hcall := base64Decode_eq (hps p List.mem_cons_self) hplaced hcarry hroom.1
    generalize b64Chars (b64Ready (carry ds ++ withoutCRLF p)) = u at hpad hout hlost hcall
    have hroom' : ∀ (r : Bool) (ds' : EmailDecodeState), base64Decode p ds = (r, ds') →
        Along base64Decode B64Room ps ds' := by
      intro r ds' hds'
      have h := hroom.2
      rw [hds'] at h
      exact h
    -- `u` in whole groups, and what is left over from them
    obtain ⟨u4, lost, hu, hu4, hlost4, hloste⟩ : ∃ u4 lost : List Byte, u = u4 ++ lost ∧
        u4.length % 4 = 0 ∧ lost.length < 4 ∧ lost = u.drop (u.length / 4 * 4) := by
      refine ⟨u.take (u.length / 4 * 4), _, (List.take_append_drop _ _).symm, ?_, ?_, rfl⟩
      · rw [List.length_take]
        omega
      · rw [List.length_drop]
        omega
    rw [NoneLost, ← hloste] at hlost
    have hpad' : ∀ x ∈ u, x = chr '=' →
        ∀ c ∈ b64Chars (b64Left (carry ds ++ withoutCRLF p) ++ ps.flatten), c = chr '=' :=
      fun x hx he c hc => (List.pairwise_append.1 hpad).2.2 x hx c hc he
    by_cases hmem : chr '=' ∈ u4
    · -- the padding is in a whole group: it is the end of the text
      have hgu : groups u = some out := by
        rw [hu, groups_append_of_mem hu4 hmem]
        rw [hu, List.append_assoc, groups_append_of_mem hu4 hmem] at hout
        exact hout
      rcases hcall with ⟨hnone, -⟩ | ⟨out', ds', hout', hds', hplaced', hdec, hleft⟩
      · rw [hgu] at hnone
        cases hnone
      · have hsilent : Silent (b64Chars (carry ds' ++ ps.flatten)) := by
          rw [hleft]
          exact .inr (hpad' _ (hu ▸ List.mem_append_left _ hmem) rfl)
        have hrest := base64_silent hps' hplaced' (hleft ▸ length_b64Left _) (hroom' _ _ hds') hsilent
        rw [hgu] at hout'
        rw [decodeAll, hds', hrest, hdec, ← Option.some.inj hout']
        exact List.append_nil _
    · obtain ⟨o, ho⟩ := groups_append hu4 hmem
      have hgu : groups u = some o := by
        rw [hu, ho, groups_of_length_lt hlost4, Option.map_some, List.append_nil]
      rw [hu, List.append_assoc, ho, Option.map_eq_some_iff] at hout
      obtain ⟨out', hout', rfl⟩ := hout
      rcases hcall with ⟨hnone, -⟩ | ⟨o', ds', ho', hds', hplaced', hdec, hleft⟩
      · rw [hgu] at hnone
        cases hnone
      rw [hgu] at ho'
      have hrest : (decodeAll base64Decode ps ds').1 = out' := by
        rw [← hleft] at hout' hlost hpad' hwhole'
        have hcarry' : (carry ds').length ≤ 3 := hleft ▸ length_b64Left _
        have hquiet : Silent (lost ++ b64Chars (carry ds' ++ ps.flatten)) →
            (decodeAll base64Decode ps ds').1 = out' := by
          intro hs
          have hnil := hs.groups
          rw [hout'] at hnil
          rw [base64_silent hps' hplaced' hcarry' (hroom' _ _ hds') hs.of_append.2]
          exact hnil.symm
        rcases hlost with hlost | hlost
        · rcases lost with _ | ⟨x, lost⟩
          · have hpad'' : PaddingLast (b64Chars (carry ds' ++ ps.flatten)) := by
              rw [hleft]
              exact (List.pairwise_append.1 hpad).2.1
            exact ih hps' hplaced' hcarry' (hroom' _ _ hds') hpad'' hwhole' hout'
          · have hx : x ∈ u := hu ▸ List.mem_append_right _ List.mem_cons_self
            apply hquiet
            refine .inr fun c hc => ?_
            rcases List.mem_append.1 hc with hc | hc
            · exact hlost c hc
            · exact hpad' x hx (hlost x List.mem_cons_self) c hc
        · exact hquiet (.inl (by rw [List.length_append]; exact hlost))
      rw [decodeAll, hds', hrest, hdec, ← Option.some.inj ho']
      rfl

/-- **Packet boundaries in base64 text.**  Where at no call characters are left over from the last group
of four, the calls decode what `sf_base64decode` makes of the whole stream. -/
theorem base64_cut (ps : List (List Byte)) (ds : EmailDecodeState) (outbufSize : ℕ) (out : List Byte)
    (hps : ∀ p ∈ ps, Packet p) (hds : ds.prevEncodedBytes = 0)
    (hroom : Along base64Decode B64Room ps ds) (hpad : PaddingLast (b64Chars ps.flatten))
    (hwhole : GroupsWhole [] ps) (hsize : 3 * (ps.flatten.length / 4) ≤ outbufSize)
    (hwrap : outbufSize / 3 * 4 + 4 < 2 ^ 32) (hout : sfBase64decode ps.flatten outbufSize = some out) :
    (decodeAll base64Decode ps ds).1 = out := by
  have hc : carry ds = [] := carry_of_zero hds
  have hle : (b64Chars ps.flatten).length ≤ ps.flatten.length := List.length_filter_le ..
  rw [sfBase64decode_eq (by omega) hwrap] at hout
  exact base64_run hps (placed_of_zero hds) (by simp [hc]) hroom (by rw [hc]; exact hpad)
    (by rw [hc]; exact hwhole) (by rw [hc]; exact hout)

theorem base64_cut_letters :
    (decodeAll base64Decode [bytes "QUJD\r\nRE", bytes "VGRw=="]
      (setEmailDecodeState (fun _ => 0) 64 0 0)).1 = bytes "ABCDEFG" :=
  base64_cut [bytes "QUJD\r\nRE", bytes "VGRw=="] (setEmailDecodeState (fun _ => 0) 64 0 0) 100
    (bytes "ABCDEFG") (by decide) rfl (by decide +kernel) (by decide +kernel) (by decide +kernel)
    (by decide) (by decide) (by decide +kernel)

/-- A blank in front of the second group takes the place of its last character. -/
theorem base64_cut_blank :
    (∀ p ∈ [bytes "QUJD RE", bytes "VG"], Packet p) ∧
    Along base64Decode B64Room [bytes "QUJD RE", bytes "VG"]
      (setEmailDecodeState (fun _ => 0) 0 0 0) ∧
    PaddingLast (b64Chars (bytes "QUJD REVG")) ∧
    sfBase64decode (bytes "QUJD REVG") 100 = some (bytes "ABCDEF") ∧
    (decodeAll base64Decode [bytes "QUJD RE", bytes "VG"]
      (setEmailDecodeState (fun _ => 0) 0 0 0)).1 = bytes "ABC" := by
  decide +kernel

end Snort.Email
