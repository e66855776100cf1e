import Snort.Tag.Model

/-!
# How long a session stays tagged

* `Limit`: a limit that was requested, and what is left of it;
* `Lifetime`: a packet is logged within the limit, and the node leaves with the last one;
* `Agrees`: the counters of a node and the limits requested for it;
* **`lifetimeAlong_iff`**: tags live as long as requested, exactly if no packet comes too late for a tag with seconds.
-/

namespace Snort.Tag

open CInt

variable {Ip : Type*}

/-! ### Limits -/

/-- What is left of a limit. -/
inductive Limit
  | packets (left : ℕ)
  | bytes (left : ℕ)
  | deadline (time : ℕ)
  deriving DecidableEq

/-- A packet is within a limit. -/
def Limit.within (p : Packet Ip) : Limit → Prop
  | .packets left => 0 < left
  | .bytes left => 0 < left
  | .deadline time => p.sec ≤ time

/-- A packet uses a limit. -/
def Limit.pass (p : Packet Ip) : Limit → Limit
  | .packets left => .packets (left - 1)
  | .bytes left => .bytes (left - p.ipLen)
  | .deadline time => .deadline time

/-- Nothing is left of a limit behind a packet. -/
def Limit.spent (p : Packet Ip) : Limit → Prop
  | .packets left => left = 0
  | .bytes left => left = 0
  | .deadline time => time < p.sec

/-- The tag has exactly one limited metric. -/
inductive Limited : TagData → Prop
  | seconds {s n b : ℤ} (h : 1 ≤ s) : Limited ⟨s, n, b, ⟨true, false, false, false⟩⟩
  | packets {s n b : ℤ} (h : 1 ≤ n) : Limited ⟨s, n, b, ⟨false, true, false, false⟩⟩
  | bytes {s n b : ℤ} (h : 1 ≤ b) : Limited ⟨s, n, b, ⟨false, false, true, false⟩⟩

/-- The limit that a tag requests. -/
def limitOf (p : Packet Ip) (tag : TagData) : Limit :=
  if tag.tagMetric.packets then .packets tag.tagPackets.toNat
  else if tag.tagMetric.bytes then .bytes tag.tagBytes.toNat
  else .deadline (p.sec + tag.tagSeconds.toNat)

variable {p : Packet Ip} {n : TagNode} {ls : List Limit} {l : Limit} {tag : TagData} {id : ℕ}

theorem Limit.spent_pass (h : ¬l.within p) : (l.pass p).spent p := by
  cases l with
  | packets left =>
    obtain rfl := Nat.eq_zero_of_not_pos h
    rfl
  | bytes left =>
    obtain rfl := Nat.eq_zero_of_not_pos h
    exact Nat.zero_sub _
  | deadline time => exact not_le.1 h

/-! ### A node -/

/-- The counters of a node are what is left of its first limit. -/
def AgreesFirst (n : TagNode) : Limit → Prop
  | .packets left =>
    n.metric = ⟨false, true, false, false⟩ ∧ n.packets = left ∧ n.bytes = 0 ∧ (left = 0 → n.seconds ≠ 0)
  | .bytes left =>
    n.metric = ⟨false, false, true, false⟩ ∧ n.packets = 0 ∧ n.bytes = left ∧ (left = 0 → n.seconds ≠ 0)
  | .deadline _ => n.metric = ⟨true, false, false, false⟩ ∧ n.packets = 0 ∧ n.bytes = 0 ∧ n.seconds ≠ 0

/-- The counters of a node and the limits requested for it. -/
structure Agrees (n : TagNode) (ls : List Limit) : Prop where
  first : ∃ l ∈ ls.head?, AgreesFirst n l
  seconds : n.seconds ≠ 0 → ∃ time, Limit.deadline time ∈ ls ∧ n.seconds = time
  range : 0 ≤ n.seconds ∧ n.seconds < 2 ^ 31

/-- A packet for a node is logged within the limit, and the node leaves with the last limit. -/
def LifetimeOf (p : Packet Ip) (ls : List Limit) (r : Option TagNode × Option EventRef) : Prop :=
  (∀ l, ls = [l] → (r.2.isSome ↔ l.within p) ∧ (r.1 = none ↔ (l.pass p).spent p)) ∧
    ((∀ l ∈ ls, ¬l.within p) → r.2 = none) ∧ ((∀ l ∈ ls, (l.pass p).spent p) → r.1 = none)

/-- No packet comes too late for a tag that counts seconds, or that seconds were requested for. -/
def SoundFor (p : Packet Ip) (n : TagNode) (ls : List Limit) : Prop :=
  (n.metric.seconds = true → (p.sec : ℤ) ≤ n.seconds ∨ ∃ l ∈ ls, l.within p) ∧
    (n.metric.seconds = false → n.seconds ≠ 0 → ∃ l ∈ ls, ¬(l.pass p).spent p)

theorem touch_packets {left : ℕ} (h : AgreesFirst n (.packets left)) :
    touch 0 p n =
      (if left ≤ 1 ∧ n.seconds = 0 then none else some (countPacket p n),
        if 0 < left then some ⟨n.eventId, n.eventTime⟩ else none) ∧
      (countPacket p n).packets = (left - 1 : ℕ) ∧ (countPacket p n).bytes = 0 ∧
      (countPacket p n).seconds = n.seconds := by
  obtain ⟨hmetric, hpackets, hbytes, -⟩ := h
  have hcount : (countPacket p n).packets = (left - 1 : ℕ) ∧ (countPacket p n).bytes = 0 ∧
      (countPacket p n).seconds = n.seconds := by
    simp only [countPacket, hmetric, hpackets, hbytes, Bool.false_eq_true, false_and, if_false, if_true,
      and_true]
    split <;> omega
  refine ⟨Prod.ext ?_ ?_, hcount⟩
  · simp only [touch, hcount, true_and]
    refine if_congr ?_ rfl rfl
    omega
  · simp only [touch, createEvent, hmetric, hpackets]
    refine if_congr ?_ rfl rfl
    simp

theorem touch_bytes {left : ℕ} (h : AgreesFirst n (.bytes left)) :
    touch 0 p n =
      (if left ≤ p.ipLen ∧ n.seconds = 0 then none else some (countPacket p n),
        some ⟨n.eventId, n.eventTime⟩) ∧
      (countPacket p n).packets = 0 ∧ (countPacket p n).bytes = (left - p.ipLen : ℕ) ∧
      (countPacket p n).seconds = n.seconds := by
  obtain ⟨hmetric, hpackets, hbytes, -⟩ := h
  have hcount : (countPacket p n).packets = 0 ∧ (countPacket p n).bytes = (left - p.ipLen : ℕ) ∧
      (countPacket p n).seconds = n.seconds := by
    simp only [countPacket, hmetric, hpackets, hbytes, Bool.false_eq_true, false_and, if_false, if_true,
      and_true, true_and]
    split <;> omega
  refine ⟨Prod.ext ?_ ?_, hcount⟩
  · simp only [touch, hcount, true_and]
    refine if_congr ?_ rfl rfl
    omega
  · simp [touch, createEvent, hmetric]

theorem touch_deadline {time : ℕ} (h : AgreesFirst n (.deadline time)) :
    touch 0 p n =
      (if n.seconds < p.sec then none else some (countPacket p n), some ⟨n.eventId, n.eventTime⟩) ∧
      (countPacket p n).packets = 0 ∧ (countPacket p n).bytes = 0 ∧
      (countPacket p n).seconds = if n.seconds < p.sec then 0 else n.seconds := by
  obtain ⟨hmetric, hpackets, hbytes, hseconds⟩ := h
  have hcount : (countPacket p n).packets = 0 ∧ (countPacket p n).bytes = 0 ∧
      (countPacket p n).seconds = if n.seconds < p.sec then 0 else n.seconds := by
    simp only [countPacket, hmetric, hpackets, hbytes, Bool.false_eq_true, if_false, true_and, and_self]
  refine ⟨Prod.ext ?_ ?_, hcount⟩
  · simp only [touch, hcount, true_and]
    refine if_congr ?_ rfl rfl
    split <;> simp_all
  · simp [touch, createEvent, hmetric]

/-- A packet uses the limits of a node that stays. -/
theorem Agrees.touch (h : Agrees n ls) : ∀ n' ∈ (touch 0 p n).1, Agrees n' (ls.map (Limit.pass p)) := by
  obtain ⟨⟨l, hl, hfirst⟩, hseconds, hrange⟩ := h
  have hhead : l.pass p ∈ (ls.map (Limit.pass p)).head? := by
    rw [List.head?_map]
    exact Option.mem_map_of_mem _ hl
  have hkept : (countPacket p n).seconds = n.seconds → (countPacket p n).seconds ≠ 0 →
      ∃ time, Limit.deadline time ∈ ls.map (Limit.pass p) ∧ (countPacket p n).seconds = time := by
    intro hsame hne
    rw [hsame] at hne ⊢
    obtain ⟨time, hmem, heq⟩ := hseconds hne
    exact ⟨time, List.mem_map_of_mem (f := Limit.pass p) hmem, heq⟩
  intro n' hn'
  cases l with
  | packets left =>
    obtain ⟨htouch, hpackets, hbytes, hsame⟩ := @touch_packets _ p n left hfirst
    rw [htouch] at hn'
    obtain ⟨hstays, hn'⟩ := Option.ite_none_left_eq_some.1 hn'
    obtain rfl := Option.some.inj hn'
    refine ⟨⟨_, hhead, hfirst.1, hpackets, hbytes, fun hleft => ?_⟩, hkept hsame, hsame ▸ hrange⟩
    rw [hsame]
    exact fun hzero => hstays ⟨by omega, hzero⟩
  | bytes left =>
    obtain ⟨htouch, hpackets, hbytes, hsame⟩ := @touch_bytes _ p n left hfirst
    rw [htouch] at hn'
    obtain ⟨hstays, hn'⟩ := Option.ite_none_left_eq_some.1 hn'
    obtain rfl := Option.some.inj hn'
    refine ⟨⟨_, hhead, hfirst.1, hpackets, hbytes, fun hleft => ?_⟩, hkept hsame, hsame ▸ hrange⟩
    rw [hsame]
    exact fun hzero => hstays ⟨by omega, hzero⟩
  | deadline time =>
    obtain ⟨htouch, hpackets, hbytes, hsame⟩ := @touch_deadline _ p n time hfirst
    rw [htouch] at hn'
    obtain ⟨hstays, hn'⟩ := Option.ite_none_left_eq_some.1 hn'
    obtain rfl := Option.some.inj hn'
    rw [if_neg hstays] at hsame
    refine ⟨⟨_, hhead, hfirst.1, hpackets, hbytes, ?_⟩, hkept hsame, hsame ▸ hrange⟩
    rw [hsame]
    exact hfirst.2.2.2

theorem lifetime_packets_iff {left : ℕ} (h : Agrees n ls) (hl : Limit.packets left ∈ ls.head?)
    (hfirst : AgreesFirst n (.packets left)) : LifetimeOf p ls (touch 0 p n) ↔ SoundFor p n ls := by
  obtain ⟨htouch, -⟩ := @touch_packets _ p n left hfirst
  have hmem := List.mem_of_mem_head? hl
  have hmetric : n.metric.seconds = false := by rw [hfirst.1]
  rw [htouch]
  constructor
  · rintro ⟨-, -, hleaves⟩
    refine ⟨fun h' => absurd (hmetric.symm.trans h') Bool.noConfusion, fun _ hne => ?_⟩
    by_contra hno
    push Not at hno
    have hnone := hleaves hno
    rw [if_neg fun h' => hne h'.2] at hnone
    exact absurd hnone (Option.some_ne_none _)
  · rintro ⟨-, hsound⟩
    refine ⟨fun l hls => ?_, fun hno => ?_, fun hspent => ?_⟩
    · subst hls
      obtain rfl : l = .packets left := Option.some.inj hl
      have hzero : n.seconds = 0 := by
        by_contra hne
        obtain ⟨time, htime, -⟩ := h.seconds hne
        exact absurd (List.mem_singleton.1 htime) Limit.noConfusion
      constructor
      · by_cases hleft : 0 < left <;> simp [hleft, Limit.within]
      · simp only [hzero, and_true, ite_eq_left_iff, reduceCtorEq, imp_false, not_not, Limit.pass, Limit.spent]
        omega
    · exact if_neg (hno _ hmem)
    · have hzero : n.seconds = 0 := by
        by_contra hne
        obtain ⟨l, hl, hnot⟩ := hsound hmetric hne
        exact hnot (hspent l hl)
      have hleft : left - 1 = 0 := hspent _ hmem
      exact if_pos ⟨by omega, hzero⟩

theorem lifetime_bytes_iff {left : ℕ} (h : Agrees n ls) (hl : Limit.bytes left ∈ ls.head?)
    (hfirst : AgreesFirst n (.bytes left)) : LifetimeOf p ls (touch 0 p n) ↔ SoundFor p n ls := by
  obtain ⟨htouch, -⟩ := @touch_bytes _ p n left hfirst
  have hmem := List.mem_of_mem_head? hl
  have hmetric : n.metric.seconds = false := by rw [hfirst.1]
  rw [htouch]
  constructor
  · rintro ⟨-, -, hleaves⟩
    refine ⟨fun h' => absurd (hmetric.symm.trans h') Bool.noConfusion, fun _ hne => ?_⟩
    by_contra hno
    push Not at hno
    have hnone := hleaves hno
    rw [if_neg fun h' => hne h'.2] at hnone
    exact absurd hnone (Option.some_ne_none _)
  · rintro ⟨-, hsound⟩
    have hzero_of : (∀ l ∈ ls, (l.pass p).spent p) → n.seconds = 0 := by
      intro hspent
      by_contra hne
      obtain ⟨l, hl, hnot⟩ := hsound hmetric hne
      exact hnot (hspent l hl)
    refine ⟨fun l hls => ?_, fun hno => ?_, fun hspent => ?_⟩
    · subst hls
      obtain rfl : l = .bytes left := Option.some.inj hl
      have hzero : n.seconds = 0 := by
        by_contra hne
        obtain ⟨time, htime, -⟩ := h.seconds hne
        exact absurd (List.mem_singleton.1 htime) Limit.noConfusion
      have hpos : 0 < left := Nat.pos_of_ne_zero fun h' => hfirst.2.2.2 h' hzero
      constructor
      · simpa [Limit.within] using hpos
      · simp only [hzero, and_true, ite_eq_left_iff, reduceCtorEq, imp_false, not_not, Limit.pass, Limit.spent]
        omega
    · -- without bytes left there is a limit in seconds
      have hzero := hzero_of fun l hl => Limit.spent_pass (hno l hl)
      exact absurd hzero (hfirst.2.2.2 (Nat.eq_zero_of_not_pos (hno _ hmem)))
    · have hleft : left - p.ipLen = 0 := hspent _ hmem
      exact if_pos ⟨by omega, hzero_of hspent⟩

theorem lifetime_deadline_iff {first : ℕ} (h : Agrees n ls) (hl : Limit.deadline first ∈ ls.head?)
    (hfirst : AgreesFirst n (.deadline first)) : LifetimeOf p ls (touch 0 p n) ↔ SoundFor p n ls := by
  obtain ⟨htouch, -⟩ := @touch_deadline _ p n first hfirst
  have hmetric : n.metric.seconds = true := by rw [hfirst.1]
  obtain ⟨time, htime, heq⟩ := h.seconds hfirst.2.2.2
  rw [htouch]
  constructor
  · rintro ⟨-, hlogs, -⟩
    refine ⟨fun _ => ?_, fun h' => absurd (hmetric.symm.trans h') Bool.noConfusion⟩
    by_contra hno
    push Not at hno
    exact absurd (hlogs hno.2) (Option.some_ne_none _)
  · rintro ⟨hsound, -⟩
    refine ⟨fun l hls => ?_, fun hno => ?_, fun hspent => ?_⟩
    · subst hls
      obtain rfl : Limit.deadline time = l := List.mem_singleton.1 htime
      have hwithin : p.sec ≤ time := by
        rcases hsound hmetric with hle | ⟨l, hl, hle⟩
        · omega
        · rw [List.mem_singleton] at hl
          subst hl
          exact hle
      have hstays : ¬n.seconds < p.sec := by omega
      rw [if_neg hstays]
      exact ⟨iff_of_true rfl hwithin, iff_of_false (Option.some_ne_none _) (not_lt.2 hwithin)⟩
    · rcases hsound hmetric with hle | ⟨l, hl, hle⟩
      · exact absurd (show p.sec ≤ time by omega) (hno _ htime)
      · exact absurd hle (hno l hl)
    · have hlate : time < p.sec := hspent _ htime
      exact if_pos (by omega)

/-- **A packet for a node.** -/
theorem lifetime_iff (h : Agrees n ls) : LifetimeOf p ls (Tag.touch 0 p n) ↔ SoundFor p n ls := by
  obtain ⟨l, hl, hfirst⟩ := h.first
  cases l with
  | packets left => exact lifetime_packets_iff h hl hfirst
  | bytes left => exact lifetime_bytes_iff h hl hfirst
  | deadline time => exact lifetime_deadline_iff h hl hfirst

/-! ### Tags that are set -/

/-- The expiration time is one in 32 bits. -/
def Fits (p : Packet Ip) (tag : TagData) : Prop :=
  tag.tagMetric.seconds = true → p.sec + tag.tagSeconds < 2 ^ 31

theorem seconds_newTagNode {s n b : ℤ} (hs : 1 ≤ s) (hlt : p.sec + s < 2 ^ 31) (mode : TagMode) (id : ℕ) :
    (newTagNode p ⟨s, n, b, ⟨true, false, false, false⟩⟩ mode id).seconds = (p.sec + s.toNat : ℕ) := by
  have hseconds : i32 (p.sec + s) = (p.sec + s.toNat : ℕ) := by
    rw [i32_of_range (by omega) (by omega)]
    omega
  exact hseconds

theorem agrees_new (hlimited : Limited tag) (hfits : Fits p tag) (mode : TagMode) (id : ℕ) :
    Agrees (newTagNode p tag mode id) [limitOf p tag] := by
  cases hlimited with
  | seconds h =>
    rename_i s n b
    have hlt : p.sec + s < 2 ^ 31 := hfits rfl
    have hseconds := seconds_newTagNode (n := n) (b := b) h hlt mode id
    refine ⟨⟨_, rfl, rfl, rfl, rfl, ?_⟩, fun _ => ⟨_, List.mem_cons_self, hseconds⟩, ?_⟩
    · rw [hseconds]
      omega
    · rw [hseconds]
      omega
  | packets h =>
    rename_i s n b
    have hcast : (n.toNat : ℤ) = n := by omega
    have hpos : n.toNat ≠ 0 := by omega
    exact ⟨⟨_, rfl, rfl, hcast.symm, rfl, fun h' => absurd h' hpos⟩, fun h' => absurd rfl h', le_rfl,
      show (0 : ℤ) < 2 ^ 31 by decide⟩
  | bytes h =>
    rename_i s n b
    have hcast : (b.toNat : ℤ) = b := by omega
    have hpos : b.toNat ≠ 0 := by omega
    exact ⟨⟨_, rfl, rfl, rfl, hcast.symm, fun h' => absurd h' hpos⟩, fun h' => absurd rfl h', le_rfl,
      show (0 : ℤ) < 2 ^ 31 by decide⟩

/-- The counters of a node whose expiration time is changed to another one. -/
theorem AgreesFirst.seconds {l : Limit} (h : AgreesFirst n l) {s : ℤ} (hs : s ≠ 0) :
    AgreesFirst { n with seconds := s } l := by
  cases l with
  | packets left => exact ⟨h.1, h.2.1, h.2.2.1, fun _ => hs⟩
  | bytes left => exact ⟨h.1, h.2.1, h.2.2.1, fun _ => hs⟩
  | deadline time => exact ⟨h.1, h.2.1, h.2.2.1, hs⟩

theorem Agrees.append (h : Agrees n ls) (l : Limit) : Agrees n (ls ++ [l]) := by
  obtain ⟨⟨first, hl, hfirst⟩, hseconds, hrange⟩ := h
  refine ⟨⟨first, ?_, hfirst⟩, fun hne => ?_, hrange⟩
  · rw [List.head?_append, Option.mem_def.1 hl]
    rfl
  · obtain ⟨time, hmem, heq⟩ := hseconds hne
    exact ⟨time, List.mem_append_left _ hmem, heq⟩

/-- A tag that counts no seconds changes nothing. -/
theorem mergeTagNode_eq (h : Agrees n ls) (htag : tag.tagMetric.seconds = false) (mode : TagMode) (id : ℕ) :
    mergeTagNode n (newTagNode p tag mode id) = n := by
  have hrange := h.range
  simp only [mergeTagNode, newTagNode, htag, Bool.false_eq_true, if_false, add_zero]
  rw [i32_of_range (by omega) (by omega)]

theorem agrees_merge (h : Agrees n ls) (hlimited : Limited tag) (hfits : Fits p tag) (mode : TagMode) (id : ℕ) :
    Agrees (mergeTagNode n (newTagNode p tag mode id)) (ls ++ [limitOf p tag]) := by
  cases hlimited with
  | seconds hs =>
    rename_i s m b
    have hlt : p.sec + s < 2 ^ 31 := hfits rfl
    have hseconds := seconds_newTagNode (n := m) (b := b) hs hlt mode id
    have happend := h.append (limitOf p ⟨s, m, b, ⟨true, false, false, false⟩⟩)
    obtain ⟨first, hl, hfirst⟩ := happend.first
    have hmerge : mergeTagNode n (newTagNode p ⟨s, m, b, ⟨true, false, false, false⟩⟩ mode id) =
        { n with seconds := (p.sec + s.toNat : ℕ) } := by
      rw [← hseconds]
      rfl
    rw [hmerge]
    refine ⟨⟨first, hl, hfirst.seconds (by omega)⟩, fun _ => ⟨_, ?_, rfl⟩, ?_⟩
    · exact List.mem_append_right _ (List.mem_singleton_self _)
    · simp only
      omega
  | packets _ =>
    rw [mergeTagNode_eq h rfl mode id]
    exact h.append _
  | bytes _ =>
    rw [mergeTagNode_eq h rfl mode id]
    exact h.append _

/-! ### The node of a session -/

section Session

variable [DecidableEq Ip] {c : TagCaches Ip} {k : TagSessionKey Ip} {o : Option TagNode}

/-- A packet of a session, in one of its directions. -/
def OfSession (k : TagSessionKey Ip) (p : Packet Ip) : Prop := p.key = k ∨ p.key = k.swap

instance (k : TagSessionKey Ip) (p : Packet Ip) : Decidable (OfSession k p) :=
  inferInstanceAs (Decidable (_ ∨ _))

/-- The node of a session. -/
def nodeOf (c : TagCaches Ip) (k : TagSessionKey Ip) : Option TagNode := (c.ssn k).or (c.ssn k.swap)

/-- A session has a node in one direction at most. -/
def At (c : TagCaches Ip) (k : TagSessionKey Ip) (o : Option TagNode) : Prop :=
  ∃ k₀, (k₀ = k ∨ k₀ = k.swap) ∧ c.ssn k₀ = o ∧ (k₀.swap ≠ k₀ → c.ssn k₀.swap = none)

omit [DecidableEq Ip] in
@[simp] theorem swap_swap (k : TagSessionKey Ip) : k.swap.swap = k := rfl

omit [DecidableEq Ip] in
theorem At.nodeOf (h : At c k o) : nodeOf c k = o := by
  obtain ⟨k₀, hk, ho, hother⟩ := h
  have hother' : c.ssn k₀.swap = none ∨ c.ssn k₀.swap = o := by
    by_cases hne : k₀.swap = k₀
    · exact .inr (by rw [hne, ho])
    · exact .inl (hother hne)
  unfold Tag.nodeOf
  rcases hk with rfl | rfl
  · rw [ho]
    rcases hother' with h | h <;> rw [h] <;> cases o <;> rfl
  · rw [swap_swap] at hother'
    rw [ho]
    rcases hother' with h | h <;> rw [h] <;> cases o <;> rfl

omit [DecidableEq Ip] in
theorem At.findKey_none (h : At c k none) (hp : OfSession k p) : findKey c.ssn p.key p.key.swap = none := by
  have hnone : c.ssn k = none ∧ c.ssn k.swap = none := Option.or_eq_none_iff.1 h.nodeOf
  unfold findKey
  rcases hp with hp | hp
  · rw [hp, hnone.1, hnone.2]
    rfl
  · rw [hp, swap_swap, hnone.1, hnone.2]
    rfl

/-- The node of a session is found from both directions, and can be changed there. -/
theorem At.findKey_some {n : TagNode} (h : At c k (some n)) (hp : OfSession k p) :
    ∃ k₀, findKey c.ssn p.key p.key.swap = some k₀ ∧ c.ssn k₀ = some n ∧
      ∀ o, At { c with ssn := Function.update c.ssn k₀ o } k o := by
  obtain ⟨k₀, hk, hn, hother⟩ := h
  refine ⟨k₀, ?_, hn, fun o => ⟨k₀, hk, Function.update_self _ _ _, fun hne => ?_⟩⟩
  · have hkey : p.key = k₀ ∨ p.key = k₀.swap := by
      rcases hk with rfl | rfl
      · exact hp
      · rw [swap_swap]
        exact hp.symm
    unfold findKey
    rcases hkey with hkey | hkey
    · rw [hkey, hn]
      rfl
    · rw [hkey, swap_swap, hn]
      by_cases hne : k₀.swap = k₀
      · rw [hne, hn]
        rfl
      · rw [hother hne]
        rfl
  · exact (Function.update_of_ne hne _ _).trans (hother hne)

omit [DecidableEq Ip] in
/-- The other keys are not touched. -/
theorem At.frame (h : At c k o) {ssn : TagSessionKey Ip → Option TagNode} {host : Ip → Option TagNode}
    (hsame : ssn k = c.ssn k ∧ ssn k.swap = c.ssn k.swap) : At ⟨host, ssn⟩ k o := by
  obtain ⟨k₀, hk, ho, hother⟩ := h
  rcases hk with rfl | rfl
  · exact ⟨k₀, .inl rfl, hsame.1.trans ho, fun hne => hsame.2.trans (hother hne)⟩
  · exact ⟨k.swap, .inr rfl, hsame.2.trans ho, fun hne => hsame.1.trans (hother hne)⟩

theorem findKey_mem {κ : Type*} {cache : κ → Option TagNode} {a b k₀ : κ} (h : findKey cache a b = some k₀) :
    k₀ = a ∨ k₀ = b := by
  unfold findKey at h
  split_ifs at h
  · exact .inl (Option.some.inj h).symm
  · exact .inr (Option.some.inj h).symm

omit [DecidableEq Ip] in
/-- The keys of a packet of another session. -/
theorem key_ne (hp : ¬OfSession k p) {k₀ : TagSessionKey Ip} (h : k₀ = p.key ∨ k₀ = p.key.swap) :
    k ≠ k₀ ∧ k.swap ≠ k₀ := by
  unfold OfSession at hp
  rcases h with rfl | rfl
  · exact ⟨fun h => hp (.inl h.symm), fun h => hp (.inr h.symm)⟩
  · refine ⟨fun h => hp (.inr ?_), fun h => hp (.inl ?_)⟩
    · rw [h, swap_swap]
    · exact congrArg TagSessionKey.swap h.symm

theorem addTo_other {κ : Type*} [DecidableEq κ] {cache : κ → Option TagNode} {a b x : κ} (idx : TagNode)
    (ha : x ≠ a) (hb : x ≠ b) : addTo cache a b a idx x = cache x := by
  unfold addTo
  cases hfind : findKey cache a b with
  | none => exact Function.update_of_ne ha _ _
  | some k₀ =>
    apply Function.update_of_ne
    rcases findKey_mem hfind with rfl | rfl
    · exact ha
    · exact hb

omit [DecidableEq Ip] in
theorem touchAt_other {κ : Type*} [DecidableEq κ] {cache : κ → Option TagNode} {x k₀ : κ} (hne : x ≠ k₀) :
    (touchAt 0 p cache k₀).1 x = cache x := by
  unfold touchAt
  split
  · rfl
  · exact Function.update_of_ne hne _ _

/-! ### Events -/

/-- The limits requested for the node of a session. -/
def limitsStep (k : TagSessionKey Ip) (c : TagCaches Ip) (ls : List Limit) : TagEvent Ip → List Limit
  | .packet p =>
    if p.valid = true ∧ OfSession k p then
      if nodeOf (checkTagList 0 c p).1 k = none then [] else ls.map (Limit.pass p)
    else ls
  | .setTags p tag _ =>
    if OfSession k p then if nodeOf c k = none then [limitOf p tag] else ls ++ [limitOf p tag] else ls

/-- A packet of the session is logged within the limits, and the node leaves with the last one. -/
def LifetimeAt (k : TagSessionKey Ip) (c : TagCaches Ip) (ls : List Limit) : TagEvent Ip → Prop
  | .packet p => p.valid = true → OfSession k p →
      LifetimeOf p ls (nodeOf (checkTagList 0 c p).1 k, (checkTagList 0 c p).2)
  | .setTags _ _ _ => True

/-- A packet of the session does not come too late. -/
def Sound (k : TagSessionKey Ip) (c : TagCaches Ip) (ls : List Limit) : TagEvent Ip → Prop
  | .packet p => p.valid = true → OfSession k p → ∀ n ∈ nodeOf c k, SoundFor p n ls
  | .setTags _ _ _ => True

/-- The tags that are set for the session have one limited metric, and a time in 32 bits. -/
def Requested (k : TagSessionKey Ip) : TagEvent Ip → Prop
  | .packet _ => True
  | .setTags p tag _ => OfSession k p → Limited tag ∧ Fits p tag

/-- The node of a session and the limits requested for it. -/
structure Tagged (k : TagSessionKey Ip) (c : TagCaches Ip) (ls : List Limit) : Prop where
  host : ∀ a, c.host a = none
  node : (At c k none ∧ ls = []) ∨ ∃ n, At c k (some n) ∧ Agrees n ls

theorem checkTagList_other (hhost : ∀ a, c.host a = none) (hp : ¬OfSession k p) :
    (∀ a, (checkTagList 0 c p).1.host a = none) ∧ (checkTagList 0 c p).1.ssn k = c.ssn k ∧
      (checkTagList 0 c p).1.ssn k.swap = c.ssn k.swap := by
  have hfind : findKey c.host p.key.dip p.key.sip = none := by
    unfold findKey
    rw [hhost, hhost]
    rfl
  unfold checkTagList
  split
  · exact ⟨hhost, rfl, rfl⟩
  · cases hssn : findKey c.ssn p.key p.key.swap with
    | none =>
      simp only [hfind]
      exact ⟨hhost, trivial, trivial⟩
    | some k₀ =>
      obtain ⟨hk, hk'⟩ := key_ne hp (findKey_mem hssn)
      exact ⟨hhost, touchAt_other hk, touchAt_other hk'⟩

theorem Tagged.packet (h : Tagged k c ls) (p : Packet Ip) :
    Tagged k (checkTagList 0 c p).1 (limitsStep k c ls (.packet p)) ∧
      (LifetimeAt k c ls (.packet p) ↔ Sound k c ls (.packet p)) := by
  obtain ⟨hhost, hnode⟩ := h
  unfold limitsStep LifetimeAt Sound
  by_cases hsession : p.valid = true ∧ OfSession k p
  · obtain ⟨hvalid, hp⟩ := hsession
    simp only [hvalid, hp, and_self, if_true, true_implies]
    rcases hnode with ⟨hat, rfl⟩ | ⟨n, hat, hagrees⟩
    · have hfind : findKey c.host p.key.dip p.key.sip = none := by
        unfold findKey
        rw [hhost, hhost]
        rfl
      have hcheck : checkTagList 0 c p = (c, none) := by
        unfold checkTagList
        rw [if_neg (by simp [hvalid]), hat.findKey_none hp]
        simp only [hfind]
      rw [hcheck, hat.nodeOf, if_pos rfl]
      refine ⟨⟨hhost, .inl ⟨hat, rfl⟩⟩, iff_of_true ?_ fun n hn => absurd hn (by simp)⟩
      exact ⟨fun l hl => absurd hl (by simp), fun _ => rfl, fun _ => rfl⟩
    · obtain ⟨k₀, hfind, hn, hupdate⟩ := hat.findKey_some hp
      have hcheck : checkTagList 0 c p =
          ({ c with ssn := Function.update c.ssn k₀ (touch 0 p n).1 }, (touch 0 p n).2) := by
        unfold checkTagList touchAt
        rw [if_neg (by simp [hvalid]), hfind]
        simp only [hn]
      rw [hcheck, hat.nodeOf, (hupdate _).nodeOf]
      simp only [Option.mem_some_iff, forall_eq']
      refine ⟨⟨hhost, ?_⟩, lifetime_iff hagrees⟩
      cases htouch : (touch 0 p n).1 with
      | none =>
        rw [if_pos rfl]
        exact .inl ⟨hupdate none, rfl⟩
      | some n' =>
        rw [if_neg (Option.some_ne_none n')]
        exact .inr ⟨n', hupdate _, hagrees.touch n' htouch⟩
  · simp only [if_neg hsession]
    have hsame : (∀ a, (checkTagList 0 c p).1.host a = none) ∧ (checkTagList 0 c p).1.ssn k = c.ssn k ∧
        (checkTagList 0 c p).1.ssn k.swap = c.ssn k.swap := by
      by_cases hvalid : p.valid = true
      · exact checkTagList_other hhost fun hp => hsession ⟨hvalid, hp⟩
      · have hcheck : checkTagList 0 c p = (c, none) := by
          unfold checkTagList
          rw [if_pos (by simpa using hvalid)]
        rw [hcheck]
        exact ⟨hhost, rfl, rfl⟩
    refine ⟨⟨hsame.1, ?_⟩, iff_of_true (fun hv hp => absurd ⟨hv, hp⟩ hsession) fun hv hp =>
      absurd ⟨hv, hp⟩ hsession⟩
    exact hnode.imp (fun h => ⟨h.1.frame hsame.2, h.2⟩) fun ⟨n, hat, hagrees⟩ =>
      ⟨n, hat.frame hsame.2, hagrees⟩

theorem Tagged.setTags (h : Tagged k c ls) (hp : OfSession k p → Limited tag ∧ Fits p tag) (id : ℕ) :
    Tagged k (addTagNode c p tag .session id) (limitsStep k c ls (.setTags p tag id)) := by
  obtain ⟨hhost, hnode⟩ := h
  unfold limitsStep addTagNode
  simp only
  by_cases hsession : OfSession k p
  · obtain ⟨hlimited, hfits⟩ := hp hsession
    rw [if_pos hsession]
    refine ⟨hhost, .inr ?_⟩
    rcases hnode with ⟨hat, rfl⟩ | ⟨n, hat, hagrees⟩
    · have hnone : c.ssn k = none ∧ c.ssn k.swap = none := Option.or_eq_none_iff.1 hat.nodeOf
      rw [hat.nodeOf, if_pos rfl]
      refine ⟨_, ⟨p.key, hsession, ?_, fun hne => ?_⟩, agrees_new hlimited hfits .session id⟩
      · unfold addTo
        rw [hat.findKey_none hsession]
        exact Function.update_self _ _ _
      · unfold addTo
        rw [hat.findKey_none hsession]
        refine (Function.update_of_ne hne _ _).trans ?_
        rcases hsession with hkey | hkey
        · rw [hkey, hnone.2]
        · rw [hkey, swap_swap, hnone.1]
    · obtain ⟨k₀, hfind, hn, hupdate⟩ := hat.findKey_some hsession
      rw [hat.nodeOf, if_neg (Option.some_ne_none n)]
      refine ⟨_, ?_, agrees_merge hagrees hlimited hfits .session id⟩
      unfold addTo
      rw [hfind]
      simp only [hn, Option.map_some]
      exact hupdate _
  · rw [if_neg hsession]
    obtain ⟨hk, hk'⟩ := key_ne hsession (.inl rfl)
    obtain ⟨hs, hs'⟩ := key_ne hsession (.inr rfl)
    have hsame : addTo c.ssn p.key p.key.swap p.key (newTagNode p tag .session id) k = c.ssn k ∧
        addTo c.ssn p.key p.key.swap p.key (newTagNode p tag .session id) k.swap = c.ssn k.swap :=
      ⟨addTo_other _ hk hs, addTo_other _ hk' hs'⟩
    exact ⟨hhost, hnode.imp (fun h => ⟨h.1.frame hsame, h.2⟩) fun ⟨n, hat, hagrees⟩ =>
      ⟨n, hat.frame hsame, hagrees⟩⟩

/-! ### Runs -/

/-- The caches behind events, and the limits requested for the node of a session. -/
def tagRun (k : TagSessionKey Ip) (c : TagCaches Ip) (es : List (TagEvent Ip)) : TagCaches Ip × List Limit :=
  es.foldl (fun s e => ((tagStep s.1 e).1, limitsStep k s.1 s.2 e)) (c, [])

theorem tagRun_concat (k : TagSessionKey Ip) (c : TagCaches Ip) (es : List (TagEvent Ip)) (e : TagEvent Ip) :
    tagRun k c (es ++ [e]) = ((tagStep (tagRun k c es).1 e).1, limitsStep k (tagRun k c es).1 (tagRun k c es).2 e) := by
  unfold tagRun
  rw [List.foldl_concat]

theorem Tagged.step (h : Tagged k c ls) {e : TagEvent Ip} (he : Requested k e) :
    Tagged k (tagStep c e).1 (limitsStep k c ls e) ∧ (LifetimeAt k c ls e ↔ Sound k c ls e) := by
  cases e with
  | packet p => exact h.packet p
  | setTags p tag id => exact ⟨h.setTags he id, Iff.rfl⟩

theorem tagged_tagRun (hhost : ∀ a, c.host a = none) (hnone : c.ssn k = none ∧ c.ssn k.swap = none)
    (es : List (TagEvent Ip)) (hes : ∀ e ∈ es, Requested k e) :
    Tagged k (tagRun k c es).1 (tagRun k c es).2 := by
  induction es using List.reverseRecOn with
  | nil => exact ⟨hhost, .inl ⟨⟨k, .inl rfl, hnone.1, fun _ => hnone.2⟩, rfl⟩⟩
  | append_singleton es e ih =>
    rw [tagRun_concat]
    exact ((ih fun e' he' => hes e' (List.mem_append_left _ he')).step
      (hes e (List.mem_append_right _ (List.mem_singleton_self e)))).1

/-- **The lifetime of session tags**: from caches without host tags and without a tag for the session, in every
sequence of packets and tags of any sessions, where those for this one have one limited metric, each packet of it
is logged within the limits, and the node leaves with the last of them, if and only if no packet comes too late. -/
theorem lifetimeAlong_iff (hhost : ∀ a, c.host a = none) (hnone : c.ssn k = none ∧ c.ssn k.swap = none)
    (es : List (TagEvent Ip)) (hes : ∀ e ∈ es, Requested k e) :
    (∀ pre e, pre ++ [e] <+: es → LifetimeAt k (tagRun k c pre).1 (tagRun k c pre).2 e) ↔
      ∀ pre e, pre ++ [e] <+: es → Sound k (tagRun k c pre).1 (tagRun k c pre).2 e := by
  apply forall_congr'
  intro pre
  apply forall_congr'
  intro e
  apply imp_congr_right
  intro hpre
  have hmem := hpre.subset
  have htagged := tagged_tagRun hhost hnone pre fun e' he' => hes e' (hmem (List.mem_append_left _ he'))
  exact (htagged.step (hes e (hmem (List.mem_append_right _ (List.mem_singleton_self e))))).2

end Session

/-- A packet between two hosts. -/
def packetAt (sec : ℕ) : Packet Bool := ⟨⟨false, true, 1, 2⟩, 20, sec, 0, true⟩

/-- No tags. -/
def noTags : TagCaches Bool := ⟨fun _ => none, fun _ => none⟩

/-- A tag for some seconds, set at the time 0. -/
def tagSeconds (seconds : ℤ) : TagEvent Bool :=
  .setTags (packetAt 0) ⟨seconds, 0, 0, ⟨true, false, false, false⟩⟩ 1

/-- A tag for some packets. -/
def tagPackets (packets : ℤ) : TagEvent Bool :=
  .setTags (packetAt 0) ⟨0, packets, 0, ⟨false, true, false, false⟩⟩ 1

theorem lifetimeAlong_packet :
    LifetimeAt (packetAt 0).key (tagRun (packetAt 0).key noTags [tagPackets 1]).1
      (tagRun (packetAt 0).key noTags [tagPackets 1]).2 (.packet (packetAt 1)) := by
  refine (lifetimeAlong_iff (fun _ => rfl) ⟨rfl, rfl⟩ [tagPackets 1, .packet (packetAt 1)] ?_).2 ?_
    [tagPackets 1] (.packet (packetAt 1)) (List.prefix_refl _)
  · intro e he
    rcases List.mem_cons.1 he with rfl | he
    · exact fun _ => ⟨.packets le_rfl, fun h => absurd h (by decide)⟩
    · obtain rfl := List.mem_singleton.1 he
      trivial
  · intro pre e hpre
    cases pre with
    | nil =>
      obtain rfl := (List.cons_prefix_cons.1 hpre).1
      trivial
    | cons first pre =>
      obtain ⟨rfl, hrest⟩ := List.cons_prefix_cons.1 hpre
      cases pre with
      | nil =>
        obtain rfl := (List.cons_prefix_cons.1 hrest).1
        have hnode : nodeOf (tagRun (packetAt 0).key noTags [tagPackets 1]).1 (packetAt 0).key =
            some (newTagNode (packetAt 0) ⟨0, 1, 0, ⟨false, true, false, false⟩⟩ .session 1) := by decide
        intro _ _ n hn
        rw [hnode] at hn
        obtain rfl := Option.some.inj hn
        exact ⟨fun h => absurd h (by decide), fun _ h => absurd rfl h⟩
      | cons second pre => simp [List.cons_prefix_cons] at hrest

/-- The first packet behind the seconds of a tag is logged, and with seconds requested for a tag of one packet
the node stays. -/
theorem late_packet_logged :
    ¬(∀ pre e, pre ++ [e] <+: [tagSeconds 10, .packet (packetAt 11)] →
        LifetimeAt (packetAt 0).key (tagRun (packetAt 0).key noTags pre).1
          (tagRun (packetAt 0).key noTags pre).2 e) ∧
      ¬(∀ pre e, pre ++ [e] <+: [tagPackets 1, tagSeconds 10, .packet (packetAt 11)] →
        LifetimeAt (packetAt 0).key (tagRun (packetAt 0).key noTags pre).1
          (tagRun (packetAt 0).key noTags pre).2 e) := by
  constructor
  · intro h
    have hlimits : (tagRun (packetAt 0).key noTags [tagSeconds 10]).2 = [.deadline 10] := by decide
    have hlogged : (checkTagList 0 (tagRun (packetAt 0).key noTags [tagSeconds 10]).1 (packetAt 11)).2.isSome =
        true := by decide
    have hwithin : 11 ≤ 10 := ((h [tagSeconds 10] _ (List.prefix_refl _) rfl (.inl rfl)).1 _ hlimits).1.1 hlogged
    exact absurd hwithin (by decide)
  · intro h
    have hlimits : (tagRun (packetAt 0).key noTags [tagPackets 1, tagSeconds 10]).2 =
        [.packets 1, .deadline 10] := by decide
    have hstays : nodeOf (checkTagList 0 (tagRun (packetAt 0).key noTags [tagPackets 1, tagSeconds 10]).1
        (packetAt 11)).1 (packetAt 0).key ≠ none := by decide
    apply hstays
    apply (h [tagPackets 1, tagSeconds 10] _ (List.prefix_refl _) rfl (.inl rfl)).2.2
    rw [hlimits]
    intro l hl
    rcases List.mem_cons.1 hl with rfl | hl
    · rfl
    · obtain rfl := List.mem_singleton.1 hl
      exact Nat.lt_succ_self 10

end Snort.Tag
