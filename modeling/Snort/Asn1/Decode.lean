import Snort.Asn1.Nodes

/-!
# Decoding a buffer

* `Forest`: a link goes from a node to a later one, and no node has two links to it;
* `Inv`: what holds of the variables between two turns of the loops; `Final`: of the result;
* `asn1DecodeType_spec`, `closeEoc_spec`: one structure, and the end of an indefinite construct;
* `good_step`: a turn keeps the invariant and lets `measure` decrease;
* **`asn1Decode_safe`**: the function comes to a result without a fault.
-/

namespace Snort.Asn1

open Loop

/-! ### Links -/

/-- The node of a link comes before some index. -/
def Slot.Below : Slot → ℕ → Prop
  | .root, _ => True
  | .next i, k => i < k
  | .cnext i, k => i < k

/-- A link goes to a later node, and no node has two links to it. -/
structure Forest (d : Decoding) : Prop where
  below : ∀ σ k, d.link σ = some k → σ.Below k ∧ k < d.pool.length
  unique : ∀ σ τ k, d.link σ = some k → d.link τ = some k → σ = τ

variable {d d' : Decoding} {σ τ : Slot} {v : Option ℕ}

@[simp] theorem setLink_data : (d.setLink σ v).data = d.data := by cases σ <;> rfl

@[simp] theorem setLink_len : (d.setLink σ v).len = d.len := by cases σ <;> rfl

@[simp] theorem setLink_stack : (d.setLink σ v).stack = d.stack := by cases σ <;> rfl

@[simp] theorem setLink_child : (d.setLink σ v).child = d.child := by cases σ <;> rfl

@[simp] theorem length_setLink : (d.setLink σ v).pool.length = d.pool.length := by
  cases σ <;> simp [Decoding.setLink]

/-- The contents of a node do not depend on links. -/
theorem getElem?_setLink {i : ℕ} {t : Asn1Type} (h : (d.setLink σ v).pool[i]? = some t) :
    ∃ t', d.pool[i]? = some t' ∧ t.data = t'.data ∧ t.dataLen = t'.dataLen := by
  cases σ with
  | root => exact ⟨t, h, rfl, rfl⟩
  | next j =>
    simp only [Decoding.setLink, List.getElem?_modify] at h
    split at h
    · obtain ⟨t', ht', rfl⟩ := Option.map_eq_some_iff.1 h
      exact ⟨t', ht', rfl, rfl⟩
    · exact ⟨t, by simpa using h, rfl, rfl⟩
  | cnext j =>
    simp only [Decoding.setLink, List.getElem?_modify] at h
    split at h
    · obtain ⟨t', ht', rfl⟩ := Option.map_eq_some_iff.1 h
      exact ⟨t', ht', rfl, rfl⟩
    · exact ⟨t, by simpa using h, rfl, rfl⟩

theorem link_setLink_self (hσ : σ.Below d.pool.length) : (d.setLink σ v).link σ = v := by
  cases σ with
  | root => rfl
  | next i =>
    have hi : i < d.pool.length := hσ
    simp [Decoding.setLink, Decoding.link, hi]
  | cnext i =>
    have hi : i < d.pool.length := hσ
    simp [Decoding.setLink, Decoding.link, hi]

theorem link_setLink_of_ne (h : τ ≠ σ) : (d.setLink σ v).link τ = d.link τ := by
  cases σ with
  | root => cases τ <;> first | rfl | exact absurd rfl h
  | next i =>
    cases τ with
    | root => rfl
    | next j =>
      have hij : i ≠ j := fun hij => h (by rw [hij])
      simp [Decoding.setLink, Decoding.link, hij]
    | cnext j =>
      simp only [Decoding.setLink, Decoding.link, List.getElem?_modify]
      cases d.pool[j]? with
      | none => simp
      | some t => by_cases hij : i = j <;> simp [hij]
  | cnext i =>
    cases τ with
    | root => rfl
    | next j =>
      simp only [Decoding.setLink, Decoding.link, List.getElem?_modify]
      cases d.pool[j]? with
      | none => simp
      | some t => by_cases hij : i = j <;> simp [hij]
    | cnext j =>
      have hij : i ≠ j := fun hij => h (by rw [hij])
      simp [Decoding.setLink, Decoding.link, hij]

/-- A new node without links of its own. -/
theorem link_append {t : Asn1Type} (hnext : t.next = none) (hcnext : t.cnext = none) (τ : Slot) :
    ({ d with pool := d.pool ++ [t] } : Decoding).link τ = d.link τ := by
  have hget : ∀ (f : Asn1Type → Option ℕ), f t = none → ∀ i : ℕ,
      (d.pool ++ [t])[i]?.bind f = d.pool[i]?.bind f := by
    intro f hf i
    rcases Nat.lt_trichotomy i d.pool.length with hlt | heq | hgt
    · rw [List.getElem?_append_left hlt]
    · subst heq
      simp [hf]
    · rw [List.getElem?_eq_none (by simp; omega), List.getElem?_eq_none (by omega)]
  cases τ with
  | root => rfl
  | next i => exact hget _ hnext i
  | cnext i => exact hget _ hcnext i

theorem Forest.congr (h : Forest d) (hlink : ∀ τ, d'.link τ = d.link τ) (hlen : d'.pool.length = d.pool.length) :
    Forest d' := by
  constructor
  · intro σ k hk
    rw [hlen]
    exact h.below σ k ((hlink σ).symm.trans hk)
  · intro σ τ k hσ hτ
    exact h.unique σ τ k ((hlink σ).symm.trans hσ) ((hlink τ).symm.trans hτ)

/-- A link is cleared. -/
theorem Forest.clear (h : Forest d) (σ : Slot) : Forest (d.setLink σ none) := by
  have hlink : ∀ τ k, (d.setLink σ none).link τ = some k → d.link τ = some k := by
    intro τ k hk
    by_cases hτ : τ = σ
    · subst hτ
      by_cases hbelow : τ.Below d.pool.length
      · rw [link_setLink_self hbelow] at hk
        cases hk
      · cases τ with
        | root => exact absurd trivial hbelow
        | next i =>
          have hi : d.pool.length ≤ i := not_lt.1 hbelow
          simp [Decoding.setLink, Decoding.link, hi] at hk
        | cnext i =>
          have hi : d.pool.length ≤ i := not_lt.1 hbelow
          simp [Decoding.setLink, Decoding.link, hi] at hk
    · rwa [link_setLink_of_ne hτ] at hk
  constructor
  · intro τ k hk
    rw [length_setLink]
    exact h.below τ k (hlink τ k hk)
  · intro τ τ' k hk hk'
    exact h.unique τ τ' k (hlink τ k hk) (hlink τ' k hk')

/-- A new node is linked. -/
theorem Forest.fresh (h : Forest d) (hσ : σ.Below d.pool.length) {t : Asn1Type} (hnext : t.next = none)
    (hcnext : t.cnext = none) :
    Forest { d.setLink σ (some d.pool.length) with pool := (d.setLink σ (some d.pool.length)).pool ++ [t] } := by
  have hlink : ∀ τ k, (d.setLink σ (some d.pool.length)).link τ = some k →
      τ = σ ∧ k = d.pool.length ∨ τ ≠ σ ∧ d.link τ = some k := by
    intro τ k hk
    by_cases hτ : τ = σ
    · subst hτ
      rw [link_setLink_self hσ] at hk
      exact .inl ⟨rfl, (Option.some.inj hk).symm⟩
    · exact .inr ⟨hτ, by rwa [link_setLink_of_ne hτ] at hk⟩
  constructor
  · intro τ k hk
    rw [link_append hnext hcnext] at hk
    simp only [List.length_append, length_setLink, List.length_singleton]
    rcases hlink τ k hk with ⟨rfl, rfl⟩ | ⟨-, hk⟩
    · exact ⟨hσ, Nat.lt_succ_self _⟩
    · exact ⟨(h.below τ k hk).1, (h.below τ k hk).2.trans (Nat.lt_succ_self _)⟩
  · intro τ τ' k hk hk'
    rw [link_append hnext hcnext] at hk hk'
    rcases hlink τ k hk with ⟨rfl, rfl⟩ | ⟨-, hold⟩
    · rcases hlink τ' _ hk' with ⟨rfl, -⟩ | ⟨-, hold'⟩
      · rfl
      · exact absurd (h.below τ' _ hold').2 (lt_irrefl _)
    · rcases hlink τ' k hk' with ⟨rfl, rfl⟩ | ⟨-, hold'⟩
      · exact absurd (h.below τ _ hold).2 (lt_irrefl _)
      · exact h.unique τ τ' k hold hold'

/-! ### The invariant -/

/-- What holds between two turns. -/
structure Inv (buf : List UInt8) (d : Decoding) : Prop where
  window : d.data + d.len ≤ buf.length
  nodes : ∀ t ∈ d.pool, Located d.data buf.length t
  stack_le : d.stack.length ≤ maxStack
  stack : ∀ i ∈ d.stack, i < d.pool.length
  child : ∀ i ∈ d.child, i < d.pool.length
  forest : Forest d

/-- What holds of a result: all nodes are located in the buffer, but for the last one when it was refused. -/
structure Final (buf : List UInt8) (r : Ret × Decoding) : Prop where
  forest : Forest r.2
  nodes : ∀ t ∈ r.2.pool.dropLast, Located buf.length buf.length t
  last : ∀ t ∈ r.2.pool.getLast?, Located buf.length buf.length t ∨ r.1 ≠ .ok ∧ Unlocated t

/-- The constructs on the stack start at least two bytes before the position. -/
def Beyond (d : Decoding) : Prop :=
  ∀ i ∈ d.stack, ∀ t, d.pool[i]? = some t → ∃ start, t.data = some start ∧ start + 2 ≤ d.data

variable {buf : List UInt8} {numNodes : ℕ}

theorem Inv.final (h : Inv buf d) (ret : Ret) : Final buf (ret, d) := by
  have hdata : d.data ≤ buf.length := by have := h.window; omega
  refine ⟨h.forest, fun t ht => ?_, fun t ht => .inl ?_⟩
  · exact (h.nodes t (List.mem_of_mem_dropLast ht)).mono hdata le_rfl
  · exact (h.nodes t (List.mem_of_getLast? ht)).mono hdata le_rfl

theorem nodes_setLink {pos finish : ℕ} (h : ∀ t ∈ d.pool, Located pos finish t) (σ : Slot) (v : Option ℕ) :
    ∀ t ∈ (d.setLink σ v).pool, Located pos finish t := by
  intro t ht
  obtain ⟨i, hi⟩ := List.mem_iff_getElem?.1 ht
  obtain ⟨t', ht', hdata, hlen⟩ := getElem?_setLink hi
  obtain ⟨start, hle, hstart, hfin⟩ := h t' (List.mem_of_getElem? ht')
  exact ⟨start, hle, hdata.trans hstart, by rwa [hlen]⟩

theorem Inv.clear (h : Inv buf d) (σ : Slot) : Inv buf (d.setLink σ none) where
  window := by simpa using h.window
  nodes := by simpa using nodes_setLink h.nodes σ none
  stack_le := by simpa using h.stack_le
  stack := by simpa using h.stack
  child := by simpa using h.child
  forest := h.forest.clear σ

/-- What `asn1_decode_type` does when it succeeds: nothing at the end of a construct, or a node of two or more
bytes. -/
structure Fetched (σ : Slot) (d d' : Decoding) : Prop where
  stack : d'.stack = d.stack
  child : d'.child = d.child
  pool_le : d.pool.length ≤ d'.pool.length
  cases : (d.len = 0 ∧ d'.link σ = none ∧ d'.data = d.data) ∨
    (∃ k, d'.link σ = some k) ∧ d.data + 2 ≤ d'.data ∧ Beyond d'

theorem asn1DecodeType_spec (numNodes : ℕ) (h : Inv buf d) (hσ : σ.Below d.pool.length) :
    ∃ ret d', asn1DecodeType buf numNodes σ d = some (ret, d') ∧ (ret ≠ .ok → Final buf (ret, d')) ∧
      (ret = .ok → Inv buf d' ∧ Fetched σ d d') := by
  have hwindow := h.window
  unfold asn1DecodeType
  by_cases hlen : d.len = 0
  · rw [if_pos hlen]
    exact ⟨_, _, rfl, fun hne => absurd rfl hne, fun _ => ⟨h.clear σ, by simp, by simp, by simp,
      .inl ⟨hlen, link_setLink_self hσ, by simp⟩⟩⟩
  rw [if_neg hlen]
  by_cases hfull : numNodes ≤ d.pool.length
  · rw [if_pos hfull]
    exact ⟨_, _, rfl, fun _ => (h.clear σ).final _, fun hok => by simp at hok⟩
  rw [if_neg hfull, if_neg (by omega)]
  have hlength : ((buf.drop d.data).take d.len).length = d.len := by simp; omega
  obtain ⟨ret, rest, t, hnode, hle, hread, hat⟩ := decodeNode_spec ((buf.drop d.data).take d.len) (d.data + d.len)
    (List.length_pos_iff.1 (by omega)) (by omega)
  rw [hlength] at hle hread
  have hpool := nodes_setLink h.nodes σ (some d.pool.length)
  have hforest := h.forest.fresh hσ hat.next hat.cnext
  simp only [hnode, Option.map_some]
  by_cases hret : ret = .ok
  · subst hret
    have hrest := hread rfl
    have hlocated : Located (d.data + d.len - rest.length) (d.data + d.len) t :=
      hat.located.resolve_right fun hne => hne.1 rfl
    rw [if_pos rfl]
    refine ⟨_, _, rfl, fun hne => absurd rfl hne, fun _ => ⟨⟨?_, ?_, ?_, ?_, ?_, ?_⟩, ?_⟩⟩
    · simp only
      omega
    · intro t' ht'
      rcases List.mem_append.1 ht' with ht' | ht'
      · exact (hpool t' ht').mono (by simp only; omega) le_rfl
      · obtain rfl := List.mem_singleton.1 ht'
        exact hlocated.mono le_rfl hwindow
    · simpa using h.stack_le
    · intro i hi
      have := h.stack i (by simpa using hi)
      simp
      omega
    · intro i hi
      have := h.child i (by simpa using hi)
      simp
      omega
    · exact hforest.congr (fun τ => by cases τ <;> rfl) rfl
    · refine ⟨by simp, by simp, by simp, .inr ⟨⟨d.pool.length, ?_⟩, by simp only; omega, ?_⟩⟩
      · have hlink := link_append (d := d.setLink σ (some d.pool.length)) hat.next hat.cnext σ
        rw [link_setLink_self hσ] at hlink
        refine Eq.trans ?_ hlink
        cases σ <;> rfl
      · intro i hi t' ht'
        have hi' : i < d.pool.length := h.stack i (by simpa using hi)
        simp only at ht'
        rw [List.getElem?_append_left (by simpa using hi')] at ht'
        obtain ⟨t'', ht'', hdata, -⟩ := getElem?_setLink ht'
        obtain ⟨start, hstart, hdata', -⟩ := h.nodes t'' (List.mem_of_getElem? ht'')
        exact ⟨start, hdata.trans hdata', by simp only; omega⟩
  · rw [if_neg hret]
    refine ⟨_, _, rfl, fun _ => ⟨hforest, ?_, ?_⟩, fun hok => absurd hok hret⟩
    · intro t' ht'
      simp only [List.dropLast_concat] at ht'
      exact (hpool t' ht').mono (by omega) le_rfl
    · intro t' ht'
      simp only [List.getLast?_concat, Option.mem_some_iff] at ht'
      subst ht'
      rcases hat.located with hlocated | hne
      · exact .inl (hlocated.mono (by omega) hwindow)
      · exact .inr hne

/-! ### End of contents -/

theorem getElem?_of_mem_stack (h : Inv buf d) {i : ℕ} (hi : i ∈ d.stack) : ∃ t, d.pool[i]? = some t :=
  ⟨_, List.getElem?_eq_getElem (h.stack i hi)⟩

/-- Only an end of contents closes a construct; that one is taken from the stack. -/
theorem closeEoc_spec (hbuf : buf.length < 2 ^ 32) (h : Inv buf d) (hbeyond : d.link σ ≠ none → Beyond d) :
    closeEoc σ d = some (d, none) ∨
      d.link σ ≠ none ∧ ∃ i stack d', d.stack = i :: stack ∧ closeEoc σ d = some (d', some i) ∧ Inv buf d' ∧
        d'.stack = stack ∧ d'.data = d.data ∧ d'.pool.length = d.pool.length := by
  unfold closeEoc
  by_cases heoc : d.atEoc σ = true
  · rw [if_pos heoc]
    have hlink : d.link σ ≠ none := fun hnone => by simp [Decoding.atEoc, hnone] at heoc
    cases hstack : d.stack with
    | nil => exact .inl rfl
    | cons i stack =>
      have hi : i ∈ d.stack := by simp [hstack]
      obtain ⟨t, ht⟩ := getElem?_of_mem_stack h hi
      obtain ⟨start, hstart, hle⟩ := hbeyond hlink i hi t ht
      have hfull := h.stack_le
      rw [hstack, List.length_cons] at hfull
      simp only [ht, Option.bind_some]
      by_cases hindef : t.Indef
      · have hwindow := h.window
        have hsize : (((d.data : ℤ) - start - 2) % 2 ^ 32).toNat = d.data - start - 2 := by omega
        refine .inr ⟨hlink, i, stack, _, rfl, by rw [if_pos hindef, closeIndef, hstart]; rfl, ?_, by simp,
          by simp, by simp⟩
        -- the pool with the new size, before the link is cleared
        refine Inv.clear (d := { d with pool := d.pool.set i _, stack := stack }) ⟨hwindow, ?_, ?_, ?_, ?_, ?_⟩ σ
        · intro t' ht'
          rcases List.mem_or_eq_of_mem_set ht' with ht' | rfl
          · exact h.nodes t' ht'
          · exact ⟨start, by simp only; omega, rfl, by simp only; rw [hsize]; omega⟩
        · simp only
          omega
        · intro j hj
          rw [List.length_set]
          exact h.stack j (by rw [hstack]; exact List.mem_cons_of_mem _ hj)
        · simpa using h.child
        · refine h.forest.congr (fun τ => ?_) (by simp)
          cases τ with
          | root => rfl
          | next j =>
            simp only [Decoding.link, List.getElem?_set]
            split
            · rename_i hij
              subst hij
              rw [if_pos (h.stack i hi), ht]
              rfl
            · rfl
          | cnext j =>
            simp only [Decoding.link, List.getElem?_set]
            split
            · rename_i hij
              subst hij
              rw [if_pos (h.stack i hi), ht]
              rfl
            · rfl
      · left
        rw [if_neg hindef, Decoding.push, if_pos (by simp only; omega)]
        simp [← hstack]
  · rw [if_neg heoc]
    exact .inl rfl

/-! ### Turns -/

/-- What holds between two turns, depending on where the function is. -/
def Good (buf : List UInt8) : Phase × Decoding → Prop
  | (.outer cur, d) => Inv buf d ∧ ∀ i ∈ cur, i < d.pool.length
  | (.construct cur, d) => Inv buf d ∧ ∀ i ∈ cur, i < d.pool.length
  | (.eocs cur, d) => Inv buf d ∧ cur < d.pool.length ∧ (d.link (.next cur) ≠ none → Beyond d)
  | (.close, d) => Inv buf d

/-- Turns that may still come without a byte being read. -/
def weight : Phase → Decoding → ℕ
  | .outer none, _ => 0
  | .outer (some _), _ => 6
  | .construct none, _ => 2
  | .construct (some _), _ => 5
  | .eocs cur, d => if d.link (.next cur) = none then 2 else 8
  | .close, _ => 1

/-- What is left of the buffer and of the stack. -/
def level (buf : List UInt8) (d : Decoding) : ℕ := 16 * (buf.length - d.data) + 2 * d.stack.length

/-- The measure of the loops. -/
def measure (buf : List UInt8) (s : Phase × Decoding) : ℕ := level buf s.2 + weight s.1 s.2

theorem weight_le (phase : Phase) (d : Decoding) : weight phase d ≤ 8 := by
  unfold weight
  split <;> first | omega | (split <;> omega)

/-- A turn that leads on as it should. -/
abbrev Leads (buf : List UInt8) (bound : ℕ) (t : Option DecodeTurn) : Prop :=
  ∃ turn, t = some turn ∧ turn.Keeps (Good buf) (measure buf) (Final buf) bound

/-- A structure is decoded: where nothing was left the measure is that of the rest of the turn, and else it has
decreased by far. -/
theorem decodeThen_leads (h : Inv buf d) (hσ : σ.Below d.pool.length) {bound : ℕ}
    {f : Decoding → Option DecodeTurn} (hf : ∀ d', Inv buf d' → Fetched σ d d' → Leads buf bound (f d')) :
    Leads buf bound (decodeThen buf numNodes σ d f) := by
  obtain ⟨ret, d', hdecode, hfinal, hok⟩ := asn1DecodeType_spec numNodes h hσ
  unfold decodeThen
  rw [hdecode, Option.bind_some]
  simp only
  by_cases hret : ret = .ok
  · rw [if_pos hret]
    exact hf d' (hok hret).1 (hok hret).2
  · rw [if_neg hret]
    exact ⟨_, rfl, hfinal hret⟩

theorem Fetched.level_le (h : Fetched σ d d') : level buf d' ≤ level buf d := by
  unfold level
  rw [h.stack]
  rcases h.cases with ⟨-, -, hdata⟩ | ⟨-, hdata, -⟩ <;> omega

theorem Fetched.beyond (h : Fetched σ d d') (hlink : d'.link σ ≠ none) : Beyond d' := by
  rcases h.cases with ⟨-, hnone, -⟩ | ⟨-, -, hbeyond⟩
  · exact absurd hnone hlink
  · exact hbeyond

/-- Far below: a node was decoded. -/
theorem Fetched.level_lt (h : Fetched σ d d') (hinv : Inv buf d') (hlink : d'.link σ ≠ none) :
    level buf d' + 32 ≤ level buf d := by
  have hwindow := hinv.window
  rcases h.cases with ⟨-, hnone, -⟩ | ⟨-, hdata, -⟩
  · exact absurd hnone hlink
  · unfold level
    rw [h.stack]
    omega

theorem peer_leads (numNodes : ℕ) (h : Inv buf d) {cur : ℕ} (hcur : cur < d.pool.length) :
    Leads buf (level buf d + 3) (peer buf numNodes cur d) := by
  refine decodeThen_leads (σ := .next cur) h hcur fun d' hinv hfetched => ⟨_, rfl, ⟨hinv, ?_, hfetched.beyond⟩, ?_⟩
  · exact hcur.trans_le hfetched.pool_le
  · have hle : level buf d' ≤ level buf d := hfetched.level_le
    unfold measure weight
    simp only
    split
    · omega
    · rename_i hlink
      have := hfetched.level_lt hinv hlink
      omega

theorem goOn_leads (h : Inv buf d) (cur : ℕ) :
    Leads buf (level buf d + if d.link (.next cur) = none then 2 else 7) (goOn cur d) := by
  unfold goOn
  cases hlink : d.link (.next cur) with
  | none => exact ⟨_, rfl, h, by simp [measure, weight]⟩
  | some k =>
    refine ⟨_, rfl, ⟨h, ?_⟩, by simp [measure, weight]⟩
    intro i hi
    cases hi
    exact (h.forest.below _ _ hlink).2

theorem enter_leads (hbuf : buf.length < 2 ^ 32) (h : Inv buf d) {cur : ℕ} (hcur : cur < d.pool.length)
    {t : Asn1Type} (ht : d.pool[cur]? = some t) : Leads buf (level buf d + 5) (enter buf numNodes cur t d) := by
  unfold enter
  by_cases hstack : d.stack.length < maxStack
  · rw [if_pos hstack, Decoding.push, if_pos hstack, Option.bind_some]
    have hpushed : Inv buf { d with stack := cur :: d.stack } := by
      refine ⟨h.window, h.nodes, by simpa using hstack, ?_, h.child, h.forest.congr (fun τ => by cases τ <;> rfl) rfl⟩
      intro i hi
      rcases List.mem_cons.1 hi with rfl | hi
      · exact hcur
      · exact h.stack i hi
    have hlevel : level buf { d with stack := cur :: d.stack } = level buf d + 2 := by
      simp only [level, List.length_cons]
      omega
    simp only
    by_cases hlong : ¬t.Indef ∧ d.len < t.dataLen
    · rw [if_pos hlong]
      exact ⟨_, rfl, hpushed.final _⟩
    rw [if_neg hlong]
    -- the length of a definite construct, or what there was
    obtain ⟨d₁, hd₁, hinv₁, hlevel₁, hpool₁⟩ : ∃ d₁,
        (if t.Indef then ({ d with stack := cur :: d.stack } : Decoding)
          else { d with stack := cur :: d.stack, len := t.dataLen }) = d₁ ∧ Inv buf d₁ ∧
          level buf d₁ = level buf d + 2 ∧ d₁.pool = d.pool := by
      by_cases hindef : t.Indef
      · exact ⟨_, if_pos hindef, hpushed, hlevel, rfl⟩
      · have hwindow := h.window
        refine ⟨_, if_neg hindef, ⟨?_, hpushed.nodes, hpushed.stack_le, hpushed.stack, hpushed.child,
          hpushed.forest.congr (fun τ => by cases τ <;> rfl) rfl⟩, hlevel, rfl⟩
        have : ¬d.len < t.dataLen := fun hlt => hlong ⟨hindef, hlt⟩
        simp only
        omega
    rw [hd₁]
    refine decodeThen_leads (σ := .cnext cur) hinv₁ (by rw [hpool₁]; exact hcur) fun d₂ hinv hfetched => ?_
    have hle : level buf d₂ ≤ level buf d₁ := hfetched.level_le
    rcases closeEoc_spec hbuf hinv hfetched.beyond with hnone | ⟨hlink, i, stack, d₃, hstack₃, hsome, hinv₃, hst, hdata, hlen⟩
    · rw [hnone, Option.bind_some]
      refine ⟨_, rfl, ⟨hinv, fun i hi => (hinv.forest.below _ _ hi).2⟩, ?_⟩
      unfold measure weight
      simp only
      cases hlink : d₂.link (.cnext cur) with
      | none =>
        simp only
        omega
      | some k =>
        have := hfetched.level_lt hinv (by simp [hlink])
        simp only
        omega
    · rw [hsome, Option.bind_some]
      have hi : i < d₃.pool.length := by
        rw [hlen]
        exact hinv.stack i (by simp [hstack₃])
      have hlevel₃ : level buf d₃ ≤ level buf d₂ := by
        unfold level
        rw [hdata, hst, hstack₃, List.length_cons]
        omega
      have hlt := hfetched.level_lt hinv hlink
      obtain ⟨turn, hturn, hkeeps⟩ := peer_leads numNodes hinv₃ hi
      exact ⟨turn, hturn, hkeeps.mono (by omega)⟩
  · rw [if_neg hstack]
    exact ⟨_, rfl, h.final _⟩

theorem eocs_leads (hbuf : buf.length < 2 ^ 32) {cur : ℕ} (hgood : Good buf (.eocs cur, d)) :
    Leads buf (measure buf (.eocs cur, d)) (step buf numNodes (.eocs cur, d)) := by
  obtain ⟨h, hcur, hbeyond⟩ := hgood
  unfold step
  rcases closeEoc_spec hbuf h hbeyond with hnone | ⟨hlink, i, stack, d', hstack, hsome, hinv, hst, hdata, hlen⟩
  · simp only [hnone, Option.bind_some]
    obtain ⟨turn, hturn, hkeeps⟩ := goOn_leads h cur
    refine ⟨turn, hturn, hkeeps.mono ?_⟩
    unfold measure weight
    simp only
    split <;> omega
  · simp only [hsome, Option.bind_some]
    have hi : i < d'.pool.length := by
      rw [hlen]
      exact h.stack i (by simp [hstack])
    obtain ⟨turn, hturn, hkeeps⟩ := peer_leads numNodes hinv hi
    refine ⟨turn, hturn, hkeeps.mono ?_⟩
    unfold measure weight level
    simp only [hlink, if_false, hdata, hst, hstack, List.length_cons]
    omega

/-- The length that is left of a construct does not reach out of the buffer. -/
theorem restLen_spec (hbuf : buf.length < 2 ^ 32) (h : Inv buf d) {t : Asn1Type} (ht : t ∈ d.pool) :
    ∃ len, restLen t d = some len ∧ d.data + len ≤ buf.length := by
  obtain ⟨start, hle, hdata, hlen⟩ := h.nodes t ht
  have hwindow := h.window
  have hcon : (((d.data : ℤ) - start) % 2 ^ 32).toNat = d.data - start := by omega
  refine ⟨_, by rw [restLen, hdata]; rfl, ?_⟩
  simp only [hcon]
  split <;> omega

/-- A construct that is taken from the stack, or put back in favour of a child. -/
theorem pickChild_spec {i : ℕ} (h : Inv buf d) (hi : i < d.pool.length) (hfull : d.stack.length < maxStack) :
    ∃ cur d', pickChild i d = some (cur, d') ∧ Inv buf d' ∧ cur < d'.pool.length ∧ d'.data = d.data ∧
      d'.len = d.len ∧ (d'.stack = d.stack ∨ d.len ≠ 0 ∧ d'.stack.length = d.stack.length + 1) := by
  have hcongr : ∀ {stack : List ℕ} {child : Option ℕ},
      Forest { d with stack := stack, child := child } :=
    h.forest.congr (fun τ => by cases τ <;> rfl) rfl
  unfold pickChild
  by_cases hlen : d.len = 0
  · rw [if_pos hlen]
    refine ⟨_, _, rfl, ⟨h.window, h.nodes, h.stack_le, h.stack, ?_, hcongr⟩, hi, rfl, rfl, .inl rfl⟩
    intro j hj
    cases hj
    exact hi
  rw [if_neg hlen]
  cases hchild : d.child with
  | none => exact ⟨_, _, rfl, h, hi, rfl, rfl, .inl rfl⟩
  | some child =>
    simp only [Decoding.push, if_pos hfull, Option.map_some]
    refine ⟨_, _, rfl, ⟨h.window, h.nodes, by simpa using hfull, ?_, by simp, hcongr⟩, h.child child hchild, rfl, rfl,
      .inr ⟨hlen, by simp⟩⟩
    intro j hj
    rcases List.mem_cons.1 hj with rfl | hj
    · exact hi
    · exact h.stack j hj

theorem moreRoots_leads (numNodes : ℕ) (h : Inv buf d) {cur : ℕ} (hcur : cur < d.pool.length) :
    Leads buf (level buf d + if d.link (.next cur) = none then 2 else 7) (moreRoots buf numNodes cur d) := by
  unfold moreRoots
  by_cases hroot : d.stack = [] ∧ d.link (.next cur) = none ∧ d.data < buf.length
  · rw [if_pos hroot]
    have hinv : Inv buf { d with len := buf.length - d.data } :=
      ⟨by simp only; omega, h.nodes, h.stack_le, h.stack, h.child, h.forest.congr (fun τ => by cases τ <;> rfl) rfl⟩
    refine decodeThen_leads (σ := .next cur) hinv hcur fun d' hinv' hfetched => ?_
    have hlink : d'.link (.next cur) ≠ none := by
      rcases hfetched.cases with ⟨hlen, -⟩ | ⟨⟨k, hk⟩, -⟩
      · simp only at hlen
        omega
      · simp [hk]
    have hlt := hfetched.level_lt hinv' hlink
    obtain ⟨turn, hturn, hkeeps⟩ := goOn_leads hinv' cur
    refine ⟨turn, hturn, hkeeps.mono ?_⟩
    rw [if_neg hlink, if_pos hroot.2.1]
    have : level buf { d with len := buf.length - d.data } = level buf d := rfl
    omega
  · rw [if_neg hroot]
    exact goOn_leads h cur

theorem close_leads (hbuf : buf.length < 2 ^ 32) (h : Inv buf d) :
    Leads buf (measure buf (.close, d)) (step buf numNodes (.close, d)) := by
  cases hstack : d.stack with
  | nil =>
    simp only [step, hstack]
    exact ⟨_, rfl, ⟨h, by simp⟩, by simp [measure, weight]⟩
  | cons i stack =>
    have hi : i < d.pool.length := h.stack i (by simp [hstack])
    obtain ⟨t, ht⟩ := getElem?_of_mem_stack h (i := i) (by simp [hstack])
    have hfull := h.stack_le
    rw [hstack, List.length_cons] at hfull
    have hpopped : Inv buf { d with stack := stack } :=
      ⟨h.window, h.nodes, by simp only; omega,
        fun j hj => h.stack j (by rw [hstack]; exact List.mem_cons_of_mem _ hj), h.child,
        h.forest.congr (fun τ => by cases τ <;> rfl) rfl⟩
    obtain ⟨len, hlen, hwindow⟩ := restLen_spec hbuf hpopped (List.mem_of_getElem? ht)
    have hinv : Inv buf { d with stack := stack, len := len } :=
      ⟨hwindow, h.nodes, hpopped.stack_le, hpopped.stack, h.child, h.forest.congr (fun τ => by cases τ <;> rfl) rfl⟩
    obtain ⟨cur, d₁, hpick, hinv₁, hcur, hdata₁, hlen₁, hstack₁⟩ := pickChild_spec hinv hi (by simp only; omega)
    simp only [step, hstack, closeTop, ht, hlen, hpick, Option.bind_some]
    -- without a byte the stack is shorter, and with one there is room for what was put back
    have hlevel₁ : level buf d₁ + (if len = 0 then 2 else 0) ≤ level buf d := by
      unfold level
      rw [hdata₁, hstack, List.length_cons]
      rcases hstack₁ with hsame | ⟨hne, hmore⟩
      · rw [hsame]
        simp only
        split <;> omega
      · rw [hmore, if_neg hne]
        simp only
        omega
    refine decodeThen_leads (σ := .next cur) hinv₁ hcur fun d₂ hinv₂ hfetched => ?_
    have hcur₂ : cur < d₂.pool.length := hcur.trans_le hfetched.pool_le
    have hle : level buf d₂ ≤ level buf d₁ := hfetched.level_le
    rcases closeEoc_spec hbuf hinv₂ hfetched.beyond with hnone | ⟨hlink, j, stack', d₃, hstack₃, hsome, hinv₃, hst, hdata, hlen₃⟩
    · simp only [hnone, Option.bind_some, Option.getD_none]
      obtain ⟨turn, hturn, hkeeps⟩ := moreRoots_leads numNodes hinv₂ hcur₂
      refine ⟨turn, hturn, hkeeps.mono ?_⟩
      unfold measure weight
      simp only
      by_cases hlink : d₂.link (.next cur) = none
      · rw [if_pos hlink]
        rcases hfetched.cases with ⟨hzero, -⟩ | ⟨⟨k, hk⟩, -⟩
        · rw [hlen₁] at hzero
          simp only at hzero
          rw [if_pos hzero] at hlevel₁
          omega
        · rw [hk] at hlink
          cases hlink
      · have := hfetched.level_lt hinv₂ hlink
        rw [if_neg hlink]
        omega
    · simp only [hsome, Option.bind_some, Option.getD_some]
      have hlevel₃ : level buf d₃ ≤ level buf d₂ := by
        unfold level
        rw [hdata, hst, hstack₃, List.length_cons]
        omega
      have hlt := hfetched.level_lt hinv₂ hlink
      obtain ⟨turn, hturn, hkeeps⟩ := moreRoots_leads numNodes hinv₃
        (hlen₃ ▸ hinv₂.stack j (by simp [hstack₃]))
      refine ⟨turn, hturn, hkeeps.mono ?_⟩
      unfold measure weight
      simp only
      split <;> omega

/-- **A turn** keeps what holds between two turns, without a fault, and lets the measure decrease. -/
theorem good_step (numNodes : ℕ) (hbuf : buf.length < 2 ^ 32) (s : Phase × Decoding) (h : Good buf s) :
    Leads buf (measure buf s) (step buf numNodes s) := by
  obtain ⟨phase, d⟩ := s
  cases phase with
  | outer cur =>
    cases cur with
    | none => exact ⟨_, rfl, h.1.final _⟩
    | some cur => exact ⟨_, rfl, h, by simp [measure, weight]⟩
  | construct cur =>
    cases cur with
    | none => exact ⟨_, rfl, h.1, by simp [measure, weight]⟩
    | some cur =>
      obtain ⟨hinv, hcur⟩ := h
      have hcur : cur < d.pool.length := hcur cur rfl
      have ht := List.getElem?_eq_getElem hcur
      simp only [step, ht, Option.bind_some]
      split
      · exact enter_leads hbuf hinv hcur ht
      · obtain ⟨turn, hturn, hkeeps⟩ := peer_leads numNodes hinv hcur
        exact ⟨turn, hturn, hkeeps.mono (by simp [measure, weight])⟩
  | eocs cur => exact eocs_leads hbuf h
  | close => exact close_leads hbuf h

/-! ### The whole buffer -/

theorem inv_newDecoding (buf : List UInt8) : Inv buf (newDecoding buf) where
  window := by simp [newDecoding]
  nodes := by simp [newDecoding]
  stack_le := by simp [newDecoding]
  stack := by simp [newDecoding]
  child := by simp [newDecoding]
  forest := ⟨fun σ k h => by cases σ <;> simp [newDecoding, Decoding.link] at h,
    fun σ τ k h => by cases σ <;> simp [newDecoding, Decoding.link] at h⟩

/-- Turns that are enough for every buffer of a length. -/
def enoughTurns (length : ℕ) : ℕ := 16 * length + 2 * maxStack + 9

/-- `asn1_decode` comes to a result, without a fault: a forest of nodes that are located in the buffer, but for a
last one that was refused. -/
theorem asn1Decode_safe (hbuf : buf.length < 2 ^ 32) (numNodes : ℕ) :
    ∃ r, Final buf r ∧ ∀ fuel, enoughTurns buf.length ≤ fuel → asn1Decode buf numNodes fuel = .returns r := by
  unfold asn1Decode
  by_cases hnil : buf = []
  · exact ⟨_, (inv_newDecoding buf).final _, fun fuel _ => if_pos hnil⟩
  simp only [if_neg hnil]
  obtain ⟨ret, d, hdecode, hfinal, hok⟩ :=
    asn1DecodeType_spec numNodes (inv_newDecoding buf) (show Slot.Below .root _ from trivial)
  simp only [hdecode]
  by_cases hret : ret = .ok
  · obtain ⟨hinv, -⟩ := hok hret
    simp only [if_pos hret]
    have hgood : Good buf (.outer d.root, d) := ⟨hinv, fun i hi => (hinv.forest.below .root i hi).2⟩
    have hmeasure : measure buf (.outer d.root, d) < enoughTurns buf.length := by
      have hw := weight_le (.outer d.root) d
      have hs := hinv.stack_le
      unfold measure level enoughTurns
      simp only
      omega
    obtain ⟨r, hr, hfinal⟩ := run_returns (good_step numNodes hbuf) hgood hmeasure
    exact ⟨r, hfinal, fun fuel hfuel => run_of_le hr hfuel⟩
  · simp only [if_neg hret]
    exact ⟨_, hfinal hret, fun _ _ => rfl⟩

end Snort.Asn1
