import Snort.Asn1.Model

/-!
# What is read for a node

* `Reads`: a function that does not fault on a window, and how much of it it reads when it succeeds;
* `reads_asn1DecodeTagNumExt`, `reads_asn1DecodeIdent`, `reads_asn1DecodeLenExt`, `reads_asn1DecodeLen`;
* `Located`: a node with its contents inside of the buffer;
* `decodeNode_spec`: a node is located in the window, and at least two bytes are read, unless it is refused.
-/

namespace Snort.Asn1

variable {α : Type} {window rest : List UInt8}

/-- No fault, nothing but a part of the window is left, and at least `least` bytes are read in a success. -/
def Reads (window : List UInt8) (least : ℕ) (result : Option (Ret × List UInt8 × α)) : Prop :=
  ∃ ret rest a, result = some (ret, rest, a) ∧ rest.length ≤ window.length ∧
    (ret = .ok → rest.length + least ≤ window.length)

theorem Reads.of_cons {b : UInt8} {result : Option (Ret × List UInt8 × α)} (h : Reads window 0 result) :
    Reads (b :: window) 1 result := by
  obtain ⟨ret, rest, a, hresult, hle, -⟩ := h
  exact ⟨ret, rest, a, hresult, by simp; omega, fun _ => by simpa using hle⟩

theorem Reads.mono {least least' : ℕ} {result : Option (Ret × List UInt8 × α)} (h : Reads window least result)
    (hle : least' ≤ least) : Reads window least' result := by
  obtain ⟨ret, rest, a, hresult, hlen, hok⟩ := h
  exact ⟨ret, rest, a, hresult, hlen, fun hret => by have := hok hret; omega⟩

theorem reads_asn1DecodeTagNumExt (hne : window ≠ []) (tagNum : ℕ) :
    Reads window 1 (asn1DecodeTagNumExt window tagNum) ∧
      ∀ rest n, asn1DecodeTagNumExt window tagNum = some (.ok, rest, n) → rest ≠ [] := by
  induction window generalizing tagNum with
  | nil => exact absurd rfl hne
  | cons b window ih =>
    simp only [asn1DecodeTagNumExt]
    by_cases hdrop : tagNum ≠ 0 ∧ (128 * tagNum + b.toNat % 128) % 2 ^ 32 ≤ tagNum
    · rw [if_pos hdrop]
      exact ⟨⟨_, _, _, rfl, le_rfl, by simp⟩, by simp⟩
    rw [if_neg hdrop]
    by_cases hlast : window = []
    · rw [if_pos hlast]
      exact ⟨⟨_, _, _, rfl, by simp, by simp⟩, by simp⟩
    rw [if_neg hlast]
    by_cases hext : 128 ≤ b.toNat
    · rw [if_pos hext]
      obtain ⟨hreads, hrest⟩ := ih hlast ((128 * tagNum + b.toNat % 128) % 2 ^ 32)
      exact ⟨(hreads.mono (Nat.zero_le _)).of_cons, hrest⟩
    · rw [if_neg hext]
      refine ⟨⟨_, _, _, rfl, by simp, by simp⟩, ?_⟩
      rintro rest n h
      cases h
      exact hlast

theorem reads_asn1DecodeIdent (hne : window ≠ []) :
    Reads window 1 (asn1DecodeIdent window) ∧
      ∀ rest ident, asn1DecodeIdent window = some (.ok, rest, ident) → rest ≠ [] := by
  obtain ⟨b, window, rfl⟩ := List.exists_cons_of_ne_nil hne
  simp only [asn1DecodeIdent]
  by_cases hlast : window = []
  · rw [if_pos hlast]
    exact ⟨⟨_, _, _, rfl, by simp, by simp⟩, by simp⟩
  rw [if_neg hlast]
  split
  · obtain ⟨⟨ret, rest, n, hresult, hle, -⟩, hrest⟩ := reads_asn1DecodeTagNumExt hlast 0
    rw [hresult]
    refine ⟨⟨_, _, _, rfl, by simp; omega, fun _ => by simpa using hle⟩, ?_⟩
    intro rest' ident h
    simp only [Option.map_some, Option.some.injEq, Prod.mk.injEq] at h
    obtain ⟨hret, rfl, -⟩ := h
    apply hrest rest n
    rw [hresult]
    split at hret
    · rename_i hok
      rw [hok]
    · cases hret
  · refine ⟨⟨_, _, _, rfl, by simp, by simp⟩, ?_⟩
    intro rest ident h
    cases h
    exact hlast

theorem reads_lenExtLoop (bytes : ℕ) (hne : window ≠ []) (size : ℕ) :
    Reads window 0 (lenExtLoop bytes window size) := by
  induction bytes generalizing window size with
  | zero => exact ⟨_, _, _, rfl, le_rfl, by simp⟩
  | succ bytes ih =>
    obtain ⟨b, window, rfl⟩ := List.exists_cons_of_ne_nil hne
    simp only [lenExtLoop]
    split
    · exact ⟨_, _, _, rfl, le_rfl, by simp⟩
    split
    · split
      · exact ⟨_, _, _, rfl, by simp, by simp⟩
      · exact ⟨_, _, _, rfl, by simp, by simp⟩
    · rename_i hlast
      exact (ih hlast _).of_cons.mono (Nat.zero_le _)

theorem reads_asn1DecodeLenExt (window : List UInt8) (hne : window ≠ []) :
    Reads window 1 (asn1DecodeLenExt window) := by
  obtain ⟨b, window, rfl⟩ := List.exists_cons_of_ne_nil hne
  rw [asn1DecodeLenExt]
  split
  · exact ⟨_, _, _, rfl, by simp, by simp⟩
  · rename_i hlast
    exact (reads_lenExtLoop _ hlast 0).of_cons

theorem reads_asn1DecodeLen (hne : window ≠ []) : Reads window 1 (asn1DecodeLen window) := by
  obtain ⟨b, rest, rfl⟩ := List.exists_cons_of_ne_nil hne
  rw [asn1DecodeLen]
  split
  · exact ⟨_, _, _, rfl, by simp, by simp⟩
  split
  · obtain ⟨ret, rest', size, hresult, hle, hok⟩ := reads_asn1DecodeLenExt (b :: rest) (by simp)
    rw [hresult]
    exact ⟨_, _, _, rfl, hle, hok⟩
  · exact ⟨_, _, _, rfl, by simp, by simp⟩

/-! ### Nodes -/

/-- The contents of a node start at some position before `pos`, and end before `finish`. -/
def Located (pos finish : ℕ) (t : Asn1Type) : Prop := ∃ start ≤ pos, t.data = some start ∧ start + t.dataLen ≤ finish

/-- A node that was refused before its contents were found. -/
def Unlocated (t : Asn1Type) : Prop := t.data = none ∧ t.dataLen = 0

theorem Located.mono {pos pos' finish finish' : ℕ} {t : Asn1Type} (h : Located pos finish t) (hpos : pos ≤ pos')
    (hfinish : finish ≤ finish') : Located pos' finish' t := by
  obtain ⟨start, hle, hdata, hlen⟩ := h
  exact ⟨start, hle.trans hpos, hdata, hlen.trans hfinish⟩

/-- What is known of a decoded node, with what is left of a window that ends at `finish`. -/
structure NodeAt (finish : ℕ) (ret : Ret) (rest : List UInt8) (t : Asn1Type) : Prop where
  located : Located (finish - rest.length) finish t ∨ ret ≠ .ok ∧ Unlocated t
  next : t.next = none
  cnext : t.cnext = none

theorem decodeData_spec (finish : ℕ) (rest : List UInt8) {t : Asn1Type} (hrest : rest.length ≤ finish)
    (hdata : Unlocated t) (hnext : t.next = none) (hcnext : t.cnext = none) :
    ∃ ret rest' t', decodeData finish t rest = (ret, rest', t') ∧ rest'.length ≤ rest.length ∧
      NodeAt finish ret rest' t' := by
  have hlocated : ∀ {rest' : List UInt8} {n : ℕ} {eoc : Bool}, rest'.length ≤ rest.length → n ≤ rest.length →
      Located (finish - rest'.length) finish
        { t with data := some (finish - rest.length), dataLen := n, eoc := eoc } := by
    intro rest' n eoc hle hn
    exact ⟨_, Nat.sub_le_sub_left hle _, rfl, by simp only; omega⟩
  unfold decodeData
  simp only
  split
  · split
    · exact ⟨_, _, _, rfl, le_rfl, .inl (hlocated le_rfl (Nat.zero_le _)), hnext, hcnext⟩
    split
    · exact ⟨_, _, _, rfl, le_rfl, .inl (hlocated le_rfl le_rfl), hnext, hcnext⟩
    · exact ⟨_, _, _, rfl, le_rfl, .inr ⟨by simp, hdata⟩, hnext, hcnext⟩
  split
  · exact ⟨_, _, _, rfl, le_rfl, .inl (hlocated le_rfl le_rfl), hnext, hcnext⟩
  · rename_i hlen
    refine ⟨_, _, _, rfl, ?_, .inl (hlocated ?_ (by omega)), hnext, hcnext⟩
    · split <;> simp
    · split <;> simp

/-- A node is decoded without a fault; it is located, and at least two bytes are read, unless it is refused. -/
theorem decodeNode_spec (window : List UInt8) (finish : ℕ) (hne : window ≠ []) (hfinish : window.length ≤ finish) :
    ∃ ret rest t, decodeNode finish window = some (ret, rest, t) ∧ rest.length ≤ window.length ∧
      (ret = .ok → rest.length + 2 ≤ window.length) ∧ NodeAt finish ret rest t := by
  obtain ⟨⟨ret, rest, ident, hident, hle, hok⟩, hrest⟩ := reads_asn1DecodeIdent hne
  unfold decodeNode
  rw [hident, Option.bind_some]
  simp only
  by_cases hret : ret = .ok
  · subst hret
    have hlen := hok rfl
    obtain ⟨ret', rest', len, hresult, hle', hok'⟩ := reads_asn1DecodeLen (hrest rest ident hident)
    rw [if_neg (by simp), hresult, Option.map_some]
    by_cases hret' : ret' = .ok
    · subst hret'
      have hlen' := hok' rfl
      rw [if_neg (by simp)]
      obtain ⟨ret'', rest'', t, hdata, hle'', hnode⟩ := decodeData_spec finish rest'
        (t := { newNode with ident := ident, len := len }) (by omega) ⟨rfl, rfl⟩ rfl rfl
      rw [hdata]
      exact ⟨_, _, _, rfl, by omega, fun _ => by omega, hnode⟩
    · rw [if_pos hret']
      exact ⟨ret', rest', _, rfl, by omega, fun h => absurd h hret', .inr ⟨hret', rfl, rfl⟩, rfl, rfl⟩
  · rw [if_pos hret]
    exact ⟨_, _, _, rfl, hle, fun h => absurd h hret, .inr ⟨hret, rfl, rfl⟩, rfl, rfl⟩

end Snort.Asn1
