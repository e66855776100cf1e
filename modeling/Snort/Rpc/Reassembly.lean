import Snort.Rpc.Rounds

/-!
# Reassembly of RPC records

* `inspectData_spec`: what a packet does, and what is left for the next one;
* `rpcRun_success`: every cut of a stream of records is inspected without an error;
* `reassembled_iff`: the records are reassembled if and only if none has more than one fragment.

The data of fragments is decoded without the four bytes of its header in the length.
-/

namespace Snort.Rpc

variable {s : RpcSsnData} {data later : List Byte} {f : Fragment} {fs : List Fragment}

/-! ### Between packets -/

/-- Between packets: what is to be ignored of `later`, and what goes on behind it. -/
structure Waiting (s : RpcSsnData) (later : List Byte) (fs : List Fragment) : Prop where
  frag : s.frag.data.length ≤ rpcMaxBufSize
  behind : ∃ fs' skip rest, fs' <:+ fs ∧ skip.length = s.ignore ∧ later = skip ++ rest ∧
    (skip ≠ [] → s.seg.data = []) ∧ Aligned { s with ignore := 0 } [] rest fs'

/-- Nothing is ignored. -/
theorem Aligned.waiting {fs' : List Fragment} (hfs' : fs' <:+ fs) (h : Aligned s [] later fs')
    (hfrag : s.frag.data.length ≤ rpcMaxBufSize) : Waiting s later fs :=
  ⟨hfrag, fs', [], later, hfs', h.ignore.symm, rfl, fun hne => absurd rfl hne, rfl, h.bytes, h.part, h.header⟩

/-- The decode buffer shows no record. -/
def ShowsNothing (decode : Option Decode) : Prop := ∀ d, decode = some d → ∀ data, ¬d.Shows data

/-- Behind the loop, fragments are decoded, or the start of a fragment. -/
theorem rpcPrep_spec (h : Aligned s [] later fs) (hfs : ∀ f ∈ fs, f.Fits)
    (hroom : s.frag.data.length ≤ decodeBlen - 4) :
    ∃ onReturn s', rpcPrep s = some (onReturn, s') ∧ s'.nseq = s.nseq ∧ ShowsNothing onReturn ∧
      Waiting s' later fs := by
  unfold rpcPrep
  by_cases hfrag : s.frag.data = []
  · have hempty : s.frag.data.length ≤ rpcMaxBufSize := by
      rw [hfrag]
      exact Nat.zero_le _
    rw [if_neg (not_not.2 hfrag)]
    by_cases hseg : s.seg.data = []
    · rw [if_neg (not_not.2 hseg)]
      exact ⟨none, s, rfl, rfl, fun _ hd => absurd hd (Option.some_ne_none _).symm,
        h.waiting (List.suffix_refl _) hempty⟩
    obtain ⟨f, fs', rfl, hlt⟩ := h.part hseg
    have hf := hfs f List.mem_cons_self
    have hle : f.data.length ≤ 256 := hf.2
    have hbytes := h.bytes
    rw [List.append_nil, fragmentBytes_cons] at hbytes
    obtain ⟨rest, hrest⟩ : s.seg.data <+: f.bytes :=
      List.prefix_of_prefix_length_le ⟨later, hbytes⟩ (List.prefix_append _ _) (le_of_lt hlt)
    have hlen := congrArg List.length hrest
    rw [length_bytes] at hlt
    rw [List.length_append, length_bytes] at hlen
    have hne : rest ≠ [] := by
      rintro rfl
      rw [List.length_nil] at hlen
      omega
    have hlater : later = rest ++ fragmentBytes fs' := by
      rw [← hrest, List.append_assoc] at hbytes
      exact List.append_cancel_left hbytes
    have hnothing : ShowsNothing (some ⟨values s.seg.data, s.seg.data.length⟩) := by
      intro d hd data
      rw [← Option.some.inj hd]
      exact not_shows_part hf hrest hne data
    rw [if_pos hseg]
    rcases le_or_gt s.seg.data.length rpcMaxBufSize with hshort | hlong
    · rw [rpcPrepSeg_short hseg hshort]
      exact ⟨_, _, rfl, rfl, hnothing, h.waiting (List.suffix_refl _) hempty⟩
    · have hfour : 4 ≤ s.seg.data.length := by
        unfold rpcMaxBufSize at hlong
        omega
      have hheader : s.fragLen = f.data.length := (h.header hfour).trans (rpcFragLen_head hf hfour hbytes)
      rw [rpcPrepSeg_long hlong (by omega) (by rw [hheader]; exact hf.2)]
      refine ⟨_, _, rfl, rfl, hnothing, hempty, fs', rest, fragmentBytes fs', List.suffix_cons _ _, ?_, hlater,
        fun _ => rfl, rfl, rfl, fun hne => absurd rfl hne, fun hfour => absurd hfour (by simp)⟩
      simp only
      omega
  · obtain ⟨frag, hprep, hmax⟩ := rpcPrepFrag_eq hfrag hroom
    have hnothing : ShowsNothing (some (fragDecode s.frag.data)) := by
      intro d hd data
      rw [← Option.some.inj hd]
      unfold decodeBlen at hroom
      exact not_shows_fragDecode (by omega) data
    rw [if_pos hfrag, hprep]
    exact ⟨_, _, rfl, rfl, hnothing,
      Aligned.waiting (List.suffix_refl _) ⟨h.ignore, h.bytes, h.part, h.header⟩ hmax⟩

/-! ### A packet -/

theorem Waiting.of_suffix {fs' : List Fragment} (hfs' : fs' <:+ fs) (h : Waiting s later fs') : Waiting s later fs := by
  obtain ⟨hfrag, fs'', skip, rest, hfs'', hskip⟩ := h
  exact ⟨hfrag, fs'', skip, rest, hfs''.trans hfs', hskip⟩

/-- What comes of a packet: rounds at the ends of fragments, and on return nothing that a record is seen in. -/
structure GoodInspection (fs : List Fragment) (total : ℕ) (i : Inspection) : Prop where
  rounds : ∀ round ∈ i.rounds, GoodRound fs total round
  onReturn : ShowsNothing i.onReturn

theorem rpcFragments_spec (dsize : ℕ) (h : Aligned s data later fs) (hfs : ∀ f ∈ fs, f.Fits)
    (hfrag : s.frag.data.length ≤ rpcMaxBufSize) (hdata : data.length ≤ 65535) (hnseq : data.length ≤ s.nseq) :
    ∃ i, rpcFragments dsize s data = some i ∧ i.ssn.nseq = s.nseq ∧
      GoodInspection fs (s.nseq + later.length) i ∧ Waiting i.ssn later fs := by
  have hbudget : budget s data ≤ maxBudget := by
    unfold budget maxBudget rpcMaxBufSize at *
    split_ifs
    all_goals omega
  obtain ⟨rounds, s₁, hloop, hnseq₁, hroom, ⟨fs₁, hfs₁, haligned⟩, hrounds⟩ :=
    rpcLoop_spec dsize h hfs hbudget hnseq
  obtain ⟨onReturn, s₂, hprep, hnseq₂, hnothing, hwaiting⟩ :=
    rpcPrep_spec haligned (fun f hf => hfs f (hfs₁.subset hf)) hroom
  unfold rpcFragments
  rw [hloop, Option.bind_some, hprep]
  exact ⟨_, rfl, hnseq₂.trans hnseq₁, ⟨hrounds, hnothing⟩, hwaiting.of_suffix hfs₁⟩

theorem inspectData_spec (dsize seq : ℕ) (h : Waiting s (data ++ later) fs) (hfs : ∀ f ∈ fs, f.Fits)
    (hdata : data.length ≤ 65535) (hwrap : seq + data.length < 2 ^ 32) :
    ∃ i, inspectData dsize s seq data = some i ∧ i.ssn.nseq = seq + data.length ∧
      GoodInspection fs (seq + data.length + later.length) i ∧ Waiting i.ssn later fs := by
  obtain ⟨hfrag, fs', skip, rest, hfs', hskip, hlater, hseg, haligned⟩ := h
  have hfits : ∀ f ∈ fs', f.Fits := fun f hf => hfs f (hfs'.subset hf)
  unfold inspectData
  simp only [Nat.mod_eq_of_lt hwrap]
  by_cases hignore : s.ignore = 0
  · obtain rfl := List.length_eq_zero_iff.1 (hskip.trans hignore)
    rw [if_neg (not_not.2 hignore)]
    obtain ⟨i, hi, hnseq, hgood, hwaiting⟩ :=
      @rpcFragments_spec { s with nseq := seq + data.length } data later fs' dsize
        ⟨hignore, by rw [List.append_assoc, hlater, ← haligned.bytes, List.append_nil, List.nil_append],
          haligned.part, haligned.header⟩ hfits hfrag hdata (Nat.le_add_left _ _)
    exact ⟨i, hi, hnseq, ⟨fun round hround => (hgood.rounds round hround).of_suffix hfs', hgood.onReturn⟩,
      hwaiting.of_suffix hfs'⟩
  · have hne : skip ≠ [] := by
      rintro rfl
      exact hignore hskip.symm
    rw [if_pos hignore]
    by_cases hshort : data.length < s.ignore
    · rw [if_pos hshort]
      obtain ⟨skip', rfl⟩ : data <+: skip :=
        List.prefix_of_prefix_length_le ⟨later, hlater⟩ (List.prefix_append _ _) (by omega)
      rw [List.append_assoc] at hlater
      rw [List.length_append] at hskip
      refine ⟨_, rfl, rfl, ⟨fun _ hround => absurd hround List.not_mem_nil,
        fun _ hd => absurd hd (Option.some_ne_none _).symm⟩, hfrag, fs', skip', rest, hfs', ?_,
        List.append_cancel_left hlater, fun _ => hseg hne,
        rfl, haligned.bytes, haligned.part, haligned.header⟩
      simp only
      omega
    · rw [if_neg hshort]
      obtain ⟨data', rfl⟩ : skip <+: data :=
        List.prefix_of_prefix_length_le ⟨rest, hlater.symm⟩ (List.prefix_append _ _) (by omega)
      rw [List.append_assoc] at hlater
      have hrest := List.append_cancel_left hlater
      rw [← hskip, List.drop_left]
      rw [List.length_append] at hdata
      obtain ⟨i, hi, hnseq, hgood, hwaiting⟩ :=
        @rpcFragments_spec { s with nseq := seq + (skip ++ data').length, ignore := 0 } data' later fs' dsize
          ⟨rfl, by rw [List.append_assoc, hrest, ← haligned.bytes, List.append_nil], haligned.part, haligned.header⟩
          hfits hfrag (by omega) (by simp only [List.length_append]; omega)
      exact ⟨i, hi, hnseq, ⟨fun round hround => (hgood.rounds round hround).of_suffix hfs', hgood.onReturn⟩,
        hwaiting.of_suffix hfs'⟩

/-! ### The packets of a session -/

/-- Every cut of a stream into packets is inspected. -/
theorem rpcRun_spec {seq : ℕ} {packets : List (List Byte)} (h : Waiting s packets.flatten fs)
    (hfs : ∀ f ∈ fs, f.Fits) (hseq : s.nseq = seq ∨ s.nseq = 0) (hshort : ∀ p ∈ packets, p.length < 2 ^ 16)
    (hwrap : seq + packets.flatten.length < 2 ^ 32) :
    ∃ run, rpcRun s seq packets = some run ∧
      ∀ r ∈ run, GoodInspection fs (seq + packets.flatten.length) r.2 := by
  induction packets generalizing s seq with
  | nil => exact ⟨[], rfl, fun _ hr => absurd hr List.not_mem_nil⟩
  | cons data packets ih =>
    rw [List.flatten_cons] at h
    rw [List.flatten_cons, List.length_append] at hwrap
    have hdata := hshort data List.mem_cons_self
    obtain ⟨i, hi, hnseq, hgood, hwaiting⟩ :=
      inspectData_spec data.length seq h hfs (by omega) (by omega)
    have hinspect : rpcStatefulInspection s ⟨seq, data⟩ = some i := by
      unfold rpcStatefulInspection
      rw [if_neg fun hne => hseq.elim hne.1 hne.2]
      exact hi
    obtain ⟨run, hrun, hall⟩ := ih hwaiting (.inl hnseq) (fun p hp => hshort p (List.mem_cons_of_mem _ hp)) (by omega)
    rw [List.flatten_cons, List.length_append, ← Nat.add_assoc]
    refine ⟨(⟨seq, data⟩, i) :: run, ?_, fun r hr => ?_⟩
    · rw [rpcRun, hinspect, Option.bind_some, hrun]
      rfl
    · rcases List.mem_cons.1 hr with rfl | hr
      · exact hgood
      · exact hall r hr

/-! ### The fragments of a stream -/

theorem mem_streamFragments {record : ℕ} {records : List Record} (hf : f ∈ streamFragments record records) :
    ∃ r ∈ records, f.data ∈ r.fragments := by
  induction records generalizing record with
  | nil => exact absurd hf List.not_mem_nil
  | cons r records ih =>
    rcases List.mem_append.1 hf with hf | hf
    · refine ⟨r, List.mem_cons_self, ?_⟩
      generalize r.fragments = datas at hf
      induction datas with
      | nil => exact absurd hf List.not_mem_nil
      | cons data datas ih =>
        rcases List.mem_cons.1 hf with rfl | hf
        · exact List.mem_cons_self
        · exact List.mem_cons_of_mem _ (ih hf)
    · obtain ⟨r', hr', hdata⟩ := ih hf
      exact ⟨r', List.mem_cons_of_mem _ hr', hdata⟩

theorem streamFragments_fits (records : List Record) : ∀ f ∈ streamFragments 0 records, f.Fits := by
  intro f hf
  obtain ⟨r, -, hdata⟩ := mem_streamFragments hf
  exact ⟨r.pos _ hdata, (List.sublist_flatten_of_mem hdata).length_le.trans r.fits⟩

theorem streamFragments_append (record : ℕ) (pre post : List Record) :
    streamFragments record (pre ++ post) =
      streamFragments record pre ++ streamFragments (record + pre.length) post := by
  induction pre generalizing record with
  | nil => rfl
  | cons r pre ih =>
    rw [List.cons_append, streamFragments, streamFragments, ih, List.append_assoc, List.length_cons,
      Nat.add_assoc, Nat.add_comm 1]

/-- The last fragment of a record. -/
theorem recordFragments_concat (record : ℕ) (init : List (List UInt8)) (data : List UInt8) :
    ∃ fs, recordFragments record (init ++ [data]) = fs ++ [⟨true, data, record⟩] := by
  induction init with
  | nil => exact ⟨[], rfl⟩
  | cons first init ih =>
    obtain ⟨fs, hfs⟩ := ih
    exact ⟨⟨(init ++ [data]).isEmpty, first, record⟩ :: fs, by
      rw [List.cons_append, recordFragments, hfs, List.cons_append]⟩

/-- Fragments at the end of a stream are known from their length. -/
theorem eq_of_suffix {fs₁ fs₂ : List Fragment} (h₁ : fs₁ <:+ fs) (h₂ : fs₂ <:+ fs)
    (hlen : (fragmentBytes fs₁).length = (fragmentBytes fs₂).length) : fs₁ = fs₂ := by
  have hnil : ∀ fs : List Fragment, (fragmentBytes fs).length = 0 → fs = [] := by
    intro fs hfs
    cases fs with
    | nil => rfl
    | cons f fs =>
      rw [fragmentBytes_cons, List.length_append, length_bytes] at hfs
      omega
  rcases List.suffix_or_suffix_of_suffix h₁ h₂ with ⟨t, rfl⟩ | ⟨t, rfl⟩
  · rw [fragmentBytes_append, List.length_append] at hlen
    rw [hnil t (by omega), List.nil_append]
  · rw [fragmentBytes_append, List.length_append] at hlen
    rw [hnil t (by omega), List.nil_append]

/-! ### Reassembly -/

/-- A cut of the stream of some records into consecutive packets, the first with sequence number `isn`. -/
structure Cut (records : List Record) where
  isn : ℕ
  packets : List (List Byte)
  flatten_eq : packets.flatten = stream records
  pos : ∀ p ∈ packets, p ≠ []
  short : ∀ p ∈ packets, p.length < 2 ^ 16
  noWrap : isn + (stream records).length < 2 ^ 32

/-- The record that ends at the sequence number `stop` is in the decode buffer, when `Detect` is called at its end,
or on return from the packet that completes it. -/
def DecodedAt (run : List (Packet × Inspection)) (stop : ℕ) (data : List UInt8) : Prop :=
  ∃ r ∈ run, (r.1.seq < stop ∧ stop ≤ r.1.seq + r.1.data.length) ∧
    ((∃ round ∈ r.2.rounds, round.stop = stop ∧ ∃ d, round.detected = some d ∧ d.Shows data) ∨
      ∃ d, r.2.onReturn = some d ∧ d.Shows data)

/-- In the round from the sequence number `start`, nothing is buffered of the given record. -/
def ClearAt (run : List (Packet × Inspection)) (start : ℕ) (record : ℕ) : Prop :=
  ∀ r ∈ run, ∀ round ∈ r.2.rounds, round.start = start →
    ∀ byte ∈ round.before.frag.data ++ round.before.seg.data, byte.record ≠ record

/-- A fresh session inspects all packets, and each record of some fragments is decoded as one fragment and leaves
nothing behind. -/
def Reassembled (records : List Record) (cut : Cut records) : Prop :=
  ∃ run, rpcRun rpcSsnDataNew cut.isn cut.packets = some run ∧
    ∀ pre r post, records = pre ++ r :: post → 2 ≤ r.fragments.length →
      DecodedAt run (cut.isn + (stream (pre ++ [r])).length) r.data ∧
        ClearAt run (cut.isn + (stream (pre ++ [r])).length) pre.length

variable {records : List Record}

theorem rpcRun_good (cut : Cut records) :
    ∃ run, rpcRun rpcSsnDataNew cut.isn cut.packets = some run ∧
      ∀ r ∈ run, GoodInspection (streamFragments 0 records) (cut.isn + (stream records).length) r.2 := by
  have hwaiting : Waiting rpcSsnDataNew cut.packets.flatten (streamFragments 0 records) := by
    refine Aligned.waiting (List.suffix_refl _) ⟨rfl, ?_, fun hne => absurd rfl hne, fun hfour => ?_⟩ (Nat.zero_le _)
    · rw [cut.flatten_eq]
      rfl
    · exact absurd hfour (by simp [rpcSsnDataNew])
  have hrun := rpcRun_spec hwaiting (streamFragments_fits records) (.inr rfl) cut.short
    (by rw [cut.flatten_eq]; exact cut.noWrap)
  rwa [cut.flatten_eq] at hrun

/-- **No errors**: every cut of a stream of records is inspected with `RPC_STATUS__SUCCESS`. -/
theorem rpcRun_success (cut : Cut records) : (rpcRun rpcSsnDataNew cut.isn cut.packets).isSome := by
  obtain ⟨run, hrun, -⟩ := rpcRun_good cut
  rw [hrun]
  rfl

/-- A record of more than one fragment is never decoded. -/
theorem not_decodedAt (cut : Cut records) {run : List (Packet × Inspection)}
    (hrun : rpcRun rpcSsnDataNew cut.isn cut.packets = some run) {pre post : List Record} {r : Record}
    (hrecords : records = pre ++ r :: post) (hr : 2 ≤ r.fragments.length) :
    ¬DecodedAt run (cut.isn + (stream (pre ++ [r])).length) r.data := by
  obtain ⟨run', hrun', hgood⟩ := rpcRun_good cut
  obtain rfl := Option.some.inj (hrun'.symm.trans hrun)
  rintro ⟨entry, hentry, -, ⟨round, hround, hstop, d, hd, hshows⟩ | ⟨d, hd, hshows⟩⟩
  · obtain ⟨f, fs', hsuffix, htotal, hdecode⟩ := (hgood entry hentry).rounds round hround d hd
    obtain ⟨init, data, hfragments⟩ := r.fragments.eq_nil_or_concat'.resolve_left r.nonempty
    obtain ⟨fs, hfs⟩ := recordFragments_concat (0 + pre.length) init data
    have hstream : streamFragments 0 (pre ++ [r]) ++ streamFragments (0 + pre.length + 1) post =
        streamFragments 0 records := by
      rw [hrecords, streamFragments_append, streamFragments_append, streamFragments, streamFragments,
        List.append_nil, List.append_assoc]
      rfl
    have hlast : ⟨true, data, 0 + pre.length⟩ :: streamFragments (0 + pre.length + 1) post <:+
        streamFragments 0 records := by
      refine ⟨streamFragments 0 pre ++ fs, ?_⟩
      rw [← hstream, streamFragments_append, streamFragments, streamFragments, hfragments, hfs]
      simp only [List.append_assoc, List.append_nil, List.cons_append, List.nil_append]
    have hrest : fs' = streamFragments (0 + pre.length + 1) post := by
      apply eq_of_suffix ((List.suffix_cons f fs').trans hsuffix) ((List.suffix_cons _ _).trans hlast)
      rw [stream, ← hstream, fragmentBytes_append, List.length_append, hstop] at htotal
      unfold stream at htotal
      omega
    obtain rfl := hrest
    have hf : f = ⟨true, data, 0 + pre.length⟩ := by
      rcases List.suffix_or_suffix_of_suffix hsuffix hlast with h | h
      · exact (List.cons.inj (h.eq_of_length rfl)).1
      · exact (List.cons.inj (h.eq_of_length rfl)).1.symm
    rcases hdecode with rfl | ⟨frag, hfrag, rfl⟩
    · have hlen := length_of_shows hshows
      -- the other fragments are not empty
      rw [hf, Record.data, hfragments, List.flatten_append, List.length_append] at hlen
      rw [hfragments, List.length_append] at hr
      obtain ⟨first, hfirst⟩ := List.exists_mem_of_length_pos (show 0 < init.length by simp at hr; omega)
      have hpos := List.length_pos_iff.2 (r.pos first (by rw [hfragments]; exact List.mem_append_left _ hfirst))
      have hle := (List.sublist_flatten_of_mem hfirst).length_le
      rw [List.flatten_singleton] at hlen
      simp only at hlen
      omega
    · exact not_shows_fragDecode hfrag _ hshows
  · exact (hgood entry hentry).onReturn d hd _ hshows

/-- **Records of fragments**: the records of a stream, cut into packets in any way, are reassembled if and only if
each of them is one fragment. -/
theorem reassembled_iff (records : List Record) (cut : Cut records) :
    Reassembled records cut ↔ ∀ r ∈ records, r.fragments.length = 1 := by
  constructor
  · rintro ⟨run, hrun, hall⟩ r hr
    have hpos := List.length_pos_iff.2 r.nonempty
    by_contra hne
    obtain ⟨pre, post, hrecords⟩ := List.append_of_mem hr
    exact not_decodedAt cut hrun hrecords (by omega) (hall pre r post hrecords (by omega)).1
  · intro hone
    obtain ⟨run, hrun, -⟩ := rpcRun_good cut
    refine ⟨run, hrun, fun pre r post hrecords hr => ?_⟩
    have hlen := hone r (hrecords ▸ List.mem_append_right _ List.mem_cons_self)
    exact absurd hr (by omega)

/-! ### A record of two fragments -/

/-- A record of two bytes, each in a fragment of its own. -/
def twoFragments : Record := ⟨[[65], [66]], by decide, by decide, by decide⟩

/-- Its stream in one packet. -/
def onePacket : Cut [twoFragments] := ⟨1, [stream [twoFragments]], by decide, by decide, by decide, by decide⟩

/-- `Detect` sees the second fragment alone, and on return the decode buffer is cut within the data. -/
theorem fragments_not_reassembled :
    ((rpcRun rpcSsnDataNew 1 [stream [twoFragments]]).map fun run =>
        run.map fun r => (r.2.rounds.map Round.detected, r.2.onReturn)) =
      some [([none, some ⟨[0x80, 0, 0, 1, 66], 5⟩], some ⟨[0x80, 0, 0, 2, 65, 66], 2⟩)] ∧
      ¬Reassembled [twoFragments] onePacket := by
  constructor
  · have hfirst : rpcRound 10 { rpcSsnDataNew with nseq := 11 } (stream [twoFragments]) =
        some ⟨{ rpcSsnDataNew with
          fragLen := 1, nseq := 11, frag := ⟨[⟨65, 0⟩], 28, by decide, by decide⟩ }, none,
          some ((stream [twoFragments]).drop 5)⟩ := by decide +kernel
    have hsecond : rpcRound 10 { rpcSsnDataNew with
          fragLen := 1, nseq := 11, frag := ⟨[⟨65, 0⟩], 28, by decide, by decide⟩ }
        ((stream [twoFragments]).drop 5) =
        some ⟨{ rpcSsnDataNew with
          fragLen := 1, nseq := 11, frag := ⟨[⟨65, 0⟩, ⟨66, 0⟩], 28, by decide, by decide⟩ },
          some ⟨[0x80, 0, 0, 1, 66], 5⟩, some []⟩ := by decide +kernel
    have hloop : rpcLoop 10 { rpcSsnDataNew with nseq := 11 } (stream [twoFragments]) = some
        ([⟨{ rpcSsnDataNew with nseq := 11 }, 1, 6, none⟩,
          ⟨{ rpcSsnDataNew with
            fragLen := 1, nseq := 11, frag := ⟨[⟨65, 0⟩], 28, by decide, by decide⟩ }, 6, 11,
            some ⟨[0x80, 0, 0, 1, 66], 5⟩⟩],
          { rpcSsnDataNew with
            fragLen := 1, nseq := 11, frag := ⟨[⟨65, 0⟩, ⟨66, 0⟩], 28, by decide, by decide⟩ }) := by
      rw [rpcLoop_next (by decide) hfirst rfl, rpcLoop_next (by decide) hsecond rfl, rpcLoop, if_pos rfl]
      rfl
    have hrun : rpcStatefulInspection rpcSsnDataNew ⟨1, stream [twoFragments]⟩ =
        (rpcLoop 10 { rpcSsnDataNew with nseq := 11 } (stream [twoFragments])).bind fun r =>
          (rpcPrep r.2).map fun prep => ⟨r.1, prep.1, prep.2⟩ := by rfl
    rw [rpcRun, hrun, hloop]
    rfl
  · rintro ⟨run, hrun, hall⟩
    have hsplit : [twoFragments] = [] ++ twoFragments :: [] := rfl
    exact not_decodedAt onePacket hrun hsplit le_rfl (hall [] twoFragments [] hsplit le_rfl).1

end Snort.Rpc
