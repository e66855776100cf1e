import Snort.HiPaf.Messages

/-!
# Both directions of a connection

`hi_paf` scans the two directions of a connection apart; all that it tells one of the other is the flag
that `hi_update_peer` sets at the end of a HEAD request.

* `Conn`, `Conn.request`, `Conn.response`: a connection, and one more byte of a request or a response.
* `Run`: the bytes of a list of exchanges in any order in which a response follows its request.
* `Tracks`, `Rests`: a direction before and behind the point at which it selects the end of a message;
  **`Tracks.byte`** is one byte further.
* `Inside`, `Between`: where a direction is in its messages.
-/

namespace Snort.HiPaf

open Scanner Framer

/-! ### Connections -/

/-- What `hi_paf` keeps of one direction, and how many bytes go by before it is called again. -/
structure Dir where
  hip : Option HiState := none
  ahead : ℕ := 0
  aborted : Bool := false
  deriving DecidableEq

/-- A point that `hi_paf` has selected among the responses. -/
structure Selected where
  point : ℕ
  bodyless : Bool
  deriving DecidableEq

/-- A connection: both directions, how many points are selected among the requests and which among the
responses, and how many bytes of the responses there have been. -/
structure Conn where
  client : Dir := {}
  server : Dir := {}
  requests : ℕ := 0
  responses : List Selected := []
  served : ℕ := 0
  deriving DecidableEq

/-- What a direction does next, on what `hi_paf` has returned for one byte. -/
def PafResult.next (r : PafResult) : Dir :=
  match r.paf with
  | .abort => ⟨some r.state, 0, true⟩
  | .skip | .flush => ⟨some r.state, r.fp.toNat - 1, false⟩
  | _ => ⟨some r.state, 0, false⟩

/-- A byte of a request. -/
def Conn.request (c : Conn) (b : Byte) : Conn :=
  if c.client.aborted then c
  else if c.client.ahead ≠ 0 then { c with client := { c.client with ahead := c.client.ahead - 1 } }
  else
    let r := hiPaf true c.client.hip c.server.hip [b]
    { c with
      client := r.next
      server := { c.server with hip := r.peer }
      requests := if r.paf = .flush then c.requests + 1 else c.requests }

/-- A byte of a response.  There is no `HIF_REQ` in its state, so that `hi_update_peer` does nothing. -/
def Conn.response (c : Conn) (b : Byte) : Conn :=
  if c.server.aborted then { c with served := c.served + 1 }
  else if c.server.ahead ≠ 0 then
    { c with server := { c.server with ahead := c.server.ahead - 1 }, served := c.served + 1 }
  else
    let r := hiPaf false c.server.hip none [b]
    let t := (hiScanMsg (startState false c.server.hip) b 0).2.1
    { c with
      server := r.next
      served := c.served + 1
      responses :=
        if r.paf = .flush then c.responses ++ [⟨c.served + r.fp.toNat, t.bodyless⟩]
        else c.responses }

/-- The next byte of the requests makes `hi_update_peer` flag the responses. -/
def Conn.flags (c : Conn) (b : Byte) : Bool :=
  c.client.aborted = false ∧ c.client.ahead = 0 ∧ (hiPaf true c.client.hip none [b]).peer.isSome

/-- The flag is for the response that comes next: as many points are selected in both directions. -/
def InOrder (c : Conn) (b : Byte) : Prop := c.flags b = true → c.responses.length = c.requests

/-! ### Runs -/

/-- A request and its response. -/
structure Exchange where
  request : Request
  response : Response request.isHead

/-- The requests, one after the other. -/
def requestBytes (es : List Exchange) : List Byte := (es.map fun e => e.request.bytes).flatten

/-- The responses, one after the other. -/
def responseBytes (es : List Exchange) : List Byte := (es.map fun e => e.response.bytes).flatten

/-- The bytes of the requests and of the responses that have come so far, and what has become of the
connection.  No byte of a response comes before the last one of its request. -/
inductive Run (ok : Conn → Byte → Prop) (es : List Exchange) :
    List Byte → List Byte → Conn → Prop
  | start : Run ok es [] [] {}
  | request {xs ys : List Byte} {c : Conn} {b : Byte} (h : Run ok es xs ys c)
    (hx : xs ++ [b] <+: requestBytes es) (hok : ok c b) : Run ok es (xs ++ [b]) ys (c.request b)
  | response {xs ys : List Byte} {c : Conn} {b : Byte} (h : Run ok es xs ys c)
    (hy : ys ++ [b] <+: responseBytes es)
    (hafter : ∀ k, (responseBytes (es.take k)).length ≤ ys.length →
      (requestBytes (es.take (k + 1))).length ≤ xs.length) : Run ok es xs (ys ++ [b]) (c.response b)

/-! ### One byte of a message -/

/-- The flag that `hi_update_peer` sets, in the state of the peer. -/
def flagged (peer : Option HiState) : HiState :=
  { startState false peer with flags := { (startState false peer).flags with nob := true } }

theorem startState_flagged {peer : Option HiState} {b : Bool}
    (h : startState false peer = messageStart false b) :
    startState false (some (flagged peer)) = messageStart false true := by
  show flagged peer = _
  rw [flagged, h]
  rfl

theorem hiUpdatePeer_of_flagged {s : HiState} (h : s.flags.nob = true ∧ s.flags.req = true)
    (peer : Option HiState) : hiUpdatePeer s peer = some (flagged peer) := if_pos h

theorem hiUpdatePeer_isSome (s : HiState) :
    (hiUpdatePeer s none).isSome = true ↔ s.flags.nob = true ∧ s.flags.req = true := by
  unfold hiUpdatePeer
  split_ifs with h
  · exact ⟨fun _ => h, fun _ => rfl⟩
  · exact ⟨nofun, fun h' => absurd h' h⟩

theorem hiUpdatePeer_eq (s : HiState) (peer : Option HiState) :
    hiUpdatePeer s peer = if (hiUpdatePeer s none).isSome = true then some (flagged peer) else peer := by
  by_cases h : s.flags.nob = true ∧ s.flags.req = true
  · rw [if_pos ((hiUpdatePeer_isSome s).2 h), hiUpdatePeer_of_flagged h]
  · rw [if_neg fun h' => h ((hiUpdatePeer_isSome s).1 h')]
    exact if_neg h

/-- A direction in front of the rest of a message whose end is not selected yet; `t` is the state that
selects it. -/
structure Tracks (fromClient : Bool) (d : Dir) (x : List Byte) (t : HiState) : Prop where
  aborted : d.aborted = false
  err : (startState fromClient d.hip).flags.err = false
  ends : run byteStep (.skip (startState fromClient d.hip) d.ahead) x = .stop (.search t) x.length

/-- A direction that has selected the end of a message, `n` bytes before it. -/
structure Rests (fromClient : Bool) (d : Dir) (start : HiState) (n : ℕ) : Prop where
  aborted : d.aborted = false
  hip : startState fromClient d.hip = start
  ahead : d.ahead = n

variable {fromClient : Bool} {d : Dir} {x : List Byte} {t start : HiState} {b : Byte} {n : ℕ}

theorem Tracks.ne_nil (h : Tracks fromClient d x t) : x ≠ [] := by
  rintro rfl
  exact nomatch h.ends

/-- A byte that is passed over. -/
theorem Tracks.pass (h : Tracks fromClient d (b :: x) t) (hne : d.ahead ≠ 0) :
    Tracks fromClient { d with ahead := d.ahead - 1 } x t := by
  refine ⟨h.aborted, h.err, ?_⟩
  obtain ⟨a, ha⟩ := Nat.exists_eq_succ_of_ne_zero hne
  have hrun := h.ends
  have hstep : step (single hiVerdict) (.skip (startState fromClient d.hip) (a + 1)) b =
      .inl (.skip (startState fromClient d.hip) a) := rfl
  rw [ha, run_cons_inl _ hstep] at hrun
  obtain ⟨j, hj, hlen⟩ := Outcome.of_shift_eq_stop hrun
  rw [List.length_cons] at hlen
  rw [ha, Nat.succ_sub_one, hj]
  congr 1
  omega

/-- What `hi_paf` returns for a byte of a message whose end is not selected yet. -/
structure Goes (fromClient : Bool) (r : PafResult) (x : List Byte) (t : HiState) : Prop where
  paf : r.paf ≠ .flush
  next : Tracks fromClient r.next x t
  peer : r.peer.isSome = true → t.flags.nob = true

/-- What it returns for the byte that selects the end. -/
structure Selects (fromClient : Bool) (r : PafResult) (x : List Byte) (t : HiState) : Prop where
  paf : r.paf = .flush
  next : Rests fromClient r.next (hiReset fromClient) x.length
  fp : r.fp.toNat = x.length + 1
  peer : r.peer.isSome = true ↔ t.flags.nob = true ∧ t.flags.req = true

theorem Tracks.byte (h : Tracks fromClient d (b :: x) t) (hzero : d.ahead = 0) :
    Goes fromClient (hiPaf fromClient d.hip none [b]) x t ∨
      Selects fromClient (hiPaf fromClient d.hip none [b]) x t ∧
        (hiScanMsg (startState fromClient d.hip) b 0).2.1 = t := by
  have hrun := h.ends
  rw [hzero, run_skip_zero _ (List.cons_ne_nil b x)] at hrun
  rw [hiPaf_eq fromClient d.hip none [b] h.err]
  generalize startState fromClient d.hip = s at *
  cases hbyte : scanByte s b with
  | inl s' =>
    have hmore : run scanByte s [b] = .more s' := run_cons_inl [] hbyte
    have happend : run byteStep (.search s) (b :: x) = _ :=
      run_append_more x (run_byteStep_more hmore)
    rw [happend] at hrun
    obtain ⟨j, hj, hlen⟩ := Outcome.of_shift_eq_stop hrun
    obtain rfl : j = x.length := by
      simp only [List.length_cons, List.length_nil] at hlen
      omega
    have hx : x ≠ [] := by
      rintro rfl
      exact nomatch hj
    have herr : s'.flags.err = false := Bool.eq_false_of_not_eq_true fun herr => by
      obtain ⟨m, hm⟩ := run_byteStep_err x herr
      rw [hm] at hj
      exact nomatch hj
    rw [hmore]
    exact Or.inl ⟨nofun, ⟨rfl, herr, (run_skip_zero s' hx).trans hj⟩, nofun⟩
  | inr r =>
    have hstop : run scanByte s [b] = .stop r 1 := run_cons_inr [] hbyte
    have happend : run scanByte s (b :: x) = .stop r 1 := run_cons_inr x hbyte
    rw [run_byteStep_stop happend] at hrun
    obtain ⟨paf, s', fp⟩ := r
    obtain ⟨herr, hfp, hcases⟩ := verdictOf_stop le_rfl hrun
    have hadd : (fp + BitVec.ofNat 32 1).toNat = fp.toNat + 1 := by
      rw [BitVec.toNat_add]
      show (fp.toNat + 1) % 2 ^ 32 = _
      omega
    have hpoint : ofOutcome fromClient [b].length none (.stop (paf, s', fp) 1) =
        ⟨paf, fp + BitVec.ofNat 32 1, if paf ≠ .skip then hiReset fromClient else s',
          hiUpdatePeer s' none⟩ := by
      show selectPoint fromClient [b].length 1 (paf, s', fp) none = _
      refine selectPoint_of_not_err fun h => ?_
      rw [herr] at h
      exact nomatch h
    rw [hstop, hpoint]
    rcases hcases with ⟨rfl, hskip⟩ | ⟨rfl, hlen, hsearch⟩
    · have hstep : step (single hiVerdict) (.skip s' (fp.toNat + 1)) b = .inl (.skip s' fp.toNat) := rfl
      rw [run_cons_inl _ hstep] at hskip
      obtain ⟨j, hj, hlen⟩ := Outcome.of_shift_eq_stop hskip
      obtain rfl : j = x.length := by
        rw [List.length_cons] at hlen
        omega
      refine Or.inl ⟨nofun, ⟨rfl, herr, ?_⟩, fun hpeer => ?_⟩
      · show run byteStep (.skip s' ((fp + BitVec.ofNat 32 1).toNat - 1)) x = _
        rw [hadd, Nat.add_sub_cancel]
        exact hj
      · exact (run_byteStep_grows hj).nob ((hiUpdatePeer_isSome s').1 hpeer).1
    · cases hsearch
      rw [List.length_cons] at hlen
      have hscan : (hiScanMsg s b 0).2.1 = t := by
        unfold scanByte at hbyte
        dsimp only at hbyte
        split_ifs at hbyte
        rw [Sum.inr.inj hbyte]
      refine Or.inr ⟨⟨rfl, ⟨rfl, rfl, ?_⟩, ?_, hiUpdatePeer_isSome t⟩, hscan⟩
      · show (fp + BitVec.ofNat 32 1).toNat - 1 = _
        omega
      · show (fp + BitVec.ofNat 32 1).toNat = _
        omega

/-- The state of the peer only matters for what `hi_update_peer` leaves of it. -/
theorem hiPaf_peer (fromClient : Bool) (hip peer : Option HiState) (x : List Byte) :
    hiPaf fromClient hip peer x =
      { hiPaf fromClient hip none x with
        peer := if (hiPaf fromClient hip none x).peer.isSome = true then some (flagged peer)
          else peer } := by
  by_cases herr : (startState fromClient hip).flags.err = true
  · rw [hiPaf_of_err _ _ _ _ herr, hiPaf_of_err _ _ _ _ herr]
    rfl
  · have herr := Bool.eq_false_of_not_eq_true herr
    rw [hiPaf_eq _ _ _ _ herr, hiPaf_eq _ _ _ _ herr]
    cases run scanByte (startState fromClient hip) x with
    | more s => rfl
    | stop r n =>
      show selectPoint fromClient x.length n r peer =
        { selectPoint fromClient x.length n r none with
          peer := if (selectPoint fromClient x.length n r none).peer.isSome = true
            then some (flagged peer) else peer }
      by_cases hr : r.2.1.flags.err = true
      · rw [selectPoint_of_err hr, selectPoint_of_err hr]
        rfl
      · rw [selectPoint_of_not_err hr, selectPoint_of_not_err hr, hiUpdatePeer_eq r.2.1 peer]

/-! ### Where a direction is -/

section Positions

variable {ms : List (List Byte)} {m : List Byte} {j k : ℕ}

theorem take_succ_length (hm : ms[j]? = some m) :
    (ms.take (j + 1)).flatten.length = (ms.take j).flatten.length + m.length := by
  rw [List.take_add_one, hm, Option.toList_some, List.flatten_append, List.length_append,
    List.flatten_singleton]

theorem take_length_le (ms : List (List Byte)) (h : j ≤ k) :
    (ms.take j).flatten.length ≤ (ms.take k).flatten.length :=
  (List.take_prefix_take_left h).flatten.length_le

/-- The byte that comes next in a message. -/
theorem next_byte {xs p x : List Byte} {b : Byte} (hxs : xs ++ [b] <+: ms.flatten)
    (hm : ms[j]? = some (p ++ x)) (hlen : xs.length = (ms.take j).flatten.length + p.length)
    (hx : x ≠ []) : ∃ x', x = b :: x' := by
  obtain ⟨c, x', rfl⟩ := List.exists_cons_of_ne_nil hx
  obtain ⟨hj, hget⟩ := List.getElem?_eq_some_iff.1 hm
  have hsplit : ms.flatten = ((ms.take j).flatten ++ p) ++ c :: (x' ++ (ms.drop (j + 1)).flatten) := by
    conv_lhs => rw [← List.take_append_drop j ms, ← List.getElem_cons_drop hj, hget]
    simp only [List.flatten_append, List.flatten_cons, List.append_assoc, List.cons_append]
  obtain ⟨rest, hrest⟩ := hxs
  rw [hsplit, List.append_assoc] at hrest
  obtain ⟨-, htail⟩ := List.append_inj hrest (by rw [List.length_append]; exact hlen)
  exact ⟨x', by rw [(List.cons.inj htail).1]⟩

/-- There is a message in front of which a direction stops. -/
theorem lt_of_prefix {xs : List Byte} {b : Byte} (hxs : xs ++ [b] <+: ms.flatten)
    (hlen : xs.length = (ms.take j).flatten.length) : j < ms.length := by
  by_contra hj
  have hle := hxs.length_le
  rw [List.take_of_length_le (Nat.not_lt.1 hj)] at hlen
  rw [List.length_append, List.length_singleton] at hle
  omega

end Positions

/-- A direction in the message at `j`, behind `n` bytes of all of them. -/
def Inside (fromClient : Bool) (ms : List (List Byte)) (d : Dir) (ends : HiState → Prop)
    (j n : ℕ) : Prop :=
  ∃ p x t, ms[j]? = some (p ++ x) ∧ n = (ms.take j).flatten.length + p.length ∧
    Tracks fromClient d x t ∧ ends t

/-- A direction that has selected the ends of `j` messages. -/
def Between (fromClient : Bool) (ms : List (List Byte)) (d : Dir) (start : HiState)
    (j n : ℕ) : Prop :=
  ∃ a, Rests fromClient d start a ∧ n + a = (ms.take j).flatten.length

section Place

variable {ms : List (List Byte)} {ends : HiState → Prop} {j : ℕ} {xs : List Byte}

theorem Between.pass (h : Between fromClient ms d start j n) (hne : d.ahead ≠ 0) :
    Between fromClient ms { d with ahead := d.ahead - 1 } start j (n + 1) := by
  obtain ⟨a, ha, hn⟩ := h
  refine ⟨a - 1, ⟨ha.aborted, ha.hip, by rw [← ha.ahead]⟩, ?_⟩
  have := ha.ahead
  omega

/-- Between two messages the next byte is the first one of a message. -/
theorem Between.enter (h : Between fromClient ms d start j n) (hzero : d.ahead = 0)
    (herr : start.flags.err = false) {m : List Byte} {t : HiState} (hm : ms[j]? = some m)
    (hrun : run byteStep (.search start) m = .stop (.search t) m.length) (ht : ends t) :
    Inside fromClient ms d ends j n := by
  obtain ⟨a, ha, hn⟩ := h
  have hne : m ≠ [] := by
    rintro rfl
    exact nomatch hrun
  have hhip := ha.hip
  have hahead := ha.ahead
  refine ⟨[], m, t, hm, ?_, ⟨ha.aborted, by rw [hhip]; exact herr, ?_⟩, ht⟩
  · rw [List.length_nil]
    omega
  · rw [hhip, hzero, run_skip_zero _ hne, hrun]

theorem Inside.next (h : Inside fromClient ms d ends j xs.length) {b : Byte}
    (hxs : xs ++ [b] <+: ms.flatten) :
    ∃ p x t, ms[j]? = some (p ++ b :: x) ∧ xs.length = (ms.take j).flatten.length + p.length ∧
      Tracks fromClient d (b :: x) t ∧ ends t := by
  obtain ⟨p, x, t, hm, hlen, ht, hends⟩ := h
  obtain ⟨x', rfl⟩ := next_byte hxs hm hlen ht.ne_nil
  exact ⟨p, x', t, hm, hlen, ht, hends⟩

/-- One byte further in a message. -/
theorem inside_succ {p x : List Byte} {b : Byte} {t : HiState} (hm : ms[j]? = some (p ++ b :: x))
    (hlen : n = (ms.take j).flatten.length + p.length) (ht : Tracks fromClient d x t)
    (hends : ends t) : Inside fromClient ms d ends j (n + 1) := by
  refine ⟨p ++ [b], x, t, ?_, ?_, ht, hends⟩
  · rw [hm, List.append_assoc, List.singleton_append]
  · rw [List.length_append, List.length_singleton]
    omega

/-- Behind the byte that selects the end of a message. -/
theorem between_succ {p x : List Byte} {b : Byte} (hm : ms[j]? = some (p ++ b :: x))
    (hlen : n = (ms.take j).flatten.length + p.length) (ht : Rests fromClient d start x.length) :
    Between fromClient ms d start (j + 1) (n + 1) := by
  refine ⟨x.length, ht, ?_⟩
  rw [take_succ_length hm, List.length_append, List.length_cons]
  omega

/-- A direction that is behind a message has selected its end. -/
theorem lt_of_length_le {k : ℕ} (hpos : ∀ m ∈ ms, m ≠ []) (hk : k < ms.length)
    (h : Between fromClient ms d start j n ∨ Inside fromClient ms d ends j n)
    (hle : (ms.take (k + 1)).flatten.length ≤ n) : k < j := by
  by_contra hjk
  have hjk := Nat.not_lt.1 hjk
  rcases h with ⟨a, -, hn⟩ | ⟨p, x, t, hm, hn, ht, -⟩
  · have hlen := take_succ_length (List.getElem?_eq_getElem hk)
    have hmono := take_length_le ms hjk
    have hne := List.length_pos_iff.2 (hpos _ (List.getElem_mem hk))
    omega
  · have hlen := take_succ_length hm
    have hmono := take_length_le ms (Nat.add_le_add_right hjk 1)
    have hne := List.length_pos_iff.2 ht.ne_nil
    rw [List.length_append] at hlen
    omega

end Place

end Snort.HiPaf
