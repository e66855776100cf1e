import Snort.HiPaf.Peer

/-!
# Responses without a body

* `Paired`: the responses end where they should, and those without a body are the right ones.
* `Serving`: where the responses are, with the flag that stands for the request that comes next.
* `Synced`: what every step keeps; `Synced.request` and `Synced.response`.
* **`paired_of_run`**: the responses are paired, if every HEAD request ends behind the points that are
  selected for the responses before.
-/

namespace Snort.HiPaf

open Scanner Framer

/-- The points that are selected among the responses are their ends, and a response is taken to have no
body exactly if it has none. -/
def Paired (es : List Exchange) (c : Conn) : Prop :=
  c.responses.length ≤ es.length ∧ ∀ i e d, es[i]? = some e → c.responses[i]? = some d →
    d.point = (responseBytes (es.take (i + 1))).length ∧
      (d.bodyless = true ↔ e.request.isHead = true ∨ noBodyCode e.response.code = true)

/-! ### What every step keeps -/

/-- The request at `j` is a HEAD. -/
def HeadAt (es : List Exchange) (j : ℕ) : Prop :=
  ∃ e, es[j]? = some e ∧ e.request.isHead = true

/-- The messages of the requests. -/
abbrev requests (es : List Exchange) : List (List Byte) := es.map fun e => e.request.bytes

/-- The messages of the responses. -/
abbrev responses (es : List Exchange) : List (List Byte) := es.map fun e => e.response.bytes

/-- What the state knows that selects the end of the request at `j`. -/
def EndsRequest (es : List Exchange) (j : ℕ) (t : HiState) : Prop :=
  ∃ e, es[j]? = some e ∧ t.flags.nob = e.request.isHead ∧ t.flags.req = true

/-- What the state knows that selects the end of the response at `k`. -/
def EndsResponse (es : List Exchange) (k : ℕ) (t : HiState) : Prop :=
  ∃ e, es[k]? = some e ∧ t.bodyless = e.response.noBody

/-- The responses, when `j` ends of requests and `k` of responses are selected.  Between two responses
the flag is set for a HEAD that has ended. -/
def Serving (es : List Exchange) (j k n : ℕ) (d : Dir) : Prop :=
  (∃ b, Between false (responses es) d (messageStart false b) k n ∧ (b = true → HeadAt es k) ∧
    (k < j → HeadAt es k → b = true)) ∨
  Inside false (responses es) d (EndsResponse es k) k n ∧ k < j

/-- What every step keeps. -/
structure Synced (es : List Exchange) (xs ys : List Byte) (c : Conn) : Prop where
  client : Between true (requests es) c.client (hiReset true) c.requests xs.length ∨
    Inside true (requests es) c.client (EndsRequest es c.requests) c.requests xs.length
  server : Serving es c.requests c.responses.length ys.length c.server
  served : c.served = ys.length
  heads : ∀ i < c.requests, HeadAt es i → i ≤ c.responses.length
  paired : Paired es c

theorem Serving.mono {es : List Exchange} {j k n : ℕ} {d : Dir} (h : Serving es j k n d)
    (hj : ¬ HeadAt es j) : Serving es (j + 1) k n d := by
  rcases h with ⟨b, hbetween, hb, hhead⟩ | ⟨hinside, hk⟩
  · refine Or.inl ⟨b, hbetween, hb, fun hk hat => ?_⟩
    rcases Nat.lt_succ_iff_lt_or_eq.1 hk with hlt | rfl
    · exact hhead hlt hat
    · exact absurd hat hj
  · exact Or.inr ⟨hinside, Nat.lt_succ_of_lt hk⟩

/-- The flag is set for the response that comes next. -/
theorem Serving.flag {es : List Exchange} {j n : ℕ} {d : Dir} (j' : ℕ) (h : Serving es j j n d)
    (hj : HeadAt es j) : Serving es j' j n { d with hip := some (flagged d.hip) } := by
  rcases h with ⟨b, ⟨a, ha, hn⟩, -, -⟩ | ⟨-, hk⟩
  · exact Or.inl ⟨true, ⟨a, ⟨ha.aborted, startState_flagged ha.hip, ha.ahead⟩, hn⟩, fun _ => hj,
      fun _ _ => rfl⟩
  · exact absurd hk (Nat.lt_irrefl j)

section Steps

variable {es : List Exchange} {xs ys : List Byte} {c : Conn} {b : Byte}

theorem Synced.inside (h : Synced es xs ys c) (hx : xs ++ [b] <+: requestBytes es)
    (hzero : c.client.ahead = 0) :
    Inside true (requests es) c.client (EndsRequest es c.requests) c.requests xs.length := by
  rcases h.client with hbetween | hinside
  · have hlt : c.requests < (requests es).length := by
      obtain ⟨a, ha, hn⟩ := hbetween
      have hahead := ha.ahead
      exact lt_of_prefix hx (by omega)
    rw [List.length_map] at hlt
    obtain ⟨t, ht, hnob⟩ := run_request es[c.requests].request
    have hget : es[c.requests]? = some es[c.requests] := List.getElem?_eq_getElem hlt
    have hm : (requests es)[c.requests]? = some es[c.requests].request.bytes := by
      rw [List.getElem?_map, hget]
      rfl
    have hreq : t.flags.req = true := by
      rw [← run_skip_zero _ (List.ne_nil_of_length_pos (length_of_stop ht).1)] at ht
      exact (run_byteStep_grows ht).req rfl
    exact hbetween.enter hzero rfl hm ht ⟨_, hget, hnob, hreq⟩
  · exact hinside

theorem Synced.aborted (h : Synced es xs ys c) : c.client.aborted = false := by
  rcases h.client with ⟨a, ha, -⟩ | ⟨p, x, t, -, -, ht, -⟩
  · exact ha.aborted
  · exact ht.aborted

theorem request_pass (hab : c.client.aborted = false) (hne : c.client.ahead ≠ 0) :
    c.request b = { c with client := { c.client with ahead := c.client.ahead - 1 } } := by
  unfold Conn.request
  rw [if_neg (by rw [hab]; nofun), if_pos hne]

/-- What a byte of a request does that `hi_paf` scans. -/
theorem request_byte (hab : c.client.aborted = false) (hzero : c.client.ahead = 0) {r : PafResult}
    (hr : hiPaf true c.client.hip none [b] = r) :
    (c.flags b = true ↔ r.peer.isSome = true) ∧ c.request b =
      { c with
        client := r.next
        server := { c.server with
          hip := if r.peer.isSome = true then some (flagged c.server.hip) else c.server.hip }
        requests := if r.paf = .flush then c.requests + 1 else c.requests } := by
  refine ⟨?_, ?_⟩
  · unfold Conn.flags
    rw [decide_eq_true_eq, hr]
    exact ⟨fun h => h.2.2, fun h => ⟨hab, hzero, h⟩⟩
  · unfold Conn.request
    rw [if_neg (by rw [hab]; nofun), if_neg (not_not.2 hzero), hiPaf_peer, hr]
    rfl

/-- The responses behind a byte of a request that may set the flag. -/
theorem Synced.serving (h : Synced es xs ys c) (j' : ℕ) {p : Prop} [Decidable p]
    (hp : p → c.responses.length = c.requests ∧ HeadAt es c.requests)
    (hnot : ¬ p → j' = c.requests ∨ j' = c.requests + 1 ∧ ¬ HeadAt es c.requests) :
    Serving es j' c.responses.length ys.length
      { c.server with hip := if p then some (flagged c.server.hip) else c.server.hip } := by
  have hserver := h.server
  by_cases hflag : p
  · obtain ⟨hk, hhead⟩ := hp hflag
    rw [if_pos hflag]
    rw [hk] at hserver ⊢
    exact hserver.flag j' hhead
  · rw [if_neg hflag]
    rcases hnot hflag with rfl | ⟨rfl, hhead⟩
    · exact hserver
    · exact hserver.mono hhead

/-- One byte of the requests. -/
theorem Synced.request (h : Synced es xs ys c) (hx : xs ++ [b] <+: requestBytes es)
    (hok : InOrder c b) : Synced es (xs ++ [b]) ys (c.request b) := by
  have hlen : (xs ++ [b]).length = xs.length + 1 := by
    rw [List.length_append, List.length_singleton]
  by_cases hzero : c.client.ahead = 0
  · obtain ⟨p, x, t, hm, hn, ht, e, hget, hnob, hreq⟩ := (h.inside hx hzero).next hx
    have hhead : HeadAt es c.requests ↔ t.flags.nob = true := by
      rw [hnob]
      constructor
      · rintro ⟨e', he', hhead⟩
        rw [hget] at he'
        cases he'
        exact hhead
      · exact fun hhead => ⟨e, hget, hhead⟩
    have hbyte := ht.byte hzero
    generalize hr : hiPaf true c.client.hip none [b] = r at hbyte
    obtain ⟨hflags, hrequest⟩ := request_byte h.aborted hzero hr
    rw [hrequest]
    rcases hbyte with hgoes | ⟨hsel, -⟩
    · rw [if_neg hgoes.paf]
      refine ⟨Or.inr ?_, ?_, h.served, h.heads, h.paired⟩
      · rw [hlen]
        exact inside_succ hm hn hgoes.next ⟨e, hget, hnob, hreq⟩
      · exact h.serving _ (fun hp => ⟨hok (hflags.2 hp), hhead.2 (hgoes.peer hp)⟩)
          fun _ => Or.inl rfl
    · rw [if_pos hsel.paf]
      have hpeer : r.peer.isSome = true ↔ HeadAt es c.requests := by
        rw [hsel.peer, hhead]
        exact and_iff_left hreq
      refine ⟨Or.inl ?_, ?_, h.served, fun i hi hat => ?_, h.paired⟩
      · rw [hlen]
        exact between_succ hm hn hsel.next
      · exact h.serving _ (fun hp => ⟨hok (hflags.2 hp), hpeer.1 hp⟩)
          fun hp => Or.inr ⟨rfl, fun hat => hp (hpeer.2 hat)⟩
      · rcases Nat.lt_succ_iff_lt_or_eq.1 hi with hlt | rfl
        · exact h.heads i hlt hat
        · exact (hok (hflags.2 (hpeer.2 hat))).ge
  · rw [request_pass h.aborted hzero]
    refine ⟨?_, h.server, h.served, h.heads, h.paired⟩
    rw [hlen]
    rcases h.client with hbetween | hinside
    · exact Or.inl (hbetween.pass hzero)
    · obtain ⟨p, x, t, hm, hn, ht, hends⟩ := hinside.next hx
      exact Or.inr (inside_succ hm hn (ht.pass hzero) hends)

theorem request_ne_nil : ∀ m ∈ requests es, m ≠ [] := by
  intro m hm
  obtain ⟨e, -, rfl⟩ := List.mem_map.1 hm
  obtain ⟨t, ht, -⟩ := run_request e.request
  exact List.ne_nil_of_length_pos (length_of_stop ht).1

/-- The first byte of a response finds the flag of its request. -/
theorem Synced.serves (h : Synced es xs ys c) (hy : ys ++ [b] <+: responseBytes es)
    (hafter : ∀ k, (responseBytes (es.take k)).length ≤ ys.length →
      (requestBytes (es.take (k + 1))).length ≤ xs.length) (hzero : c.server.ahead = 0) :
    Inside false (responses es) c.server (EndsResponse es c.responses.length) c.responses.length
      ys.length ∧ c.responses.length < c.requests := by
  rcases h.server with ⟨f, hbetween, hf, hhead⟩ | hinside
  · have hlen : ys.length = ((responses es).take c.responses.length).flatten.length := by
      obtain ⟨a, ha, hn⟩ := hbetween
      have hahead := ha.ahead
      omega
    have hlt : c.responses.length < es.length := by
      have hlt := lt_of_prefix hy hlen
      rwa [List.length_map] at hlt
    have hbehind : ((requests es).take (c.responses.length + 1)).flatten.length ≤ xs.length := by
      have hle := hafter c.responses.length (by
        rw [responseBytes, List.map_take]
        exact hlen.ge)
      rwa [requestBytes, List.map_take] at hle
    have hk := lt_of_length_le request_ne_nil (by rwa [List.length_map]) h.client hbehind
    have hget : es[c.responses.length]? = some es[c.responses.length] := List.getElem?_eq_getElem hlt
    generalize es[c.responses.length] = e at hget
    have hat : HeadAt es c.responses.length ↔ e.request.isHead = true := by
      constructor
      · rintro ⟨e', he', hhead⟩
        rw [hget] at he'
        cases he'
        exact hhead
      · exact fun hhead => ⟨e, hget, hhead⟩
    obtain rfl : f = e.request.isHead :=
      Bool.eq_iff_iff.2 ⟨fun hflag => hat.1 (hf hflag), fun hflag => hhead hk (hat.2 hflag)⟩
    obtain ⟨t, ht, hbodyless⟩ := run_response e.response
    have hm : (responses es)[c.responses.length]? = some e.response.bytes := by
      rw [List.getElem?_map, hget]
      rfl
    exact ⟨hbetween.enter hzero (messageStart_header _ _).2.2.2.2 hm ht ⟨e, hget, hbodyless⟩, hk⟩
  · exact hinside

theorem response_pass (hab : c.server.aborted = false) (hne : c.server.ahead ≠ 0) :
    c.response b =
      { c with server := { c.server with ahead := c.server.ahead - 1 }, served := c.served + 1 } := by
  unfold Conn.response
  rw [if_neg (by rw [hab]; nofun), if_pos hne]

/-- What a byte of a response does that `hi_paf` scans. -/
theorem response_byte (hab : c.server.aborted = false) (hzero : c.server.ahead = 0) {r : PafResult}
    (hr : hiPaf false c.server.hip none [b] = r) :
    c.response b =
      { c with
        server := r.next
        served := c.served + 1
        responses :=
          if r.paf = .flush then c.responses ++ [⟨c.served + r.fp.toNat,
            (hiScanMsg (startState false c.server.hip) b 0).2.1.bodyless⟩]
          else c.responses } := by
  unfold Conn.response
  rw [if_neg (by rw [hab]; nofun), if_neg (not_not.2 hzero), hr]

/-- One more response that ends where it should. -/
theorem Paired.snoc (h : Paired es c) {e : Exchange} (hget : es[c.responses.length]? = some e)
    {n : ℕ} {t : HiState} (hn : n = (responseBytes (es.take (c.responses.length + 1))).length)
    (ht : t.bodyless = e.response.noBody) {c' : Conn}
    (hc : c'.responses = c.responses ++ [⟨n, t.bodyless⟩]) : Paired es c' := by
  have hlt := (List.getElem?_eq_some_iff.1 hget).1
  refine ⟨?_, fun i e' d he' hd => ?_⟩
  · rw [hc, List.length_append, List.length_singleton]
    exact hlt
  · rw [hc] at hd
    rcases Nat.lt_trichotomy i c.responses.length with hi | rfl | hi
    · rw [List.getElem?_append_left hi] at hd
      exact h.2 i e' d he' hd
    · rw [List.getElem?_concat_length] at hd
      rw [hget] at he'
      cases he'
      cases hd
      refine ⟨hn, ?_⟩
      rw [ht, Response.noBody, Bool.or_eq_true]
    · rw [List.getElem?_eq_none (by rw [List.length_append, List.length_singleton]; omega)] at hd
      cases hd

/-- One byte of the responses. -/
theorem Synced.response (h : Synced es xs ys c) (hy : ys ++ [b] <+: responseBytes es)
    (hafter : ∀ k, (responseBytes (es.take k)).length ≤ ys.length →
      (requestBytes (es.take (k + 1))).length ≤ xs.length) :
    Synced es xs (ys ++ [b]) (c.response b) := by
  have hlen : (ys ++ [b]).length = ys.length + 1 := by
    rw [List.length_append, List.length_singleton]
  have hserved : c.served + 1 = (ys ++ [b]).length := by rw [hlen, h.served]
  have hab : c.server.aborted = false := by
    rcases h.server with ⟨f, ⟨a, ha, -⟩, -⟩ | ⟨⟨p, x, t, -, -, ht, -⟩, -⟩
    · exact ha.aborted
    · exact ht.aborted
  by_cases hzero : c.server.ahead = 0
  · obtain ⟨hinside, hk⟩ := h.serves hy hafter hzero
    obtain ⟨p, x, t, hm, hn, ht, e, hget, hbodyless⟩ := hinside.next hy
    have hbyte := ht.byte hzero
    generalize hr : hiPaf false c.server.hip none [b] = r at hbyte
    rw [response_byte hab hzero hr]
    rcases hbyte with hgoes | ⟨hsel, hstate⟩
    · rw [if_neg hgoes.paf]
      refine ⟨h.client, Or.inr ⟨?_, hk⟩, hserved, h.heads, h.paired⟩
      rw [hlen]
      exact inside_succ hm hn hgoes.next ⟨e, hget, hbodyless⟩
    · rw [if_pos hsel.paf, hstate]
      have hpoint : c.served + r.fp.toNat =
          (responseBytes (es.take (c.responses.length + 1))).length := by
        rw [responseBytes, List.map_take, take_succ_length hm, hsel.fp, h.served, hn,
          List.length_append, List.length_cons]
        omega
      have hheads : ∀ i < c.requests, HeadAt es i → i ≤ c.responses.length := h.heads
      refine ⟨h.client, Or.inl ⟨false, ?_, nofun, fun hlt hat => ?_⟩, hserved, fun i hi hat => ?_,
        h.paired.snoc hget hpoint hbodyless rfl⟩
      · show Between _ _ _ _ (c.responses ++ [_]).length _
        rw [hlen, List.length_append, List.length_singleton]
        exact between_succ hm hn hsel.next
      · rw [List.length_append, List.length_singleton] at hlt hat
        exact absurd (hheads _ hlt hat) (Nat.not_succ_le_self _)
      · rw [List.length_append, List.length_singleton]
        exact Nat.le_succ_of_le (hheads i hi hat)
  · rw [response_pass hab hzero]
    refine ⟨h.client, ?_, hserved, h.heads, h.paired⟩
    rw [hlen]
    rcases h.server with ⟨f, hbetween, hf⟩ | ⟨hinside, hk⟩
    · exact Or.inl ⟨f, hbetween.pass hzero, hf⟩
    · obtain ⟨p, x, t, hm, hn, ht, hends⟩ := hinside.next hy
      exact Or.inr ⟨inside_succ hm hn (ht.pass hzero) hends, hk⟩

end Steps

/-- **Responses without a body.**  In every run in which every HEAD request ends behind the points that
are selected for the responses before it, the points are the ends of the responses, and exactly those
to HEAD requests and with the codes 1xx, 204 and 304 are taken to have no body. -/
theorem paired_of_run {es : List Exchange} {xs ys : List Byte} {c : Conn}
    (h : Run InOrder es xs ys c) : Paired es c := by
  suffices hsynced : Synced es xs ys c from hsynced.paired
  induction h with
  | start =>
    exact ⟨Or.inl ⟨0, ⟨rfl, rfl, rfl⟩, rfl⟩,
      Or.inl ⟨false, ⟨0, ⟨rfl, rfl, rfl⟩, rfl⟩, nofun, fun h => absurd h (Nat.not_lt_zero _)⟩, rfl,
      fun i hi => absurd hi (Nat.not_lt_zero _), Nat.zero_le _, nofun⟩
  | request _ hx hok ih => exact ih.request hx hok
  | response _ hy hafter ih => exact ih.response hy hafter

/-! ### Two runs -/

/-- What must hold of every one of some bytes of the requests. -/
def Allows (ok : Conn → Byte → Prop) : Conn → List Byte → Prop
  | _, [] => True
  | c, b :: l => ok c b ∧ Allows ok (c.request b) l

instance decidableAllows (ok : Conn → Byte → Prop) [∀ c b, Decidable (ok c b)] :
    ∀ c l, Decidable (Allows ok c l)
  | _, [] => inferInstanceAs (Decidable True)
  | c, b :: l =>
    have := decidableAllows ok (c.request b) l
    inferInstanceAs (Decidable (ok c b ∧ Allows ok (c.request b) l))

instance (c : Conn) (b : Byte) : Decidable (InOrder c b) :=
  inferInstanceAs (Decidable (_ = true → _))

section

variable {ok : Conn → Byte → Prop} {es : List Exchange} {xs ys : List Byte} {c : Conn}

theorem Run.requests (h : Run ok es xs ys c) (l : List Byte) (hl : xs ++ l <+: requestBytes es)
    (hok : Allows ok c l) : Run ok es (xs ++ l) ys (l.foldl Conn.request c) := by
  induction l generalizing xs c with
  | nil =>
    rw [List.append_nil]
    exact h
  | cons b l ih =>
    rw [← List.singleton_append, ← List.append_assoc] at hl ⊢
    exact ih (h.request ((List.prefix_append _ _).trans hl) hok.1) hl hok.2

theorem Run.responses (h : Run ok es xs ys c) (l : List Byte) (hl : ys ++ l <+: responseBytes es)
    (hafter : ∀ k, (responseBytes (es.take k)).length < (ys ++ l).length →
      (requestBytes (es.take (k + 1))).length ≤ xs.length) :
    Run ok es xs (ys ++ l) (l.foldl Conn.response c) := by
  induction l generalizing ys c with
  | nil =>
    rw [List.append_nil]
    exact h
  | cons b l ih =>
    have hlt : ys.length < (ys ++ b :: l).length := by
      rw [List.length_append, List.length_cons]
      omega
    have hstep := h.response (b := b)
      (by rw [← List.singleton_append, ← List.append_assoc] at hl
          exact (List.prefix_append _ _).trans hl)
      fun k hk => hafter k (hk.trans_lt hlt)
    rw [← List.singleton_append, ← List.append_assoc] at hl hafter ⊢
    exact ih hstep hl hafter

end

/-- No header line at all. -/
theorem lines_text_nil : ∀ l ∈ ([] : List (List Byte)), eol ∉ l ∧ strip l ≠ [] :=
  fun _ hl => absurd hl List.not_mem_nil

section

variable (start : List Byte) (hstart : eol ∉ start)

theorem plain_startLine :
    (⟨start, [], [cr], hstart, lines_text_nil, mem_singleton_cr⟩ : HeaderBlock).Plain :=
  ⟨rfl, rfl⟩

theorem framing_startLine :
    Framing ⟨start, [], [cr], hstart, lines_text_nil, mem_singleton_cr⟩
      (HeaderBlock.bytes ⟨start, [], [cr], hstart, lines_text_nil, mem_singleton_cr⟩) :=
  .plain (plain_startLine start hstart)

theorem not_isPost {method : List Byte} (hpost : isPost method = false) (P : Prop) :
    isPost method = true → P := by
  intro h
  rw [hpost] at h
  exact absurd h Bool.false_ne_true

end

/-- A request without a body. -/
def plainRequest (method : List Byte) (start : List Byte) (hstart : eol ∉ start)
    (hline : RequestLine method (strip start)) (hpost : isPost method = false) : Request where
  head := ⟨start, [], [cr], hstart, lines_text_nil, mem_singleton_cr⟩
  method := method
  bytes := HeaderBlock.bytes ⟨start, [], [cr], hstart, lines_text_nil, mem_singleton_cr⟩
  line := hline
  framing := framing_startLine start hstart
  post := not_isPost hpost _

def getRequest : Request :=
  plainRequest ("GET".toList.map chr) ("GET / HTTP/1.1\r".toList.map chr) (by decide)
    ⟨by decide, [lws], "/".toList.map chr, [lws], chr 'H', "TTP/1.1".toList.map chr, by decide,
      by decide, by decide, by decide, by decide⟩ (by decide)

def headRequest : Request :=
  plainRequest ("HEAD".toList.map chr) ("HEAD / HTTP/1.1\r".toList.map chr) (by decide)
    ⟨by decide, [lws], "/".toList.map chr, [lws], chr 'H', "TTP/1.1".toList.map chr, by decide,
      by decide, by decide, by decide, by decide⟩ (by decide)

/-- The headers of a response with two bytes. -/
def okBlock : HeaderBlock :=
  ⟨"HTTP/1.1 200 OK\r".toList.map chr, ["Content-Length: 2\r".toList.map chr], [cr], by decide,
    by decide, mem_singleton_cr⟩

theorem okBlock_line : StatusLine ("HTTP/1.1".toList.map chr) ("200".toList.map chr)
    (strip okBlock.start) :=
  ⟨⟨by decide, by decide⟩, by decide, [lws], lws, "OK".toList.map chr, by decide, by decide,
    by decide⟩

theorem okBlock_sized : okBlock.Sized 2 :=
  ⟨⟨true, [chr '2'], by decide +kernel, by decide, by decide⟩, by decide, by decide +kernel⟩

/-- The response to a GET. -/
def okResponse : Response getRequest.isHead where
  head := okBlock
  version := "HTTP/1.1".toList.map chr
  code := "200".toList.map chr
  bytes := okBlock.bytes ++ "ok".toList.map chr
  line := okBlock_line
  known := by decide
  declared := Or.inr (Or.inl ⟨2, okBlock_sized⟩)
  bodyless h := absurd h (by decide)
  body _ := ⟨.sized okBlock_sized, fun h => absurd h.1 (by decide +kernel)⟩

/-- The response to a HEAD. -/
def headResponse : Response headRequest.isHead where
  head := okBlock
  version := "HTTP/1.1".toList.map chr
  code := "200".toList.map chr
  bytes := okBlock.bytes
  line := okBlock_line
  known := by decide
  declared := Or.inr (Or.inl ⟨2, okBlock_sized⟩)
  bodyless _ := rfl
  body h := absurd h (by decide)

/-- A GET and a HEAD. -/
def exchanges : List Exchange := [⟨getRequest, okResponse⟩, ⟨headRequest, headResponse⟩]

theorem requestBytes_take_le (es : List Exchange) (k : ℕ) :
    (requestBytes (es.take k)).length ≤ (requestBytes es).length := by
  unfold requestBytes
  exact ((List.take_prefix k es).map _).flatten.length_le

/-- The response to the GET comes before the HEAD. -/
def inTurn : Conn :=
  headResponse.bytes.foldl Conn.response (headRequest.bytes.foldl Conn.request
    (okResponse.bytes.foldl Conn.response (getRequest.bytes.foldl Conn.request {})))

theorem paired_inTurn : Paired exchanges inTurn := by
  have hget := (Run.start : Run InOrder exchanges [] [] {}).requests getRequest.bytes
    (by decide +kernel) (by decide +kernel)
  have hok := hget.responses okResponse.bytes (by decide +kernel) (by
    intro k hk
    rcases k with _ | k
    · decide +kernel
    · refine absurd hk (Nat.not_lt.2 ?_)
      have hle : (responseBytes (exchanges.take 1)).length ≤
          (responseBytes (exchanges.take (k + 1))).length :=
        ((List.take_prefix_take_left (Nat.succ_le_succ (Nat.zero_le k))).map _).flatten.length_le
      refine le_trans ?_ hle
      decide +kernel)
  have hhead := hok.requests headRequest.bytes (by decide +kernel) (by decide +kernel)
  have hall : ([] : List Byte) ++ getRequest.bytes ++ headRequest.bytes = requestBytes exchanges := by
    decide +kernel
  have hend := hhead.responses headResponse.bytes (by decide +kernel) fun k _ => by
    rw [hall]
    exact requestBytes_take_le _ _
  exact paired_of_run hend

/-- The HEAD comes before the response to the GET. -/
def pipelined : Conn :=
  okResponse.bytes.foldl Conn.response ((requestBytes exchanges).foldl Conn.request {})

/-- The flag of a HEAD that comes too early is taken for the response before. -/
theorem not_paired_pipelined : ¬ ∀ es xs ys c, Run (fun _ _ => True) es xs ys c → Paired es c := by
  intro h
  have hallows : ∀ c l, Allows (fun _ _ => True) c l := by
    intro c l
    induction l generalizing c with
    | nil => trivial
    | cons b l ih => exact ⟨trivial, ih _⟩
  have hrequests := (Run.start : Run (fun _ _ => True) exchanges [] [] {}).requests
    (requestBytes exchanges) (by rw [List.nil_append]) (hallows _ _)
  have hrun := hrequests.responses okResponse.bytes (by decide +kernel) fun k _ =>
    requestBytes_take_le _ _
  have hfirst : pipelined.responses[0]? = some ⟨okBlock.bytes.length, true⟩ := by decide +kernel
  obtain ⟨-, hpaired⟩ := h _ _ _ _ hrun
  obtain ⟨-, hbodyless⟩ := hpaired 0 ⟨getRequest, okResponse⟩ _ rfl hfirst
  exact absurd (hbodyless.1 rfl) (by decide)

end Snort.HiPaf
