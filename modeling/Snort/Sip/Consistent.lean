import Mathlib.Data.List.TakeWhile
import Snort.Sip.Store

/-!
# Two dialogs with one call id

* `Paired`: two dialogs share a call id only as a re-INVITE in progress and the dialog behind it;
* `Sound`: the messages that keep a session consistent;
* **`consistentAlong_iff`**: the dialogs of a session always stay linked, and they stay consistent exactly as
  long as all messages are sound.
-/

namespace Snort.Sip

def DialogData.callId (dialog : DialogData) : ℕ := dialog.dlgID.callIdHash

/-- A dialog shares its call id at most with the next one, and with it exactly if it is a re-INVITE in
progress. -/
def Paired : List DialogData → Prop
  | [] => True
  | dialog :: ds =>
    (∀ e ∈ ds.tail, e.callId ≠ dialog.callId) ∧
      (∀ e ∈ ds.head?, e.callId = dialog.callId ↔ dialog.state = .reinviting) ∧ Paired ds

/-- The dialogs of a session are consistent. -/
structure Consistent (maxNum : ℕ) (ds : List DialogData) : Prop where
  length : ds.length ≤ maxNum
  paired : Paired ds

/-- An INVITE without authorization. -/
def plainInvite (msg : SIPMsg) : Prop :=
  msg.statusCode = 0 ∧ msg.methodFlag = methodInvite ∧ msg.authorization = false

/-- No INVITE re-invites when there are as many dialogs as may be, and no second INVITE and no demand for
authorization reaches a re-INVITE in progress with its dialog behind it. -/
def Sound (maxNum : ℕ) (msg : SIPMsg) (ds : List DialogData) : Prop :=
  msg.dlgID.callIdHash ≠ 0 →
    ∀ dialog ∈ (ds.dropWhile (other msg)).head?,
      (plainInvite msg → dialog.state = .established → ds.length < maxNum) ∧
      (dialog.state = .reinviting → (ds.dropWhile (other msg)).tail ≠ [] →
        ¬plainInvite msg ∧ msg.statusCode ≠ 401 ∧ msg.statusCode ≠ 407)

variable {a post r : List DialogData} {d x : DialogData} {msg : SIPMsg} {c : ℕ}

/-! ### Lists of dialogs -/

theorem Paired.suffix (h : Paired (a ++ r)) : Paired r := by
  induction a with
  | nil => exact h
  | cons x a ih => exact ih h.2.2

theorem Paired.dropLast (h : Paired r) : Paired r.dropLast := by
  induction r with
  | nil => exact h
  | cons x r ih =>
    cases r with
    | nil => trivial
    | cons y r =>
      obtain ⟨htail, hhead, hrest⟩ := h
      rw [List.dropLast_cons_of_ne_nil (List.cons_ne_nil _ _)]
      refine ⟨fun e he => htail e ?_, fun e he => hhead e ?_, ih hrest⟩
      · rw [List.tail_dropLast] at he
        exact List.mem_of_mem_dropLast he
      · cases r with
        | nil => simp at he
        | cons z r => exact he

/-- The part of a list from the first dialog with a call id on is replaced. -/
theorem Paired.replace (ha : ∀ x ∈ a, x.callId ≠ c) (hd : d.callId = c) (h : Paired (a ++ d :: post))
    (hr : Paired r) (hsub : ∀ e ∈ r, e.callId = c ∨ ∃ e' ∈ post, e'.callId = e.callId) :
    Paired (a ++ r) := by
  induction a with
  | nil => exact hr
  | cons x a ih =>
    obtain ⟨htail, hhead, hrest⟩ := h
    have hx := ha x List.mem_cons_self
    have hne : ∀ e ∈ r, e.callId ≠ x.callId := by
      intro e he
      rcases hsub e he with hc | ⟨e', he', heq⟩
      · rw [hc]
        exact hx.symm
      · rw [← heq]
        apply htail e'
        cases a with
        | nil => exact he'
        | cons y a => exact List.mem_append_right _ (List.mem_cons_of_mem _ he')
    refine ⟨fun e he => ?_, fun e he => ?_, ih (fun y hy => ha y (List.mem_cons_of_mem _ hy)) hrest⟩
    · cases a with
      | nil => exact hne e (List.mem_of_mem_tail he)
      | cons y a =>
        rcases List.mem_append.1 he with he | he
        · exact htail e (List.mem_append_left _ he)
        · exact hne e he
    · cases a with
      | nil =>
        -- the dialog behind was one with the call id
        have hd' := hhead d rfl
        have hnot : x.state ≠ .reinviting := fun h' => hx ((hd.symm.trans (hd'.2 h')).symm)
        exact iff_of_false (hne e (List.mem_of_mem_head? he)) hnot
      | cons y a => exact hhead e he

/-- A dialog is changed. -/
theorem Paired.change_iff (h : Paired (d :: post)) (hx : x.callId = d.callId) :
    Paired (x :: post) ↔ post = [] ∨ (x.state = .reinviting ↔ d.state = .reinviting) := by
  obtain ⟨htail, hhead, hrest⟩ := h
  cases post with
  | nil => exact iff_of_true ⟨fun e he => absurd he (by simp), fun e he => absurd he (by simp), trivial⟩ (.inl rfl)
  | cons e post =>
    have he := hhead e rfl
    constructor
    · rintro ⟨-, hhead', -⟩
      have he' := hhead' e rfl
      rw [hx, he] at he'
      exact .inr he'.symm
    · intro h'
      have hiff := h'.resolve_left (List.cons_ne_nil _ _)
      refine ⟨fun e' he' => ?_, fun e' he' => ?_, hrest⟩
      · rw [hx]
        exact htail e' he'
      · rw [hx, hiff]
        exact hhead e' he'

/-- No other dialog has the call id of one that is not a re-INVITE in progress. -/
theorem Paired.callId_ne (h : Paired (d :: post)) (hd : d.state ≠ .reinviting) :
    ∀ e ∈ post, e.callId ≠ d.callId := by
  obtain ⟨htail, hhead, -⟩ := h
  intro e he
  cases post with
  | nil => simp at he
  | cons y post =>
    rcases List.mem_cons.1 he with rfl | he
    · exact fun h' => hd ((hhead e rfl).1 h')
    · exact htail e he

theorem Paired.cons_of_ne (h : Paired post) (hne : ∀ e ∈ post, e.callId ≠ x.callId)
    (hx : x.state ≠ .reinviting) : Paired (x :: post) :=
  ⟨fun e he => hne e (List.mem_of_mem_tail he),
    fun e he => iff_of_false (hne e (List.mem_of_mem_head? he)) hx, h⟩

/-- The dialog behind a re-INVITE is deleted. -/
theorem Paired.delete_twin (h : Paired (d :: post)) (hx : x.callId = d.callId)
    (hstate : x.state ≠ .reinviting) : Paired (x :: post.tail) := by
  obtain ⟨htail, -, hrest⟩ := h
  apply Paired.cons_of_ne
  · cases post with
    | nil => trivial
    | cons e post => exact hrest.2.2
  · rw [hx]
    exact htail
  · exact hstate

/-! ### Requests and answers -/

theorem inviteDialog_callId : (inviteDialog msg d).callId = d.callId := by
  unfold inviteDialog
  split
  · rfl
  · rfl

theorem ackDialog_callId : (ackDialog msg d).callId = d.callId := by
  unfold ackDialog
  split
  · rfl
  · rfl

theorem ackDialog_state : (ackDialog msg d).state = d.state := by
  unfold ackDialog
  split
  · rfl
  · rfl

theorem byeDialog_callId : (byeDialog d).callId = d.callId := by
  unfold byeDialog
  split
  · rfl
  · rfl

theorem byeDialog_state : (byeDialog d).state = .reinviting ↔ d.state = .reinviting := by
  unfold byeDialog
  split
  · next h => simp [h]
  · rfl

theorem establish_callId : (establish msg d).callId = d.callId := by
  unfold establish
  split
  · rfl
  · rfl

/-- A request keeps the dialogs from one on paired, unless it is a second INVITE for a re-INVITE. -/
theorem paired_requestList (h : Paired (d :: post)) (hid : msg.dlgID.callIdHash = d.callId)
    (hstatus : msg.statusCode = 0) :
    Paired (requestList msg d post) ↔ (d.state = .reinviting → post ≠ [] → ¬plainInvite msg) := by
  unfold requestList plainInvite
  split_ifs with hinvite hreplay hestablished hcancel hearly hack hbye
  · exact iff_of_true h fun _ _ h' => by simp [hreplay.2] at h'
  · have hnot : d.state ≠ .reinviting := by
      rw [hestablished]
      exact DialogState.noConfusion
    refine iff_of_true ⟨fun e he => ?_, fun e he => ?_, h⟩ fun h' => absurd h' hnot
    · have hne := h.callId_ne hnot e he
      rw [← hid] at hne
      exact hne
    · obtain rfl : d = e := Option.some.inj he
      exact iff_of_true hid.symm rfl
  · have hstate : (inviteDialog msg d).state ≠ .reinviting := DialogState.noConfusion
    rw [h.change_iff inviteDialog_callId]
    by_cases hre : d.state = .reinviting
    · have hauth : msg.authorization = false := by
        by_contra hauth
        exact hreplay ⟨by rw [hre]; exact DialogState.noConfusion, by simpa using hauth⟩
      simp [hre, hstate, hauth, hstatus, hinvite]
    · simp [hre, hstate]
  · exact iff_of_true h.2.2 fun _ _ h' => absurd h'.2.1 hinvite
  · exact iff_of_true h fun _ _ h' => absurd h'.2.1 hinvite
  · rw [h.change_iff ackDialog_callId, ackDialog_state]
    exact iff_of_true (.inr Iff.rfl) fun _ _ h' => absurd h'.2.1 hinvite
  · rw [h.change_iff byeDialog_callId]
    exact iff_of_true (.inr byeDialog_state) fun _ _ h' => absurd h'.2.1 hinvite
  · exact iff_of_true h fun _ _ h' => absurd h'.2.1 hinvite

theorem provisional_state : (provisional msg d).state = .reinviting ↔ d.state = .reinviting := by
  unfold provisional
  simp only
  split
  · next h => simp [h]
  · rfl

/-- An answer keeps them paired, unless it demands authorization for a re-INVITE. -/
theorem paired_answerList (h : Paired (d :: post)) :
    Paired (answerList msg d post) ↔
      (d.state = .reinviting → post ≠ [] → msg.statusCode ≠ 401 ∧ msg.statusCode ≠ 407) := by
  unfold answerList
  simp only
  split_ifs with h1 h2 hreinviting hterminating h3 hauth hreinviting
  · rw [h.change_iff (show (provisional msg d).callId = d.callId from rfl)]
    exact iff_of_true (.inr provisional_state) fun _ _ => by omega
  · exact iff_of_true (h.delete_twin establish_callId DialogState.noConfusion) fun _ _ => by omega
  · exact iff_of_true h.2.2 fun _ _ => by omega
  · rw [h.change_iff establish_callId]
    exact iff_of_true (.inr (iff_of_false DialogState.noConfusion hreinviting)) fun _ _ => by omega
  · have hne : ¬(msg.statusCode ≠ 401 ∧ msg.statusCode ≠ 407) := by omega
    rw [h.change_iff (show DialogData.callId { d with state := .authencating } = d.callId from rfl)]
    by_cases hre : d.state = .reinviting
    · simp [hre, hne]
    · simp [hre]
  · exact iff_of_true h.2.2 fun _ _ => by omega
  · rw [h.change_iff (show DialogData.callId { d with state := .terminated } = d.callId from rfl)]
    exact iff_of_true (.inr (iff_of_false DialogState.noConfusion hreinviting)) fun _ _ => by omega
  · exact iff_of_true h fun _ _ => by omega

theorem paired_responseList (h : Paired (d :: post)) :
    Paired (responseList msg d post) ↔
      (d.state = .reinviting → post ≠ [] → msg.statusCode ≠ 401 ∧ msg.statusCode ≠ 407) :=
  paired_answerList ((h.change_iff (show DialogData.callId { d with statusCode := msg.statusCode } = d.callId
    from rfl)).2 (.inr Iff.rfl))

/-- The dialogs behind a request: one more for a re-INVITE. -/
theorem length_requestList (hstatus : msg.statusCode = 0) :
    (plainInvite msg ∧ d.state = .established → (requestList msg d post).length = post.length + 2) ∧
      (¬(plainInvite msg ∧ d.state = .established) → (requestList msg d post).length ≤ post.length + 1) := by
  unfold requestList plainInvite
  split_ifs with hinvite hreplay hestablished hcancel hearly hack hbye
  · exact ⟨fun h => absurd (hreplay.2.symm.trans h.1.2.2) (by decide), fun _ => le_rfl⟩
  · refine ⟨fun _ => rfl, fun h => absurd ⟨⟨hstatus, hinvite, ?_⟩, hestablished⟩ h⟩
    by_contra hauth
    exact hreplay ⟨by rw [hestablished]; exact DialogState.noConfusion, by simpa using hauth⟩
  · exact ⟨fun h => absurd h.2 hestablished, fun _ => le_rfl⟩
  · exact ⟨fun h => absurd h.1.2.1 hinvite, fun _ => Nat.le_succ _⟩
  · exact ⟨fun h => absurd h.1.2.1 hinvite, fun _ => le_rfl⟩
  · exact ⟨fun h => absurd h.1.2.1 hinvite, fun _ => le_rfl⟩
  · exact ⟨fun h => absurd h.1.2.1 hinvite, fun _ => le_rfl⟩
  · exact ⟨fun h => absurd h.1.2.1 hinvite, fun _ => le_rfl⟩

theorem length_answerList : (answerList msg d post).length ≤ post.length + 1 := by
  unfold answerList
  simp only
  split_ifs
  · exact le_rfl
  · simp
  · exact Nat.le_succ _
  · exact le_rfl
  · exact le_rfl
  · exact Nat.le_succ _
  · exact le_rfl
  · exact le_rfl

/-- No other call ids come up. -/
theorem callId_requestList (hid : msg.dlgID.callIdHash = d.callId) :
    ∀ e ∈ requestList msg d post, e.callId = d.callId ∨ ∃ e' ∈ post, e'.callId = e.callId := by
  have hcons : ∀ x : DialogData, x.callId = d.callId →
      ∀ e ∈ x :: post, e.callId = d.callId ∨ ∃ e' ∈ post, e'.callId = e.callId := by
    intro x hx e he
    rcases List.mem_cons.1 he with rfl | he
    · exact .inl hx
    · exact .inr ⟨e, he, rfl⟩
  unfold requestList
  split_ifs
  · exact hcons d rfl
  · intro e he
    rcases List.mem_cons.1 he with rfl | he
    · exact .inl hid
    · exact hcons d rfl e he
  · exact hcons _ inviteDialog_callId
  · exact fun e he => .inr ⟨e, he, rfl⟩
  · exact hcons d rfl
  · exact hcons _ ackDialog_callId
  · exact hcons _ byeDialog_callId
  · exact hcons d rfl

theorem callId_answerList :
    ∀ e ∈ answerList msg d post, e.callId = d.callId ∨ ∃ e' ∈ post, e'.callId = e.callId := by
  have hcons : ∀ x : DialogData, x.callId = d.callId → ∀ post' ⊆ post,
      ∀ e ∈ x :: post', e.callId = d.callId ∨ ∃ e' ∈ post, e'.callId = e.callId := by
    intro x hx post' hpost e he
    rcases List.mem_cons.1 he with rfl | he
    · exact .inl hx
    · exact .inr ⟨e, hpost he, rfl⟩
  unfold answerList
  simp only
  split_ifs
  · exact hcons (provisional msg d) rfl post (List.Subset.refl _)
  · exact hcons _ establish_callId _ (List.tail_subset _)
  · exact fun e he => .inr ⟨e, he, rfl⟩
  · exact hcons _ establish_callId post (List.Subset.refl _)
  · exact hcons { d with state := .authencating } rfl post (List.Subset.refl _)
  · exact fun e he => .inr ⟨e, he, rfl⟩
  · exact hcons { d with state := .terminated } rfl post (List.Subset.refl _)
  · exact hcons d rfl post (List.Subset.refl _)

theorem callId_responseList :
    ∀ e ∈ responseList msg d post, e.callId = d.callId ∨ ∃ e' ∈ post, e'.callId = e.callId :=
  callId_answerList

/-- An answer deletes only dialogs with the call id of its own one. -/
theorem Paired.answer_keeps (h : Paired (d :: post)) :
    ∀ e ∈ post, e.callId ≠ d.callId → e ∈ answerList msg d post := by
  intro e he hne
  unfold answerList
  simp only
  split_ifs with h1 h2 hreinviting
  · exact List.mem_cons_of_mem _ he
  · cases post with
    | nil => simp at he
    | cons y post =>
      rcases List.mem_cons.1 he with rfl | he
      · exact absurd ((h.2.1 e rfl).2 hreinviting) hne
      · exact List.mem_cons_of_mem _ he
  · exact he
  · exact List.mem_cons_of_mem _ he
  · exact List.mem_cons_of_mem _ he
  · exact he
  · exact List.mem_cons_of_mem _ he
  · exact List.mem_cons_of_mem _ he

/-! ### One message -/

variable {maxNum : ℕ} {ds : List DialogData}

/-- What a message that finds a dialog needs. -/
theorem consistent_found_iff (h : Consistent maxNum (a ++ d :: post)) (ha : ∀ x ∈ a, x.callId ≠ d.callId)
    (hr : ∀ e ∈ r, e.callId = d.callId ∨ ∃ e' ∈ post, e'.callId = e.callId) :
    Consistent maxNum (a ++ r) ↔ a.length + r.length ≤ maxNum ∧ Paired r := by
  constructor
  · intro h'
    rw [← List.length_append]
    exact ⟨h'.length, h'.paired.suffix⟩
  · rintro ⟨hlen, hpaired⟩
    exact ⟨by rwa [List.length_append], h.paired.replace ha rfl hpaired hr⟩

/-- A message that finds no dialog. -/
theorem consistent_created (hmax : 1 ≤ maxNum) (h : Consistent maxNum ds)
    (hother : ∀ x ∈ ds, x.callId ≠ msg.dlgID.callIdHash) :
    let ds' := if maxNum ≤ ds.length then ds.dropLast else ds
    Consistent maxNum
      (if msg.statusCode = 0 ∧ msg.methodFlag ≠ methodCancel then requestList msg (newDialog msg) ds'
        else ds') := by
  intro ds'
  have hlen : ds'.length + 1 ≤ maxNum := by
    simp only [ds']
    split
    · have := h.length
      rw [List.length_dropLast]
      omega
    · omega
  have hsub : ∀ x ∈ ds', x.callId ≠ (newDialog msg).callId := by
    intro x hx
    apply hother
    simp only [ds'] at hx
    split at hx
    · exact List.mem_of_mem_dropLast hx
    · exact hx
  have hpaired : Paired ds' := by
    simp only [ds']
    split
    · exact h.paired.dropLast
    · exact h.paired
  have hnew : Paired (newDialog msg :: ds') := hpaired.cons_of_ne hsub DialogState.noConfusion
  split_ifs with hrequest
  · have hnot : (newDialog msg).state ≠ .established := DialogState.noConfusion
    refine ⟨((length_requestList hrequest.1).2 fun h' => hnot h'.2).trans hlen, ?_⟩
    rw [paired_requestList hnew rfl hrequest.1]
    exact fun h' => DialogState.noConfusion h'
  · exact ⟨(Nat.le_succ _).trans hlen, hpaired⟩

theorem found_callId (h : ds.dropWhile (other msg) = d :: post) : msg.dlgID.callIdHash = d.callId := by
  have hnot := List.head?_dropWhile_not (other msg) ds
  rw [h, List.head?_cons] at hnot
  exact (not_not.1 (of_decide_eq_false hnot)).symm

/-- **A message keeps a session consistent exactly if it is sound.** -/
theorem consistent_updateList_iff (hmax : 1 ≤ maxNum) (h : Consistent maxNum ds) (msg : SIPMsg) :
    Consistent maxNum (updateList maxNum msg ds) ↔ Sound maxNum msg ds := by
  unfold updateList Sound
  by_cases hzero : msg.dlgID.callIdHash = 0
  · rw [if_pos hzero]
    exact iff_of_true h fun h' => absurd hzero h'
  rw [if_neg hzero]
  have hsplit := List.takeWhile_append_dropWhile (p := other msg) (l := ds)
  have htake : ∀ x ∈ ds.takeWhile (other msg), x.callId ≠ msg.dlgID.callIdHash :=
    fun x hx => by
      have hother : other msg x = true := List.mem_takeWhile_imp hx
      exact of_decide_eq_true hother
  cases hdrop : ds.dropWhile (other msg) with
  | nil =>
    rw [hdrop, List.append_nil] at hsplit
    rw [hsplit] at htake
    refine iff_of_true (consistent_created hmax h htake) fun _ dialog hdialog => ?_
    simp at hdialog
  | cons d post =>
    have hd := found_callId hdrop
    rw [hdrop] at hsplit
    generalize ds.takeWhile (other msg) = a at hsplit htake ⊢
    subst hsplit
    rw [hd] at htake
    have hpaired := h.paired.suffix
    have hlen := h.length
    rw [List.length_append, List.length_cons] at hlen
    simp only [List.head?_cons, List.tail_cons, Option.mem_some_iff, forall_eq', List.length_append,
      List.length_cons]
    by_cases hstatus : msg.statusCode = 0
    · obtain ⟨hmore, hsame⟩ := @length_requestList post d msg hstatus
      rw [if_pos hstatus, consistent_found_iff h htake (callId_requestList hd),
        paired_requestList hpaired hd hstatus]
      have hne : msg.statusCode ≠ 401 ∧ msg.statusCode ≠ 407 := by omega
      by_cases hre : plainInvite msg ∧ d.state = .established
      · rw [hmore hre]
        simp only [hre.1, hre.2, hzero, reduceCtorEq, false_implies, and_true, true_implies, ne_eq,
          not_false_eq_true]
        omega
      · have hle := hsame hre
        constructor
        · rintro ⟨-, hinvite⟩ -
          exact ⟨fun h1 h2 => absurd ⟨h1, h2⟩ hre, fun h1 h2 => ⟨hinvite h1 h2, hne⟩⟩
        · intro hsound
          exact ⟨by omega, fun h1 h2 => ((hsound hzero).2 h1 h2).1⟩
    · have hle : (responseList msg d post).length ≤ post.length + 1 := length_answerList
      rw [if_neg hstatus, consistent_found_iff h htake callId_responseList, paired_responseList hpaired]
      have hplain : ¬plainInvite msg := fun h' => hstatus h'.1
      constructor
      · rintro ⟨-, hauth⟩ -
        exact ⟨fun h1 => absurd h1 hplain, fun h1 h2 => ⟨hplain, hauth h1 h2⟩⟩
      · intro hsound
        exact ⟨by omega, fun h1 h2 => ((hsound hzero).2 h1 h2).2⟩

/-! ### All messages -/

/-- The dialogs behind messages. -/
def sipRun (maxNum : ℕ) (msgs : List SIPMsg) : DialogList :=
  msgs.foldl (fun dList msg => (sipUpdateDialog maxNum msg dList).2) emptyDialogs

/-- The same, on lists. -/
def listRun (maxNum : ℕ) (msgs : List SIPMsg) : List DialogData :=
  msgs.foldl (fun ds msg => updateList maxNum msg ds) []

theorem sipRun_represents (maxNum : ℕ) (msgs : List SIPMsg) :
    Represents (sipRun maxNum msgs) (listRun maxNum msgs) := by
  induction msgs using List.reverseRecOn with
  | nil => exact ⟨[], ⟨Links.holds_nil _, rfl, rfl, by simp⟩, rfl⟩
  | append_singleton msgs msg ih =>
    unfold sipRun listRun
    rw [List.foldl_append, List.foldl_append]
    exact sipUpdateDialog_refines maxNum msg ih

/-- An answer deletes only dialogs with its own call id. -/
theorem answer_keeps (h : Paired ds) (hstatus : msg.statusCode ≠ 0) (hfound : ds.dropWhile (other msg) ≠ []) :
    ∀ e ∈ ds, e.callId ≠ msg.dlgID.callIdHash → e ∈ updateList maxNum msg ds := by
  intro e he hne
  unfold updateList
  by_cases hzero : msg.dlgID.callIdHash = 0
  · rw [if_pos hzero]
    exact he
  rw [if_neg hzero]
  have hsplit := List.takeWhile_append_dropWhile (p := other msg) (l := ds)
  cases hdrop : ds.dropWhile (other msg) with
  | nil => exact absurd hdrop hfound
  | cons d post =>
    have hd := found_callId hdrop
    rw [hdrop] at hsplit
    rw [← hsplit] at he h
    simp only [if_neg hstatus]
    rcases List.mem_append.1 he with he | he
    · exact List.mem_append_left _ he
    · apply List.mem_append_right
      rcases List.mem_cons.1 he with rfl | he
      · exact absurd hd.symm hne
      · rw [hd] at hne
        have hpaired : Paired ({ d with statusCode := msg.statusCode } :: post) :=
          (h.suffix.change_iff rfl).2 (.inr Iff.rfl)
        exact hpaired.answer_keeps e he hne

/-- An answer found its dialog, a re-INVITE in progress. -/
def answersReinvite (msg : SIPMsg) (ds : List DialogData) : Prop :=
  msg.statusCode / 100 = 2 ∧ ∃ d ∈ (ds.dropWhile (other msg)).head?, d.state = .reinviting

/-- The dialogs of a session stay consistent: at most `maxNum`, with one call id only for a re-INVITE in progress
and the dialog behind it; a 2xx answer to a re-INVITE leaves all dialogs with other call ids. -/
def ConsistentAlong (maxNum : ℕ) (msgs : List SIPMsg) : Prop :=
  (∀ pre, pre <+: msgs → ∃ ds, Represents (sipRun maxNum pre) ds ∧ Consistent maxNum ds) ∧
    ∀ pre msg, pre ++ [msg] <+: msgs → ∀ ds ds', Represents (sipRun maxNum pre) ds →
      Represents (sipRun maxNum (pre ++ [msg])) ds' → answersReinvite msg ds →
        ∀ e ∈ ds, e.callId ≠ msg.dlgID.callIdHash → e ∈ ds'

theorem listRun_concat (maxNum : ℕ) (pre : List SIPMsg) (msg : SIPMsg) :
    listRun maxNum (pre ++ [msg]) = updateList maxNum msg (listRun maxNum pre) := by
  unfold listRun
  rw [List.foldl_append]
  rfl

theorem consistent_listRun {pre : List SIPMsg} (h : ∃ ds, Represents (sipRun maxNum pre) ds ∧ Consistent maxNum ds) :
    Consistent maxNum (listRun maxNum pre) := by
  obtain ⟨ds, hrep, hcons⟩ := h
  rw [(sipRun_represents maxNum pre).eq hrep]
  exact hcons

/-- Sound messages keep a session consistent. -/
theorem consistent_of_sound (hmax : 1 ≤ maxNum) (msgs : List SIPMsg)
    (h : ∀ pre msg, pre ++ [msg] <+: msgs → Sound maxNum msg (listRun maxNum pre)) :
    Consistent maxNum (listRun maxNum msgs) := by
  induction msgs using List.reverseRecOn with
  | nil => exact ⟨Nat.zero_le _, trivial⟩
  | append_singleton msgs msg ih =>
    have hbefore := ih fun pre m hpre => h pre m (hpre.trans (List.prefix_append _ _))
    rw [listRun_concat]
    exact (consistent_updateList_iff hmax hbefore msg).2 (h msgs msg (List.prefix_refl _))

/-- **The dialogs of a session**: behind any messages they are doubly linked and counted, and they are consistent
behind each of them if and only if each message is sound. -/
theorem consistentAlong_iff (maxNum : ℕ) (hmax : 1 ≤ maxNum) (msgs : List SIPMsg) :
    (∃ ds, Represents (sipRun maxNum msgs) ds) ∧
      (ConsistentAlong maxNum msgs ↔
        ∀ pre msg, pre ++ [msg] <+: msgs → Sound maxNum msg (listRun maxNum pre)) := by
  refine ⟨⟨_, sipRun_represents maxNum msgs⟩, fun h pre msg hpre => ?_, fun h => ?_⟩
  · have hbefore := consistent_listRun (h.1 pre ((List.prefix_append _ _).trans hpre))
    have hbehind := consistent_listRun (h.1 _ hpre)
    rw [listRun_concat] at hbehind
    exact (consistent_updateList_iff hmax hbefore msg).1 hbehind
  · have hcons : ∀ pre, pre <+: msgs → Consistent maxNum (listRun maxNum pre) :=
      fun pre hpre => consistent_of_sound hmax pre fun p m hp => h p m (hp.trans hpre)
    refine ⟨fun pre hpre => ⟨_, sipRun_represents maxNum pre, hcons pre hpre⟩, ?_⟩
    rintro pre msg hpre ds ds' hds hds' ⟨hstatus, d, hd, -⟩ e he hne
    obtain rfl := (sipRun_represents maxNum pre).eq hds
    obtain rfl := (sipRun_represents maxNum _).eq hds'
    rw [listRun_concat]
    have hfound : (listRun maxNum pre).dropWhile (other msg) ≠ [] := by
      intro h'
      rw [h'] at hd
      exact absurd hd (by simp)
    exact answer_keeps (hcons pre ((List.prefix_append _ _).trans hpre)).paired (by omega) hfound e he hne

/-- A message with the call id 1. -/
def message (methodFlag statusCode : ℕ) : SIPMsg := ⟨methodFlag, statusCode, ⟨1, 2, 3⟩, none, false⟩

/-- One dialog is enough for an INVITE and its answer. -/
theorem consistentAlong_answered :
    ConsistentAlong 1 [message methodInvite 0, message methodInvite 200] := by
  apply (consistentAlong_iff 1 le_rfl _).2.2
  intro pre msg hpre
  have hcases : pre = [] ∧ msg = message methodInvite 0 ∨
      pre = [message methodInvite 0] ∧ msg = message methodInvite 200 := by
    cases pre with
    | nil => exact .inl ⟨rfl, (List.cons_prefix_cons.1 hpre).1⟩
    | cons first pre =>
      obtain ⟨rfl, hrest⟩ := List.cons_prefix_cons.1 hpre
      cases pre with
      | nil => exact .inr ⟨rfl, (List.cons_prefix_cons.1 hrest).1⟩
      | cons second pre => simp [List.cons_prefix_cons] at hrest
  rcases hcases with ⟨rfl, rfl⟩ | ⟨rfl, rfl⟩
  · exact fun _ dialog hdialog => absurd hdialog (by simp [listRun])
  · have hrun : listRun 1 [message methodInvite 0] =
        [{ newDialog (message methodInvite 0) with state := .inviting }] := by decide
    rw [hrun]
    intro _ dialog hdialog
    obtain rfl := Option.some.inj hdialog
    exact ⟨fun _ h => absurd h (by decide), fun h => absurd h (by decide)⟩

/-- A second INVITE makes a second dialog where one is allowed, and a third one takes the re-INVITE its state. -/
theorem not_consistentAlong :
    ¬ConsistentAlong 1 [message methodInvite 0, message methodInvite 200, message methodInvite 0] ∧
      ¬ConsistentAlong 2 [message methodInvite 0, message methodInvite 200, message methodInvite 0,
        message methodInvite 0] := by
  constructor
  · intro h
    have hlength := (consistent_listRun (h.1 _ (List.prefix_refl _))).length
    exact absurd hlength (by decide)
  · intro h
    have hpaired := (consistent_listRun (h.1 _ (List.prefix_refl _))).paired
    have hrun : listRun 2 [message methodInvite 0, message methodInvite 200, message methodInvite 0,
        message methodInvite 0] =
          [{ newDialog (message methodInvite 0) with state := .inviting },
            { newDialog (message methodInvite 0) with state := .established, statusCode := 200 }] := by
      decide
    rw [hrun] at hpaired
    exact absurd ((hpaired.2.1 _ rfl).1 rfl) (by decide)

end Snort.Sip
