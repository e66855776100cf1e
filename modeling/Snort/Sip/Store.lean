import Snort.Sip.Model

/-!
# What a session keeps

* `Linked`: the dialogs are linked in the order of a list of addresses, and counted;
* `updateList`, **`sipUpdateDialog_refines`**: a message, on the list of the dialogs.
-/

namespace Snort.Sip

open Links

/-! ### Links -/

/-- The dialogs with these addresses are the ones of the session, in this order. -/
structure Linked (dList : DialogList) (l : List ℕ) : Prop where
  holds : Holds dList.links l
  head : dList.head = l.head?
  count : dList.numDialogs = l.length
  fresh : ∀ d ∈ l, d < dList.fresh

variable {dList : DialogList} {l a b : List ℕ} {d : ℕ} {msg : SIPMsg}

theorem Linked.modify (h : Linked dList l) (d : ℕ) (f : DialogData → DialogData) :
    Linked (dList.modify d f) l :=
  ⟨h.holds, h.head, h.count, h.fresh⟩

theorem map_update {f : ℕ → DialogData} {v : DialogData} (h : d ∉ l) :
    l.map (Function.update f d v) = l.map f := by
  apply List.map_congr_left
  intro x hx
  apply Function.update_of_ne
  rintro rfl
  exact h hx

theorem Linked.map_modify (h : Linked dList (a ++ d :: b)) (f : DialogData → DialogData) :
    (a ++ d :: b).map (dList.modify d f).dialogs =
      a.map dList.dialogs ++ f (dList.dialogs d) :: b.map dList.dialogs := by
  have hnd := List.nodup_middle.1 h.holds.nodup
  have hd := (List.nodup_cons.1 hnd).1
  have hdialogs : (dList.modify d f).dialogs = Function.update dList.dialogs d (f (dList.dialogs d)) := rfl
  rw [hdialogs, List.map_append, List.map_cons, Function.update_self,
    map_update fun h' => hd (List.mem_append_left _ h'),
    map_update fun h' => hd (List.mem_append_right _ h')]

theorem getElem_head? (h : Linked dList (a ++ b)) (hab : a = [] ∨ b ≠ []) :
    b.head?.bind dList.links.prev = a.getLast? := by
  cases b with
  | nil =>
    rcases hab with rfl | h'
    · rfl
    · exact absurd rfl h'
  | cons d b => exact h.holds.cell.2

/-- A dialog is linked in. -/
theorem Linked.add (h : Linked dList (a ++ b)) (hab : a = [] ∨ b ≠ []) (msg : SIPMsg) :
    let r := sipAddDialog msg b.head? dList
    Linked r.2 (a ++ r.1 :: b) ∧
      (a ++ r.1 :: b).map r.2.dialogs =
        a.map dList.dialogs ++ newDialog msg :: b.map dList.dialogs := by
  have hnew : dList.fresh ∉ a ++ b := fun h' => absurd (h.fresh _ h') (lt_irrefl _)
  have hprev := getElem_head? h hab
  unfold sipAddDialog
  simp only [hprev]
  refine ⟨⟨h.holds.link hnew, ?_, ?_, ?_⟩, ?_⟩
  · cases a with
    | nil => rfl
    | cons x a =>
      rw [if_neg (by simp), h.head]
      rfl
  · rw [h.count]
    simp only [List.length_append, List.length_cons]
    omega
  · intro x hx
    rcases List.mem_append.1 hx with hx | hx
    · exact Nat.lt_succ_of_lt (h.fresh x (List.mem_append_left _ hx))
    · rcases List.mem_cons.1 hx with rfl | hx
      · exact Nat.lt_succ_self _
      · exact Nat.lt_succ_of_lt (h.fresh x (List.mem_append_right _ hx))
  · rw [List.map_append, List.map_cons, Function.update_self,
      map_update fun h' => hnew (List.mem_append_left _ h'),
      map_update fun h' => hnew (List.mem_append_right _ h')]

/-- A dialog is linked out. -/
theorem Linked.delete (h : Linked dList (a ++ d :: b)) :
    Linked (sipDeleteDialog (some d) dList) (a ++ b) := by
  refine ⟨h.holds.unlink, ?_, ?_, ?_⟩
  · unfold sipDeleteDialog
    simp only [h.holds.cell.1, h.holds.cell.2]
    cases a with
    | nil => rfl
    | cons x a =>
      rw [if_neg (by simp), h.head]
      rfl
  · unfold sipDeleteDialog
    rw [h.count]
    simp only [List.length_append, List.length_cons]
    omega
  · intro x hx
    apply h.fresh x
    rcases List.mem_append.1 hx with hx | hx
    · exact List.mem_append_left _ hx
    · exact List.mem_append_right _ (List.mem_cons_of_mem _ hx)

theorem Linked.delete_last (h : Linked dList a) : Linked (sipDeleteDialog a.getLast? dList) a.dropLast := by
  rcases List.eq_nil_or_concat a with rfl | ⟨a', d, rfl⟩
  · exact h
  · rw [List.concat_eq_append] at h ⊢
    rw [List.getLast?_concat, List.dropLast_concat]
    have hdelete := h.delete
    rw [List.append_nil] at hdelete
    exact hdelete

theorem dialogs_delete (o : Option ℕ) : (sipDeleteDialog o dList).dialogs = dList.dialogs := by
  cases o with
  | none => rfl
  | some d => rfl

/-- The search stops at the first dialog with the call id. -/
theorem findDialog_eq (h : Linked dList (a ++ b)) (callIdHash : ℕ) (fuel : ℕ) (hfuel : b.length ≤ fuel) :
    let other := fun d => decide ((dList.dialogs d).dlgID.callIdHash ≠ callIdHash)
    findDialog dList callIdHash fuel a.getLast? b.head? =
      ((a ++ b.takeWhile other).getLast?, (b.dropWhile other).head?) := by
  intro other
  induction b generalizing a fuel with
  | nil =>
    cases fuel with
    | zero => simp [findDialog]
    | succ fuel => simp [findDialog]
  | cons d b ih =>
    cases fuel with
    | zero => simp at hfuel
    | succ fuel =>
      rw [List.head?_cons]
      unfold findDialog
      by_cases hd : callIdHash = (dList.dialogs d).dlgID.callIdHash
      · rw [if_pos hd, List.takeWhile_cons_of_neg (by simp [other, hd]),
          List.dropWhile_cons_of_neg (by simp [other, hd]), List.append_nil]
        rfl
      · have hother : other d = true := decide_eq_true fun h' => hd h'.symm
        have h' : Linked dList ((a ++ [d]) ++ b) := by
          rw [List.append_assoc]
          exact h
        have hlast : (a ++ [d]).getLast? = some d := List.getLast?_concat
        rw [if_neg hd, List.takeWhile_cons_of_pos hother, List.dropWhile_cons_of_pos hother,
          h.holds.cell.1, ← hlast, ih h' fuel (by simpa using hfuel), List.append_assoc]
        rfl

/-! ### The functions on lists -/

/-- A request for a dialog with others behind it. -/
def requestList (msg : SIPMsg) (dialog : DialogData) (post : List DialogData) : List DialogData :=
  if msg.methodFlag = methodInvite then
    if dialog.state ≠ .authencating ∧ msg.authorization = true then dialog :: post
    else if dialog.state = .established then
      { newDialog msg with state := .reinviting } :: dialog :: post
    else inviteDialog msg dialog :: post
  else if msg.methodFlag = methodCancel then
    if dialog.state = .early ∨ dialog.state = .inviting ∨ dialog.state = .create then post
    else dialog :: post
  else if msg.methodFlag = methodAck then ackDialog msg dialog :: post
  else if msg.methodFlag = methodBye then byeDialog dialog :: post
  else dialog :: post

/-- An answer for a dialog, which has its status code, with others behind it. -/
def answerList (msg : SIPMsg) (dialog : DialogData) (post : List DialogData) : List DialogData :=
  let statusType := msg.statusCode / 100
  if statusType = 1 then provisional msg dialog :: post
  else if statusType = 2 then
    if dialog.state = .reinviting then establish msg dialog :: post.tail
    else if dialog.state = .terminating then post
    else establish msg dialog :: post
  else if 3 ≤ statusType ∧ statusType ≤ 6 then
    if msg.statusCode = 401 ∨ msg.statusCode = 407 then
      { dialog with state := .authencating } :: post
    else if dialog.state = .reinviting then post
    else { dialog with state := .terminated } :: post
  else dialog :: post

def responseList (msg : SIPMsg) (dialog : DialogData) (post : List DialogData) : List DialogData :=
  answerList msg { dialog with statusCode := msg.statusCode } post

/-- A dialog with another call id. -/
def other (msg : SIPMsg) (dialog : DialogData) : Bool :=
  dialog.dlgID.callIdHash ≠ msg.dlgID.callIdHash

/-- A message for the dialogs of a session. -/
def updateList (maxNumDialogsInSession : ℕ) (msg : SIPMsg) (ds : List DialogData) : List DialogData :=
  if msg.dlgID.callIdHash = 0 then ds
  else
    match ds.dropWhile (other msg) with
    | dialog :: post =>
      ds.takeWhile (other msg) ++
        if msg.statusCode = 0 then requestList msg dialog post else responseList msg dialog post
    | [] =>
      let ds := if maxNumDialogsInSession ≤ ds.length then ds.dropLast else ds
      if msg.statusCode = 0 ∧ msg.methodFlag ≠ methodCancel then requestList msg (newDialog msg) ds
      else ds

/-- The dialogs are linked, and they are these ones. -/
def Represents (dList : DialogList) (ds : List DialogData) : Prop :=
  ∃ l, Linked dList l ∧ l.map dList.dialogs = ds

theorem Linked.represents (h : Linked dList l) : Represents dList (l.map dList.dialogs) := ⟨l, h, rfl⟩

/-- The dialogs of a session are determined. -/
theorem Represents.eq {ds ds' : List DialogData} (h : Represents dList ds) (h' : Represents dList ds') :
    ds = ds' := by
  obtain ⟨l, hl, rfl⟩ := h
  obtain ⟨l', hl', rfl⟩ := h'
  rw [hl.holds.eq hl'.holds (hl.head.symm.trans hl'.head)]

theorem Linked.represents_modify (h : Linked dList (a ++ d :: b)) (f : DialogData → DialogData) :
    Represents (dList.modify d f)
      (a.map dList.dialogs ++ f (dList.dialogs d) :: b.map dList.dialogs) :=
  ⟨_, h.modify d f, h.map_modify f⟩

theorem Linked.represents_same (h : Linked dList (a ++ d :: b)) :
    Represents dList (a.map dList.dialogs ++ dList.dialogs d :: b.map dList.dialogs) := by
  rw [← List.map_cons, ← List.map_append]
  exact h.represents

theorem Linked.represents_delete (h : Linked dList (a ++ d :: b)) :
    Represents (sipDeleteDialog (some d) dList) (a.map dList.dialogs ++ b.map dList.dialogs) := by
  rw [← List.map_append, ← @dialogs_delete dList (some d)]
  exact h.delete.represents

/-- A request for a dialog that is there. -/
theorem request_refines (h : Linked dList (a ++ d :: b)) :
    Represents (sipProcessRequest msg (some d) dList).2
      (a.map dList.dialogs ++ requestList msg (dList.dialogs d) (b.map dList.dialogs)) := by
  unfold sipProcessRequest requestList
  simp only [reduceCtorEq, false_and, if_false]
  split_ifs with hinvite hreplay hestablished hcancel hearly hack hbye
  · unfold sipProcessInvite
    simp only [if_pos hreplay]
    exact h.represents_same
  · unfold sipProcessInvite
    simp only [if_neg hreplay, if_pos hestablished]
    obtain ⟨hadd, hmap⟩ := h.add (.inr (List.cons_ne_nil _ _)) msg
    obtain ⟨hleft, hright⟩ := List.append_inj (List.map_append.symm.trans hmap) (by simp)
    obtain ⟨hnew, hpost⟩ := List.cons.inj hright
    have hmodify := hadd.represents_modify fun dialog => { dialog with state := .reinviting }
    rw [hleft, hnew, hpost] at hmodify
    exact hmodify
  · unfold sipProcessInvite
    simp only [if_neg hreplay, if_neg hestablished]
    exact h.represents_modify _
  · exact h.represents_delete
  · exact h.represents_same
  · exact h.represents_modify _
  · exact h.represents_modify _
  · exact h.represents_same

/-- An answer for a dialog that is there. -/
theorem response_refines (h : Linked dList (a ++ d :: b)) :
    Represents (sipProcessResponse msg (some d) dList).2
      (a.map dList.dialogs ++ responseList msg (dList.dialogs d) (b.map dList.dialogs)) := by
  have hmap := h.map_modify fun dialog => { dialog with statusCode := msg.statusCode }
  have h' := h.modify d fun dialog => { dialog with statusCode := msg.statusCode }
  obtain ⟨hleft, hright⟩ := List.append_inj (List.map_append.symm.trans hmap) (by simp)
  obtain ⟨hd, hpost⟩ := List.cons.inj hright
  unfold responseList
  rw [← hleft, ← hpost, ← hd]
  unfold sipProcessResponse answerList
  simp only
  generalize dList.modify d (fun dialog => { dialog with statusCode := msg.statusCode }) = dList' at h' ⊢
  split_ifs with h1 h2 hreinviting hterminating h3 hauth hreinviting
  · exact h'.represents_modify _
  · -- the dialog behind it is deleted
    cases b with
    | nil =>
      rw [h'.holds.cell.1]
      exact h'.represents_modify _
    | cons x b =>
      have hx : Linked dList' ((a ++ [d]) ++ x :: b) := by
        rw [List.append_assoc]
        exact h'
      have hdelete := hx.delete
      rw [List.append_assoc] at hdelete
      rw [h'.holds.cell.1, List.head?_cons]
      have hmodify := hdelete.represents_modify (establish msg)
      rw [dialogs_delete] at hmodify
      exact hmodify
  · exact h'.represents_delete
  · exact h'.represents_modify _
  · exact h'.represents_modify _
  · exact h'.represents_delete
  · exact h'.represents_modify _
  · exact h'.represents_same

/-- A request that makes a dialog. -/
theorem create_refines (h : Linked dList l) (hcancel : msg.methodFlag ≠ methodCancel) :
    Represents (sipProcessRequest msg none dList).2
      (requestList msg (newDialog msg) (l.map dList.dialogs)) := by
  have hcreate : sipProcessRequest msg none dList =
      sipProcessRequest msg (some (sipAddDialog msg dList.head dList).1)
        (sipAddDialog msg dList.head dList).2 := by
    unfold sipProcessRequest
    simp only [true_and, if_pos hcancel, reduceCtorEq, false_and, if_false]
  have h' : Linked dList ([] ++ l) := h
  obtain ⟨hadd, hmap⟩ := h'.add (.inl rfl) msg
  rw [← h.head] at hadd hmap
  obtain ⟨hnew, hpost⟩ := List.cons.inj hmap
  have hrequest := @request_refines _ [] l _ msg hadd
  rw [List.map_nil, List.nil_append, hnew, hpost] at hrequest
  rw [hcreate]
  exact hrequest

theorem length_le_fresh (h : Linked dList l) : l.length ≤ dList.fresh := by
  have hsub : l ⊆ List.range dList.fresh := fun x hx => List.mem_range.2 (h.fresh x hx)
  have hle := (List.subperm_of_subset h.holds.nodup hsub).length_le
  rwa [List.length_range] at hle

/-- **A message does to the dialogs what it does on the list.** -/
theorem sipUpdateDialog_refines {ds : List DialogData} (maxNum : ℕ) (msg : SIPMsg)
    (h : Represents dList ds) :
    Represents (sipUpdateDialog maxNum msg dList).2 (updateList maxNum msg ds) := by
  obtain ⟨l, hl, rfl⟩ := h
  unfold sipUpdateDialog updateList
  by_cases hzero : msg.dlgID.callIdHash = 0
  · rw [if_pos hzero, if_pos hzero]
    exact hl.represents
  rw [if_neg hzero, if_neg hzero]
  have hfind : findDialog dList msg.dlgID.callIdHash dList.fresh none dList.head =
      ((l.takeWhile (other msg ∘ dList.dialogs)).getLast?,
        (l.dropWhile (other msg ∘ dList.dialogs)).head?) := by
    rw [hl.head]
    exact @findDialog_eq dList [] l hl msg.dlgID.callIdHash dList.fresh (length_le_fresh hl)
  rw [hfind, List.dropWhile_map, List.takeWhile_map]
  have hsplit := List.takeWhile_append_dropWhile (p := other msg ∘ dList.dialogs) (l := l)
  generalize l.takeWhile (other msg ∘ dList.dialogs) = a at hsplit ⊢
  generalize l.dropWhile (other msg ∘ dList.dialogs) = b at hsplit ⊢
  subst hsplit
  cases b with
  | cons d b =>
    simp only [List.head?_cons, reduceCtorEq, and_false, if_false, List.map_cons]
    split_ifs
    · exact request_refines hl
    · exact response_refines hl
  | nil =>
    rw [List.append_nil] at hl ⊢
    simp only [List.head?_nil, and_true, List.map_nil, List.length_map, ← hl.count]
    -- the oldest dialog makes room
    have hroom : ∃ l', Linked (if maxNum ≤ dList.numDialogs then sipDeleteDialog a.getLast? dList else dList) l' ∧
        l'.map (if maxNum ≤ dList.numDialogs then sipDeleteDialog a.getLast? dList else dList).dialogs =
          if maxNum ≤ dList.numDialogs then (a.map dList.dialogs).dropLast else a.map dList.dialogs := by
      split_ifs
      · exact ⟨a.dropLast, hl.delete_last, by rw [dialogs_delete, List.map_dropLast]⟩
      · exact ⟨a, hl, rfl⟩
    obtain ⟨l', hl', hmap⟩ := hroom
    rw [← hmap]
    generalize (if maxNum ≤ dList.numDialogs then sipDeleteDialog a.getLast? dList else dList) = dList' at hl' ⊢
    by_cases hstatus : msg.statusCode = 0
    · rw [if_pos hstatus]
      by_cases hcancel : msg.methodFlag = methodCancel
      · rw [if_neg fun h => h.2 hcancel]
        have hsame : (sipProcessRequest msg none dList').2 = dList' := by
          unfold sipProcessRequest
          simp [hcancel, methodCancel, methodInvite]
        rw [hsame]
        exact hl'.represents
      · rw [if_pos ⟨hstatus, hcancel⟩]
        exact create_refines hl' hcancel
    · rw [if_neg hstatus, if_neg fun h => hstatus h.1]
      exact hl'.represents

end Snort.Sip
