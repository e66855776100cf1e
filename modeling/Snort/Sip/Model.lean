import Snort.Lib.Links

/-!
# The dialogs of a SIP session

* `DialogData`, `DialogList`: dialogs in memory, linked in both directions;
* `sipAddDialog`, `sipDeleteDialog`: what links a dialog in and out;
* `sipProcessRequest`, `sipProcessResponse`: a message for the dialog with its call id;
* `sipUpdateDialog`: a message for a session.

Dialogs have natural numbers as addresses; `fresh` is the next one that is allocated.
-/

namespace Snort.Sip

/-- `SIP_MediaData`. -/
structure MediaData where
  maddress : ℕ
  mport : ℕ
  numPort : ℕ
  deriving DecidableEq

/-- `SIP_MediaSession`. -/
structure MediaSession where
  sessionID : ℕ
  medias : List MediaData
  deriving DecidableEq

/-- `SIP_DialogID`. -/
structure DialogID where
  callIdHash : ℕ
  fromTagHash : ℕ
  toTagHash : ℕ
  deriving DecidableEq

/-- `SIP_DialogState`. -/
inductive DialogState
  | create | inviting | early | authencating | established | reinviting | terminating | terminated
  deriving DecidableEq

/-- `SIP_METHOD_INVITE` and the like. -/
def methodInvite : ℕ := 1

def methodCancel : ℕ := 2

def methodAck : ℕ := 3

def methodBye : ℕ := 4

/-- `SIP_DialogData` without its links. -/
structure DialogData where
  dlgID : DialogID
  state : DialogState
  creator : ℕ
  statusCode : ℕ
  mediaSessions : List MediaSession
  deriving DecidableEq

/-- `SIPMsg`; a request has the status code 0. -/
structure SIPMsg where
  methodFlag : ℕ
  statusCode : ℕ
  dlgID : DialogID
  mediaSession : Option MediaSession
  authorization : Bool
  deriving DecidableEq

/-- `SIP_DialogList`, with the memory for dialogs. -/
structure DialogList where
  head : Option ℕ
  numDialogs : ℕ
  links : Links ℕ
  dialogs : ℕ → DialogData
  fresh : ℕ

/-- A write to a dialog. -/
def DialogList.modify (dList : DialogList) (dialog : ℕ) (f : DialogData → DialogData) : DialogList :=
  { dList with dialogs := Function.update dList.dialogs dialog (f (dList.dialogs dialog)) }

/-! ### Media sessions -/

def sipUpdateMedias (mSession : Option MediaSession) (dList : List MediaSession) : List MediaSession :=
  match mSession with
  | none => dList
  | some m =>
    let other := fun s : MediaSession => s.sessionID ≠ m.sessionID
    match dList.dropWhile other with
    | [] => m :: dList
    | _ :: rest => dList.takeWhile other ++ m :: rest

/-- `SIP_compareMedias` for equal lists. -/
def sipSameMedias (mlistA mlistB : List MediaData) : Bool := mlistA = mlistB

def sipCheckMediaChange (msg : SIPMsg) (dialog : DialogData) : Bool :=
  match msg.mediaSession with
  | none => true
  | some m =>
    match dialog.mediaSessions.find? fun s => s.sessionID = m.sessionID with
    | none => false
    | some s => sipSameMedias s.medias m.medias

def DialogData.updateMedias (dialog : DialogData) (msg : SIPMsg) : DialogData :=
  { dialog with mediaSessions := sipUpdateMedias msg.mediaSession dialog.mediaSessions }

/-! ### The list -/

/-- The dialog that a message creates. -/
def newDialog (msg : SIPMsg) : DialogData :=
  ⟨msg.dlgID, .create, msg.methodFlag, 0, sipUpdateMedias msg.mediaSession []⟩

/-- `SIP_addDialog`: a dialog is linked in before the current one. -/
def sipAddDialog (msg : SIPMsg) (currDialog : Option ℕ) (dList : DialogList) : ℕ × DialogList :=
  let dialog := dList.fresh
  let prevD := currDialog.bind dList.links.prev
  (dialog,
    { head := if prevD = none then some dialog else dList.head
      numDialogs := dList.numDialogs + 1
      links := dList.links.link prevD dialog currDialog
      dialogs := Function.update dList.dialogs dialog (newDialog msg)
      fresh := dList.fresh + 1 })

def sipDeleteDialog (currDialog : Option ℕ) (dList : DialogList) : DialogList :=
  match currDialog with
  | none => dList
  | some dialog =>
    { dList with
      head := if dList.links.prev dialog = none then dList.links.next dialog else dList.head
      links := dList.links.unlink dialog
      numDialogs := dList.numDialogs - 1 }

/-! ### Messages -/

/-- What an INVITE does to a dialog that is not established. -/
def inviteDialog (msg : SIPMsg) (dialog : DialogData) : DialogData :=
  let dialog :=
    if dialog.state = .inviting ∨ dialog.state = .early ∨ dialog.state = .reinviting ∨
        dialog.state = .authencating ∨ dialog.state = .terminated then
      dialog.updateMedias msg
    else dialog
  { dialog with state := .inviting }

/-- `SIP_processInvite`; an INVITE with authorization that was not asked for is a replay. -/
def sipProcessInvite (msg : SIPMsg) (dialog : Option ℕ) (dList : DialogList) : Bool × DialogList :=
  match dialog with
  | none => (false, dList)
  | some d =>
    let old := dList.dialogs d
    if old.state ≠ .authencating ∧ msg.authorization = true then (false, dList)
    else if old.state = .established then
      let r := sipAddDialog msg dialog dList
      (true, r.2.modify r.1 fun dialog => { dialog with state := .reinviting })
    else
      let ret :=
        if old.state = .inviting ∨ old.state = .early ∨ old.state = .reinviting ∨
            old.state = .authencating then
          sipCheckMediaChange msg old
        else true
      (ret, dList.modify d (inviteDialog msg))

/-- `SIP_processACK` for a dialog. -/
def ackDialog (msg : SIPMsg) (dialog : DialogData) : DialogData :=
  if dialog.state = .established ∧ dialog.creator = methodInvite ∧
      sipCheckMediaChange msg dialog = false then
    dialog.updateMedias msg
  else dialog

/-- A BYE for a dialog. -/
def byeDialog (dialog : DialogData) : DialogData :=
  if dialog.state = .established then { dialog with state := .terminating } else dialog

def sipProcessRequest (msg : SIPMsg) (dialog : Option ℕ) (dList : DialogList) : Bool × DialogList :=
  let r :=
    if dialog = none ∧ msg.methodFlag ≠ methodCancel then
      let r := sipAddDialog msg dList.head dList
      (some r.1, r.2)
    else (dialog, dList)
  let dList := r.2
  if msg.methodFlag = methodInvite then sipProcessInvite msg r.1 dList
  else
    match r.1 with
    | none => (false, dList)
    | some d =>
      if msg.methodFlag = methodCancel then
        let state := (dList.dialogs d).state
        (true,
          if state = .early ∨ state = .inviting ∨ state = .create then sipDeleteDialog (some d) dList
          else dList)
      else if msg.methodFlag = methodAck then (true, dList.modify d (ackDialog msg))
      else if msg.methodFlag = methodBye then
        (true, dList.modify d byeDialog)
      else (true, dList)

/-- A 1xx answer for a dialog. -/
def provisional (msg : SIPMsg) (dialog : DialogData) : DialogData :=
  { dialog.updateMedias msg with
    state := if dialog.state = .create then .early else dialog.state }

/-- The media of a dialog behind a 2xx answer, which is established then. -/
def establish (msg : SIPMsg) (dialog : DialogData) : DialogData :=
  let dialog :=
    if (dialog.state = .reinviting ∨ dialog.creator = methodInvite) ∧
        sipCheckMediaChange msg dialog = false then
      dialog.updateMedias msg
    else dialog
  { dialog with state := .established }

/-- `SIP_processResponse`; messages that get here have a status code. -/
def sipProcessResponse (msg : SIPMsg) (dialog : Option ℕ) (dList : DialogList) : Bool × DialogList :=
  match dialog with
  | none => (false, dList)
  | some d =>
    let dList := dList.modify d fun dialog => { dialog with statusCode := msg.statusCode }
    let state := (dList.dialogs d).state
    let statusType := msg.statusCode / 100
    (true,
      if statusType = 1 then dList.modify d (provisional msg)
      else if statusType = 2 then
        if state = .reinviting then
          (sipDeleteDialog (dList.links.next d) dList).modify d (establish msg)
        else if state = .terminating then sipDeleteDialog (some d) dList
        else dList.modify d (establish msg)
      else if 3 ≤ statusType ∧ statusType ≤ 6 then
        if msg.statusCode = 401 ∨ msg.statusCode = 407 then
          dList.modify d fun dialog => { dialog with state := .authencating }
        else if state = .reinviting then sipDeleteDialog (some d) dList
        else dList.modify d fun dialog => { dialog with state := .terminated }
      else dList)

/-- The search for the dialog with a call id: it and the one in front of it. -/
def findDialog (dList : DialogList) (callIdHash : ℕ) :
    (fuel : ℕ) → (oldDialog dialog : Option ℕ) → Option ℕ × Option ℕ
  | 0, oldDialog, dialog => (oldDialog, dialog)
  | _, oldDialog, none => (oldDialog, none)
  | fuel + 1, oldDialog, some d =>
    if callIdHash = (dList.dialogs d).dlgID.callIdHash then (oldDialog, some d)
    else findDialog dList callIdHash fuel (some d) (dList.links.next d)

/-- `SIP_updateDialog`; no more than `fresh` dialogs are in the list. -/
def sipUpdateDialog (maxNumDialogsInSession : ℕ) (msg : SIPMsg) (dList : DialogList) :
    Bool × DialogList :=
  if msg.dlgID.callIdHash = 0 then (false, dList)
  else
    let r := findDialog dList msg.dlgID.callIdHash dList.fresh none dList.head
    let dList :=
      if maxNumDialogsInSession ≤ dList.numDialogs ∧ r.2 = none then sipDeleteDialog r.1 dList
      else dList
    if msg.statusCode = 0 then sipProcessRequest msg r.2 dList
    else sipProcessResponse msg r.2 dList

/-- A session without dialogs. -/
def emptyDialogs : DialogList :=
  ⟨none, 0, ⟨fun _ => none, fun _ => none⟩, fun _ => ⟨⟨0, 0, 0⟩, .create, 0, 0, []⟩, 0⟩

end Snort.Sip
