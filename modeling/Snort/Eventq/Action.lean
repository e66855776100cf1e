import Snort.Eventq.Runs

/-!
# Acting on the queued events: `sfeventq_action`

* `sfeventqAction`: the action is called on the first events of the list;
* **`sfeventqAction_best`**: in every run these are the best of the events that were added, up to the first failure.
-/

namespace Snort.Eventq

open Links Selection

variable {α σ : Type} (eq : EventQ α) (logNodes : ℕ) (actionFunc : α → σ → Bool × σ)

/-- The `for` loop; the action function answers if it fails, and may change what `user` points to. -/
def actionLoop : ℕ → Option ℕ → ℕ → σ → Option (ℤ × σ)
  | _, none, _, user => some (1, user)
  | 0, some _, _, _ => none
  | fuel + 1, some node, logged, user =>
    if logNodes ≤ logged then some (1, user)
    else do
      let event ← eq.event node
      let r := actionFunc (eq.eventMem event) user
      if r.1 then some (-1, r.2) else actionLoop fuel (eq.links.next node) (logged + 1) r.2

/-- `sfeventq_action`, with an action function. -/
def sfeventqAction (user : σ) : Option (ℤ × σ) :=
  if eq.head = none then some (0, user)
  else actionLoop eq logNodes actionFunc eq.maxNodes eq.head 0 user

/-- The action is called on events in order, up to the first failure. -/
def actOn : List α → σ → ℤ × σ
  | [], user => (1, user)
  | x :: l, user =>
    if (actionFunc x user).1 then (-1, (actionFunc x user).2) else actOn l (actionFunc x user).2

variable {eq logNodes actionFunc} {entries : List Entry} {pending : List ℕ} {hist : List α}

theorem actionLoop_eq {p : Option ℕ} (hseg : Seg eq.links p (entries.map Entry.node) none)
    (hevent : ∀ x ∈ entries, eq.event x.node = some x.slot) {fuel : ℕ} (hfuel : entries.length ≤ fuel) (logged : ℕ)
    (user : σ) : actionLoop eq logNodes actionFunc fuel (entries.map Entry.node).head? logged user =
      some (actOn actionFunc ((entries.take (logNodes - logged)).map fun x => eq.eventMem x.slot) user) := by
  induction entries generalizing p fuel logged user with
  | nil => simp [actionLoop, actOn]
  | cons x entries ih =>
    obtain ⟨fuel, rfl⟩ : ∃ m, fuel = m + 1 := ⟨fuel - 1, by simp at hfuel; omega⟩
    obtain ⟨-, hnext, hseg⟩ := hseg
    rw [Option.or_none] at hnext
    simp only [List.map_cons, List.head?_cons, actionLoop, hevent x List.mem_cons_self, hnext,
      Option.bind_eq_bind, Option.bind_some]
    by_cases hlog : logNodes ≤ logged
    · rw [if_pos hlog, Nat.sub_eq_zero_of_le hlog]
      rfl
    · obtain ⟨m, hm⟩ : ∃ m, logNodes - logged = m + 1 := ⟨logNodes - logged - 1, by omega⟩
      have hrest := ih hseg (fun y hy => hevent y (List.mem_cons_of_mem _ hy)) (by simpa using hfuel) (logged + 1)
        (actionFunc (eq.eventMem x.slot) user).2
      rw [show logNodes - (logged + 1) = m by omega] at hrest
      rw [if_neg hlog, hrest, hm, List.take_succ_cons, List.map_cons, actOn]
      split_ifs <;> rfl

/-- The action is called on the first `log_nodes` of the best events, in order, up to the first failure. -/
def ActsOnBest (eq₀ eq : EventQ α) (hist : List α) : Prop :=
  ∃ ids, Chosen eq₀.Less eq₀.maxNodes hist ids ∧
    ∀ (σ : Type) (logNodes : ℕ) (actionFunc : α → σ → Bool × σ) (user : σ),
      sfeventqAction eq logNodes actionFunc user =
        some (if ids = [] then (0, user)
          else actOn actionFunc ((ids.take logNodes).filterMap fun i => hist[i]?) user)

/-- **The action is called on the best events that were added**, in every run. -/
theorem sfeventqAction_best (eq₀ : EventQ α) [IsStrictWeakOrder α eq₀.Less] (hmax : 1 ≤ eq₀.maxNodes)
    (hrun : Run eq₀ eq pending hist) : ActsOnBest eq₀ eq hist := by
  obtain ⟨entries, h, hsort, hnodes⟩ := hrun.invariant hmax
  have hless : eq.Less = eq₀.Less := by
    unfold EventQ.Less
    rw [hsort]
  have hchosen := h.chosen
  refine ⟨entries.map Entry.id, hless ▸ hnodes ▸ hchosen, fun σ logNodes actionFunc user => ?_⟩
  have hle : entries.length ≤ eq.maxNodes := by simpa using hchosen.le
  have hevents : ((entries.map Entry.id).take logNodes).filterMap (fun i => hist[i]?) =
      (entries.take logNodes).map fun x => eq.eventMem x.slot := by
    rw [← List.map_take, List.filterMap_map, ← List.filterMap_eq_map]
    exact List.filterMap_congr fun x hx => h.contents x (List.mem_of_mem_take hx)
  rw [sfeventqAction, hevents, h.linked.head, actionLoop_eq h.linked.links.seg h.linked.event hle, Nat.sub_zero]
  cases entries <;> simp

theorem sfeventqAction_best_three : ∃ eq, Run greatest eq [] [5, 7, 6] ∧ ActsOnBest greatest eq [5, 7, 6] := by
  have horder := greatest_weakOrder
  obtain ⟨eq, hrun⟩ := greatest_run
  exact ⟨eq, hrun, sfeventqAction_best greatest (by decide) hrun⟩

end Snort.Eventq
