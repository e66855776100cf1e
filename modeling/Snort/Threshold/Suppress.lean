import Snort.Threshold.Objects
import Snort.Threshold.Logs

/-!
# Suppression comes first

* `Ordered`: objects that suppress, and at most one other behind them;
* `insertNode_spec`: an object goes in front of those of a lower priority;
* `Invariant`: the lists of all signatures are ordered, kept by **`Invariant.create`** and **`Invariant.test`**;
* **`suppress_first`**: after any calls, the lists are ordered, and an event of a suppressed address is not logged.
-/

namespace Snort.Threshold

open CInt

section Insert

variable {A : Type} {s : SfList (ThdObject A)} {nodes front back : List ℕ}
  {items before behind suppressed rest : List (ThdObject A)} {node config : ThdObject A}

/-- The loop goes on from a node of the list. -/
theorem insertLoop_spec (h : s.Rep (front ++ back) (before ++ behind)) (hfront : front.map s.ndata = before.map some)
    (hne : back ≠ []) (hcur : s.cur = back.head?) (hbefore : ∀ x ∈ before, ¬x.priority < node.priority) {fuel : ℕ}
    (hfuel : back.length ≤ fuel) :
    ∃ s' nodes' before' behind', before ++ behind = before' ++ behind' ∧ insertLoop node fuel s = some s' ∧
      s'.Rep nodes' (before' ++ node :: behind') ∧ (∀ x ∈ before', ¬x.priority < node.priority) ∧
      ∀ x, behind'.head? = some x → x.priority < node.priority := by
  induction back generalizing front before behind fuel s with
  | nil => exact absurd rfl hne
  | cons lnode back ih =>
    obtain ⟨fuel, rfl⟩ := Nat.exists_eq_add_of_le' (show 1 ≤ fuel from (Nat.succ_pos _).trans_le hfuel)
    have hback := h.drop hfront
    cases behind with
    | nil => exact absurd hback (List.cons_ne_nil _ _)
    | cons y behind =>
      obtain ⟨hy, hback'⟩ := List.cons.inj hback
      have hcur' : s.cur = some lnode := hcur
      unfold insertLoop
      rw [hcur']
      dsimp only
      rw [hy, Option.bind_eq_bind, Option.bind_some]
      by_cases hless : y.priority < node.priority
      · obtain ⟨s', hadd, hrep⟩ := h.addBefore hfront node
        rw [if_pos hless]
        refine ⟨s', _, before, y :: behind, rfl, hadd, hrep, hbefore, fun x hx => ?_⟩
        obtain rfl := Option.some.inj hx
        exact hless
      · have hnext := h.holds.cell.1
        rw [if_neg hless, hnext]
        have hbefore' : ∀ x ∈ before ++ [y], ¬x.priority < node.priority := by
          intro x hx
          rcases List.mem_append.1 hx with hx | hx
          · exact hbefore x hx
          · rw [List.mem_singleton.1 hx]
            exact hless
        cases back with
        | nil =>
          obtain rfl : behind = [] := List.map_eq_nil_iff.1 hback'.symm
          obtain ⟨s', hadd, hrep⟩ := h.addTail node
          exact ⟨s', _, before ++ [y], [], (List.append_nil _).symm, hadd, hrep, hbefore',
            fun x hx => absurd hx.symm (Option.some_ne_none x)⟩
        | cons z back =>
          rw [if_neg (show (z :: back).head? ≠ none from Option.some_ne_none z)]
          have hrep : s.Rep ((front ++ [lnode]) ++ z :: back) ((before ++ [y]) ++ behind) := by
            rw [List.append_assoc, List.append_assoc]
            exact h
          have hfront' : (front ++ [lnode]).map s.ndata = (before ++ [y]).map some := by
            rw [List.map_append, List.map_append, hfront, List.map_singleton, hy, List.map_singleton]
          have hcurNext : s.cur.bind s.links.next = (z :: back).head? := by
            rw [hcur', Option.bind_some, hnext]
          obtain ⟨s', nodes', before', behind', hsplit, hloop, hrest⟩ :=
            ih hrep.next hfront' (List.cons_ne_nil z back) hcurNext hbefore' (Nat.le_of_succ_le_succ hfuel)
          refine ⟨s', nodes', before', behind', ?_, hloop, hrest⟩
          rw [← hsplit, List.append_assoc, List.singleton_append]

/-- **An object goes behind those of at least its priority.** -/
theorem insertNode_spec (h : s.Rep nodes items) (node : ThdObject A) :
    ∃ s' nodes' before behind, items = before ++ behind ∧ insertNode s node = some s' ∧
      s'.Rep nodes' (before ++ node :: behind) ∧ (∀ x ∈ before, ¬x.priority < node.priority) ∧
      ∀ x, behind.head? = some x → x.priority < node.priority := by
  unfold insertNode
  cases nodes with
  | nil =>
    obtain rfl : items = [] := List.map_eq_nil_iff.1 h.items.symm
    have hcount : s.count = 0 := h.count
    rw [if_pos hcount]
    exact ⟨_, _, [], [], rfl, rfl, h.addHead node, fun x hx => absurd hx List.not_mem_nil,
      fun x hx => absurd hx.symm (Option.some_ne_none x)⟩
  | cons q nodes =>
    have hrep : (sflistFirst s).Rep ([] ++ q :: nodes) ([] ++ items) := h.first
    rw [if_neg (h.count ▸ Nat.succ_ne_zero _)]
    exact insertLoop_spec hrep rfl (List.cons_ne_nil q nodes) h.head (fun x hx => absurd hx List.not_mem_nil)
      h.count.ge

/-- Objects that suppress, and at most one other behind them. -/
structure Ordered (suppressed rest : List (ThdObject A)) : Prop where
  suppress : ∀ x ∈ suppressed, x.type = .suppress ∧ x.priority = thdPrioritySuppress
  other : ∀ x ∈ rest, x.type ≠ .suppress ∧ x.priority < thdPrioritySuppress
  length_le : rest.length ≤ 1

/-- A second object that does not suppress is refused. -/
theorem rest_nil_of_tailTest (h : s.Rep nodes (suppressed ++ rest)) (hordered : Ordered suppressed rest)
    (htest : tailTest s config = 0) (htype : config.type ≠ .suppress) : rest = [] := by
  rcases List.eq_nil_or_concat rest with hnil | ⟨others, x, rfl⟩
  · exact hnil
  · exfalso
    rw [List.concat_eq_append] at hordered h
    have hx := hordered.other x (List.mem_append_right _ (List.mem_singleton_self x))
    rw [← List.append_assoc] at h
    obtain ⟨front, back, rfl, -, hback⟩ := h.split
    obtain ⟨tail, rfl⟩ := List.length_eq_one_iff.1 (show back.length = 1 by
      have hlength := congrArg List.length hback
      rwa [List.length_map, List.length_map] at hlength)
    have htail : s.tail = some tail := h.tail.trans List.getLast?_concat
    have hdata : s.ndata tail = some x := (List.cons.inj hback).1
    have hcount : 0 < s.count := by
      rw [h.count, List.length_append]
      exact Nat.succ_pos _
    unfold tailTest at htest
    rw [if_pos hcount, htail] at htest
    dsimp only at htest
    rw [hdata] at htest
    dsimp only at htest
    rw [if_pos ⟨hx.1, htype⟩] at htest
    exact absurd htest (by decide)

theorem objectPriority_suppress (h : config.type = .suppress) : objectPriority config = thdPrioritySuppress :=
  if_pos h

theorem objectPriority_lt (h : config.type ≠ .suppress) : objectPriority config < thdPrioritySuppress := by
  unfold objectPriority
  rw [if_neg h]
  split_ifs with hclamp
  · exact sub_one_lt _
  · exact not_le.1 hclamp

variable (node) in
/-- **The order is kept**: an object that suppresses goes behind the others that do, any other one to the end. -/
theorem Ordered.insert (hordered : Ordered suppressed rest) (hsplit : suppressed ++ rest = before ++ behind)
    (hpriority : node.priority = objectPriority config) (htype : node.type = config.type)
    (hrest : config.type ≠ .suppress → rest = []) (hbefore : ∀ x ∈ before, ¬x.priority < node.priority)
    (hbehind : ∀ x, behind.head? = some x → x.priority < node.priority) :
    ∃ suppressed' rest', before ++ node :: behind = suppressed' ++ rest' ∧ Ordered suppressed' rest' := by
  by_cases hsuppress : config.type = .suppress
  · rw [objectPriority_suppress hsuppress] at hpriority
    have hnode : node.type = .suppress ∧ node.priority = thdPrioritySuppress := ⟨htype.trans hsuppress, hpriority⟩
    have hparts : before = suppressed ∧ behind = rest := by
      rcases List.append_eq_append_iff.1 hsplit with ⟨between, hb, hr⟩ | ⟨between, hs, hb⟩
      · cases between with
        | nil => exact ⟨hb.trans (List.append_nil _), hr.symm⟩
        | cons x between =>
          have hx := (hordered.other x (hr ▸ List.mem_cons_self)).2
          exact absurd (hpriority ▸ hx) (hbefore x (hb ▸ List.mem_append_right _ List.mem_cons_self))
      · cases between with
        | nil => exact ⟨(hs.trans (List.append_nil _)).symm, hb⟩
        | cons x between =>
          have hx := (hordered.suppress x (hs ▸ List.mem_append_right _ List.mem_cons_self)).2
          have hlt := hbehind x (by rw [hb]; rfl)
          rw [hx, hpriority] at hlt
          exact absurd hlt (lt_irrefl _)
    obtain ⟨rfl, rfl⟩ := hparts
    refine ⟨before ++ [node], behind, (by rw [List.append_assoc, List.singleton_append]), fun x hx => ?_,
      hordered.other, hordered.length_le⟩
    rcases List.mem_append.1 hx with hx | hx
    · exact hordered.suppress x hx
    · rw [List.mem_singleton.1 hx]
      exact hnode
  · have hlt := objectPriority_lt hsuppress
    obtain rfl := hrest hsuppress
    rw [List.append_nil] at hsplit
    have hnil : behind = [] := by
      cases behind with
      | nil => rfl
      | cons x behind =>
        have hx := (hordered.suppress x (hsplit ▸ List.mem_append_right _ List.mem_cons_self)).2
        have hxlt := hbehind x rfl
        rw [hx, hpriority] at hxlt
        exact absurd hlt (not_lt_of_gt hxlt)
    subst hnil
    rw [List.append_nil] at hsplit
    subst hsplit
    refine ⟨suppressed, [node], rfl, hordered.suppress, fun x hx => ?_, le_rfl⟩
    rw [List.mem_singleton.1 hx]
    exact ⟨htype ▸ hsuppress, hpriority ▸ hlt⟩

end Insert

/-! ### An event for a list -/

section Test

variable {A : Type} [DecidableEq A] {e : Event A} {s : SfList (ThdObject A)} {ipNodes : ThdHash A}
  {front back : List ℕ} {before behind : List (ThdObject A)} {fuel : ℕ}

/-- An event only counts up the events that are filtered. -/
theorem sfthdTestLocal_object (ipNodes : ThdHash A) (node : ThdNode A) (e : Event A) :
    ∃ f, (sfthdTestLocal ipNodes node e).2.1 = { node with filtered := f } := by
  unfold sfthdTestLocal
  split_ifs
  · exact ⟨node.filtered, rfl⟩
  · unfold sfthdTestSuppress
    dsimp only
    split_ifs
    · exact ⟨_, rfl⟩
    · exact ⟨node.filtered, rfl⟩
  · dsimp only
    split
    · exact testNonSuppress_object _ _
    · exact testNonSuppress_object _ _
    · exact ⟨node.filtered, rfl⟩
    · exact ⟨node.filtered, rfl⟩

/-- What decides the order. -/
def ThdObject.kind {A : Type} (x : ThdObject A) : ThdType × ℤ := (x.type, x.priority)

theorem kind_setNode (ipNodes : ThdHash A) (x : ThdObject A) (e : Event A) :
    (x.setNode (sfthdTestLocal ipNodes x.toThdNode e).2.1).kind = x.kind := by
  obtain ⟨f, hf⟩ := sfthdTestLocal_object ipNodes x.toThdNode e
  rw [hf]
  rfl

/-- The test of one object. -/
theorem testLoop_cons {lnode : ℕ} {x : ThdObject A} (hcur : s.cur = some lnode) (hx : s.ndata lnode = some x) :
    testLoop e (fuel + 1) s ipNodes =
      let r := sfthdTestLocal ipNodes x.toThdNode e
      let s := s.setData lnode (x.setNode r.2.1)
      if r.1 < 0 then some (some (blocked r.1), s, r.2.2)
      else if r.1 = 0 then some (some 0, s, r.2.2)
      else testLoop e fuel (sflistNext s) r.2.2 := by
  rw [testLoop, hcur]
  dsimp only
  rw [hx, Option.bind_eq_bind, Option.bind_some]

omit [DecidableEq A] in
/-- The list behind an object that was tested. -/
theorem SfList.Rep.step {lnode : ℕ} {y : ThdObject A}
    (h : s.Rep (front ++ lnode :: back) (before ++ y :: behind)) (y' : ThdObject A) (hfront : front.map s.ndata = before.map some)
    (hcur : s.cur = some lnode) :
    (sflistNext (s.setData lnode y')).Rep ((front ++ [lnode]) ++ back) ((before ++ [y']) ++ behind) ∧
      (front ++ [lnode]).map (sflistNext (s.setData lnode y')).ndata = (before ++ [y']).map some ∧
      (sflistNext (s.setData lnode y')).cur = back.head? := by
  obtain ⟨hwrite, hfront'⟩ := h.write hfront y'
  refine ⟨?_, ?_, ?_⟩
  · rw [List.append_assoc, List.append_assoc]
    exact hwrite.next
  · show (front ++ [lnode]).map (s.setData lnode y').ndata = _
    rw [List.map_append, List.map_append, hfront', List.map_singleton, List.map_singleton]
    exact congrArg (fun v => before.map some ++ [v]) (Function.update_self _ _ _)
  · show s.cur.bind s.links.next = _
    rw [hcur, Option.bind_some, h.holds.cell.1]

/-- The loop goes on from a node of the list, and leaves the order as it is. -/
theorem testLoop_spec (h : s.Rep (front ++ back) (before ++ behind)) (hfront : front.map s.ndata = before.map some)
    (hcur : s.cur = back.head?) (hfuel : back.length ≤ fuel) :
    ∃ r s' ipNodes' items, testLoop e fuel s ipNodes = some (r, s', ipNodes') ∧ s'.Rep (front ++ back) items ∧
      items.map ThdObject.kind = (before ++ behind).map ThdObject.kind := by
  induction back generalizing front before behind fuel s ipNodes with
  | nil =>
    refine ⟨none, s, ipNodes, before ++ behind, ?_, h, rfl⟩
    unfold testLoop
    rw [hcur]
    rfl
  | cons lnode back ih =>
    obtain ⟨fuel, rfl⟩ := Nat.exists_eq_add_of_le' (show 1 ≤ fuel from (Nat.succ_pos _).trans_le hfuel)
    have hback := h.drop hfront
    cases behind with
    | nil => exact absurd hback (List.cons_ne_nil _ _)
    | cons y behind =>
      have hwrite := (h.write hfront (y.setNode (sfthdTestLocal ipNodes y.toThdNode e).2.1)).1
      have hkind : (before ++ y.setNode (sfthdTestLocal ipNodes y.toThdNode e).2.1 :: behind).map ThdObject.kind =
          (before ++ y :: behind).map ThdObject.kind := by
        rw [List.map_append, List.map_append, List.map_cons, List.map_cons, kind_setNode]
      rw [testLoop_cons hcur (List.cons.inj hback).1]
      dsimp only
      split_ifs
      · exact ⟨_, _, _, _, rfl, hwrite, hkind⟩
      · exact ⟨_, _, _, _, rfl, hwrite, hkind⟩
      · obtain ⟨hrep, hfront', hnext⟩ := h.step _ hfront hcur
        obtain ⟨r, s', ipNodes', items, hloop, hrep', hkind'⟩ :=
          ih hrep hfront' hnext (Nat.le_of_succ_le_succ hfuel)
        refine ⟨r, s', ipNodes', items, hloop, ?_, hkind'.trans ?_⟩
        · rw [List.append_assoc] at hrep'
          exact hrep'
        · rw [List.append_assoc]
          exact hkind

/-- The address of an event is covered. -/
def ThdNode.Covers (node : ThdNode A) (e : Event A) : Prop :=
  (node.ipAddress.all fun contains => contains (node.ip e)) = true

theorem sfthdTestLocal_covered {node : ThdNode A} (htype : node.type = .suppress)
    (hcount : node.count ≠ thdNoThreshold) (hcovers : node.Covers e) :
    sfthdTestLocal ipNodes node e = (-1, node.filter, ipNodes) := by
  unfold ThdNode.Covers at hcovers
  unfold sfthdTestLocal sfthdTestSuppress
  rw [if_neg hcount, if_pos htype, if_pos hcovers]

theorem sfthdTestLocal_uncovered {node : ThdNode A} (htype : node.type = .suppress)
    (hcount : node.count ≠ thdNoThreshold) (hcovers : ¬node.Covers e) :
    sfthdTestLocal ipNodes node e = (1, node, ipNodes) := by
  unfold ThdNode.Covers at hcovers
  unfold sfthdTestLocal sfthdTestSuppress
  rw [if_neg hcount, if_pos htype, if_neg hcovers]

/-- **An event of a suppressed address** is blocked at the first object that covers it. -/
theorem testLoop_suppressed {mid : List (ThdObject A)} {x : ThdObject A}
    (h : s.Rep (front ++ back) (before ++ (mid ++ x :: behind))) (hfront : front.map s.ndata = before.map some)
    (hcur : s.cur = back.head?) (hfuel : back.length ≤ fuel)
    (hmid : ∀ y ∈ mid, y.type = .suppress ∧ y.count ≠ thdNoThreshold)
    (hx : x.type = .suppress ∧ x.count ≠ thdNoThreshold) (hcovers : x.toThdNode.Covers e) (ipNodes : ThdHash A) :
    ∃ s' ipNodes', testLoop e fuel s ipNodes = some (some (-1), s', ipNodes') := by
  induction mid generalizing front before back fuel s with
  | nil =>
    have hback := h.drop hfront
    cases back with
    | nil => exact absurd hback.symm (List.cons_ne_nil _ _)
    | cons lnode back =>
      obtain ⟨fuel, rfl⟩ := Nat.exists_eq_add_of_le' (show 1 ≤ fuel from (Nat.succ_pos _).trans_le hfuel)
      rw [testLoop_cons hcur (List.cons.inj hback).1, sfthdTestLocal_covered hx.1 hx.2 hcovers]
      exact ⟨_, _, rfl⟩
  | cons y mid ih =>
    have hback := h.drop hfront
    cases back with
    | nil => exact absurd hback.symm (List.cons_ne_nil _ _)
    | cons lnode back =>
      obtain ⟨fuel, rfl⟩ := Nat.exists_eq_add_of_le' (show 1 ≤ fuel from (Nat.succ_pos _).trans_le hfuel)
      obtain ⟨htype, hcount⟩ := hmid y List.mem_cons_self
      rw [testLoop_cons hcur (List.cons.inj hback).1]
      by_cases hy : y.toThdNode.Covers e
      · rw [sfthdTestLocal_covered htype hcount hy]
        exact ⟨_, _, rfl⟩
      · rw [sfthdTestLocal_uncovered htype hcount hy]
        obtain ⟨hrep, hfront', hnext⟩ := h.step (y.setNode y.toThdNode) hfront hcur
        exact ih hrep hfront' hnext (Nat.le_of_succ_le_succ hfuel) fun z hz => hmid z (List.mem_cons_of_mem y hz)

end Test

/-! ### All lists -/

section Reach

variable {A : Type}

/-- A list is ordered. -/
def Arranged (s : SfList (ThdObject A)) : Prop :=
  ∃ nodes suppressed rest, s.Rep nodes (suppressed ++ rest) ∧ Ordered suppressed rest

/-- The lists of all signatures are ordered. -/
structure Invariant (thdObjs : ThresholdObjects A) : Prop where
  genId_lt : ∀ {genId sfthdHash}, thdObjs.sfthdArray genId = some sfthdHash → genId < thdMaxGenid
  arranged : ∀ {genId sfthdHash key sfthdItem}, thdObjs.sfthdArray genId = some sfthdHash →
    sfthdHash key = some sfthdItem → Arranged sfthdItem.sfthdNodeList

variable {thdObjs thdObjs' : ThresholdObjects A} {genId policyId : ℕ} {config : ThdObject A} {key : ThdItemKey}
  {sfthdHash : ThdItemKey → Option (ThdItem A)} {sfthdItem : ThdItem A}

theorem arranged_new : Arranged (sflistNew : SfList (ThdObject A)) :=
  ⟨[], [], [], rep_new, fun _ hx => absurd hx List.not_mem_nil, fun _ hx => absurd hx List.not_mem_nil, Nat.zero_le _⟩

theorem invariant_new : Invariant (sfthdObjsNew : ThresholdObjects A) :=
  ⟨fun h => absurd h.symm (Option.some_ne_none _), fun h => absurd h.symm (Option.some_ne_none _)⟩

/-- The lists decide. -/
theorem Invariant.congr (h : Invariant thdObjs) (harray : thdObjs'.sfthdArray = thdObjs.sfthdArray) :
    Invariant thdObjs' :=
  ⟨fun hgen => h.genId_lt (harray ▸ hgen), fun hgen => h.arranged (harray ▸ hgen)⟩

/-- A list is stored. -/
theorem Invariant.store (h : Invariant thdObjs) (hgen : genId < thdMaxGenid)
    (hold : ∀ {key sfthdItem}, sfthdHash key = some sfthdItem → Arranged sfthdItem.sfthdNodeList)
    (hitem : Arranged sfthdItem.sfthdNodeList)
    (harray : thdObjs'.sfthdArray = Function.update thdObjs.sfthdArray genId
      (some (Function.update sfthdHash key (some sfthdItem)))) : Invariant thdObjs' := by
  refine ⟨fun {genId' hash'} hfound => ?_, fun {genId' hash' key' item'} hfound hkey => ?_⟩
  · by_cases heq : genId' = genId
    · exact heq ▸ hgen
    · rw [harray, Function.update_of_ne heq] at hfound
      exact h.genId_lt hfound
  · by_cases heq : genId' = genId
    · rw [harray, heq, Function.update_self] at hfound
      obtain rfl := Option.some.inj hfound
      by_cases hkeys : key' = key
      · rw [hkeys, Function.update_self] at hkey
        obtain rfl := Option.some.inj hkey
        exact hitem
      · rw [Function.update_of_ne hkeys] at hkey
        exact hold hkey
    · rw [harray, Function.update_of_ne heq] at hfound
      exact h.arranged hfound hkey

/-- An object goes into a list. -/
theorem Arranged.insert {s : SfList (ThdObject A)} (h : Arranged s) (htest : tailTest s config = 0) :
    ∃ s', insertNode s { config with priority := objectPriority config } = some s' ∧ Arranged s' := by
  obtain ⟨nodes, suppressed, rest, hrep, hordered⟩ := h
  obtain ⟨s', nodes', before, behind, hsplit, hinsert, hrep', hbefore, hbehind⟩ :=
    insertNode_spec hrep { config with priority := objectPriority config }
  obtain ⟨suppressed', rest', heq, hordered'⟩ := hordered.insert { config with priority := objectPriority config } hsplit rfl rfl
    (rest_nil_of_tailTest hrep hordered htest) hbefore hbehind
  exact ⟨s', hinsert, nodes', suppressed', rest', heq ▸ hrep', hordered'⟩

/-- **A local object is made**, or refused. -/
theorem createLocal_spec (h : Invariant thdObjs) (policyId : ℕ) (config : ThdObject A) :
    ∃ r thdObjs', sfthdCreateThresholdLocal thdObjs policyId config = some (r, thdObjs') ∧ Invariant thdObjs' := by
  unfold sfthdCreateThresholdLocal
  split_ifs with hgen
  · exact ⟨_, _, rfl, h⟩
  · have hgen' := not_le.1 hgen
    have hold : ∀ {key sfthdItem}, ((thdObjs.sfthdArray config.genId).getD fun _ => none) key = some sfthdItem →
        Arranged sfthdItem.sfthdNodeList := by
      intro key sfthdItem hkey
      cases hhash : thdObjs.sfthdArray config.genId with
      | none =>
        rw [hhash] at hkey
        exact absurd hkey.symm (Option.some_ne_none _)
      | some sfthdHash =>
        rw [hhash] at hkey
        exact h.arranged hhash hkey
    have hitem : Arranged ((((thdObjs.sfthdArray config.genId).getD fun _ => none)
        ⟨policyId, config.sigId⟩).getD ⟨policyId, config.genId, config.sigId, sflistNew⟩).sfthdNodeList := by
      cases hfound : ((thdObjs.sfthdArray config.genId).getD fun _ => none) ⟨policyId, config.sigId⟩ with
      | none => exact arranged_new
      | some sfthdItem => exact hold hfound
    dsimp only
    split_ifs with htest
    · exact ⟨_, _, rfl, h.store hgen' hold hitem rfl⟩
    · obtain ⟨s', hinsert, harranged⟩ := hitem.insert (not_not.1 htest)
      rw [hinsert, Option.bind_eq_bind, Option.bind_some]
      exact ⟨_, _, rfl, h.store hgen' hold harranged rfl⟩

/-- A global object leaves the lists as they are. -/
theorem createGlobal_array {r : ℤ}
    (h : sfthdCreateThresholdGlobal thdObjs policyId config = some (r, thdObjs')) :
    thdObjs'.sfthdArray = thdObjs.sfthdArray := by
  unfold sfthdCreateThresholdGlobal at h
  dsimp only at h
  split_ifs at h
  all_goals
    obtain ⟨-, rfl⟩ := Prod.mk.inj (Option.some.inj h)
    rfl

/-- An object is local or global, by its signature. -/
theorem createThreshold_eq (thdObjs : ThresholdObjects A) (c : ThdConfig A) :
    ∃ thdObjs₁ config, thdObjs₁.sfthdArray = thdObjs.sfthdArray ∧
      sfthdCreateThreshold thdObjs c =
        if c.sigId = 0 then sfthdCreateThresholdGlobal thdObjs₁ c.policyId config
        else if c.genId = 0 then some (-1, thdObjs₁)
        else sfthdCreateThresholdLocal thdObjs₁ c.policyId config := by
  refine ⟨_, _, ?_, rfl⟩
  rfl

/-- A call that makes a local object returns. -/
theorem createThreshold_returns (h : Invariant thdObjs) {c : ThdConfig A} (hsig : c.sigId ≠ 0) :
    ∃ r thdObjs', sfthdCreateThreshold thdObjs c = some (r, thdObjs') := by
  obtain ⟨thdObjs₁, config, harray, heq⟩ := createThreshold_eq thdObjs c
  rw [heq, if_neg hsig]
  split_ifs
  · exact ⟨_, _, rfl⟩
  · obtain ⟨r, thdObjs', hcreate, -⟩ := createLocal_spec (h.congr harray) c.policyId config
    exact ⟨r, thdObjs', hcreate⟩

/-- **Any call that makes an object** keeps the lists ordered. -/
theorem Invariant.create (h : Invariant thdObjs) {c : ThdConfig A} {r : ℤ}
    (hcreate : sfthdCreateThreshold thdObjs c = some (r, thdObjs')) : Invariant thdObjs' := by
  obtain ⟨thdObjs₁, config, harray, heq⟩ := createThreshold_eq thdObjs c
  rw [heq] at hcreate
  split_ifs at hcreate
  · exact h.congr ((createGlobal_array hcreate).trans harray)
  · obtain ⟨-, rfl⟩ := Prod.mk.inj (Option.some.inj hcreate)
    exact h.congr harray
  · obtain ⟨r', thdObjs₂, hcreate', hinv⟩ := createLocal_spec (h.congr harray) c.policyId config
    obtain ⟨-, rfl⟩ := Prod.mk.inj (Option.some.inj (hcreate.symm.trans hcreate'))
    exact hinv

/-- The order depends on the types and the priorities. -/
theorem Ordered.of_kind {suppressed rest suppressed' rest' : List (ThdObject A)} (h : Ordered suppressed rest)
    (hsuppressed : suppressed'.map ThdObject.kind = suppressed.map ThdObject.kind)
    (hrest : rest'.map ThdObject.kind = rest.map ThdObject.kind) : Ordered suppressed' rest' := by
  have hsource : ∀ {l l' : List (ThdObject A)}, l'.map ThdObject.kind = l.map ThdObject.kind → ∀ x' ∈ l',
      ∃ x ∈ l, x.type = x'.type ∧ x.priority = x'.priority := by
    intro l l' heq x' hx'
    have hmem : x'.kind ∈ l.map ThdObject.kind := heq ▸ List.mem_map_of_mem hx'
    obtain ⟨x, hx, hkind⟩ := List.mem_map.1 hmem
    exact ⟨x, hx, Prod.mk.inj hkind⟩
  refine ⟨fun x' hx' => ?_, fun x' hx' => ?_, ?_⟩
  · obtain ⟨x, hx, htype, hpriority⟩ := hsource hsuppressed x' hx'
    exact htype ▸ hpriority ▸ h.suppress x hx
  · obtain ⟨x, hx, htype, hpriority⟩ := hsource hrest x' hx'
    exact htype ▸ hpriority ▸ h.other x hx
  · have hlength := congrArg List.length hrest
    rw [List.length_map, List.length_map] at hlength
    exact hlength ▸ h.length_le

variable [DecidableEq A] {thd thd' : ThdStruct A} {e : Event A}

/-- An event leaves a list ordered. -/
theorem Arranged.test {s : SfList (ThdObject A)} (h : Arranged s) (e : Event A) (ipNodes : ThdHash A) :
    ∃ r s' ipNodes', testLoop e s.count (sflistFirst s) ipNodes = some (r, s', ipNodes') ∧ Arranged s' := by
  obtain ⟨nodes, suppressed, rest, hrep, hordered⟩ := h
  have hfirst : (sflistFirst s).Rep ([] ++ nodes) ([] ++ (suppressed ++ rest)) := hrep.first
  obtain ⟨r, s', ipNodes', items, hloop, hrep', hkind⟩ := testLoop_spec hfirst rfl hrep.head hrep.count.ge
  rw [List.nil_append, List.map_append] at hkind
  obtain ⟨suppressed', rest', rfl, hsuppressed, hrest⟩ := List.map_eq_append_iff.1 hkind
  exact ⟨r, s', ipNodes', hloop, nodes, suppressed', rest', hrep', hordered.of_kind hsuppressed hrest⟩

theorem globalTest_array {genId sigId : ℕ} {r : ℤ}
    (h : globalTest thdObjs thd genId sigId e = some (r, thdObjs', thd')) :
    thdObjs'.sfthdArray = thdObjs.sfthdArray := by
  unfold globalTest at h
  split_ifs at h
  · obtain ⟨-, heq⟩ := Prod.mk.inj (Option.some.inj h)
    exact (Prod.mk.inj heq).1 ▸ rfl
  · split at h
    · obtain ⟨-, heq⟩ := Prod.mk.inj (Option.some.inj h)
      exact (Prod.mk.inj heq).1 ▸ rfl
    · obtain ⟨gThdNode, -, h⟩ := Option.bind_eq_some_iff.1 h
      obtain ⟨-, heq⟩ := Prod.mk.inj (Option.some.inj h)
      exact (Prod.mk.inj heq).1 ▸ rfl

/-- **Any event** keeps the lists ordered. -/
theorem Invariant.test (h : Invariant thdObjs) {sigId : ℕ} {r : ℤ}
    (htest : sfthdTestThreshold thdObjs thd genId sigId e = some (r, thdObjs', thd')) : Invariant thdObjs' := by
  unfold sfthdTestThreshold at htest
  split_ifs at htest with hgen
  · obtain ⟨-, heq⟩ := Prod.mk.inj (Option.some.inj htest)
    exact (Prod.mk.inj heq).1 ▸ h
  · split at htest
    · exact h.congr (globalTest_array htest)
    · rename_i sfthdHash hhash
      split at htest
      · exact h.congr (globalTest_array htest)
      · rename_i sfthdItem hitem
        obtain ⟨status, list, ipNodes', hloop, harranged⟩ := (h.arranged hhash hitem).test e thd.ipNodes
        dsimp only at htest
        rw [hloop, Option.bind_eq_bind, Option.bind_some] at htest
        cases status with
        | some status =>
          obtain ⟨-, heq⟩ := Prod.mk.inj (Option.some.inj htest)
          exact h.store (h.genId_lt hhash) (h.arranged hhash) harranged
            (congrArg ThresholdObjects.sfthdArray (Prod.mk.inj heq).1).symm
        | none =>
          exact h.store (h.genId_lt hhash) (h.arranged hhash) harranged (globalTest_array htest)

/-- What calls for objects and events come to. -/
inductive Reachable : ThresholdObjects A → Prop
  | new : Reachable sfthdObjsNew
  | create {objs objs' : ThresholdObjects A} {c : ThdConfig A} {r : ℤ} : Reachable objs →
      sfthdCreateThreshold objs c = some (r, objs') → Reachable objs'
  | test {objs objs' : ThresholdObjects A} {thd thd' : ThdStruct A} {genId sigId : ℕ} {e : Event A} {r : ℤ} :
      Reachable objs → sfthdTestThreshold objs thd genId sigId e = some (r, objs', thd') → Reachable objs'

theorem Reachable.invariant (h : Reachable thdObjs) : Invariant thdObjs := by
  induction h with
  | new => exact invariant_new
  | create _ hcreate ih => exact ih.create hcreate
  | test _ htest ih => exact ih.test htest

/-- An event of a suppressed address. -/
theorem test_suppressed (hinv : Invariant thdObjs) (hhash : thdObjs.sfthdArray genId = some sfthdHash)
    (hitem : sfthdHash key = some sfthdItem) {nodes : List ℕ} {front behind rest : List (ThdObject A)}
    {x : ThdObject A} (hrep : sfthdItem.sfthdNodeList.Rep nodes (front ++ x :: behind ++ rest))
    (hfront : ∀ y ∈ front, y.type = .suppress ∧ y.count ≠ thdNoThreshold)
    (hx : x.type = .suppress ∧ x.count ≠ thdNoThreshold) (hpolicy : e.policyId = key.policyId)
    (hcovers : x.toThdNode.Covers e) (thd : ThdStruct A) :
    ∃ thdObjs' thd', sfthdTestThreshold thdObjs thd genId key.sigId e = some (-1, thdObjs', thd') := by
  have hfirst : (sflistFirst sfthdItem.sfthdNodeList).Rep ([] ++ nodes) ([] ++ (front ++ x :: (behind ++ rest))) := by
    rw [List.append_assoc] at hrep
    exact hrep.first
  obtain ⟨s', ipNodes', hloop⟩ := testLoop_suppressed hfirst rfl hrep.head hrep.count.ge hfront hx hcovers thd.ipNodes
  have hkey : sfthdHash ⟨e.policyId, key.sigId⟩ = some sfthdItem := by
    rw [hpolicy]
    exact hitem
  unfold sfthdTestThreshold
  rw [if_neg (not_le.2 (hinv.genId_lt hhash)), hhash]
  dsimp only
  rw [hkey]
  dsimp only
  rw [hloop, Option.bind_eq_bind, Option.bind_some]
  exact ⟨_, _, rfl⟩

omit [DecidableEq A] in
/-- In front of an object that suppresses all objects do. -/
theorem Ordered.front {suppressed rest front behind : List (ThdObject A)} {x : ThdObject A}
    (h : Ordered suppressed rest) (heq : front ++ x :: behind = suppressed ++ rest) (hx : x.type = .suppress) :
    ∃ others, suppressed = front ++ x :: others := by
  rcases List.append_eq_append_iff.1 heq with ⟨between, hs, hb⟩ | ⟨between, hf, hr⟩
  · cases between with
    | nil =>
      have hmem : x ∈ rest := (List.nil_append rest) ▸ hb ▸ List.mem_cons_self
      exact absurd hx (h.other x hmem).1
    | cons y between =>
      obtain ⟨rfl, -⟩ := List.cons.inj hb
      exact ⟨between, hs⟩
  · exact absurd hx (h.other x (hr ▸ List.mem_append_right _ List.mem_cons_self)).1

/-- **Suppression comes first**: after any calls, in the list of every signature the objects that suppress are in
front of at most one other; an event that one of them covers is suppressed, whatever the counters hold, if it and
those in front of it are not switched off; and local objects can always be made. -/
theorem suppress_first (h : Reachable thdObjs) :
    (∀ genId sfthdHash key sfthdItem, thdObjs.sfthdArray genId = some sfthdHash → sfthdHash key = some sfthdItem →
      (∃ nodes suppressed rest, sfthdItem.sfthdNodeList.Rep nodes (suppressed ++ rest) ∧
        (∀ x ∈ suppressed, x.type = .suppress) ∧ (∀ x ∈ rest, x.type ≠ .suppress) ∧ rest.length ≤ 1) ∧
      ∀ nodes front x behind, sfthdItem.sfthdNodeList.Rep nodes (front ++ x :: behind) → x.type = .suppress →
        x.count ≠ thdNoThreshold → (∀ y ∈ front, y.count ≠ thdNoThreshold) →
        ∀ (thd : ThdStruct A) (e : Event A), e.policyId = key.policyId → x.toThdNode.Covers e →
          ∃ thdObjs' thd', sfthdTestThreshold thdObjs thd genId key.sigId e = some (-1, thdObjs', thd')) ∧
    ∀ c : ThdConfig A, c.sigId ≠ 0 → ∃ r thdObjs', sfthdCreateThreshold thdObjs c = some (r, thdObjs') := by
  have hinv := h.invariant
  refine ⟨fun genId sfthdHash key sfthdItem hhash hitem => ?_, fun c hsig => createThreshold_returns hinv hsig⟩
  obtain ⟨nodes, suppressed, rest, hrep, hordered⟩ := hinv.arranged hhash hitem
  refine ⟨⟨nodes, suppressed, rest, hrep, fun x hx => (hordered.suppress x hx).1,
    fun x hx => (hordered.other x hx).1, hordered.length_le⟩, ?_⟩
  intro nodes' front x behind hrep' hx hcount hfront thd e hpolicy hcovers
  obtain ⟨others, rfl⟩ := hordered.front (hrep'.unique hrep) hx
  have htypes : ∀ y ∈ front, y.type = .suppress ∧ y.count ≠ thdNoThreshold := fun y hy =>
    ⟨(hordered.suppress y (List.mem_append_left _ hy)).1, hfront y hy⟩
  exact test_suppressed hinv hhash hitem hrep htypes ⟨hx, hcount⟩ hpolicy hcovers thd

end Reach

/-! ### Runs -/

/-- A limit by source address. -/
def limitBySource : ThdConfig ℕ := ⟨0, 1, 1, .src, .limit, 2000000, 1, 60, none⟩

/-- All events of the source 7 are suppressed. -/
def suppressSeven : ThdConfig ℕ := ⟨0, 1, 1, .src, .suppress, 0, 0, 0, some fun ip => decide (ip = 7)⟩

/-- The objects after a call. -/
def made (thdObjs : ThresholdObjects ℕ) (c : ThdConfig ℕ) : ThresholdObjects ℕ :=
  ((sfthdCreateThreshold thdObjs c).map Prod.snd).getD thdObjs

/-- The object of a configuration. -/
def objectOf (thdId : ℤ) (c : ThdConfig ℕ) (priority : ℤ) : ThdObject ℕ :=
  { thdId := thdId, genId := c.genId, sigId := c.sigId, tracking := c.tracking, type := c.type, priority := priority,
    count := c.count, seconds := u32 c.seconds, filtered := 0, ipAddress := c.ipAddress }

/-- A limit, and then a suppression: an event of the suppressed source is not logged. -/
theorem suppress_first_limit : Reachable (made (made sfthdObjsNew limitBySource) suppressSeven) ∧
    ∀ thd : ThdStruct ℕ, ∃ thdObjs' thd',
      sfthdTestThreshold (made (made sfthdObjsNew limitBySource) suppressSeven) thd 1 1 ⟨0, 7, 9, 100⟩ =
        some (-1, thdObjs', thd') := by
  have hlimit : sfthdCreateThreshold sfthdObjsNew limitBySource = some (0, made sfthdObjsNew limitBySource) := rfl
  have hsuppress : sfthdCreateThreshold (made sfthdObjsNew limitBySource) suppressSeven =
      some (0, made (made sfthdObjsNew limitBySource) suppressSeven) := rfl
  have hreach := (Reachable.new.create hlimit).create hsuppress
  refine ⟨hreach, fun thd => ?_⟩
  obtain ⟨hlists, -⟩ := suppress_first hreach
  obtain ⟨-, htest⟩ := hlists 1 _ ⟨0, 1⟩ _ rfl rfl
  refine htest [1, 0] [] (objectOf 2 suppressSeven 1000000) [objectOf 1 limitBySource 999999] ?_ rfl (by decide)
    (fun y hy => absurd hy List.not_mem_nil) thd _ rfl rfl
  exact ⟨⟨by decide, rfl, rfl, rfl, rfl, trivial⟩, rfl, rfl, rfl, by decide, rfl⟩

/-- An object that suppresses, with the count -1. -/
def suppressOff : ThdConfig ℕ := { suppressSeven with count := -1 }

/-- **An object with the count -1 does not suppress**: an event that it covers is logged. -/
theorem suppressOff_logged : Reachable (made sfthdObjsNew suppressOff) ∧
    ∃ sfthdHash sfthdItem x, (made sfthdObjsNew suppressOff).sfthdArray 1 = some sfthdHash ∧
      sfthdHash ⟨0, 1⟩ = some sfthdItem ∧ sfthdItem.sfthdNodeList.Rep [0] [x] ∧ x.type = .suppress ∧
      x.toThdNode.Covers ⟨0, 7, 9, 100⟩ ∧
      ∀ thd : ThdStruct ℕ, ∃ thdObjs' thd',
        sfthdTestThreshold (made sfthdObjsNew suppressOff) thd 1 1 ⟨0, 7, 9, 100⟩ = some (0, thdObjs', thd') := by
  have hcreate : sfthdCreateThreshold sfthdObjsNew suppressOff = some (0, made sfthdObjsNew suppressOff) := rfl
  refine ⟨Reachable.new.create hcreate, _, _, objectOf 1 suppressOff 1000000, rfl, rfl, ?_, rfl, rfl,
    fun thd => ⟨_, _, rfl⟩⟩
  exact ⟨⟨by decide, rfl, rfl, trivial⟩, rfl, rfl, rfl, by decide, rfl⟩

end Snort.Threshold
