import BehaviorTree.Proofs.Execution.InRange
import BehaviorTree.Proofs.Execution.Traces

/-!
# Who takes part in an evaluation

`visits` lists the nodes that are evaluated or cut short when a tree is evaluated, by their paths
and in the order in which their parts end, with the world in which each evaluation began. Reports
show just this list (`visited_evaluate`).

Evaluation is local. What happens to a subtree is one of three things, and the list shows which one
(`Fate`, `fate_at`): it is left as it is, it is reset, or it is evaluated as if it were a tree by
itself.
-/

namespace BehaviorTree

variable {T : Type}

section Visits

variable [Clock T]

mutual

/-- The nodes that take part when a tree is evaluated in a world. -/
def visits (time : TickTime T) : LiveTree T → World → Trace
  | .node ⟨n, state⟩ children, w =>
    (match n.behavior, children with
    | .root, child :: _ => (visits time child w).below 0
    | .composite kind, children => visitsFrom time kind state.cursor 0 children w
    | .decorator kind, child :: _ =>
      match enterDecorator time kind n state w with
      | .refuse => []
      | .cutShort _ => (cuts child).below 0
      | .proceed _ _ => (visits time child w).below 0
    | _, _ => []) ++
      [([], .evaluated w (evaluate time (.node ⟨n, state⟩ children) w).1.status)]

/-- The nodes that take part when the children of a composite are evaluated. -/
def visitsFrom (time : TickTime T) (kind : CompositeKind) (cursor place : Nat) :
    List (LiveTree T) → World → Trace
  | [], _ => []
  | child :: rest, w =>
    if place < cursor then visitsFrom time kind cursor (place + 1) rest w
    else
      let (after, next) := evaluate time child w
      (visits time child w).below place ++
        if after.status = .running ∨ after.status = kind.settlesOn then []
        else visitsFrom time kind cursor (place + 1) rest next

end

/-! ## What an evaluation does -/

/-- What evaluating the children of a composite from a place on does: the status of the composite,
where to resume, the children and the world afterwards, and who took part. -/
inductive Proceeds (time : TickTime T) (kind : CompositeKind) (cursor : Nat) :
    Nat → List (LiveTree T) → World → Status → Nat → List (LiveTree T) → World → Trace → Prop
  | ended {place : Nat} {w : World} :
    Proceeds time kind cursor place [] w kind.goesOnAfter 0 [] w []
  | skipped {place next : Nat} {child : LiveTree T} {rest rest' : List (LiveTree T)} {w w' : World}
    {status : Status} {trace : Trace} (before : place < cursor)
    (later : Proceeds time kind cursor (place + 1) rest w status next rest' w' trace) :
    Proceeds time kind cursor place (child :: rest) w status next (child :: rest') w' trace
  | running {place : Nat} {child : LiveTree T} {rest : List (LiveTree T)} {w : World}
    (reached : cursor ≤ place) (runs : (evaluate time child w).1.status = .running) :
    Proceeds time kind cursor place (child :: rest) w .running place
      ((evaluate time child w).1 :: rest) (evaluate time child w).2
      ((visits time child w).below place)
  | settled {place : Nat} {child : LiveTree T} {rest : List (LiveTree T)} {w : World}
    (reached : cursor ≤ place) (settles : (evaluate time child w).1.status = kind.settlesOn) :
    Proceeds time kind cursor place (child :: rest) w kind.settlesOn 0
      ((evaluate time child w).1 :: rest) (evaluate time child w).2
      ((visits time child w).below place)
  | passed {place next : Nat} {child : LiveTree T} {rest rest' : List (LiveTree T)} {w w' : World}
    {status : Status} {trace : Trace} (reached : cursor ≤ place)
    (ends : (evaluate time child w).1.status ≠ .running)
    (unsettled : (evaluate time child w).1.status ≠ kind.settlesOn)
    (later : Proceeds time kind cursor (place + 1) rest (evaluate time child w).2 status next
      rest' w' trace) :
    Proceeds time kind cursor place (child :: rest) w status next
      ((evaluate time child w).1 :: rest') w' ((visits time child w).below place ++ trace)

theorem proceeds (time : TickTime T) (kind : CompositeKind) (cursor place : Nat)
    (children : List (LiveTree T)) (w : World) :
    Proceeds time kind cursor place children w (evaluateFrom time kind cursor place children w).1
      (evaluateFrom time kind cursor place children w).2.1
      (evaluateFrom time kind cursor place children w).2.2.1
      (evaluateFrom time kind cursor place children w).2.2.2
      (visitsFrom time kind cursor place children w) := by
  induction children generalizing place w with
  | nil => exact .ended
  | cons child rest ih =>
    simp only [evaluateFrom, visitsFrom]
    by_cases before : place < cursor
    · simp only [if_pos before]
      exact .skipped before (ih _ _)
    simp only [if_neg before]
    have reached := Nat.not_lt.1 before
    by_cases running : (evaluate time child w).1.status = .running
    · simp only [running, true_or, if_true, List.append_nil]
      exact .running reached running
    by_cases settled : (evaluate time child w).1.status = kind.settlesOn
    · simp only [settled, kind.settlesOn_ne_running, or_true, if_true, if_false, List.append_nil]
      exact .settled reached settled
    simp only [running, settled, or_self, if_false]
    exact .passed reached running settled (ih _ _)

/-- What evaluating a node does: its state, its status, its children and the world afterwards, and
who took part besides the node itself. -/
inductive Acts (time : TickTime T) (n : CompiledNode) (w : World) (state : NodeState T) :
    List (LiveTree T) → NodeState T → Status → List (LiveTree T) → World → Trace → Prop
  | bareRoot (is : n.behavior = .root) : Acts time n w state [] state .idle [] w []
  | root {child : LiveTree T} {rest : List (LiveTree T)} (is : n.behavior = .root) :
    Acts time n w state (child :: rest) state (evaluate time child w).1.status
      ((evaluate time child w).1 :: rest) (evaluate time child w).2 ((visits time child w).below 0)
  | composite {kind : CompositeKind} {next : Nat} {status : Status}
    {children children' : List (LiveTree T)} {w' : World} {trace : Trace}
    (is : n.behavior = .composite kind)
    (proceeds : Proceeds time kind state.cursor 0 children w status next children' w' trace) :
    Acts time n w state children { state with cursor := next } status children' w' trace
  | bareDecorator {kind : DecoratorKind} (is : n.behavior = .decorator kind) :
    Acts time n w state [] state .failure [] w []
  | refused {kind : DecoratorKind} {child : LiveTree T} {rest : List (LiveTree T)}
    (is : n.behavior = .decorator kind)
    (entry : enterDecorator time kind n state w = .refuse) :
    Acts time n w state (child :: rest) state .failure (child :: rest) w []
  | cutShort {kind : DecoratorKind} {child : LiveTree T} {rest : List (LiveTree T)}
    {state' : NodeState T} (is : n.behavior = .decorator kind)
    (entry : enterDecorator time kind n state w = .cutShort state') :
    Acts time n w state (child :: rest) state' .failure (child.reset :: rest) (w.abort child).2
      ((cuts child).below 0)
  | proceeded {kind : DecoratorKind} {child : LiveTree T} {rest : List (LiveTree T)}
    {state' : NodeState T} {limit : Number} (is : n.behavior = .decorator kind)
    (entry : enterDecorator time kind n state w = .proceed state' limit) :
    Acts time n w state (child :: rest)
      (leaveDecorator time kind limit state' (evaluate time child w).1.status).2
      (leaveDecorator time kind limit state' (evaluate time child w).1.status).1
      ((evaluate time child w).1 :: rest) (evaluate time child w).2 ((visits time child w).below 0)
  | condition {children : List (LiveTree T)} (is : n.behavior = .condition) :
    Acts time n w state children state (evaluateCondition time.tick n w).1 children
      (evaluateCondition time.tick n w).2 []
  | handler {children : List (LiveTree T)} {h : Handler} (is : n.behavior = .handler h) :
    Acts time n w state children (evaluateLeaf time n h state w).1
      (evaluateLeaf time n h state w).1.status children (evaluateLeaf time n h state w).2 []

/-- An evaluation does one of these things, and lists the node last. -/
def ActsOn (time : TickTime T) (n : CompiledNode) (w : World) (state : NodeState T)
    (children : List (LiveTree T)) : Prop :=
  ∃ state' status children' w' trace,
    Acts time n w state children state' status children' w' trace ∧
      evaluate time (.node ⟨n, state⟩ children) w = finish n state' status children' w' ∧
      visits time (.node ⟨n, state⟩ children) w = trace ++ [([], .evaluated w status)]

section ActsOn

variable {time : TickTime T} {n : CompiledNode} {w w' : World} {state state' : NodeState T}
  {children children' : List (LiveTree T)} {status : Status} {trace : Trace}

theorem Acts.actsOn (did : Acts time n w state children state' status children' w' trace)
    (evaluated : evaluate time (.node ⟨n, state⟩ children) w = finish n state' status children' w')
    (traced : visits time (.node ⟨n, state⟩ children) w =
      trace ++ [([], .evaluated w (evaluate time (.node ⟨n, state⟩ children) w).1.status)]) :
    ActsOn time n w state children := by
  refine ⟨_, _, _, _, _, did, evaluated, ?_⟩
  rw [traced, evaluated]
  rfl

end ActsOn

/-- Every evaluation of a node does what its behavior says, and lists the node last. -/
theorem acts (time : TickTime T) (n : CompiledNode) (state : NodeState T)
    (children : List (LiveTree T)) (w : World) : ActsOn time n w state children := by
  have done {state' status children' w' trace}
      (did : Acts time n w state children state' status children' w' trace) := did.actsOn
  match is : n.behavior, children with
  | .root, [] =>
    refine done (.bareRoot is) ((evaluate.eq_def ..).trans ?_) ((visits.eq_def ..).trans ?_) <;>
      simp only [is]
  | .root, child :: rest =>
    refine done (.root is) ((evaluate.eq_def ..).trans ?_) ((visits.eq_def ..).trans ?_) <;>
      simp only [is]
  | .composite kind, children =>
    refine done (.composite is (proceeds ..)) ((evaluate.eq_def ..).trans ?_)
      ((visits.eq_def ..).trans ?_) <;> simp only [is]
  | .decorator kind, [] =>
    refine done (.bareDecorator is) ((evaluate.eq_def ..).trans ?_)
      ((visits.eq_def ..).trans ?_) <;> simp only [is]
  | .decorator kind, child :: rest =>
    cases entry : enterDecorator time kind n state w with
    | refuse =>
      refine done (.refused is entry) ((evaluate.eq_def ..).trans ?_)
        ((visits.eq_def ..).trans ?_) <;> simp only [is, entry]
    | cutShort state' =>
      refine done (.cutShort is entry) ((evaluate.eq_def ..).trans ?_)
        ((visits.eq_def ..).trans ?_) <;> simp only [is, entry]
      rfl
    | proceed state' limit =>
      refine done (.proceeded is entry) ((evaluate.eq_def ..).trans ?_)
        ((visits.eq_def ..).trans ?_) <;> simp only [is, entry]
  | .condition, children =>
    refine done (.condition is) ((evaluate.eq_def ..).trans ?_)
      ((visits.eq_def ..).trans ?_) <;> simp only [is]
  | .handler h, children =>
    refine done (.handler is) ((evaluate.eq_def ..).trans ?_)
      ((visits.eq_def ..).trans ?_) <;> simp only [is]

/-! ## What befalls a subtree -/

variable {time : TickTime T} {kind : CompositeKind} {cursor place next : Nat}
  {children children' : List (LiveTree T)} {t t' c : LiveTree T} {w w' : World} {status : Status}
  {trace : Trace}

theorem Proceeds.startsAt
    (did : Proceeds time kind cursor place children w status next children' w' trace) :
    trace.StartsAt place := by
  induction did with
  | ended => exact .nil
  | skipped before later ih => exact fun i before => ih i (Nat.lt_succ_of_lt before)
  | running reached runs => exact List.append_nil (Trace.below ..) ▸ Trace.StartsAt.nil.below_append
  | settled reached settles =>
    exact List.append_nil (Trace.below ..) ▸ Trace.StartsAt.nil.below_append
  | passed reached ends unsettled later ih => exact ih.below_append

/-- What an evaluation of a tree makes of one of its subtrees, and what it lists about it: the
subtree is left as it is, it is reset, or it is evaluated as if it were a tree by itself. -/
inductive Fate (time : TickTime T) (t : LiveTree T) : Trace → LiveTree T → Prop
  | left : Fate time t [] t
  | cutShort : Fate time t (cuts t) t.reset
  | evaluated (w : World) : Fate time t (visits time t w) (evaluate time t w).1

/-- Every one of some children, which stand from a place on, has its fate. -/
def Befalls (time : TickTime T) (place : Nat) (trace : Trace)
    (children children' : List (LiveTree T)) : Prop :=
  ∀ i c, children[i]? = some c →
    ∃ c', children'[i]? = some c' ∧ Fate time c (trace.child (place + i)) c'

namespace Befalls

theorem still : Befalls time place [] children children := fun _ c at_ => ⟨c, at_, .left⟩

theorem cons {c c' : LiveTree T} {mine others : Trace} (first : Fate time c mine c')
    (starts : others.StartsAt (place + 1))
    (later : Befalls time (place + 1) others children children') :
    Befalls time place (mine.below place ++ others) (c :: children) (c' :: children') := by
  intro i other at_
  cases i with
  | zero =>
    obtain rfl := Option.some.inj at_
    refine ⟨c', rfl, ?_⟩
    rw [Nat.add_zero, starts.child_first]
    exact first
  | succ i =>
    have there := later i other at_
    rw [Nat.succ_add_eq_add_succ] at there
    rw [Trace.child_later (by omega)]
    exact there

/-- One child has its fate and the others are left as they are. -/
theorem single {c c' : LiveTree T} {mine : Trace} (first : Fate time c mine c') :
    Befalls time place (mine.below place) (c :: children) (c' :: children) := by
  rw [← List.append_nil (mine.below place)]
  exact cons first .nil still

end Befalls

theorem Proceeds.befalls
    (did : Proceeds time kind cursor place children w status next children' w' trace) :
    Befalls time place trace children children' := by
  induction did with
  | ended => exact .still
  | skipped before later ih => exact .cons .left later.startsAt ih
  | running reached runs => exact .single (.evaluated _)
  | settled reached settles => exact .single (.evaluated _)
  | passed reached ends unsettled later ih => exact .cons (.evaluated _) later.startsAt ih

theorem Acts.befalls {n : CompiledNode} {state state' : NodeState T}
    (did : Acts time n w state children state' status children' w' trace) :
    Befalls time 0 trace children children' := by
  cases did with
  | composite is proceeds => exact proceeds.befalls
  | root is => exact .single (.evaluated _)
  | cutShort is entry => exact .single .cutShort
  | proceeded is entry => exact .single (.evaluated _)
  | _ => exact .still

/-- The fate of a tree is that of its children. -/
theorem Fate.child (fate : Fate time t trace t') {i : Nat} (at_ : t.children[i]? = some c) :
    ∃ c', t'.children[i]? = some c' ∧ Fate time c (trace.child i) c' := by
  cases fate with
  | left => exact ⟨c, at_, .left⟩
  | cutShort =>
    obtain ⟨n, children⟩ := t
    refine ⟨c.reset, ?_, ?_⟩
    · simp only [LiveTree.reset, Tree.children_map, Tree.maps_eq_map, List.getElem?_map, at_]
      rfl
    · rw [child_cuts at_]
      exact .cutShort
  | evaluated w =>
    obtain ⟨⟨n, state⟩, children⟩ := t
    obtain ⟨state', status, children', w', trace, did, evaluated, traced⟩ :=
      acts time n state children w
    obtain ⟨c', at', fate⟩ := did.befalls i c at_
    rw [evaluated, traced]
    refine ⟨c', at', ?_⟩
    rw [Trace.child_append, Trace.child_self, List.append_nil, ← Nat.zero_add i]
    exact fate

/-- So the fate of a tree is that of all its subtrees. -/
theorem Fate.at {path : List Nat} {s : LiveTree T} (fate : Fate time t trace t')
    (at_ : t.at? path = some s) :
    ∃ s', t'.at? path = some s' ∧ Fate time s (trace.inside path) s' := by
  induction path generalizing t t' trace with
  | nil =>
    obtain rfl := Option.some.inj at_
    exact ⟨t', rfl, fate⟩
  | cons i path ih =>
    obtain ⟨c, at_i, at_⟩ := Tree.at?_cons.1 at_
    obtain ⟨c', at_i', fate⟩ := fate.child at_i
    obtain ⟨s', at', fate⟩ := ih fate at_
    exact ⟨s', Tree.at?_cons.2 ⟨c', at_i', at'⟩, fate⟩

theorem fate_at (time : TickTime T) (w : World) {path : List Nat} {s : LiveTree T}
    (at_ : t.at? path = some s) :
    ∃ s', (evaluate time t w).1.at? path = some s' ∧
      Fate time s ((visits time t w).inside path) s' :=
  Fate.at (.evaluated w) at_

/-! ## What is listed -/

theorem Proceeds.own
    (did : Proceeds time kind cursor place children w status next children' w' trace) :
    trace.own = [] := by
  induction did with
  | ended => rfl
  | skipped before later ih => exact ih
  | running reached runs => exact Trace.own_below ..
  | settled reached settles => exact Trace.own_below ..
  | passed reached ends unsettled later ih => rw [Trace.own_append, Trace.own_below, ih]; rfl

theorem Acts.own {n : CompiledNode} {state state' : NodeState T}
    (did : Acts time n w state children state' status children' w' trace) : trace.own = [] := by
  cases did with
  | composite is proceeds => exact proceeds.own
  | root is => exact Trace.own_below ..
  | cutShort is entry => exact Trace.own_below ..
  | proceeded is entry => exact Trace.own_below ..
  | _ => rfl

/-- A tree that is evaluated is listed once, with the status that it takes. -/
@[simp]
theorem own_visits (time : TickTime T) (t : LiveTree T) (w : World) :
    (visits time t w).own = [.evaluated w (evaluate time t w).1.status] := by
  obtain ⟨⟨n, state⟩, children⟩ := t
  obtain ⟨state', status, children', w', trace, did, evaluated, traced⟩ :=
    acts time n state children w
  rw [evaluated, traced, Trace.own_append, did.own]
  rfl

/-- A child that is evaluated gives a result. -/
theorem results_visits (time : TickTime T) (t : LiveTree T) (w : World) (place : Nat) :
    ((visits time t w).below place).results = [(place, (evaluate time t w).1.status)] := by
  rw [Trace.results_below, own_visits]
  rfl

/-- The part of an evaluation that a trace tells of is what the world has listed. -/
def Lists (t : LiveTree T) (w w' : World) (trace : Trace) : Prop :=
  w'.visited = w.visited ++ trace.report t

theorem Proceeds.lists (works : ∀ c ∈ children, ∀ w,
      Lists c w (evaluate time c w).2 (visits time c w))
    (stand : t.children.drop place = children)
    (did : Proceeds time kind cursor place children w status next children' w' trace) :
    Lists t w w' trace := by
  induction did with
  | ended => exact (List.append_nil _).symm
  | skipped before later ih =>
    exact ih (List.forall_mem_cons.1 works).2 (drop_eq_cons stand).2
  | running reached runs =>
    rw [Lists, Trace.report_below (drop_eq_cons stand).1]
    exact works _ List.mem_cons_self _
  | settled reached settles =>
    rw [Lists, Trace.report_below (drop_eq_cons stand).1]
    exact works _ List.mem_cons_self _
  | passed reached ends unsettled later ih =>
    obtain ⟨here, behind⟩ := drop_eq_cons stand
    obtain ⟨first, others⟩ := List.forall_mem_cons.1 works
    rw [Lists, ih others behind, first, Trace.report_append, Trace.report_below here,
      List.append_assoc]

/-- What the world lists of an evaluation are the nodes that took part. -/
theorem visited_evaluate (time : TickTime T) (t : LiveTree T) (w : World) :
    Lists t w (evaluate time t w).2 (visits time t w) := by
  induction t using Tree.induction generalizing w with
  | step n children ih =>
    obtain ⟨n, state⟩ := n
    obtain ⟨state', status, children', w', trace, did, evaluated, traced⟩ :=
      acts time n state children w
    have below : Lists (.node ⟨n, state⟩ children) w w' trace := by
      cases did with
      | composite is proceeds => exact proceeds.lists ih rfl
      | root is =>
        rw [Lists, Trace.report_below rfl]
        exact ih _ List.mem_cons_self _
      | cutShort is entry =>
        rw [Lists, Trace.report_below rfl, report_cuts]
        rfl
      | proceeded is entry =>
        rw [Lists, Trace.report_below rfl]
        exact ih _ List.mem_cons_self _
      | condition is =>
        rw [Lists, visited_evaluateCondition]
        exact (List.append_nil _).symm
      | handler is =>
        rw [Lists, visited_evaluateLeaf]
        exact (List.append_nil _).symm
      | _ => exact (List.append_nil _).symm
    rw [Lists, evaluated, traced, Trace.report_append, ← List.append_assoc, ← below]
    rfl

/-! ## What is listed of a subtree -/

theorem Proceeds.blocks
    (did : Proceeds time kind cursor place children w status next children' w' trace) :
    trace.Blocks := by
  induction did with
  | ended => exact .nil
  | skipped before later ih => exact ih
  | running reached runs => exact .below _
  | settled reached settles => exact .below _
  | passed reached ends unsettled later ih => exact .below_append later.startsAt ih

theorem Acts.blocks {n : CompiledNode} {state state' : NodeState T}
    (did : Acts time n w state children state' status children' w' trace) : trace.Blocks := by
  cases did with
  | composite is proceeds => exact proceeds.blocks
  | root is => exact .below _
  | cutShort is entry => exact .below _
  | proceeded is entry => exact .below _
  | _ => exact .nil

theorem Fate.blocks (fate : Fate time t trace t') : trace.Blocks := by
  cases fate with
  | left => exact .nil
  | cutShort =>
    obtain ⟨n, children⟩ := t
    rw [cuts_node]
    exact (blocks_cutsFrom 0 children).self_append _
  | evaluated w =>
    obtain ⟨⟨n, state⟩, children⟩ := t
    obtain ⟨state', status, children', w', trace, did, evaluated, traced⟩ :=
      acts time n state children w
    rw [traced]
    exact did.blocks.append_self _

/-- What is reported of a subtree stands together in the report. -/
theorem Fate.report_infix {path : List Nat} {s : LiveTree T} (fate : Fate time t trace t')
    (at_ : t.at? path = some s) : (trace.inside path).report s <:+: trace.report t := by
  induction path generalizing t t' trace with
  | nil =>
    obtain rfl := Option.some.inj at_
    exact List.infix_refl _
  | cons i path ih =>
    obtain ⟨c, at_i, at_⟩ := Tree.at?_cons.1 at_
    obtain ⟨c', -, below⟩ := fate.child at_i
    have block := (fate.blocks i).filterMap fun e =>
      (t.at? e.1).map fun s => (s.label.node.id, e.2.status)
    refine (ih below at_).trans ?_
    rw [← Trace.report_below at_i]
    exact block

end Visits

end BehaviorTree
