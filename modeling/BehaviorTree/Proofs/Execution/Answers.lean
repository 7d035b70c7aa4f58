import BehaviorTree.Proofs.Execution.Passes
import BehaviorTree.Proofs.Graph.WellFormed

/-!
# Every node gives an answer

An evaluation ends in success, in failure or in running; idle is what a node is that was not
evaluated. Only a root without a child is evaluated and stays idle, and in a graph that passes
validation nothing is above a root. So what a parent evaluates gives an answer
(`RootOnTop.evaluate_ne_idle`).
-/

namespace BehaviorTree

/-- No node but the one on top is a root. -/
def RootOnTop (t : Tree CompiledNode) : Prop :=
  ∀ s ∈ t.subtrees, ∀ c ∈ s.children, c.label.behavior ≠ .root

namespace RootOnTop

variable {t s c : Tree CompiledNode} {path : List Nat}

theorem child (onTop : RootOnTop t) (mem : c ∈ t.children) : RootOnTop c :=
  fun s below => onTop s (Tree.mem_subtrees_of_child mem below)

theorem subtree (onTop : RootOnTop t) (at_ : t.at? path = some s) : RootOnTop s := by
  induction path generalizing t with
  | nil =>
    obtain rfl := Option.some.inj at_
    exact onTop
  | cons i path ih =>
    obtain ⟨c, at_i, at_⟩ := Tree.at?_cons.1 at_
    exact ih (onTop.child (List.mem_of_getElem? at_i)) at_

theorem ne_root (onTop : RootOnTop t) (mem : c ∈ t.children) : c.label.behavior ≠ .root :=
  onTop t t.mem_subtrees_self c mem

end RootOnTop

/-! ## Validated graphs -/

namespace TreeBuilder

variable {b : TreeBuilder} {g : Graph} {snapshot : BlackboardSnapshot} {t : CompiledTree}

theorem kind_of_root {n : Node} (known : b.behavior n = .ok .root) : n.kind = .root := by
  unfold TreeBuilder.behavior at known
  cases is : n.kind <;> simp only [is] at known
  case root => rfl
  case data => cases known
  all_goals (repeat' split at known) <;> cases known

/-- In a graph that passes validation a root has no parent. -/
theorem rootOnTop_of_build (valid : g.validate = .ok ()) (built : b.build g snapshot = .ok t) :
    RootOnTop t.root := by
  obtain ⟨root, children, -⟩ := Graph.validate_eq_ok_steps.1 valid
  have only := (Graph.checkRoot_eq_ok.1 root).2
  have good := (Graph.exists_foldlM_checkChildren.1 children).1
  obtain ⟨found, compiled, -⟩ := build_eq_ok built
  intro s mem c child is
  obtain ⟨n, located, copy⟩ := compiled.copies_root mem
  obtain ⟨m, located', copy'⟩ := compiled.copies_root (Tree.child_mem_subtrees mem child)
  have listed : c.label.id ∈ n.children := copy.children ▸ List.mem_map_of_mem child
  have kind := kind_of_root (is ▸ copy'.behavior)
  refine ((good n (Graph.mem_of_node? located)).2 _ listed).ne_root ?_
  rw [copy'.id]
  exact only m (Graph.mem_of_node? located') kind

end TreeBuilder

/-! ## Evaluations -/

section Evaluate

variable {T : Type} [Clock T]

theorem evaluateCondition_ne_idle (tick : Nat) (n : CompiledNode) (w : World) :
    (evaluateCondition tick n w).1 ≠ .idle := by
  have ofBool (b : Bool) : Status.ofBool b ≠ .idle := by cases b <;> decide
  simp only [evaluateCondition]
  split
  · split
    · simp
    · split
      · exact ofBool _
      · simp
  · simp

/-- A handler that answers idle has failed. -/
theorem evaluateLeaf_ne_idle (time : TickTime T) (n : CompiledNode) (h : Handler)
    (state : NodeState T) (w : World) : (evaluateLeaf time n h state w).1.status ≠ .idle := by
  simp only [evaluateLeaf]
  generalize (h.run _ _).1 = result
  split
  · rename_i status settled
    unfold settleResult at settled
    rintro rfl
    split at settled
    · cases settled
    · rename_i other
      exact other settled
  · simp

theorem CompositeKind.ne_idle (kind : CompositeKind) :
    kind.goesOnAfter ≠ .idle ∧ kind.settlesOn ≠ .idle := by
  cases kind <;> decide

variable {time : TickTime T} {kind : CompositeKind} {cursor place next : Nat}
  {children children' : List (LiveTree T)} {w w' : World} {status : Status} {trace : Trace}

theorem Proceeds.ne_idle
    (did : Proceeds time kind cursor place children w status next children' w' trace) :
    status ≠ .idle := by
  induction did with
  | ended => exact kind.ne_idle.1
  | skipped before later ih => exact ih
  | running reached runs => decide
  | settled reached settles => exact kind.ne_idle.2
  | passed reached ends unsettled later ih => exact ih

/-- A decorator is idle only if its child is. -/
theorem leaveDecorator_ne_idle (time : TickTime T) (kind : DecoratorKind) (limit : Number)
    (state : NodeState T) {child : Status} (answers : child ≠ .idle) :
    (leaveDecorator time kind limit state child).1 ≠ .idle := by
  cases kind <;> cases child <;> simp only [leaveDecorator] <;> (repeat' split) <;> simp_all

/-- A node below the root gives an answer. -/
theorem RootOnTop.evaluate_ne_idle {t : LiveTree T} (onTop : RootOnTop t.compiled)
    (other : t.label.node.behavior ≠ .root) (time : TickTime T) (w : World) :
    (evaluate time t w).1.status ≠ .idle := by
  induction t using Tree.induction generalizing w with
  | step n children ih =>
    obtain ⟨n, state⟩ := n
    obtain ⟨state', status, children', w', trace, did, evaluated, -⟩ :=
      acts time n state children w
    rw [evaluated]
    show status ≠ .idle
    cases did with
    | bareRoot is => exact absurd is other
    | root is => exact absurd is other
    | composite is proceeds => exact proceeds.ne_idle
    | @proceeded kind child rest state' limit is entry =>
      have mem : child.compiled ∈ (LiveTree.compiled (.node ⟨n, state⟩ (child :: rest))).children :=
        List.mem_cons_self
      exact leaveDecorator_ne_idle _ _ _ _ (ih child List.mem_cons_self (onTop.child mem)
        (child.label_compiled ▸ onTop.ne_root mem) w)
    | condition is => exact evaluateCondition_ne_idle _ _ _
    | handler is => exact evaluateLeaf_ne_idle _ _ _ _ _
    | _ => simp

/-- What a node evaluates gives an answer. -/
theorem RootOnTop.child_ne_idle {t child : LiveTree T} (onTop : RootOnTop t.compiled)
    (mem : child ∈ t.children) (time : TickTime T) (w : World) :
    (evaluate time child w).1.status ≠ .idle := by
  have below : child.compiled ∈ t.compiled.children := by
    rw [LiveTree.children_compiled]
    exact List.mem_map_of_mem mem
  exact (onTop.child below).evaluate_ne_idle (child.label_compiled ▸ onTop.ne_root below) time w

end Evaluate

end BehaviorTree
