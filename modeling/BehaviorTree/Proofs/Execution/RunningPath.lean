import BehaviorTree.Handler.Builtin
import BehaviorTree.Proofs.Execution.Calls
import BehaviorTree.Proofs.Execution.Tick
import Mathlib.Logic.Relation

/-!
# The nodes that run form one path

In every run of an executor, the nodes with the status running lie on one way down from the root
of the tree, composites on it resume where it goes on, and off it nothing is left to resume.
-/

namespace BehaviorTree

/-- The subtree to which a path of places among children leads. -/
def Tree.at? {α : Type} : Tree α → List Nat → Option (Tree α)
  | t, [] => some t
  | t, i :: path => t.children[i]?.bind fun child => child.at? path

variable {T : Type}

/-- What the statuses of a tree and the states of its nodes have to do with one another. -/
structure LiveTree.RunningPath (t : LiveTree T) : Prop where
  parent : ∀ s : LiveTree T, s ∈ t.subtrees → ∀ child : LiveTree T, child ∈ s.children →
    child.status = .running → s.status = .running
  alone : ∀ s : LiveTree T, s ∈ t.subtrees → ∀ (i j : Nat) (left right : LiveTree T),
    s.children[i]? = some left → s.children[j]? = some right → left.status = .running →
      right.status = .running → i = j
  /-- Of two paths to nodes that run, one goes on where the other one ends. -/
  chain : ∀ (p q : List Nat) (s u : LiveTree T), t.at? p = some s → t.at? q = some u →
    s.status = .running → u.status = .running → p <+: q ∨ q <+: p
  cursor : ∀ s : LiveTree T, s ∈ t.subtrees → ∀ kind, s.label.node.behavior = .composite kind →
    s.status = .running → ∃ child : LiveTree T,
      s.children[s.label.state.cursor]? = some child ∧ child.status = .running
  rests : ∀ s : LiveTree T, s ∈ t.subtrees → s.status ≠ .running → s.label.state.AtRest

variable [Clock T]

namespace LiveTree

variable {now : T}

theorem Sound.root_sound {t : LiveTree T} (sound : Sound now t) : NodeSound now t.label t.children := by
  cases sound with
  | node here below => exact here

theorem Sound.child_sound {t child : LiveTree T} (sound : Sound now t) (mem : child ∈ t.children) :
    Sound now child := by
  cases sound with
  | node here below => exact below child mem

mutual

theorem Sound.of_mem_subtrees {t s : LiveTree T} (sound : Sound now t) (mem : s ∈ t.subtrees) :
    Sound now s := by
  match t, sound with
  | .node n children, .node here below =>
    simp only [Tree.subtrees] at mem
    rcases List.mem_cons.1 mem with rfl | mem
    · exact .node here below
    · exact Sound.of_mem_subtreesOf below mem

theorem Sound.of_mem_subtreesOf {children : List (LiveTree T)} {s : LiveTree T}
    (below : ∀ child ∈ children, Sound now child) (mem : s ∈ Tree.subtreesOf children) :
    Sound now s := by
  match children with
  | [] => simp [Tree.subtreesOf] at mem
  | child :: rest =>
    simp only [Tree.subtreesOf, List.mem_append] at mem
    rcases mem with mem | mem
    · exact Sound.of_mem_subtrees (below child List.mem_cons_self) mem
    · exact Sound.of_mem_subtreesOf (fun other at_ => below other (List.mem_cons_of_mem _ at_)) mem

end

/-- A tree with a node that runs runs at its root. -/
theorem Sound.running_of_at? {t s : LiveTree T} (sound : Sound now t) {path : List Nat}
    (at_ : t.at? path = some s) (runs : s.status = .running) : t.status = .running := by
  induction path generalizing t with
  | nil =>
    obtain rfl : t = s := by simpa [Tree.at?] using at_
    exact runs
  | cons i path ih =>
    obtain ⟨child, at_i, at_⟩ := Option.bind_eq_some_iff.1 at_
    have mem := List.mem_of_getElem? at_i
    exact (sound.root_sound.carried child mem (ih (sound.child_sound mem) at_)).1

theorem Sound.chain {t s u : LiveTree T} (sound : Sound now t) {p q : List Nat}
    (at_p : t.at? p = some s) (at_q : t.at? q = some u) (runs : s.status = .running)
    (runs' : u.status = .running) : p <+: q ∨ q <+: p := by
  induction p generalizing t q with
  | nil => exact .inl List.nil_prefix
  | cons i p ih =>
    cases q with
    | nil => exact .inr List.nil_prefix
    | cons j q =>
      obtain ⟨left, at_i, at_p⟩ := Option.bind_eq_some_iff.1 at_p
      obtain ⟨right, at_j, at_q⟩ := Option.bind_eq_some_iff.1 at_q
      have below := sound.child_sound (List.mem_of_getElem? at_i)
      have below' := sound.child_sound (List.mem_of_getElem? at_j)
      -- Both ways go through a child that runs, and only one child does.
      have i_eq := sound.root_sound.only i left at_i (below.running_of_at? at_p runs)
      have j_eq := sound.root_sound.only j right at_j (below'.running_of_at? at_q runs')
      obtain rfl : i = j := by omega
      obtain rfl : left = right := Option.some.inj (at_i.symm.trans at_j)
      simpa only [List.cons_prefix_cons, true_and] using ih below at_p at_q

/-- The invariant says where the nodes that run are. -/
theorem Sound.runningPath {t : LiveTree T} (sound : Sound now t) : t.RunningPath where
  parent s mem child at_ runs := ((sound.of_mem_subtrees mem).root_sound.carried child at_ runs).1
  alone s mem i j left right at_i at_j runs runs' := by
    have only := (sound.of_mem_subtrees mem).root_sound.only
    have i_eq := only i left at_i runs
    have j_eq := only j right at_j runs'
    omega
  chain _ _ _ _ := sound.chain
  cursor s mem kind := (sound.of_mem_subtrees mem).root_sound.active kind
  rests s mem := (sound.of_mem_subtrees mem).root_sound.rests

end LiveTree

/-! ## Executors -/

namespace Executor

/-- The invariant of an executor: the time did not run backwards and the tree keeps its own. -/
structure Sound (e : Executor T) : Prop where
  future : Clock.atMost Clock.zero e.elapsed
  tree : ∀ t, e.tree = some t → LiveTree.Sound e.elapsed t

variable {e e' : Executor T}

/-- Only the tree and the time matter. -/
theorem Sound.of_eq (sound : e.Sound) (tree : e'.tree = e.tree)
    (elapsed : e'.elapsed = e.elapsed) : e'.Sound := by
  refine ⟨elapsed ▸ sound.future, fun t at_ => ?_⟩
  rw [elapsed]
  exact sound.tree t (tree ▸ at_)

/-- One tick evaluates the tree in some world, at the time that the tick leads to. -/
theorem tickTree_eq (e : Executor T) (tree : LiveTree T) (delta : T) (s : SharedBlackboard) :
    ∃ w, (e.tickTree tree delta s).2.1.tree =
        some (evaluate ⟨delta, Clock.add e.elapsed delta, e.tickCount + 1⟩ tree w).1 ∧
      (e.tickTree tree delta s).2.1.elapsed = Clock.add e.elapsed delta :=
  ⟨_, rfl, rfl⟩

variable [LawfulClock T]

theorem Sound.new (tree : CompiledTree) (config : ExecutorConfig) (entropy : Nat) :
    (Executor.new tree config entropy : Executor T).Sound where
  future := LawfulClock.zero_atMost_zero
  tree t at_ := by
    obtain rfl := Option.some.inj at_
    exact LiveTree.sound_ofCompiled _ _

/-- A reset establishes the invariant anew. -/
theorem Sound.reset (e : Executor T) : e.reset.Sound where
  future := LawfulClock.zero_atMost_zero
  tree t at_ := by
    obtain ⟨before, -, rfl⟩ := Option.map_eq_some_iff.1 at_
    exact LiveTree.sound_reset _ _

theorem Sound.tickTree (sound : e.Sound) {tree : LiveTree T} (alive : e.tree = some tree)
    {delta : T} (forward : Clock.atMost Clock.zero delta) (s : SharedBlackboard) :
    (e.tickTree tree delta s).2.1.Sound := by
  obtain ⟨w, tree_eq, elapsed_eq⟩ := e.tickTree_eq tree delta s
  have later := LawfulClock.atMost_add sound.future forward
  refine ⟨elapsed_eq ▸ LawfulClock.atMost_trans sound.future later, fun t at_ => ?_⟩
  obtain rfl := Option.some.inj (tree_eq.symm.trans at_)
  rw [elapsed_eq]
  exact evaluate_sound ⟨delta, Clock.add e.elapsed delta, e.tickCount + 1⟩ tree w
    ((sound.tree tree alive).later sound.future later)

/-- The ticks of an update keep the invariant, however many of them are performed. -/
theorem Sound.tickWhileDue (sound : e.Sound) (forward : Clock.atMost Clock.zero e.interval)
    (count : Nat) (s : SharedBlackboard) : (Executor.tickWhileDue count e s).2.1.Sound := by
  induction count generalizing e s with
  | zero => exact sound
  | succ count ih =>
    simp only [Executor.tickWhileDue]
    split
    · exact sound
    · rename_i tree alive
      split
      · have paid : Executor.Sound { e with
            accumulator := Clock.max (Clock.sub e.accumulator e.interval) Clock.zero } :=
          sound.of_eq rfl rfl
        exact ih (paid.tickTree alive forward s) forward _
      · exact sound

/-- An interval that an update accepts does not run backwards. -/
theorem forward_of_checkInterval
    (checked : ExecutorConfig.checkInterval e.config.tickInterval = .ok ()) :
    Clock.atMost Clock.zero e.interval :=
  LawfulClock.zero_atMost_ofNumber (Number.atMost_of_less (interval_of_checkInterval checked))

end Executor

/-! ## Runs -/

/-- Something that a caller does to an executor, and the state in between two ticks of an update.
The blackboard may be any, for others change it between the calls. -/
inductive Executor.Moves : Executor T → Executor T → Prop
  | start {e e' : Executor T} (s : SharedBlackboard) : e.start s = .ok e' → Moves e e'
  | pause {e e' : Executor T} : e.pause = .ok e' → Moves e e'
  | resume {e e' : Executor T} : e.resume = .ok e' → Moves e e'
  | stop {e e' : Executor T} (s s' : SharedBlackboard) : e.stop s = .ok (e', s') → Moves e e'
  | step {e e' : Executor T} (s s' : SharedBlackboard) (report : TickReport T) :
    Clock.atMost Clock.zero e.interval → e.step s = .ok (report, e', s') → Moves e e'
  | tick {e e' : Executor T} (delta : T) (s s' : SharedBlackboard) (report : TickReport T) :
    Clock.atMost Clock.zero delta → e.tick delta s = .ok (report, e', s') → Moves e e'
  | update {e e' : Executor T} (frameDelta : T) (s s' : SharedBlackboard)
    (reports : List (TickReport T)) :
    e.update frameDelta s = .ok (reports, e', s') → Moves e e'
  /-- An update after some of its ticks. -/
  | within {e : Executor T} (frameDelta : T) (s : SharedBlackboard) (count : Nat) :
    e.state = .running → ExecutorConfig.checkInterval e.config.tickInterval = .ok () →
      count ≤ e.config.maxTicksPerUpdate →
        Moves e (tickWhileDue count (e.addFrame frameDelta) s).2.1
  | takeTypeChanges (e : Executor T) : Moves e e.takeTypeChanges.2
  | destroy (e : Executor T) : Moves e e.destroy

namespace Executor

variable [LawfulClock T] {e e' : Executor T}

/-- Every call keeps the invariant. -/
theorem Moves.sound (moves : e.Moves e') (sound : e.Sound) : e'.Sound := by
  cases moves with
  | start s done =>
    obtain ⟨-, rfl⟩ := of_start done
    exact (Sound.reset _).of_eq rfl rfl
  | pause done =>
    obtain ⟨-, rfl⟩ := of_pause done
    exact sound.of_eq rfl rfl
  | resume done =>
    obtain ⟨-, rfl⟩ := of_resume done
    exact sound.of_eq rfl rfl
  | stop s s' done =>
    obtain rfl := of_stop done
    exact (Sound.reset e).of_eq rfl rfl
  | step s s' report forward done =>
    obtain ⟨-, tree, alive, ticked⟩ := of_step done
    have ready : (e.stepping s).Sound ∧ (e.stepping s).interval = e.interval := by
      simp only [stepping]
      split
      · exact ⟨Sound.reset _, rfl⟩
      · exact ⟨sound, rfl⟩
    have after := ready.1.tickTree alive (ready.2.symm ▸ forward) s
    rw [ticked] at after
    exact after
  | tick delta s s' report forward done =>
    obtain ⟨-, tree, alive, ticked⟩ := of_tick done
    have after := sound.tickTree alive forward s
    rw [ticked] at after
    exact after
  | update frameDelta s s' reports done =>
    rcases of_update done with ⟨-, same⟩ | ⟨-, checked, ticked⟩
    · cases same
      exact sound
    · have after := Sound.tickWhileDue (sound.of_eq rfl rfl : (e.addFrame frameDelta).Sound)
        (forward_of_checkInterval checked) e.config.maxTicksPerUpdate s
      rw [← ticked] at after
      exact after
  | within frameDelta s count _ checked _ =>
    exact Sound.tickWhileDue (sound.of_eq rfl rfl : (e.addFrame frameDelta).Sound)
      (forward_of_checkInterval checked) count s
  | takeTypeChanges => exact sound.of_eq rfl rfl
  | destroy => exact ⟨sound.future, fun t at_ => by cases at_⟩

/-- Every run keeps the invariant. -/
theorem sound_of_run (run : Relation.ReflTransGen Moves e e') (sound : e.Sound) : e'.Sound := by
  induction run with
  | refl => exact sound
  | tail _ moves ih => exact moves.sound ih

end Executor

/-- At every point of every run of an executor, whatever tree was compiled, whatever its handlers do
and whatever happens to the blackboard, the nodes that run form one path: a node runs only below
one that does and beside none that does, a composite that runs resumes at its child that does, and
a node that does not run has nothing to resume. -/
theorem Executor.running_nodes_form_path (tree : CompiledTree) (config : ExecutorConfig)
    (entropy : Nat) {e : Executor Number}
    (run : Relation.ReflTransGen Executor.Moves (Executor.new tree config entropy) e)
    {t : LiveTree Number} (alive : e.tree = some t) : t.RunningPath :=
  ((sound_of_run run (Sound.new tree config entropy)).tree t alive).runningPath

/-- A sequence whose second child never ends, below the root. -/
def waitingTree : CompiledTree :=
  let compiled (id : String) (kind : NodeKind) (behavior : Behavior) : CompiledNode :=
    { id := id, typeId := id, kind := kind, config := .empty, bindings := .empty,
      behavior := behavior }
  let leaf (id : String) (status : Status) : Tree CompiledNode :=
    .node (compiled id .action (.handler (.static id status))) []
  ⟨.node (compiled "root" .root .root)
    [.node (compiled "sequence" .composite (.composite .sequence))
      [leaf "done" .success, leaf "wait" .running]], []⟩

theorem Executor.running_nodes_form_path_waiting :
    ∃ (e : Executor Number) (t : LiveTree Number),
      Relation.ReflTransGen Executor.Moves (Executor.new waitingTree {} 0) e ∧
        e.tree = some t ∧ t.preorder.map (fun n => n.state.status) =
          [.running, .running, .success, .running] ∧ t.RunningPath := by
  let e : Executor Number := Executor.new waitingTree {} 0
  have moves : e.Moves _ := .step {} _ _ (by decide +kernel) rfl
  exact ⟨_, _, .single moves, rfl, rfl,
    running_nodes_form_path waitingTree {} 0 (.single moves) rfl⟩

end BehaviorTree
