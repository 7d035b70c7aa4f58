import BehaviorTree.Proofs.Execution.Answers
import BehaviorTree.Proofs.Execution.Attendance

/-!
# Reports are exact

Whoever follows a tree through the reports of its ticks misses nothing. A report names the nodes
that took part, each once, with the statuses that they have from then on, and every node that it
does not name is as it was before, with all that is below it (`ExactDelta`, `reports_are_exact`).
-/

namespace BehaviorTree

/-- Looking up a key that is listed once finds what is listed with it. -/
theorem lookup_eq_some_iff_mem {α β : Type} [BEq α] [LawfulBEq α] {entries : List (α × β)}
    (once : (entries.map (·.1)).Nodup) {key : α} {value : β} :
    entries.lookup key = some value ↔ (key, value) ∈ entries := by
  rw [List.lookup_eq_some_iff]
  constructor
  · rintro ⟨before, after, rfl, -⟩
    exact List.mem_append_right _ List.mem_cons_self
  · intro mem
    obtain ⟨before, after, rfl⟩ := List.append_of_mem mem
    refine ⟨before, after, rfl, fun entry earlier => bne_iff_ne.2 ?_⟩
    rintro rfl
    rw [List.map_append, List.nodup_append] at once
    exact once.2.2 _ (List.mem_map_of_mem earlier) _ List.mem_cons_self rfl

variable {T : Type} [Clock T]

/-! ## What becomes of a node that a pass leaves alone -/

section Passes

variable {pass : Pass T} {t s : LiveTree T} {path : List Nat}

/-- The tree below a node that is left alone stays as it is, and so does the node. -/
theorem Pass.at?_of_left (at_ : t.at? path = some s) (left : pass.event path t = .left) :
    (pass.apply t).at? path = some s := by
  obtain ⟨s', at', happens⟩ := pass.happens at_
  rw [left] at happens
  cases happens
  exact at'

/-- What is below a node that is left alone is left alone. -/
theorem Pass.left_below (at_ : t.at? path = some s) (left : pass.event path t = .left)
    (more : List Nat) : pass.event (path ++ more) t = .left := by
  obtain ⟨s', -, fate⟩ := pass.fate_at at_
  rw [Pass.event] at left
  rw [Pass.event, Trace.inside_append]
  generalize (pass.trace t).inside path = trace at fate left
  cases fate with
  | left => rw [Trace.inside_nil]; rfl
  | cutShort =>
    rw [Event.ofTrace, own_cuts] at left
    cases left
  | evaluated w =>
    rw [Event.ofTrace, own_visits] at left
    cases left

/-- The status that is reported of a node is the one that it has after the pass. -/
theorem Pass.status_apply (at_ : t.at? path = some s) {status : Status}
    (takes : (pass.event path t).status? = some status) :
    ∃ s' : LiveTree T, (pass.apply t).at? path = some s' ∧
      s'.label.node = s.label.node ∧ s'.status = status := by
  obtain ⟨s', at', happens⟩ := pass.happens at_
  refine ⟨s', at', ?_, ?_⟩
  · rw [← LiveTree.label_compiled, happens.compiled, LiveTree.label_compiled]
  · generalize pass.event path t = event at happens takes
    cases happens with
    | left => cases takes
    | cleared =>
      obtain ⟨n, children⟩ := s
      exact Option.some.inj takes
    | evaluated time w => exact Option.some.inj takes

end Passes

/-! ## Idle -/

/-- Where a node that is evaluated stays idle, it is the root and has no child. -/
theorem RootOnTop.childless_of_idle {t s : LiveTree T} {path : List Nat}
    (onTop : RootOnTop t.compiled) (at_ : t.at? path = some s) {time : TickTime T} {w : World}
    (idle : (evaluate time s w).1.status = .idle) : path = [] ∧ s.children = [] := by
  have at_compiled : t.compiled.at? path = some s.compiled := by
    rw [LiveTree.compiled, Tree.at?_map, at_]
    rfl
  have below := onTop.subtree at_compiled
  have root : s.label.node.behavior = .root := by
    by_contra other
    exact below.evaluate_ne_idle other time w idle
  constructor
  · rcases List.eq_nil_or_concat path with rfl | ⟨above, i, rfl⟩
    · rfl
    · rw [List.concat_eq_append, Tree.at?_append] at at_compiled
      obtain ⟨parent, at_parent, at_i⟩ := Option.bind_eq_some_iff.1 at_compiled
      obtain ⟨c, at_c, here⟩ := Tree.at?_cons.1 at_i
      obtain rfl := Option.some.inj here
      have apart := (onTop.subtree at_parent).ne_root (List.mem_of_getElem? at_c)
      rw [LiveTree.label_compiled] at apart
      exact absurd root apart
  · obtain ⟨⟨n, state⟩, children⟩ := s
    change n.behavior = .root at root
    cases children with
    | nil => rfl
    | cons child rest =>
      rw [evaluate_of_root root] at idle
      exact absurd idle (below.child_ne_idle List.mem_cons_self time w)

/-! ## Reports -/

/-- The statuses that a pass over a tree reports tell exactly what it has changed. -/
structure ExactDelta (pass : Pass T) (t : LiveTree T) (statuses : List (String × Status)) :
    Prop where
  once : (statuses.map (·.1)).Nodup
  root : statuses.getLast? = some (t.label.node.id, (pass.apply t).status)
  /-- What is reported of a node is its status after the pass. -/
  shown : ∀ entry ∈ statuses, (pass.apply t).statuses.lookup entry.1 = some entry.2
  /-- A node that is not listed stays as it is, with its state and with all that is below it. -/
  kept : ∀ path s, t.at? path = some s → s.label.node.id ∉ statuses.map (·.1) →
    (pass.apply t).at? path = some s
  /-- Where a node is listed, so is its parent. -/
  upward : ∀ path i s c, t.at? path = some s → t.at? (path ++ [i]) = some c →
    c.label.node.id ∈ statuses.map (·.1) → s.label.node.id ∈ statuses.map (·.1)
  /-- What is reported as idle is the root, if it has no child, or it was cleared below a timeout
  that failed without evaluating its child. -/
  idle : ∀ path s, t.at? path = some s → (s.label.node.id, Status.idle) ∈ statuses →
    (path = [] ∧ s.children = []) ∨ ∃ above below timeout e, path = above ++ 0 :: below ∧
      t.at? above = some timeout ∧ timeout.label.node.behavior = .decorator .timeout ∧
      pass.event above t = .evaluated e ∧ e.children = [] ∧ e.status = .failure ∧
      pass.event path t = .cleared

section Ticks

variable {t s : LiveTree T} {time : TickTime T} {w : World} {path : List Nat}

omit [Clock T] in
theorem nodup_ids (distinct : (t.compiled.preorder.map (·.id)).Nodup) :
    (t.statuses.map (·.1)).Nodup := by
  rw [LiveTree.compiled, Tree.preorder_map, List.map_map] at distinct
  rw [LiveTree.statuses, List.map_map]
  exact distinct

/-- What a tick reports is about nodes of the tree. -/
theorem exists_of_mem_shown (fresh : w.visited = []) {entry : String × Status}
    (mem : entry ∈ (evaluate time t w).2.visited) :
    ∃ path s, t.at? path = some s ∧ s.label.node.id = entry.1 := by
  have listed := visited_evaluate time t w
  rw [listed, fresh, List.nil_append] at mem
  obtain ⟨⟨path, part⟩, -, is⟩ := List.mem_filterMap.1 mem
  obtain ⟨s, at_, rfl⟩ := Option.map_eq_some_iff.1 is
  exact ⟨path, s, at_, rfl⟩

/-- A tick reports the root last. -/
theorem getLast?_visited (time : TickTime T) (t : LiveTree T) (w : World) :
    (evaluate time t w).2.visited.getLast? =
      some (t.label.node.id, (evaluate time t w).1.status) := by
  obtain ⟨⟨n, state⟩, children⟩ := t
  obtain ⟨state', status, children', w', trace, did, evaluated, -⟩ := acts time n state children w
  rw [evaluated]
  exact List.getLast?_concat

variable (distinct : (t.compiled.preorder.map (·.id)).Nodup) (fresh : w.visited = [])
  (once : ((evaluate time t w).2.visited.map (·.1)).Nodup)

include distinct fresh once

/-- What a tick reports of a node is what happens to it. -/
theorem mem_shown_iff (at_ : t.at? path = some s) (status : Status) :
    (s.label.node.id, status) ∈ (evaluate time t w).2.visited ↔
      ((Pass.tick time w).event path t).status? = some status := by
  rw [← lookup_eq_some_iff_mem once, lookup_shown distinct time fresh at_]

/-- What a tick does not report is left alone. -/
theorem not_named_iff (at_ : t.at? path = some s) :
    s.label.node.id ∉ (evaluate time t w).2.visited.map (·.1) ↔
      (Pass.tick time w).event path t = .left := by
  have listed := mem_shown_iff distinct fresh once at_
  constructor
  · intro unnamed
    have silent (status : Status) :
        ((Pass.tick time w).event path t).status? ≠ some status :=
      fun takes => unnamed (List.mem_map_of_mem ((listed status).2 takes))
    generalize (Pass.tick time w).event path t = event at silent
    cases event with
    | left => rfl
    | cleared => exact absurd rfl (silent .idle)
    | evaluated e => exact absurd rfl (silent e.status)
  · intro left mem
    obtain ⟨⟨id, status⟩, mem, rfl⟩ := List.mem_map.1 mem
    have takes := (listed status).1 mem
    rw [left] at takes
    cases takes

/-- The report of a tick of a tree is exact. -/
theorem exactDelta_tick (onTop : RootOnTop t.compiled) :
    ExactDelta (.tick time w) t (evaluate time t w).2.visited where
  once := once
  root := getLast?_visited time t w
  shown entry mem := by
    obtain ⟨path, s, at_, is⟩ := exists_of_mem_shown fresh mem
    obtain ⟨id, status⟩ := entry
    obtain rfl : s.label.node.id = id := is
    have takes := (mem_shown_iff distinct fresh once at_ status).1 mem
    obtain ⟨s', at', same, rfl⟩ := Pass.status_apply at_ takes
    have distinct' : (((Pass.tick time w).apply t).compiled.preorder.map (·.id)).Nodup :=
      (Pass.compiled_apply _ t).symm ▸ distinct
    rw [lookup_eq_some_iff_mem (nodup_ids distinct'), ← same]
    exact List.mem_map_of_mem (Tree.label_mem_of_at? at')
  kept path s at_ unnamed :=
    Pass.at?_of_left at_ ((not_named_iff distinct fresh once at_).1 unnamed)
  upward path i s c at_s at_c := by
    contrapose
    rw [not_named_iff distinct fresh once at_s, not_named_iff distinct fresh once at_c]
    exact fun left => Pass.left_below at_s left [i]
  idle path s at_ mem := by
    have takes := (mem_shown_iff distinct fresh once at_ .idle).1 mem
    cases happens : (Pass.tick time w).event path t with
    | left =>
      rw [happens] at takes
      cases takes
    | cleared =>
      obtain ⟨above, below, timeout, e, is, found, kind, evaluated, none, fails⟩ :=
        cleared_below_timeout at_ happens
      exact .inr ⟨above, below, timeout, e, is, found, kind, evaluated, none, fails, rfl⟩
    | evaluated e =>
      obtain ⟨w', rfl, -, -⟩ := Pass.evaluated_at at_ happens
      rw [happens] at takes
      exact .inl (onTop.childless_of_idle at_ (Option.some.inj takes))

end Ticks

/-- In a run of a tree that was built from a graph that passes validation, the reports are those of
the passes that the run makes over the tree, and each of them is exact. -/
theorem reports_are_exact {b : TreeBuilder} {g : Graph} {snapshot : BlackboardSnapshot}
    {t : CompiledTree} (valid : g.validate = .ok ()) (built : b.build g snapshot = .ok t)
    (config : ExecutorConfig) (entropy : Nat) (s : SharedBlackboard)
    (calls : List (Executor.Call T)) :
    let e : Executor T := .new t config entropy
    let start := LiveTree.ofCompiled t.root
    let passes := e.passes s calls
    let run := e.performAll s calls
    run.reports.map (fun r => (r.tick, r.elapsed, r.statuses)) = reported start passes ∧
      (∀ tree, run.executor.tree = some tree → tree = replay start passes) ∧
      ∀ before time w, before ++ [.tick time w] <+: passes →
        ExactDelta (.tick time w) (replay start before)
          (evaluate time (replay start before) w).2.visited := by
  intro e start passes run
  have follows := Executor.follows_performAll e s calls
  refine ⟨follows.reports start rfl, fun tree alive => ?_, fun before time w made => ?_⟩
  · obtain ⟨t', is, rfl⟩ := follows.tree tree alive
    obtain rfl := Option.some.inj is
    rfl
  · have same : (replay start before).compiled = t.root :=
      (compiled_replay ..).trans (LiveTree.compiled_ofCompiled t.root)
    have fresh := follows.fresh time w (made.subset (List.mem_append_right _ List.mem_cons_self))
    have ids := TreeBuilder.ids_nodup_of_build built
    have once := nodup_visited (TreeBuilder.decorates_of_build built) ids same time fresh
    refine exactDelta_tick ?_ fresh once ?_
    · rw [same]
      exact ids
    · rw [same]
      exact TreeBuilder.rootOnTop_of_build valid built

/-- In the second tick a sequence is cut short that has not come to its last child. -/
theorem reports_are_exact_watch :
    let node (id typeId : String) (kind : NodeKind) (data : Dict Value)
        (children : List String) : Node :=
      ⟨id, .new typeId kind "", data, {}, children⟩
    let nodes := [node "root" "root" .root .empty ["watch"],
      node "watch" "timeout" .decorator (.ofList [("duration", .number 1)]) ["list"],
      node "list" "sequence" .composite .empty ["go", "hold"],
      node "go" "succeed" .action .empty [], node "hold" "running" .action .empty []]
    let g : Graph := { nodes := nodes, connections := [.toChild "root" "watch",
      .toChild "watch" "list", .toChild "list" "go", .toChild "list" "hold"] }
    let calls : List (Executor.Call Number) := [.start, .tick 1, .tick 1]
    ∃ t, g.validate = .ok () ∧ ({} : TreeBuilder).build g ⟨.empty, .empty⟩ = .ok t ∧
      let e : Executor Number := .new t {} 0
      let start := LiveTree.ofCompiled t.root
      (e.performAll {} calls).reports.map (·.statuses) =
          [[("go", .success), ("hold", .running), ("list", .running), ("watch", .running),
              ("root", .running)],
            [("list", .idle), ("go", .idle), ("hold", .idle), ("watch", .failure),
              ("root", .failure)]] ∧
        ∃ before time w, before ++ [.tick time w] = e.passes {} calls ∧ time.tick = 2 ∧
          ExactDelta (.tick time w) (replay start before)
            (evaluate time (replay start before) w).2.visited := by
  intro node nodes g calls
  have shown : (({} : TreeBuilder).build g ⟨.empty, .empty⟩).toOption.map (fun t =>
      let e : Executor Number := .new t {} 0
      ((e.performAll {} calls).reports.map (·.statuses),
        (e.passes {} calls).map fun pass => (pass.isTick, pass.time.tick))) = some
        ([[("go", .success), ("hold", .running), ("list", .running), ("watch", .running),
              ("root", .running)],
            [("list", .idle), ("go", .idle), ("hold", .idle), ("watch", .failure),
              ("root", .failure)]], [(false, 0), (true, 1), (true, 2)]) := by
    decide +kernel
  cases built : ({} : TreeBuilder).build g ⟨.empty, .empty⟩ with
  | error e => rw [built] at shown; cases shown
  | ok t =>
    simp only [built, Except.toOption, Option.map_some, Option.some.injEq, Prod.mk.injEq] at shown
    obtain ⟨reports, made⟩ := shown
    refine ⟨t, rfl, rfl, reports, ?_⟩
    obtain ⟨before, last, split, -, made⟩ :=
      List.map_eq_append_iff.1 (made.trans (List.append_cons [(false, 0)] (true, 1) [(true, 2)]))
    obtain ⟨pass, rfl, is⟩ := List.map_eq_singleton_iff.1 made
    obtain ⟨ticks, second⟩ := Prod.mk.inj is
    cases pass with
    | reset => cases ticks
    | tick time w =>
      have exact_ := reports_are_exact (T := Number) (g := g) rfl built {} 0 {} calls
      refine ⟨before, time, w, split.symm, second, exact_.2.2 before time w ?_⟩
      rw [split]

end BehaviorTree
