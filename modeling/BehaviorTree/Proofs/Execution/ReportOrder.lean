import BehaviorTree.Proofs.Execution.TimeLimit

/-!
# The order of a report

A report lists a node that was evaluated after the nodes below it, and what is below a child before
what is below later ones. The nodes of a subtree that was cut short stand together in it, but there
a node comes before those below it (`Precedes`, `ordered_visits`). So a report is in post-order
exactly if its tick has cut no node with children short (`reports_in_order`), and one that has cut a
sequence short is not (`cut_short_before_children`).
-/

namespace BehaviorTree

/-! ## Orders of paths -/

/-- The node at a path is below the one at another. -/
def Below (p q : List Nat) : Prop := ∃ i more, p = q ++ i :: more

/-- The node at a path is below an earlier child of a common node than the one at another. -/
def LeftOf (p q : List Nat) : Prop :=
  ∃ common i j p' q', p = common ++ i :: p' ∧ q = common ++ j :: q' ∧ i < j

/-- The node at a path comes before the one at another in post-order. -/
def PostOrder (p q : List Nat) : Prop := LeftOf p q ∨ Below p q

/-- Which of two entries of a trace comes before the other. -/
inductive Precedes : List Nat × Part → List Nat × Part → Prop
  | left {p q : List Nat} {part part' : Part} (left : LeftOf p q) : Precedes (p, part) (q, part')
  /-- A node that was evaluated comes after what is below it. -/
  | evaluated {p q : List Nat} {part : Part} {w : World} {status : Status} (below : Below p q) :
    Precedes (p, part) (q, .evaluated w status)
  /-- A node that was cut short comes before what is below it, which was cut short with it. -/
  | cutShort {p q : List Nat} (below : Below q p) : Precedes (p, .cutShort) (q, .cutShort)

section Paths

variable {p q : List Nat}

theorem Below.cons (below : Below p q) (place : Nat) : Below (place :: p) (place :: q) := by
  obtain ⟨i, more, rfl⟩ := below
  exact ⟨i, more, rfl⟩

theorem Below.asymm (below : Below p q) : ¬ Below q p := by
  rintro ⟨j, more', rfl⟩
  obtain ⟨i, more, is⟩ := below
  have length := congrArg List.length is
  simp only [List.length_append, List.length_cons] at length
  omega

theorem Below.not_left (below : Below p q) : ¬ LeftOf p q := by
  rintro ⟨common, i, j, p', q', is, rfl, before⟩
  obtain ⟨k, more, rfl⟩ := below
  rw [List.append_assoc, List.append_cancel_left_eq] at is
  exact Nat.ne_of_gt before (List.cons.inj is).1

theorem Below.not_right (below : Below p q) : ¬ LeftOf q p := by
  rintro ⟨common, i, j, q', p', rfl, is, before⟩
  obtain ⟨k, more, rfl⟩ := below
  rw [List.append_assoc, List.append_cancel_left_eq] at is
  exact Nat.ne_of_lt before (List.cons.inj is).1

theorem LeftOf.cons (left : LeftOf p q) (place : Nat) : LeftOf (place :: p) (place :: q) := by
  obtain ⟨common, i, j, p', q', rfl, rfl, before⟩ := left
  exact ⟨place :: common, i, j, p', q', rfl, rfl, before⟩

theorem Precedes.cons {part part' : Part} (precedes : Precedes (p, part) (q, part'))
    (place : Nat) : Precedes (place :: p, part) (place :: q, part') := by
  cases precedes with
  | left left => exact .left (left.cons place)
  | evaluated below => exact .evaluated (below.cons place)
  | cutShort below => exact .cutShort (below.cons place)

end Paths

/-! ## Traces in order -/

namespace Trace

/-- The entries of a trace are in order. -/
def Ordered (trace : Trace) : Prop := trace.Pairwise Precedes

/-- A trace lists only what is below the children from a place on. -/
def From (place : Nat) (trace : Trace) : Prop := ∀ e ∈ trace, ∃ j path, e.1 = j :: path ∧ place ≤ j

variable {place : Nat} {trace mine others : Trace}

theorem From.of_startsAt (starts : trace.StartsAt place) (own : trace.own = []) :
    From place trace := by
  intro e mem
  rcases e with ⟨_ | ⟨j, path⟩, part⟩
  · have here : part ∈ trace.own := List.mem_filterMap.2 ⟨([], part), mem, rfl⟩
    rw [own] at here
    cases here
  · refine ⟨j, path, rfl, Nat.le_of_not_lt fun before => ?_⟩
    have here : (path, part) ∈ trace.child j := List.mem_filterMap.2 ⟨_, mem, if_pos rfl⟩
    rw [starts j before] at here
    cases here

theorem From.below (place : Nat) (mine : Trace) : From place (mine.below place) := by
  intro e mem
  obtain ⟨e', -, rfl⟩ := List.mem_map.1 mem
  exact ⟨place, e'.1, rfl, le_rfl⟩

namespace Ordered

theorem nil : Ordered [] := List.Pairwise.nil

theorem below (ordered : Ordered mine) (place : Nat) : Ordered (mine.below place) :=
  List.pairwise_map.2 (ordered.imp fun precedes => precedes.cons place)

/-- What is below a child comes before what is below later ones. -/
theorem below_append (ordered : Ordered mine) (later : Ordered others)
    (from_ : others.From (place + 1)) : Ordered (mine.below place ++ others) := by
  refine List.pairwise_append.2 ⟨ordered.below place, later, fun e mem e' mem' => ?_⟩
  obtain ⟨⟨p, part⟩, -, rfl⟩ := List.mem_map.1 mem
  obtain ⟨j, q, is, after⟩ := from_ e' mem'
  obtain ⟨path, part'⟩ := e'
  subst is
  exact .left ⟨[], place, j, p, q, rfl, rfl, after⟩

/-- A node that is evaluated is listed after what is below it. -/
theorem append_self (ordered : Ordered trace) (from_ : trace.From 0) (w : World)
    (status : Status) : Ordered (trace ++ [([], .evaluated w status)]) := by
  refine List.pairwise_append.2 ⟨ordered, List.pairwise_singleton _ _, fun e mem e' mem' => ?_⟩
  obtain rfl := List.mem_singleton.1 mem'
  obtain ⟨j, q, is, -⟩ := from_ e mem
  obtain ⟨path, part⟩ := e
  subst is
  exact .evaluated ⟨j, q, rfl⟩

end Ordered

end Trace

open Trace (Ordered From)

variable {T : Type}

theorem from_cutsFrom (place : Nat) (trees : List (LiveTree T)) :
    (cutsFrom place trees).From place :=
  .of_startsAt (startsAt_cutsFrom place trees) (own_cutsFrom place trees)

theorem cutShort_of_mem_cutsFrom {place : Nat} {trees : List (LiveTree T)} {e : List Nat × Part}
    (mem : e ∈ cutsFrom place trees) : e.2 = .cutShort := by
  obtain ⟨path, -, rfl⟩ := List.mem_map.1 mem
  rfl

/-- The nodes of a tree that is cut short are listed in pre-order. -/
theorem ordered_cuts (t : LiveTree T) : (cuts t).Ordered := by
  induction t using Tree.induction with
  | step n children ih =>
    have below (place : Nat) : (cutsFrom place children).Ordered := by
      induction children generalizing place with
      | nil => exact .nil
      | cons c rest ih' =>
        obtain ⟨first, others⟩ := List.forall_mem_cons.1 ih
        rw [cutsFrom_cons]
        exact first.below_append (ih' others _) (from_cutsFrom _ _)
    refine List.pairwise_append.2 ⟨List.pairwise_singleton _ _, below 0, fun e mem e' mem' => ?_⟩
    obtain rfl := List.mem_singleton.1 mem
    obtain ⟨j, q, is, -⟩ := from_cutsFrom 0 children e' mem'
    have cut := cutShort_of_mem_cutsFrom mem'
    obtain ⟨path, part⟩ := e'
    subst is cut
    exact .cutShort ⟨j, q, rfl⟩

variable [Clock T]

section Evaluations

variable {time : TickTime T} {kind : CompositeKind} {cursor place next : Nat} {n : CompiledNode}
  {state state' : NodeState T} {children children' : List (LiveTree T)} {w w' : World}
  {status : Status} {trace : Trace}

theorem Proceeds.ordered (works : ∀ c ∈ children, ∀ w, (visits time c w).Ordered)
    (did : Proceeds time kind cursor place children w status next children' w' trace) :
    trace.Ordered := by
  induction did with
  | ended => exact .nil
  | skipped before later ih => exact ih (List.forall_mem_cons.1 works).2
  | running reached runs => exact (works _ List.mem_cons_self _).below _
  | settled reached settles => exact (works _ List.mem_cons_self _).below _
  | passed reached ends unsettled later ih =>
    obtain ⟨first, others⟩ := List.forall_mem_cons.1 works
    exact (first _).below_append (ih others) (.of_startsAt later.startsAt later.own)

theorem Acts.from (did : Acts time n w state children state' status children' w' trace) :
    trace.From 0 := by
  cases did with
  | composite is proceeds => exact .of_startsAt proceeds.startsAt proceeds.own
  | root is => exact .below 0 _
  | cutShort is entry => exact .below 0 _
  | proceeded is entry => exact .below 0 _
  | _ => exact nofun

theorem Acts.ordered (works : ∀ c ∈ children, ∀ w, (visits time c w).Ordered)
    (did : Acts time n w state children state' status children' w' trace) : trace.Ordered := by
  cases did with
  | composite is proceeds => exact proceeds.ordered works
  | root is => exact (works _ List.mem_cons_self _).below _
  | cutShort is entry => exact (ordered_cuts _).below _
  | proceeded is entry => exact (works _ List.mem_cons_self _).below _
  | _ => exact .nil

/-- The nodes that take part when a tree is evaluated are listed in order. -/
theorem ordered_visits (time : TickTime T) (t : LiveTree T) (w : World) :
    (visits time t w).Ordered := by
  induction t using Tree.induction generalizing w with
  | step n children ih =>
    obtain ⟨n, state⟩ := n
    obtain ⟨state', status, children', w', trace, did, -, traced⟩ := acts time n state children w
    rw [traced]
    exact (did.ordered ih).append_self did.from w status

/-- Every entry of a trace is about a node of the tree. -/
def Trace.Within (t : LiveTree T) (trace : Trace) : Prop := ∀ e ∈ trace, (t.at? e.1).isSome

omit [Clock T] in
theorem Trace.Within.below {t c : LiveTree T} {mine : Trace} (at_ : t.children[place]? = some c)
    (within : mine.Within c) : (mine.below place).Within t := by
  intro e mem
  obtain ⟨e', mem', rfl⟩ := List.mem_map.1 mem
  rw [Tree.at?, at_]
  exact within e' mem'

omit [Clock T] in
theorem Trace.Within.append {t : LiveTree T} {first others : Trace} (within : first.Within t)
    (later : others.Within t) : (first ++ others).Within t :=
  List.forall_mem_append.2 ⟨within, later⟩

omit [Clock T] in
theorem Trace.Within.self (t : LiveTree T) (part : Part) : Trace.Within t [([], part)] :=
  List.forall_mem_singleton.2 rfl

omit [Clock T] in
theorem within_cuts (t : LiveTree T) : (cuts t).Within t := by
  induction t using Tree.induction with
  | step n children ih =>
    have below (place : Nat) (trees : List (LiveTree T)) (stand : children.drop place = trees) :
        (cutsFrom place trees).Within (.node n children) := by
      induction trees generalizing place with
      | nil => exact nofun
      | cons c rest ih' =>
        obtain ⟨here, behind⟩ := drop_eq_cons stand
        rw [cutsFrom_cons]
        have first := ih c (List.mem_of_getElem? here)
        exact (first.below here).append (ih' _ behind)
    exact (Trace.Within.self _ _).append (below 0 children rfl)

theorem Proceeds.within {t : LiveTree T} (works : ∀ c ∈ children, ∀ w, (visits time c w).Within c)
    (stand : t.children.drop place = children)
    (did : Proceeds time kind cursor place children w status next children' w' trace) :
    trace.Within t := by
  induction did with
  | ended => exact nofun
  | skipped before later ih => exact ih (List.forall_mem_cons.1 works).2 (drop_eq_cons stand).2
  | running reached runs => exact .below (drop_eq_cons stand).1 (works _ List.mem_cons_self _)
  | settled reached settles => exact .below (drop_eq_cons stand).1 (works _ List.mem_cons_self _)
  | passed reached ends unsettled later ih =>
    obtain ⟨here, behind⟩ := drop_eq_cons stand
    obtain ⟨first, others⟩ := List.forall_mem_cons.1 works
    exact ((first _).below here).append (ih others behind)

/-- All nodes that take part when a tree is evaluated are nodes of the tree. -/
theorem within_visits (time : TickTime T) (t : LiveTree T) (w : World) :
    (visits time t w).Within t := by
  induction t using Tree.induction generalizing w with
  | step n children ih =>
    obtain ⟨n, state⟩ := n
    obtain ⟨state', status, children', w', trace, did, -, traced⟩ := acts time n state children w
    rw [traced]
    refine Trace.Within.append ?_ (.self _ _)
    cases did with
    | composite is proceeds => exact proceeds.within ih rfl
    | root is => exact Trace.Within.below rfl (ih _ List.mem_cons_self _)
    | cutShort is entry => exact Trace.Within.below rfl (within_cuts _)
    | proceeded is entry => exact Trace.Within.below rfl (ih _ List.mem_cons_self _)
    | _ => exact nofun

end Evaluations

/-! ## Reports -/

section Passes

variable {pass : Pass T} {t s : LiveTree T} {path : List Nat}

theorem Pass.ordered (pass : Pass T) (t : LiveTree T) : (pass.trace t).Ordered := by
  cases pass with
  | reset => exact ordered_cuts t
  | tick time w => exact ordered_visits time t w

theorem Pass.within (pass : Pass T) (t : LiveTree T) : (pass.trace t).Within t := by
  cases pass with
  | reset => exact within_cuts t
  | tick time w => exact within_visits time t w

/-- The nodes that are cleared are those that are listed as cut short. -/
theorem Pass.cleared_iff (at_ : t.at? path = some s) :
    pass.event path t = .cleared ↔ (path, .cutShort) ∈ pass.trace t := by
  obtain ⟨s', -, fate⟩ := pass.fate_at at_
  have listed : (path, Part.cutShort) ∈ pass.trace t ↔
      .cutShort ∈ ((pass.trace t).inside path).own := by
    rw [Trace.own_inside, List.mem_filterMap]
    simp
  rw [listed, Pass.event, Event.ofTrace]
  generalize (pass.trace t).inside path = trace at fate
  cases fate with
  | left => exact iff_of_false (fun eq => by cases eq) List.not_mem_nil
  | cutShort => simp
  | evaluated w => simp

/-- What is below a node that is cleared is cleared with it. -/
theorem Pass.cleared_below {below : LiveTree T} {more : List Nat} (at_ : t.at? path = some s)
    (cleared : pass.event path t = .cleared) (found : s.at? more = some below) :
    pass.event (path ++ more) t = .cleared := by
  obtain ⟨s', -, fate⟩ := pass.fate_at at_
  rw [Pass.event] at cleared
  rw [Pass.event, Trace.inside_append]
  generalize (pass.trace t).inside path = trace at fate cleared
  cases fate with
  | left => cases cleared
  | cutShort => rw [inside_cuts found, Event.ofTrace, own_cuts]
  | evaluated w =>
    rw [Event.ofTrace, own_visits] at cleared
    cases cleared

end Passes

/-- A trace in order is in post-order, unless a node was cut short together with one below it. -/
theorem Trace.Ordered.postOrder_iff {trace : Trace} (ordered : trace.Ordered) :
    (trace.map (·.1)).Pairwise PostOrder ↔
      ∀ p q, (p, Part.cutShort) ∈ trace → (q, Part.cutShort) ∈ trace → ¬ Below q p := by
  rw [List.pairwise_map]
  constructor
  · intro post p q mem_p mem_q below
    let either (a b : List Nat × Part) :=
      (Precedes a b ∧ PostOrder a.1 b.1) ∨ (Precedes b a ∧ PostOrder b.1 a.1)
    have symmetric : Std.Symm either := ⟨fun _ _ => Or.symm⟩
    have pairs : trace.Pairwise either := (ordered.and post).imp Or.inl
    have apart : (p, Part.cutShort) ≠ (q, .cutShort) := by
      rintro ⟨⟩
      exact below.asymm below
    rcases pairs.forall mem_p mem_q apart with ⟨-, post⟩ | ⟨before, -⟩
    · rcases post with left | above
      · exact below.not_right left
      · exact below.asymm above
    · cases before with
      | left left => exact below.not_left left
      | cutShort above => exact below.asymm above
  · intro whole
    refine List.Pairwise.imp_of_mem (fun {e e'} mem mem' precedes => ?_) ordered
    cases precedes with
    | left left => exact .inl left
    | evaluated below => exact .inr below
    | cutShort below => exact absurd below (whole _ _ mem mem')

/-- What a pass over a tree reports. -/
structure ReportedInOrder (pass : Pass T) (t : LiveTree T) (statuses : List (String × Status)) :
    Prop where
  /-- The nodes that took part and their statuses. -/
  listed : statuses = (pass.trace t).report t
  within : (pass.trace t).Within t
  ordered : (pass.trace t).Ordered
  /-- They are in post-order exactly if no node with children was cut short. -/
  postOrder : ((pass.trace t).map (·.1)).Pairwise PostOrder ↔
    ∀ path s, t.at? path = some s → pass.event path t = .cleared → s.children = []

theorem Pass.postOrder_iff (pass : Pass T) (t : LiveTree T) :
    ((pass.trace t).map (·.1)).Pairwise PostOrder ↔
      ∀ path s, t.at? path = some s → pass.event path t = .cleared → s.children = [] := by
  rw [(pass.ordered t).postOrder_iff]
  constructor
  · intro whole path s at_ cleared
    by_contra some_
    obtain ⟨c, rest, is⟩ := List.exists_cons_of_ne_nil some_
    have found : s.at? [0] = some c := Tree.at?_cons.2 ⟨c, by rw [is]; rfl, rfl⟩
    have at_c : t.at? (path ++ [0]) = some c := by
      rw [Tree.at?_append, at_]
      exact found
    refine whole path (path ++ [0]) ((Pass.cleared_iff at_).1 cleared) ?_ ⟨0, [], rfl⟩
    exact (Pass.cleared_iff at_c).1 (Pass.cleared_below at_ cleared found)
  · rintro leaves p q mem_p mem_q ⟨i, more, rfl⟩
    obtain ⟨s, at_s⟩ := Option.isSome_iff_exists.1 (pass.within t _ mem_p)
    obtain ⟨below, at_below⟩ := Option.isSome_iff_exists.1 (pass.within t _ mem_q)
    change t.at? p = some s at at_s
    change t.at? (p ++ i :: more) = some below at at_below
    rw [Tree.at?_append, at_s] at at_below
    obtain ⟨c, at_i, -⟩ := Tree.at?_cons.1 at_below
    rw [leaves p s at_s ((Pass.cleared_iff at_s).2 mem_p)] at at_i
    cases at_i

/-- The reports of a run are those of its passes, and each lists its nodes in order. -/
theorem reports_in_order (t : CompiledTree) (config : ExecutorConfig) (entropy : Nat)
    (s : SharedBlackboard) (calls : List (Executor.Call T)) :
    let e : Executor T := .new t config entropy
    let start := LiveTree.ofCompiled t.root
    (e.performAll s calls).reports.map (fun r => (r.tick, r.elapsed, r.statuses)) =
        reported start (e.passes s calls) ∧
      ∀ before pass, before ++ [pass] <+: e.passes s calls →
        ∀ tick now statuses, pass.shown (replay start before) = some (tick, now, statuses) →
          ReportedInOrder pass (replay start before) statuses := by
  intro e start
  have follows := Executor.follows_performAll e s calls
  refine ⟨follows.reports start rfl, fun before pass run tick now statuses shown => ?_⟩
  refine ⟨?_, pass.within _, pass.ordered _, pass.postOrder_iff _⟩
  cases pass with
  | reset => cases shown
  | tick time w =>
    obtain ⟨-, -, rfl⟩ := Prod.mk.inj (Option.some.inj shown)
    have fresh := follows.fresh time w (run.subset (List.mem_append_right _ List.mem_cons_self))
    have listed := visited_evaluate time (replay start before) w
    rw [Lists, fresh, List.nil_append] at listed
    exact listed

/-- Of the nodes of a tree that a report lists, each comes after those below it. -/
def TickReport.ChildrenFirst (t : CompiledTree) (r : TickReport T) : Prop :=
  ∀ path i more above below, t.root.at? path = some above →
    t.root.at? (path ++ i :: more) = some below →
      ¬ List.Sublist [above.label.id, below.label.id] (r.statuses.map (·.1))

/-- A sequence that is cut short is listed before its children. -/
theorem cut_short_before_children :
    let run := (Executor.new limitedTree {} 0 : Executor Number).performAll {}
      [.start, .tick 1, .tick 2]
    run.reports.map (·.statuses) =
        [[("done", .success), ("wait", .running), ("sequence", .running), ("limit", .running),
            ("root", .running)],
          [("sequence", .idle), ("done", .idle), ("wait", .idle), ("limit", .failure),
            ("root", .failure)]] ∧
      ¬ ∀ r ∈ run.reports, r.ChildrenFirst limitedTree := by
  intro run
  have shown : run.reports.map (·.statuses) =
      [[("done", .success), ("wait", .running), ("sequence", .running), ("limit", .running),
          ("root", .running)],
        [("sequence", .idle), ("done", .idle), ("wait", .idle), ("limit", .failure),
          ("root", .failure)]] := by
    decide +kernel
  refine ⟨shown, fun first => ?_⟩
  obtain ⟨r, mem, is⟩ : ∃ r ∈ run.reports, r.statuses = [("sequence", .idle), ("done", .idle),
      ("wait", .idle), ("limit", .failure), ("root", .failure)] := by
    rw [← List.mem_map, shown]
    exact List.mem_cons_of_mem _ List.mem_cons_self
  refine first r mem [0, 0] 0 [] _ _ rfl rfl ?_
  rw [is]
  decide

end BehaviorTree
