import BehaviorTree.Proofs.Execution.Answers

/-!
# The law of composites

A composite that is in the middle of its children has, over all its pending evaluations together,
gone on after exactly the children before its cursor, one after the other, and the last child that
it evaluated is the one at the cursor (`Underway`). One evaluation goes on from there (`Course`), and
what it gives is told by what its children gave since the composite last ended or was cleared
(`CompositeLaw`, `composite_law`).
-/

namespace BehaviorTree

variable {T : Type}

namespace CompositeKind

variable (kind : CompositeKind)

/-- The results of children one after the other that each let the composite go on. -/
def passed (first count : Nat) : List (Nat × Status) :=
  (List.range' first count).map (·, kind.goesOnAfter)

theorem eq_goesOnAfter {kind : CompositeKind} {status : Status} (ends : status ≠ .running)
    (unsettled : status ≠ kind.settlesOn) (answers : status ≠ .idle) :
    status = kind.goesOnAfter := by
  cases kind <;> cases status <;> simp_all [settlesOn, goesOnAfter]

theorem settlesOn_ne_goesOnAfter : kind.settlesOn ≠ kind.goesOnAfter := by
  cases kind <;> decide

variable {kind} {first count more i : Nat} {status : Status}

theorem passed_add :
    kind.passed first (count + more) =
      kind.passed first count ++ kind.passed (first + count) more := by
  rw [passed, passed, passed, ← List.map_append, List.range'_append_1]

theorem mem_passed :
    (i, status) ∈ kind.passed first count ↔
      status = kind.goesOnAfter ∧ first ≤ i ∧ i < first + count := by
  simp only [passed, List.mem_map, List.mem_range'_1, Prod.mk.injEq]
  constructor
  · rintro ⟨_, inside, rfl, rfl⟩
    exact ⟨rfl, inside⟩
  · rintro ⟨rfl, inside⟩
    exact ⟨i, inside, rfl, rfl⟩

theorem not_mem_passed (other : status ≠ kind.goesOnAfter) :
    (i, status) ∉ kind.passed first count :=
  fun mem => other (mem_passed.1 mem).1

theorem count_passed :
    (kind.passed first count).count (i, kind.goesOnAfter) =
      if first ≤ i ∧ i < first + count then 1 else 0 := by
  have distinct : (kind.passed first count).Nodup :=
    List.Nodup.map (fun _ _ same => (Prod.mk.inj same).1) List.nodup_range'
  split_ifs with inside
  · exact List.count_eq_one_of_mem distinct (mem_passed.2 ⟨rfl, inside⟩)
  · exact List.count_eq_zero_of_not_mem fun mem => inside (mem_passed.1 mem).2

theorem filter_passed :
    (kind.passed first count).filter (·.2 ≠ .running) = kind.passed first count := by
  refine List.filter_eq_self.2 fun result mem => ?_
  obtain ⟨i, status⟩ := result
  simp [(mem_passed.1 mem).1, kind.goesOnAfter_ne_running]

end CompositeKind

/-! ## One evaluation -/

/-- What evaluating `n` children from one of them on comes to: the status of the composite, where it
resumes, and what the children gave. -/
inductive Course (kind : CompositeKind) (first n : Nat) :
    Status → Nat → List (Nat × Status) → Prop
  | completes : Course kind first n kind.goesOnAfter 0 (kind.passed first (n - first))
  | stops (count : Nat) (inside : first + count < n) :
    Course kind first n .running (first + count)
      (kind.passed first count ++ [(first + count, .running)])
  | settles (count : Nat) (inside : first + count < n) :
    Course kind first n kind.settlesOn 0
      (kind.passed first count ++ [(first + count, kind.settlesOn)])

section Course

variable {kind : CompositeKind} {first n next : Nat} {status : Status}
  {results : List (Nat × Status)}

/-- The composite goes on after one more child. -/
theorem Course.cons (later : Course kind (first + 1) n status next results) (inside : first < n) :
    Course kind first n status next ((first, kind.goesOnAfter) :: results) := by
  have passed (count : Nat) : (first, kind.goesOnAfter) :: kind.passed (first + 1) count =
      kind.passed first (count + 1) := rfl
  cases later with
  | completes =>
    rw [passed, show n - (first + 1) + 1 = n - first by omega]
    exact .completes
  | stops count inside =>
    rw [← List.cons_append, passed, Nat.add_assoc, Nat.add_comm 1]
    exact .stops (count + 1) (by omega)
  | settles count inside =>
    rw [← List.cons_append, passed, Nat.add_assoc, Nat.add_comm 1]
    exact .settles (count + 1) (by omega)

theorem Proceeds.course [Clock T] {time : TickTime T} {cursor place : Nat}
    {children children' : List (LiveTree T)} {w w' : World} {trace : Trace}
    (did : Proceeds time kind cursor place children w status next children' w' trace)
    (answer : ∀ child ∈ children, ∀ w, (evaluate time child w).1.status ≠ .idle)
    (reached : cursor ≤ place + children.length) :
    Course kind (max cursor place) (place + children.length) status next trace.results := by
  induction did with
  | @ended place w =>
    rw [List.length_nil, Nat.add_zero] at reached ⊢
    rw [Nat.max_eq_right reached]
    have course : Course kind place place kind.goesOnAfter 0 (kind.passed place (place - place)) :=
      .completes
    rw [Nat.sub_self] at course
    exact course
  | @skipped place next child rest rest' w w' status trace before later ih =>
    rw [List.length_cons] at reached ⊢
    have course := ih (List.forall_mem_cons.1 answer).2 (by omega)
    rw [Nat.max_eq_left (by omega)] at course ⊢
    rw [show place + (rest.length + 1) = place + 1 + rest.length by omega]
    exact course
  | @running place child rest w from_ runs =>
    rw [Nat.max_eq_right from_, results_visits, runs, List.length_cons]
    exact .stops 0 (by omega)
  | @settled place child rest w from_ settles =>
    rw [Nat.max_eq_right from_, results_visits, settles, List.length_cons]
    exact .settles 0 (by omega)
  | @passed place next child rest rest' w w' status trace from_ ends unsettled later ih =>
    obtain ⟨first, others⟩ := List.forall_mem_cons.1 answer
    rw [List.length_cons] at reached ⊢
    have course := ih others (by omega)
    rw [Nat.max_eq_right (by omega), show place + 1 + rest.length = place + (rest.length + 1) by
      omega] at course
    rw [Nat.max_eq_right from_, Trace.results_append, results_visits,
      CompositeKind.eq_goesOnAfter ends unsettled (first w)]
    exact course.cons (by omega)

/-- The children are evaluated one after the other. -/
theorem Course.order (course : Course kind first n status next results) :
    results.map (·.1) = List.range' first results.length := by
  have passed (count : Nat) : (kind.passed first count).map (·.1) = List.range' first count := by
    rw [CompositeKind.passed, List.map_map]
    exact List.map_id _
  have length (count : Nat) : (kind.passed first count).length = count := by
    rw [CompositeKind.passed, List.length_map, List.length_range']
  cases course with
  | completes => rw [passed, length]
  | stops count inside =>
    rw [List.map_append, passed, List.length_append, length, List.length_singleton,
      List.range'_1_concat]
    rfl
  | settles count inside =>
    rw [List.map_append, passed, List.length_append, length, List.length_singleton,
      List.range'_1_concat]
    rfl

theorem Course.length_le (course : Course kind first n status next results) (le : first ≤ n) :
    first + results.length ≤ n := by
  cases course <;>
    simp only [CompositeKind.passed, List.length_append, List.length_map, List.length_range',
      List.length_singleton] <;> omega

theorem Course.length_pos (course : Course kind first n status next results) (lt : first < n) :
    0 < results.length := by
  cases course <;>
    simp only [CompositeKind.passed, List.length_append, List.length_map, List.length_range',
      List.length_singleton] <;> omega

/-- Only the children from the first one on are evaluated. -/
theorem Course.place (course : Course kind first n status next results) (le : first ≤ n) {i : Nat}
    (mem : i ∈ results.map (·.1)) : first ≤ i ∧ i < n := by
  rw [course.order, List.mem_range'_1] at mem
  have := course.length_le le
  omega

theorem Course.head? (course : Course kind first n status next results) (lt : first < n) :
    results.head?.map (·.1) = some first := by
  rw [← List.head?_map, course.order]
  obtain ⟨count, length⟩ := Nat.exists_eq_add_one_of_ne_zero (course.length_pos lt).ne'
  rw [length, List.range'_succ]
  rfl

theorem Course.answers (course : Course kind first n status next results) : status ≠ .idle := by
  cases course with
  | completes => exact kind.ne_idle.1
  | stops => decide
  | settles => exact kind.ne_idle.2

theorem Course.settles_iff (course : Course kind first n status next results) :
    status = kind.settlesOn ↔ ∃ i, (i, kind.settlesOn) ∈ results := by
  have passed (i count : Nat) : (i, kind.settlesOn) ∉ kind.passed first count :=
    CompositeKind.not_mem_passed kind.settlesOn_ne_goesOnAfter
  cases course with
  | completes => simp [passed, kind.settlesOn_ne_goesOnAfter.symm]
  | stops => simp [passed, kind.settlesOn_ne_running, kind.settlesOn_ne_running.symm]
  | settles => simp

/-- The child that settles the composite is the last one. -/
theorem Course.ends (course : Course kind first n status next results) {i : Nat}
    (mem : (i, kind.settlesOn) ∈ results) : results.getLast? = some (i, kind.settlesOn) := by
  have passed (count : Nat) : (i, kind.settlesOn) ∉ kind.passed first count :=
    CompositeKind.not_mem_passed kind.settlesOn_ne_goesOnAfter
  cases course with
  | completes => exact absurd mem (passed _)
  | stops => simp [passed, kind.settlesOn_ne_running] at mem
  | settles =>
    have last := (List.mem_append.1 mem).resolve_left (passed _)
    rw [List.getLast?_append, ← List.mem_singleton.1 last]
    rfl

/-- A child that runs is the one at which the composite resumes. -/
theorem Course.eq_of_running (course : Course kind first n status next results) {i : Nat}
    (mem : (i, .running) ∈ results) : status = .running ∧ i = next := by
  have passed (count : Nat) : (i, .running) ∉ kind.passed first count :=
    CompositeKind.not_mem_passed kind.goesOnAfter_ne_running.symm
  cases course with
  | completes => exact absurd mem (passed _)
  | stops => simpa [passed] using mem
  | settles => simp [passed, kind.settlesOn_ne_running.symm] at mem

/-- A composite that runs is at a child, and has gone on after those before it. -/
theorem Course.of_running (course : Course kind first n status next results)
    (runs : status = .running) : first ≤ next ∧ next < n ∧
      results = kind.passed first (next - first) ++ [(next, .running)] := by
  cases course with
  | completes => exact absurd runs kind.goesOnAfter_ne_running
  | stops count inside => exact ⟨Nat.le_add_right .., inside, by rw [Nat.add_sub_cancel_left]⟩
  | settles => exact absurd runs kind.settlesOn_ne_running

theorem Course.runs_iff (course : Course kind first n status next results) :
    status = .running ↔ ∃ i, results.getLast? = some (i, .running) := by
  constructor
  · intro runs
    obtain ⟨-, -, rfl⟩ := course.of_running runs
    exact ⟨next, by rw [List.getLast?_append]; rfl⟩
  · rintro ⟨i, last⟩
    exact (course.eq_of_running (List.mem_of_getLast? last)).1

/-- A composite that does not run begins anew. -/
theorem Course.ended (course : Course kind first n status next results)
    (ends : status ≠ .running) : next = 0 := by
  cases course with
  | stops => exact absurd rfl ends
  | _ => rfl

theorem Course.completes_iff (course : Course kind first n status next results) (le : first ≤ n) :
    status = kind.goesOnAfter ↔
      ∀ i, first ≤ i → i < n → results.count (i, kind.goesOnAfter) = 1 := by
  cases course with
  | completes =>
    refine iff_of_true rfl fun i from_ inside => ?_
    rw [CompositeKind.count_passed, if_pos ⟨from_, by omega⟩]
  | stops count inside =>
    refine iff_of_false kind.goesOnAfter_ne_running.symm fun all => ?_
    have here := all (first + count) (Nat.le_add_right ..) inside
    simp [List.count_append, CompositeKind.count_passed, kind.goesOnAfter_ne_running.symm] at here
  | settles count inside =>
    refine iff_of_false kind.settlesOn_ne_goesOnAfter fun all => ?_
    have here := all (first + count) (Nat.le_add_right ..) inside
    simp [List.count_append, CompositeKind.count_passed, kind.settlesOn_ne_goesOnAfter] at here

end Course

/-! ## The law -/

/-- What an evaluation of a composite with `n` children gives, after earlier ones since it last
ended or was cleared. -/
structure CompositeLaw (kind : CompositeKind) (n : Nat) (earlier : List (Evaluation T))
    (e : Evaluation T) : Prop where
  /-- The children are evaluated from left to right, from the first one on after which the composite
  has not gone on yet. -/
  order : e.children.map (·.1) = List.range'
    ((resultsOf earlier).countP (·.2 = kind.goesOnAfter)) e.children.length
  inside : ∀ result ∈ e.children, result.1 < n
  /-- A child that was running is evaluated again, before all others. -/
  resumes : ∀ last ∈ earlier.getLast?, ∀ i, (i, .running) ∈ last.children →
    e.children.head?.map (·.1) = some i
  /-- A child that stopped running is not evaluated again. -/
  finished : ∀ i status, (i, status) ∈ resultsOf earlier → status ≠ .running →
    i ∉ e.children.map (·.1)
  answers : e.status ≠ .idle
  settles : e.status = kind.settlesOn ↔ ∃ i, (i, kind.settlesOn) ∈ e.children
  /-- No child is evaluated after one that settles the composite. -/
  ends : ∀ i, (i, kind.settlesOn) ∈ e.children → e.children.getLast? = some (i, kind.settlesOn)
  completes : e.status = kind.goesOnAfter ↔
    ∀ i < n, (resultsOf (earlier ++ [e])).count (i, kind.goesOnAfter) = 1
  /-- The composite runs as long as the child that it has come to does. -/
  runs : e.status = .running ↔ ∃ i, e.children.getLast? = some (i, .running)

/-- A composite with `n` children is in the middle of them, at a cursor. -/
structure Underway (kind : CompositeKind) (n cursor : Nat) (earlier : List (Evaluation T)) :
    Prop where
  /-- It has gone on after the children before the cursor. -/
  finished : (resultsOf earlier).filter (·.2 ≠ .running) = kind.passed 0 cursor
  current : ∀ last ∈ earlier.getLast?, cursor < n ∧ ∀ i, (i, .running) ∈ last.children → i = cursor

section Law

variable {kind : CompositeKind} {n cursor next : Nat} {status : Status}
  {earlier : List (Evaluation T)} {e : Evaluation T}

namespace Underway

theorem nil : Underway kind n 0 ([] : List (Evaluation T)) :=
  ⟨rfl, fun _ mem => nomatch mem⟩

theorem cursor_le (underway : Underway kind n cursor earlier) : cursor ≤ n := by
  cases last : earlier.getLast? with
  | some last => exact Nat.le_of_lt (underway.current _ last).1
  | none =>
    have none := congrArg List.length underway.finished
    rw [List.getLast?_eq_none_iff.1 last, CompositeKind.passed, List.length_map,
      List.length_range'] at none
    exact none ▸ Nat.zero_le n

theorem countP_goesOnAfter (underway : Underway kind n cursor earlier) :
    (resultsOf earlier).countP (·.2 = kind.goesOnAfter) = cursor := by
  have here : (kind.passed 0 cursor).countP (·.2 = kind.goesOnAfter) = cursor := by
    rw [CompositeKind.passed, List.countP_map, List.countP_eq_length.2 (by simp),
      List.length_range']
  rw [← here, ← underway.finished, List.countP_filter]
  refine List.countP_congr fun result _ => ?_
  simp only [decide_eq_true_eq, Bool.and_eq_true, iff_self_and]
  exact fun goesOn => goesOn ▸ kind.goesOnAfter_ne_running

theorem lt_of_finished (underway : Underway kind n cursor earlier) {i : Nat}
    (mem : (i, status) ∈ resultsOf earlier) (ended : status ≠ .running) : i < cursor := by
  have finished : (i, status) ∈ kind.passed 0 cursor :=
    underway.finished ▸ List.mem_filter.2 ⟨mem, by simpa using ended⟩
  have inside := (CompositeKind.mem_passed.1 finished).2.2
  omega

/-- How often the composite has gone on after a child. -/
theorem count_goesOnAfter (underway : Underway kind n cursor earlier) (i : Nat) :
    (resultsOf earlier).count (i, kind.goesOnAfter) = if i < cursor then 1 else 0 := by
  have counted := List.count_filter (l := resultsOf earlier) (a := (i, kind.goesOnAfter))
    (p := (·.2 ≠ .running)) (by simpa using kind.goesOnAfter_ne_running)
  rw [← counted, underway.finished, CompositeKind.count_passed]
  simp

/-- The composite goes on with its children while it runs. -/
theorem goOn (underway : Underway kind n cursor earlier)
    (course : Course kind cursor n e.status next e.children) (runs : e.status = .running) :
    Underway kind n next (earlier ++ [e]) := by
  obtain ⟨le, inside, results⟩ := course.of_running runs
  refine ⟨?_, fun last mem => ?_⟩
  · have here : ([(next, .running)] : List (Nat × Status)).filter (·.2 ≠ .running) = [] := by simp
    rw [resultsOf_append, List.filter_append, underway.finished, results, List.filter_append,
      CompositeKind.filter_passed, here, List.append_nil]
    have added : kind.passed 0 (cursor + (next - cursor)) =
        kind.passed 0 cursor ++ kind.passed (0 + cursor) (next - cursor) :=
      CompositeKind.passed_add
    rw [Nat.zero_add, Nat.add_sub_cancel' le] at added
    exact added.symm
  · rw [List.getLast?_append] at mem
    obtain rfl : e = last := Option.some.inj mem
    exact ⟨inside, fun i running => (course.eq_of_running running).2⟩

/-- One evaluation keeps the law. -/
theorem law (underway : Underway kind n cursor earlier)
    (course : Course kind cursor n e.status next e.children) : CompositeLaw kind n earlier e where
  order := by rw [underway.countP_goesOnAfter]; exact course.order
  inside result mem := (course.place underway.cursor_le (List.mem_map_of_mem mem)).2
  resumes last mem i running := by
    obtain ⟨inside, current⟩ := underway.current last mem
    obtain rfl := current i running
    exact course.head? inside
  finished i status mem ended again := by
    have before := underway.lt_of_finished mem ended
    have place := course.place underway.cursor_le again
    omega
  answers := course.answers
  settles := course.settles_iff
  ends i := course.ends
  completes := by
    have counted (i : Nat) : (resultsOf (earlier ++ [e])).count (i, kind.goesOnAfter) =
        (if i < cursor then 1 else 0) + e.children.count (i, kind.goesOnAfter) := by
      rw [resultsOf_append, List.count_append, underway.count_goesOnAfter]
    rw [course.completes_iff underway.cursor_le]
    constructor
    · intro all i inside
      rw [counted]
      split_ifs with before
      · -- The composite went on after this child before, so it is not evaluated now.
        have absent : (i, kind.goesOnAfter) ∉ e.children := fun mem => by
          have place := course.place underway.cursor_le (List.mem_map_of_mem mem)
          omega
        rw [List.count_eq_zero_of_not_mem absent]
      · rw [all i (by omega) inside]
    · intro all i from_ inside
      have here := all i inside
      rw [counted, if_neg (by omega)] at here
      omega
  runs := course.runs_iff

end Underway

end Law

/-! ## Runs -/

section Runs

variable [Clock T]

/-- An evaluation of a composite keeps the law and leaves the composite where it is to resume. -/
theorem composite_step {kind : CompositeKind} {n : CompiledNode} {state : NodeState T}
    {children : List (LiveTree T)} {earlier : List (Evaluation T)}
    (is : n.behavior = .composite kind)
    (answer : ∀ time, ∀ child ∈ children, ∀ w, (evaluate time child w).1.status ≠ .idle)
    (underway : Underway kind children.length state.cursor earlier) (time : TickTime T)
    (w : World) :
    let e := Evaluation.of time (.node ⟨n, state⟩ children) w
    CompositeLaw kind children.length earlier e ∧
      Underway kind children.length
        (evaluate time (.node ⟨n, state⟩ children) w).1.label.state.cursor
        ((Event.evaluated e).after earlier) := by
  intro e
  obtain ⟨state', status, children', w', trace, did, evaluated, traced⟩ :=
    acts time n state children w
  cases did with
  | @composite kind' next status children children' w' trace is' proceeds =>
    obtain rfl : kind' = kind := by simpa [is] using is'.symm
    have course := proceeds.course (answer time)
      ((Nat.zero_add children.length).symm ▸ underway.cursor_le)
    rw [Nat.max_zero, Nat.zero_add] at course
    have results : e.children = trace.results := by
      show Trace.results (visits time (.node ⟨n, state⟩ children) w) = _
      rw [traced, Trace.results_append, Trace.results_self, List.append_nil]
    have gives : e.status = status := by
      show (evaluate time (.node ⟨n, state⟩ children) w).1.status = _
      rw [evaluated]
      rfl
    rw [← results, ← gives] at course
    refine ⟨underway.law course, ?_⟩
    rw [evaluated, Event.after]
    show Underway kind' children.length next _
    split_ifs with runs
    · exact underway.goOn course runs
    · rw [course.ended runs]
      exact .nil
  | _ => simp_all

/-- In every run of a tree that was built from a graph that passes validation, every evaluation of
every composite keeps the law. -/
theorem composite_law {b : TreeBuilder} {g : Graph} {snapshot : BlackboardSnapshot}
    {t : CompiledTree} (valid : g.validate = .ok ()) (built : b.build g snapshot = .ok t)
    {path : List Nat} {node : Tree CompiledNode} (at_ : t.root.at? path = some node)
    {kind : CompositeKind} (is : node.label.behavior = .composite kind) (config : ExecutorConfig)
    (entropy : Nat) (s : SharedBlackboard) (calls : List (Executor.Call T)) :
    let history := Executor.history t config entropy s calls path
    ∀ i e, history[i]? = some (.evaluated e) →
      CompositeLaw kind node.children.length (pending (history.take i)) e := by
  have onTop := (TreeBuilder.rootOnTop_of_build valid built).subtree at_
  refine evaluated_induction (P := fun earlier live =>
    Underway kind node.children.length live.label.state.cursor earlier) at_ ?_ ?_ _
  · obtain ⟨n, children⟩ := node
    exact .nil
  · rintro earlier ⟨⟨n, state⟩, children⟩ rfl underway time w
    have length : (LiveTree.compiled (.node ⟨n, state⟩ children)).children.length =
        children.length := by
      rw [LiveTree.children_compiled, List.length_map]
      rfl
    rw [length] at underway ⊢
    exact composite_step is (fun time child mem => onTop.child_ne_idle mem time) underway time w

end Runs

/-- A sequence goes on after its first child, stays with the second one for two ticks and fails with
the last one, and begins anew afterwards. -/
theorem composite_law_hold :
    let node (id typeId : String) (kind : NodeKind) (data : Dict Value)
        (children : List String) : Node :=
      ⟨id, .new typeId kind "", data, {}, children⟩
    let nodes := [node "root" "root" .root .empty ["list"],
      node "list" "sequence" .composite .empty ["go", "hold", "give up"],
      node "go" "succeed" .action .empty [],
      node "hold" "wait" .action (.ofList [("duration", .number 2)]) [],
      node "give up" "fail" .action .empty []]
    let g : Graph := { nodes := nodes, connections := [.toChild "root" "list",
      .toChild "list" "go", .toChild "list" "hold", .toChild "list" "give up"] }
    let calls : List (Executor.Call Number) := [.start, .tick 1, .tick 1, .tick 1, .stop, .step]
    ∃ t, g.validate = .ok () ∧ ({} : TreeBuilder).build g ⟨.empty, .empty⟩ = .ok t ∧
      let history := Executor.history t {} 0 {} calls [0]
      history.map Event.results? = [none,
        some ([(0, .success), (1, .running)], .running),
        some ([(1, .success), (2, .failure)], .failure),
        some ([(0, .success), (1, .running)], .running), none, none,
        some ([(0, .success), (1, .running)], .running)] ∧
      ∀ i e, history[i]? = some (.evaluated e) →
        CompositeLaw .sequence 3 (pending (history.take i)) e := by
  intro node nodes g calls
  have found : (({} : TreeBuilder).build g ⟨.empty, .empty⟩).toOption.map (fun t =>
      (t.root.at? [0]).map fun node =>
        (node.label.behavior matches .composite .sequence, node.children.length)) =
      some (some (true, 3)) := by
    decide +kernel
  have shown : (({} : TreeBuilder).build g ⟨.empty, .empty⟩).toOption.map (fun t =>
      (Executor.history t {} 0 {} calls [0]).map Event.results?) = some [none,
        some ([(0, .success), (1, .running)], .running),
        some ([(1, .success), (2, .failure)], .failure),
        some ([(0, .success), (1, .running)], .running), none, none,
        some ([(0, .success), (1, .running)], .running)] := by
    decide +kernel
  cases built : ({} : TreeBuilder).build g ⟨.empty, .empty⟩ with
  | error e => rw [built] at found; cases found
  | ok t =>
    simp only [built, Except.toOption, Option.map_some, Option.some.injEq] at found shown
    obtain ⟨list, at_, found⟩ := Option.map_eq_some_iff.1 found
    obtain ⟨is, length⟩ := Prod.mk.inj found
    have is : list.label.behavior = .composite .sequence := by
      split at is
      · assumption
      · cases is
    refine ⟨t, rfl, rfl, shown, ?_⟩
    rw [← length]
    exact composite_law (g := g) rfl built at_ is {} 0 {} calls

end BehaviorTree
