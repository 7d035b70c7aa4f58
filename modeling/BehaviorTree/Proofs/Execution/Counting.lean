import BehaviorTree.Proofs.Execution.Answers
import BehaviorTree.Proofs.Execution.Tolerance

/-!
# Repeat and retry count exactly

A repeat counts the successes of its child and a retry its failures, and each begins anew when it
ends or is cleared. What has been counted is told by the pending evaluations alone, so the decorator
ends on the very evaluation on which its child does so for the configured time (`counting_law`).
-/

namespace BehaviorTree

/-! ## Decorators that count -/

/-- A decorator that counts one status of its child and ends on the other one. The limit is a number
in a slot, with a standard value. -/
inductive Counts : DecoratorKind → Status → Status → String → Number → Prop
  | successes : Counts .repeat .success .failure "count" 1
  | failures : Counts .retry .failure .success "attempts" 3

/-- Whether a count is enough for a decorator to end. -/
def DecoratorKind.enough (kind : DecoratorKind) (limit : Number) (count : Nat) : Bool :=
  (kind != .repeat || Number.atMost 1 limit) && countReaches count limit

namespace Counts

variable {T : Type} [Clock T] {time : TickTime T} {kind : DecoratorKind} {counted other : Status}
  {slot : String} {standard limit : Number} {n : CompiledNode} {state : NodeState T} {w : World}
  {k : Nat}

theorem ne_running (counts : Counts kind counted other slot standard) :
    counted ≠ .running ∧ other ≠ .running ∧ counted ≠ other := by
  cases counts <;> decide

/-- Such a decorator always evaluates its child. -/
theorem enter (counts : Counts kind counted other slot standard) :
    ∃ limit, enterDecorator time kind n state w = .proceed state limit ∧
      ∀ k, 1 ≤ k → k < 2 ^ 32 → w.number n slot standard = .ofNat k → limit = .ofNat k := by
  cases counts with
  | successes => exact ⟨_, rfl, fun k _ _ reads => reads⟩
  | failures =>
    refine ⟨_, rfl, fun k positive few reads => ?_⟩
    have one := Number.is_ofNat_of_lt (n := 1) (by decide)
    have is := Number.is_ofNat_of_lt (n := k) (by omega)
    have atLeast : Number.atMost 1 (.ofNat k) = true := (one.atMost_iff is).2 positive
    have real : (1 : Number).isNaN = false := one.isNaN
    have above : ¬ Number.less (.ofNat k) 1 = true := fun below => by
      rw [Number.not_atMost_of_less below] at atLeast
      cases atLeast
    rw [reads, Number.maximum, is.isNaN, real, if_neg Bool.false_ne_true,
      if_neg Bool.false_ne_true, if_neg above]

theorem leave_running (counts : Counts kind counted other slot standard) :
    leaveDecorator time kind limit state .running = (.running, state) := by
  cases counts <;> rfl

theorem leave_other (counts : Counts kind counted other slot standard) :
    leaveDecorator time kind limit state other = (other, { state with counter := 0 }) := by
  cases counts <;> rfl

theorem leave_counted (counts : Counts kind counted other slot standard) :
    leaveDecorator time kind limit state counted =
      if kind.enough limit (state.counter + 1) then (counted, { state with counter := 0 })
      else (.running, { state with counter := state.counter + 1 }) := by
  cases counts with
  | successes => simp [leaveDecorator, DecoratorKind.enough]
  | failures => simp [leaveDecorator, DecoratorKind.enough]

/-- A limit is enough when the count comes up to it. -/
theorem enough_iff (kind : DecoratorKind) (positive : 1 ≤ k) (few : k < 2 ^ 32) {count : Nat}
    (le : count ≤ k) :
    kind.enough (.ofNat k) count = true ↔ count = k := by
  have one := Number.is_ofNat_of_lt (n := 1) (by decide)
  have is := Number.is_ofNat_of_lt (n := k) (by omega)
  have atLeast : Number.atMost 1 (.ofNat k) = true := (one.atMost_iff is).2 positive
  rw [DecoratorKind.enough, atLeast, Bool.or_true, Bool.true_and,
    countReaches_ofNat (by omega) (by omega)]
  omega

/-- Nothing is enough for a repeat whose count is below one. -/
theorem not_enough (below : Number.less limit 1 = true) (count : Nat) :
    DecoratorKind.enough .repeat limit count = false := by
  rw [DecoratorKind.enough, Number.not_atMost_of_less below]
  rfl

end Counts

/-! ## The law -/

/-- What an evaluation of a decorator that counts up to `k` gives, after earlier ones since it last
ended or was cleared. -/
structure CountLaw {T : Type} (counted other : Status) (k : Nat) (earlier : List (Evaluation T))
    (e : Evaluation T) : Prop where
  /-- The child is evaluated each time. -/
  child : ∃ status, e.children = [(0, status)]
  /-- The decorator ends on the evaluation on which the count is complete. -/
  complete : e.status = counted ↔ (0, counted) ∈ e.children ∧
    (resultsOf (earlier ++ [e])).count (0, counted) = k
  broken : e.status = other ↔ (0, other) ∈ e.children
  otherwise : e.status ≠ counted → e.status ≠ other → e.status = .running

section Law

variable {T : Type} [Clock T] {kind : DecoratorKind} {counted other : Status} {slot : String}
  {standard : Number} {n : CompiledNode} {k : Nat} {state : NodeState T}
  {children : List (LiveTree T)} {earlier : List (Evaluation T)}

/-- The counter holds what was counted in the evaluations pending. It is below the limit if that was
read in all of them. -/
structure Counting (counted : Status) (k : Nat) (reads : World → Prop) (counter : Nat)
    (earlier : List (Evaluation T)) : Prop where
  exact : (resultsOf earlier).count (0, counted) = counter
  below : (∀ e ∈ earlier, reads e.world) → counter < k

variable {reads : World → Prop} {e : Evaluation T} {limit : Number} {status : Status}
  {time : TickTime T} {w : World}

omit [Clock T] in
theorem Counting.nil (positive : 1 ≤ k) :
    Counting counted k reads 0 ([] : List (Evaluation T)) :=
  ⟨rfl, fun _ => positive⟩

/-- The status of a child is the one that is counted, the other one or running. -/
theorem Counts.answer_cases (counts : Counts kind counted other slot standard)
    (answers : status ≠ .idle) :
    status = .running ∨ status = counted ∨ status = other := by
  cases counts <;> cases status <;> simp_all

/-- One answer of the child keeps the law, if the limit is `k`. -/
theorem Counting.law (counting : Counting counted k reads state.counter earlier)
    (counts : Counts kind counted other slot standard) (positive : 1 ≤ k) (few : k < 2 ^ 32)
    (all : ∀ e ∈ earlier, reads e.world) (answers : status ≠ .idle)
    (children : e.children = [(0, status)])
    (gives : e.status = (leaveDecorator time kind (.ofNat k) state status).1) :
    CountLaw counted other k earlier e := by
  obtain ⟨counted_ne, other_ne, apart⟩ := counts.ne_running
  have results : (resultsOf (earlier ++ [e])).count (0, counted) =
      state.counter + [(0, status)].count (0, counted) := by
    rw [resultsOf_append, List.count_append, counting.exact, children]
  have below := counting.below all
  rcases counts.answer_cases answers with rfl | rfl | rfl
  · rw [counts.leave_running] at gives
    exact ⟨⟨_, children⟩, by simp [gives, children, counted_ne.symm, counted_ne],
      by simp [gives, children, other_ne.symm, other_ne], fun _ _ => gives⟩
  · have enough := Counts.enough_iff kind positive few (Nat.succ_le_of_lt below)
    have count : [(0, status)].count (0, status) = 1 := List.count_singleton_self
    rw [count] at results
    rw [counts.leave_counted] at gives
    by_cases complete : state.counter + 1 = k
    · rw [if_pos (enough.2 complete)] at gives
      exact ⟨⟨_, children⟩, by simp [gives, children, results, complete],
        by simp [gives, children, apart, apart.symm], fun ne => absurd gives ne⟩
    · rw [if_neg fun done => complete (enough.1 done)] at gives
      exact ⟨⟨_, children⟩, by simp [gives, results, complete, counted_ne.symm],
        by simp [gives, children, apart.symm, other_ne.symm], fun _ _ => gives⟩
  · rw [counts.leave_other] at gives
    exact ⟨⟨_, children⟩, by simp [gives, children, apart, apart.symm],
      by simp [gives, children], fun _ ne => absurd gives ne⟩

/-- It keeps the counter, whatever the limit. -/
theorem Counting.goOn (counting : Counting counted k reads state.counter earlier)
    (counts : Counts kind counted other slot standard) (positive : 1 ≤ k) (few : k < 2 ^ 32)
    (limits : reads e.world → limit = .ofNat k) (answers : status ≠ .idle)
    (children : e.children = [(0, status)])
    (gives : e.status = (leaveDecorator time kind limit state status).1) :
    Counting counted k reads (leaveDecorator time kind limit state status).2.counter
      ((Event.evaluated e).after earlier) := by
  obtain ⟨counted_ne, other_ne, apart⟩ := counts.ne_running
  have results : (resultsOf (earlier ++ [e])).count (0, counted) =
      state.counter + [(0, status)].count (0, counted) := by
    rw [resultsOf_append, List.count_append, counting.exact, children]
  rw [Event.after]
  rcases counts.answer_cases answers with rfl | rfl | rfl
  · rw [counts.leave_running] at gives ⊢
    rw [if_pos gives]
    refine ⟨?_, fun all => counting.below fun e mem => all e (List.mem_append_left _ mem)⟩
    simp [results, counted_ne.symm]
  · rw [counts.leave_counted] at gives ⊢
    split_ifs at gives ⊢ with enough runs runs
    · exact absurd (gives.symm.trans runs) counted_ne
    · exact .nil positive
    · refine ⟨by simp [results], fun all => ?_⟩
      have below := counting.below fun e mem => all e (List.mem_append_left _ mem)
      rw [limits (all e (by simp)),
        Counts.enough_iff kind positive few (Nat.succ_le_of_lt below)] at enough
      show state.counter + 1 < k
      omega
    · exact absurd gives runs
  · rw [counts.leave_other] at gives ⊢
    rw [if_neg fun runs => other_ne (gives.symm.trans runs)]
    exact .nil positive

section Runs

variable {b : TreeBuilder} {g : Graph} {snapshot : BlackboardSnapshot} {t : CompiledTree}
  {path : List Nat} {node : Tree CompiledNode}

/-- A law of a decorator, which has a child that always gives an answer. -/
theorem decorator_induction (valid : g.validate = .ok ()) (built : b.build g snapshot = .ok t)
    (at_ : t.root.at? path = some node) (is : node.label.behavior = .decorator kind)
    {P : List (Evaluation T) → NodeState T → Prop} {Q : List (Evaluation T) → Evaluation T → Prop}
    (start : P [] .initial)
    (step : ∀ {earlier state}, P earlier state → ∀ (child : LiveTree T) rest time w,
      (evaluate time child w).1.status ≠ .idle →
        let live : LiveTree T := .node ⟨node.label, state⟩ (child :: rest)
        let e := Evaluation.of time live w
        Q earlier e ∧ P ((Event.evaluated e).after earlier) (evaluate time live w).1.label.state)
    (passes : List (Pass T)) (i : Nat) (e : Evaluation T)
    (happens : (events path (LiveTree.ofCompiled t.root) passes)[i]? = some (.evaluated e)) :
    Q (pending ((events path (LiveTree.ofCompiled t.root) passes).take i)) e := by
  have onTop := (TreeBuilder.rootOnTop_of_build valid built).subtree at_
  have childs := TreeBuilder.decorates_of_build built node (Tree.mem_subtrees_of_at? at_) kind is
  refine evaluated_induction (P := fun earlier live => P earlier live.label.state) at_ ?_ ?_
    passes i e happens
  · obtain ⟨n, children⟩ := node
    exact start
  · rintro earlier ⟨⟨n, state⟩, children⟩ rfl holds time w
    cases children with
    | nil => exact absurd rfl childs
    | cons child rest =>
      exact step holds child rest time w (onTop.child_ne_idle List.mem_cons_self time w)

/-- A decorator that counts keeps the law in every run, wherever the limit has been read as the same
number since it last ended or was cleared. -/
theorem counting_law (valid : g.validate = .ok ()) (built : b.build g snapshot = .ok t)
    (at_ : t.root.at? path = some node) (counts : Counts kind counted other slot standard)
    (is : node.label.behavior = .decorator kind) (positive : 1 ≤ k) (few : k < 2 ^ 32)
    (passes : List (Pass T)) (i : Nat) (e : Evaluation T)
    (happens : (events path (LiveTree.ofCompiled t.root) passes)[i]? = some (.evaluated e)) :
    let earlier := pending ((events path (LiveTree.ofCompiled t.root) passes).take i)
    (∀ e' ∈ earlier ++ [e], e'.world.number node.label slot standard = .ofNat k) →
      CountLaw counted other k earlier e := by
  let reads (w : World) : Prop := w.number node.label slot standard = .ofNat k
  refine decorator_induction valid built at_ is
    (P := fun earlier state => Counting counted k reads state.counter earlier)
    (Q := fun earlier e => (∀ e' ∈ earlier ++ [e], reads e'.world) →
      CountLaw counted other k earlier e) (.nil positive) ?_ passes i e happens
  intro earlier state counting child rest time w answers
  obtain ⟨limit, entry, limits⟩ :
    ∃ limit, enterDecorator time kind node.label state w = .proceed state limit ∧ _ := counts.enter
  obtain ⟨evaluated, is_⟩ := evaluate_of_proceed is entry child rest
  dsimp only
  rw [is_, evaluated]
  refine ⟨fun all => ?_, ?_⟩
  · obtain ⟨before, now⟩ := List.forall_mem_append.1 all
    rw [limits k positive few (now _ List.mem_cons_self)]
    exact counting.law counts positive few before answers rfl rfl
  · exact counting.goOn counts positive few (limits k positive few) answers rfl rfl

/-- A repeat whose count is below one does not succeed. -/
theorem repeat_below_one (valid : g.validate = .ok ()) (built : b.build g snapshot = .ok t)
    (at_ : t.root.at? path = some node) (is : node.label.behavior = .decorator .repeat)
    (passes : List (Pass T)) (i : Nat) (e : Evaluation T)
    (happens : (events path (LiveTree.ofCompiled t.root) passes)[i]? = some (.evaluated e)) :
    Number.less (e.world.number node.label "count" 1) 1 = true → e.status ≠ .success := by
  refine decorator_induction valid built at_ is (P := fun _ _ => True)
    (Q := fun _ e => Number.less (e.world.number node.label "count" 1) 1 = true →
      e.status ≠ .success) trivial ?_ passes i e happens
  intro earlier state _ child rest time w answers
  have entry : enterDecorator time .repeat node.label state w =
    .proceed state (w.number node.label "count" 1) := rfl
  obtain ⟨-, is_⟩ := evaluate_of_proceed is entry child rest
  refine ⟨fun below => ?_, trivial⟩
  rw [is_] at below ⊢
  show (leaveDecorator time .repeat (w.number node.label "count" 1) state
    (evaluate time child w).1.status).1 ≠ .success
  rcases Counts.successes.answer_cases answers with status | status | status <;> rw [status]
  · rw [Counts.successes.leave_running]
    nofun
  · rw [Counts.successes.leave_counted, if_neg (by rw [Counts.not_enough below]; decide)]
    nofun
  · rw [Counts.successes.leave_other]
    nofun

end Runs

end Law

/-- In every run of a tree that was built from a graph that passes validation, a repeat whose count
reads as `k` ends with success exactly when its child has succeeded `k` times since the repeat last
ended or was cleared, fails exactly when its child does and runs otherwise; it does not succeed
where its count is below one. A retry does the same with success and failure exchanged. -/
theorem repeat_and_retry_count {T : Type} [Clock T] {b : TreeBuilder} {g : Graph}
    {snapshot : BlackboardSnapshot} {t : CompiledTree} (valid : g.validate = .ok ())
    (built : b.build g snapshot = .ok t) {path : List Nat} {node : Tree CompiledNode}
    (at_ : t.root.at? path = some node) (config : ExecutorConfig) (entropy : Nat)
    (s : SharedBlackboard) (calls : List (Executor.Call T)) :
    let history := Executor.history t config entropy s calls path
    (node.label.behavior = .decorator .repeat → ∀ i e, history[i]? = some (.evaluated e) →
      (∀ k, 1 ≤ k → k < 2 ^ 32 →
        (∀ e' ∈ pending (history.take i) ++ [e],
          e'.world.number node.label "count" 1 = .ofNat k) →
        CountLaw .success .failure k (pending (history.take i)) e) ∧
      (Number.less (e.world.number node.label "count" 1) 1 = true → e.status ≠ .success)) ∧
    (node.label.behavior = .decorator .retry → ∀ i e, history[i]? = some (.evaluated e) →
      ∀ k, 1 ≤ k → k < 2 ^ 32 →
        (∀ e' ∈ pending (history.take i) ++ [e],
          e'.world.number node.label "attempts" 3 = .ofNat k) →
        CountLaw .failure .success k (pending (history.take i)) e) := by
  refine ⟨fun is i e happens => ⟨fun k positive few reads => ?_, fun below => ?_⟩,
    fun is i e happens k positive few reads => ?_⟩
  · exact counting_law valid built at_ .successes is positive few _ i e happens reads
  · exact repeat_below_one valid built at_ is _ i e happens below
  · exact counting_law valid built at_ .failures is positive few _ i e happens reads

/-- What is read on every evaluation of a node in a run. -/
def Executor.readsAlways {T : Type} [Clock T] (t : CompiledTree) (calls : List (Executor.Call T))
    (path : List Nat) (n : CompiledNode) (slot : String) (standard x : Number) : Bool :=
  (Executor.history t {} 0 {} calls path).all fun event =>
    match event with
    | .evaluated e => e.world.number n slot standard == x
    | _ => true

theorem Executor.reads_of_readsAlways {T : Type} [Clock T] {t : CompiledTree}
    {calls : List (Executor.Call T)} {path : List Nat} {n : CompiledNode} {slot : String}
    {standard x : Number} (always : readsAlways t calls path n slot standard x = true) {i : Nat}
    {e : Evaluation T} (happens : (history t {} 0 {} calls path)[i]? = some (.evaluated e)) :
    ∀ e' ∈ pending ((history t {} 0 {} calls path).take i) ++ [e],
      e'.world.number n slot standard = x := by
  have each (e' : Evaluation T) (mem : .evaluated e' ∈ history t {} 0 {} calls path) :
      e'.world.number n slot standard = x := by
    simpa using List.all_eq_true.1 always _ mem
  refine List.forall_mem_append.2 ⟨fun e' mem => each e' ?_, fun e' mem => ?_⟩
  · exact List.mem_of_mem_take (evaluated_mem_of_mem_pending mem)
  · rw [List.mem_singleton.1 mem]
    exact each e (List.mem_of_getElem? happens)

/-- A repeat that succeeds in its second tick, and a retry after it that fails in the third one. -/
theorem repeat_and_retry_count_drill :
    let node (id typeId : String) (kind : NodeKind) (data : Dict Value)
        (children : List String) : Node :=
      ⟨id, .new typeId kind "", data, {}, children⟩
    let nodes := [node "root" "root" .root .empty ["list"],
      node "list" "sequence" .composite .empty ["twice", "persist"],
      node "twice" "repeat" .decorator (.ofList [("count", .number 2)]) ["work"],
      node "work" "succeed" .action .empty [],
      node "persist" "retry" .decorator (.ofList [("attempts", .number 2)]) ["break"],
      node "break" "fail" .action .empty []]
    let g : Graph := { nodes := nodes, connections := [.toChild "root" "list",
      .toChild "list" "twice", .toChild "twice" "work", .toChild "list" "persist",
      .toChild "persist" "break"] }
    let calls : List (Executor.Call Number) :=
      [.start, .tick 1, .tick 1, .tick 1, .tick 1, .stop, .step]
    ∃ t, g.validate = .ok () ∧ ({} : TreeBuilder).build g ⟨.empty, .empty⟩ = .ok t ∧
      let twice := Executor.history t {} 0 {} calls [0, 0]
      let persist := Executor.history t {} 0 {} calls [0, 1]
      (twice.map Event.results? = [none, some ([(0, .success)], .running),
          some ([(0, .success)], .success), none, some ([(0, .success)], .running), none, none,
          some ([(0, .success)], .running)] ∧
        ∀ i e, twice[i]? = some (.evaluated e) →
          CountLaw .success .failure 2 (pending (twice.take i)) e) ∧
      (persist.map Event.results? = [none, none, some ([(0, .failure)], .running),
          some ([(0, .failure)], .failure), none, none, none, none] ∧
        ∀ i e, persist[i]? = some (.evaluated e) →
          CountLaw .failure .success 2 (pending (persist.take i)) e) := by
  intro node nodes g calls
  have found : (({} : TreeBuilder).build g ⟨.empty, .empty⟩).toOption.map (fun t =>
      ((t.root.at? [0, 0]).map fun node => (node.label.behavior matches .decorator .repeat) &&
        Executor.readsAlways t calls [0, 0] node.label "count" 1 2,
      (t.root.at? [0, 1]).map fun node => (node.label.behavior matches .decorator .retry) &&
        Executor.readsAlways t calls [0, 1] node.label "attempts" 3 2)) =
      some (some true, some true) := by
    decide +kernel
  have shown : (({} : TreeBuilder).build g ⟨.empty, .empty⟩).toOption.map (fun t =>
      (Executor.history t {} 0 {} calls [0, 0]).map Event.results?) =
      some [none, some ([(0, .success)], .running), some ([(0, .success)], .success), none,
        some ([(0, .success)], .running), none, none, some ([(0, .success)], .running)] := by
    decide +kernel
  have shown' : (({} : TreeBuilder).build g ⟨.empty, .empty⟩).toOption.map (fun t =>
      (Executor.history t {} 0 {} calls [0, 1]).map Event.results?) =
      some [none, none, some ([(0, .failure)], .running), some ([(0, .failure)], .failure), none,
        none, none, none] := by
    decide +kernel
  cases built : ({} : TreeBuilder).build g ⟨.empty, .empty⟩ with
  | error e => rw [built] at found; cases found
  | ok t =>
    simp only [built, Except.toOption, Option.map_some, Option.some.injEq, Prod.mk.injEq]
      at found shown shown'
    obtain ⟨twice, persist⟩ := found
    obtain ⟨twice, at_, is⟩ := Option.map_eq_some_iff.1 twice
    obtain ⟨persist, at', is'⟩ := Option.map_eq_some_iff.1 persist
    obtain ⟨is, reads⟩ := Bool.and_eq_true_iff.1 is
    obtain ⟨is', reads'⟩ := Bool.and_eq_true_iff.1 is'
    have is : twice.label.behavior = .decorator .repeat := by
      split at is
      · assumption
      · cases is
    have is' : persist.label.behavior = .decorator .retry := by
      split at is'
      · assumption
      · cases is'
    have law := repeat_and_retry_count (g := g) rfl built at_ {} 0 {} calls
    have law' := repeat_and_retry_count (g := g) rfl built at' {} 0 {} calls
    refine ⟨t, rfl, rfl, ⟨shown, fun i e happens => ?_⟩, shown', fun i e happens => ?_⟩
    · exact (law.1 is i e happens).1 2 (by decide) (by decide)
        (Executor.reads_of_readsAlways reads happens)
    · exact law'.2 is' i e happens 2 (by decide) (by decide)
        (Executor.reads_of_readsAlways reads' happens)

end BehaviorTree
