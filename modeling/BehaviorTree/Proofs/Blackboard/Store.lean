import BehaviorTree.Proofs.Blackboard.Types
import Mathlib.Data.List.Nodup

/-!
# The typed store

Whatever is asked of a blackboard, its variables stay under their names and scopes, with values
that fit; what is rejected leaves it as it was; and what it lists can be defined anew, in any
order, on an empty one (`Blackboard.store_stays_typed`). The last of these follows from the first:
nothing else about a blackboard is needed for its variables to be accepted again.
-/

namespace BehaviorTree.Blackboard

open Checks

variable {b b' : Blackboard} {name : String} {scope : Scope}

theorem contains_eq_false_iff : b.contains name scope = false ↔ b.find? name scope = none := by
  rw [contains, Dict.contains, find?, Option.isSome_eq_false_iff, Option.isNone_iff_eq_none]

theorem withVars_vars (b : Blackboard) (scope : Scope) : b.withVars scope (b.vars scope) = b := by
  cases scope <;> rfl

theorem withVars_withVars (b : Blackboard) (scope : Scope) (vars vars' : Dict Variable) :
    (b.withVars scope vars).withVars scope vars' = b.withVars scope vars' := by
  cases scope <;> rfl

/-! ## Calls -/

/-- An answer, with the blackboard after it. -/
def answered (b : Blackboard) :
    Except BlackboardError Blackboard → Except BlackboardError Unit × Blackboard
  | .ok after => (.ok (), after)
  | .error e => (.error e, b)

/-- Renaming on the blackboard itself. The variable is taken out first, and only then is it known
whether there was one. -/
def renameInPlace (b : Blackboard) (former current : String) (scope : Scope) :
    Except BlackboardError Unit × Blackboard :=
  if b.contains current scope then (.error (.duplicateVariable current scope), b)
  else
    let others := b.withVars scope ((b.vars scope).erase former)
    match b.find? former scope with
    | none => (.error (.unknownVariable former scope), others)
    | some v => (.ok (), (others.withVars scope
        ((others.vars scope).insert current { v with name := current })).raise
          (.renamed former current scope))

/-- A variable that is not there leaves nothing to put back. -/
theorem renameInPlace_eq (b : Blackboard) (former current : String) (scope : Scope) :
    b.renameInPlace former current scope = b.answered (b.rename former current scope) := by
  unfold renameInPlace rename
  split
  · rfl
  · cases found : b.find? former scope with
    | none =>
      have same : (b.vars scope).erase former = b.vars scope := Dict.erase_of_free found
      dsimp only
      rw [same, withVars_vars]
      rfl
    | some v =>
      dsimp only
      rw [withVars_withVars, vars_withVars, if_pos rfl]
      rfl

/-- What can be asked of a blackboard, of which snapshots are taken now and then. -/
inductive Call where
  | define (name : String) (type : ValueType) (initial : Value) (scope : Scope)
  | set (name : String) (value : Value) (scope : Scope)
  | remove (name : String) (scope : Scope)
  | rename (former current : String) (scope : Scope)
  | enqueue (name : String) (value : Value) (scope : Scope)
  | applyQueue
  | snapshot
  /-- Restores one of the snapshots taken, the first one taken being the one at place zero. -/
  | restore (place : Nat)

/-- A blackboard and the snapshots taken of it, first one first. -/
structure Session where
  board : Blackboard := {}
  taken : List BlackboardSnapshot := []

namespace Session

/-- What a call answers, and what it leaves. -/
def perform (s : Session) : Call → Except BlackboardError Unit × Session
  | .define name type initial scope =>
    (s.board.answered (s.board.define name type initial scope)).map id
      fun board => { s with board := board }
  | .set name value scope => (.ok (), { s with board := (s.board.set name value scope).2 })
  | .remove name scope => (.ok (), { s with board := (s.board.remove name scope).2 })
  | .rename former current scope =>
    (s.board.renameInPlace former current scope).map id fun board => { s with board := board }
  | .enqueue name value scope => (.ok (), { s with board := s.board.enqueue name value scope })
  | .applyQueue => (.ok (), { s with board := s.board.applyQueue.2 })
  | .snapshot => (.ok (), { s with taken := s.taken ++ [s.board.snapshot] })
  | .restore place => match s.taken[place]? with
    | none => (.ok (), s)
    | some earlier => (.ok (), { s with board := s.board.restore earlier })

/-- The session after calls one after the other, the rejected ones included. -/
def performAll (s : Session) (calls : List Call) : Session :=
  calls.foldl (fun s call => (s.perform call).2) s

/-- The blackboard and the snapshots are well typed. -/
structure Typed (s : Session) : Prop where
  board : s.board.Typed
  taken : ∀ earlier ∈ s.taken, earlier.Typed

variable {s : Session}

theorem typed_new : Typed {} where
  board scope := by cases scope <;> exact typedVars_empty _
  taken _ member := nomatch member

/-- What is asked of the blackboard is done, or the session stays as it is. -/
theorem perform_answered (result : Except BlackboardError Blackboard) :
    ((s.board.answered result).map id fun board => { s with board := board }) =
      match result with
      | .ok after => (.ok (), { s with board := after })
      | .error e => (.error e, s) := by
  cases result <;> rfl

/-- A call that is rejected changes nothing. -/
theorem perform_rejected {call : Call} {e : BlackboardError}
    (rejected : (s.perform call).1 = .error e) : (s.perform call).2 = s := by
  cases call with
  | define name type initial scope =>
    rw [perform, perform_answered] at rejected ⊢
    cases done : s.board.define name type initial scope with
    | error e => rfl
    | ok after =>
      rw [done] at rejected
      cases rejected
  | rename former current scope =>
    rw [perform, renameInPlace_eq, perform_answered] at rejected ⊢
    cases done : s.board.rename former current scope with
    | error e => rfl
    | ok after =>
      rw [done] at rejected
      cases rejected
  | restore place =>
    rw [perform] at rejected
    split at rejected <;> cases rejected
  | set | remove | enqueue | applyQueue | snapshot => cases rejected

/-- No call leads away from well-typed sessions. -/
theorem Typed.perform (typed : s.Typed) (call : Call) : (s.perform call).2.Typed := by
  have changed {after : Blackboard} (kept : after.Typed) : Typed { s with board := after } :=
    ⟨kept, typed.taken⟩
  cases call with
  | define name type initial scope =>
    rw [Session.perform, perform_answered]
    cases done : s.board.define name type initial scope with
    | error e => exact typed
    | ok after => exact changed (typed.board.define done)
  | set name value scope => exact changed (typed.board.set name value scope)
  | remove name scope => exact changed (typed.board.remove name scope)
  | rename former current scope =>
    rw [Session.perform, renameInPlace_eq, perform_answered]
    cases done : s.board.rename former current scope with
    | error e => exact typed
    | ok after => exact changed (typed.board.rename done)
  | enqueue name value scope => exact changed (typed.board.of_vars rfl rfl)
  | applyQueue => exact changed typed.board.applyQueue
  | snapshot =>
    refine ⟨typed.board, fun earlier member => ?_⟩
    rcases List.mem_append.1 member with before | now
    · exact typed.taken earlier before
    · exact List.mem_singleton.1 now ▸ typed.board.snapshot
  | restore place =>
    rw [Session.perform]
    cases found : s.taken[place]? with
    | none => exact typed
    | some earlier =>
      exact changed (typed.board.restore (typed.taken earlier (List.mem_of_getElem? found)))

/-- No calls lead away from well-typed sessions. -/
theorem Typed.performAll (typed : s.Typed) (calls : List Call) : (s.performAll calls).Typed := by
  induction calls generalizing s with
  | nil => exact typed
  | cons call rest ih => exact ih (typed.perform call)

end Session

/-! ## Defining anew what is listed -/

/-- Defines variables one after the other. -/
def defineAll (b : Blackboard) (vars : List Variable) : Except BlackboardError Blackboard :=
  vars.foldlM (fun b v => b.define v.name v.type v.value v.scope) b

/-- Variables that fit, each under a name of its own that is free, are all defined, and found under
their names. -/
theorem exists_defineAll {vars : List Variable} (fits : ∀ v ∈ vars, v.Fits)
    (distinct : (vars.map fun v => (v.name, v.scope)).Nodup)
    (free : ∀ v ∈ vars, b.find? v.name v.scope = none) :
    ∃ after, b.defineAll vars = .ok after ∧ ∀ name scope v, after.find? name scope = some v ↔
      b.find? name scope = some v ∨ v ∈ vars ∧ v.name = name ∧ v.scope = scope := by
  induction vars generalizing b with
  | nil => exact ⟨b, rfl, by simp⟩
  | cons v rest ih =>
    obtain ⟨here, distinct⟩ := List.nodup_cons.1 distinct
    obtain ⟨fitsHere, fits⟩ := List.forall_mem_cons.1 fits
    obtain ⟨freeHere, free⟩ := List.forall_mem_cons.1 free
    let stored : Blackboard := (b.store v).raise (.defined v.name v.scope)
    have first : b.define v.name v.type v.value v.scope = .ok stored :=
      define_eq_ok.2 ⟨contains_eq_false_iff.2 freeHere, fitsHere, rfl⟩
    have found (name : String) (scope : Scope) : stored.find? name scope =
        if name = v.name ∧ scope = v.scope then some v else b.find? name scope := by
      rw [find?_raise, find?_store]
    -- Only one name is taken now, and none of the rest has it.
    have still : ∀ w ∈ rest, stored.find? w.name w.scope = none := by
      intro w member
      rw [found, if_neg]
      · exact free w member
      · rintro ⟨sameName, sameScope⟩
        exact here (List.mem_map.2 ⟨w, member, Prod.ext sameName sameScope⟩)
    obtain ⟨after, others, listed⟩ := ih fits distinct still
    refine ⟨after, foldlM_cons_eq_ok.2 ⟨stored, first, others⟩, fun name scope w => ?_⟩
    rw [listed, found]
    by_cases same : name = v.name ∧ scope = v.scope
    · obtain ⟨rfl, rfl⟩ := same
      simp only [and_self, if_true, freeHere, reduceCtorEq, false_or, Option.some.injEq,
        List.mem_cons, or_and_right]
      refine or_congr ⟨?_, fun both => both.1.symm⟩ Iff.rfl
      rintro rfl
      exact ⟨rfl, rfl, rfl⟩
    · simp only [if_neg same, List.mem_cons, or_and_right]
      have other : ¬ (w = v ∧ w.name = name ∧ w.scope = scope) := by
        rintro ⟨rfl, rfl, rfl⟩
        exact same ⟨rfl, rfl⟩
      simp only [other, false_or]

/-- What a well-typed blackboard lists is what is found. -/
theorem Typed.mem_list (typed : b.Typed) {v : Variable} :
    v ∈ b.list scope ↔ b.find? v.name v.scope = some v ∧ v.scope = scope := by
  rw [list, Dict.mem_values]
  constructor
  · rintro ⟨name, found⟩
    obtain ⟨rfl, rfl, -⟩ := typed scope name v found
    exact ⟨found, rfl⟩
  · rintro ⟨found, rfl⟩
    exact ⟨v.name, found⟩

theorem Typed.nodup_list (typed : b.Typed) (scope : Scope) :
    ((b.list scope).map fun v => (v.name, v.scope)).Nodup := by
  have names : (b.list scope).map (·.name) = (b.vars scope).keys := by
    rw [list, Dict.values, Dict.keys, List.map_map]
    apply List.map_congr_left
    rintro ⟨name, v⟩ member
    exact (typed scope name v (Dict.mem_entries.1 member)).1
  apply List.Nodup.of_map Prod.fst
  rw [List.map_map]
  exact names ▸ (b.vars scope).nodup_keys

/-- The variables that a well-typed blackboard lists, in any order, make it anew. -/
theorem Typed.defineAll_listed (typed : b.Typed) {vars : List Variable}
    (listed : vars.Perm (b.list .tree ++ b.list .project)) :
    ∃ after, ({} : Blackboard).defineAll vars = .ok after ∧
      after.tree = b.tree ∧ after.project = b.project := by
  have member (v : Variable) : v ∈ vars ↔ b.find? v.name v.scope = some v := by
    rw [listed.mem_iff, List.mem_append, typed.mem_list, typed.mem_list, ← and_or_left]
    refine and_iff_left ?_
    cases v.scope <;> simp
  have distinct : (vars.map fun v => (v.name, v.scope)).Nodup := by
    rw [(listed.map _).nodup_iff, List.map_append]
    refine (typed.nodup_list .tree).append (typed.nodup_list .project) ?_
    intro key inTree inProject
    obtain ⟨v, ofTree, rfl⟩ := List.mem_map.1 inTree
    obtain ⟨w, ofProject, same⟩ := List.mem_map.1 inProject
    have scopes : w.scope = v.scope := congrArg Prod.snd same
    rw [(typed.mem_list.1 ofTree).2, (typed.mem_list.1 ofProject).2] at scopes
    cases scopes
  have fits : ∀ v ∈ vars, v.Fits := fun v inside =>
    (typed v.scope v.name v ((member v).1 inside)).2.2
  have free : ∀ v ∈ vars, ({} : Blackboard).find? v.name v.scope = none := fun v _ => by
    cases v.scope <;> rfl
  obtain ⟨after, defined, found⟩ := exists_defineAll fits distinct free
  have same (scope : Scope) : after.vars scope = b.vars scope := by
    apply Dict.ext_get?
    intro name
    apply Option.ext
    intro v
    have empty : ({} : Blackboard).find? name scope = none := by cases scope <;> rfl
    refine (found name scope v).trans ?_
    rw [empty, member]
    constructor
    · rintro (impossible | ⟨here, rfl, rfl⟩)
      · cases impossible
      · exact here
    · intro here
      obtain ⟨rfl, rfl, -⟩ := typed scope name v here
      exact .inr ⟨here, rfl, rfl⟩
  exact ⟨after, defined, same .tree, same .project⟩

/-- After any calls on an empty blackboard, each variable stands under its name and scope, with
null or a value of its type unless any type will do; a call that is rejected changes nothing; and
the variables listed, in any order, make the two scopes anew. -/
theorem store_stays_typed (calls : List Call) :
    let s := ({} : Session).performAll calls
    (∀ name scope v, s.board.find? name scope = some v → v.name = name ∧ v.scope = scope ∧
        (v.value.isNull = true ∨ v.type = .any ∨ v.type = v.value.inferType scope)) ∧
      (∀ call e, (s.perform call).1 = .error e → (s.perform call).2 = s) ∧
      ∀ vars : List Variable, vars.Perm (s.board.list .tree ++ s.board.list .project) →
        ∃ after, ({} : Blackboard).defineAll vars = .ok after ∧
          after.tree = s.board.tree ∧ after.project = s.board.project := by
  intro s
  have typed : s.Typed := Session.typed_new.performAll calls
  refine ⟨?_, fun call e => Session.perform_rejected, fun vars => typed.board.defineAll_listed⟩
  intro name scope v found
  obtain ⟨rfl, rfl, any | null | fits⟩ := typed.board scope name v found
  · exact ⟨rfl, rfl, .inr (.inl any)⟩
  · exact ⟨rfl, rfl, .inl null⟩
  · exact ⟨rfl, rfl, .inr (.inr fits.symm)⟩

/-- Calls on two variables, of which one waits to be written, with a rename that is rejected. -/
def routeCalls : List Call :=
  [.define "speed" .number .null .tree, .snapshot, .set "speed" (.string "fast") .tree,
    .rename "pace" "step" .tree, .rename "speed" "pace" .tree,
    .enqueue "route" (.array []) .project, .applyQueue, .restore 0]

/-- A number that holds null is a number still when it comes back, what waited is written where
nothing was, and the two can be defined anew the other way round. -/
theorem store_stays_typed_route :
    let s := ({} : Session).performAll routeCalls
    let speed : Variable := ⟨"speed", .tree, .number, .null⟩
    let route : Variable := ⟨"route", .project, .array, .array []⟩
    s.board.find? "speed" .tree = some speed ∧ s.board.find? "pace" .tree = none ∧
      (s.perform (.rename "pace" "step" .tree)).2 = s ∧
      ∃ after, ({} : Blackboard).defineAll [route, speed] = .ok after ∧
        after.tree = s.board.tree ∧ after.project = s.board.project := by
  intro s speed route
  obtain ⟨-, unchanged, anew⟩ := store_stays_typed routeCalls
  refine ⟨by decide +kernel, by decide +kernel, ?_, ?_⟩
  · exact unchanged _ (.unknownVariable "pace" .tree) (by decide +kernel)
  · exact anew [route, speed] (by decide +kernel)

end BehaviorTree.Blackboard
