import BehaviorTree.Blackboard.Basic
import BehaviorTree.Proofs.Checks
import Mathlib.Logic.Relation

/-!
# Well-typed blackboards

Defining a variable checks its first value against the declared type, and later writes go by the
value, so what is stored always fits (`Blackboard.Typed`). `Change` lists what may happen to a
blackboard; each of these keeps it well typed, given that what is restored was.
-/

namespace BehaviorTree

/-- A variable holds null or a value of its type. -/
def Variable.Fits (v : Variable) : Prop :=
  v.type = .any ∨ v.value.isNull = true ∨ v.value.inferType v.scope = v.type

/-- Variables of one scope, each under its name and with a value that fits. -/
def TypedVars (scope : Scope) (vars : Dict Variable) : Prop :=
  ∀ name v, vars.get? name = some v → v.name = name ∧ v.scope = scope ∧ v.Fits

theorem typedVars_empty (scope : Scope) : TypedVars scope .empty := fun _ _ found => nomatch found

theorem TypedVars.insert {scope : Scope} {vars : Dict Variable} (typed : TypedVars scope vars)
    {v : Variable} (same : v.scope = scope) (fits : v.Fits) :
    TypedVars scope (vars.insert v.name v) := by
  intro name w found
  by_cases here : name = v.name
  · subst here
    rw [Dict.get?_insert_self] at found
    obtain rfl := Option.some.inj found
    exact ⟨rfl, same, fits⟩
  · rw [Dict.get?_insert_of_ne _ here] at found
    exact typed name w found

theorem TypedVars.erase {scope : Scope} {vars : Dict Variable} (typed : TypedVars scope vars)
    (key : String) : TypedVars scope (vars.erase key) := by
  intro name w found
  by_cases here : name = key
  · subst here
    rw [Dict.get?_erase_self] at found
    cases found
  · rw [Dict.get?_erase_of_ne _ here] at found
    exact typed name w found

/-- A copy of well-typed variables. -/
def BlackboardSnapshot.Typed (s : BlackboardSnapshot) : Prop := ∀ scope, TypedVars scope (s.vars scope)

namespace Blackboard

/-- Every variable stands under its name and scope, with a value that fits. -/
def Typed (b : Blackboard) : Prop := ∀ scope, TypedVars scope (b.vars scope)

variable {b b' : Blackboard} {own : List BlackboardSnapshot}

theorem vars_withVars (b : Blackboard) (scope other : Scope) (vars : Dict Variable) :
    (b.withVars scope vars).vars other = if other = scope then vars else b.vars other := by
  cases scope <;> cases other <;> rfl

@[simp]
theorem vars_raise (b : Blackboard) (event : BlackboardEvent) (scope : Scope) :
    (b.raise event).vars scope = b.vars scope := by
  cases scope <;> rfl

theorem Typed.withVars (typed : b.Typed) {scope : Scope} {vars : Dict Variable}
    (typedVars : TypedVars scope vars) : (b.withVars scope vars).Typed := by
  intro other
  rw [vars_withVars]
  split
  · next here => exact here ▸ typedVars
  · exact typed other

theorem Typed.raise (typed : b.Typed) (event : BlackboardEvent) : (b.raise event).Typed := by
  intro scope
  rw [vars_raise]
  exact typed scope

theorem Typed.store (typed : b.Typed) {v : Variable} (fits : v.Fits) : (b.store v).Typed :=
  typed.withVars ((typed v.scope).insert rfl fits)

/-- Blackboards with the same variables are alike well typed. -/
theorem Typed.of_vars (typed : b.Typed) (tree : b'.tree = b.tree) (project : b'.project = b.project) :
    b'.Typed := by
  intro scope
  cases scope with
  | tree => rw [vars, tree]; exact typed .tree
  | project => rw [vars, project]; exact typed .project

theorem Typed.snapshot (typed : b.Typed) : b.snapshot.Typed := by
  intro scope
  cases scope with
  | tree => exact typed .tree
  | project => exact typed .project

/-- A new variable is defined exactly if its name is free and its value fits. -/
theorem define_eq_ok {name : String} {type : ValueType} {initial : Value} {scope : Scope} :
    b.define name type initial scope = .ok b' ↔ b.contains name scope = false ∧
      Variable.Fits ⟨name, scope, type, initial⟩ ∧
        b' = (b.store ⟨name, scope, type, initial⟩).raise (.defined name scope) := by
  have fits : ¬ (type ≠ .any ∧ (!initial.isNull) = true ∧ initial.inferType scope ≠ type) ↔
      Variable.Fits ⟨name, scope, type, initial⟩ := by
    unfold Variable.Fits
    by_cases any : type = .any <;> cases initial.isNull <;> simp [any]
  have free : ¬ b.contains name scope = true ↔ b.contains name scope = false := by simp
  rw [define, Checks.guard_eq_ok, Checks.guard_eq_ok, fits, free, Except.ok.injEq,
    eq_comm (b := b')]

theorem Typed.define (typed : b.Typed) {name : String} {type : ValueType} {initial : Value}
    {scope : Scope} (done : b.define name type initial scope = .ok b') : b'.Typed := by
  obtain ⟨-, fits, rfl⟩ := define_eq_ok.1 done
  exact (typed.store fits).raise _

/-- A write gives the variable the type of its value, or leaves it the one that it had. -/
theorem Typed.set (typed : b.Typed) (name : String) (value : Value) (scope : Scope) :
    (b.set name value scope).2.Typed := by
  rw [Blackboard.set]
  split
  · exact (typed.store (.inr (.inr rfl))).raise _
  · next v _ =>
    refine (typed.store ?_).raise _
    unfold typeAfter Variable.Fits
    cases value.isNull <;> simp

theorem Typed.remove (typed : b.Typed) (name : String) (scope : Scope) :
    (b.remove name scope).2.Typed := by
  rw [Blackboard.remove]
  split
  · exact typed
  · exact (typed.withVars ((typed scope).erase name)).raise _

theorem Typed.rename (typed : b.Typed) {former current : String} {scope : Scope}
    (done : b.rename former current scope = .ok b') : b'.Typed := by
  rw [Blackboard.rename, Checks.guard_eq_ok] at done
  obtain ⟨-, done⟩ := done
  split at done
  · cases done
  · next v found =>
    obtain rfl := Except.ok.inj done
    obtain ⟨-, same, fits⟩ := typed scope former v found
    let renamed : Variable := { v with name := current }
    have others := (typed scope).erase former
    exact (typed.withVars (others.insert (v := renamed) same fits)).raise _

theorem Typed.applyQueue (typed : b.Typed) : b.applyQueue.2.Typed := by
  have fold (writes : List QueuedWrite) (state : List TypeChange × Blackboard)
      (typed : state.2.Typed) : (writes.foldl applyWrite state).2.Typed := by
    induction writes generalizing state with
    | nil => exact typed
    | cons write rest ih => exact ih _ (typed.set write.name write.value write.scope)
  exact fold b.queue _ (typed.of_vars rfl rfl)

theorem Typed.restore (typed : b.Typed) {s : BlackboardSnapshot} (restored : s.Typed) :
    (b.restore s).Typed := by
  have typed : ({ b with tree := s.tree } : Blackboard).Typed := by
    intro scope
    cases scope with
    | tree => exact restored .tree
    | project => exact typed .project
  exact typed.raise _

/-! ## Changes -/

/-- What may happen to a blackboard, of which `own` are earlier snapshots. -/
inductive Change (own : List BlackboardSnapshot) (b : Blackboard) : Blackboard → Prop
  | define {b' : Blackboard} {name : String} {type : ValueType} {initial : Value} {scope : Scope}
      (done : b.define name type initial scope = .ok b') : Change own b b'
  | set (name : String) (value : Value) (scope : Scope) : Change own b (b.set name value scope).2
  | remove (name : String) (scope : Scope) : Change own b (b.remove name scope).2
  | rename {b' : Blackboard} {former current : String} {scope : Scope}
      (done : b.rename former current scope = .ok b') : Change own b b'
  | restore {s : BlackboardSnapshot} (taken : s ∈ own) : Change own b (b.restore s)
  | enqueue (name : String) (value : Value) (scope : Scope) :
      Change own b (b.enqueue name value scope)
  | applyQueue : Change own b b.applyQueue.2
  /-- The events that were raised are taken for delivery. -/
  | takeRaised : Change own b { b with raised := [] }

/-- Any number of changes, one after the other. -/
def Changes (own : List BlackboardSnapshot) : Blackboard → Blackboard → Prop :=
  Relation.ReflTransGen (Change own)

theorem Typed.change (typed : b.Typed) (snapshots : ∀ s ∈ own, s.Typed) (change : Change own b b') :
    b'.Typed := by
  cases change with
  | define done => exact typed.define done
  | set name value scope => exact typed.set name value scope
  | remove name scope => exact typed.remove name scope
  | rename done => exact typed.rename done
  | restore taken => exact typed.restore (snapshots _ taken)
  | enqueue name value scope => exact typed.of_vars rfl rfl
  | applyQueue => exact typed.applyQueue
  | takeRaised => exact typed.of_vars rfl rfl

/-- No changes lead away from well-typed blackboards. -/
theorem Typed.changes (typed : b.Typed) (snapshots : ∀ s ∈ own, s.Typed)
    (changes : Changes own b b') : b'.Typed := by
  induction changes with
  | refl => exact typed
  | tail _ change ih => exact ih.change snapshots change

end Blackboard

end BehaviorTree
