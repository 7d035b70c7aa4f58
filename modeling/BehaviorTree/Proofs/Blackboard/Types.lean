import BehaviorTree.Proofs.Blackboard.Listeners

/-!
# The types of variables

A write gives one variable a value and a type, leaves all others alone, and tells if the type is a
new one. What such changes tell accounts for every difference between the types before and after
them (`Accounts`), over any number of them and past whatever keeps types.
-/

namespace BehaviorTree

namespace Blackboard

variable {b : Blackboard} {name other : String} {scope : Scope} {v : Variable} {value : Value}

theorem find?_store (b : Blackboard) (v : Variable) (other : String) (scope : Scope) :
    (b.store v).find? other scope =
      if other = v.name ∧ scope = v.scope then some v else b.find? other scope := by
  rw [find?, store, vars_withVars]
  by_cases here : scope = v.scope
  · subst here
    rw [if_pos rfl]
    by_cases named : other = v.name
    · rw [if_pos ⟨named, rfl⟩, named, Dict.get?_insert_self]
    · rw [if_neg fun both => named both.1, Dict.get?_insert_of_ne _ named, find?]
  · rw [if_neg here, if_neg fun both => here both.2, find?]

@[simp]
theorem find?_raise (b : Blackboard) (event : BlackboardEvent) (name : String) (scope : Scope) :
    (b.raise event).find? name scope = b.find? name scope := by
  rw [find?, vars_raise, find?]

@[simp]
theorem find?_contents (b : Blackboard) (name : String) (scope : Scope) :
    b.contents.find? name scope = b.find? name scope := by
  cases scope <;> rfl

/-- A write to a variable that is defined keeps its name and scope. -/
theorem find?_set_self (found : b.find? name scope = some v) (value : Value) :
    (b.set name value scope).2.find? name scope =
      some ⟨name, scope, typeAfter v.type value scope, value⟩ := by
  rw [set, found]
  dsimp only
  rw [find?_raise, find?_store, if_pos ⟨rfl, rfl⟩]

/-- A write to one variable leaves the others alone. -/
theorem find?_set_of_ne {scope' : Scope} (ne : ¬ (other = name ∧ scope' = scope)) (value : Value) :
    (b.set name value scope).2.find? other scope' = b.find? other scope' := by
  rw [set]
  split
  · rw [find?_raise, find?_store, if_neg ne]
  · rw [find?_raise, find?_store, if_neg ne]

/-- A write tells of a change of type exactly if there was one. -/
theorem set_change (found : b.find? name scope = some v) (value : Value) :
    (b.set name value scope).1 = if v.type = typeAfter v.type value scope then none
      else some ⟨name, scope, v.type, typeAfter v.type value scope⟩ := by
  rw [set, found]

theorem vars_enqueue (b : Blackboard) (name : String) (value : Value) (scope : Scope) :
    (b.enqueue name value scope).vars = b.vars := by
  funext scope'
  cases scope' <;> rfl

theorem vars_contents (b : Blackboard) : b.contents.vars = b.vars := by
  funext scope
  cases scope <;> rfl

theorem vars_snapshot (b : Blackboard) : b.snapshot.vars = b.vars := by
  funext scope
  cases scope <;> rfl

/-- Every variable that was defined is still defined, with the type that it had. -/
def KeepsTypes (b b' : Blackboard) : Prop :=
  ∀ name scope v, b.find? name scope = some v →
    ∃ v', b'.find? name scope = some v' ∧ v'.type = v.type

end Blackboard

/-- A list of changes of type names a variable. -/
def Names (log : List TypeChange) (name : String) (scope : Scope) : Prop :=
  ∃ change ∈ log, change.name = name ∧ change.scope = scope

/-- Every variable that was defined is still defined, with the type that it had or with one that is
accounted for. -/
def Accounts (log : List TypeChange) (before after : Scope → Dict Variable) : Prop :=
  ∀ name scope v, (before scope).get? name = some v →
    ∃ v', (after scope).get? name = some v' ∧ (v'.type = v.type ∨ Names log name scope)

variable {log more : List TypeChange} {first second third : Scope → Dict Variable}
  {b b' : Blackboard}

theorem Names.mono {name : String} {scope : Scope} (names : Names log name scope)
    (sub : log ⊆ more) : Names more name scope := by
  obtain ⟨change, member, same⟩ := names
  exact ⟨change, sub member, same⟩

theorem Accounts.refl (log : List TypeChange) (vars : Scope → Dict Variable) :
    Accounts log vars vars :=
  fun _ _ v found => ⟨v, found, .inl rfl⟩

theorem Accounts.mono (accounts : Accounts log first second) (sub : log ⊆ more) :
    Accounts more first second := by
  intro name scope v found
  obtain ⟨v', found', same⟩ := accounts name scope v found
  exact ⟨v', found', same.imp_right fun names => names.mono sub⟩

/-- A variable that changed twice is named twice, and one that changed once is named once. -/
theorem Accounts.trans (before : Accounts log first second) (after : Accounts log second third) :
    Accounts log first third := by
  intro name scope v found
  obtain ⟨v', found', same⟩ := before name scope v found
  obtain ⟨v'', found'', same'⟩ := after name scope v' found'
  refine ⟨v'', found'', ?_⟩
  rcases same' with same' | names
  · rw [same']
    exact same
  · exact .inr names

theorem Accounts.append (before : Accounts log first second)
    (after : Accounts more second third) : Accounts (log ++ more) first third :=
  (before.mono (List.subset_append_left log more)).trans
    (after.mono (List.subset_append_right log more))

theorem Blackboard.KeepsTypes.accounts (keeps : b.KeepsTypes b') (log : List TypeChange) :
    Accounts log b.vars b'.vars := by
  intro name scope v found
  obtain ⟨v', found', same⟩ := keeps name scope v found
  exact ⟨v', found', .inl same⟩

theorem Accounts.of_vars (same : b'.vars = b.vars) (log : List TypeChange) :
    Accounts log b.vars b'.vars := by
  rw [same]
  exact .refl log b.vars

/-- What a write tells accounts for what it does. -/
theorem accounts_set (b : Blackboard) (name : String) (value : Value) (scope : Scope) :
    Accounts (b.set name value scope).1.toList b.vars (b.set name value scope).2.vars := by
  intro other scope' v found
  by_cases here : other = name ∧ scope' = scope
  · obtain ⟨rfl, rfl⟩ := here
    refine ⟨_, Blackboard.find?_set_self found value, ?_⟩
    rw [Blackboard.set_change found]
    split
    · next same => exact .inl same.symm
    · exact .inr ⟨_, List.mem_singleton_self _, rfl, rfl⟩
  · exact ⟨v, (Blackboard.find?_set_of_ne here value).trans found, .inl rfl⟩

theorem accounts_foldl_applyWrite (writes : List QueuedWrite)
    (state : List TypeChange × Blackboard) (accounts : Accounts state.1 first state.2.vars) :
    let after := writes.foldl Blackboard.applyWrite state
    Accounts after.1 first after.2.vars := by
  induction writes generalizing state with
  | nil => exact accounts
  | cons write rest ih =>
    apply ih
    exact accounts.append (accounts_set state.2 write.name write.value write.scope)

/-- What the writes that wait tell accounts for what they do. -/
theorem accounts_applyQueue (b : Blackboard) :
    Accounts b.applyQueue.1 b.vars b.applyQueue.2.vars := by
  apply accounts_foldl_applyWrite
  exact .of_vars (b := b) rfl []

/-- Bringing back the variables of a tree brings back what accounts for them. -/
theorem Accounts.restore {s : BlackboardSnapshot} (accounts : Accounts log first b.vars)
    (earlier : Accounts log first s.vars) : Accounts log first (b.restore s).vars := by
  intro name scope v found
  cases scope with
  | tree => exact earlier name .tree v found
  | project => exact accounts name .project v found

/-- What was told between two moments accounts for what happened between them. -/
def Tells (before after : List TypeChange) (b b' : Blackboard) : Prop :=
  ∃ new, after = before ++ new ∧ Accounts new b.vars b'.vars

theorem Tells.refl (told : List TypeChange) (b : Blackboard) : Tells told told b b :=
  ⟨[], (List.append_nil told).symm, .refl [] b.vars⟩

theorem Tells.trans {told told' told'' : List TypeChange} {b b' b'' : Blackboard}
    (first : Tells told told' b b') (second : Tells told' told'' b' b'') :
    Tells told told'' b b'' := by
  obtain ⟨new, rfl, accounts⟩ := first
  obtain ⟨newer, rfl, accounts'⟩ := second
  exact ⟨new ++ newer, List.append_assoc told new newer, accounts.append accounts'⟩

/-- Changes that a list accounts for can follow each other. -/
theorem Blackboard.Carried.accounts (log : List TypeChange) :
    Carried fun b b' => Accounts log b.vars b'.vars where
  refl b := .refl log b.vars
  trans before after := before.trans after
  takeRaised b := by
    have same : b.contents.vars = b.vars := vars_contents b
    exact .of_vars same log

/-- Listeners that keep types leave what was accounted for. -/
theorem SharedBlackboard.accounts_transact {s : SharedBlackboard}
    (listeners : ∀ l ∈ s.listeners, l.Obeys Blackboard.KeepsTypes)
    (board : Accounts log first s.board.vars) {α : Type} (change : Blackboard → α × Blackboard)
    (changed : Accounts log first (change s.board).2.vars) :
    Accounts log first (s.transact change).2.board.vars := by
  have carried : Blackboard.Carried fun b b' =>
      Accounts log first b.vars → Accounts log first b'.vars :=
    { refl := fun _ => id
      trans := fun before after => after ∘ before
      takeRaised := fun b accounts => (Blackboard.vars_contents b).symm ▸ accounts }
  have obey : ∀ l ∈ s.listeners, l.Obeys fun b b' =>
      Accounts log first b.vars → Accounts log first b'.vars := by
    intro l listed event seen reaction member b accounts
    exact accounts.trans ((listeners l listed event seen reaction member b).accounts log)
  exact (SharedBlackboard.transact_leads carried obey fun _ => changed).board board

end BehaviorTree
