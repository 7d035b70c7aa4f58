import BehaviorTree.Handler.Builtin

/-!
# What actions of handlers do

Handlers are put together from a few actions that change something: a draw, a write, an output and a
log line. A relation between the states before and after that holds of these and can be followed
from one action to the next holds of every builtin handler (`Handler.leads_of_isBuiltin`).
-/

namespace BehaviorTree

namespace HandlerContext

/-- What the nodes published last, if a handler is in a state. -/
def published (context : HandlerContext) (state : HandlerState) : Outputs :=
  match state.output with
  | some value => context.outputs.insert context.node.id value
  | none => context.outputs

/-- The value of a slot of the node, if its handler is in a state. -/
def property? (context : HandlerContext) (state : HandlerState) (slot : String) : Option Value :=
  context.node.property? state.board (context.published state) slot

end HandlerContext

namespace HandlerM

variable {α β : Type} {R : HandlerState → HandlerState → Prop}

/-- An action leads from each state to a related one, whether it fails or not. -/
def Leads (R : HandlerState → HandlerState → Prop) (action : HandlerM α) : Prop :=
  ∀ context state, R state (action context state).2

/-- A relation that can be followed from action to action. -/
structure Carried (R : HandlerState → HandlerState → Prop) : Prop where
  refl (state : HandlerState) : R state state
  trans {first second third : HandlerState} : R first second → R second third → R first third

/-- The second action goes on where the first one has ended, unless that has failed. -/
theorem bind_apply (first : HandlerM α) (next : α → HandlerM β) (context : HandlerContext)
    (state : HandlerState) : (first >>= next) context state =
      match first context state with
      | (.ok a, state) => next a context state
      | (.error e, state) => (.error e, state) := by
  show (match first context state with
    | (result, state) => ExceptT.bindCont (next · context) result state) = _
  rcases first context state with ⟨_ | a, state⟩
  · rfl
  · rfl

/-- The value of a slot is found without a change. -/
theorem property?_apply (slot : String) (context : HandlerContext) (state : HandlerState) :
    property? slot context state = (.ok (context.property? state slot), state) := by
  obtain ⟨board, random, memory, output, logs, typeChanges⟩ := state
  cases output <;> rfl

section Carried

variable (carried : Carried R)

include carried

theorem leads_pure (a : α) : Leads R (Pure.pure a) := fun _ state => carried.refl state

theorem leads_throw (e : NodeError) : Leads R (throw e : HandlerM α) :=
  fun _ state => carried.refl state

theorem Leads.bind {first : HandlerM α} {next : α → HandlerM β} (leads : Leads R first)
    (others : ∀ a, Leads R (next a)) : Leads R (first >>= next) := by
  intro context state
  have before := leads context state
  rw [bind_apply]
  generalize first context state = ran at before
  obtain ⟨_ | a, after⟩ := ran
  · exact before
  · exact carried.trans before (others a context after)

/-! ## Reading -/

theorem leads_read : Leads R read := fun _ state => carried.refl state

theorem leads_nodeId : Leads R nodeId :=
  .bind carried (leads_read carried) fun _ => leads_pure carried _

theorem leads_property? (slot : String) : Leads R (property? slot) := by
  intro context state
  rw [property?_apply]
  exact carried.refl state

theorem leads_missing (slot : String) :
    Leads R (do throw (.missingProperty (← nodeId) slot) : HandlerM α) :=
  .bind carried (leads_nodeId carried) fun _ => leads_throw carried _

theorem leads_require (slot : String) : Leads R (require slot) := by
  refine .bind carried (leads_property? carried slot) fun found => ?_
  cases found with
  | none => exact leads_missing carried slot
  | some value =>
    dsimp only
    split
    · exact leads_missing carried slot
    · exact leads_pure carried value

theorem leads_mismatch (slot expected : String) (found : Value) :
    Leads R (mismatch slot expected found : HandlerM α) :=
  .bind carried (leads_nodeId carried) fun _ => leads_throw carried _

theorem leads_number (slot : String) : Leads R (number slot) := by
  refine .bind carried (leads_require carried slot) fun value => ?_
  cases value with
  | number x => exact leads_pure carried x
  | _ => exact leads_mismatch carried slot "number" _

theorem leads_string (slot : String) : Leads R (string slot) := by
  refine .bind carried (leads_require carried slot) fun value => ?_
  cases value with
  | string s => exact leads_pure carried s
  | _ => exact leads_mismatch carried slot "string" _

theorem leads_scope : Leads R scope :=
  .bind carried (leads_property? carried "scope") fun _ => leads_pure carried _

theorem leads_readVariable? (name : String) (scope : Scope) :
    Leads R (readVariable? name scope) :=
  fun _ state => carried.refl state

end Carried

end HandlerM

namespace Handler

open HandlerM

/-- A handler that comes with the program: a builtin one, or one that stands in for another. -/
def IsBuiltin (h : Handler) : Prop :=
  h ∈ builtins ∨ (∃ nodeType status, h = static nodeType status) ∨
    ∃ nodeType standard, h = randomOutcome nodeType standard

variable {R : HandlerState → HandlerState → Prop} (carried : Carried R)

include carried

theorem leads_wait : Leads R wait.tick :=
  .bind carried (leads_number carried "duration") fun _ =>
    .bind carried (leads_read carried) fun _ => leads_pure carried _

theorem leads_incrementAmount : Leads R incrementAmount := by
  refine .bind carried (leads_property? carried "amount") fun found => ?_
  split
  · exact leads_pure carried _
  · exact leads_pure carried _
  · exact leads_pure carried _
  · exact leads_mismatch carried _ _ _

section Writing

variable (writes : ∀ name value scope, Leads R (HandlerM.setVariable name value scope))
  (outputs : ∀ value, Leads R (setOutput value))

include writes outputs

theorem leads_setVariable : Leads R setVariable.tick := by
  refine .bind carried (leads_string carried "key") fun key => ?_
  refine .bind carried (leads_property? carried "value") fun value => ?_
  refine .bind carried (leads_scope carried) fun scope => ?_
  refine .bind carried (writes _ _ _) fun _ => ?_
  exact .bind carried (outputs _) fun _ => leads_pure carried _

theorem leads_increment : Leads R increment.tick := by
  refine .bind carried (leads_string carried "key") fun key => ?_
  refine .bind carried (leads_incrementAmount carried) fun amount => ?_
  refine .bind carried (leads_scope carried) fun scope => ?_
  refine .bind carried (leads_readVariable? carried key scope) fun found => ?_
  have write (current : Number) : Leads R (do
      let next := Value.number (current + amount)
      HandlerM.setVariable key next scope
      setOutput next
      return Status.success) :=
    .bind carried (writes _ _ _) fun _ => .bind carried (outputs _) fun _ => leads_pure carried _
  split
  · exact .bind carried (leads_pure carried _) write
  · exact .bind carried (leads_pure carried _) write
  · exact .bind carried (leads_pure carried _) write
  · exact .bind carried (leads_mismatch carried _ _ _) write

/-- What holds of the actions that change something holds of the builtin handlers, and draws matter
for random outcomes alone. -/
theorem leads_of_mem_builtins (logs : ∀ level message, Leads R (HandlerM.log level message))
    {h : Handler} (builtin : h ∈ builtins)
    (draws : h.nodeType = TypeId.randomOutcome → ∀ p, Leads R (happens p)) : Leads R h.tick := by
  simp only [builtins, List.mem_cons, List.not_mem_nil, or_false] at builtin
  rcases builtin with rfl | rfl | rfl | rfl | rfl | rfl | rfl | rfl
  · exact leads_pure carried _
  · exact leads_pure carried _
  · exact leads_pure carried _
  · exact .bind carried (leads_property? carried _) fun _ =>
      .bind carried (draws rfl _) fun _ => leads_pure carried _
  · exact leads_wait carried
  · exact leads_setVariable carried writes outputs
  · exact leads_increment carried writes outputs
  · exact .bind carried (leads_property? carried "message") fun _ =>
      .bind carried (logs _ _) fun _ => leads_pure carried _

/-- What holds of all actions that change something holds of every handler that comes with the
program. -/
theorem leads_of_isBuiltin (logs : ∀ level message, Leads R (HandlerM.log level message))
    (draws : ∀ p, Leads R (happens p)) {h : Handler} (builtin : h.IsBuiltin) : Leads R h.tick := by
  rcases builtin with listed | ⟨nodeType, status, rfl⟩ | ⟨nodeType, standard, rfl⟩
  · exact leads_of_mem_builtins carried writes outputs logs listed fun _ => draws
  · exact leads_pure carried _
  · exact .bind carried (leads_property? carried _) fun _ =>
      .bind carried (draws _) fun _ => leads_pure carried _

end Writing

end Handler

end BehaviorTree
