import BehaviorTree.Proofs.Handler.Actions
import BehaviorTree.Proofs.Number.Rounding

/-!
# What handlers draw

Of the builtin handlers only random outcomes ask the generator (`Handler.steady_of_mem_builtins`),
and these ask it once, with a probability from zero to one (`Handler.randomOutcome_run`,
`Handler.probability_inside`).
-/

namespace BehaviorTree

namespace HandlerM

variable {α : Type}

/-- An action that does not ask the generator. -/
def Steady (action : HandlerM α) : Prop :=
  ∀ context state, (action context state).2.random = state.random

theorem carried_steady : Carried fun state after => after.random = state.random where
  refl _ := rfl
  trans before after := after.trans before

end HandlerM

namespace Handler

open HandlerM

theorem probability_inside (x : Number) :
    Number.atMost 0 (probability x) = true ∧ Number.atMost (probability x) 1 = true := by
  have ordered : Number.atMost 0 1 = true := by decide +kernel
  unfold probability
  split
  · exact ⟨by decide +kernel, ordered⟩
  · rename_i real
    exact Number.atMost_clamp (by simpa using real) ordered

/-- The number that a random outcome is configured with, or else the standard one. -/
def configuredProbability (standard : Number) (context : HandlerContext) (state : HandlerState) :
    Number :=
  ((context.property? state "successProbability").bind Value.number?).getD standard

/-- A random outcome is one draw, with the configured number as the probability, and nothing
else. -/
theorem randomOutcome_run (nodeType : String) (standard : Number) (context : HandlerContext)
    (state : HandlerState) :
    let drawn := state.random.happens
      (probability (configuredProbability standard context state))
    (randomOutcome nodeType standard).run context state =
      (.ok (.ofBool drawn.1), { state with random := drawn.2 }) := by
  refine (bind_apply (property? "successProbability") _ context state).trans ?_
  rw [property?_apply]
  rfl

/-- Of the builtin handlers only random outcomes ask the generator. -/
theorem steady_of_mem_builtins {h : Handler} (builtin : h ∈ builtins)
    (other : h.nodeType ≠ TypeId.randomOutcome) : Steady h.tick := by
  refine leads_of_mem_builtins carried_steady ?writes ?outputs ?logs builtin ?draws
  case writes => exact fun _ _ _ _ _ => rfl
  case outputs => exact fun _ _ _ => rfl
  case logs => exact fun _ _ _ _ => rfl
  case draws => exact fun same => absurd same other

end Handler

end BehaviorTree
