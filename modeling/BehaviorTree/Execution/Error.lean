import BehaviorTree.Execution.Status
import BehaviorTree.Number.Text

/-!
# Why an executor refuses
-/

namespace BehaviorTree

/-- What is wrong with an executor's settings. -/
inductive ConfigError where
  /-- The text is no description of settings. -/
  | malformed
  | tickInterval (found : Number)
  | speed (found : Number)
deriving DecidableEq

inductive ExecutorError where
  /-- The action does not fit the state. -/
  | invalidTransition (action : String) (state : ExecutorState)
  | destroyed
  | invalidConfig (cause : ConfigError)
deriving DecidableEq

/-- What follows the announcement of an error in the settings. -/
def ConfigError.detail : ConfigError → String
  | .malformed => ""
  | .tickInterval found => s!": tick_interval must be positive, got {found.plainText}"
  | .speed found => s!": speed must not be negative, got {found.plainText}"

def ExecutorError.message : ExecutorError → String
  | .invalidTransition action state =>
    "Cannot " ++ action ++ " while the executor is " ++ Named.name state
  | .destroyed => "The executor has been destroyed"
  | .invalidConfig cause => "Invalid executor configuration" ++ cause.detail

end BehaviorTree
