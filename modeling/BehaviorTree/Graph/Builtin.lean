import BehaviorTree.Graph.Template

/-!
# Builtin node types
-/

namespace BehaviorTree

/-! ## Type ids -/

namespace TypeId

def root : String := "root"
def checkBlackboard : String := "check-blackboard"
def succeed : String := "succeed"
def fail : String := "fail"
def running : String := "running"
def wait : String := "wait"
def setVariable : String := "set-variable"
def increment : String := "increment"
def log : String := "log"
def randomOutcome : String := "random-outcome"
def blackboardVariable : String := "blackboard-variable"
def constant : String := "constant"

end TypeId

/-- How a composite combines its children. -/
inductive CompositeKind where
  /-- Runs its children until one fails. -/
  | sequence
  /-- Runs its children until one succeeds. -/
  | selector
deriving DecidableEq, Inhabited

/-- Composites are named by their type ids. -/
instance : Named CompositeKind where
  all := [.sequence, .selector]
  name
    | .sequence => "sequence"
    | .selector => "selector"
  mem_all a := by cases a <;> decide
  name_inj {a b} h := by cases a <;> cases b <;> first | rfl | simp at h

/-- What a decorator does with its child. -/
inductive DecoratorKind where
  /-- Exchanges success and failure. -/
  | inverter
  /-- Succeeds whenever the child ends. -/
  | alwaysSucceed
  /-- Fails whenever the child ends. -/
  | alwaysFail
  /-- Runs the child until it has succeeded a number of times. -/
  | repeat
  /-- Runs the child until it succeeds or has failed a number of times. -/
  | retry
  /-- Fails for a while after the child has ended. -/
  | cooldown
  /-- Cuts the child short when it has run for too long. -/
  | timeout
deriving DecidableEq, Inhabited

/-- Decorators are named by their type ids. -/
instance : Named DecoratorKind where
  all := [.inverter, .alwaysSucceed, .alwaysFail, .repeat, .retry, .cooldown, .timeout]
  name
    | .inverter => "inverter"
    | .alwaysSucceed => "always-succeed"
    | .alwaysFail => "always-fail"
    | .repeat => "repeat"
    | .retry => "retry"
    | .cooldown => "cooldown"
    | .timeout => "timeout"
  mem_all a := by cases a <;> decide
  name_inj {a b} h := by cases a <;> cases b <;> first | rfl | simp at h

/-! ## Templates -/

namespace SlotDef

def scope : SlotDef :=
  { name := "scope", slotType := .select, default := some (.string "local"),
    options := ["local", "global"] }

/-- A number slot with a default. -/
def amount (name : String) (default : Number) : SlotDef :=
  { name := name, slotType := .number, default := some (.number default) }

end SlotDef

namespace TemplateRegistry

/-- The template of a composite, shown under a name. -/
def composite (kind : CompositeKind) (displayName : String) : NodeTemplate :=
  .new (Named.name kind) .composite displayName

/-- The template of a decorator, shown under a name. -/
def decorator (kind : DecoratorKind) (displayName : String) : NodeTemplate :=
  .new (Named.name kind) .decorator displayName

def builtinTemplates : List NodeTemplate :=
  [.new TypeId.root .root "Root",
    composite .sequence "Sequence",
    composite .selector "Selector",
    decorator .inverter "Inverter",
    decorator .alwaysSucceed "Always Succeed",
    decorator .alwaysFail "Always Fail",
    (decorator .repeat "Repeat").withSlot (.amount "count" 1),
    (decorator .retry "Retry").withSlot (.amount "attempts" 3),
    (decorator .cooldown "Cooldown").withSlot (.amount "duration" 1),
    (decorator .timeout "Timeout").withSlot (.amount "duration" 1),
    (((NodeTemplate.new TypeId.checkBlackboard .condition "Check Blackboard").withSlot
      { name := "key", slotType := .string }).withSlot
      { name := "value", slotType := .any }).withSlot .scope,
    (NodeTemplate.new TypeId.succeed .action "Succeed").withCategory "debug",
    (NodeTemplate.new TypeId.fail .action "Fail").withCategory "debug",
    (NodeTemplate.new TypeId.running .action "Running").withCategory "debug",
    (NodeTemplate.new TypeId.wait .action "Wait").withSlot (.amount "duration" 1),
    (((NodeTemplate.new TypeId.setVariable .action "Set Variable").withSlot
      { name := "key", slotType := .string }).withSlot
      { name := "value", slotType := .any }).withSlot .scope,
    (((NodeTemplate.new TypeId.increment .action "Increment").withSlot
      { name := "key", slotType := .string }).withSlot (.amount "amount" 1)).withSlot .scope,
    (NodeTemplate.new TypeId.log .action "Log").withSlot
      { name := "message", slotType := .string, default := some (.string "") },
    ((NodeTemplate.new TypeId.randomOutcome .action "Random Outcome").withCategory
      "debug").withSlot
      (.amount "successProbability" (Number.ofFraction false 1 2)),
    ((NodeTemplate.new TypeId.blackboardVariable .data "Blackboard Variable").withSlot
      { name := "variableName", slotType := .variable }).withSlot .scope,
    (NodeTemplate.new TypeId.constant .data "Constant").withSlot
      { name := "value", slotType := .any }]

/-- The registry of every builtin template. -/
def builtin : TemplateRegistry := builtinTemplates.foldl register {}

end TemplateRegistry

end BehaviorTree
