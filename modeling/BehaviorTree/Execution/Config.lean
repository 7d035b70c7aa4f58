import BehaviorTree.Execution.Error
import BehaviorTree.Json.Reader
import BehaviorTree.Json.Record
import BehaviorTree.Json.Writer

/-!
# Settings of an executor
-/

namespace BehaviorTree

structure ExecutorConfig where
  /-- Logical seconds in one tick. -/
  tickInterval : Number := Decimal.toNumber false ⟨1, -1⟩
  /-- Logical seconds in one second of frame time. -/
  speed : Number := 1
  /-- How many ticks one update performs at most; the time left over is kept. -/
  maxTicksPerUpdate : Nat := 64
  /-- The seed that every run starts from, if runs are to repeat. -/
  seed : Option Nat := none
  /-- How many log lines a report keeps. -/
  maxLogLines : Nat := 256
deriving DecidableEq

namespace ExecutorConfig

/-- The interval must be positive. -/
def checkInterval (interval : Number) : Except ExecutorError Unit :=
  if interval.isNaN || Number.atMost interval 0 then
    .error (.invalidConfig (.tickInterval interval))
  else .ok ()

/-- Refuses an interval that is not positive and a speed that is negative. -/
def validate (config : ExecutorConfig) : Except ExecutorError Unit := do
  checkInterval config.tickInterval
  if config.speed.isNaN || Number.less config.speed 0 then
    throw (.invalidConfig (.speed config.speed))

def fieldNames : List String :=
  ["tick_interval", "speed", "max_ticks_per_update", "seed", "max_log_lines"]

/-- Settings from a JSON tree; a missing field has its default. -/
def ofTree? (j : Json) : Option ExecutorConfig := do
  let standard : ExecutorConfig := {}
  let fields ← j.fields? fieldNames
  return {
    tickInterval := ← fields.defaulted "tick_interval" standard.tickInterval Json.number?
    speed := ← fields.defaulted "speed" standard.speed Json.number?
    maxTicksPerUpdate := ← fields.defaulted "max_ticks_per_update" standard.maxTicksPerUpdate
      (Json.natBelow? UInt32.size)
    seed := ← fields.defaulted "seed" standard.seed fun
      | .null => some none
      | j => (j.natBelow? UInt64.size).map some
    maxLogLines := ← fields.defaulted "max_log_lines" standard.maxLogLines
      (Json.natBelow? UInt64.size) }

/-- Settings from JSON text, if they are valid. -/
def ofJson (text : String) : Except ExecutorError ExecutorConfig := do
  match (Json.read text.toList).bind ofTree? with
  | none => throw (.invalidConfig .malformed)
  | some config =>
    config.validate
    return config

def toTree (config : ExecutorConfig) : Json :=
  .object [("tick_interval", .number config.tickInterval), ("speed", .number config.speed),
    ("max_ticks_per_update", .integer config.maxTicksPerUpdate),
    ("seed", Json.ofOption (fun (seed : Nat) => .integer seed) config.seed),
    ("max_log_lines", .integer config.maxLogLines)]

end ExecutorConfig

end BehaviorTree
