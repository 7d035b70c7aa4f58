/-!
# Command line arguments

The command line has three commands with options of their own. An option may be given once, in a
long form (`--seed 7`, `--seed=7`) or a short one (`-s 7`, `-s7`, `-s=7`); what begins with a dash
is no value, save for the dash alone; and after `--` everything is a path.
-/

namespace BehaviorTree.CommandLine

/-- What the program is asked to do. -/
inductive Request where
  /-- Check a document and compile it. -/
  | validate (document : String)
  /-- Compile a document and run it for a number of ticks. -/
  | run (document : String) (ticks : Nat) (config : Option String) (seed : Option Nat)
  /-- Write a document in another form. -/
  | convert (input output : String) (binary : Bool)
deriving DecidableEq

/-- An option of a command. -/
structure OptionSpec where
  short : Char
  long : String
  takesValue : Bool

/-- What was found among the arguments of a command. -/
structure Parsed where
  /-- The paths, first one first. -/
  paths : List String := []
  /-- The options by long name, with their values. -/
  options : List (String × String) := []

namespace Parsed

/-- Adds an option, which must not have been given before. -/
def withOption (p : Parsed) (spec : OptionSpec) (value : String) : Option Parsed :=
  if (p.options.lookup spec.long).isSome then none
  else some { p with options := (spec.long, value) :: p.options }

def withPaths (p : Parsed) (paths : List String) : Parsed := { p with paths := p.paths ++ paths }

def option? (p : Parsed) (long : String) : Option String := p.options.lookup long

end Parsed

/-- Whether an argument can be the value of the option before it. -/
def isValue (argument : List Char) : Bool :=
  match argument with
  | '-' :: _ :: _ => false
  | _ => true

/-- The options in a cluster of short ones: flags, and at the end perhaps one with a value. The
second result is the option whose value is the next argument. -/
def readCluster (specs : List OptionSpec) :
    List Char → Parsed → Option (Parsed × Option OptionSpec)
  | [], p => some (p, none)
  | c :: rest, p => do
    let spec ← specs.find? fun spec => spec.short == c
    if spec.takesValue then
      match rest with
      | [] => return (p, some spec)
      | '=' :: value => return (← p.withOption spec (String.ofList value), none)
      | value => return (← p.withOption spec (String.ofList value), none)
    else readCluster specs rest (← p.withOption spec "")

/-- A long option without its dashes. -/
def readLong (specs : List OptionSpec) (argument : List Char) (p : Parsed) :
    Option (Parsed × Option OptionSpec) := do
  let name := argument.takeWhile fun c => c != '='
  let spec ← specs.find? fun spec => spec.long.toList == name
  match argument.dropWhile fun c => c != '=' with
  | '=' :: value =>
    if spec.takesValue then return (← p.withOption spec (String.ofList value), none) else none
  | _ => if spec.takesValue then return (p, some spec) else return (← p.withOption spec "", none)

/-- The arguments of a command. `pending` is the option whose value comes next. -/
def readArguments (specs : List OptionSpec) :
    List String → Option OptionSpec → Parsed → Option Parsed
  | [], none, p => some p
  | [], some _, _ => none
  | argument :: rest, some spec, p => do
    if isValue argument.toList then
      readArguments specs rest none (← p.withOption spec argument)
    else none
  | argument :: rest, none, p => do
    match argument.toList with
    | ['-', '-'] => return p.withPaths rest
    | '-' :: '-' :: long =>
      let (p, pending) ← readLong specs long p
      readArguments specs rest pending p
    | '-' :: c :: cluster =>
      let (p, pending) ← readCluster specs (c :: cluster) p
      readArguments specs rest pending p
    | _ => readArguments specs rest none (p.withPaths [argument])

/-- The value of a run of digits, if it is one. -/
def digitsNat? (cs : List Char) : Option Nat :=
  if cs.isEmpty || !cs.all Char.isDigit then none
  else some (cs.foldl (fun n c => 10 * n + (c.toNat - '0'.toNat)) 0)

/-- A natural number below a bound, with or without a plus sign. -/
def natBelow? (bound : Nat) (text : String) : Option Nat := do
  let n ← match text.toList with
    | '+' :: digits => digitsNat? digits
    | digits => digitsNat? digits
  if n < bound then some n else none

/-- A count below `2 ^ 32`; zero may carry a minus sign. -/
def count? (text : String) : Option Nat :=
  match text.toList with
  | '-' :: digits => do if (← digitsNat? digits) = 0 then some 0 else none
  | _ => natBelow? UInt32.size text

/-- A path, which must not be empty. -/
def path? (text : String) : Option String := if text.isEmpty then none else some text

/-- An option that may be missing. -/
def optional? {α : Type} (read : String → Option α) (value : Option String) :
    Option (Option α) :=
  match value with
  | none => some none
  | some text => (read text).map some

def runSpecs : List OptionSpec :=
  [⟨'t', "ticks", true⟩, ⟨'c', "config", true⟩, ⟨'s', "seed", true⟩]

def convertSpecs : List OptionSpec := [⟨'b', "binary", false⟩]

/-- The request that arguments express, if they do. -/
def Request.ofArguments? : List String → Option Request
  | "validate" :: arguments => do
    let p ← readArguments [] arguments none {}
    match p.paths with
    | [document] => return .validate (← path? document)
    | _ => none
  | "run" :: arguments => do
    let p ← readArguments runSpecs arguments none {}
    let ticks ← optional? count? (p.option? "ticks")
    let config ← optional? path? (p.option? "config")
    let seed ← optional? (natBelow? UInt64.size) (p.option? "seed")
    match p.paths with
    | [document] => return .run (← path? document) (ticks.getD 10) config seed
    | _ => none
  | "convert" :: arguments => do
    let p ← readArguments convertSpecs arguments none {}
    match p.paths with
    | [input, output] =>
      return .convert (← path? input) (← path? output) (p.option? "binary").isSome
    | _ => none
  | _ => none

end BehaviorTree.CommandLine
