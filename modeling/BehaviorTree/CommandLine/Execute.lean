import BehaviorTree.CommandLine.Arguments
import BehaviorTree.Document.Binary

/-!
# What the commands do

A command is a function of the files it reads. It gives the text to print and perhaps a file to
write, or says why it cannot.
-/

namespace BehaviorTree.CommandLine

/-- Why a command fails. -/
inductive CommandError where
  | unreadable (path : String)
  | unwritable (path : String)
  | document (cause : DocumentError)
  | build (cause : BuildError)
  | executor (cause : ExecutorError)

def CommandError.message : CommandError → String
  | .unreadable path => s!"Could not read '{path}'"
  | .unwritable path => s!"Could not write '{path}'"
  | .document cause => cause.message
  | .build cause => cause.message
  | .executor cause => cause.message

/-- What a command gives. -/
structure Outcome where
  /-- The lines to print. -/
  lines : List String
  /-- A file to write before printing. -/
  written : Option (String × List UInt8) := none

/-- The contents of files. -/
abbrev Files := String → Option (List UInt8)

def loadBytes (files : Files) (path : String) : Except CommandError (List UInt8) :=
  match files path with
  | some bytes => .ok bytes
  | none => .error (.unreadable path)

def loadDocument (files : Files) (path : String) : Except CommandError TreeDocument := do
  (TreeDocument.decode (← loadBytes files path)).mapError .document

/-- The workspace of a document, with the builtin templates. -/
def loadWorkspace (files : Files) (path : String) : Except CommandError Workspace := do
  ((← loadDocument files path).toWorkspace .builtin).mapError .document

/-- The settings in a file, or the standard ones. -/
def loadConfig (files : Files) : Option String → Except CommandError ExecutorConfig
  | none => .ok {}
  | some path => do
    match String.fromUTF8? ⟨(← loadBytes files path).toArray⟩ with
    | some text => (ExecutorConfig.ofJson text).mapError .executor
    | none => throw (.unreadable path)

/-! ## Lines -/

/-- Text filled up to a width with blanks on the right. -/
def padRight (width : Nat) (text : String) : String :=
  text ++ String.ofList (List.replicate (width - text.length) ' ')

/-- Text filled up to a width with blanks on the left. -/
def padLeft (width : Nat) (text : String) : String :=
  String.ofList (List.replicate (width - text.length) ' ') ++ text

def variableLine (v : Variable) : String :=
  "  variable:    " ++ v.name ++ " [" ++ Named.name v.scope ++ "] " ++ Named.name v.type ++
    " = " ++ v.value.text

/-- What is said of a valid document. -/
def summaryLines (ws : Workspace) (tree : ExecutableTree) : List String :=
  [s!"Document '{ws.metadata.name}' is valid",
    s!"  nodes:       {ws.graph.size}",
    s!"  connections: {ws.graph.connections.length}",
    s!"  compiled:    {tree.size}"] ++
    tree.excluded.map (fun id => s!"  excluded:    {id} (not reachable from the root)") ++
    (ws.board.list .tree ++ ws.board.list .project).map variableLine

/-- What is said of a tick. -/
def reportLines (r : TickReport Number) : List String :=
  ("tick " ++ padLeft 4 (toString r.tick) ++ " (" ++ r.elapsed.fixedText 2 ++ "s) root=" ++
    Named.name r.rootStatus) ::
    r.statuses.map (fun entry => "    " ++ padRight 24 entry.1 ++ " " ++ Named.name entry.2) ++
    r.logs.map fun line => "    " ++ line.text

/-! ## Commands -/

def validate (files : Files) (path : String) : Except CommandError Outcome := do
  let ws ← loadWorkspace files path
  return { lines := summaryLines ws (← (ws.compile {}).mapError .build) }

/-- Performs a number of regular ticks and gives what is said of them. -/
def runTicks : Nat → Executor Number → SharedBlackboard →
    Except ExecutorError (List String × Executor Number × SharedBlackboard)
  | 0, e, s => .ok ([], e, s)
  | ticks + 1, e, s => do
    let (report, e, s) ← e.tick e.config.tickInterval s
    let (lines, e, s) ← runTicks ticks e s
    return (reportLines report ++ lines, e, s)

/-- Runs a document. The entropy feeds the generator if there is no seed. -/
def run (files : Files) (path : String) (ticks : Nat) (configPath : Option String)
    (seed : Option Nat) (entropy : Nat) : Except CommandError Outcome := do
  let ws ← loadWorkspace files path
  let config ← loadConfig files configPath
  let config := { config with seed := seed.or config.seed }
  let tree ← (ws.build {}).mapError .build
  let session : Except ExecutorError (List String) := do
    let e ← (Executor.new tree config entropy).start ws.shared
    let (lines, e, s) ← runTicks ticks e ws.shared
    let _ ← e.stop s
    return lines
  return { lines := ← session.mapError .executor }

def convert (files : Files) (input output : String) (binary : Bool) :
    Except CommandError Outcome := do
  let document ← loadDocument files input
  let bytes := if binary then document.toBytes else document.toText.toByteArray.data.toList
  let form := if binary then "binary" else "json"
  return { lines := [s!"Wrote {output} ({bytes.length} bytes, {form})"],
           written := some (output, bytes) }

/-- Does what is asked for. -/
def execute (files : Files) (entropy : Nat) : Request → Except CommandError Outcome
  | .validate document => validate files document
  | .run document ticks config seed => run files document ticks config seed entropy
  | .convert input output binary => convert files input output binary

end BehaviorTree.CommandLine
