import BehaviorTree.Proofs.History.Fitting
import BehaviorTree.Proofs.History.Timeline

/-!
# Several histories over one graph

Several histories may edit one graph, and each remembers its own commands only. Doing and redoing go
through the checks of the edits, whoever changed the graph before. An undo goes by what the history
recorded, which another one may have made out of date: it can bring a node back that is there again,
or children that are others by now (`undo_out_of_date`). While no undo does more than fits into the
graph that it finds, the graph stays valid (`histories_keep_graph_valid`).
-/

namespace BehaviorTree

/-! ## One call -/

/-- What a call does to a history and its graph. -/
inductive HistoryCall.Effect (h : History) (g : Graph) : HistoryCall → History → Graph → Prop
  | rejected {command : Command} {e : GraphError} (fails : command.execute g = .error e) :
      Effect h g (.execute command) h g
  | executed {command : Command} {after : Graph} {receipt : Receipt}
      (edit : command.execute g = .ok (after, receipt)) :
      Effect h g (.execute command)
        { h with done := ((command, receipt) :: h.done).take h.depth, undone := [] } after
  | nothingDone (none : h.done = []) : Effect h g .undo h g
  | undone {command : Command} {receipt : Receipt} {earlier : List (Command × Receipt)}
      (latest : h.done = (command, receipt) :: earlier) :
      Effect h g .undo { h with done := earlier, undone := command :: h.undone } (receipt.undo g)
  | nothingUndone (none : h.undone = []) : Effect h g .redo h g
  | dropped {command : Command} {others : List Command} {e : GraphError}
      (next : h.undone = command :: others) (fails : command.execute g = .error e) :
      Effect h g .redo { h with undone := others } g
  | redone {command : Command} {others : List Command} {after : Graph} {receipt : Receipt}
      (next : h.undone = command :: others) (edit : command.execute g = .ok (after, receipt)) :
      Effect h g .redo { h with done := (command, receipt) :: h.done, undone := others } after
  | cleared : Effect h g .clear h.clear g

/-- Of the nodes that a history may add again, none has children. -/
structure History.Childless (h : History) : Prop where
  done : ∀ entry ∈ h.done, entry.1.Childless
  undone : ∀ command ∈ h.undone, command.Childless

theorem History.childless_empty (depth : Nat) : ({ depth := depth } : History).Childless :=
  ⟨List.forall_mem_nil _, List.forall_mem_nil _⟩

section Effect

variable {h h' : History} {g g' : Graph} {call : HistoryCall}

theorem HistoryCall.effect (call : HistoryCall) (h : History) (g : Graph) :
    Effect h g call (call.perform (h, g)).2.1 (call.perform (h, g)).2.2 := by
  cases call with
  | execute command =>
    simp only [perform, History.execute]
    cases edit : command.execute g with
    | error e => exact .rejected edit
    | ok out => exact .executed edit
  | undo =>
    simp only [perform, History.undo]
    cases entries : h.done with
    | nil => exact .nothingDone entries
    | cons entry earlier => exact .undone entries
  | redo =>
    simp only [perform, History.redo]
    cases commands : h.undone with
    | nil => exact .nothingUndone commands
    | cons command others =>
      dsimp only
      cases edit : command.execute g with
      | error e => exact .dropped commands edit
      | ok out => exact .redone commands edit
  | clear => exact .cleared

/-- A history comes to hold no commands but those that it held and the one it is given. -/
theorem History.Childless.effect (childless : h.Childless) (does : call.Effect h g h' g')
    (given : ∀ command, call = .execute command → command.Childless) : h'.Childless := by
  obtain ⟨done, undone⟩ := childless
  cases does with
  | rejected | nothingDone | nothingUndone => exact ⟨done, undone⟩
  | executed edit =>
    refine ⟨fun entry member => ?_, List.forall_mem_nil _⟩
    rcases List.mem_cons.1 (List.mem_of_mem_take member) with rfl | member
    · exact given _ rfl
    · exact done entry member
  | undone latest =>
    obtain ⟨first, rest⟩ := List.forall_mem_cons.1 (latest ▸ done)
    exact ⟨rest, List.forall_mem_cons.2 ⟨first, undone⟩⟩
  | dropped next => exact ⟨done, (List.forall_mem_cons.1 (next ▸ undone)).2⟩
  | redone next =>
    obtain ⟨first, rest⟩ := List.forall_mem_cons.1 (next ▸ undone)
    exact ⟨List.forall_mem_cons.2 ⟨first, done⟩, rest⟩
  | cleared => exact childless_empty h.depth

/-- Doing goes through the checks of the edits, so only taking back has to fit. -/
theorem Graph.WellFormed.effect (wf : g.WellFormed) (does : call.Effect h g h' g')
    (childless : h.Childless) (given : ∀ command, call = .execute command → command.Childless)
    (fits : call = .undo → ∀ entry ∈ h.done.head?, g.Fits entry.2) : g'.WellFormed := by
  cases does with
  | rejected | nothingDone | nothingUndone | dropped | cleared => exact wf
  | executed edit => exact wf.execute (given _ rfl) edit
  | undone latest => exact wf.undo_iff.2 (fits rfl _ (by rw [latest]; rfl))
  | redone next edit => exact wf.execute (childless.undone _ (next ▸ List.mem_cons_self)) edit

end Effect

/-- A graph and the histories that edit it. -/
structure Sharing where
  histories : Nat → History
  graph : Graph

namespace Sharing

/-- New histories over a new graph. -/
def start (template : NodeTemplate) (depths : Nat → Nat) : Sharing where
  histories m := .withDepth (depths m)
  graph := .new template

/-- One of the histories does a call. -/
def perform (s : Sharing) (m : Nat) (call : HistoryCall) : Sharing :=
  let (_, h, g) := call.perform (s.histories m, s.graph)
  ⟨Function.update s.histories m h, g⟩

/-- The histories do calls, one after the other. -/
def performAll (s : Sharing) (calls : List (Nat × HistoryCall)) : Sharing :=
  calls.foldl (fun s p => s.perform p.1 p.2) s

/-- If the call takes a command back, this fits into the graph as it is. -/
def CallFits (s : Sharing) (m : Nat) (call : HistoryCall) : Prop :=
  call = .undo → ∀ entry ∈ (s.histories m).done.head?, s.graph.Fits entry.2

/-- Whatever is taken back fits into the graph as it is then. -/
def AllFit (s : Sharing) : List (Nat × HistoryCall) → Prop
  | [] => True
  | (m, call) :: rest => s.CallFits m call ∧ (s.perform m call).AllFit rest

/-- The graph is well formed, and all that is done again keeps it so. -/
structure InOrder (s : Sharing) : Prop where
  graph : s.graph.WellFormed
  histories : ∀ m, (s.histories m).Childless

variable {s : Sharing} {m : Nat} {call : HistoryCall} {calls : List (Nat × HistoryCall)}

theorem inOrder_start {template : NodeTemplate} (kind : template.kind = .root)
    (depths : Nat → Nat) : (start template depths).InOrder :=
  ⟨Graph.wellFormed_new kind, fun _ => History.childless_empty _⟩

/-- A call keeps everything in order if what it takes back fits. -/
theorem InOrder.perform (order : s.InOrder)
    (childless : ∀ command, call = .execute command → command.Childless)
    (fits : s.CallFits m call) : (s.perform m call).InOrder := by
  have does := call.effect (s.histories m) s.graph
  have own := order.histories m
  exact {
    graph := order.graph.effect does own childless fits
    histories := (Function.forall_update_iff s.histories fun _ h => h.Childless).2
      ⟨own.effect does childless, fun other _ => order.histories other⟩ }

/-- There is no weaker condition: an undo that does not fit leaves a graph that is not well formed. -/
theorem callFits_undo_iff (wf : s.graph.WellFormed) :
    s.CallFits m .undo ↔ (s.perform m .undo).graph.WellFormed := by
  have does := HistoryCall.effect .undo (s.histories m) s.graph
  rw [CallFits]
  show _ ↔ (HistoryCall.perform .undo (s.histories m, s.graph)).2.2.WellFormed
  generalize (HistoryCall.perform .undo (s.histories m, s.graph)).2 = after at does ⊢
  obtain ⟨h, g⟩ := after
  cases does with
  | nothingDone none => simp [none, wf]
  | undone latest =>
    refine Iff.trans ?_ wf.undo_iff.symm
    simp [latest]

/-- Calls keep everything in order while what they take back fits. -/
theorem InOrder.performAll (order : s.InOrder)
    (childless : ∀ m command, (m, .execute command) ∈ calls → command.Childless)
    (fits : s.AllFit calls) : (s.performAll calls).InOrder := by
  induction calls generalizing s with
  | nil => exact order
  | cons p rest ih =>
    obtain ⟨m, call⟩ := p
    have first := order.perform (fun command eq => childless m command (eq ▸ List.mem_cons_self))
      fits.1
    exact ih first (fun m command member => childless m command (List.mem_cons_of_mem _ member))
      fits.2

theorem AllFit.of_prefix {before : List (Nat × HistoryCall)} (fits : s.AllFit calls)
    (part : before <+: calls) : s.AllFit before := by
  induction before generalizing s calls with
  | nil => trivial
  | cons p rest ih =>
    obtain ⟨others, rfl⟩ := part
    exact ⟨fits.1, ih fits.2 (List.prefix_append rest others)⟩

end Sharing

/-- However the calls of several histories over a new graph interleave, the graph is valid and lists
each of its nodes once after every call, if no undo before puts back what does not fit any more. -/
theorem histories_keep_graph_valid {template : NodeTemplate} (kind : template.kind = .root)
    (depths : Nat → Nat) (calls : List (Nat × HistoryCall))
    (childless : ∀ m command, (m, .execute command) ∈ calls → command.Childless)
    (fits : (Sharing.start template depths).AllFit calls) :
    ∀ before, before <+: calls →
      let g := ((Sharing.start template depths).performAll before).graph
      g.validate = .ok () ∧ ∀ id, g.contains id = true → (g.nodes.map (·.id)).count id = 1 := by
  intro before part
  have order := (Sharing.inOrder_start kind depths).performAll
    (fun m command member => childless m command (part.subset member)) (fits.of_prefix part)
  have wf := order.graph
  refine ⟨(Graph.validate_eq_ok wf.distinct).2 wf.toValid, fun id present => ?_⟩
  obtain ⟨n, member, rfl⟩ := Graph.contains_iff.1 present
  exact List.count_eq_one_of_mem wf.distinct (List.mem_map_of_mem member)

/-- Two histories build on each other's nodes, and each takes back what it did first. -/
theorem histories_keep_graph_valid_leaf :
    let root := NodeTemplate.new TypeId.root .root "Root"
    let node (id : String) (kind : NodeKind) : Node := .ofTemplate id (.new id kind id) {} .empty
    let calls : List (Nat × HistoryCall) := [(0, .execute (.addNode (node "all" .composite))),
      (1, .execute (.addNode (node "leaf" .action))),
      (0, .execute (.addConnection (.toChild "root" "all"))),
      (1, .execute (.addConnection (.toChild "all" "leaf"))), (0, .undo), (1, .undo), (0, .redo)]
    let g := ((Sharing.start root fun _ => 100).performAll calls).graph
    g.validate = .ok () ∧ g.children "root" = ["all"] ∧ g.children "all" = [] := by
  intro root node calls g
  have childless : ∀ m command, (m, .execute command) ∈ calls → command.Childless := by
    simp only [calls, List.mem_cons, Prod.mk.injEq, HistoryCall.execute.injEq, reduceCtorEq,
      and_false, or_false, List.not_mem_nil]
    rintro m command (⟨-, rfl⟩ | ⟨-, rfl⟩ | ⟨-, rfl⟩ | ⟨-, rfl⟩)
    exacts [rfl, rfl, trivial, trivial]
  have fits : (Sharing.start root fun _ => 100).AllFit calls :=
    ⟨nofun, nofun, nofun, nofun, (Sharing.callFits_undo_iff (by decide +kernel)).2 (by decide +kernel),
      (Sharing.callFits_undo_iff (by decide +kernel)).2 (by decide +kernel), nofun, trivial⟩
  exact ⟨(histories_keep_graph_valid rfl _ calls childless fits calls (List.prefix_refl calls)).1,
    by decide +kernel⟩

/-- A node that is there again comes back a second time, and a parent gets the children back that it
had when another one was not yet connected. -/
theorem undo_out_of_date :
    let root := NodeTemplate.new TypeId.root .root "Root"
    let node (id : String) (kind : NodeKind) : Node := .ofTemplate id (.new id kind id) {} .empty
    let result (calls : List (Nat × HistoryCall)) : Graph :=
      ((Sharing.start root fun _ => 100).performAll calls).graph
    (result [(0, .execute (.addNode (node "leaf" .action))), (0, .execute (.removeNodes ["leaf"])),
      (1, .execute (.addNode (node "leaf" .action))), (0, .undo)]).nodes.map (·.id) =
        ["root", "leaf", "leaf"] ∧
    (result [(0, .execute (.addNode (node "all" .composite))),
      (0, .execute (.addNode (node "first" .action))),
      (0, .execute (.addNode (node "second" .action))),
      (0, .execute (.addConnection (.toChild "all" "first"))),
      (1, .execute (.addConnection (.toChild "all" "second"))), (0, .undo)]).validate =
        .error (.connectionWithoutChild "all->second" "all") := by
  decide +kernel

end BehaviorTree
