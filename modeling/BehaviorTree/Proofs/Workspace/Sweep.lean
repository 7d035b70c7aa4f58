import BehaviorTree.Proofs.Workspace.Cascade

/-!
# Cascades for several variables

A cascade shortens the list of connections, and the next one works on what is left. No binding is
stale of two variables (`Stale.unique`), so none of this shows in the end: cascades one after the
other remove what is stale of any of the variables (`swept`), warn for each variable as it would
have been warned for alone (`warning?`), and leave one entry of the history for each warning
(`cascadeAll_sweeps`). Hence the order of a list of type changes does not matter to the graph, and
reconciling a second time does nothing (`reconcile_sweeps`).
-/

namespace BehaviorTree

/-! ## Entries that lead from graph to graph -/

/-- The commands of some entries, the last of which was done first, lead from one graph to another.
None of them adds a node with children. -/
inductive Leads (start : Graph) : List (Command × Receipt) → Graph → Prop
  | none : Leads start [] start
  | step {before g : Graph} {entries : List (Command × Receipt)} {command : Command}
      {receipt : Receipt} (earlier : Leads start entries before) (childless : command.Childless)
      (done : command.execute before = .ok (g, receipt)) :
      Leads start ((command, receipt) :: entries) g

variable {start middle g : Graph} {entries later : List (Command × Receipt)}

theorem Leads.trans (first : Leads start entries middle) (second : Leads middle later g) :
    Leads start (later ++ entries) g := by
  induction second with
  | none => exact first
  | step _ childless done ih => exact .step ih childless done

theorem Leads.consistent (leads : Leads start entries g) (consistent : start.Consistent) :
    g.Consistent := by
  induction leads with
  | none => exact consistent
  | step _ childless done ih => exact ih.execute childless done

/-- A history with more entries, of which the first is the latest. -/
def History.rememberingAll (h : History) (entries : List (Command × Receipt)) : History :=
  entries.foldr (fun entry h => h.remembering entry.1 entry.2) h

theorem History.rememberingAll_append (h : History) (later entries : List (Command × Receipt)) :
    h.rememberingAll (later ++ entries) = (h.rememberingAll entries).rememberingAll later :=
  List.foldr_append

theorem History.depth_rememberingAll (h : History) (entries : List (Command × Receipt)) :
    (h.rememberingAll entries).depth = h.depth := by
  induction entries with
  | nil => rfl
  | cons entry entries ih => exact ih

/-- Entries for which there is room are the latest ones of a history. -/
theorem History.done_rememberingAll {h : History} (room : entries.length ≤ h.depth) :
    ∃ rest, (h.rememberingAll entries).done = entries ++ rest := by
  induction entries with
  | nil => exact ⟨h.done, rfl⟩
  | cons entry entries ih =>
    have room' : entries.length + 1 ≤ h.depth := room
    obtain ⟨rest, eq⟩ := ih (by omega)
    have latest : (h.rememberingAll (entry :: entries)).done =
        (entry :: (h.rememberingAll entries).done).take (h.rememberingAll entries).depth := rfl
    rw [latest, eq, History.depth_rememberingAll, ← List.cons_append, List.take_append,
      List.take_of_length_le room]
    exact ⟨_, rfl⟩

namespace Workspace

variable {ws : Workspace} {name other : String} {scope otherScope : Scope} {v : Variable}
  {c : Connection} {key : String × Scope} {keys : List (String × Scope)}

/-- Undoing the latest entries leads back to where they started from. -/
theorem undo_leads (leads : Leads start entries ws.graph) (consistent : start.Consistent)
    {rest : List (Command × Receipt)} (latest : ws.history.done = entries ++ rest) :
    (ws.performAll (List.replicate entries.length .undo)).graph = start := by
  generalize present : ws.graph = g at leads
  induction leads generalizing ws with
  | none => exact present
  | @step before g entries command receipt earlier _ done ih =>
    have back := (earlier.consistent consistent).undo_execute done
    have undone : (ws.perform .undo).graph = before ∧
        (ws.perform .undo).history.done = entries ++ rest := by
      simp [perform, undo, History.undo, latest, present, back]
    exact ih undone.2 undone.1

/-! ## What is stale -/

/-- Which connections are stale depends on the nodes and the blackboard alone. -/
theorem stale_congr {after : Workspace} (nodes : after.graph.nodes = ws.graph.nodes)
    (board : after.board = ws.board) : after.Stale name scope c ↔ ws.Stale name scope c := by
  unfold Stale
  rw [board]
  simp only [Graph.misfit_congr nodes]

/-- A connection is stale of the variable that feeds it, and of no other. -/
theorem Stale.unique (first : ws.Stale name scope c) (second : ws.Stale other otherScope c) :
    (name, scope) = (other, otherScope) := by
  obtain ⟨-, -, -, ⟨n, found, feeds⟩, -⟩ := first
  obtain ⟨-, -, -, ⟨m, found', feeds'⟩, -⟩ := second
  obtain rfl := Option.some.inj (found.symm.trans found')
  exact Option.some.inj (feeds.symm.trans feeds')

/-- The stale bindings of a variable, in their order. -/
def staleBindings (ws : Workspace) (key : String × Scope) : List Connection :=
  ws.graph.connections.filter fun c => ws.Stale key.1 key.2 c

theorem incompatibleBindings_eq_staleBindings (found : ws.board.find? name scope = some v) :
    ws.graph.incompatibleBindings name scope v.type = ws.staleBindings (name, scope) := by
  rw [Graph.incompatibleBindings_eq, staleBindings]
  apply List.filter_congr
  intro c _
  simp only [stale_iff found]

/-- What a cascade for a variable warns of. -/
def warning? (ws : Workspace) (key : String × Scope) : Option CompatibilityWarning :=
  (ws.board.find? key.1 key.2).bind fun v =>
    if ws.staleBindings key = [] then none
    else some ⟨key.1, key.2, v.type, ws.staleBindings key⟩

theorem warning?_of_fit (fit : ws.staleBindings key = []) : ws.warning? key = none := by
  simp [warning?, fit]

theorem warning?_of_misfit (found : ws.board.find? key.1 key.2 = some v)
    (misfit : ws.staleBindings key ≠ []) :
    ws.warning? key = some ⟨key.1, key.2, v.type, ws.staleBindings key⟩ := by
  simp [warning?, found, misfit]

/-- Only a variable that is defined has stale bindings. -/
theorem exists_of_staleBindings_ne_nil (misfit : ws.staleBindings key ≠ []) :
    ∃ v, ws.board.find? key.1 key.2 = some v := by
  obtain ⟨c, member⟩ := List.exists_mem_of_ne_nil _ misfit
  obtain ⟨v, found, -⟩ := of_decide_eq_true (List.mem_filter.1 member).2
  exact ⟨v, found⟩

theorem warning?_eq_some {w : CompatibilityWarning} : ws.warning? key = some w ↔
    (w.name, w.scope) = key ∧ w.removed = ws.staleBindings key ∧ w.removed ≠ [] ∧
      ∃ v, ws.board.find? key.1 key.2 = some v ∧ w.newType = v.type := by
  by_cases misfit : ws.staleBindings key = []
  · rw [warning?_of_fit misfit, misfit]
    exact iff_of_false nofun fun ⟨_, removed, some_removed, _⟩ => some_removed removed
  · obtain ⟨v, found⟩ := exists_of_staleBindings_ne_nil misfit
    rw [warning?_of_misfit found misfit]
    cases w
    simp only [Option.some.injEq, CompatibilityWarning.mk.injEq, found, Prod.ext_iff]
    constructor
    · rintro ⟨rfl, rfl, rfl, rfl⟩
      exact ⟨⟨rfl, rfl⟩, rfl, misfit, v, rfl, rfl⟩
    · rintro ⟨⟨name, scope⟩, removed, -, v, same, type⟩
      exact ⟨name.symm, scope.symm, same ▸ type.symm, removed.symm⟩

/-- The graph with only those connections that are stale of none of some variables. -/
def swept (ws : Workspace) (keys : List (String × Scope)) : Graph :=
  { ws.graph with
    connections := ws.graph.connections.filter fun c => ∀ key ∈ keys, ¬ ws.Stale key.1 key.2 c }

theorem swept_eq_self (fit : ∀ key ∈ keys, ws.staleBindings key = []) :
    ws.swept keys = ws.graph := by
  have all : ws.graph.connections.filter (fun c => ∀ key ∈ keys, ¬ ws.Stale key.1 key.2 c) =
      ws.graph.connections := by
    refine List.filter_eq_self.2 fun c member => decide_eq_true fun key listed stale => ?_
    simpa [stale] using List.filter_eq_nil_iff.1 (fit key listed) c member
  rw [swept, all]

/-- What is left does not depend on the order of the variables, or on how often one is listed. -/
theorem swept_congr {others : List (String × Scope)} (same : ∀ key, key ∈ keys ↔ key ∈ others) :
    ws.swept keys = ws.swept others := by
  simp only [swept, same]

/-! ## After a cascade -/

section After

variable {after : Workspace} (graph : after.graph = ws.swept keys) (board : after.board = ws.board)

include graph board

theorem stale_swept : after.Stale name scope c ↔ ws.Stale name scope c :=
  stale_congr (by rw [graph, swept]) board

theorem staleBindings_swept (key : String × Scope) : after.staleBindings key =
    if key ∈ keys then [] else ws.staleBindings key := by
  have left : after.staleBindings key =
      (ws.staleBindings key).filter fun c => ∀ key ∈ keys, ¬ ws.Stale key.1 key.2 c := by
    simp only [staleBindings, stale_swept graph board, graph, swept, List.filter_filter,
      Bool.and_comm]
  have stale {c : Connection} (member : c ∈ ws.staleBindings key) : ws.Stale key.1 key.2 c :=
    of_decide_eq_true (List.mem_filter.1 member).2
  rw [left]
  split
  · next listed =>
    exact List.filter_eq_nil_iff.2 fun c member none =>
      of_decide_eq_true none key listed (stale member)
  · next unlisted =>
    refine List.filter_eq_self.2 fun c member => decide_eq_true fun other listed stale' => ?_
    have same : key = other := (stale member).unique stale'
    exact unlisted (same ▸ listed)

/-- Another variable is warned of as before. -/
theorem warning?_swept (unlisted : key ∉ keys) : after.warning? key = ws.warning? key := by
  rw [warning?, board, staleBindings_swept graph board, if_neg unlisted, warning?]

theorem swept_swept (others : List (String × Scope)) :
    after.swept others = ws.swept (keys ++ others) := by
  have all (c : Connection) : (∀ key ∈ others, ¬ after.Stale key.1 key.2 c) ↔
      ∀ key ∈ others, ¬ ws.Stale key.1 key.2 c := by
    simp only [stale_swept graph board]
  simp only [swept, graph, all, List.filter_filter, List.forall_mem_append, Bool.decide_and,
    Bool.and_comm]

end After

/-! ## Cascades -/

/-- A workspace with another graph and with more entries in its history. -/
def remembering (ws : Workspace) (entries : List (Command × Receipt)) (g : Graph) : Workspace :=
  { ws with graph := g, history := ws.history.rememberingAll entries }

/-- A cascade removes what is stale of its variable. If it warns, one command is remembered. -/
theorem cascade_sweeps (ids : (ws.graph.connections.map (·.id)).Nodup)
    (key : String × Scope) : ∃ entries, Leads ws.graph entries (ws.swept [key]) ∧
      entries.map (·.1) = (ws.warning? key).toList.map (fun w => .disconnect w.removed) ∧
      ws.cascade key.1 key.2 =
        (.ok (ws.warning? key), ws.remembering entries (ws.swept [key])) := by
  by_cases fit : ws.staleBindings key = []
  · have same : ws.swept [key] = ws.graph := swept_eq_self (by simpa using fit)
    refine ⟨[], same ▸ .none, by rw [warning?_of_fit fit]; rfl, ?_⟩
    rw [warning?_of_fit fit, same]
    refine cascade_of_fit fun v found => ?_
    rw [incompatibleBindings_eq_staleBindings found, fit]
  · obtain ⟨v, found⟩ := exists_of_staleBindings_ne_nil fit
    have removed := incompatibleBindings_eq_staleBindings found
    obtain ⟨receipt, done, eq⟩ := cascade_of_misfit ids found (removed ▸ fit)
    have left : ws.graph.withoutMisfits key.1 key.2 v.type = ws.swept [key] := by
      simp only [Graph.withoutMisfits, swept, List.forall_mem_singleton, stale_iff found]
    rw [left, removed] at done eq
    rw [warning?_of_misfit found fit]
    have childless : (Command.disconnect (ws.staleBindings key)).Childless := trivial
    exact ⟨[(_, receipt)], .step .none childless done, rfl, eq⟩

/-- Cascades for variables one after the other remove what is stale of any of them, and warn for
each as if it were the only one. -/
theorem cascadeAll_sweeps (ids : (ws.graph.connections.map (·.id)).Nodup) (nodup : keys.Nodup) :
    ∃ entries, Leads ws.graph entries (ws.swept keys) ∧
      entries.map (·.1) =
        ((keys.filterMap ws.warning?).map fun w => .disconnect w.removed).reverse ∧
      ws.cascadeAll keys =
        (.ok (keys.filterMap ws.warning?), ws.remembering entries (ws.swept keys)) := by
  induction keys generalizing ws with
  | nil =>
    have same : ws.swept [] = ws.graph := swept_eq_self (by simp)
    exact ⟨[], same ▸ .none, rfl, by rw [same]; rfl⟩
  | cons key rest ih =>
    obtain ⟨new, nodup⟩ := List.nodup_cons.1 nodup
    obtain ⟨entries, leads, commands, step⟩ := cascade_sweeps ids key
    let first := ws.remembering entries (ws.swept [key])
    have graph : first.graph = ws.swept [key] := rfl
    have board : first.board = ws.board := rfl
    have left : (first.graph.connections.map (·.id)).Nodup :=
      ids.sublist (List.filter_sublist.map _)
    obtain ⟨later, leads', commands', steps⟩ := ih left nodup
    have warnings : rest.filterMap first.warning? = rest.filterMap ws.warning? := by
      refine List.filterMap_congr fun other listed => warning?_swept graph board fun same => ?_
      exact new (List.mem_singleton.1 same ▸ listed)
    have both : first.swept rest = ws.swept (key :: rest) := swept_swept graph board rest
    rw [both] at leads' steps
    rw [warnings] at commands' steps
    have all : (key :: rest).filterMap ws.warning? =
        (ws.warning? key).toList ++ rest.filterMap ws.warning? := by
      cases warned : ws.warning? key <;> simp [warned]
    refine ⟨later ++ entries, leads.trans leads', ?_, ?_⟩
    · rw [List.map_append, commands, commands', all, List.map_append, List.reverse_append]
      cases ws.warning? key <;> rfl
    · rw [all, cascadeAll, step]
      dsimp only
      rw [steps, remembering, remembering, History.rememberingAll_append]
      rfl

/-! ## Lists of type changes -/

theorem nodup_eraseDups {α : Type} [BEq α] [LawfulBEq α] : ∀ xs : List α, xs.eraseDups.Nodup
  | [] => by simp
  | x :: xs => by
    have shorter : (xs.filter fun y => !y == x).length < xs.length + 1 :=
      Nat.lt_succ_of_le (List.length_filter_le ..)
    rw [List.eraseDups_cons, List.nodup_cons]
    exact ⟨by simp [List.mem_eraseDups], nodup_eraseDups _⟩
termination_by xs => xs.length

theorem nodup_changedVariables (changes : List TypeChange) : (changedVariables changes).Nodup :=
  nodup_eraseDups _

theorem mem_changedVariables {changes : List TypeChange} :
    (name, scope) ∈ changedVariables changes ↔ Names changes name scope := by
  simp [changedVariables, Names, List.mem_eraseDups]

/-- The connections that are left by a list of type changes. -/
theorem swept_changedVariables (changes : List TypeChange) :
    ws.swept (changedVariables changes) = { ws.graph with
      connections := ws.graph.connections.filter fun c =>
        ∀ change ∈ changes, ¬ ws.Stale change.name change.scope c } := by
  have same (c : Connection) :
      (∀ key ∈ changedVariables changes, ¬ ws.Stale key.1 key.2 c) ↔
        ∀ change ∈ changes, ¬ ws.Stale change.name change.scope c := by
    simp [changedVariables, List.mem_eraseDups]
  simp only [swept, same]

/-- Each variable is warned of at most once. -/
theorem nodup_filterMap_warning? (nodup : keys.Nodup) :
    ((keys.filterMap ws.warning?).map fun w => (w.name, w.scope)).Nodup := by
  have sub : ((keys.filterMap ws.warning?).map fun w => (w.name, w.scope)).Sublist keys := by
    clear nodup
    induction keys with
    | nil => exact .slnil
    | cons key rest ih =>
      cases warned : ws.warning? key with
      | none => simpa [warned] using ih.cons key
      | some w =>
        obtain ⟨rfl, -⟩ := warning?_eq_some.1 warned
        simpa [warned] using ih.cons_cons (w.name, w.scope)
  exact nodup.sublist sub

/-- Reconciling removes what is stale of the variables that a list of type changes names, whatever
their order and whatever else the list says. It warns once of each variable of which something was
stale, and each warning stands for one entry of the history; undoing them brings the graph back.
Reconciling with the same list again does nothing. -/
theorem reconcile_sweeps (arises : ws.Arises) (changes : List TypeChange) :
    ∃ warnings, (ws.reconcile changes).1 = .ok warnings ∧
      let after := (ws.reconcile changes).2
      (after.graph = { ws.graph with
          connections := ws.graph.connections.filter fun c =>
            ∀ change ∈ changes, ¬ ws.Stale change.name change.scope c } ∧
        ∀ others, (∀ name scope, Names others name scope ↔ Names changes name scope) →
          (ws.reconcile others).2.graph = after.graph) ∧
      ((warnings.map fun w => (w.name, w.scope)).Nodup ∧
        ∀ w, w ∈ warnings ↔ Names changes w.name w.scope ∧ w.removed ≠ [] ∧
          w.removed = ws.graph.connections.filter (fun c => ws.Stale w.name w.scope c) ∧
          ∃ v, ws.board.find? w.name w.scope = some v ∧ w.newType = v.type) ∧
      (∃ entries, after.history = ws.history.rememberingAll entries ∧
        entries.map (·.1) = (warnings.map fun w => .disconnect w.removed).reverse) ∧
      (warnings.length ≤ ws.history.depth →
        (after.performAll (List.replicate warnings.length .undo)).graph = ws.graph) ∧
      after.reconcile changes = (.ok [], after) := by
  have consistent := arises.consistent
  have nodup := nodup_changedVariables changes
  have result (changes : List TypeChange) :=
    cascadeAll_sweeps consistent.connection_ids (nodup_changedVariables changes)
  obtain ⟨entries, leads, commands, done⟩ := result changes
  have length : entries.length = ((changedVariables changes).filterMap ws.warning?).length := by
    simpa using congrArg List.length commands
  simp only [reconcile, done]
  refine ⟨_, rfl, ⟨swept_changedVariables changes, fun others same => ?_⟩,
    ⟨nodup_filterMap_warning? nodup, fun w => ?_⟩, ⟨entries, rfl, commands⟩, fun room => ?_, ?_⟩
  · obtain ⟨_, -, -, done'⟩ := result others
    rw [done']
    exact swept_congr fun key =>
      mem_changedVariables.trans ((same key.1 key.2).trans mem_changedVariables.symm)
  · rw [List.mem_filterMap]
    constructor
    · rintro ⟨key, listed, warned⟩
      obtain ⟨rfl, removed, some_removed, type⟩ := warning?_eq_some.1 warned
      exact ⟨mem_changedVariables.1 listed, some_removed, removed, type⟩
    · rintro ⟨named, some_removed, removed, type⟩
      exact ⟨_, mem_changedVariables.2 named,
        warning?_eq_some.2 ⟨rfl, removed, some_removed, type⟩⟩
  · rw [← length] at room ⊢
    obtain ⟨rest, latest⟩ : ∃ rest,
        (ws.remembering entries (ws.swept (changedVariables changes))).history.done =
          entries ++ rest := History.done_rememberingAll room
    exact undo_leads leads consistent latest
  · let after := ws.remembering entries (ws.swept (changedVariables changes))
    have graph : after.graph = ws.swept (changedVariables changes) := rfl
    have board : after.board = ws.board := rfl
    have ids : (after.graph.connections.map (·.id)).Nodup :=
      (leads.consistent consistent).connection_ids
    have fit : ∀ key ∈ changedVariables changes, after.staleBindings key = [] := fun key listed =>
      (staleBindings_swept graph board key).trans (if_pos listed)
    have silent : (changedVariables changes).filterMap after.warning? = [] :=
      List.filterMap_eq_nil_iff.2 fun key listed => warning?_of_fit (fit key listed)
    obtain ⟨more, -, commands', again⟩ := cascadeAll_sweeps ids nodup
    rw [silent] at commands' again
    obtain rfl : more = [] := List.map_eq_nil_iff.1 commands'
    rw [again, swept_eq_self fit]
    rfl

/-- A workspace in which a variable became a text without the graph being told. -/
def untoldWorkspace : Workspace :=
  boundWorkspace.perform <| .blackboard fun s =>
    (s.transact fun board => board.set "delay" (.string "soon") .tree).2

/-- Of three changes two are about the variable and one about a variable that is not there. The wait
loses its duration by one command, which can be undone. -/
theorem reconcile_sweeps_wait :
    let changes : List TypeChange := [⟨"delay", .tree, .number, .string⟩,
      ⟨"pause", .tree, .number, .string⟩, ⟨"delay", .tree, .string, .boolean⟩]
    let after := (untoldWorkspace.reconcile changes).2
    after.graph.connections = [.toSlot "blackboard-variable-1" "log-2" "message"] ∧
      (after.perform .undo).graph = untoldWorkspace.graph ∧
      (after.reconcile changes).1 = .ok [] := by
  intro changes after
  have arises : untoldWorkspace.Arises := arises_boundWorkspace.perform _
  obtain ⟨warnings, answered, ⟨graph, -⟩, -, -, undone, again⟩ := reconcile_sweeps arises changes
  have warned : (untoldWorkspace.reconcile changes).1 = .ok [⟨"delay", .tree, .string,
      [.toSlot "blackboard-variable-1" "wait-3" "duration"]⟩] := by decide +kernel
  obtain rfl := Except.ok.inj (answered.symm.trans warned)
  have left : (untoldWorkspace.graph.connections.filter fun c =>
      ∀ change ∈ changes, ¬ untoldWorkspace.Stale change.name change.scope c) =
        [.toSlot "blackboard-variable-1" "log-2" "message"] := by decide +kernel
  exact ⟨(congrArg Graph.connections graph).trans left, undone (by decide +kernel),
    congrArg Prod.fst again⟩

end Workspace

end BehaviorTree
