import BehaviorTree.Proofs.History.Commands

/-!
# Bindings that do not fit their slots

A binding from a variable is a misfit for a type if it leads into a declared slot that does not take
that type (`Misfit`). Looking for the incompatible bindings of a variable filters the misfits out of
the connections, in their order (`incompatibleBindings_eq`), and the command that disconnects them
leaves exactly the other connections (`execute_disconnect_misfits`).
-/

namespace BehaviorTree.Graph

/-- A connection leads from a node of the variable into a declared slot that does not take the
type. -/
structure Misfit (g : Graph) (name : String) (scope : Scope) (type : ValueType) (c : Connection) :
    Prop where
  binding : c.kind = .binding
  feeds : ∃ n, g.node? c.source = some n ∧ n.variableReference? = some (name, scope)
  refuses : ∃ n slotName slot, g.node? c.target = some n ∧ c.targetSlot = some slotName ∧
    n.template.slot? slotName = some slot ∧ slot.slotType.accepts type = false

variable {g : Graph} {name : String} {scope : Scope} {type : ValueType} {c : Connection}
  {removed : List Connection}

/-! ## Finding them -/

theorem variableFeeding?_eq_some : g.variableFeeding? c = some (name, scope) ↔
    ∃ n, g.node? c.source = some n ∧ n.variableReference? = some (name, scope) :=
  Option.bind_eq_some_iff

theorem targetSlotType?_eq_some {slotType : SlotType} : g.targetSlotType? c = some slotType ↔
    ∃ n slotName slot, g.node? c.target = some n ∧ c.targetSlot = some slotName ∧
      n.template.slot? slotName = some slot ∧ slot.slotType = slotType := by
  unfold targetSlotType?
  cases g.node? c.target <;> cases c.targetSlot <;> simp [Option.bind_eq_some_iff]

/-- Whether a connection is a misfit, as it is checked. -/
theorem misfit_iff : g.Misfit name scope type c ↔
    (!c.isChild && g.variableFeeding? c == some (name, scope) &&
      (match g.targetSlotType? c with
        | some slotType => !slotType.accepts type
        | none => false)) = true := by
  have kind : (!c.isChild) = true ↔ c.kind = .binding := by
    rw [Connection.isChild]
    cases c.kind <;> simp
  have refused : (match g.targetSlotType? c with
        | some slotType => !slotType.accepts type
        | none => false) = true ↔
      ∃ slotType, g.targetSlotType? c = some slotType ∧ slotType.accepts type = false := by
    cases g.targetSlotType? c <;> simp
  rw [Bool.and_eq_true, Bool.and_eq_true, kind, beq_iff_eq, variableFeeding?_eq_some, refused]
  simp only [targetSlotType?_eq_some]
  constructor
  · rintro ⟨binding, feeds, n, slotName, slot, target, named, declared, refuses⟩
    exact ⟨⟨binding, feeds⟩, _, ⟨n, slotName, slot, target, named, declared, rfl⟩, refuses⟩
  · rintro ⟨⟨binding, feeds⟩, _, ⟨n, slotName, slot, target, named, declared, rfl⟩, refuses⟩
    exact ⟨binding, feeds, n, slotName, slot, target, named, declared, refuses⟩

instance : DecidablePred (g.Misfit name scope type) := fun _ => decidable_of_iff _ misfit_iff.symm

theorem incompatibleBindings_eq : g.incompatibleBindings name scope type =
    g.connections.filter fun c => g.Misfit name scope type c := by
  apply List.filter_congr
  intro c _
  apply Bool.eq_iff_iff.2
  exact misfit_iff.symm.trans decide_eq_true_iff.symm

theorem Misfit.isChild (misfit : g.Misfit name scope type c) : c.isChild = false := by
  rw [Connection.isChild, misfit.binding]
  rfl

/-- Whether a connection is a misfit depends on the nodes alone. -/
theorem misfit_congr {h : Graph} (nodes : h.nodes = g.nodes) :
    h.Misfit name scope type c ↔ g.Misfit name scope type c := by
  have same (id : String) : h.node? id = g.node? id := by rw [node?, node?, nodes]
  constructor
  · rintro ⟨binding, feeds, refuses⟩
    rw [same] at feeds
    simp only [same] at refuses
    exact ⟨binding, feeds, refuses⟩
  · rintro ⟨binding, feeds, refuses⟩
    rw [← same] at feeds
    simp only [← same] at refuses
    exact ⟨binding, feeds, refuses⟩

/-! ## Removing them -/

/-- Connections of different ids are all kept. -/
theorem foldl_firstOfEachId (kept : List Connection)
    (ids : ((kept ++ removed).map (·.id)).Nodup) :
    removed.foldl (fun kept c => if kept.any fun d => d.id == c.id then kept else kept ++ [c])
      kept = kept ++ removed := by
  induction removed generalizing kept with
  | nil => simp
  | cons c rest ih =>
    have new : ¬ (kept.any fun d => d.id == c.id) = true := by
      intro taken
      obtain ⟨d, member, same⟩ := List.any_eq_true.1 taken
      rw [List.map_append, List.nodup_append] at ids
      apply ids.2.2 d.id (List.mem_map_of_mem member) c.id List.mem_cons_self
      exact beq_iff_eq.1 same
    have later : ((kept ++ [c] ++ rest).map (·.id)).Nodup := by simpa using ids
    rw [List.foldl_cons, if_neg new, ih _ later, List.append_assoc, List.singleton_append]

theorem firstOfEachId_eq_self (ids : (removed.map (·.id)).Nodup) :
    firstOfEachId removed = removed :=
  foldl_firstOfEachId [] ids

/-- A binding of the graph is found by its id and taken out of the connections. -/
theorem disconnectStep_binding (ids : (g.connections.map (·.id)).Nodup) (member : c ∈ g.connections)
    (binding : c.isChild = false) (before : List ConnectionChange) :
    ∃ change, Command.disconnectStep (g, before) c =
      .ok ({ g with connections := g.connections.erase c }, change :: before) := by
  obtain ⟨index, here, done⟩ := disconnect_of_mem ids member
  obtain ⟨bound, rfl⟩ := List.getElem?_eq_some_iff.1 here
  rw [disconnectAt_binding binding] at done
  have erased : g.connections.erase g.connections[index] = g.connections.eraseIdx index :=
    ids.of_map.erase_getElem index bound
  rw [erased]
  exact ⟨_, Checks.bind_eq_ok.2 ⟨_, done, rfl⟩⟩

/-- Bindings that are removed one after the other are filtered out of the connections. -/
theorem foldlM_disconnectStep_bindings (ids : (g.connections.map (·.id)).Nodup)
    (present : ∀ c ∈ removed, c ∈ g.connections) (bindings : ∀ c ∈ removed, c.isChild = false)
    (nodup : removed.Nodup) (before : List ConnectionChange) :
    ∃ changes, removed.foldlM Command.disconnectStep (g, before) =
      .ok ({ g with connections := g.connections.filter fun c => c ∉ removed }, changes) := by
  induction removed generalizing g before with
  | nil => exact ⟨before, by simp [pure, Except.pure]⟩
  | cons c rest ih =>
    obtain ⟨new, nodup⟩ := List.nodup_cons.1 nodup
    obtain ⟨change, step⟩ := disconnectStep_binding ids (present c List.mem_cons_self)
      (bindings c List.mem_cons_self) before
    have others : ∀ d ∈ rest, d ∈ g.connections.erase c := by
      intro d member
      have ne : d ≠ c := by
        rintro rfl
        exact new member
      exact (List.mem_erase_of_ne ne).2 (present d (List.mem_cons_of_mem _ member))
    obtain ⟨changes, steps⟩ :=
      ih (g := { g with connections := g.connections.erase c })
        (ids.sublist (List.erase_sublist.map _)) others
        (fun d member => bindings d (List.mem_cons_of_mem _ member)) nodup (change :: before)
    refine ⟨changes, Checks.foldlM_cons_eq_ok.2 ⟨_, step, ?_⟩⟩
    have left : (g.connections.erase c).filter (fun d => d ∉ rest) =
        g.connections.filter fun d => d ∉ c :: rest := by
      rw [ids.of_map.erase_eq_filter, List.filter_filter]
      apply List.filter_congr
      intro d _
      by_cases same : d = c <;> simp [same]
    rw [← left]
    exact steps

/-- The graph with only those of its connections that are no misfits. -/
def withoutMisfits (g : Graph) (name : String) (scope : Scope) (type : ValueType) : Graph :=
  { g with connections := g.connections.filter fun c => ¬ g.Misfit name scope type c }

/-- Disconnecting all misfits always goes through, and leaves all other connections. -/
theorem execute_disconnect_misfits (ids : (g.connections.map (·.id)).Nodup) (name : String)
    (scope : Scope) (type : ValueType) :
    ∃ receipt, (Command.disconnect (g.incompatibleBindings name scope type)).execute g =
      .ok (g.withoutMisfits name scope type, receipt) := by
  rw [incompatibleBindings_eq]
  let misfits := g.connections.filter fun c => g.Misfit name scope type c
  have member {c : Connection} : c ∈ misfits ↔ c ∈ g.connections ∧ g.Misfit name scope type c := by
    simp [misfits]
  have own : (misfits.map (·.id)).Nodup := ids.sublist (List.filter_sublist.map _)
  have present : ∀ c ∈ misfits, c ∈ g.connections := fun c listed => (member.1 listed).1
  obtain ⟨changes, done⟩ := foldlM_disconnectStep_bindings ids present
    (fun c listed => (member.1 listed).2.isChild) own.of_map []
  have connected : misfits.forM (Command.checkConnected g) = .ok () := by
    refine Checks.forM_eq_ok.2 fun c listed => ?_
    have found : (g.connection? c.id).isSome = true := by
      rw [connection?, List.find?_isSome]
      exact ⟨c, (member.1 listed).1, beq_self_eq_true _⟩
    rw [Command.checkConnected, if_pos found]
  have left : g.connections.filter (fun c => c ∉ misfits) =
      g.connections.filter fun c => ¬ g.Misfit name scope type c := by
    apply List.filter_congr
    intro c listed
    simp [member, listed]
  refine ⟨.disconnected changes, ?_⟩
  rw [Command.disconnect, firstOfEachId_eq_self own]
  refine execute_removeConnections.2 ⟨connected, changes, ?_, rfl⟩
  rw [withoutMisfits, ← left]
  exact done

/-- Nothing changes where there are no misfits. -/
theorem withoutMisfits_eq_self (none : g.incompatibleBindings name scope type = []) :
    g.withoutMisfits name scope type = g := by
  rw [incompatibleBindings_eq, List.filter_eq_nil_iff] at none
  have all : g.connections.filter (fun c => ¬ g.Misfit name scope type c) = g.connections :=
    List.filter_eq_self.2 fun c member => by simpa using none c member
  rw [withoutMisfits, all]

/-- No misfit is left. -/
theorem not_misfit_withoutMisfits (g : Graph) (name : String) (scope : Scope) (type : ValueType) :
    ∀ c ∈ (g.withoutMisfits name scope type).connections,
      ¬ (g.withoutMisfits name scope type).Misfit name scope type c := by
  intro c member misfit
  obtain ⟨-, fits⟩ := List.mem_filter.1 member
  have nodes : (g.withoutMisfits name scope type).nodes = g.nodes := rfl
  exact of_decide_eq_true fits ((misfit_congr nodes).1 misfit)

end BehaviorTree.Graph
