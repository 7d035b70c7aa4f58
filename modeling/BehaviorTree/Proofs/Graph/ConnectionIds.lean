import BehaviorTree.Proofs.History.Timeline

/-!
# What the id of a connection tells

The id of a connection joins up to four texts by an arrow and by dots, and does not mark where a
text contains such signs itself. If what stands before the arrow contains no arrow and the nodes at
the ends of bindings have no dots (`Separable`), the id can be taken apart again, and connections of
the same id have the same ends (`id_eq_iff`). Then only a repetition is refused as a duplicate.
Otherwise connections of different ends may share their id, and the second one is refused
(`ids_collide`). A connection that a graph has is found by its id in any case, because no two of a
graph have the same one (`ids_identify_connections`).
-/

namespace BehaviorTree

namespace Connection

variable {c d : Connection} {node other : String} {slot otherSlot : Option String}

/-- The sign with which the arrow of a connection begins. -/
def shaft : ConnectionKind → Char
  | .child => '-'
  | .binding => '='

/-- Neither arrow occurs in a text. -/
def Arrowless (text : List Char) : Prop := ∀ kind, ¬ [shaft kind, '>'] <:+: text

theorem arrowless_of_not_mem {text : List Char} (none : '>' ∉ text) : Arrowless text :=
  fun _ found => none (found.subset (by simp))

/-- The text before the arrow. -/
def tail (c : Connection) : String :=
  match c.kind with
  | .child => c.source
  | .binding => endpoint c.source c.sourceSlot

/-- The text behind the arrow. -/
def head (c : Connection) : String :=
  match c.kind with
  | .child => c.target
  | .binding => endpoint c.target c.targetSlot

theorem toList_id (c : Connection) :
    c.id.toList = c.tail.toList ++ shaft c.kind :: '>' :: c.head.toList := by
  unfold id tail head
  cases c.kind <;> simp [String.toList_append, shaft]

/-! ## Taking an id apart -/

theorem shaft_ne_tip (kind : ConnectionKind) : shaft kind ≠ '>' := by
  cases kind <;> decide

theorem shaft_ne_dot (kind : ConnectionKind) : shaft kind ≠ '.' := by
  cases kind <;> decide

theorem shaft_injective {kind kind' : ConnectionKind} (same : shaft kind = shaft kind') :
    kind = kind' := by
  cases kind <;> cases kind' <;> first | rfl | exact absurd same (by decide)

/-- An arrow that begins at the end of a text, or in it, begins at its end if the text has none. -/
theorem eq_nil_of_arrowless {before rest after after' : List Char} {kind kind' : ConnectionKind}
    (arrowless : Arrowless (before ++ rest))
    (same : shaft kind :: '>' :: after = rest ++ shaft kind' :: '>' :: after') : rest = [] := by
  match rest, same with
  | [], _ => rfl
  | [x], same =>
    injection same with _ same
    injection same with tip
    exact absurd tip.symm (shaft_ne_tip kind')
  | x :: y :: rest, same =>
    injection same with first same
    injection same with second
    exact absurd ⟨before, rest, by rw [first, second]; simp⟩ (arrowless kind)

/-- Texts without arrows are told apart by what stands before the first arrow. -/
theorem split_at_arrow {before before' after after' : List Char} {kind kind' : ConnectionKind}
    (arrowless : Arrowless before) (arrowless' : Arrowless before')
    (same : before ++ shaft kind :: '>' :: after = before' ++ shaft kind' :: '>' :: after') :
    before = before' ∧ kind = kind' ∧ after = after' := by
  have split : before = before' := by
    rcases List.append_eq_append_iff.1 same with ⟨rest, rfl, eq⟩ | ⟨rest, rfl, eq⟩
    · rw [eq_nil_of_arrowless arrowless' eq, List.append_nil]
    · rw [eq_nil_of_arrowless arrowless eq, List.append_nil]
  subst split
  have arrows := List.append_cancel_left same
  injection arrows with shafts tips
  injection tips with _ after
  exact ⟨rfl, shaft_injective shafts, after⟩

/-- A dot between texts makes no arrow of them. -/
theorem Arrowless.dot {first second : List Char} (arrowless : Arrowless first)
    (arrowless' : Arrowless second) : Arrowless (first ++ '.' :: second) := by
  rintro kind ⟨before, after, same⟩
  rw [List.append_assoc] at same
  rcases List.append_eq_append_iff.1 same with ⟨rest, rfl, eq⟩ | ⟨rest, rfl, eq⟩ <;> clear same
  · match rest, eq with
    | [], eq =>
      injection eq with dot
      exact shaft_ne_dot kind dot
    | [x], eq =>
      injection eq with _ eq
      injection eq with dot
      exact absurd dot (by decide)
    | x :: y :: rest, eq =>
      injection eq with first eq
      injection eq with second
      exact arrowless kind ⟨before, rest, by rw [← first, ← second]; simp⟩
  · match rest, eq with
    | [], eq =>
      injection eq with dot
      exact shaft_ne_dot kind dot.symm
    | x :: rest, eq =>
      injection eq with _ eq
      exact arrowless' kind ⟨rest, after, by rw [eq]; simp⟩

theorem toList_endpoint_some (node name : String) :
    (endpoint node (some name)).toList = node.toList ++ '.' :: name.toList := by
  simp [endpoint, String.toList_append]

theorem arrowless_endpoint (arrowless : Arrowless node.toList)
    (named : ∀ name, slot = some name → Arrowless name.toList) :
    Arrowless (endpoint node slot).toList := by
  cases slot with
  | none => exact arrowless
  | some name =>
    rw [toList_endpoint_some]
    exact arrowless.dot (named name rfl)

/-- A node without dots is no node with a slot. -/
theorem ne_endpoint_some {name : String} (dotless : '.' ∉ node.toList) :
    node ≠ endpoint other (some name) := by
  rintro rfl
  rw [toList_endpoint_some] at dotless
  exact dotless (List.mem_append_right _ List.mem_cons_self)

/-- Texts without dots are told apart by what stands before the first dot. -/
theorem split_at_dot {before before' after after' : List Char} (dotless : '.' ∉ before)
    (dotless' : '.' ∉ before') (same : before ++ '.' :: after = before' ++ '.' :: after') :
    before = before' ∧ after = after' := by
  have none {xs rest ys zs : List Char} (dotless : '.' ∉ xs ++ rest)
      (eq : '.' :: ys = rest ++ '.' :: zs) : rest = [] := by
    match rest, eq with
    | [], _ => rfl
    | x :: rest, eq =>
      injection eq with dot
      exact absurd (List.mem_append_right xs (dot ▸ List.mem_cons_self)) dotless
  have split : before = before' := by
    rcases List.append_eq_append_iff.1 same with ⟨rest, rfl, eq⟩ | ⟨rest, rfl, eq⟩
    · rw [none dotless' eq, List.append_nil]
    · rw [none dotless eq, List.append_nil]
  subst split
  exact ⟨rfl, List.tail_eq_of_cons_eq (List.append_cancel_left same)⟩

/-- Where nodes have no dots in their ids, the first dot begins the name of a slot. -/
theorem endpoint_inj (dotless : '.' ∉ node.toList) (dotless' : '.' ∉ other.toList)
    (same : endpoint node slot = endpoint other otherSlot) : node = other ∧ slot = otherSlot := by
  match slot, otherSlot with
  | none, none => exact ⟨same, rfl⟩
  | none, some name => exact absurd same (ne_endpoint_some dotless)
  | some name, none => exact absurd same.symm (ne_endpoint_some dotless')
  | some name, some otherName =>
    have texts := String.toList_inj.2 same
    rw [toList_endpoint_some, toList_endpoint_some] at texts
    obtain ⟨nodes, names⟩ := split_at_dot dotless dotless' texts
    exact ⟨String.toList_inj.1 nodes, congrArg some (String.toList_inj.1 names)⟩

/-! ## The ends of a connection -/

/-- No arrow stands before the arrow of the id, and no dot in the ids of the nodes of a binding. -/
structure Separable (c : Connection) : Prop where
  source : Arrowless c.source.toList
  sourceSlot : c.kind = .binding → ∀ name, c.sourceSlot = some name → Arrowless name.toList
  dotless : c.kind = .binding → '.' ∉ c.source.toList ∧ '.' ∉ c.target.toList

theorem separable_toChild {parent child : String} (arrowless : Arrowless parent.toList) :
    (toChild parent child).Separable :=
  ⟨arrowless, nofun, nofun⟩

theorem separable_toSlot {source target name : String} (arrowless : Arrowless source.toList)
    (dotless : '.' ∉ source.toList) (dotless' : '.' ∉ target.toList) :
    (toSlot source target name).Separable :=
  ⟨arrowless, nofun, fun _ => ⟨dotless, dotless'⟩⟩

/-- Connections are of one kind and have the same ends. A child connection has no slots. -/
def SameEnds (c d : Connection) : Prop :=
  c.kind = d.kind ∧ c.source = d.source ∧ c.target = d.target ∧
    (c.kind = .binding → c.sourceSlot = d.sourceSlot ∧ c.targetSlot = d.targetSlot)

instance : Decidable (c.SameEnds d) := inferInstanceAs (Decidable (_ ∧ _ ∧ _ ∧ _))

theorem SameEnds.id_eq (same : c.SameEnds d) : c.id = d.id := by
  obtain ⟨kind, source, target, slots⟩ := same
  unfold id
  rw [← kind]
  cases eq : c.kind with
  | child => simp [source, target]
  | binding =>
    obtain ⟨sourceSlot, targetSlot⟩ := slots eq
    simp [source, target, sourceSlot, targetSlot]

theorem Separable.arrowless_tail (separable : c.Separable) : Arrowless c.tail.toList := by
  unfold tail
  split
  · exact separable.source
  · next kind => exact arrowless_endpoint separable.source (separable.sourceSlot kind)

/-- Separable connections have the same id exactly if they have the same ends. -/
theorem id_eq_iff (separable : c.Separable) (separable' : d.Separable) :
    c.id = d.id ↔ c.SameEnds d := by
  refine ⟨fun same => ?_, SameEnds.id_eq⟩
  have texts := String.toList_inj.2 same
  rw [toList_id, toList_id] at texts
  obtain ⟨tails, kinds, heads⟩ :=
    split_at_arrow separable.arrowless_tail separable'.arrowless_tail texts
  have tails : c.tail = d.tail := String.toList_inj.1 tails
  have heads : c.head = d.head := String.toList_inj.1 heads
  unfold tail at tails
  unfold head at heads
  refine ⟨kinds, ?_⟩
  cases kind : c.kind with
  | child =>
    rw [← kinds, kind] at tails heads
    exact ⟨tails, heads, fun binding => nomatch binding⟩
  | binding =>
    rw [← kinds, kind] at tails heads
    have dotless := separable.dotless kind
    have dotless' := separable'.dotless (kinds ▸ kind)
    obtain ⟨source, sourceSlot⟩ := endpoint_inj dotless.1 dotless'.1 tails
    obtain ⟨target, targetSlot⟩ := endpoint_inj dotless.2 dotless'.2 heads
    exact ⟨source, target, fun _ => ⟨sourceSlot, targetSlot⟩⟩

end Connection

namespace Graph

variable {g : Graph} {c : Connection} {s t n : Node} {id : String}
  {connections : List Connection} {nodes : List Node}

/-! ## Refusals of a duplicate -/

theorem checkNewChild_ne_duplicate :
    g.checkNewChild s t ≠ .error (.duplicateConnection id) := by
  unfold checkNewChild
  repeat' split
  all_goals simp

theorem checkNewBinding_ne_duplicate {slot : Option String} :
    g.checkNewBinding t slot ≠ .error (.duplicateConnection id) := by
  unfold checkNewBinding
  dsimp only
  repeat' split
  all_goals simp

/-- A connection is refused as a duplicate of one that has its id. -/
theorem exists_of_checkConnection_duplicate
    (refused : g.checkConnection c = .error (.duplicateConnection id)) :
    ∃ d ∈ g.connections, d.id = c.id := by
  unfold checkConnection at refused
  split at refused
  · cases refused
  · cases refused
  split at refused
  · cases refused
  split at refused
  · cases refused
  split at refused
  · next taken => simpa using taken
  split at refused
  · exact absurd refused checkNewChild_ne_duplicate
  · exact absurd refused checkNewBinding_ne_duplicate

theorem checkRoot_ne_duplicate : g.checkRoot ≠ .error (.duplicateConnection id) := by
  unfold checkRoot
  repeat' split
  all_goals simp

theorem checkChild_ne_duplicate {parent child : String} {parents : Parents} :
    g.checkChild parent parents child ≠ .error (.duplicateConnection id) := by
  unfold checkChild
  repeat' split
  all_goals simp

theorem checkChildren_ne_duplicate {parents : Parents} :
    g.checkChildren parents n ≠ .error (.duplicateConnection id) := by
  unfold checkChildren
  split
  · simp
  · split
    · simp
    · intro refused
      obtain ⟨child, -, parents, error⟩ := Checks.exists_of_foldlM_eq_error refused
      exact checkChild_ne_duplicate error

theorem checkEnds_ne_duplicate : g.checkEnds c ≠ .error (.duplicateConnection id) := by
  unfold checkEnds
  repeat' split
  all_goals simp

theorem checkAcyclic_ne_duplicate : g.checkAcyclic n ≠ .error (.duplicateConnection id) := by
  intro refused
  obtain ⟨child, -, error⟩ := Checks.exists_of_forM_eq_error refused
  split at error <;> simp at error

/-- Validating a graph does not look for duplicates. -/
theorem validate_ne_duplicate : g.validate ≠ .error (.duplicateConnection id) := by
  intro refused
  rcases Checks.bind_eq_error.1 refused with root | ⟨_, -, refused⟩
  · exact checkRoot_ne_duplicate root
  rcases Checks.bind_eq_error.1 refused with children | ⟨_, -, refused⟩
  · obtain ⟨n, -, parents, error⟩ := Checks.exists_of_foldlM_eq_error children
    exact checkChildren_ne_duplicate error
  rcases Checks.bind_eq_error.1 refused with ends | ⟨_, -, acyclic⟩
  · obtain ⟨c, -, error⟩ := Checks.exists_of_forM_eq_error ends
    exact checkEnds_ne_duplicate error
  · obtain ⟨n, -, error⟩ := Checks.exists_of_forM_eq_error acyclic
    exact checkAcyclic_ne_duplicate error

theorem not_nodup_of_addStoredConnection_duplicate {seen : List String}
    (refused : connections.foldlM addStoredConnection seen = .error (.duplicateConnection id)) :
    ¬ (seen ++ connections.map (·.id)).Nodup := by
  induction connections generalizing seen with
  | nil => cases refused
  | cons c rest ih =>
    intro nodup
    rw [List.map_cons] at nodup
    rw [List.foldlM_cons] at refused
    rcases Checks.bind_eq_error.1 refused with first | ⟨after, step, refused⟩
    · obtain ⟨-, listed, -⟩ : c.source ≠ c.target ∧ c.id ∈ seen ∧ c.id = id := by
        simpa [addStoredConnection, Checks.guard_eq_error] using first
      exact (List.nodup_append.1 nodup).2.2 _ listed _ List.mem_cons_self rfl
    · obtain ⟨-, -, rfl⟩ := addStoredConnection_eq_ok.1 step
      exact ih refused (List.perm_middle.nodup_iff.1 nodup)

/-- Stored connections are refused as duplicates where two of them have the same id. -/
theorem not_nodup_of_ofParts_duplicate
    (refused : ofParts nodes connections = .error (.duplicateConnection id)) :
    ¬ (connections.map (·.id)).Nodup := by
  unfold ofParts at refused
  rcases Checks.bind_eq_error.1 refused with stored | ⟨_, -, refused⟩
  · obtain ⟨n, -, before, error⟩ := Checks.exists_of_foldlM_eq_error stored
    simp [addStored, Checks.guard_eq_error] at error
  rcases Checks.bind_eq_error.1 refused with connected | ⟨_, -, refused⟩
  · exact not_nodup_of_addStoredConnection_duplicate connected
  rcases Checks.bind_eq_error.1 refused with invalid | ⟨_, -, made⟩
  · exact absurd invalid validate_ne_duplicate
  · cases made

theorem exists_of_connect_duplicate (refused : g.connect c = .error (.duplicateConnection id)) :
    ∃ d ∈ g.connections, d.id = c.id := by
  rcases Checks.bind_eq_error.1 refused with checked | ⟨_, -, made⟩
  · exact exists_of_checkConnection_duplicate checked
  · split at made <;> cases made

/-! ## Ids that are given out -/

/-- A text has neither the tip of an arrow nor a dot. -/
def Plain (text : String) : Prop := '>' ∉ text.toList ∧ '.' ∉ text.toList

instance (text : String) : Decidable (Plain text) := inferInstanceAs (Decidable (_ ∧ _))

/-- Ids that are given out for a plain type are plain. -/
theorem plain_allocateId {typeId : String} (plain : Plain typeId) :
    Plain (g.allocateId typeId).1 := by
  have digits (number : Nat) (sign : Char) (other : sign.isDigit = false) :
      sign ∉ (toString number).toList := by
    intro member
    rw [Nat.toString_eq_repr, Nat.toList_repr] at member
    have digit := Nat.isDigit_of_mem_toDigits (by decide) (by decide) member
    rw [other] at digit
    cases digit
  have tip := digits (g.freshNumber typeId g.nodes.length g.lastId) '>' (by decide)
  have dot := digits (g.freshNumber typeId g.nodes.length g.lastId) '.' (by decide)
  simp only [allocateId, Plain, String.toList_append, List.mem_append, not_or]
  exact ⟨⟨⟨plain.1, by decide⟩, tip⟩, ⟨plain.2, by decide⟩, dot⟩

theorem plain_builtin : ∀ t ∈ TemplateRegistry.builtinTemplates, Plain t.id := by decide

theorem Plain.separable_toChild {parent child : String} (plain : Plain parent) :
    (Connection.toChild parent child).Separable :=
  Connection.separable_toChild (Connection.arrowless_of_not_mem plain.1)

theorem Plain.separable_toSlot {source target name : String} (plain : Plain source)
    (plain' : Plain target) : (Connection.toSlot source target name).Separable :=
  Connection.separable_toSlot (Connection.arrowless_of_not_mem plain.1) plain.2 plain'.2

/-- What is connected between nodes of builtin types, whose ids were given out, is separable. -/
theorem separable_of_builtin {source target : NodeTemplate}
    (builtin : source ∈ TemplateRegistry.builtinTemplates)
    (builtin' : target ∈ TemplateRegistry.builtinTemplates) (g h : Graph) (name : String) :
    (Connection.toChild (g.allocateId source.id).1 (h.allocateId target.id).1).Separable ∧
      (Connection.toSlot (g.allocateId source.id).1 (h.allocateId target.id).1 name).Separable := by
  have plain := plain_allocateId (g := g) (plain_builtin source builtin)
  have plain' := plain_allocateId (g := h) (plain_builtin target builtin')
  exact ⟨plain.separable_toChild, plain.separable_toSlot plain'⟩

/-! ## What an id identifies -/

/-- Separable connections are identified by their ids: only connections of the same ends share one,
so only a repetition is refused as a duplicate, be it stored or made. In every graph the connections
are found and removed by their ids, separable or not. -/
theorem ids_identify_connections (separable : ∀ c ∈ connections, c.Separable) (nodes : List Node)
    (g : Graph) (id : String) :
    (∀ c ∈ connections, ∀ d ∈ connections, c.id = d.id ↔ c.SameEnds d) ∧
    (∀ c ∈ connections, ∀ d ∈ connections, c.kind = .binding → c.sourceSlot = none →
      d.sourceSlot ≠ none → c.id ≠ d.id) ∧
    (ofParts nodes connections = .error (.duplicateConnection id) →
      ∃ (i j : Nat) (c d : Connection), i < j ∧ connections[i]? = some c ∧
        connections[j]? = some d ∧ c.SameEnds d) ∧
    (g.connections ⊆ connections → ∀ c ∈ connections,
      g.connect c = .error (.duplicateConnection id) → ∃ d ∈ g.connections, d.SameEnds c) ∧
    (g.Reached → ∀ c ∈ g.connections, ∃ after change,
      g.disconnect c.id = .ok (after, change) ∧ change.connection = c ∧
        after.connections = g.connections.erase c) := by
  have injective : ∀ c ∈ connections, ∀ d ∈ connections, c.id = d.id ↔ c.SameEnds d :=
    fun c member d member' => Connection.id_eq_iff (separable c member) (separable d member')
  refine ⟨injective, ?_, ?_, ?_, ?_⟩
  · intro c member d member' binding unnamed named same
    obtain ⟨-, -, -, slots⟩ := (injective c member d member').1 same
    exact named ((slots binding).1 ▸ unnamed)
  · intro refused
    have repeated := not_nodup_of_ofParts_duplicate refused
    rw [List.Nodup, List.pairwise_map, List.pairwise_iff_getElem] at repeated
    push Not at repeated
    obtain ⟨i, j, first, second, less, same⟩ := repeated
    exact ⟨i, j, _, _, less, List.getElem?_eq_getElem first, List.getElem?_eq_getElem second,
      (injective _ (List.getElem_mem first) _ (List.getElem_mem second)).1 same⟩
  · intro among c member refused
    obtain ⟨d, made, same⟩ := exists_of_connect_duplicate refused
    exact ⟨d, made, (injective d (among made) c member).1 same⟩
  · intro reached c member
    have ids := reached.wellFormed.connection_ids
    obtain ⟨index, here, done⟩ := disconnect_of_mem ids member
    obtain ⟨bound, rfl⟩ := List.getElem?_eq_some_iff.1 here
    refine ⟨(g.disconnectAt index g.connections[index]).1,
      (g.disconnectAt index g.connections[index]).2, done, connection_disconnectAt index, ?_⟩
    rw [connections_disconnectAt, ids.of_map.erase_getElem index bound]

/-- The child of a sequence, the value of a slot, and the child once more. -/
theorem ids_identify_connections_wait :
    let link := Connection.toChild "sequence-1" "wait-2"
    let value := Connection.toSlot "blackboard-variable-3" "wait-2" "duration"
    let connections := [link, value, link]
    link.id ≠ value.id ∧ ofParts [] connections = .error (.duplicateConnection link.id) ∧
      ∃ (i j : Nat) (c d : Connection), i < j ∧ connections[i]? = some c ∧
        connections[j]? = some d ∧ c.SameEnds d := by
  intro link value connections
  have linkSeparable : link.Separable := Plain.separable_toChild (by decide)
  have valueSeparable : value.Separable := Plain.separable_toSlot (by decide) (by decide)
  have separable : ∀ c ∈ connections, c.Separable := by
    simp [connections, linkSeparable, valueSeparable]
  obtain ⟨injective, -, stored, -⟩ := ids_identify_connections separable [] { nodes := [] } link.id
  have refused : ofParts [] connections = .error (.duplicateConnection link.id) := rfl
  refine ⟨fun same => ?_, refused, stored refused⟩
  exact absurd ((injective link (by simp [connections]) value (by simp [connections])).1 same)
    (by decide)

/-- Texts with dots or arrows of their own make one id of different ends: of an output without a
name and one with a name, and of two pairs of parent and child. Either connection is accepted by
itself, and the second one is refused as a duplicate. -/
theorem ids_collide :
    let gather := (NodeTemplate.new "gather" .action "Gather").withSlot
      { name := "inputs", slotType := .any, multiple := true }
    let constant := NodeTemplate.new "constant" .data "Constant"
    let node (id : String) (template : NodeTemplate) : Node := .ofTemplate id template {} .empty
    let nodes := [node "root" (.new "root" .root "Root"), node "a" constant,
      node "a.out" constant, node "g" gather]
    let unnamed := Connection.toSlot "a.out" "g" "inputs"
    let named : Connection :=
      { source := "a", target := "g", sourceSlot := some "out", targetSlot := some "inputs"
        kind := .binding }
    let g : Graph := { nodes, connections := [unnamed] }
    (unnamed.id = named.id ∧ ¬ unnamed.SameEnds named) ∧
      ((Connection.toChild "a->b" "c").id = (Connection.toChild "a" "b->c").id ∧
        ¬ (Connection.toChild "a->b" "c").SameEnds (.toChild "a" "b->c")) ∧
      (ofParts nodes [unnamed] = .ok g ∧ ∃ h, ofParts nodes [named] = .ok h) ∧
      ofParts nodes [unnamed, named] = .error (.duplicateConnection "a.out=>g.inputs") ∧
      g.connect named = .error (.duplicateConnection "a.out=>g.inputs") := by
  intro gather constant node nodes unnamed named g
  refine ⟨⟨by decide, by decide⟩, ⟨by decide, by decide⟩, ⟨rfl, ?_⟩, rfl, rfl⟩
  exact ⟨_, rfl⟩

end Graph

end BehaviorTree
