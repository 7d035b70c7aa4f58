import BehaviorTree.Document.Binary
import BehaviorTree.Proofs.Value.Binary

/-!
# The binary form loses nothing

Every document is read back from its binary form bit for bit, bytes after it are counted, and what
breaks off before its end is refused (`binary_form_lossless`). The codec of documents is put
together from those of its records, and so are both laws of it.
-/

namespace BehaviorTree

open Codec

/-! ## Lengths

The lengths that the binary form of each record states, as for values. -/

def TreeMetadata.lengths (m : TreeMetadata) : List Nat :=
  [m.name.utf8ByteSize, m.description.utf8ByteSize]

def NodeRecord.lengths (r : NodeRecord) : List Nat :=
  r.id.utf8ByteSize :: r.typeId.utf8ByteSize :: (Value.object r.config.entries).lengths ++
    r.children.length :: r.children.map String.utf8ByteSize

def Connection.lengths (c : Connection) : List Nat :=
  c.source.utf8ByteSize :: c.target.utf8ByteSize ::
    (c.sourceSlot.toList ++ c.targetSlot.toList).map String.utf8ByteSize

def Variable.lengths (v : Variable) : List Nat := v.name.utf8ByteSize :: v.value.lengths

namespace TreeDocument

def lengths (d : TreeDocument) : List Nat :=
  d.metadata.lengths ++ d.nodes.length :: d.nodes.flatMap NodeRecord.lengths ++
    d.connections.length :: d.connections.flatMap Connection.lengths ++
    d.vars.length :: d.vars.flatMap Variable.lengths

/-- The values that a document holds, those of its nodes before those of its variables. -/
def values (d : TreeDocument) : List Value :=
  d.nodes.flatMap (fun r => r.config.values) ++ d.vars.map (·.value)

/-- The keys of every object in a document ascend. -/
def Normal (d : TreeDocument) : Prop := ∀ v ∈ d.values, v.Normal

end TreeDocument

/-! ## Records -/

namespace Codec

theorem local_metadata : metadata.Local := (local_string.pair local_string).map

theorem readsBack_metadata {m : TreeMetadata} (sized : ∀ n ∈ m.lengths, n < UInt64.size) :
    metadata.ReadsBack m := by
  obtain ⟨name, description⟩ : m.name.utf8ByteSize < UInt64.size ∧
      m.description.utf8ByteSize < UInt64.size := by
    simpa [TreeMetadata.lengths] using sized
  exact .map (.pair (readsBack_string name) (readsBack_string description)) rfl

theorem local_position : position.Local := (local_number.pair local_number).map

theorem readsBack_position (p : Position) : position.ReadsBack p :=
  .map (.pair (readsBack_number p.x) (readsBack_number p.y)) rfl

theorem local_nodeRecord : nodeRecord.Local :=
  (local_string.pair <| local_string.pair <| Value.local_codec.dict.pair <|
    local_string.list.pair local_position).map

theorem readsBack_nodeRecord {r : NodeRecord} (normal : ∀ v ∈ r.config.values, v.Normal)
    (sized : ∀ n ∈ r.lengths, n < UInt64.size) : nodeRecord.ReadsBack r := by
  simp only [NodeRecord.lengths, Value.lengths, Value.lengthsOfEntries_eq, List.cons_append,
    List.forall_mem_cons, List.forall_mem_append, List.forall_mem_flatMap, List.forall_mem_map]
    at sized
  obtain ⟨id, typeId, size, config, count, children⟩ := sized
  have entries : ∀ entry ∈ r.config.entries,
      entry.1.utf8ByteSize < UInt64.size ∧ Value.codec.ReadsBack entry.2 := fun entry member =>
    ⟨(config entry member).1, Value.readsBack_codec (normal _ (List.mem_map_of_mem member))
      (config entry member).2⟩
  exact .map (.pair (readsBack_string id) <| .pair (readsBack_string typeId) <|
    .pair (.dict size entries) <|
    .pair (.list count fun child member => readsBack_string (children child member)) <|
    readsBack_position r.position) rfl

theorem local_connection : connection.Local :=
  (local_string.pair <| local_string.pair <| local_string.option.pair <|
    local_string.option.pair local_named).map

theorem readsBack_connection {c : Connection} (sized : ∀ n ∈ c.lengths, n < UInt64.size) :
    connection.ReadsBack c := by
  simp only [Connection.lengths, List.forall_mem_cons, List.map_append, List.forall_mem_append,
    List.forall_mem_map, Option.mem_toList] at sized
  obtain ⟨source, target, sourceSlot, targetSlot⟩ := sized
  exact .map (.pair (readsBack_string source) <| .pair (readsBack_string target) <|
    .pair (.option fun slot is => readsBack_string (sourceSlot slot is)) <|
    .pair (.option fun slot is => readsBack_string (targetSlot slot is)) <|
    readsBack_named (by decide) c.kind) rfl

theorem local_blackboardVariable : blackboardVariable.Local :=
  (local_string.pair <| local_named.pair <| local_named.pair Value.local_codec).map

theorem readsBack_blackboardVariable {v : Variable} (normal : v.value.Normal)
    (sized : ∀ n ∈ v.lengths, n < UInt64.size) : blackboardVariable.ReadsBack v := by
  obtain ⟨name, value⟩ := List.forall_mem_cons.1 sized
  exact .map (.pair (readsBack_string name) <| .pair (readsBack_named (by decide) v.scope) <|
    .pair (readsBack_named (by decide) v.type) <| Value.readsBack_codec normal value) rfl

theorem local_document : document.Local :=
  (local_metadata.pair <| local_nodeRecord.list.pair <| local_connection.list.pair
    local_blackboardVariable.list).map

theorem readsBack_document {d : TreeDocument} (normal : d.Normal)
    (sized : ∀ n ∈ d.lengths, n < UInt64.size) : document.ReadsBack d := by
  simp only [TreeDocument.Normal, TreeDocument.values, List.forall_mem_append,
    List.forall_mem_flatMap, List.forall_mem_map] at normal
  simp only [TreeDocument.lengths, List.append_assoc, List.cons_append, List.forall_mem_cons,
    List.forall_mem_append, List.forall_mem_flatMap] at sized
  obtain ⟨metadata, nodeCount, nodes, connectionCount, connections, varCount, vars⟩ := sized
  exact .map (.pair (readsBack_metadata metadata) <|
    .pair (.list nodeCount fun r member => readsBack_nodeRecord (normal.1 r member)
      (nodes r member)) <|
    .pair (.list connectionCount fun c member => readsBack_connection (connections c member)) <|
    .list varCount fun v member => readsBack_blackboardVariable (normal.2 v member)
      (vars v member)) rfl

end Codec

/-! ## Documents -/

namespace TreeDocument

variable {d e : TreeDocument}

theorem isBinary_toBytes (d : TreeDocument) (more : List UInt8) :
    isBinary (d.toBytes ++ more) = true := by
  rw [isBinary, List.isPrefixOf_iff_prefix, toBytes, List.append_assoc]
  exact List.prefix_append _ _

theorem ofBytes_toBytes_append (back : document.ReadsBack d) (more : List UInt8) :
    ofBytes (d.toBytes ++ more) =
      if more = [] then .ok d else .error (.trailingBytes more.length) := by
  have body : (d.toBytes ++ more).drop header.length = document.write d ++ more := by
    rw [toBytes, List.append_assoc, List.drop_left]
  have start : header.isPrefixOf (d.toBytes ++ more) = true := isBinary_toBytes d more
  rw [ofBytes, if_pos start, body, back more]
  cases more <;> rfl

/-- A document that breaks off has no header or no end. -/
theorem ofBytes_of_truncated (back : document.ReadsBack d) {part rest : List UInt8}
    (written : part ++ rest = d.toBytes) (missing : rest ≠ []) : ofBytes part =
      .error (if part.length < header.length then .missingHeader else .malformedBinary) := by
  by_cases short : part.length < header.length
  · have headless : header.isPrefixOf part = false := by
      rw [← Bool.not_eq_true, List.isPrefixOf_iff_prefix]
      exact fun start => Nat.not_le_of_lt short start.length_le
    rw [ofBytes, headless, if_pos short]
    rfl
  · have headed : header <+: d.toBytes := List.prefix_append _ _
    obtain ⟨body, rfl⟩ : header <+: part :=
      List.prefix_of_prefix_length_le headed ⟨rest, written⟩ (Nat.le_of_not_lt short)
    have cut : body ++ rest = document.write d := by
      rw [toBytes, List.append_assoc] at written
      exact List.append_cancel_left written
    rw [ofBytes, if_pos (List.isPrefixOf_iff_prefix.2 (List.prefix_append _ _)), List.drop_left,
      back.truncated local_document cut missing, if_neg short]

/-- Reading the binary form of a document gives the document back bit for bit. With bytes after it,
these are counted and refused, and cut short it is refused. No binary form begins with that of
another document. -/
theorem binary_form_lossless (normal : d.Normal) (sized : ∀ n ∈ d.lengths, n < UInt64.size) :
    decode d.toBytes = .ok d ∧ ofBytes d.toBytes = .ok d ∧
      (∀ more, more ≠ [] → ofBytes (d.toBytes ++ more) = .error (.trailingBytes more.length)) ∧
      (∀ part, part <+: d.toBytes → part ≠ d.toBytes → ofBytes part =
        .error (if part.length < header.length then .missingHeader else .malformedBinary)) ∧
      ∀ e : TreeDocument, e.Normal → (∀ n ∈ e.lengths, n < UInt64.size) →
        e.toBytes <+: d.toBytes → e = d := by
  have back := readsBack_document normal sized
  have whole : ofBytes d.toBytes = .ok d := by
    simpa using ofBytes_toBytes_append back []
  have binary : isBinary d.toBytes = true := by simpa using isBinary_toBytes d []
  refine ⟨?_, whole, fun more some => ?_, ?_, fun e normal' sized' start => ?_⟩
  · rw [decode, if_pos binary, whole]
  · rw [ofBytes_toBytes_append back, if_neg some]
  · rintro part ⟨rest, written⟩ cut
    refine ofBytes_of_truncated back written ?_
    rintro rfl
    exact cut (by simpa using written)
  · exact (readsBack_document normal' sized').eq_of_start back
      ((List.prefix_append_right_inj header).1 start)

/-- A route of a NaN and an object with two keys, minus zero, infinity, and a slot without a
name. -/
theorem binary_form_lossless_route :
    let gate : Value := .object [("name", .string "é"), ("open", .null)]
    let route : Value := .array [.number .nan, gate]
    let d : TreeDocument :=
      { metadata := ⟨"patrol", ""⟩
        nodes := [⟨"guard", "constant", .ofList [("value", route)], ["door"],
          ⟨.ofParts true 0, .infinity⟩⟩]
        connections := [.toSlot "guard" "door" "key", ⟨"guard", "door", some "", none, .binding⟩]
        vars := [⟨"route", .project, .array, route⟩] }
    d.Normal ∧ (∀ n ∈ d.lengths, n < UInt64.size) ∧ decode d.toBytes = .ok d ∧
      ofBytes (d.toBytes ++ [0, 0]) = .error (.trailingBytes 2) := by
  intro gate route d
  have gateNormal : gate.Normal :=
    .object (by decide) (by simp [Value.Normal.string, Value.Normal.null])
  have routeNormal : route.Normal := .array (by simp [Value.Normal.number, gateNormal])
  have normal : d.Normal := by
    have values : d.values = [route, route] := rfl
    simp [TreeDocument.Normal, values, routeNormal]
  have sized : ∀ n ∈ d.lengths, n < UInt64.size := by decide +kernel
  obtain ⟨decoded, -, followed, -⟩ := binary_form_lossless normal sized
  exact ⟨normal, sized, decoded, followed [0, 0] (List.cons_ne_nil _ _)⟩

end TreeDocument

end BehaviorTree
