import BehaviorTree.Document.Text
import BehaviorTree.Proofs.Document.BinaryForm
import BehaviorTree.Proofs.Json.FewDigits
import BehaviorTree.Proofs.Value.Json

/-!
# The text form and what it loses

A document is read back from its JSON text exactly if all its numbers are finite and its containers
stand within the depth that is read (`text_form_lossless`), as long as the numerals of the finite
ones are read back, which those of few digits are (`decode_toText_of_few_digits`). For each record,
being read back is being legible, by the same law for each of its fields; so what a document loses
is found where its text is not legible, at a number or at a container too deep.
-/

namespace BehaviorTree

open Json

variable {depth : Nat}

/-! ## Records

Of each record first what its fields must be read as for the record to be read back, and then that
it is read back exactly if it is legible. -/

namespace Position

theorem ofJson?_eq_some {a b : Json} {p : Position} :
    ofJson? (.object [("x", a), ("y", b)]) = some p ↔
      a.number? = some p.x ∧ b.number? = some p.y := by
  obtain ⟨x, y⟩ := p
  simp [ofJson?, fields?_object, required_members, lookup_of_ne, Option.bind_eq_some_iff]

theorem ofJson?_shown (p : Position) :
    ofJson? (shown depth p.toJson) = some p ↔ Legible depth p.toJson := by
  refine object_shown (by simp [ofJson?, fields?]) fun deeper => ?_
  simp only [shownMembers, ofJson?_eq_some, number?_shown deeper, List.forall_mem_cons]
  simp

end Position

namespace TreeMetadata

theorem ofJson?_eq_some {a b : Json} {m : TreeMetadata} :
    ofJson? (.object [("name", a), ("description", b)]) = some m ↔
      a.string? = some m.name ∧ b.string? = some m.description := by
  obtain ⟨name, description⟩ := m
  simp [ofJson?, fields?_object, required_members, lookup_of_ne, Option.bind_eq_some_iff]

theorem ofJson?_shown (m : TreeMetadata) :
    ofJson? (shown depth m.toJson) = some m ↔ Legible depth m.toJson := by
  refine object_shown (by simp [ofJson?, fields?]) fun deeper => ?_
  have room : depth + 1 ≤ maxDepth := deeper
  simp [shownMembers, ofJson?_eq_some, shown, string?, legible_string, room]

end TreeMetadata

namespace NodeRecord

theorem ofJson?_eq_some {a b c d e : Json} {r : NodeRecord} :
    ofJson? (.object [("id", a), ("node_type", b), ("config", c), ("children", d),
        ("position", e)]) = some r ↔
      a.string? = some r.id ∧ b.string? = some r.typeId ∧
        Value.dictOfJson? c = some r.config ∧ list? string? d = some r.children ∧
        Position.ofJson? e = some r.position := by
  obtain ⟨id, typeId, config, children, position⟩ := r
  simp [ofJson?, fields?_object, required_members, lookup_of_ne, Option.bind_eq_some_iff]

theorem ofJson?_shown {r : NodeRecord} (normal : ∀ v ∈ r.config.values, v.Normal) :
    ofJson? (shown depth r.toJson) = some r ↔ Legible depth r.toJson := by
  refine object_shown (by simp [ofJson?, fields?]) fun deeper => ?_
  have room : depth + 1 ≤ maxDepth := deeper
  have children : list? string? (shown (depth + 1) (.array (r.children.map .string))) =
      some r.children ↔ Legible (depth + 1) (.array (r.children.map .string)) :=
    list?_shown fun child _ room => iff_of_true rfl (legible_string.2 room)
  simp only [shownMembers, ofJson?_eq_some, Value.dictOfJson?_shown normal, children,
    Position.ofJson?_shown]
  simp [shown, string?, legible_string, room]

end NodeRecord

namespace Connection

theorem ofJson?_eq_some {a b c : Json} {s t : Option String} {e : Connection} :
    ofJson? (.object [("from", a), ("to", b), ("from_property", ofOption .string s),
        ("to_property", ofOption .string t), ("connection_type", c)]) = some e ↔
      a.string? = some e.source ∧ b.string? = some e.target ∧ s = e.sourceSlot ∧
        t = e.targetSlot ∧ c.named? = some e.kind := by
  obtain ⟨source, target, sourceSlot, targetSlot, kind⟩ := e
  rw [ofJson?, fields?_object]
  case keys => rfl
  case once => simp
  simp only [Option.bind_eq_bind, Option.bind_some]
  rw [optional_members (s := s) (by simp [lookup_of_ne]),
    optional_members (s := t) (by simp [lookup_of_ne])]
  simp [required_members, lookup_of_ne, Option.bind_eq_some_iff, and_comm, and_assoc]

theorem ofJson?_shown (c : Connection) :
    ofJson? (shown depth c.toJson) = some c ↔ Legible depth c.toJson := by
  refine object_shown (by simp [ofJson?, fields?]) fun deeper => ?_
  have room : depth + 1 ≤ maxDepth := deeper
  simp only [shownMembers, shown_ofOption_string, ofJson?_eq_some, shown_ofNamed, named?_ofNamed]
  simp [shown, string?, legible_string, legible_ofOption_string, legible_ofNamed, room]

end Connection

namespace Variable

theorem ofJson?_eq_some {a b c d : Json} {v : Variable} :
    ofJson? (.object [("name", a), ("scope", b), ("value_type", c), ("value", d)]) = some v ↔
      a.string? = some v.name ∧ b.named? = some v.scope ∧ c.named? = some v.type ∧
        Value.ofJson? d = some v.value := by
  obtain ⟨name, scope, type, value⟩ := v
  simp [ofJson?, fields?_object, required_members, lookup_of_ne, Option.bind_eq_some_iff]

theorem ofJson?_shown {v : Variable} (normal : v.value.Normal) :
    ofJson? (shown depth v.toJson) = some v ↔ Legible depth v.toJson := by
  refine object_shown (by simp [ofJson?, fields?]) fun deeper => ?_
  have room : depth + 1 ≤ maxDepth := deeper
  simp only [shownMembers, ofJson?_eq_some, shown_ofNamed, named?_ofNamed,
    Value.ofJson?_shown normal deeper]
  simp [shown, string?, legible_string, legible_ofNamed, room]

end Variable

namespace TreeDocument

theorem ofJson?_eq_some {a b c d : Json} {e : TreeDocument} :
    ofJson? (.object [("metadata", a), ("nodes", b), ("connections", c), ("variables", d)]) =
        some e ↔
      TreeMetadata.ofJson? a = some e.metadata ∧ list? NodeRecord.ofJson? b = some e.nodes ∧
        list? Connection.ofJson? c = some e.connections ∧
        list? Variable.ofJson? d = some e.vars := by
  obtain ⟨metadata, nodes, connections, vars⟩ := e
  simp [ofJson?, fields?_object, required_members, lookup_of_ne, Option.bind_eq_some_iff]

/-- A document is read back from what its text shows exactly if the text is legible. -/
theorem ofJson?_shown {d : TreeDocument} (normal : d.Normal) :
    ofJson? (shown depth d.toJson) = some d ↔ Legible depth d.toJson := by
  simp only [Normal, values, List.forall_mem_append, List.forall_mem_flatMap,
    List.forall_mem_map] at normal
  refine object_shown (by simp [ofJson?, fields?]) fun _ => ?_
  have nodes {depth : Nat} :
      list? NodeRecord.ofJson? (shown depth (.array (d.nodes.map NodeRecord.toJson))) =
        some d.nodes ↔ Legible depth (.array (d.nodes.map NodeRecord.toJson)) :=
    list?_shown fun r member _ => NodeRecord.ofJson?_shown (normal.1 r member)
  have connections {depth : Nat} :
      list? Connection.ofJson? (shown depth (.array (d.connections.map Connection.toJson))) =
        some d.connections ↔ Legible depth (.array (d.connections.map Connection.toJson)) :=
    list?_shown fun c _ _ => c.ofJson?_shown
  have vars {depth : Nat} :
      list? Variable.ofJson? (shown depth (.array (d.vars.map Variable.toJson))) =
        some d.vars ↔ Legible depth (.array (d.vars.map Variable.toJson)) :=
    list?_shown fun v member _ => Variable.ofJson?_shown (normal.2 v member)
  simp only [shownMembers, ofJson?_eq_some, TreeMetadata.ofJson?_shown, nodes, connections, vars,
    List.forall_mem_cons]
  simp

/-- Reading the text of a document as text gives the document back exactly if the text tells all. -/
theorem ofText_toText {d : TreeDocument} (normal : d.Normal) :
    ofText d.toText = .ok d ↔ Legible 0 d.toJson := by
  rw [ofText, toText, String.toList_ofList, read_pretty, Option.bind_some, ← ofJson?_shown normal]
  cases ofJson? (shown 0 d.toJson) <;> simp

/-- The text of a document begins with a brace, and no text that does is in binary form. -/
theorem isBinary_toText (d : TreeDocument) :
    isBinary d.toText.toByteArray.data.toList = false := by
  obtain ⟨cs, text⟩ : ∃ cs, d.toJson.pretty 0 = '\x7b' :: cs := ⟨_, rfl⟩
  have encoded (cs : List Char) :
      (String.ofList cs).toByteArray.data.toList = cs.flatMap String.utf8EncodeChar := by
    simp [List.utf8Encode]
  have brace : String.utf8EncodeChar '\x7b' = [123] := by decide
  rw [isBinary, toText, text, encoded, List.flatMap_cons, brace]
  rfl

theorem decode_toText (d : TreeDocument) :
    decode d.toText.toByteArray.data.toList = ofText d.toText := by
  have bytes (s : String) : String.fromUTF8? ⟨s.toByteArray.data.toList.toArray⟩ = some s :=
    Codec.fromUTF8?_toByteArray s
  rw [decode, isBinary_toText, if_neg Bool.false_ne_true, bytes]

end TreeDocument

/-! ## The numbers of a document -/

/-- What is not finite is written as `null`, which is no number. -/
theorem Number.ReadsBack.isFinite {x : Number} (back : x.ReadsBack) : x.isFinite = true := by
  by_contra infinite
  rw [ReadsBack, render_of_not_finite (Bool.not_eq_true _ ▸ infinite)] at back
  cases back

/-- The numbers in a node: those in its configuration and those of its position. -/
def NodeRecord.numbers (r : NodeRecord) : List Number :=
  r.config.values.flatMap Value.numbers ++ [r.position.x, r.position.y]

theorem NodeRecord.numbers_toJson (r : NodeRecord) : r.toJson.numbers = r.numbers := by
  have config : Json.numbers (Value.dictToJson r.config) =
      r.config.values.flatMap Value.numbers := by
    rw [Value.dictToJson, Json.numbers, numbersOfMembers_eq, Value.entriesToJson_eq,
      List.flatMap_map, Dict.values, List.flatMap_map]
    simp only [Value.numbers_toJson]
  have children : numbersOfItems (r.children.map .string) = [] := by
    simp [numbersOfItems_eq, Json.numbers]
  simp [toJson, numbers, Json.numbers, numbersOfMembers, config, children, Position.toJson]

namespace TreeDocument

/-- The numbers in a document. -/
def numbers (d : TreeDocument) : List Number :=
  d.nodes.flatMap NodeRecord.numbers ++ d.vars.flatMap fun v => v.value.numbers

theorem numbers_toJson (d : TreeDocument) : d.toJson.numbers = d.numbers := by
  have connection (c : Connection) : c.toJson.numbers = [] := by
    obtain ⟨source, target, sourceSlot, targetSlot, kind⟩ := c
    cases sourceSlot <;> cases targetSlot <;> rfl
  have var (v : Variable) : v.toJson.numbers = v.value.numbers := by
    simp [Variable.toJson, Json.numbers, numbersOfMembers, Value.numbers_toJson, ofNamed]
  have metadata : d.metadata.toJson.numbers = [] := rfl
  simp [toJson, numbers, Json.numbers, numbersOfMembers, numbersOfItems_eq, List.flatMap_map,
    metadata, NodeRecord.numbers_toJson, connection, var]

/-! ## Documents and their text -/

variable {d : TreeDocument}

/-- A document is read back from its text exactly if its numbers are and its containers are not
nested too deeply. -/
theorem decode_toText_iff (normal : d.Normal) :
    decode d.toText.toByteArray.data.toList = .ok d ↔
      (∀ x ∈ d.numbers, x.ReadsBack) ∧ d.toJson.nesting ≤ maxDepth := by
  rw [decode_toText, ofText_toText normal, ← numbers_toJson]
  constructor
  · rintro ⟨back, shallow⟩
    exact ⟨back, by omega⟩
  · rintro ⟨back, shallow⟩
    exact ⟨back, by omega⟩

/-- A document whose numbers are written in few digits is read back from its text. -/
theorem decode_toText_of_few_digits (normal : d.Normal) (few : ∀ x ∈ d.numbers, x.FewDigits)
    (shallow : d.toJson.nesting ≤ maxDepth) :
    decode d.toText.toByteArray.data.toList = .ok d :=
  (decode_toText_iff normal).2 ⟨fun x member => (few x member).readsBack, shallow⟩

/-- The text of a document gives the document back exactly if each number of the document is finite
and no more than `maxDepth` containers of the text stand one inside the other. That the finite
numbers at hand are read back is assumed, for numerals are read quickly, and a numeral of many
digits may be read as the number beside its own. -/
theorem text_form_lossless (normal : d.Normal)
    (readsBack : ∀ x ∈ d.numbers, x.isFinite = true → x.ReadsBack) :
    decode d.toText.toByteArray.data.toList = .ok d ↔
      (∀ x ∈ d.numbers, x.isFinite = true) ∧ d.toJson.nesting ≤ maxDepth := by
  rw [decode_toText_iff normal]
  refine and_congr_left fun _ => forall₂_congr fun x member => ?_
  exact ⟨Number.ReadsBack.isFinite, readsBack x member⟩

/-- A route of a number, an object with two keys and an empty list, minus zero, and a slot without a
name: read back if the number is a tenth, and not if it is infinite. -/
theorem text_form_lossless_route :
    let gate : Value := .object [("name", .string "é\n"), ("open", .null)]
    let route (x : Number) : Value := .array [.number x, gate, .array []]
    let patrol (v : Value) : TreeDocument :=
      { metadata := ⟨"patrol", ""⟩
        nodes := [⟨"guard", "constant", .ofList [("value", v)], ["door"], ⟨.ofParts true 0, 7⟩⟩]
        connections := [.toSlot "guard" "door" "key", ⟨"guard", "door", some "", none, .binding⟩]
        vars := [⟨"route", .project, .array, v⟩] }
    let bytes (v : Value) := (patrol v).toText.toByteArray.data.toList
    let tenth : Value := route (.ofFraction false 1 10)
    (patrol tenth).Normal ∧ decode (bytes tenth) = .ok (patrol tenth) ∧
      decode (bytes (route .infinity)) ≠ .ok (patrol (route .infinity)) := by
  intro gate route patrol bytes tenth
  have gateNormal : gate.Normal :=
    .object (by decide) (by simp [Value.Normal.string, Value.Normal.null])
  have routeNormal (x : Number) : (route x).Normal :=
    .array (by simp [Value.Normal.number, gateNormal, Value.Normal.array])
  have normal (x : Number) : (patrol (route x)).Normal := by
    have values : (patrol (route x)).values = [route x, route x] := rfl
    simp [TreeDocument.Normal, values, routeNormal]
  have numbers (x : Number) : (patrol (route x)).numbers = [x, .ofParts true 0, 7, x] := rfl
  have tenthBack : (Number.ofFraction false 1 10).ReadsBack := by decide +kernel
  have others : (Number.ofParts true 0).ReadsBack ∧ Number.ReadsBack 7 := by decide +kernel
  refine ⟨normal _, (text_form_lossless (normal _) ?_).2 ⟨?_, by decide +kernel⟩, ?_⟩
  · simp [numbers, tenthBack, others]
  · decide +kernel
  · rw [Ne, text_form_lossless (normal _)]
    · rintro ⟨finite, -⟩
      exact absurd (finite .infinity (by simp [numbers])) (by decide)
    · simp [numbers, others]
      decide

end TreeDocument

end BehaviorTree
