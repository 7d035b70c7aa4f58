import BehaviorTree.Proofs.Json.Legible
import BehaviorTree.Value.Json

/-!
# Values in JSON text

A value is read back from its text exactly if the text is legible (`ofJson?_shown`): the numbers in
it are read back and its containers stand within the depth that is read. Reading puts the keys of an
object in order, which changes nothing where they are in order.
-/

namespace BehaviorTree.Value

open Json

mutual

/-- The numbers in a value. -/
def numbers : Value → List Number
  | .number x => [x]
  | .array items => numbersOfItems items
  | .object entries => numbersOfEntries entries
  | _ => []

def numbersOfItems : List Value → List Number
  | [] => []
  | item :: items => numbers item ++ numbersOfItems items

def numbersOfEntries : List (String × Value) → List Number
  | [] => []
  | (_, value) :: entries => numbers value ++ numbersOfEntries entries

end

mutual

/-- Writing a value as JSON keeps its numbers, in their order. -/
theorem numbers_toJson (v : Value) : v.toJson.numbers = v.numbers := by
  match v with
  | .null | .bool _ | .number _ | .string _ => rfl
  | .array items => exact numbersOfItems_itemsToJson items
  | .object entries => exact numbersOfMembers_entriesToJson entries

theorem numbersOfItems_itemsToJson (items : List Value) :
    Json.numbersOfItems (itemsToJson items) = numbersOfItems items := by
  match items with
  | [] => rfl
  | item :: items =>
    rw [itemsToJson, Json.numbersOfItems, numbersOfItems, numbers_toJson,
      numbersOfItems_itemsToJson]

theorem numbersOfMembers_entriesToJson (entries : List (String × Value)) :
    Json.numbersOfMembers (entriesToJson entries) = numbersOfEntries entries := by
  match entries with
  | [] => rfl
  | (key, value) :: entries =>
    rw [entriesToJson, Json.numbersOfMembers, numbersOfEntries, numbers_toJson,
      numbersOfMembers_entriesToJson]

end

theorem itemsToJson_eq (items : List Value) : itemsToJson items = items.map toJson := by
  induction items with
  | nil => rfl
  | cons item items ih => rw [itemsToJson, ih, List.map_cons]

theorem entriesToJson_eq (entries : List (String × Value)) :
    entriesToJson entries = entries.map fun entry => (entry.1, entry.2.toJson) := by
  induction entries with
  | nil => rfl
  | cons entry entries ih => rw [entriesToJson, ih, List.map_cons]

theorem itemsOfJson?_eq (items : List Json) : itemsOfJson? items = items.mapM ofJson? := by
  induction items with
  | nil => rfl
  | cons item items ih => rw [itemsOfJson?, ih, List.mapM_cons]

variable {depth : Nat} {entries : List (String × Value)}

/-! ## Entries -/

/-- Reading members keeps their keys. -/
theorem keys_entriesOfJson? {members : List (String × Json)}
    (read : entriesOfJson? members = some entries) :
    entries.map (·.1) = members.map (·.1) := by
  induction members generalizing entries with
  | nil => cases read; rfl
  | cons member members ih =>
    obtain ⟨key, j⟩ := member
    rw [entriesOfJson?] at read
    cases value : ofJson? j with
    | none => simp [value] at read
    | some v =>
      cases others : entriesOfJson? members with
      | none => simp [value, others] at read
      | some rest =>
        have eq : (key, v) :: rest = entries := by simpa [value, others] using read
        rw [← eq, List.map_cons, List.map_cons, ih others]

theorem entriesOfJson?_eq_some_iff :
    entriesOfJson? (shownMembers depth (entriesToJson entries)) = some entries ↔
      ∀ entry ∈ entries, ofJson? (shown depth entry.2.toJson) = some entry.2 := by
  induction entries with
  | nil => simp [entriesToJson, shownMembers, entriesOfJson?]
  | cons entry entries ih =>
    obtain ⟨key, v⟩ := entry
    rw [entriesToJson, shownMembers, entriesOfJson?, List.forall_mem_cons, ← ih]
    cases ofJson? (shown depth v.toJson) <;>
      cases entriesOfJson? (shownMembers depth (entriesToJson entries)) <;> simp

/-- Entries whose keys are in order are read back if each value is. -/
theorem map_entriesOfJson?_eq_some_iff (ordered : Entries.Ordered entries) :
    (entriesOfJson? (shownMembers depth (entriesToJson entries))).map Entries.ofList =
        some entries ↔
      ∀ entry ∈ entries, ofJson? (shown depth entry.2.toJson) = some entry.2 := by
  rw [← entriesOfJson?_eq_some_iff]
  cases read : entriesOfJson? (shownMembers depth (entriesToJson entries)) with
  | none => simp
  | some found =>
    have keys : found.map (·.1) = entries.map (·.1) := by
      rw [keys_entriesOfJson? read, shownMembers_eq, entriesToJson_eq]
      simp [Function.comp_def]
    have sorted : Entries.Ordered found := by
      have ascending : (entries.map (·.1)).Pairwise (· < ·) := List.pairwise_map.2 ordered
      exact List.pairwise_map.1 (keys ▸ ascending)
    rw [Option.map_some, sorted.ofList_eq]

/-! ## Values -/

theorem ofJson?_eq_number {j : Json} {x : Number} :
    ofJson? j = some (.number x) ↔ j.number? = some x := by
  cases j <;> simp [ofJson?, Json.number?]

/-- A value is read back exactly if its text is legible. -/
theorem ofJson?_shown {v : Value} (normal : v.Normal) (room : depth ≤ maxDepth) :
    ofJson? (shown depth v.toJson) = some v ↔ Legible depth v.toJson := by
  induction normal generalizing depth with
  | null | bool _ | string _ => exact iff_of_true rfl ((legible_plain rfl rfl).2 room)
  | number x => rw [toJson, ofJson?_eq_number, number?_shown room]
  | @array items _ ih =>
    have array (j : Json) : ofJson? j = some (.array items) ↔ list? ofJson? j = some items := by
      cases j with
      | array js =>
        rw [ofJson?, itemsOfJson?_eq, list?, array?, Option.bind_some]
        cases js.mapM ofJson? <;> simp
      | object js => cases h : entriesOfJson? js <;> simp [ofJson?, h, list?, array?]
      | _ => simp [ofJson?, list?, array?]
    rw [toJson, itemsToJson_eq, array]
    exact list?_shown fun item member deeper => ih item member deeper
  | @object entries ordered _ ih =>
    rw [toJson]
    refine object_shown (by simp [ofJson?]) fun deeper => ?_
    have object (read : Option (List (String × Value))) :
        (read.map fun entries => Value.object (Entries.ofList entries)) =
          some (.object entries) ↔ read.map Entries.ofList = some entries := by
      cases read <;> simp
    rw [ofJson?, object, map_entriesOfJson?_eq_some_iff ordered, entriesToJson_eq,
      List.forall_mem_map]
    exact forall₂_congr fun entry member => ih entry member deeper

/-- A dictionary of values is read back exactly if its text is legible. -/
theorem dictOfJson?_shown {d : Dict Value} (normal : ∀ v ∈ d.values, v.Normal) :
    dictOfJson? (shown depth (dictToJson d)) = some d ↔ Legible depth (dictToJson d) := by
  refine object_shown (by simp [dictOfJson?, object?]) fun deeper => ?_
  have dict (read : Option (List (String × Value))) :
      read.map Dict.ofList = some d ↔ read.map Entries.ofList = some d.entries := by
    cases read with
    | none => simp
    | some found =>
      have same : Dict.ofList found = d ↔ Entries.ofList found = d.entries :=
        ⟨fun eq => eq ▸ rfl, fun eq => Dict.ext eq⟩
      simp [same]
  rw [dictOfJson?, object?, Option.bind_some, dict, map_entriesOfJson?_eq_some_iff d.ordered,
    entriesToJson_eq, List.forall_mem_map]
  exact forall₂_congr fun entry member =>
    ofJson?_shown (normal entry.2 (List.mem_map_of_mem member)) deeper

end BehaviorTree.Value
