import BehaviorTree.Json.Record
import BehaviorTree.Proofs.Json.Pretty
import Mathlib.Data.List.Nodup

/-!
# Texts that tell all

The text of a tree is legible if its numbers are read back from it and its containers are not nested
too deeply. For each kind of thing that is written as JSON, being read back from its text is being
legible; the lemmas here say so of numbers, lists and the fields of records.
-/

namespace BehaviorTree

/-- The JSON text of a number is read as that number. -/
def Number.ReadsBack (x : Number) : Prop :=
  (Json.read (x.render Number.jsonLayout)).bind Json.number? = some x

instance (x : Number) : Decidable x.ReadsBack := inferInstanceAs (Decidable (_ = _))

/-- The numeral `90.57142857142857` is read as the number beside the one it was written for. -/
example : ¬ (Number.ofFraction false 634 7).ReadsBack := by decide +kernel

namespace Json

mutual

/-- The numbers in a tree. -/
def numbers : Json → List Number
  | .number x => [x]
  | .array items => numbersOfItems items
  | .object members => numbersOfMembers members
  | _ => []

def numbersOfItems : List Json → List Number
  | [] => []
  | item :: items => numbers item ++ numbersOfItems items

def numbersOfMembers : List (String × Json) → List Number
  | [] => []
  | (_, value) :: members => numbers value ++ numbersOfMembers members

end

mutual

/-- How many containers stand one inside the other in a tree. -/
def nesting : Json → Nat
  | .array items => nestingOfItems items + 1
  | .object members => nestingOfMembers members + 1
  | _ => 0

def nestingOfItems : List Json → Nat
  | [] => 0
  | item :: items => max (nesting item) (nestingOfItems items)

def nestingOfMembers : List (String × Json) → Nat
  | [] => 0
  | (_, value) :: members => max (nesting value) (nestingOfMembers members)

end

/-- Inside `depth` containers, the text of a tree keeps its numbers and can be read to its depth. -/
structure Legible (depth : Nat) (j : Json) : Prop where
  numbers : ∀ x ∈ j.numbers, x.ReadsBack
  nesting : depth + j.nesting ≤ maxDepth

variable {depth : Nat} {x : Number} {items : List Json} {members : List (String × Json)}

theorem numbersOfItems_eq (items : List Json) : numbersOfItems items = items.flatMap numbers := by
  induction items with
  | nil => rfl
  | cons item items ih => rw [numbersOfItems, ih, List.flatMap_cons]

theorem numbersOfMembers_eq (members : List (String × Json)) :
    numbersOfMembers members = members.flatMap fun member => member.2.numbers := by
  induction members with
  | nil => rfl
  | cons member members ih => rw [numbersOfMembers, ih, List.flatMap_cons]

theorem nestingOfItems_le {bound : Nat} :
    nestingOfItems items ≤ bound ↔ ∀ item ∈ items, item.nesting ≤ bound := by
  induction items with
  | nil => simp [nestingOfItems]
  | cons item items ih => rw [nestingOfItems, Nat.max_le, ih, List.forall_mem_cons]

theorem nestingOfMembers_le {bound : Nat} :
    nestingOfMembers members ≤ bound ↔ ∀ member ∈ members, member.2.nesting ≤ bound := by
  induction members with
  | nil => simp [nestingOfMembers]
  | cons member members ih => rw [nestingOfMembers, Nat.max_le, ih, List.forall_mem_cons]

/-- A container is legible if there is room for it and all that stands inside is legible. -/
theorem legible_of_inside {j : Json} {inside : List Json} (container : 0 < j.nesting)
    (numbers : j.numbers = inside.flatMap Json.numbers)
    (nesting : ∀ bound, j.nesting ≤ bound + 1 ↔ ∀ inner ∈ inside, inner.nesting ≤ bound) :
    Legible depth j ↔ depth < maxDepth ∧ ∀ inner ∈ inside, Legible (depth + 1) inner := by
  have level (room : depth < maxDepth) : depth + j.nesting ≤ maxDepth ↔
      ∀ inner ∈ inside, depth + 1 + inner.nesting ≤ maxDepth := by
    have shift (n : Nat) : depth + 1 + n ≤ maxDepth ↔ n ≤ maxDepth - (depth + 1) := by omega
    simp only [shift, ← nesting]
    omega
  constructor
  · rintro ⟨keeps, shallow⟩
    have room : depth < maxDepth := by omega
    rw [numbers, List.forall_mem_flatMap] at keeps
    exact ⟨room, fun inner member => ⟨keeps inner member, (level room).1 shallow inner member⟩⟩
  · rintro ⟨room, each⟩
    refine ⟨?_, (level room).2 fun inner member => (each inner member).nesting⟩
    rw [numbers, List.forall_mem_flatMap]
    exact fun inner member => (each inner member).numbers

theorem legible_array : Legible depth (.array items) ↔
    depth < maxDepth ∧ ∀ item ∈ items, Legible (depth + 1) item :=
  legible_of_inside (Nat.succ_pos _) (numbersOfItems_eq items) fun _ =>
    Nat.succ_le_succ_iff.trans nestingOfItems_le

theorem legible_object : Legible depth (.object members) ↔
    depth < maxDepth ∧ ∀ member ∈ members, Legible (depth + 1) member.2 := by
  rw [← List.forall_mem_map (P := fun j => Legible (depth + 1) j)]
  refine legible_of_inside (Nat.succ_pos _) ?_ fun _ => ?_
  · rw [Json.numbers, numbersOfMembers_eq, List.flatMap_map]
  · rw [List.forall_mem_map]
    exact Nat.succ_le_succ_iff.trans nestingOfMembers_le

/-- What is neither number nor container is legible wherever it may stand. -/
theorem legible_plain {j : Json} (numberless : j.numbers = []) (flat : j.nesting = 0) :
    Legible depth j ↔ depth ≤ maxDepth := by
  constructor
  · intro legible
    simpa [flat] using legible.nesting
  · intro room
    exact ⟨by simp [numberless], by simpa [flat] using room⟩

theorem legible_number : Legible depth (.number x) ↔ x.ReadsBack ∧ depth ≤ maxDepth :=
  ⟨fun legible => ⟨legible.numbers x List.mem_cons_self, legible.nesting⟩,
    fun ⟨back, room⟩ => ⟨fun _ only => List.mem_singleton.1 only ▸ back, room⟩⟩

theorem legible_string {s : String} : Legible depth (.string s) ↔ depth ≤ maxDepth :=
  legible_plain rfl rfl

theorem legible_ofOption_string {s : Option String} :
    Legible depth (ofOption .string s) ↔ depth ≤ maxDepth := by
  cases s <;> exact legible_plain rfl rfl

theorem legible_ofNamed {α : Type} [Named α] {a : α} :
    Legible depth (ofNamed a) ↔ depth ≤ maxDepth := legible_string

/-! ## Reading back -/

/-- A number is read from its place in a text as it is from a text of its own. -/
theorem number?_shown (room : depth ≤ maxDepth) :
    (shown depth (.number x)).number? = some x ↔ Legible depth (.number x) := by
  have text : read (x.render Number.jsonLayout) = some (shown 0 (.number x)) :=
    read_pretty (.number x)
  rw [legible_number, and_iff_left room, Number.ReadsBack, text, Option.bind_some, shown, shown]

theorem shownItems_eq (depth : Nat) (items : List Json) :
    shownItems depth items = items.map (shown depth) := by
  induction items with
  | nil => rfl
  | cons item items ih => rw [shownItems, ih, List.map_cons]

section Lists

variable {α : Type} {write : α → Json} {read : Json → Option α}

/-- Reading a list item by item gives a list back exactly if it does so for each item. -/
theorem mapM_eq_some_iff {f : α → Json} {as : List α} :
    (as.map f).mapM read = some as ↔ ∀ a ∈ as, read (f a) = some a := by
  induction as with
  | nil => simp
  | cons a as ih =>
    simp only [List.map_cons, List.mapM_cons, List.forall_mem_cons, ← ih]
    cases read (f a) <;> cases (as.map f).mapM read <;> simp

/-- A list is read back exactly if it is legible, given that so are its items. -/
theorem list?_shown {as : List α}
    (each : ∀ a ∈ as, depth < maxDepth →
      (read (shown (depth + 1) (write a)) = some a ↔ Legible (depth + 1) (write a))) :
    list? read (shown depth (.array (as.map write))) = some as ↔
      Legible depth (.array (as.map write)) := by
  rw [legible_array, List.forall_mem_map, shown, shownItems_eq, List.map_map]
  by_cases room : depth < maxDepth
  · rw [if_pos room, and_iff_right room]
    exact mapM_eq_some_iff.trans <| forall₂_congr fun a member => each a member room
  · simp [list?, array?, room]

end Lists

/-! ## Records -/

theorem shownMembers_eq (depth : Nat) (members : List (String × Json)) :
    shownMembers depth members = members.map fun member => (member.1, shown depth member.2) := by
  induction members with
  | nil => rfl
  | cons member members ih => rw [shownMembers, ih, List.map_cons]

/-- A record is read back exactly if its object is legible, given that so are its fields. -/
theorem object_shown {α : Type} {read : Json → Option α} {a : α}
    (refused : read .unreadable ≠ some a)
    (each : depth < maxDepth → (read (.object (shownMembers (depth + 1) members)) = some a ↔
      ∀ member ∈ members, Legible (depth + 1) member.2)) :
    read (shown depth (.object members)) = some a ↔ Legible depth (.object members) := by
  rw [legible_object, shown]
  by_cases room : depth < maxDepth
  · rw [if_pos room, and_iff_right room, each room]
  · simp [room, refused]

/-- An object that has each field of a record once has the fields of that record. -/
theorem fields?_object {names : List String} (keys : members.map (·.1) = names)
    (once : names.Nodup) :
    fields? names (.object members) = some ⟨fun name => members.lookup name, false⟩ := by
  rw [fields?, if_pos]
  rw [List.all_eq_true]
  intro name _
  have count : occurrences name members = names.count name := by
    rw [← keys, List.count, List.countP_map]
    rfl
  exact decide_eq_true (count ▸ List.nodup_iff_count_le_one.1 once name)

section Members

variable {α : Type} {name key : String}

theorem lookup_of_ne (other : name ≠ key) (j : Json) :
    ((key, j) :: members).lookup name = members.lookup name := by
  show (match name == key with
    | true => some j
    | false => members.lookup name) = members.lookup name
  rw [beq_false_of_ne other]

theorem required_members (read : Json → Option α) :
    Fields.required ⟨fun name => members.lookup name, false⟩ name read =
      (members.lookup name).bind read := rfl

/-- A slot that is written as a name or as `null` is read back. -/
theorem optional_members {s : Option String}
    (found : members.lookup name = some (ofOption .string s)) :
    Fields.optional ⟨fun name => members.lookup name, false⟩ name string? = some s := by
  simp only [Fields.optional, found]
  cases s <;> rfl

end Members

theorem named?_ofNamed {α : Type} [Named α] (a : α) : named? (ofNamed a) = some a :=
  Named.ofName?_name a

theorem shown_ofNamed {α : Type} [Named α] (a : α) : shown depth (ofNamed a) = ofNamed a := rfl

theorem shown_ofOption_string (s : Option String) :
    shown depth (ofOption .string s) = ofOption .string s := by
  cases s <;> rfl

end Json

end BehaviorTree
