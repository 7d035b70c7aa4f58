/-!
# Finite types with written names

The enumerations of the library (scopes, value types, node kinds and so on) are written by name in
text and by position in the binary form. An instance lists the members once; reading and writing
both go through that list, so they cannot disagree.
-/

namespace BehaviorTree

/-- A finite type whose members have pairwise different names. -/
class Named (α : Type) where
  /-- The members in the order of their positions. -/
  all : List α
  name : α → String
  mem_all : ∀ a, a ∈ all
  name_inj : ∀ {a b : α}, name a = name b → a = b

namespace Named

variable {α : Type} [Named α]

/-- The member with a given name. -/
def ofName? (text : String) : Option α := all.find? fun a => name a == text

/-- The place of a member in the list. -/
def position (a : α) : Nat := (all : List α).findIdx fun b => name b == name a

/-- The member at a given place. -/
def ofPosition? (n : Nat) : Option α := (all : List α)[n]?

theorem ofName?_name (a : α) : ofName? (name a) = some a := by
  cases h : (ofName? (name a) : Option α) with
  | none =>
    have := List.find?_eq_none.1 h a (mem_all a)
    simp at this
  | some b =>
    have := List.find?_some h
    rw [name_inj (eq_of_beq this)]

/-- The texts that name a member are the names of the members. -/
theorem exists_ofName?_iff {text : String} :
    (∃ a : α, ofName? text = some a) ↔ text ∈ (all : List α).map name := by
  rw [ofName?, ← Option.isSome_iff_exists, List.find?_isSome, List.mem_map]
  simp only [beq_iff_eq]

theorem position_lt (a : α) : position a < (all : List α).length :=
  List.findIdx_lt_length_of_exists ⟨a, mem_all a, by simp⟩

theorem ofPosition?_position (a : α) : ofPosition? (position a) = some a := by
  rw [ofPosition?, List.getElem?_eq_getElem (position_lt a)]
  have found := @List.findIdx_getElem _ (fun b : α => name b == name a) all (position_lt a)
  exact congrArg some (name_inj (eq_of_beq found))

end Named

end BehaviorTree
