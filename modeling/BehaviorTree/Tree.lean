/-!
# Rose trees

Trees with any number of ordered children, and their nodes in depth-first order, parents first.
-/

namespace BehaviorTree

/-- A tree with labels of a type. -/
inductive Tree (α : Type) where
  | node (label : α) (children : List (Tree α))

namespace Tree

variable {α β : Type}

def label : Tree α → α
  | node label _ => label

def children : Tree α → List (Tree α)
  | node _ children => children

instance [Inhabited α] : Inhabited (Tree α) := ⟨node default []⟩

mutual

/-- How many nodes a tree has. -/
def size : Tree α → Nat
  | node _ children => sizes children + 1

def sizes : List (Tree α) → Nat
  | [] => 0
  | t :: rest => size t + sizes rest

end

mutual

/-- The labels in pre-order. -/
def preorder : Tree α → List α
  | node label children => label :: preorders children

def preorders : List (Tree α) → List α
  | [] => []
  | t :: rest => preorder t ++ preorders rest

end

mutual

def map (f : α → β) : Tree α → Tree β
  | node label children => node (f label) (maps f children)

def maps (f : α → β) : List (Tree α) → List (Tree β)
  | [] => []
  | t :: rest => map f t :: maps f rest

end

mutual

/-- All subtrees, the tree itself included, in pre-order of their roots. -/
def subtrees : Tree α → List (Tree α)
  | node label children => node label children :: subtreesOf children

def subtreesOf : List (Tree α) → List (Tree α)
  | [] => []
  | t :: rest => subtrees t ++ subtreesOf rest

end

/-- The places in pre-order of trees that follow one another from `start` on. -/
def places (start : Nat) : List (Tree α) → List Nat
  | [] => []
  | t :: rest => start :: places (start + t.size) rest

mutual

theorem length_preorder (t : Tree α) : t.preorder.length = t.size := by
  match t with
  | node label children => simp [preorder, size, length_preorders children]

theorem length_preorders (ts : List (Tree α)) : (preorders ts).length = sizes ts := by
  match ts with
  | [] => rfl
  | t :: rest => simp [preorders, sizes, length_preorder t, length_preorders rest]

end

@[simp]
theorem children_map (f : α → β) (t : Tree α) : (t.map f).children = maps f t.children := by
  cases t; rfl

mutual

@[simp]
theorem map_map {γ : Type} (f : α → β) (g : β → γ) (t : Tree α) :
    (t.map f).map g = t.map (g ∘ f) := by
  match t with
  | node label children => simp [map, maps_maps f g children]

@[simp]
theorem maps_maps {γ : Type} (f : α → β) (g : β → γ) (ts : List (Tree α)) :
    maps g (maps f ts) = maps (g ∘ f) ts := by
  match ts with
  | [] => rfl
  | t :: rest => simp [maps, map_map f g t, maps_maps f g rest]

end

theorem maps_eq_map (f : α → β) (ts : List (Tree α)) : maps f ts = ts.map (map f) := by
  induction ts with
  | nil => rfl
  | cons t rest ih => rw [maps, ih, List.map_cons]

mutual

theorem map_id (t : Tree α) : t.map id = t := by
  match t with
  | node label children => simp [map, maps_id children]

theorem maps_id (ts : List (Tree α)) : maps id ts = ts := by
  match ts with
  | [] => rfl
  | t :: rest => simp [maps, map_id t, maps_id rest]

end

mutual

theorem preorder_map (f : α → β) (t : Tree α) : (t.map f).preorder = t.preorder.map f := by
  match t with
  | node label children => simp [map, preorder, preorders_maps f children]

theorem preorders_maps (f : α → β) (ts : List (Tree α)) :
    preorders (maps f ts) = (preorders ts).map f := by
  match ts with
  | [] => rfl
  | t :: rest => simp [maps, preorders, preorder_map f t, preorders_maps f rest]

end

@[simp]
theorem size_map (f : α → β) (t : Tree α) : (t.map f).size = t.size := by
  rw [← length_preorder, preorder_map, List.length_map, length_preorder]

@[simp]
theorem places_maps (f : α → β) (start : Nat) (ts : List (Tree α)) :
    places start (maps f ts) = places start ts := by
  induction ts generalizing start with
  | nil => rfl
  | cons t rest ih => rw [maps, places, places, size_map, ih]

end Tree

end BehaviorTree
