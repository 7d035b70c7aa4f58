import BehaviorTree.Proofs.Compilation.DepthFirst
import BehaviorTree.Proofs.Execution.RunningPath

/-!
# Traces

A trace lists what becomes of the nodes of a tree, by their paths. What it lists of a subtree is a
trace of that subtree (`Trace.inside`). The trace of a tree that is cut short has all its nodes
(`cuts`). Where ids are distinct, what is reported of a node under its id is what the trace lists at
its path (`Trace.lookup_report`).
-/

namespace BehaviorTree

variable {T : Type}

/-! ## Paths -/

namespace Tree

variable {α β : Type}

mutual

/-- The paths to all nodes of a tree, in pre-order. -/
def paths : Tree α → List (List Nat)
  | node _ children => [] :: pathsFrom 0 children

def pathsFrom (place : Nat) : List (Tree α) → List (List Nat)
  | [] => []
  | t :: rest => (paths t).map (place :: ·) ++ pathsFrom (place + 1) rest

end

mutual

/-- What holds of a tree if it does of its children holds of all trees. -/
theorem induction {P : Tree α → Prop}
    (step : ∀ label children, (∀ child ∈ children, P child) → P (.node label children))
    (t : Tree α) : P t := by
  match t with
  | node label children => exact step label children (induction_children step children)

theorem induction_children {P : Tree α → Prop}
    (step : ∀ label children, (∀ child ∈ children, P child) → P (.node label children))
    (children : List (Tree α)) : ∀ child ∈ children, P child := by
  match children with
  | [] => exact fun child mem => nomatch mem
  | first :: rest =>
    exact List.forall_mem_cons.2 ⟨induction step first, induction_children step rest⟩

end

theorem at?_cons {t s : Tree α} {i : Nat} {path : List Nat} :
    t.at? (i :: path) = some s ↔ ∃ child, t.children[i]? = some child ∧ child.at? path = some s :=
  Option.bind_eq_some_iff

theorem at?_append (t : Tree α) (path more : List Nat) :
    t.at? (path ++ more) = (t.at? path).bind (·.at? more) := by
  induction path generalizing t with
  | nil => rfl
  | cons i path ih =>
    simp only [List.cons_append, at?, ih]
    cases t.children[i]? <;> rfl

theorem at?_map (f : α → β) (t : Tree α) (path : List Nat) :
    (t.map f).at? path = (t.at? path).map (Tree.map f) := by
  induction path generalizing t with
  | nil => rfl
  | cons i path ih =>
    simp only [at?, children_map, maps_eq_map, List.getElem?_map]
    cases t.children[i]? with
    | none => rfl
    | some child => exact ih child

section Subtrees

variable {t s c : Tree α}

theorem mem_subtreesOf {trees : List (Tree α)} :
    s ∈ subtreesOf trees ↔ ∃ c ∈ trees, s ∈ c.subtrees := by
  induction trees with
  | nil => simp [subtreesOf]
  | cons t rest ih => simp [subtreesOf, ih]

theorem mem_subtrees_self (t : Tree α) : t ∈ t.subtrees := by
  cases t
  exact List.mem_cons_self

theorem mem_subtrees_of_child (child : c ∈ t.children) (mem : s ∈ c.subtrees) :
    s ∈ t.subtrees := by
  cases t
  exact List.mem_cons_of_mem _ (mem_subtreesOf.2 ⟨c, child, mem⟩)

/-- What is below a subtree is a subtree. -/
theorem mem_subtrees_trans {u : Tree α} (mem : s ∈ t.subtrees) (below : u ∈ s.subtrees) :
    u ∈ t.subtrees := by
  induction t using Tree.induction with
  | step label children ih =>
    simp only [subtrees, List.mem_cons, mem_subtreesOf] at mem
    rcases mem with rfl | ⟨above, inside, mem⟩
    · exact below
    · exact mem_subtrees_of_child inside (ih above inside mem)

/-- The children of a subtree are subtrees. -/
theorem child_mem_subtrees (mem : s ∈ t.subtrees) (child : c ∈ s.children) : c ∈ t.subtrees :=
  mem_subtrees_trans mem (mem_subtrees_of_child child (mem_subtrees_self c))

/-- What is found at a path is a subtree. -/
theorem mem_subtrees_of_at? {path : List Nat} (at_ : t.at? path = some s) : s ∈ t.subtrees := by
  induction path generalizing t with
  | nil =>
    obtain rfl := Option.some.inj at_
    exact mem_subtrees_self t
  | cons i path ih =>
    obtain ⟨c, at_i, at_⟩ := at?_cons.1 at_
    exact mem_subtrees_of_child (List.mem_of_getElem? at_i) (ih at_)

end Subtrees

section Distinct

theorem preorders_eq_flatMap (trees : List (Tree α)) :
    preorders trees = trees.flatMap preorder := by
  induction trees with
  | nil => rfl
  | cons t rest ih => rw [preorders, ih, List.flatMap_cons]

theorem label_mem_of_at? {t s : Tree α} {path : List Nat}
    (at_ : t.at? path = some s) : s.label ∈ t.preorder := by
  rw [← map_label_subtrees]
  exact List.mem_map_of_mem (mem_subtrees_of_at? at_)

/-- Labels that are distinct by a key are so below each child and apart from the root, and children
have no key in common. -/
theorem distinct_children {key : α → β} {label : α} {children : List (Tree α)}
    (distinct : ((node label children).preorder.map key).Nodup) :
    (∀ c ∈ children, (c.preorder.map key).Nodup ∧ ∀ x ∈ c.preorder, key x ≠ key label) ∧
      ∀ (i j : Nat) (c c' : Tree α) (x y : α), children[i]? = some c → children[j]? = some c' →
        x ∈ c.preorder → y ∈ c'.preorder → key x = key y → i = j := by
  rw [preorder, preorders_eq_flatMap, List.map_cons, List.nodup_cons, List.map_flatMap,
    List.nodup_flatMap] at distinct
  obtain ⟨apart, each, pairs⟩ := distinct
  refine ⟨fun c mem => ⟨each c mem, fun x below same => apart ?_⟩, ?_⟩
  · exact List.mem_flatMap.2 ⟨c, mem, same ▸ List.mem_map_of_mem below⟩
  intro i j c c' x y at_i at_j below below' same
  have common {i j : Nat} {c c' : Tree α} {x y : α} (at_i : children[i]? = some c)
      (at_j : children[j]? = some c') (below : x ∈ c.preorder) (below' : y ∈ c'.preorder)
      (same : key x = key y) : ¬ i < j := fun before => by
    obtain ⟨in_i, rfl⟩ := List.getElem?_eq_some_iff.1 at_i
    obtain ⟨in_j, rfl⟩ := List.getElem?_eq_some_iff.1 at_j
    exact List.pairwise_iff_getElem.1 pairs i j in_i in_j before (List.mem_map_of_mem below)
      (same ▸ List.mem_map_of_mem below')
  exact Nat.le_antisymm (Nat.le_of_not_lt (common at_j at_i below' below same.symm))
    (Nat.le_of_not_lt (common at_i at_j below below' same))

/-- Where labels are distinct by a key, a key belongs to one path. -/
theorem path_unique (key : α → β) {t s u : Tree α} {p q : List Nat}
    (distinct : (t.preorder.map key).Nodup) (at_p : t.at? p = some s) (at_q : t.at? q = some u)
    (same : key s.label = key u.label) : p = q := by
  induction p generalizing t q with
  | nil =>
    obtain rfl := Option.some.inj at_p
    cases q with
    | nil => rfl
    | cons j q =>
      obtain ⟨c, at_j, at_u⟩ := at?_cons.1 at_q
      obtain ⟨label, children⟩ := t
      have below := (distinct_children distinct).1 c (List.mem_of_getElem? at_j)
      exact absurd same.symm (below.2 _ (label_mem_of_at? at_u))
  | cons i p ih =>
    obtain ⟨c, at_i, at_s⟩ := at?_cons.1 at_p
    obtain ⟨label, children⟩ := t
    obtain ⟨below, apart⟩ := distinct_children distinct
    have below := below c (List.mem_of_getElem? at_i)
    cases q with
    | nil =>
      obtain rfl := Option.some.inj at_q
      exact absurd same (below.2 _ (label_mem_of_at? at_s))
    | cons j q =>
      obtain ⟨c', at_j, at_u⟩ := at?_cons.1 at_q
      obtain rfl :=
        apart i j c c' _ _ at_i at_j (label_mem_of_at? at_s) (label_mem_of_at? at_u) same
      obtain rfl := Option.some.inj (at_i.symm.trans at_j)
      rw [ih below.1 at_s at_u]

end Distinct

end Tree

/-! ## Traces -/

/-- The part of a node in an evaluation. -/
inductive Part where
  /-- It was evaluated, from a world on and with a status. -/
  | evaluated (world : World) (status : Status)
  | cutShort

/-- The status that is reported of a node. -/
def Part.status : Part → Status
  | .evaluated _ status => status
  | .cutShort => .idle

/-- Nodes by their paths and the parts that they take, in the order in which these end. -/
abbrev Trace := List (List Nat × Part)

namespace Trace

/-- The trace of a child as part of that of its parent. -/
def below (place : Nat) (trace : Trace) : Trace := trace.map fun e => (place :: e.1, e.2)

/-- The part of a trace that is about a child and what is below it. -/
def child (place : Nat) (trace : Trace) : Trace :=
  trace.filterMap fun e => match e.1 with
    | [] => none
    | i :: path => if i = place then some (path, e.2) else none

/-- The part of a trace that is about a subtree. -/
def inside : List Nat → Trace → Trace
  | [], trace => trace
  | i :: path, trace => inside path (trace.child i)

/-- What is listed of the node itself. -/
def own (trace : Trace) : List Part :=
  trace.filterMap fun e => if e.1 = [] then some e.2 else none

/-- The children that were evaluated and the statuses that they gave. -/
def results (trace : Trace) : List (Nat × Status) :=
  trace.filterMap fun e => match e with
    | ([place], .evaluated _ status) => some (place, status)
    | _ => none

variable (place : Nat) (trace trace' : Trace)

@[simp]
theorem child_append : child place (trace ++ trace') = child place trace ++ child place trace' :=
  List.filterMap_append

@[simp]
theorem own_append : own (trace ++ trace') = own trace ++ own trace' := List.filterMap_append

@[simp]
theorem results_append : results (trace ++ trace') = results trace ++ results trace' :=
  List.filterMap_append

@[simp]
theorem child_below : child place (below place trace) = trace := by
  simp [child, below, List.filterMap_map]

theorem child_below_ne {place other : Nat} (ne : other ≠ place) :
    child place (below other trace) = [] := by
  simp [child, below, List.filterMap_map, ne]

@[simp]
theorem own_below : own (below place trace) = [] := by
  simp [own, below, List.filterMap_map]

/-- A child gives a result if it was evaluated. -/
theorem results_below : results (below place trace) = (own trace).filterMap fun part =>
    match part with
    | .evaluated _ status => some (place, status)
    | .cutShort => none := by
  rw [results, below, own, List.filterMap_map, List.filterMap_filterMap]
  refine List.filterMap_congr fun e _ => ?_
  obtain ⟨path, part⟩ := e
  cases path with
  | nil => cases part <;> rfl
  | cons i path => rfl

/-- A trace lists nothing below children before a place. -/
def StartsAt (place : Nat) (trace : Trace) : Prop := ∀ i < place, child i trace = []

section StartsAt

variable {place} {trace trace'}

theorem StartsAt.nil : StartsAt place [] := fun _ _ => rfl

/-- What is below one place comes before what is below later ones. -/
theorem StartsAt.below_append (later : StartsAt (place + 1) trace') :
    StartsAt place (below place trace ++ trace') := fun i before => by
  rw [child_append, child_below_ne trace (Nat.ne_of_gt before),
    later i (Nat.lt_succ_of_lt before), List.append_nil]

theorem StartsAt.child_first (later : StartsAt (place + 1) trace') :
    child place (below place trace ++ trace') = trace := by
  rw [child_append, child_below, later place (Nat.lt_succ_self place), List.append_nil]

theorem child_later {i : Nat} (ne : place ≠ i) :
    child i (below place trace ++ trace') = child i trace' := by
  rw [child_append, child_below_ne trace ne, List.nil_append]

end StartsAt

@[simp]
theorem child_self (part : Part) : child place [([], part)] = [] := rfl

@[simp]
theorem results_self (part : Part) : results [([], part)] = [] := by cases part <;> rfl

/-- What is listed of the node at a path. -/
theorem own_inside (path : List Nat) (trace : Trace) :
    (trace.inside path).own = trace.filterMap fun e => if e.1 = path then some e.2 else none := by
  induction path generalizing trace with
  | nil => rfl
  | cons i path ih =>
    rw [inside, ih, child, List.filterMap_filterMap]
    refine List.filterMap_congr fun e _ => ?_
    obtain ⟨here, part⟩ := e
    cases here with
    | nil => rfl
    | cons j here =>
      by_cases same : j = i
      · simp [same]
      · simp [same]

theorem inside_nil (path : List Nat) : inside path [] = [] := by
  induction path with
  | nil => rfl
  | cons i path ih => exact ih

theorem inside_append (path more : List Nat) (trace : Trace) :
    trace.inside (path ++ more) = (trace.inside path).inside more := by
  induction path generalizing trace with
  | nil => rfl
  | cons i path ih => exact ih (trace.child i)

section Blocks

variable {place} {trace}

/-- What a trace lists below each child stands together in it. -/
def Blocks (trace : Trace) : Prop := ∀ i, (trace.child i).below i <:+: trace

namespace Blocks

theorem nil : Blocks [] := fun _ => List.infix_refl _

theorem below_append {mine others : Trace} (starts : others.StartsAt (place + 1))
    (blocks : others.Blocks) : Blocks (mine.below place ++ others) := by
  intro i
  by_cases here : place = i
  · rw [← here, starts.child_first]
    exact (List.prefix_append _ _).isInfix
  · rw [child_later here]
    exact (blocks i).trans (List.suffix_append _ _).isInfix

theorem below (mine : Trace) : Blocks (mine.below place) :=
  List.append_nil (mine.below place) ▸ below_append .nil .nil

/-- The node itself is listed apart from what is below it. -/
theorem append_self (blocks : trace.Blocks) (part : Part) : Blocks (trace ++ [([], part)]) := by
  intro i
  rw [child_append, child_self, List.append_nil]
  exact (blocks i).trans (List.prefix_append _ _).isInfix

theorem self_append (blocks : trace.Blocks) (part : Part) : Blocks ([([], part)] ++ trace) := by
  intro i
  rw [child_append, child_self, List.nil_append]
  exact (blocks i).trans (List.suffix_append _ _).isInfix

end Blocks

end Blocks

end Trace

/-! ## Reports -/

namespace Trace

/-- The nodes of a trace of a tree with the statuses that are reported of them. -/
def report (t : LiveTree T) (trace : Trace) : List (String × Status) :=
  trace.filterMap fun e => (t.at? e.1).map fun s => (s.label.node.id, e.2.status)

variable {t c : LiveTree T} {place : Nat}

@[simp]
theorem report_append (t : LiveTree T) (trace trace' : Trace) :
    report t (trace ++ trace') = report t trace ++ report t trace' :=
  List.filterMap_append

theorem report_below (at_ : t.children[place]? = some c) (trace : Trace) :
    report t (below place trace) = report c trace := by
  rw [report, below, List.filterMap_map]
  refine List.filterMap_congr fun e _ => ?_
  simp [Tree.at?, at_]

/-- What is reported of a node under its id is the first thing that is listed of it. -/
theorem lookup_report {s : LiveTree T} {path : List Nat}
    (distinct : (t.preorder.map (·.node.id)).Nodup) (at_ : t.at? path = some s) (trace : Trace) :
    (trace.report t).lookup s.label.node.id =
      (trace.inside path).own.head?.map Part.status := by
  rw [own_inside]
  induction trace with
  | nil => rfl
  | cons e rest ih =>
    rw [report, List.filterMap_cons, List.filterMap_cons]
    by_cases here : e.1 = path
    · simp [here, at_]
    · rw [if_neg here]
      cases found : t.at? e.1 with
      | none => exact ih
      | some u =>
        have other : (s.label.node.id == u.label.node.id) = false :=
          beq_false_of_ne fun same => here
            (Tree.path_unique (·.node.id) distinct found at_ same.symm)
        simp only [Option.map_some, List.lookup_cons, other]
        exact ih

end Trace

/-! ## Trees that are cut short -/

/-- The trace of a tree that is cut short. -/
def cuts (t : LiveTree T) : Trace := t.paths.map (·, .cutShort)

/-- The trace of trees that are cut short and stand from a place on. -/
def cutsFrom (place : Nat) (trees : List (LiveTree T)) : Trace :=
  (Tree.pathsFrom place trees).map (·, .cutShort)

section Cuts

variable {place i : Nat} {trees : List (LiveTree T)} {t c : LiveTree T}

theorem cuts_node (n : LiveNode T) (children : List (LiveTree T)) :
    cuts (.node n children) = [([], .cutShort)] ++ cutsFrom 0 children := rfl

theorem cutsFrom_cons (place : Nat) (t : LiveTree T) (rest : List (LiveTree T)) :
    cutsFrom place (t :: rest) = (cuts t).below place ++ cutsFrom (place + 1) rest := by
  simp [cutsFrom, cuts, Trace.below, Tree.pathsFrom, Function.comp_def]

theorem startsAt_cutsFrom (place : Nat) (trees : List (LiveTree T)) :
    (cutsFrom place trees).StartsAt place := by
  induction trees generalizing place with
  | nil => exact .nil
  | cons t rest ih =>
    rw [cutsFrom_cons]
    exact (ih (place + 1)).below_append

theorem child_cutsFrom (at_ : trees[i]? = some c) :
    (cutsFrom place trees).child (place + i) = cuts c := by
  induction trees generalizing place i with
  | nil => cases at_
  | cons t rest ih =>
    rw [cutsFrom_cons]
    cases i with
    | zero =>
      obtain rfl := Option.some.inj at_
      exact (startsAt_cutsFrom (place + 1) rest).child_first
    | succ i =>
      rw [Trace.child_later (by omega), ← Nat.succ_add_eq_add_succ]
      exact ih at_

theorem child_cuts (at_ : t.children[i]? = some c) : (cuts t).child i = cuts c := by
  obtain ⟨n, children⟩ := t
  have below : (cutsFrom 0 children).child (0 + i) = cuts c := child_cutsFrom at_
  rw [cuts_node, Trace.child_append, ← below, Nat.zero_add]
  rfl

@[simp]
theorem own_cutsFrom (place : Nat) (trees : List (LiveTree T)) :
    (cutsFrom place trees).own = [] := by
  induction trees generalizing place with
  | nil => rfl
  | cons t rest ih => rw [cutsFrom_cons, Trace.own_append, Trace.own_below, ih]; rfl

@[simp]
theorem own_cuts (t : LiveTree T) : (cuts t).own = [.cutShort] := by
  obtain ⟨n, children⟩ := t
  rw [cuts_node, Trace.own_append, own_cutsFrom]
  rfl

theorem inside_cuts {t s : LiveTree T} {path : List Nat} (at_ : t.at? path = some s) :
    (cuts t).inside path = cuts s := by
  induction path generalizing t with
  | nil =>
    obtain rfl := Option.some.inj at_
    rfl
  | cons i path ih =>
    obtain ⟨c, at_i, at_⟩ := Tree.at?_cons.1 at_
    rw [Trace.inside, child_cuts at_i, ih at_]

theorem blocks_cutsFrom (place : Nat) (trees : List (LiveTree T)) :
    (cutsFrom place trees).Blocks := by
  induction trees generalizing place with
  | nil => exact .nil
  | cons t rest ih =>
    rw [cutsFrom_cons]
    exact .below_append (startsAt_cutsFrom (place + 1) rest) (ih (place + 1))

/-- A child that is cut short gives no result. -/
theorem results_cuts (t : LiveTree T) (place : Nat) : ((cuts t).below place).results = [] := by
  rw [Trace.results_below, own_cuts]
  rfl

theorem drop_eq_cons {α : Type} {xs rest : List α} {x : α} (stand : xs.drop place = x :: rest) :
    xs[place]? = some x ∧ xs.drop (place + 1) = rest := by
  rw [← List.head?_drop, ← List.tail_drop, stand]
  exact ⟨rfl, rfl⟩

theorem report_cutsFrom (stand : t.children.drop place = trees)
    (each : ∀ c ∈ trees, (cuts c).report c = c.preorder.map fun n => (n.node.id, .idle)) :
    (cutsFrom place trees).report t =
      (Tree.preorders trees).map fun n => (n.node.id, .idle) := by
  induction trees generalizing place with
  | nil => rfl
  | cons c rest ih =>
    obtain ⟨first, others⟩ := List.forall_mem_cons.1 each
    obtain ⟨here, behind⟩ := drop_eq_cons stand
    rw [cutsFrom_cons, Trace.report_append, Trace.report_below here, first, ih behind others,
      Tree.preorders, List.map_append]

/-- Every node of a tree that is cut short is reported as idle. -/
theorem report_cuts (t : LiveTree T) :
    (cuts t).report t = t.preorder.map fun n => (n.node.id, .idle) := by
  induction t using Tree.induction with
  | step n children ih =>
    have below : (cutsFrom 0 children).report (.node n children) =
      (Tree.preorders children).map fun n => (n.node.id, .idle) := report_cutsFrom rfl ih
    rw [cuts_node, Trace.report_append, below]
    rfl

end Cuts

end BehaviorTree
