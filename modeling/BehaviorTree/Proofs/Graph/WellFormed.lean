import BehaviorTree.Graph.Validity
import BehaviorTree.Proofs.Checks
import BehaviorTree.Proofs.Graph.Reachability
import Mathlib.Data.List.Pairwise

/-!
# Well-formed graphs

`Valid` says what `Graph.validate` checks, in terms of the child relation instead of the order in
which the checks are made (`validate_eq_ok`). `WellFormed` adds what the list representation needs
for its entries to be told apart: node ids and connection ids that occur once, and no connection
from a node to itself. That is also what `Graph.ofParts` asks of stored parts (`ofParts_eq_ok`).
-/

namespace BehaviorTree

/-- How many children a node of a kind may have. -/
def NodeKind.Admits : NodeKind → Nat → Prop
  | .composite, _ => True
  | .root, count | .decorator, count => count ≤ 1
  | .condition, count | .action, count | .data, count => count = 0

theorem NodeKind.Admits.mono {kind : NodeKind} {few many : Nat} (admits : kind.Admits many)
    (le : few ≤ many) : kind.Admits few := by
  cases kind <;> simp only [NodeKind.Admits] at * <;> omega

namespace Graph

/-- A child connection stands for the place of one node among the children of another. -/
def Connects (g : Graph) (a b : String) : Prop :=
  ∃ c ∈ g.connections, c.isChild = true ∧ c.source = a ∧ c.target = b

/-- A forest of which the root's tree is one, with children and connections that agree. -/
structure Valid (g : Graph) : Prop where
  root : ∃ r, g.root? = some r ∧ r.kind = .root
  root_only : ∀ n ∈ g.nodes, n.kind = .root → n.id = Node.rootId
  arity : ∀ n ∈ g.nodes, n.kind.Admits n.children.length
  child_exists : ∀ {a b}, g.IsChild a b → g.contains b = true
  child_ne_root : ∀ {a b}, g.IsChild a b → b ≠ Node.rootId
  children_nodup : ∀ a, (g.children a).Nodup
  one_parent : ∀ {a b c}, g.IsChild a c → g.IsChild b c → a = b
  connected : ∀ {a b}, g.IsChild a b → g.Connects a b
  ends_exist : ∀ c ∈ g.connections, g.contains c.source = true ∧ g.contains c.target = true
  agrees : ∀ c ∈ g.connections, c.isChild = true → g.IsChild c.source c.target
  acyclic : ∀ {a b}, g.IsChild a b → ¬ g.Reaches b a

/-- A valid graph whose nodes and connections are told apart by their ids. -/
structure WellFormed (g : Graph) : Prop extends Valid g where
  distinct : g.Distinct
  connection_ids : (g.connections.map (·.id)).Nodup
  no_loops : ∀ c ∈ g.connections, c.source ≠ c.target

variable {g : Graph}

/-! ## The root -/

theorem length_eraseDups_le_one {l : List String} :
    l.eraseDups.length ≤ 1 ↔ ∀ a ∈ l, ∀ b ∈ l, a = b := by
  cases l with
  | nil => simp
  | cons x rest =>
    rw [List.eraseDups_cons, List.length_cons]
    have none_left : (rest.filter fun b => !b == x).eraseDups.length = 0 ↔ ∀ b ∈ rest, b = x := by
      rw [List.length_eq_zero_iff, List.eq_nil_iff_forall_not_mem]
      simp [List.mem_eraseDups]
    constructor
    · intro short
      have same := none_left.1 (by omega)
      have all : ∀ a ∈ x :: rest, a = x := List.forall_mem_cons.2 ⟨rfl, same⟩
      exact fun a ha b hb => (all a ha).trans (all b hb).symm
    · intro same
      have := none_left.2 fun b hb => same b (List.mem_cons_of_mem _ hb) x List.mem_cons_self
      omega

/-- Of several nodes of the root's kind all have the same id, which is the root's. -/
theorem checkRoot_eq_ok : g.checkRoot = .ok () ↔
    (∃ r, g.root? = some r ∧ r.kind = .root ∧ r.children.length ≤ 1) ∧
      ∀ n ∈ g.nodes, n.kind = .root → n.id = Node.rootId := by
  unfold checkRoot
  cases found : g.root? with
  | none => simp
  | some r =>
    have member := mem_of_node? found
    have named : r.id = Node.rootId := id_of_node? found
    simp only [Checks.guard_eq_ok, Nat.not_lt, length_eraseDups_le_one, Option.some.injEq]
    constructor
    · rintro ⟨kind, same, few, -⟩
      have kind : r.kind = .root := Classical.not_not.1 kind
      refine ⟨⟨r, rfl, kind, few⟩, fun n hn hk => ?_⟩
      rw [← named]
      exact same _ (List.mem_map.2 ⟨n, List.mem_filter.2 ⟨hn, by simpa using hk⟩, rfl⟩)
        _ (List.mem_map.2 ⟨r, List.mem_filter.2 ⟨member, by simpa using kind⟩, rfl⟩)
    · rintro ⟨⟨_, rfl, kind, few⟩, only⟩
      refine ⟨not_not_intro kind, ?_, few, trivial⟩
      have all : ∀ id ∈ (g.nodes.filter fun n => n.kind == .root).map (·.id),
          id = Node.rootId := by
        intro id hid
        obtain ⟨n, hn, rfl⟩ := List.mem_map.1 hid
        obtain ⟨hn, hk⟩ := List.mem_filter.1 hn
        exact only n hn (by simpa using hk)
      exact fun a ha b hb => (all a ha).trans (all b hb).symm

/-! ## Children -/

/-- What is asked of a child apart from having one parent only. -/
structure GoodChild (g : Graph) (parent child : String) : Prop where
  contained : g.contains child = true
  ne_root : child ≠ Node.rootId
  connected : g.Connects parent child

theorem lookup_eq_none_iff {parents : Parents} {child : String} :
    parents.lookup child = none ↔ child ∉ parents.map (·.1) := by
  rw [List.lookup_eq_none_iff]
  simp only [bne_iff_ne, List.mem_map, not_exists, not_and]
  exact ⟨fun h p hp eq => h p hp eq.symm, fun h p hp eq => h p hp eq.symm⟩

theorem any_connects_iff {parent child : String} :
    (g.connections.any fun c => c.isChild && c.source == parent && c.target == child) = true ↔
      g.Connects parent child := by
  simp [Connects, and_assoc]

theorem checkChild_eq_ok {parent child : String} {parents out : Parents} :
    g.checkChild parent parents child = .ok out ↔
      g.GoodChild parent child ∧ child ∉ parents.map (·.1) ∧ out = (child, parent) :: parents := by
  rw [← lookup_eq_none_iff, checkChild, Checks.guard_eq_ok, Checks.guard_eq_ok]
  cases parents.lookup child with
  | some previous => simp
  | none =>
    by_cases connected : g.Connects parent child
    · rw [if_pos (any_connects_iff.2 connected)]
      constructor
      · rintro ⟨contained, ne_root, eq⟩
        exact ⟨⟨by simpa using contained, ne_root, connected⟩, rfl, (Except.ok.inj eq).symm⟩
      · rintro ⟨⟨contained, ne_root, -⟩, -, rfl⟩
        exact ⟨by simp [contained], ne_root, rfl⟩
    · rw [if_neg (mt any_connects_iff.1 connected)]
      constructor
      · rintro ⟨-, -, eq⟩
        cases eq
      · rintro ⟨good, -⟩
        exact absurd good.connected connected

/-- The children of one node are added to the parents found so far; no child is found twice. -/
theorem foldlM_checkChild_eq_ok {parent : String} {children : List String} {parents out : Parents}
    (nodup : (parents.map (·.1)).Nodup) :
    children.foldlM (g.checkChild parent) parents = .ok out ↔
      (∀ child ∈ children, g.GoodChild parent child) ∧
        out = (children.map (·, parent)).reverse ++ parents ∧ (out.map (·.1)).Nodup := by
  induction children generalizing parents with
  | nil =>
    constructor
    · rintro ⟨⟩
      exact ⟨by simp, rfl, nodup⟩
    · rintro ⟨-, rfl, -⟩
      rfl
  | cons child rest ih =>
    rw [Checks.foldlM_cons_eq_ok]
    have assemble : (((child :: rest).map (·, parent)).reverse ++ parents) =
        (rest.map (·, parent)).reverse ++ (child, parent) :: parents := by simp
    rw [assemble, List.forall_mem_cons]
    constructor
    · rintro ⟨found, step, steps⟩
      obtain ⟨good, new, rfl⟩ := checkChild_eq_ok.1 step
      have nodup : (((child, parent) :: parents).map (·.1)).Nodup := List.nodup_cons.2 ⟨new, nodup⟩
      obtain ⟨goods, eq, distinct⟩ := (ih nodup).1 steps
      exact ⟨⟨good, goods⟩, eq, distinct⟩
    · rintro ⟨⟨good, goods⟩, eq, distinct⟩
      have inner : (((child, parent) :: parents).map (·.1)).Nodup := by
        rw [eq, List.map_append] at distinct
        exact (List.nodup_append.1 distinct).2.1
      exact ⟨_, checkChild_eq_ok.2 ⟨good, (List.nodup_cons.1 inner).1, rfl⟩,
        (ih inner).2 ⟨goods, eq, distinct⟩⟩

/-- What a node's kind says about its children, apart from the root's one child. -/
def GoodArity (n : Node) : Prop :=
  (n.children ≠ [] → n.kind.acceptsChildren = true) ∧
    (n.kind = .decorator → n.children.length ≤ 1)

/-- Children with their parents, in the order of the nodes. -/
def links (nodes : List Node) : Parents :=
  nodes.flatMap fun n => n.children.map (·, n.id)

theorem map_fst_links (nodes : List Node) :
    (links nodes).map (·.1) = nodes.flatMap fun n => n.children := by
  simp [links, List.map_flatMap, Function.comp_def]

theorem checkChildren_eq_ok {n : Node} {parents out : Parents} (nodup : (parents.map (·.1)).Nodup) :
    g.checkChildren parents n = .ok out ↔
      GoodArity n ∧ (∀ child ∈ n.children, g.GoodChild n.id child) ∧
        out = (n.children.map (·, n.id)).reverse ++ parents ∧ (out.map (·.1)).Nodup := by
  rw [checkChildren, Checks.guard_eq_ok, Checks.guard_eq_ok, foldlM_checkChild_eq_ok nodup]
  have first : ¬ (!n.children.isEmpty && !n.kind.acceptsChildren) = true ↔
      (n.children ≠ [] → n.kind.acceptsChildren = true) := by
    cases n.children <;> cases n.kind.acceptsChildren <;> simp
  have second : ¬ (n.kind = .decorator ∧ 1 < n.children.length) ↔
      (n.kind = .decorator → n.children.length ≤ 1) := by
    rw [not_and, Nat.not_lt]
  rw [first, second, GoodArity, and_assoc]

theorem foldlM_checkChildren_eq_ok {nodes : List Node} {parents out : Parents}
    (nodup : (parents.map (·.1)).Nodup) :
    nodes.foldlM g.checkChildren parents = .ok out ↔
      (∀ n ∈ nodes, GoodArity n ∧ ∀ child ∈ n.children, g.GoodChild n.id child) ∧
        out = (links nodes).reverse ++ parents ∧ (out.map (·.1)).Nodup := by
  induction nodes generalizing parents with
  | nil =>
    constructor
    · rintro ⟨⟩
      exact ⟨by simp, rfl, nodup⟩
    · rintro ⟨-, rfl, -⟩
      rfl
  | cons n rest ih =>
    rw [Checks.foldlM_cons_eq_ok]
    have assemble : (links (n :: rest)).reverse ++ parents =
        (links rest).reverse ++ ((n.children.map (·, n.id)).reverse ++ parents) := by
      simp [links]
    rw [assemble, List.forall_mem_cons]
    constructor
    · rintro ⟨found, step, steps⟩
      obtain ⟨arity, goods, rfl, nodup⟩ := (checkChildren_eq_ok nodup).1 step
      obtain ⟨others, eq, distinct⟩ := (ih nodup).1 steps
      exact ⟨⟨⟨arity, goods⟩, others⟩, eq, distinct⟩
    · rintro ⟨⟨⟨arity, goods⟩, others⟩, eq, distinct⟩
      have inner : (((n.children.map (·, n.id)).reverse ++ parents).map (·.1)).Nodup := by
        rw [eq, List.map_append] at distinct
        exact (List.nodup_append.1 distinct).2.1
      exact ⟨_, (checkChildren_eq_ok nodup).2 ⟨arity, goods, rfl, inner⟩,
        (ih inner).2 ⟨others, eq, distinct⟩⟩

/-- The check of all children goes through if each is a good child and none is listed twice. -/
theorem exists_foldlM_checkChildren : (∃ out, g.nodes.foldlM g.checkChildren [] = .ok out) ↔
    (∀ n ∈ g.nodes, GoodArity n ∧ ∀ child ∈ n.children, g.GoodChild n.id child) ∧
      (g.nodes.flatMap fun n => n.children).Nodup := by
  have nodup : (([] : Parents).map (·.1)).Nodup := List.nodup_nil
  simp only [foldlM_checkChildren_eq_ok nodup, List.append_nil, exists_and_left, exists_eq_left,
    List.map_reverse, map_fst_links, List.nodup_reverse]

/-- With distinct ids, no child is listed twice if each node lists its own children once and no two
nodes share one. -/
theorem Distinct.nodup_children_iff (distinct : g.Distinct) :
    (g.nodes.flatMap fun n => n.children).Nodup ↔
      (∀ a, (g.children a).Nodup) ∧ ∀ a b c, g.IsChild a c → g.IsChild b c → a = b := by
  have ids : g.nodes.Pairwise fun m n => m.id ≠ n.id := List.pairwise_map.1 distinct
  rw [List.nodup_flatMap]
  constructor
  · rintro ⟨own, apart⟩
    refine ⟨fun a => ?_, fun a b c first second => ?_⟩
    · cases found : g.node? a with
      | none => simp [children, found]
      | some n => exact children_of_node? found ▸ own n (mem_of_node? found)
    · obtain ⟨m, foundm, listedm⟩ := isChild_iff.1 first
      obtain ⟨n, foundn, listedn⟩ := isChild_iff.1 second
      by_contra ne
      have different : m ≠ n := by
        rintro rfl
        exact ne ((id_of_node? foundm).symm.trans (id_of_node? foundn))
      have symmetric : Std.Symm (Function.onFun List.Disjoint fun n : Node => n.children) :=
        ⟨fun _ _ h _ first second => h second first⟩
      exact apart.forall (mem_of_node? foundm) (mem_of_node? foundn) different listedm listedn
  · rintro ⟨own, one⟩
    refine ⟨fun n member => distinct.children_of_mem member ▸ own n.id, ?_⟩
    apply ids.imp_of_mem
    intro m n hm hn ne c listedm listedn
    refine ne (one m.id n.id c ?_ ?_)
    · rw [IsChild, distinct.children_of_mem hm]; exact listedm
    · rw [IsChild, distinct.children_of_mem hn]; exact listedn

/-! ## Connections and cycles -/

theorem checkEnds_eq_ok {c : Connection} : g.checkEnds c = .ok () ↔
    (g.contains c.source = true ∧ g.contains c.target = true) ∧
      (c.isChild = true → g.IsChild c.source c.target) := by
  rw [checkEnds, Checks.guard_eq_ok, Checks.guard_eq_ok, Checks.guard_eq_ok]
  simp [IsChild, and_assoc]

theorem checkAcyclic_eq_ok {n : Node} : g.checkAcyclic n = .ok () ↔
    ∀ child ∈ n.children, ¬ g.Reaches child n.id := by
  rw [checkAcyclic, Checks.forM_eq_ok]
  simp only [Checks.guard_eq_ok, isReachable_iff, and_true]

/-! ## Validity -/

theorem goodArity_of_admits {n : Node} (admits : n.kind.Admits n.children.length) :
    GoodArity n := by
  unfold GoodArity
  cases kind : n.kind <;> simp_all [NodeKind.Admits, NodeKind.acceptsChildren]

theorem admits_of_goodArity {n : Node} (arity : GoodArity n)
    (few : n.kind = .root → n.children.length ≤ 1) : n.kind.Admits n.children.length := by
  unfold GoodArity at arity
  cases kind : n.kind <;> simp_all [NodeKind.Admits, NodeKind.acceptsChildren]

/-- The chain of checks that is validation, taken apart. -/
theorem validate_eq_ok_steps : g.validate = .ok () ↔
    g.checkRoot = .ok () ∧ (∃ out, g.nodes.foldlM g.checkChildren [] = .ok out) ∧
      (∀ c ∈ g.connections, g.checkEnds c = .ok ()) ∧ ∀ n ∈ g.nodes, g.checkAcyclic n = .ok () := by
  simp only [validate, Checks.bind_eq_ok, ← Checks.forM_eq_ok]
  constructor
  · rintro ⟨_, root, out, children, _, ends, acyclic⟩
    exact ⟨root, ⟨out, children⟩, ends, acyclic⟩
  · rintro ⟨root, ⟨out, children⟩, ends, acyclic⟩
    exact ⟨_, root, out, children, _, ends, acyclic⟩

/-- Validation accepts exactly the valid graphs among those with distinct node ids. -/
theorem validate_eq_ok (distinct : g.Distinct) : g.validate = .ok () ↔ g.Valid := by
  rw [validate_eq_ok_steps, checkRoot_eq_ok, exists_foldlM_checkChildren,
    distinct.nodup_children_iff]
  simp only [checkEnds_eq_ok, checkAcyclic_eq_ok]
  constructor
  · rintro ⟨⟨⟨r, found, kind, few⟩, only⟩, ⟨nodes, own, one⟩, ends, acyclic⟩
    have good : ∀ {a b}, g.IsChild a b → g.GoodChild a b := by
      intro a b child
      obtain ⟨n, foundn, listed⟩ := isChild_iff.1 child
      exact id_of_node? foundn ▸ (nodes n (mem_of_node? foundn)).2 b listed
    refine
      { root := ⟨r, found, kind⟩
        root_only := only
        arity := fun n member => admits_of_goodArity (nodes n member).1 fun isRoot => ?_
        child_exists := fun child => (good child).contained
        child_ne_root := fun child => (good child).ne_root
        children_nodup := own
        one_parent := fun {a b c} => one a b c
        connected := fun child => (good child).connected
        ends_exist := fun c member => (ends c member).1
        agrees := fun c member => (ends c member).2
        acyclic := fun {a b} child => ?_ }
    · have same : n = r := Option.some.inj
        ((distinct.node?_of_mem member).symm.trans (only n member isRoot ▸ found))
      exact same ▸ few
    · obtain ⟨n, foundn, listed⟩ := isChild_iff.1 child
      exact id_of_node? foundn ▸ acyclic n (mem_of_node? foundn) b listed
  · intro valid
    obtain ⟨r, found, kind⟩ := valid.root
    have child_of_listed : ∀ n ∈ g.nodes, ∀ child ∈ n.children, g.IsChild n.id child := by
      intro n member child listed
      rw [IsChild, distinct.children_of_mem member]
      exact listed
    have few : r.children.length ≤ 1 := by
      have := valid.arity r (mem_of_node? found)
      rwa [kind] at this
    refine ⟨⟨⟨r, found, kind, few⟩, valid.root_only⟩, ⟨fun n member => ⟨?_, ?_⟩,
      valid.children_nodup, fun a b c => valid.one_parent⟩, fun c member => ?_, ?_⟩
    · exact goodArity_of_admits (valid.arity n member)
    · intro child listed
      have child := child_of_listed n member child listed
      exact ⟨valid.child_exists child, valid.child_ne_root child, valid.connected child⟩
    · exact ⟨valid.ends_exist c member, valid.agrees c member⟩
    · exact fun n member child listed => valid.acyclic (child_of_listed n member child listed)

/-! ## Stored parts -/

theorem foldlM_addStored_eq_ok {nodes before out : List Node}
    (nodup : (before.map (·.id)).Nodup) :
    nodes.foldlM addStored before = .ok out ↔
      out = before ++ nodes ∧ ((before ++ nodes).map (·.id)).Nodup := by
  induction nodes generalizing before with
  | nil =>
    rw [List.append_nil]
    constructor
    · rintro ⟨⟩
      exact ⟨rfl, nodup⟩
    · rintro ⟨rfl, -⟩
      rfl
  | cons n rest ih =>
    rw [Checks.foldlM_cons_eq_ok, List.append_cons]
    have step {d : List Node} : addStored before n = .ok d ↔
        n.id ∉ before.map (·.id) ∧ d = before ++ [n] := by
      have absent : ¬ (before.any fun m => m.id == n.id) = true ↔ n.id ∉ before.map (·.id) := by
        simp
      rw [addStored, Checks.guard_eq_ok, absent, Except.ok.injEq, eq_comm (a := before ++ [n])]
    have snoc : ((before ++ [n]).map (·.id)).Nodup ↔ n.id ∉ before.map (·.id) := by
      rw [List.map_append, List.nodup_append_comm]
      exact List.nodup_cons.trans (and_iff_left nodup)
    simp only [step]
    constructor
    · rintro ⟨d, ⟨new, rfl⟩, steps⟩
      exact (ih (snoc.2 new)).1 steps
    · rintro ⟨rfl, distinct⟩
      have inner : ((before ++ [n]).map (·.id)).Nodup := by
        rw [List.map_append] at distinct
        exact (List.nodup_append.1 distinct).1
      exact ⟨_, ⟨snoc.1 inner, rfl⟩, (ih inner).2 ⟨rfl, distinct⟩⟩

theorem addStoredConnection_eq_ok {seen out : List String} {c : Connection} :
    addStoredConnection seen c = .ok out ↔
      c.source ≠ c.target ∧ c.id ∉ seen ∧ out = c.id :: seen := by
  rw [addStoredConnection, Checks.guard_eq_ok, Checks.guard_eq_ok]
  simp [eq_comm]

theorem foldlM_addStoredConnection_eq_ok {connections : List Connection} {seen out : List String}
    (nodup : seen.Nodup) :
    connections.foldlM addStoredConnection seen = .ok out ↔
      (∀ c ∈ connections, c.source ≠ c.target) ∧
        out = (connections.map (·.id)).reverse ++ seen ∧ out.Nodup := by
  induction connections generalizing seen with
  | nil =>
    constructor
    · rintro ⟨⟩
      exact ⟨by simp, rfl, nodup⟩
    · rintro ⟨-, rfl, -⟩
      rfl
  | cons c rest ih =>
    rw [Checks.foldlM_cons_eq_ok]
    have assemble : ((c :: rest).map (·.id)).reverse ++ seen =
        (rest.map (·.id)).reverse ++ c.id :: seen := by simp
    rw [assemble, List.forall_mem_cons]
    simp only [addStoredConnection_eq_ok]
    constructor
    · rintro ⟨d, ⟨ends, new, rfl⟩, steps⟩
      obtain ⟨others, eq, distinct⟩ := (ih (List.nodup_cons.2 ⟨new, nodup⟩)).1 steps
      exact ⟨⟨ends, others⟩, eq, distinct⟩
    · rintro ⟨⟨ends, others⟩, eq, distinct⟩
      have inner : (c.id :: seen).Nodup := by
        rw [eq] at distinct
        exact (List.nodup_append.1 distinct).2.1
      exact ⟨_, ⟨ends, (List.nodup_cons.1 inner).1, rfl⟩, (ih inner).2 ⟨others, eq, distinct⟩⟩

/-- Stored parts are accepted exactly if the graph that lists them is well formed. -/
theorem ofParts_eq_ok {nodes : List Node} {connections : List Connection} :
    ofParts nodes connections = .ok g ↔
      g = { nodes := nodes, connections := connections } ∧ g.WellFormed := by
  have empty : (([] : List Node).map (·.id)).Nodup := List.nodup_nil
  simp only [ofParts, Checks.bind_eq_ok, foldlM_addStored_eq_ok empty,
    foldlM_addStoredConnection_eq_ok List.nodup_nil, List.nil_append, List.append_nil]
  constructor
  · rintro ⟨_, ⟨rfl, distinct⟩, _, ⟨ends, rfl, ids⟩, _, valid, eq⟩
    obtain rfl := Except.ok.inj eq
    refine ⟨rfl, (validate_eq_ok ?_).1 valid, distinct, List.nodup_reverse.1 ids, ends⟩
    exact distinct
  · rintro ⟨rfl, wf⟩
    exact ⟨_, ⟨rfl, wf.distinct⟩, _, ⟨wf.no_loops, rfl, List.nodup_reverse.2 wf.connection_ids⟩,
      (), (validate_eq_ok wf.distinct).2 wf.toValid, rfl⟩

theorem not_isChild_new {template : NodeTemplate} (a b : String) :
    ¬ (Graph.new template).IsChild a b := by
  intro child
  obtain ⟨n, found, listed⟩ := isChild_iff.1 child
  obtain rfl := List.mem_singleton.1 (mem_of_node? found)
  cases listed

/-- The graph of a root alone is well formed. -/
theorem wellFormed_new {template : NodeTemplate} (kind : template.kind = .root) :
    (Graph.new template).WellFormed := by
  have childless (a b : String) : ¬ (Graph.new template).IsChild a b := not_isChild_new a b
  have only {n : Node} (member : n ∈ (Graph.new template).nodes) :
      n = .ofTemplate Node.rootId template {} .empty := List.mem_singleton.1 member
  exact
    { root := ⟨_, rfl, kind⟩
      root_only := fun n member _ => only member ▸ rfl
      arity := by
        intro n member
        obtain rfl := only member
        simp [Node.kind, Node.ofTemplate, kind, NodeKind.Admits]
      child_exists := fun child => absurd child (childless _ _)
      child_ne_root := fun child => absurd child (childless _ _)
      children_nodup := fun a =>
        List.eq_nil_iff_forall_not_mem.2 (childless a) ▸ List.nodup_nil
      one_parent := fun child => absurd child (childless _ _)
      connected := fun child => absurd child (childless _ _)
      ends_exist := by simp [Graph.new]
      agrees := by simp [Graph.new]
      acyclic := fun child => absurd child (childless _ _)
      distinct := List.nodup_singleton _
      connection_ids := List.nodup_nil
      no_loops := by simp [Graph.new] }

end Graph

end BehaviorTree
