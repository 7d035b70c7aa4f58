import BehaviorTree.Proofs.History.Timeline
import Mathlib.Data.List.Sort
import Mathlib.Data.Prod.Lex

/-!
# The order of siblings

Children are sorted whenever a child connection is made or removed. The comparison by which they
are sorted is one of keys (`siblingLe_iff`) that different nodes do not share, so the nodes of a
graph are strictly and totally ordered (`Before`), and the children that an edit leaves are in that
order whatever order they were in before. A list in that order is determined by its members, hence
the order in which children are connected does not matter (`siblings_are_ordered`).
-/

namespace BehaviorTree

/-! ## The total order of numbers -/

namespace Number

/-- The total order of all patterns: by sign, and by magnitude upwards or, below zero, downwards. -/
def TotalLess (x y : Number) : Prop :=
  match x.isNegative, y.isNegative with
  | true, false => True
  | false, true => False
  | false, false => x.magnitude < y.magnitude
  | true, true => y.magnitude < x.magnitude

variable {x y : Number}

theorem totalKey_lt_iff : x.totalKey < y.totalKey ↔ x.TotalLess y := by
  unfold totalKey TotalLess
  cases x.isNegative <;> cases y.isNegative
  case false.false => exact Int.ofNat_lt
  case false.true =>
    simp only [if_true, Bool.false_eq_true, if_false, iff_false]
    omega
  case true.false =>
    simp only [if_true, Bool.false_eq_true, if_false, iff_true]
    omega
  case true.true =>
    simp only [if_true]
    omega

/-- The total order agrees with the order of values, where there is one. -/
theorem TotalLess.of_less (less : x.less y = true) : x.TotalLess y := by
  have keys : x.orderKey < y.orderKey := by
    simp only [Number.less, Bool.and_eq_true, decide_eq_true_eq] at less
    exact less.2
  rw [← totalKey_lt_iff]
  unfold orderKey at keys
  unfold totalKey
  cases sx : x.isNegative <;> cases sy : y.isNegative <;>
    simp only [sx, sy, if_true, Bool.false_eq_true, if_false] at keys ⊢ <;> omega

/-- Numbers that the total order does not tell apart have the same bits. -/
theorem totalKey_injective : Function.Injective totalKey := by
  intro x y same
  have parts (z : Number) :
      z.bits.toNat = (if z.isNegative then signBit else 0) + z.magnitude := by
    have bound := z.bits.toNat_lt
    unfold isNegative magnitude signBit
    split <;> simp_all <;> omega
  have bits : x.bits.toNat = y.bits.toNat := by
    rw [parts x, parts y]
    unfold totalKey at same
    cases sx : x.isNegative <;> cases sy : y.isNegative <;>
      simp only [sx, sy, if_true, Bool.false_eq_true, if_false] at same ⊢ <;> omega
  obtain ⟨x⟩ := x
  obtain ⟨y⟩ := y
  exact congrArg mk (UInt64.toNat_inj.1 bits)

end Number

namespace Graph

variable {g after : Graph} {a b parent : String} {i j : Nat} {m n : Node} {listed : List String}
  {c : Connection} {change : ConnectionChange} {cs : List Connection}

/-! ## The order of nodes -/

/-- One node goes before another: by x, then by y, then by the order in which they were added. -/
def Before (g : Graph) (a b : String) : Prop :=
  ∃ (i j : Nat) (m n : Node), g.nodes[i]? = some m ∧ g.nodes[j]? = some n ∧ m.id = a ∧ n.id = b ∧
    (m.position.x.TotalLess n.position.x ∨ m.position.x = n.position.x ∧
      (m.position.y.TotalLess n.position.y ∨ m.position.y = n.position.y ∧ i < j))

/-- What siblings are compared by. -/
def siblingKey (g : Graph) (id : String) : Int ×ₗ Int ×ₗ Nat :=
  let position := ((g.node? id).map (·.position)).getD {}
  toLex (position.x.totalKey, toLex (position.y.totalKey, g.rank id))

theorem siblingLe_iff : g.siblingLe a b = true ↔ g.siblingKey a ≤ g.siblingKey b := by
  simp [siblingLe, siblingKey, Prod.Lex.toLex_le_toLex]

theorem foldl_rank_of_absent {nodes : List Node} {id : String} (absent : ∀ n ∈ nodes, n.id ≠ id)
    (start found : Nat) :
    (nodes.zipIdx start).foldl (fun found p => if p.1.id = id then p.2 + 1 else found) found =
      found := by
  induction nodes generalizing start with
  | nil => rfl
  | cons n rest ih =>
    obtain ⟨other, absent⟩ := List.forall_mem_cons.1 absent
    simp only [List.zipIdx_cons, List.foldl_cons, if_neg other, ih absent]

theorem Distinct.rank_eq (distinct : g.Distinct) (here : g.nodes[i]? = some n) :
    g.rank n.id = i + 1 := by
  obtain ⟨bound, rfl⟩ := List.getElem?_eq_some_iff.1 here
  have split : g.nodes = g.nodes.take i ++ g.nodes[i] :: g.nodes.drop (i + 1) := by simp
  have later : ∀ m ∈ g.nodes.drop (i + 1), m.id ≠ g.nodes[i].id := by
    rw [Distinct, split, List.map_append, List.map_cons, List.nodup_append, List.nodup_cons]
      at distinct
    exact fun m member same => distinct.2.1.1 (List.mem_map.2 ⟨m, member, same⟩)
  generalize g.nodes[i] = n at split later ⊢
  have length : (g.nodes.take i).length = i := List.length_take_of_le bound.le
  rw [rank, split, List.zipIdx_append, List.foldl_append, List.zipIdx_cons, List.foldl_cons,
    if_pos rfl, foldl_rank_of_absent later, length, Nat.zero_add]

theorem Distinct.siblingKey_eq (distinct : g.Distinct) (here : g.nodes[i]? = some n) :
    g.siblingKey n.id =
      toLex (n.position.x.totalKey, toLex (n.position.y.totalKey, i + 1)) := by
  rw [siblingKey, distinct.rank_eq here, distinct.node?_of_mem (List.mem_of_getElem? here)]
  rfl

theorem exists_getElem?_of_contains (present : g.contains a = true) :
    ∃ (i : Nat) (n : Node), g.nodes[i]? = some n ∧ n.id = a := by
  obtain ⟨n, member, id⟩ := contains_iff.1 present
  obtain ⟨i, here⟩ := List.mem_iff_getElem?.1 member
  exact ⟨i, n, here, id⟩

/-- Nodes go in the order of their keys. -/
theorem Distinct.before_iff (distinct : g.Distinct) : g.Before a b ↔
    g.contains a = true ∧ g.contains b = true ∧ g.siblingKey a < g.siblingKey b := by
  have keys {i j : Nat} {m n : Node} (first : g.nodes[i]? = some m)
      (second : g.nodes[j]? = some n) :
      g.siblingKey m.id < g.siblingKey n.id ↔
        m.position.x.TotalLess n.position.x ∨ m.position.x = n.position.x ∧
          (m.position.y.TotalLess n.position.y ∨ m.position.y = n.position.y ∧ i < j) := by
    rw [distinct.siblingKey_eq first, distinct.siblingKey_eq second]
    simp only [Prod.Lex.toLex_lt_toLex, Number.totalKey_lt_iff, Number.totalKey_injective.eq_iff,
      Nat.add_lt_add_iff_right]
  constructor
  · rintro ⟨i, j, m, n, first, second, rfl, rfl, less⟩
    exact ⟨contains_iff.2 ⟨m, List.mem_of_getElem? first, rfl⟩,
      contains_iff.2 ⟨n, List.mem_of_getElem? second, rfl⟩, (keys first second).2 less⟩
  · rintro ⟨present, present', less⟩
    obtain ⟨i, m, first, rfl⟩ := exists_getElem?_of_contains present
    obtain ⟨j, n, second, rfl⟩ := exists_getElem?_of_contains present'
    exact ⟨i, j, m, n, first, second, rfl, rfl, (keys first second).1 less⟩

/-- Different nodes have different keys, by their places. -/
theorem Distinct.siblingKey_inj (distinct : g.Distinct) (present : g.contains a = true)
    (present' : g.contains b = true) (same : g.siblingKey a = g.siblingKey b) : a = b := by
  obtain ⟨i, m, first, rfl⟩ := exists_getElem?_of_contains present
  obtain ⟨j, n, second, rfl⟩ := exists_getElem?_of_contains present'
  rw [distinct.siblingKey_eq first, distinct.siblingKey_eq second] at same
  have place : i + 1 = j + 1 := congrArg (fun key => (ofLex (ofLex key).2).2) same
  obtain rfl := Nat.succ_inj.1 place
  exact congrArg Node.id (Option.some.inj (first.symm.trans second))

/-! ## Lists of siblings -/

/-- Sorting different nodes puts them into their order. -/
theorem Distinct.pairwise_mergeSort (distinct : g.Distinct) (nodup : listed.Nodup)
    (exist : ∀ a ∈ listed, g.contains a = true) :
    (listed.mergeSort g.siblingLe).Pairwise g.Before := by
  have sorted : (listed.mergeSort g.siblingLe).Pairwise fun a b => g.siblingLe a b = true := by
    apply List.pairwise_mergeSort
    · intro a b c first second
      rw [siblingLe_iff] at first second ⊢
      exact first.trans second
    · intro a b
      rw [Bool.or_eq_true, siblingLe_iff, siblingLe_iff]
      exact le_total _ _
  have different : (listed.mergeSort g.siblingLe).Nodup :=
    (List.mergeSort_perm listed g.siblingLe).nodup_iff.2 nodup
  refine (sorted.and different).imp_of_mem fun {a b} first second both => ?_
  have present := exist a (List.mem_mergeSort.1 first)
  have present' := exist b (List.mem_mergeSort.1 second)
  refine distinct.before_iff.2 ⟨present, present', lt_of_le_of_ne (siblingLe_iff.1 both.1) ?_⟩
  exact fun same => both.2 (distinct.siblingKey_inj present present' same)

/-- Nodes in their order are determined by which they are. -/
theorem Distinct.eq_of_pairwise_before (distinct : g.Distinct) {others : List String}
    (sorted : listed.Pairwise g.Before) (sorted' : others.Pairwise g.Before)
    (same : listed.Perm others) : listed = others := by
  refine List.Perm.eq_of_pairwise (fun a b _ _ first second => ?_) sorted sorted' same
  have less := (distinct.before_iff.1 first).2.2
  exact absurd less (distinct.before_iff.1 second).2.2.asymm

/-- Where a node stands among others does not depend on children or connections. -/
theorem before_relink {links : List Connection} :
    (g.relink parent listed links).Before a b ↔ g.Before a b := by
  have nodes (i : Nat) : (g.relink parent listed links).nodes[i]? = (g.nodes[i]?).map fun n =>
      if n.id = parent then { n with children := listed } else n := List.getElem?_map
  have same (n : Node) : (if n.id = parent then { n with children := listed } else n).id = n.id ∧
      (if n.id = parent then { n with children := listed } else n).position = n.position := by
    split <;> exact ⟨rfl, rfl⟩
  simp only [Before, nodes, Option.map_eq_some_iff]
  constructor
  · rintro ⟨i, j, _, _, ⟨m, first, rfl⟩, ⟨n, second, rfl⟩, rfl, rfl, less⟩
    simp only [same] at less ⊢
    exact ⟨i, j, m, n, first, second, rfl, rfl, less⟩
  · rintro ⟨i, j, m, n, first, second, rfl, rfl, less⟩
    refine ⟨i, j, _, _, ⟨m, first, rfl⟩, ⟨n, second, rfl⟩, (same m).1, (same n).1, ?_⟩
    simpa only [same] using less

/-! ## Edits -/

/-- The children of one node are in their order after an edit, and those of other nodes are as they
were. Nodes have not moved. -/
structure Sorts (g : Graph) (parent : String) (after : Graph) : Prop where
  sorted : (after.children parent).Pairwise after.Before
  others : ∀ a ≠ parent, after.children a = g.children a
  unmoved : ∀ {a b}, after.Before a b ↔ g.Before a b

theorem Distinct.sorts_relink (distinct : g.Distinct) (present : g.contains parent = true)
    (nodup : listed.Nodup) (exist : ∀ a ∈ listed, g.contains a = true) (links : List Connection) :
    g.Sorts parent (g.relink parent (listed.mergeSort g.siblingLe) links) where
  sorted := by
    rw [children_relink_self present]
    exact (distinct.pairwise_mergeSort nodup exist).imp before_relink.2
  others a ne := children_relink_of_ne ne
  unmoved := before_relink

/-- A child that is connected joins the others. -/
theorem WellFormed.connect_sorts (wf : g.WellFormed) (child : c.isChild = true)
    (done : g.connect c = .ok (after, change)) :
    (after.children c.source).Perm (c.target :: g.children c.source) ∧ g.Sorts c.source after := by
  have distinct := (wf.connect done).children_nodup c.source
  obtain ⟨checked, rfl, -⟩ := (connect_child child).1 done
  obtain ⟨s, t, source, target, -, -⟩ := checkConnection_ends checked
  have present := contains_of_node? source
  have perm : (g.childrenWith c).Perm (g.children c.source ++ [c.target]) := List.mergeSort_perm ..
  rw [children_relink_self present] at distinct ⊢
  refine ⟨perm.trans (List.perm_append_singleton ..), ?_⟩
  refine wf.distinct.sorts_relink present (perm.nodup_iff.1 distinct) (fun a member => ?_) _
  rcases List.mem_append.1 member with former | new
  · exact wf.child_exists former
  · exact List.mem_singleton.1 new ▸ contains_of_node? target

/-- A child that is disconnected leaves the others. -/
theorem WellFormed.disconnect_sorts (wf : g.WellFormed) {id : String}
    (done : g.disconnect id = .ok (after, change)) (child : change.connection.isChild = true) :
    (change.connection.target :: after.children change.connection.source).Perm
        (g.children change.connection.source) ∧
      g.Sorts change.connection.source after := by
  obtain ⟨c, index, here, -, eq⟩ := disconnect_eq_ok done
  have removed : change.connection = c :=
    (congrArg (fun out => out.2.connection) eq).trans (connection_disconnectAt index)
  rw [removed] at child ⊢
  have member := List.mem_of_getElem? here
  have present := (wf.ends_exist c member).1
  have listed : c.target ∈ g.children c.source := wf.agrees c member child
  rw [disconnectAt_child child present] at eq
  obtain ⟨rfl, -⟩ := Prod.mk.inj eq
  have nodup := wf.children_nodup c.source
  have rest : (g.children c.source).filter (fun child => child != c.target) =
      (g.children c.source).erase c.target := (nodup.erase_eq_filter c.target).symm
  have perm : (g.childrenWithout c).Perm ((g.children c.source).erase c.target) := by
    rw [← rest]
    exact List.mergeSort_perm ..
  constructor
  · rw [children_relink_self present]
    exact (perm.cons c.target).trans (List.perm_cons_erase listed).symm
  · exact wf.distinct.sorts_relink present (nodup.filter _)
      (fun a kept => wf.child_exists (List.mem_filter.1 kept).1) _

/-- Makes connections one after the other. -/
def connectAll (g : Graph) (cs : List Connection) : Except GraphError Graph :=
  cs.foldlM (fun g c => (g.connect c).map (·.1)) g

/-- Children that are connected one after the other join the others, in the order of siblings. -/
theorem WellFormed.connectAll_sorts (wf : g.WellFormed)
    (children : ∀ c ∈ cs, c.isChild = true ∧ c.source = parent)
    (done : g.connectAll cs = .ok after) : after.WellFormed ∧
      (after.children parent).Perm (cs.map (·.target) ++ g.children parent) ∧
      (cs = [] ∧ after = g ∨ g.Sorts parent after) := by
  induction cs generalizing g with
  | nil =>
    obtain rfl := Except.ok.inj done
    exact ⟨wf, .refl _, .inl ⟨rfl, rfl⟩⟩
  | cons c rest ih =>
    obtain ⟨⟨child, rfl⟩, others⟩ := List.forall_mem_cons.1 children
    obtain ⟨next, step, steps⟩ := Checks.foldlM_cons_eq_ok.1 done
    obtain ⟨⟨_, change⟩, made, rfl⟩ := Checks.map_eq_ok.1 step
    obtain ⟨perm, sorts⟩ := wf.connect_sorts child made
    obtain ⟨wf', perm', last⟩ := ih (wf.connect made) others steps
    refine ⟨wf', perm'.trans ?_, .inr ?_⟩
    · exact (perm.append_left _).trans List.perm_middle
    · rcases last with ⟨-, rfl⟩ | last
      · exact sorts
      · exact
          { sorted := last.sorted
            others := fun a ne => (last.others a ne).trans (sorts.others a ne)
            unmoved := last.unmoved.trans sorts.unmoved }

/-- The same children, connected in whichever order, come to stand in the same one. -/
theorem WellFormed.connectAll_comm (wf : g.WellFormed) {ds : List Connection} {after' : Graph}
    (children : ∀ c ∈ cs, c.isChild = true ∧ c.source = parent)
    (children' : ∀ d ∈ ds, d.isChild = true ∧ d.source = parent)
    (same : ∀ child, child ∈ cs.map (·.target) ↔ child ∈ ds.map (·.target))
    (done : g.connectAll cs = .ok after) (done' : g.connectAll ds = .ok after') (a : String) :
    after.children a = after'.children a := by
  obtain ⟨wf₁, perm₁, sorts₁⟩ := wf.connectAll_sorts children done
  obtain ⟨wf₂, perm₂, sorts₂⟩ := wf.connectAll_sorts children' done'
  have perm : (after.children parent).Perm (after'.children parent) := by
    rw [List.perm_ext_iff_of_nodup (wf₁.children_nodup parent) (wf₂.children_nodup parent)]
    intro child
    rw [perm₁.mem_iff, perm₂.mem_iff, List.mem_append, List.mem_append, same]
  have both : cs = [] ↔ ds = [] := by
    rw [← List.map_eq_nil_iff (f := Connection.target), List.eq_nil_iff_forall_not_mem,
      ← List.map_eq_nil_iff (f := Connection.target) (l := ds), List.eq_nil_iff_forall_not_mem]
    simp only [same]
  by_cases empty : cs = []
  · -- Where nothing is connected, the former children stay, in order or not.
    obtain rfl := both.1 empty
    obtain rfl := empty
    rw [← Except.ok.inj done, ← Except.ok.inj done']
  · have sorts₁ := sorts₁.resolve_left fun none => empty none.1
    have sorts₂ := sorts₂.resolve_left fun none => empty (both.2 none.1)
    by_cases here : a = parent
    · rw [here]
      exact wf.distinct.eq_of_pairwise_before (sorts₁.sorted.imp sorts₁.unmoved.1)
        (sorts₂.sorted.imp sorts₂.unmoved.1) perm
    · rw [sorts₁.others a here, sorts₂.others a here]

/-- Whatever order the children of a node are in, connecting or disconnecting one of them leaves the
former ones with it or without it, in the order of siblings, and leaves the children of other nodes
alone. So it makes no difference in which order children are connected. Moving nodes changes no
children. -/
theorem siblings_are_ordered (reached : g.Reached) :
    (∀ c after change, c.isChild = true → g.connect c = .ok (after, change) →
      (after.children c.source).Perm (c.target :: g.children c.source) ∧
        g.Sorts c.source after) ∧
    (∀ id after change, g.disconnect id = .ok (after, change) →
      change.connection.isChild = true →
      (change.connection.target :: after.children change.connection.source).Perm
          (g.children change.connection.source) ∧
        g.Sorts change.connection.source after) ∧
    (∀ parent cs ds after after',
      (∀ c ∈ cs, c.isChild = true ∧ c.source = parent) →
      (∀ d ∈ ds, d.isChild = true ∧ d.source = parent) →
      (∀ child, child ∈ cs.map (·.target) ↔ child ∈ ds.map (·.target)) →
      g.connectAll cs = .ok after → g.connectAll ds = .ok after' →
      ∀ a, after.children a = after'.children a) ∧
    ∀ moves after before, g.moveNodes moves = .ok (after, before) →
      ∀ a, after.children a = g.children a := by
  have wf := reached.wellFormed
  exact ⟨fun c after change => wf.connect_sorts, fun id after change => wf.disconnect_sorts,
    fun parent cs ds after after' => wf.connectAll_comm,
    fun moves after before done => (sameShape_moveNodes done).children⟩

/-- An only child needs no sorting. -/
theorem connect_only_child (child : c.isChild = true) (checked : g.checkConnection c = .ok ())
    (childless : g.children c.source = []) : g.connect c =
      .ok (g.relink c.source [c.target] (g.connections ++ [c]),
        ⟨g.connections.length, c, some []⟩) := by
  have only : g.childrenWith c = [c.target] := by
    rw [childrenWith, childless, List.nil_append, List.mergeSort_singleton]
  exact (connect_child child).2 ⟨checked, by rw [only], by rw [childless]⟩

/-- Of two nodes above each other, the one at negative zero comes first, whichever of them is
connected first. -/
theorem siblings_are_ordered_pair :
    let node (id : String) (kind : NodeKind) (y : Number) (children : List String) : Node :=
      { Node.ofTemplate id (.new id kind id) ⟨.infinity, y⟩ .empty with children := children }
    let zero := Number.ofParts false 0
    let nodes := [node "root" .root zero ["all"], node "all" .composite zero [],
      node "upper" .action zero [], node "lower" .action (.ofParts true 0) []]
    let g : Graph := { nodes, connections := [.toChild "root" "all"] }
    let upper := Connection.toChild "all" "upper"
    let lower := Connection.toChild "all" "lower"
    ∃ after after', g.connectAll [upper, lower] = .ok after ∧
      g.connectAll [lower, upper] = .ok after' ∧
      after.children "all" = ["lower", "upper"] ∧ after'.children "all" = ["lower", "upper"] := by
  intro node zero nodes g upper lower
  have starts : ofParts nodes [.toChild "root" "all"] = .ok g := rfl
  have reached : g.Reached := (Starts.stored starts).reached
  have connects (c d : Connection) (first : c = upper ∧ d = lower ∨ c = lower ∧ d = upper) :
      ∃ after, g.connectAll [c, d] = .ok after := by
    rcases first with ⟨rfl, rfl⟩ | ⟨rfl, rfl⟩
    · exact ⟨_, Checks.foldlM_cons_eq_ok.2
        ⟨_, congrArg (Except.map _) (connect_only_child rfl rfl rfl), rfl⟩⟩
    · exact ⟨_, Checks.foldlM_cons_eq_ok.2
        ⟨_, congrArg (Except.map _) (connect_only_child rfl rfl rfl), rfl⟩⟩
  obtain ⟨after, done⟩ := connects upper lower (.inl ⟨rfl, rfl⟩)
  obtain ⟨after', done'⟩ := connects lower upper (.inr ⟨rfl, rfl⟩)
  obtain ⟨-, -, comm, -⟩ := siblings_are_ordered reached
  have children : ∀ c ∈ [upper, lower], c.isChild = true ∧ c.source = "all" := by decide
  have same := comm "all" _ _ _ _ (by decide) children (by simp [or_comm]) done' done "all"
  have wf := reached.wellFormed
  obtain ⟨-, perm, sorts | sorts⟩ := wf.connectAll_sorts children done
  · cases sorts.1
  have before : g.Before "lower" "upper" :=
    ⟨3, 2, _, _, rfl, rfl, rfl, rfl, .inr ⟨rfl, .inl trivial⟩⟩
  have listed : after.children "all" = ["lower", "upper"] :=
    wf.distinct.eq_of_pairwise_before (sorts.sorted.imp sorts.unmoved.1)
      (List.pairwise_pair.2 before) (perm.trans (.swap ..))
  exact ⟨after, after', done, done', listed, same.trans listed⟩

end Graph

end BehaviorTree
