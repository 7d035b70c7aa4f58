import BehaviorTree.Tree
import Mathlib.Data.List.Forall2
import Mathlib.Data.List.Nodup
import Mathlib.Data.List.Pairwise
import Mathlib.Logic.Relation

/-!
# Depth-first order

A walk with a stack visits what is on top of it and puts the children in its place. `DepthFirst`
relates a stack to what the walk visits until the stack is empty. The order fixes the set: a walk
from one start visits exactly what is reached from it (`DepthFirst.mem_iff`). If nothing is visited
twice, no two have a child in common and nothing is below itself. The subtrees of a tree are listed
in this order.
-/

namespace BehaviorTree

open Relation

variable {α β : Type}

/-- What a walk visits, in this order, that begins with a stack and replaces its top by the
children of the top. -/
inductive DepthFirst (children : α → List α) : List α → List α → Prop where
  | done : DepthFirst children [] []
  | visit {a : α} {waiting visited : List α}
      (walk : DepthFirst children (children a ++ waiting) visited) :
      DepthFirst children (a :: waiting) (a :: visited)

namespace DepthFirst

variable {children : α → List α} {waiting visited : List α} {a b : α}

theorem append {waiting' visited' : List α} (first : DepthFirst children waiting visited)
    (second : DepthFirst children waiting' visited') :
    DepthFirst children (waiting ++ waiting') (visited ++ visited') := by
  induction first with
  | done => exact second
  | visit _ ih => exact .visit (List.append_assoc .. ▸ ih)

/-- Walks from each of several starts, one after the other, are one walk. -/
theorem flatMap {walk : α → List α} {starts : List α}
    (each : ∀ a ∈ starts, DepthFirst children [a] (walk a)) :
    DepthFirst children starts (starts.flatMap walk) := by
  induction starts with
  | nil => exact .done
  | cons a rest ih =>
    obtain ⟨first, others⟩ := List.forall_mem_cons.1 each
    exact first.append (ih others)

/-- A renaming that keeps the children of all that is visited keeps the order. -/
theorem map {f : α → β} {children' : β → List β} (walk : DepthFirst children waiting visited)
    (keeps : ∀ a ∈ visited, (children a).map f = children' (f a)) :
    DepthFirst children' (waiting.map f) (visited.map f) := by
  induction walk with
  | done => exact .done
  | @visit a waiting visited _ ih =>
    obtain ⟨here, below⟩ := List.forall_mem_cons.1 keeps
    have rest := ih below
    rw [List.map_append, here] at rest
    exact .visit rest

theorem waiting_subset (walk : DepthFirst children waiting visited) : waiting ⊆ visited := by
  induction walk with
  | done => exact List.Subset.refl _
  | visit _ ih => exact List.cons_subset_cons _ (List.append_subset.1 ih).2

theorem closed (walk : DepthFirst children waiting visited) (mem : a ∈ visited)
    (child : b ∈ children a) : b ∈ visited := by
  induction walk with
  | done => cases mem
  | visit walk ih =>
    apply List.mem_cons_of_mem
    rcases List.mem_cons.1 mem with rfl | mem
    · exact walk.waiting_subset (List.mem_append_left _ child)
    · exact ih mem

theorem reached (walk : DepthFirst children waiting visited) (mem : b ∈ visited) :
    ∃ a ∈ waiting, ReflTransGen (fun a b => b ∈ children a) a b := by
  induction walk with
  | done => cases mem
  | @visit top waiting _ _ ih =>
    rcases List.mem_cons.1 mem with rfl | mem
    · exact ⟨b, List.mem_cons_self, .refl⟩
    · obtain ⟨a, member, path⟩ := ih mem
      rcases List.mem_append.1 member with child | member
      · exact ⟨top, List.mem_cons_self, .head child path⟩
      · exact ⟨a, List.mem_cons_of_mem _ member, path⟩

/-- A walk from one start visits exactly what is reached from it. -/
theorem mem_iff {start : α} (walk : DepthFirst children [start] visited) :
    b ∈ visited ↔ ReflTransGen (fun a b => b ∈ children a) start b := by
  constructor
  · intro mem
    obtain ⟨a, member, path⟩ := walk.reached mem
    exact List.mem_singleton.1 member ▸ path
  · intro path
    induction path with
    | refl => exact walk.waiting_subset List.mem_cons_self
    | tail _ child ih => exact walk.closed ih child

/-- A walk visits what it begins with and the children of all it visits, each as often as listed. -/
theorem perm (walk : DepthFirst children waiting visited) :
    visited.Perm (waiting ++ visited.flatMap children) := by
  induction walk with
  | done => exact .refl _
  | @visit a waiting visited _ ih =>
    rw [List.flatMap_cons, List.cons_append, ← List.append_assoc]
    exact (ih.trans (List.perm_append_comm.append_right _)).cons a

/-! A walk from one start that visits nothing twice has gone down a tree. -/

section Once

variable {start : α} (walk : DepthFirst children [start] visited) (once : visited.Nodup)

include walk once

theorem nodup_listed : (start :: visited.flatMap children).Nodup :=
  walk.perm.nodup_iff.1 once

theorem nodup_children (mem : a ∈ visited) : (children a).Nodup :=
  (List.nodup_flatMap.1 (List.nodup_cons.1 (walk.nodup_listed once)).2).1 a mem

theorem start_not_child (mem : a ∈ visited) : start ∉ children a := fun child =>
  (List.nodup_cons.1 (walk.nodup_listed once)).1 (List.mem_flatMap.2 ⟨a, mem, child⟩)

theorem one_parent {child : α} (first : a ∈ visited) (second : b ∈ visited)
    (ofFirst : child ∈ children a) (ofSecond : child ∈ children b) : a = b := by
  have apart := (List.nodup_flatMap.1 (List.nodup_cons.1 (walk.nodup_listed once)).2).2
  have : Std.Symm (Function.onFun List.Disjoint children) :=
    ⟨fun _ _ disjoint _ here there => disjoint there here⟩
  by_contra ne
  exact apart.forall first second ne ofFirst ofSecond

/-- A cycle would lead back to the start, along the only parents, and the start has none. -/
theorem acyclic (mem : a ∈ visited) : ¬ TransGen (fun a b => b ∈ children a) a a := by
  have path := walk.mem_iff.1 mem
  clear mem
  induction path with
  | refl =>
    intro cycle
    obtain ⟨last, below, child⟩ := TransGen.tail'_iff.1 cycle
    exact walk.start_not_child once (walk.mem_iff.2 below) child
  | @tail parent a above child ih =>
    intro cycle
    obtain ⟨last, below, again⟩ := TransGen.tail'_iff.1 cycle
    have visitedLast : last ∈ visited := walk.mem_iff.2 ((above.tail child).trans below)
    obtain rfl := walk.one_parent once visitedLast (walk.mem_iff.2 above) again child
    exact ih (TransGen.head' child below)

end Once

end DepthFirst

/-! ## The subtrees of a tree -/

namespace Tree

mutual

/-- The subtrees of a tree are listed in depth-first order. -/
theorem depthFirst (t : Tree α) : DepthFirst Tree.children [t] t.subtrees := by
  match t with
  | node label children =>
    refine .visit ?_
    rw [List.append_nil]
    exact depthFirst_subtreesOf children

theorem depthFirst_subtreesOf (ts : List (Tree α)) :
    DepthFirst Tree.children ts (subtreesOf ts) := by
  match ts with
  | [] => exact .done
  | t :: rest => exact (depthFirst t).append (depthFirst_subtreesOf rest)

end

mutual

theorem map_label_subtrees (t : Tree α) : t.subtrees.map label = t.preorder := by
  match t with
  | node a children => simp [subtrees, preorder, label, map_label_subtreesOf children]

theorem map_label_subtreesOf (ts : List (Tree α)) : (subtreesOf ts).map label = preorders ts := by
  match ts with
  | [] => rfl
  | t :: rest => simp [subtreesOf, preorders, map_label_subtrees t, map_label_subtreesOf rest]

end

theorem length_subtrees (t : Tree α) : t.subtrees.length = t.size := by
  rw [← length_preorder, ← map_label_subtrees, List.length_map]

theorem head?_subtrees (t : Tree α) : t.subtrees[0]? = some t := by
  cases t; rfl

theorem size_eq (t : Tree α) : t.size = sizes t.children + 1 := by
  cases t; rfl

theorem size_le_sizes {t : Tree α} {ts : List (Tree α)} (mem : t ∈ ts) : t.size ≤ sizes ts := by
  induction ts with
  | nil => cases mem
  | cons t' rest ih =>
    rw [sizes]
    rcases List.mem_cons.1 mem with rfl | mem
    · omega
    · have := ih mem
      omega

mutual

/-- The subtrees of a subtree are listed from the place of that subtree on, without a gap. -/
theorem subtrees_contiguous {t s : Tree α} {i : Nat} (found : t.subtrees[i]? = some s) :
    ∃ before after, t.subtrees = before ++ s.subtrees ++ after ∧ before.length = i := by
  match t, i with
  | node label children, 0 =>
    cases found
    exact ⟨[], [], by simp, rfl⟩
  | node label children, i + 1 =>
    have below : (subtreesOf children)[i]? = some s := found
    obtain ⟨before, after, eq, len⟩ := subtreesOf_contiguous below
    exact ⟨node label children :: before, after, by simp [subtrees, eq], by simp [len]⟩

theorem subtreesOf_contiguous {ts : List (Tree α)} {s : Tree α} {i : Nat}
    (found : (subtreesOf ts)[i]? = some s) :
    ∃ before after, subtreesOf ts = before ++ s.subtrees ++ after ∧ before.length = i := by
  match ts with
  | [] => cases found
  | t :: rest =>
    rw [subtreesOf] at found ⊢
    rcases Nat.lt_or_ge i t.subtrees.length with inside | beyond
    · rw [List.getElem?_append_left inside] at found
      obtain ⟨before, after, eq, len⟩ := subtrees_contiguous found
      exact ⟨before, after ++ subtreesOf rest, by simp [eq], len⟩
    · rw [List.getElem?_append_right beyond] at found
      obtain ⟨before, after, eq, len⟩ := subtreesOf_contiguous found
      exact ⟨t.subtrees ++ before, after, by simp [eq], by simp [len]; omega⟩

end

/-! ## Places -/

theorem le_of_mem_places {ts : List (Tree α)} {start p : Nat} (mem : p ∈ places start ts) :
    start ≤ p := by
  induction ts generalizing start with
  | nil => cases mem
  | cons t rest ih =>
    rcases List.mem_cons.1 mem with rfl | mem
    · exact Nat.le_refl _
    · exact Nat.le_trans (Nat.le_add_right _ _) (ih mem)

/-- Trees listed from a place on are found at their places. -/
theorem places_found (ts after : List (Tree α)) {before : List (Tree α)} {start : Nat}
    (len : before.length = start) :
    List.Forall₂ (fun p t => (before ++ subtreesOf ts ++ after)[p]? = some t)
      (places start ts) ts := by
  induction ts generalizing start before with
  | nil => exact .nil
  | cons t rest ih =>
    refine .cons ?_ ?_
    · have inside : 0 < t.subtrees.length := by rw [length_subtrees, size_eq]; omega
      simp only [subtreesOf, List.append_assoc]
      rw [List.getElem?_append_right (by omega), len, Nat.sub_self,
        List.getElem?_append_left inside, head?_subtrees]
    · have shift : (before ++ t.subtrees).length = start + t.size := by
        rw [List.length_append, len, length_subtrees]
      simpa only [subtreesOf, List.append_assoc] using ih shift

/-- Blocks that begin at the places of trees and are as long as the trees fill up the interval. -/
theorem flatMap_places {ts : List (Tree α)} {start : Nat} {block : Nat → List Nat}
    (blocks : List.Forall₂ (fun p t => block p = List.range' p t.size) (places start ts) ts) :
    (places start ts).flatMap block = List.range' start (sizes ts) := by
  induction ts generalizing start with
  | nil => rfl
  | cons t rest ih =>
    obtain ⟨here, later⟩ := List.forall₂_cons.1 blocks
    rw [places, List.flatMap_cons, here, ih later, sizes, List.range'_append_1]

end Tree

end BehaviorTree
