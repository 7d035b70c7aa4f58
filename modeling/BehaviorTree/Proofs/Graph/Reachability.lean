import BehaviorTree.Proofs.Graph.Lookup
import Mathlib.Logic.Relation

/-!
# Reachability

`Graph.isReachable` is a depth-first search with a bound on its steps. It answers the question for
which it is asked on every graph, cyclic ones included (`isReachable_iff`), and so does every search
that takes the ids of its frontier in some other order (`search_decides_reachability`).

A search goes on in rounds (`Round`). They come to an end because each id is entered once and brings
its children to the frontier once (`Round.load_lt`). What a search has seen so far (`Searching`) is
kept from round to round; when the frontier is empty, the ids entered are closed under children and
miss the target.
-/

namespace BehaviorTree.Graph

open Relation

/-- One id is another or is reached from it by following children. -/
def Reaches (g : Graph) : String → String → Prop := ReflTransGen g.IsChild

variable {g : Graph} {target : String}

theorem Reaches.mono {h : Graph} (sub : ∀ a b, g.IsChild a b → h.IsChild a b) {a b : String}
    (path : g.Reaches a b) : h.Reaches a b :=
  ReflTransGen.mono sub a b path

/-- How many entries of children lists the search may still bring to the frontier. -/
def unentered (seen : List String) : List Node → Nat
  | [] => 0
  | n :: rest => (if seen.contains n.id then 0 else n.children.length) + unentered seen rest

theorem unentered_cons_le (seen : List String) (id : String) (nodes : List Node) :
    unentered (id :: seen) nodes ≤ unentered seen nodes := by
  induction nodes with
  | nil => exact Nat.le_refl _
  | cons n rest ih =>
    simp only [unentered, List.contains_cons]
    cases seen.contains n.id <;> cases n.id == id <;> simp <;> omega

/-- Entering an id brings its children to the frontier and takes them off what may still come. -/
theorem unentered_enter {seen : List String} {id : String} (new : seen.contains id = false)
    (nodes : List Node) :
    (((nodes.find? fun n => n.id == id).map (·.children)).getD []).length +
      unentered (id :: seen) nodes ≤ unentered seen nodes := by
  induction nodes with
  | nil => exact Nat.le_refl _
  | cons n rest ih =>
    by_cases eq : n.id = id
    · have tail := unentered_cons_le seen id rest
      simp only [List.find?_cons, eq, beq_self_eq_true, unentered, List.contains_cons, Bool.true_or,
        if_true, new]
      simpa using tail
    · have ne : (n.id == id) = false := by simpa using eq
      simp only [List.find?_cons, ne, unentered, List.contains_cons, Bool.false_or]
      omega

theorem unentered_nil (nodes : List Node) :
    unentered [] nodes = (nodes.flatMap fun n => n.children).length := by
  induction nodes with
  | nil => rfl
  | cons n rest ih => simp [unentered, ih]

/-- A list of ids that is closed under children and misses a target. -/
structure Separates (g : Graph) (target : String) (ids : List String) : Prop where
  misses : target ∉ ids
  closed : ∀ a ∈ ids, ∀ b, g.IsChild a b → b ∈ ids

/-- Nothing reached from inside leads out. -/
theorem Separates.mem_of_reaches {ids : List String} (separates : g.Separates target ids)
    {a b : String} (path : g.Reaches a b) (inside : a ∈ ids) : b ∈ ids := by
  induction path with
  | refl => exact inside
  | tail _ child ih => exact separates.closed _ ih _ child

/-! ## Rounds of a search -/

/-- Where a search stands: the ids that are still to be looked at, and those that were entered. -/
structure SearchState where
  frontier : List String
  entered : List String

/-- The beginning of a search. -/
def SearchState.start (id : String) : SearchState := ⟨[id], []⟩

/-- One round of a search, in which some id other than the target is taken from the frontier. If it
was entered before, it is dropped; if not, its children join the frontier. The order in which the
frontier is kept is left open. -/
inductive Round (g : Graph) (target : String) : SearchState → SearchState → Prop
  | drop {id : String} {frontier rest entered : List String} (taken : frontier.Perm (id :: rest))
    (other : id ≠ target) (old : id ∈ entered) : Round g target ⟨frontier, entered⟩ ⟨rest, entered⟩
  | enter {id : String} {frontier rest next entered : List String}
    (taken : frontier.Perm (id :: rest)) (other : id ≠ target) (new : id ∉ entered)
    (joined : next.Perm (g.children id ++ rest)) :
    Round g target ⟨frontier, entered⟩ ⟨next, id :: entered⟩

/-- What a search says when it ends: yes where it takes the target, no where nothing is left. -/
inductive SearchState.Answers (target : String) : SearchState → Bool → Prop
  | found {s : SearchState} (here : target ∈ s.frontier) : Answers target s true
  | missed {s : SearchState} (empty : s.frontier = []) : Answers target s false

/-- How many ids a search may still take from its frontier. -/
def SearchState.load (g : Graph) (s : SearchState) : Nat :=
  s.frontier.length + unentered s.entered g.nodes

variable {start : String} {s s' : SearchState} {answer : Bool}

theorem Round.load_lt (round : g.Round target s s') : s'.load g < s.load g := by
  cases round with
  | drop taken other old =>
    have shorter := taken.length_eq
    simp only [SearchState.load, List.length_cons] at *
    omega
  | @enter id _ _ _ entered taken other new joined =>
    have shorter := taken.length_eq
    have longer := joined.length_eq
    have new : entered.contains id = false := by simpa using new
    have paid := unentered_enter new g.nodes
    simp only [SearchState.load, List.length_cons, List.length_append, children, node?] at *
    omega

/-- No search goes on forever. -/
theorem wellFounded_round (g : Graph) (target : String) :
    WellFounded fun s' s => g.Round target s s' :=
  Subrelation.wf Round.load_lt (InvImage.wf (SearchState.load g) Nat.lt_wfRel.wf)

/-- A search that has no answer yet can go on. -/
theorem exists_round_or_answer (g : Graph) (target : String) (s : SearchState) :
    (∃ s', g.Round target s s') ∨ ∃ answer, s.Answers target answer := by
  obtain ⟨frontier, entered⟩ := s
  cases frontier with
  | nil => exact .inr ⟨false, .missed rfl⟩
  | cons id rest =>
    by_cases here : id = target
    · exact .inr ⟨true, .found (here ▸ List.mem_cons_self)⟩
    · by_cases old : id ∈ entered
      · exact .inl ⟨_, .drop (.refl _) here old⟩
      · exact .inl ⟨_, .enter (.refl _) here old (.refl _)⟩

/-- What a search from a start knows: all that is ahead can be reached, and the way to whatever can
be reached leads from the ids entered over the frontier. -/
structure Searching (g : Graph) (start target : String) (s : SearchState) : Prop where
  reached : ∀ id ∈ s.frontier, g.Reaches start id
  begun : start ∈ s.entered ∨ start ∈ s.frontier
  missed : target ∉ s.entered
  waiting : ∀ a ∈ s.entered, ∀ b, g.IsChild a b → b ∈ s.entered ∨ b ∈ s.frontier

theorem searching_start (g : Graph) (start target : String) :
    g.Searching start target (.start start) where
  reached _ ahead := List.mem_singleton.1 ahead ▸ .refl
  begun := .inr List.mem_cons_self
  missed := List.not_mem_nil
  waiting _ entered := absurd entered List.not_mem_nil

theorem Searching.round (searching : g.Searching start target s) (round : g.Round target s s') :
    g.Searching start target s' := by
  cases round with
  | @drop id frontier rest entered taken other old =>
    -- The id was entered before, so nothing is lost when it leaves the frontier.
    have moved {b : String} (ahead : b ∈ frontier) : b ∈ entered ∨ b ∈ rest := by
      rcases List.mem_cons.1 (taken.mem_iff.1 ahead) with rfl | ahead
      · exact .inl old
      · exact .inr ahead
    exact
      { reached := fun b ahead =>
          searching.reached b (taken.mem_iff.2 (List.mem_cons_of_mem _ ahead))
        begun := searching.begun.elim .inl moved
        missed := searching.missed
        waiting := fun a here b child => (searching.waiting a here b child).elim .inl moved }
  | @enter id frontier rest next entered taken other new joined =>
    have moved {b : String} (ahead : b ∈ frontier) : b ∈ id :: entered ∨ b ∈ next := by
      rcases List.mem_cons.1 (taken.mem_iff.1 ahead) with rfl | ahead
      · exact .inl List.mem_cons_self
      · exact .inr (joined.mem_iff.2 (List.mem_append_right _ ahead))
    have known {b : String} (before : b ∈ entered ∨ b ∈ frontier) : b ∈ id :: entered ∨ b ∈ next :=
      before.elim (fun here => .inl (List.mem_cons_of_mem _ here)) moved
    have here : g.Reaches start id :=
      searching.reached id (taken.mem_iff.2 List.mem_cons_self)
    refine ⟨fun b ahead => ?_, known searching.begun, ?_, fun a entered b child => ?_⟩
    · rcases List.mem_append.1 (joined.mem_iff.1 ahead) with child | ahead
      · exact here.tail child
      · exact searching.reached b (taken.mem_iff.2 (List.mem_cons_of_mem _ ahead))
    · exact fun member => (List.mem_cons.1 member).elim (Ne.symm other) searching.missed
    · rcases List.mem_cons.1 entered with rfl | entered
      · exact .inr (joined.mem_iff.2 (List.mem_append_left _ child))
      · exact known (searching.waiting a entered b child)

theorem Searching.rounds (searching : g.Searching start target s)
    (rounds : ReflTransGen (g.Round target) s s') : g.Searching start target s' := by
  induction rounds with
  | refl => exact searching
  | tail _ round ih => exact ih.round round

/-- The answer at the end is right. -/
theorem Searching.answer_iff (searching : g.Searching start target s)
    (answers : s.Answers target answer) : answer = true ↔ g.Reaches start target := by
  cases answers with
  | found here => exact iff_of_true rfl (searching.reached target here)
  | missed empty =>
    have separates : g.Separates target s.entered :=
      ⟨searching.missed, fun a here b child =>
        (searching.waiting a here b child).resolve_right (empty ▸ List.not_mem_nil)⟩
    have begun : start ∈ s.entered := searching.begun.resolve_right (empty ▸ List.not_mem_nil)
    exact iff_of_false Bool.false_ne_true fun path =>
      separates.misses (separates.mem_of_reaches path begun)

/-! ## The search -/

/-- A bound that covers the load lets the search go on until it has an answer. -/
theorem exists_rounds_search {fuel : Nat} {frontier entered : List String}
    (paid : SearchState.load g ⟨frontier, entered⟩ ≤ fuel) :
    ∃ s, ReflTransGen (g.Round target) ⟨frontier, entered⟩ s ∧
      s.Answers target (g.search target fuel frontier entered) := by
  induction fuel generalizing frontier entered with
  | zero =>
    have empty : frontier = [] := by
      simp only [SearchState.load] at paid
      exact List.length_eq_zero_iff.1 (by omega)
    exact ⟨_, .refl, .missed empty⟩
  | succ fuel ih =>
    cases frontier with
    | nil => exact ⟨_, .refl, .missed rfl⟩
    | cons id rest =>
      have next {s : SearchState} (round : g.Round target ⟨id :: rest, entered⟩ s) :
          s.load g ≤ fuel :=
        Nat.le_of_lt_succ (Nat.lt_of_lt_of_le round.load_lt paid)
      rw [search]
      split
      · next here => exact ⟨_, .refl, .found (here ▸ List.mem_cons_self)⟩
      · next other =>
        split
        · next old =>
          have round : g.Round target ⟨id :: rest, entered⟩ _ :=
            .drop (.refl _) other (by simpa using old)
          obtain ⟨s, rounds, answers⟩ := ih (next round)
          exact ⟨s, .head round rounds, answers⟩
        · next new =>
          have round : g.Round target ⟨id :: rest, entered⟩ _ :=
            .enter (.refl _) other (by simpa using new) (.refl _)
          obtain ⟨s, rounds, answers⟩ := ih (next round)
          exact ⟨s, .head round rounds, answers⟩

/-- The search says yes exactly if the target is the start or can be reached from it. -/
theorem isReachable_iff : g.isReachable start target = true ↔ g.Reaches start target := by
  have paid : (SearchState.start start).load g ≤ g.searchBound := by
    simp only [SearchState.load, SearchState.start, unentered_nil, searchBound,
      List.length_singleton]
    omega
  obtain ⟨s, rounds, answers⟩ := exists_rounds_search paid
  exact ((searching_start g start target).rounds rounds).answer_iff answers

/-- A search from a start ends on every graph, in whichever order it takes the ids of its frontier:
its rounds cannot go on forever, and they go on until there is an answer. Each answer is that of
`isReachable`, and this is yes exactly if the target is the start or can be reached from it by
following children. -/
theorem search_decides_reachability (g : Graph) (start target : String) :
    (g.isReachable start target = true ↔ g.Reaches start target) ∧
      (WellFounded fun s' s => g.Round target s s') ∧
      ∀ s, ReflTransGen (g.Round target) (.start start) s →
        ((∃ s', g.Round target s s') ∨ ∃ answer, s.Answers target answer) ∧
          ∀ answer, s.Answers target answer → answer = g.isReachable start target := by
  refine ⟨isReachable_iff, wellFounded_round g target, fun s rounds =>
    ⟨exists_round_or_answer g target s, fun answer answers => ?_⟩⟩
  have right := ((searching_start g start target).rounds rounds).answer_iff answers
  exact Bool.eq_iff_iff.2 (right.trans isReachable_iff.symm)

/-- A loop, a child that is listed twice and one that is missing: from inside the loop the missing
one is found before the frontier is empty, and nothing leads back from it. -/
theorem search_decides_reachability_loop :
    let node (id : String) (children : List String) : Node :=
      ⟨id, .new id .composite "", .empty, {}, children⟩
    let g : Graph := { nodes := [node "door" ["hall", "hall"], node "hall" ["door", "lost"]] }
    (∀ s, ReflTransGen (g.Round "lost") (.start "door") s → s.frontier ≠ []) ∧
      ¬ g.Reaches "lost" "door" := by
  intro node g
  refine ⟨fun s rounds empty => ?_, fun back => ?_⟩
  · have answers := ((search_decides_reachability g "door" "lost").2.2 s rounds).2
    exact absurd (answers false (.missed empty)) (by decide +kernel)
  · have said := (search_decides_reachability g "lost" "door").1.2 back
    exact absurd said (by decide +kernel)

end BehaviorTree.Graph
