import BehaviorTree.Proofs.Blackboard.Dispatch

/-!
# Who hears of which event

Whatever listeners do about events, each event is delivered once to every listener, except for those
in the middle of a call when it was raised, and the events of the original change come in their order
(`events_reach_listeners`). So a listener does not hear of what it changed through `transact`, nor of
what others changed in answer to that. If all listeners make their changes in this way, delivering
comes to an end: calls inside calls are of listeners that are not busy yet, and a round leaves
nothing to wait (`exists_dispatch`). Listeners that keep answering on the blackboard itself may have
delivery cut off, and of what waits then nothing is said.
-/

namespace BehaviorTree

/-- A listener that makes its changes through `transact`. -/
def Listener.Deferring (l : Listener) : Prop :=
  ∀ event board, ∀ reaction ∈ l.react event board, ∃ change, reaction = .transact change

namespace Recorded

variable {r : Recorded} {busy : List Nat}

/-! ## Coming to an end -/

/-- How many listeners are not busy. -/
def idle (listeners : List Listener) (busy : List Nat) : Nat :=
  listeners.countP fun l => !busy.contains l.id

/-- A listener that is called is one more that is busy. -/
theorem idle_cons_lt {listeners : List Listener} {l : Listener} (listed : l ∈ listeners)
    (free : busy.contains l.id = false) : idle listeners (l.id :: busy) < idle listeners busy := by
  have fewer (m : Listener) :
      (!(l.id :: busy).contains m.id) = true → (!busy.contains m.id) = true := by
    simp only [List.contains_cons, Bool.not_eq_true', Bool.or_eq_false_iff]
    exact And.right
  obtain ⟨early, late, rfl⟩ := List.append_of_mem listed
  have here : (!(l.id :: busy).contains l.id) = false := by simp
  have first := List.countP_mono_left (l := early) fun m _ => fewer m
  have last := List.countP_mono_left (l := late) fun m _ => fewer m
  simp only [idle, List.countP_append, List.countP_cons, here, free]
  simp only [Bool.not_false, Bool.false_eq_true, if_true, if_false]
  omega

/-- Steps that can be taken wherever some property holds, and keep it, can be taken together. -/
theorem exists_foldlM {α : Type} {P : Recorded → Prop} {f : Recorded → α → Option Recorded}
    {xs : List α} (step : ∀ r, P r → ∀ x ∈ xs, ∃ r', f r x = some r' ∧ P r') (holds : P r) :
    ∃ r', xs.foldlM f r = some r' ∧ P r' := by
  induction xs generalizing r with
  | nil => exact ⟨r, rfl, holds⟩
  | cons x rest ih =>
    obtain ⟨r₁, first, holds⟩ := step r holds x List.mem_cons_self
    obtain ⟨r₂, others, holds⟩ :=
      ih (fun r holds y member => step r holds y (List.mem_cons_of_mem x member)) holds
    exact ⟨r₂, foldlM_cons_eq_some.2 ⟨r₁, first, others⟩, holds⟩

/-- No event waits, and none was raised on the blackboard itself while others were held back. -/
structure Quiet (listeners : List Listener) (r : Recorded) : Prop where
  raised : r.shared.board.raised = []
  free : ∀ e ∈ r.raisings, e.held = false
  listeners : r.shared.listeners = listeners

/-- A change that is made through `transact` holds its events back. -/
theorem Quiet.hold_change {listeners : List Listener} (quiet : Quiet listeners r)
    (change : Blackboard → Blackboard) :
    ∀ e ∈ (r.change busy false change).hold.raisings, e.held = false := by
  intro e member
  rcases List.mem_append.1 member with member | member
  · exact quiet.free e member
  · obtain ⟨-, -, rfl⟩ := List.mem_map.1 member
    rfl

/-- What is called with fewer listeners idle leaves nothing to wait, so a call of a listener that
makes its changes through `transact` does not either. -/
theorem Quiet.exists_call {listeners : List Listener} {l : Listener} (deferring : l.Deferring)
    {below : List Nat → Recorded → Option Recorded}
    (ends : ∀ r₁ : Recorded, r₁.shared.listeners = listeners →
      (∀ e ∈ r₁.raisings, e.held = false) →
      ∃ r₂, below (l.id :: busy) r₁ = some r₂ ∧ Quiet listeners r₂)
    (event : BlackboardEvent × Nat) (quiet : Quiet listeners r) :
    ∃ r', call below busy event r l = some r' ∧ Quiet listeners r' := by
  have called : Quiet listeners (r.deliver event.2 ⟨l.id, event.1, some r.shared.board⟩) :=
    ⟨quiet.raised, quiet.free, quiet.listeners⟩
  refine exists_foldlM ?_ called
  intro r₁ quiet reaction member
  obtain ⟨change, rfl⟩ := deferring event.1 r.shared.board reaction member
  exact ends _ quiet.listeners (quiet.hold_change change)

/-- Listeners that make their changes through `transact` are called inside each other's calls, each
at most once, and leave nothing to wait. -/
theorem exists_dispatch {fuel : Nat} (busy : List Nat)
    (deferring : ∀ l ∈ r.shared.listeners, l.Deferring) (free : ∀ e ∈ r.raisings, e.held = false)
    (enough : idle r.shared.listeners busy + 2 ≤ fuel) :
    ∃ r', r.dispatch fuel busy = some r' ∧ Quiet r.shared.listeners r' := by
  induction fuel generalizing r busy with
  | zero => omega
  | succ fuel ih =>
    rw [dispatch]
    split
    · next quiet => exact ⟨_, rfl, List.isEmpty_iff.1 quiet, free, rfl⟩
    · have round : ∃ r₁, r.take.round busy (call (dispatch fuel) busy) r.waiting
          r.shared.listeners = some r₁ ∧ Quiet r.shared.listeners r₁ := by
        refine exists_foldlM (P := Quiet r.shared.listeners) ?_ ⟨rfl, free, rfl⟩
        intro r₁ quiet event _
        refine exists_foldlM ?_ quiet
        intro r₂ quiet l listed
        split
        · exact ⟨r₂, rfl, quiet⟩
        · next is_idle =>
          have fewer := idle_cons_lt listed (Bool.eq_false_iff.2 is_idle)
          refine quiet.exists_call (deferring l listed) ?_ event
          intro r₃ same held
          obtain ⟨r₄, done, quiet⟩ :=
            ih (l.id :: busy) (same ▸ deferring) held (same ▸ (by omega))
          exact ⟨r₄, done, same ▸ quiet⟩
      obtain ⟨r₁, first, quiet⟩ := round
      -- Nothing waits after the round, so that the next one is the end.
      have rest : r₁.dispatch fuel busy =
          some { r₁ with shared := { r₁.shared with holding := false } } := by
        obtain ⟨fuel, rfl⟩ : ∃ n, fuel = n + 1 := ⟨fuel - 1, by omega⟩
        rw [dispatch, if_pos (List.isEmpty_iff.2 quiet.raised)]
      exact ⟨_, Option.bind_eq_some_iff.2 ⟨r₁, first, rest⟩, quiet.raised, quiet.free,
        quiet.listeners⟩

/-! ## The events of a change -/

/-- A record that begins with a change, of which the events wait. -/
def begin (s : SharedBlackboard) (change : Blackboard → Blackboard) : Recorded :=
  (({ shared := s } : Recorded).change [] false change).hold

/-- All events of a change are delivered, and those of the listeners' changes. -/
structure Complete (s : SharedBlackboard) (own : List BlackboardEvent) (r : Recorded) : Prop where
  /-- The first events on the record are those of the change, for which no listener was called. -/
  own_events : (own.map fun event => ⟨event, [], false⟩) <+: r.raisings
  /-- The calls that were made are those on the record. -/
  deliveries : r.shared.deliveries.map (fun d => (some d.event, d.listener)) =
    s.deliveries.map (fun d => (some d.event, d.listener)) ++ r.calls.map r.callOf
  /-- A listener is called once about each event, or not at all if it was in the middle of a call
  when the event was raised. -/
  once : ∀ n e, r.raisings[n]? = some e → e.held = false → ∀ l ∈ s.listeners,
    r.calls.count (n, l.id) = if l.id ∈ e.callers then 0 else 1
  /-- The events of the change come to each listener in the order in which they were raised. -/
  in_order : ∀ l ∈ s.listeners, (r.calls.filter fun c => c.2 = l.id ∧ c.1 < own.length).map (·.1) =
    List.range own.length

theorem coherent_new {s : SharedBlackboard} (quiet : s.board.raised = []) :
    Coherent s.deliveries { shared := s } where
  waiting := quiet ▸ List.nil_suffix
  called := nofun
  delivered := (List.append_nil _).symm

/-- What the delivery of a change's events has come to. -/
theorem complete_of_dispatch {s : SharedBlackboard} (distinct : (s.listeners.map (·.id)).Nodup)
    (quiet : s.board.raised = []) (additive : ∀ l ∈ s.listeners, l.Additive)
    {change : Blackboard → Blackboard} (changes : Blackboard.Additive change) {fuel : Nat}
    (done : (begin s change).dispatch fuel [] = some r) : r.Complete s (change s.board).raised := by
  have new := coherent_new quiet
  obtain ⟨own, raised, raisings⟩ := exists_change changes { shared := s } [] false
  have raised : (change s.board).raised = own := raised.trans (by rw [quiet]; rfl)
  obtain ⟨waiting, called, delivered⟩ :=
    (new.change changes [] false).1.coherent
  have started : (begin s change).Coherent s.deliveries := ⟨waiting, called, delivered⟩
  have delivers := started.delivers_dispatch distinct additive done
  have extended := new.extends_of_delivers changes (delivers_of_hold delivers)
  have raisings : (begin s change).raisings = own.map fun event => ⟨event, [], false⟩ := raisings
  have length : (begin s change).raisings.length = own.length := by
    rw [raisings, List.length_map]
  have first : (begin s change).firstWaiting = 0 := by
    have waits : (begin s change).shared.board.raised = own := raised
    rw [firstWaiting, length, waits, Nat.sub_self]
  refine
    { own_events := ?_
      deliveries := extended.coherent.delivered
      once := fun n e found free l listed => ?_
      in_order := fun l listed => ?_ }
  · rw [raised]
    exact raisings ▸ delivers.raisings
  · exact (extended.settled n e (Nat.zero_le n) found free).2 l (extended.listeners ▸ listed)
  · have told := delivers.told l listed
    have waits : (begin s change).shared.board.raised.length = own.length :=
      congrArg List.length raised
    simpa [first, length, waits, raised, List.range_eq_range'] using told

end Recorded

open Recorded in
/-- However the listeners answer, each event is delivered once to every listener, except for those in
the middle of a call when it was raised, and the events of the change itself come in their order. If
the listeners make their changes through `transact`, then delivering comes to an end, and all events
are among these. -/
theorem events_reach_listeners {s : SharedBlackboard}
    (distinct : (s.listeners.map (·.id)).Nodup) (quiet : s.board.raised = [])
    (additive : ∀ l ∈ s.listeners, l.Additive) {α : Type} (change : Blackboard → α × Blackboard)
    (changes : Blackboard.Additive fun b => (change b).2) :
    ((∀ l ∈ s.listeners, l.Deferring) →
      ∃ r, (begin s fun b => (change b).2).dispatch s.dispatchBound [] = some r ∧
        r.shared = (s.transact change).2 ∧ ∀ e ∈ r.raisings, e.held = false) ∧
    ∀ fuel r, (begin s fun b => (change b).2).dispatch fuel [] = some r →
      r.shared = SharedBlackboard.dispatch fuel []
          { s with board := (change s.board).2, holding := true } ∧
        r.Complete s (change s.board).2.raised := by
  constructor
  · intro deferring
    have free : ∀ e ∈ (begin s fun b => (change b).2).raisings, e.held = false := by
      intro e member
      obtain ⟨-, -, rfl⟩ := List.mem_map.1 member
      rfl
    have enough : idle s.listeners [] + 2 ≤ s.dispatchBound := by
      have few : idle s.listeners [] ≤ s.listeners.length := List.countP_le_length
      rw [SharedBlackboard.dispatchBound]
      omega
    obtain ⟨r, done, quiet⟩ := exists_dispatch [] deferring free enough
    exact ⟨r, done, shared_dispatch done, quiet.free⟩
  · exact fun fuel r done =>
      ⟨shared_dispatch done, complete_of_dispatch distinct quiet additive changes done⟩

/-- Two listeners, of which the second answers what the first one answers, and a third one. -/
theorem events_reach_listeners_chain :
    let answering (heard answer : String) : BlackboardEvent → Blackboard → List Reaction :=
      fun event _ => if event = .defined heard .tree then
        [.transact fun b => (b.set answer .null .tree).2] else []
    let s : SharedBlackboard := (((({} : SharedBlackboard).subscribe (answering "a" "b")).2.subscribe
      (answering "b" "c")).2.subscribe fun _ _ => []).2
    let start := Recorded.begin s fun b => (b.set "a" .null .tree).2
    (start.dispatch s.dispatchBound []).map (·.calls) =
        some [(0, 0), (1, 1), (2, 2), (1, 2), (0, 1), (0, 2)] ∧
      ∃ r, start.dispatch s.dispatchBound [] = some r ∧
        r.shared = (s.transact fun b => b.set "a" .null .tree).2 ∧
        r.Complete s [.defined "a" .tree] := by
  intro answering s start
  have answers (heard answer : String) (id : Nat) :
      let l : Listener := ⟨id, answering heard answer⟩
      l.Additive ∧ l.Deferring := by
    have only (event : BlackboardEvent) (board : Blackboard) (reaction : Reaction)
        (member : reaction ∈ answering heard answer event board) :
        reaction = .transact fun b => (b.set answer .null .tree).2 := by
      simp only [answering] at member
      split at member
      · exact List.mem_singleton.1 member
      · cases member
    constructor
    · intro event board reaction member b
      obtain rfl := only event board reaction member
      exact b.prefix_set answer .null .tree
    · exact fun event board reaction member => ⟨_, only event board reaction member⟩
  have all : ∀ l ∈ s.listeners, l.Additive ∧ l.Deferring := by
    intro l listed
    rcases List.mem_cons.1 listed with rfl | listed
    · exact answers "a" "b" 0
    rcases List.mem_cons.1 listed with rfl | listed
    · exact answers "b" "c" 1
    obtain rfl := List.mem_singleton.1 listed
    exact ⟨fun _ _ => List.forall_mem_nil _, fun _ _ => List.forall_mem_nil _⟩
  obtain ⟨ends, complete⟩ := events_reach_listeners (s := s) (by decide +kernel) rfl
    (fun l listed => (all l listed).1) (fun b => b.set "a" .null .tree)
    fun b => b.prefix_set "a" .null .tree
  obtain ⟨r, done, shared, -⟩ := ends fun l listed => (all l listed).2
  exact ⟨by decide +kernel, r, done, shared, (complete _ r done).2⟩

/-- A listener in the middle of a call does not hear of an event that another one raises. -/
theorem busy_listener_misses_event :
    let answering (heard answer : String) : BlackboardEvent → Blackboard → List Reaction :=
      fun event _ => if event = .defined heard .tree then
        [.transact fun b => (b.set answer .null .tree).2] else []
    let s : SharedBlackboard := (((({} : SharedBlackboard).subscribe (answering "a" "b")).2.subscribe
      (answering "b" "c")).2.subscribe fun _ _ => []).2
    (s.transact fun b => b.set "a" .null .tree).2.deliveries.map (fun d => (d.listener, d.event)) =
      [(0, .defined "a" .tree), (1, .defined "b" .tree), (2, .defined "c" .tree),
        (2, .defined "b" .tree), (1, .defined "a" .tree), (2, .defined "a" .tree)] := by
  decide +kernel

end BehaviorTree
