import BehaviorTree.Proofs.Blackboard.Listeners

/-!
# A record of events and calls

Events may be equal, so who hears of one is told with the help of a record that numbers them. It
keeps for each event which listeners were in the middle of a call when it was raised, and for each
call of a listener the number of the event. Delivering events with a record is delivering events
(`shared_dispatch`), but says when the fuel was not enough.
-/

namespace BehaviorTree

/-- An event that was raised. -/
structure Raising where
  event : BlackboardEvent
  /-- The listeners in the middle of a call at that moment, the one called last first. -/
  callers : List Nat
  /-- Whether it was raised on the blackboard itself while events were held back. -/
  held : Bool

/-- A shared blackboard with a record of what was raised and who was called. -/
structure Recorded where
  shared : SharedBlackboard
  /-- All events, numbered from zero. Those that wait are the last ones. -/
  raisings : List Raising := []
  /-- The calls in their order, each by the number of the event and the listener. -/
  calls : List (Nat × Nat) := []

namespace SharedBlackboard

/-- Telling of events on the spot tells the listeners that there are from the start. -/
theorem notifyAtOnce_eq (busy : List Nat) (s : SharedBlackboard) : s.notifyAtOnce busy =
    s.board.raised.foldl (fun s' event => s.listeners.foldl (fun s' l =>
      if busy.contains l.id then s' else s'.deliver ⟨l.id, event, none⟩) s') s.takeRaised.2 := by
  have fixed (events : List BlackboardEvent) (s' : SharedBlackboard)
      (same : s'.listeners = s.listeners) :
      events.foldl (fun s' event => s'.listeners.foldl (fun s' l =>
        if busy.contains l.id then s' else s'.deliver ⟨l.id, event, none⟩) s') s' =
      events.foldl (fun s' event => s.listeners.foldl (fun s' l =>
        if busy.contains l.id then s' else s'.deliver ⟨l.id, event, none⟩) s') s' := by
    induction events generalizing s' with
    | nil => rfl
    | cons event rest ih =>
      simp only [List.foldl_cons, same]
      refine ih _ (.trans ?_ same)
      refine (agrees_iff.1 (agrees_foldl (fun s' l => ?_) s' s.listeners)).2.1
      split
      · exact .refl s'
      · exact agrees_deliver s' _
  exact fixed _ _ rfl

/-- Makes a change in answer to an event; `below` delivers the events of changes made through
`transact`. -/
def answer (below : List Nat → SharedBlackboard → SharedBlackboard) (busy : List Nat)
    (s : SharedBlackboard) : Reaction → SharedBlackboard
  | .transact change => below busy { s with board := change s.board, holding := true }
  | .direct change => s.changeDirectly busy change

/-- Calls a listener about an event, and makes the changes that it answers. -/
def call (below : List Nat → SharedBlackboard → SharedBlackboard) (busy : List Nat)
    (event : BlackboardEvent) (s : SharedBlackboard) (l : Listener) : SharedBlackboard :=
  (l.react event s.board).foldl (answer below (l.id :: busy))
    (s.deliver ⟨l.id, event, some s.board⟩)

theorem dispatch_eq (fuel : Nat) (busy : List Nat) (s : SharedBlackboard) :
    s.dispatch (fuel + 1) busy =
      if s.board.raised.isEmpty then { s with holding := false }
      else dispatch fuel busy (s.board.raised.foldl (fun s' event => s.listeners.foldl (fun s' l =>
        if busy.contains l.id then s' else call (dispatch fuel) busy event s' l) s')
          s.takeRaised.2) :=
  rfl

end SharedBlackboard

namespace Recorded

/-! ## Keeping the record -/

/-- The number of the first event that waits. -/
def firstWaiting (r : Recorded) : Nat := r.raisings.length - r.shared.board.raised.length

/-- Changes the blackboard in the middle of calls and records the events that this raises. -/
def change (callers : List Nat) (held : Bool) (change : Blackboard → Blackboard) (r : Recorded) :
    Recorded :=
  let board := change r.shared.board
  let new := board.raised.drop r.shared.board.raised.length
  { r with
    shared := { r.shared with board := board }
    raisings := r.raisings ++ new.map fun event => ⟨event, callers, held⟩ }

/-- Holds events back. -/
def hold (r : Recorded) : Recorded := { r with shared := { r.shared with holding := true } }

/-- The events that wait, with their numbers. -/
def waiting (r : Recorded) : List (BlackboardEvent × Nat) :=
  r.shared.board.raised.zipIdx r.firstWaiting

/-- Takes the events that wait. -/
def take (r : Recorded) : Recorded := { r with shared := r.shared.takeRaised.2 }

/-- Calls a listener about the event of a number. -/
def deliver (r : Recorded) (number : Nat) (delivery : Delivery) : Recorded :=
  { r with
    shared := r.shared.deliver delivery
    calls := r.calls ++ [(number, delivery.listener)] }

/-- Calls the listeners that are not busy about one event after the other. -/
def round (busy : List Nat)
    (call : BlackboardEvent × Nat → Recorded → Listener → Option Recorded)
    (events : List (BlackboardEvent × Nat)) (listeners : List Listener) (r : Recorded) :
    Option Recorded :=
  events.foldlM (fun r event => listeners.foldlM (fun r l =>
    if busy.contains l.id then some r else call event r l) r) r

/-- Changes the blackboard itself, see `SharedBlackboard.changeDirectly`. -/
def changeDirectly (busy : List Nat) (change : Blackboard → Blackboard) (r : Recorded) :
    Option Recorded :=
  let r' := r.change busy r.shared.holding change
  if r.shared.holding then some r'
  else
    r'.take.round busy (fun event r l => some (r.deliver event.2 ⟨l.id, event.1, none⟩)) r'.waiting
      r.shared.listeners

/-- Makes a change in answer to an event; `below` delivers the events of changes made through
`transact`. -/
def answer (below : List Nat → Recorded → Option Recorded) (busy : List Nat) (r : Recorded) :
    Reaction → Option Recorded
  | .transact change => below busy (r.change busy false change).hold
  | .direct change => r.changeDirectly busy change

/-- Calls a listener about an event, and makes the changes that it answers. -/
def call (below : List Nat → Recorded → Option Recorded) (busy : List Nat)
    (event : BlackboardEvent × Nat) (r : Recorded) (l : Listener) : Option Recorded :=
  (l.react event.1 r.shared.board).foldlM (answer below (l.id :: busy))
    (r.deliver event.2 ⟨l.id, event.1, some r.shared.board⟩)

/-- Delivers events, see `SharedBlackboard.dispatch`; `none` if there is not enough fuel. -/
def dispatch : Nat → List Nat → Recorded → Option Recorded
  | 0, _, _ => none
  | fuel + 1, busy, r =>
    if r.shared.board.raised.isEmpty then
      some { r with shared := { r.shared with holding := false } }
    else do
      let r ← r.take.round busy (call (dispatch fuel) busy) r.waiting r.shared.listeners
      dispatch fuel busy r

variable {r r' r'' : Recorded} {busy : List Nat} {events : List (BlackboardEvent × Nat)}
  {listeners : List Listener}

theorem foldlM_cons_eq_some {α β : Type} {f : β → α → Option β} {x : α} {xs : List α} {b c : β} :
    (x :: xs).foldlM f b = some c ↔ ∃ d, f b x = some d ∧ xs.foldlM f d = some c := by
  rw [List.foldlM_cons]
  exact Option.bind_eq_some_iff

/-- Recorded steps do what the steps do without the record. -/
theorem shared_foldlM {α β : Type} {f : Recorded → α → Option Recorded}
    {g : SharedBlackboard → β → SharedBlackboard} {p : α → β}
    (step : ∀ {r r' : Recorded} {x : α}, f r x = some r' → r'.shared = g r.shared (p x))
    {xs : List α} (done : xs.foldlM f r = some r') :
    r'.shared = (xs.map p).foldl g r.shared := by
  induction xs generalizing r with
  | nil =>
    obtain rfl := Option.some.inj done
    rfl
  | cons x rest ih =>
    obtain ⟨r₁, first, others⟩ := foldlM_cons_eq_some.1 done
    rw [List.map_cons, List.foldl_cons, ← step first]
    exact ih others

theorem map_fst_waiting (r : Recorded) : r.waiting.map (·.1) = r.shared.board.raised := by
  simp [waiting]

/-- A round with a record is a round without one. -/
theorem shared_round {call : BlackboardEvent × Nat → Recorded → Listener → Option Recorded}
    (answer : BlackboardEvent → SharedBlackboard → Listener → SharedBlackboard)
    (answers : ∀ {event : BlackboardEvent × Nat} {r r' : Recorded} {l : Listener},
      call event r l = some r' → r'.shared = answer event.1 r.shared l)
    (done : r.round busy call events listeners = some r') :
    r'.shared = (events.map (·.1)).foldl (fun s event => listeners.foldl (fun s l =>
      if busy.contains l.id then s else answer event s l) s) r.shared := by
  refine shared_foldlM (fun {r r' event} done => ?_) done
  have each := shared_foldlM (p := id) (g := fun s l =>
    if busy.contains l.id then s else answer event.1 s l) (fun {r r' l} done => ?_) done
  · rwa [List.map_id] at each
  · dsimp only [id] at done ⊢
    split at done
    · next is_busy =>
      obtain rfl := Option.some.inj done
      rw [if_pos is_busy]
    · next idle =>
      rw [if_neg idle]
      exact answers done

theorem shared_changeDirectly {change : Blackboard → Blackboard}
    (done : r.changeDirectly busy change = some r') :
    r'.shared = r.shared.changeDirectly busy change := by
  rw [changeDirectly] at done
  rw [SharedBlackboard.changeDirectly]
  dsimp only at done ⊢
  split at done
  · next holds =>
    obtain rfl := Option.some.inj done
    rw [if_pos holds]
    rfl
  · next free =>
    have each := shared_round (fun event s l => s.deliver ⟨l.id, event, none⟩)
      (fun {event r r' l} done => by rw [← Option.some.inj done]; rfl) done
    rw [if_neg free, SharedBlackboard.notifyAtOnce_eq, each, map_fst_waiting]
    rfl

/-- Keeping the record changes nothing. -/
theorem shared_dispatch {fuel : Nat} (done : r.dispatch fuel busy = some r') :
    r'.shared = r.shared.dispatch fuel busy := by
  induction fuel generalizing r r' busy with
  | zero => cases done
  | succ fuel ih =>
    rw [dispatch] at done
    rw [SharedBlackboard.dispatch_eq]
    split at done
    · next quiet =>
      obtain rfl := Option.some.inj done
      rw [if_pos quiet]
    · next waits =>
      obtain ⟨r₁, first, others⟩ := Option.bind_eq_some_iff.1 done
      have each := shared_round (SharedBlackboard.call (SharedBlackboard.dispatch fuel) busy)
        (fun {event r r' l} done => ?_) first
      · rw [if_neg waits, ih others, each, map_fst_waiting]
        rfl
      · have reactions := shared_foldlM (p := id)
          (g := SharedBlackboard.answer (SharedBlackboard.dispatch fuel) (l.id :: busy))
          (fun {r r' reaction} done => ?_) done
        · rwa [List.map_id] at reactions
        · cases reaction with
          | transact change => exact ih done
          | direct change => exact shared_changeDirectly done

end Recorded

end BehaviorTree
