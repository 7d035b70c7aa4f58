import BehaviorTree.Blackboard.Basic

/-!
# The shared blackboard and its listeners

Listeners learn of every change. A change made through `transact` holds its events back until it is
complete and then delivers them one after the other, each to all listeners in the order of
subscription. A listener may answer an event with changes of its own, and while it does so it is
not called again. A change made through `direct` delivers its events at once, while the blackboard
is in the middle of the change, and there a listener can only take note.

Listeners are taken without a state of their own: what one does about an event depends on the event
and on the blackboard that it finds, and not on the calls before. So a listener that answers every
second event, say, is not among those meant here.

Delivery goes on while events wait. It ends by itself if all listeners answer through `transact`;
listeners that keep answering on the blackboard itself can make it go on for ever. `transact` cuts
it off after `dispatchBound`, with events still waiting, and what is said of changes made through
`transact` is said of changes that are cut off there.

What was delivered is kept as a list of `Delivery` until it is drained.
-/

namespace BehaviorTree

/-- A change that a listener makes when it is called. -/
inductive Reaction where
  /-- Through `transact`: the events of the change are delivered before the next reaction. -/
  | transact (change : Blackboard → Blackboard)
  /-- On the blackboard itself. -/
  | direct (change : Blackboard → Blackboard)

structure Listener where
  id : Nat
  /-- What the listener does about an event, given the blackboard at that moment. It is the same
  every time. -/
  react : BlackboardEvent → Blackboard → List Reaction

/-- A call of a listener. -/
structure Delivery where
  listener : Nat
  event : BlackboardEvent
  /-- The blackboard that the listener could read. -/
  seen : Option Blackboard

structure SharedBlackboard where
  board : Blackboard := {}
  /-- The listeners in the order of subscription. -/
  listeners : List Listener := []
  nextListener : Nat := 0
  /-- Whether events wait for the end of a change. -/
  holding : Bool := false
  /-- The calls made, oldest first. -/
  deliveries : List Delivery := []

namespace SharedBlackboard

def deliver (s : SharedBlackboard) (delivery : Delivery) : SharedBlackboard :=
  { s with deliveries := s.deliveries ++ [delivery] }

/-- Takes the events that were raised. -/
def takeRaised (s : SharedBlackboard) : List BlackboardEvent × SharedBlackboard :=
  (s.board.raised, { s with board := { s.board with raised := [] } })

/-- Tells the listeners that are not busy of the events raised by a change on the blackboard
itself. -/
def notifyAtOnce (busy : List Nat) (s : SharedBlackboard) : SharedBlackboard :=
  let (events, s) := s.takeRaised
  let tell (event : BlackboardEvent) (s : SharedBlackboard) (l : Listener) : SharedBlackboard :=
    if busy.contains l.id then s else s.deliver ⟨l.id, event, none⟩
  events.foldl (fun s event => s.listeners.foldl (tell event) s) s

/-- Changes the blackboard itself. While events are held back, those of this change wait too. -/
def changeDirectly (busy : List Nat) (change : Blackboard → Blackboard) (s : SharedBlackboard) :
    SharedBlackboard :=
  let s := { s with board := change s.board }
  if s.holding then s else s.notifyAtOnce busy

/-- Delivers events in rounds until none waits. A listener that is called has what it changes
through `transact` delivered before it is done. `fuel` bounds the rounds together with the depth
of calls inside calls. -/
def dispatch : Nat → List Nat → SharedBlackboard → SharedBlackboard
  | 0, _, s => s
  | fuel + 1, busy, s =>
    if s.board.raised.isEmpty then { s with holding := false }
    else
      let (events, s) := s.takeRaised
      let listeners := s.listeners
      let answer (l : Listener) (s : SharedBlackboard) (reaction : Reaction) : SharedBlackboard :=
        match reaction with
        | .transact change =>
          dispatch fuel (l.id :: busy) { s with board := change s.board, holding := true }
        | .direct change => s.changeDirectly (l.id :: busy) change
      let call (event : BlackboardEvent) (s : SharedBlackboard) (l : Listener) :
          SharedBlackboard :=
        if busy.contains l.id then s
        else
          let reactions := l.react event s.board
          reactions.foldl (answer l) (s.deliver ⟨l.id, event, some s.board⟩)
      dispatch fuel busy (events.foldl (fun s event => listeners.foldl (call event) s) s)

/-- Listeners that answer through `transact` alone need two rounds at each depth, and no depth has
a listener busy twice. Listeners that answer on the blackboard itself may need any number, and
sixty-four more are granted. -/
def dispatchBound (s : SharedBlackboard) : Nat := s.listeners.length + 67

/-- Changes the blackboard and then delivers the events of the change, as far as the bound goes. -/
def transact {α : Type} (s : SharedBlackboard) (change : Blackboard → α × Blackboard) :
    α × SharedBlackboard :=
  let (result, board) := change s.board
  (result, dispatch s.dispatchBound [] { s with board := board, holding := true })

/-- A change that may fail, in which case nothing happens. -/
def transactExcept {ε α : Type} (s : SharedBlackboard)
    (change : Blackboard → Except ε (α × Blackboard)) : Except ε (α × SharedBlackboard) := do
  let (result, board) ← change s.board
  return s.transact fun _ => (result, board)

/-- Changes the blackboard with its events delivered at once. -/
def direct {α : Type} (s : SharedBlackboard) (change : Blackboard → α × Blackboard) :
    α × SharedBlackboard :=
  let (result, board) := change s.board
  (result, s.changeDirectly [] fun _ => board)

/-- Adds a listener and gives its id. -/
def subscribe (s : SharedBlackboard) (react : BlackboardEvent → Blackboard → List Reaction) :
    Nat × SharedBlackboard :=
  (s.nextListener, { s with
    listeners := s.listeners ++ [⟨s.nextListener, react⟩]
    nextListener := s.nextListener + 1 })

/-- Removes a listener; `false` if there is none of this id. -/
def unsubscribe (s : SharedBlackboard) (id : Nat) : Bool × SharedBlackboard :=
  (s.listeners.any fun l => l.id == id,
    { s with listeners := s.listeners.filter fun l => l.id != id })

/-- Takes the list of calls made. -/
def drain (s : SharedBlackboard) : List Delivery × SharedBlackboard :=
  (s.deliveries, { s with deliveries := [] })

end SharedBlackboard

end BehaviorTree
