import BehaviorTree.Blackboard.Shared
import BehaviorTree.Proofs.Blackboard.Typing

/-!
# What listeners do to a blackboard

A change of a shared blackboard sets off reactions of listeners, reactions to these, and so on.
Whatever can be said of each single step can be said of the whole (`dispatch_leads`), however deep
the calls go and in whichever order they come. Two things are said of it here: if each listener
makes nothing but changes of a blackboard, then nothing else happens (`transact_follows`), and if
the listeners leave the blackboard as it is when they are told of the change, then it is left as the
change made it (`transact_unmoved`).

`dispatch_leads` holds of every bound. What is said of `transact` is said with its bound: where
listeners keep answering on the blackboard itself, of the change with what came of it until delivery
is cut off. Listeners that leave the blackboard as it is have nothing cut off.
-/

namespace BehaviorTree

/-- What a reaction does to the blackboard. -/
def Reaction.change : Reaction → Blackboard → Blackboard
  | .transact change => change
  | .direct change => change

namespace Listener

/-- A listener that does to the blackboard only what a relation allows. -/
def Obeys (R : Blackboard → Blackboard → Prop) (l : Listener) : Prop :=
  ∀ event board, ∀ reaction ∈ l.react event board, ∀ b, R b (reaction.change b)

/-- A listener that makes nothing but changes. -/
def Lawful (own : List BlackboardSnapshot) (l : Listener) : Prop :=
  ∀ event board, ∀ reaction ∈ l.react event board, ∀ b, Blackboard.Changes own b (reaction.change b)

/-- A listener that leaves the blackboard as it is. -/
def Unchanging (l : Listener) : Prop :=
  ∀ event board, ∀ reaction ∈ l.react event board, ∀ b, reaction.change b = b

end Listener

namespace Blackboard

/-- A relation that can be followed from step to step, and past the delivery of events. -/
structure Carried (R : Blackboard → Blackboard → Prop) : Prop where
  refl (b : Blackboard) : R b b
  trans {a b c : Blackboard} : R a b → R b c → R a c
  takeRaised (b : Blackboard) : R b { b with raised := [] }

theorem Carried.changes (own : List BlackboardSnapshot) : Carried (Changes own) where
  refl _ := .refl
  trans := .trans
  takeRaised _ := .single .takeRaised

/-- A blackboard without the events that were raised. -/
def contents (b : Blackboard) : Blackboard := { b with raised := [] }

/-- Nothing happened, unless there were events to be delivered. -/
def Rests (b b' : Blackboard) : Prop := b.raised = [] → b' = b

theorem Carried.rests : Carried Rests where
  refl _ _ := rfl
  trans first second quiet := by
    obtain rfl := first quiet
    exact second quiet
  takeRaised b quiet := by rw [← quiet]

theorem Carried.any : Carried fun _ _ => True :=
  ⟨fun _ => trivial, fun _ _ => trivial, fun _ => trivial⟩

end Blackboard

namespace SharedBlackboard

/-- All listeners make nothing but changes. -/
def Lawful (own : List BlackboardSnapshot) (s : SharedBlackboard) : Prop :=
  ∀ l ∈ s.listeners, l.Lawful own

/-- All listeners leave the blackboard as it is. -/
def Unchanging (s : SharedBlackboard) : Prop := ∀ l ∈ s.listeners, l.Unchanging

/-- Between two states lie changes of the blackboard, and the listeners are the same. -/
structure Follows (own : List BlackboardSnapshot) (s s' : SharedBlackboard) : Prop where
  changes : Blackboard.Changes own s.board s'.board
  listeners : s'.listeners = s.listeners

/-- Two states differ at most in the calls of listeners that were made, and in the id of the next
listener. -/
def Agrees (s s' : SharedBlackboard) : Prop :=
  ∃ next deliveries, s' = { s with nextListener := next, deliveries := deliveries }

/-! ## Telling of events on the spot -/

section Agrees

variable {s s' s₁ s₂ s₃ : SharedBlackboard}

theorem agrees_iff : Agrees s s' ↔
    s'.board = s.board ∧ s'.listeners = s.listeners ∧ s'.holding = s.holding := by
  constructor
  · rintro ⟨next, deliveries, rfl⟩
    exact ⟨rfl, rfl, rfl⟩
  · obtain ⟨board, listeners, next, holding, deliveries⟩ := s'
    rintro ⟨rfl, rfl, rfl⟩
    exact ⟨next, deliveries, rfl⟩

theorem Agrees.refl (s : SharedBlackboard) : Agrees s s := ⟨_, _, rfl⟩

theorem Agrees.symm (agrees : Agrees s s') : Agrees s' s := by
  obtain ⟨next, deliveries, rfl⟩ := agrees
  exact ⟨_, _, rfl⟩

theorem Agrees.trans (first : Agrees s₁ s₂) (second : Agrees s₂ s₃) : Agrees s₁ s₃ := by
  obtain ⟨next, deliveries, rfl⟩ := first
  obtain ⟨next, deliveries, rfl⟩ := second
  exact ⟨_, _, rfl⟩

theorem agrees_deliver (s : SharedBlackboard) (delivery : Delivery) :
    Agrees s (s.deliver delivery) :=
  ⟨_, _, rfl⟩

/-- Steps that do nothing else but call listeners do nothing else together. -/
theorem agrees_foldl {α : Type} {f : SharedBlackboard → α → SharedBlackboard}
    (step : ∀ s x, Agrees s (f s x)) (s : SharedBlackboard) (xs : List α) :
    Agrees s (xs.foldl f s) := by
  induction xs generalizing s with
  | nil => exact .refl s
  | cons x rest ih => exact (step s x).trans (ih (f s x))

/-- Listeners that are told of events on the spot do nothing about them. -/
theorem agrees_notifyAtOnce (busy : List Nat) (s : SharedBlackboard) :
    Agrees s.takeRaised.2 (s.notifyAtOnce busy) := by
  refine agrees_foldl (fun s event => agrees_foldl (fun s l => ?_) s s.listeners) _ _
  split
  · exact .refl s
  · exact agrees_deliver s _

/-- A change of the blackboard itself is the change alone. -/
theorem agrees_changeDirectly (busy : List Nat) (change : Blackboard → Blackboard)
    (s : SharedBlackboard) : Agrees { s with
      board := if s.holding then change s.board else (change s.board).contents }
      (s.changeDirectly busy change) := by
  unfold changeDirectly
  dsimp only
  split
  · exact .refl _
  · exact agrees_notifyAtOnce busy _

end Agrees

/-- A relation leads from the blackboard of one state to that of another one, and the listeners
are the same. -/
structure Leads (R : Blackboard → Blackboard → Prop) (s s' : SharedBlackboard) : Prop where
  board : R s.board s'.board
  listeners : s'.listeners = s.listeners

/-! ## From step to step -/

section Leads

variable {R : Blackboard → Blackboard → Prop} {s s' : SharedBlackboard}

theorem Leads.refl (carried : Blackboard.Carried R) (s : SharedBlackboard) : Leads R s s :=
  ⟨carried.refl _, rfl⟩

theorem Leads.trans {s₁ s₂ s₃ : SharedBlackboard} (first : Leads R s₁ s₂)
    (carried : Blackboard.Carried R) (second : Leads R s₂ s₃) : Leads R s₁ s₃ :=
  ⟨carried.trans first.board second.board, second.listeners.trans first.listeners⟩

/-- Steps of which each leads on from the one before lead on together. -/
theorem Leads.foldl {α : Type} {f : SharedBlackboard → α → SharedBlackboard} {xs : List α}
    (carried : Blackboard.Carried R)
    (step : ∀ s', s'.listeners = s.listeners → ∀ x ∈ xs, Leads R s' (f s' x)) :
    Leads R s (xs.foldl f s) := by
  induction xs generalizing s with
  | nil => exact .refl carried s
  | cons x rest ih =>
    have first := step s rfl x List.mem_cons_self
    refine first.trans carried (ih fun s' same y member => ?_)
    exact step s' (same.trans first.listeners) y (List.mem_cons_of_mem _ member)

theorem takeRaised_leads (carried : Blackboard.Carried R) : Leads R s s.takeRaised.2 :=
  ⟨carried.takeRaised _, rfl⟩

theorem Agrees.leads (agrees : Agrees s s') (carried : Blackboard.Carried R) : Leads R s s' := by
  obtain ⟨next, deliveries, rfl⟩ := agrees
  exact ⟨carried.refl s.board, rfl⟩

theorem changeDirectly_leads (carried : Blackboard.Carried R) (busy : List Nat)
    {change : Blackboard → Blackboard} (changed : R s.board (change s.board)) :
    Leads R s (s.changeDirectly busy change) := by
  have first : Leads R s { s with
      board := if s.holding then change s.board else (change s.board).contents } := by
    refine ⟨?_, rfl⟩
    dsimp only
    split
    · exact changed
    · exact carried.trans changed (carried.takeRaised _)
  exact first.trans carried ((agrees_changeDirectly busy change s).leads carried)

/-- While events wait, they are taken and the listeners are called, and then it goes on. The calls
lead where every listener that is told of these events and everything that it sets off leads. -/
theorem dispatch_succ (carried : Blackboard.Carried R)
    (obey : ∀ l ∈ s.listeners, ∀ event ∈ s.board.raised, ∀ seen,
      ∀ reaction ∈ l.react event seen, ∀ b, R b (reaction.change b))
    (waits : s.board.raised.isEmpty = false) (fuel : Nat) (busy : List Nat)
    (below : ∀ (s' : SharedBlackboard) (busy : List Nat), s'.listeners = s.listeners →
      Leads R s' (dispatch fuel busy s')) :
    ∃ s', dispatch (fuel + 1) busy s = dispatch fuel busy s' ∧ Leads R s.takeRaised.2 s' := by
  rw [dispatch, if_neg (by simp [waits])]
  refine ⟨_, rfl, .foldl carried fun s₁ same₁ event raised =>
    .foldl carried fun s₂ same₂ l listed => ?_⟩
  dsimp only
  split
  · exact .refl carried s₂
  · -- A listener is called: it decides on its reactions first and then makes them in turn.
    have called := (agrees_deliver s₂ ⟨l.id, event, some s₂.board⟩).leads carried
    refine called.trans carried (.foldl carried fun s₃ same₃ reaction member => ?_)
    have obeyed := obey l listed event raised s₂.board reaction member s₃.board
    have same : s₃.listeners = s.listeners := same₃.trans (same₂.trans same₁)
    cases reaction with
    | transact change =>
      have first : Leads R s₃ { s₃ with board := change s₃.board, holding := true } := ⟨obeyed, rfl⟩
      exact first.trans carried (below _ _ same)
    | direct change => exact changeDirectly_leads carried _ obeyed

/-- Delivering events leads where every listener leads. -/
theorem dispatch_leads (carried : Blackboard.Carried R) (obey : ∀ l ∈ s.listeners, l.Obeys R)
    (fuel : Nat) (busy : List Nat) : Leads R s (dispatch fuel busy s) := by
  induction fuel generalizing s busy with
  | zero => exact .refl carried s
  | succ fuel ih =>
    have below (s' : SharedBlackboard) (busy : List Nat) (same : s'.listeners = s.listeners) :
        Leads R s' (dispatch fuel busy s') := ih (same ▸ obey) busy
    cases waits : s.board.raised.isEmpty with
    | true =>
      rw [dispatch, if_pos waits]
      exact ⟨carried.refl _, rfl⟩
    | false =>
      obtain ⟨s', eq, round⟩ := dispatch_succ carried (fun l listed event _ => obey l listed event)
        waits fuel busy below
      have taken : Leads R s s' := (takeRaised_leads carried).trans carried round
      rw [eq]
      exact taken.trans carried (below s' busy taken.listeners)

/-- A change with everything that it sets off. -/
theorem transact_leads (carried : Blackboard.Carried R) (obey : ∀ l ∈ s.listeners, l.Obeys R)
    {α : Type} {change : Blackboard → α × Blackboard} (changed : R s.board (change s.board).2) :
    Leads R s (s.transact change).2 := by
  have first : Leads R s { s with board := (change s.board).2, holding := true } := ⟨changed, rfl⟩
  exact first.trans carried (dispatch_leads carried (first.listeners ▸ obey) s.dispatchBound [])

theorem transact_listeners (s : SharedBlackboard) {α : Type}
    (change : Blackboard → α × Blackboard) :
    (s.transact change).2.listeners = s.listeners :=
  (transact_leads .any (fun _ _ _ _ _ _ _ => trivial) trivial).listeners

theorem direct_board (s : SharedBlackboard) {α : Type} (change : Blackboard → α × Blackboard) :
    (s.direct change).2.board =
        (if s.holding then (change s.board).2 else (change s.board).2.contents) ∧
      (s.direct change).2.holding = s.holding := by
  obtain ⟨board, -, holding⟩ :=
    agrees_iff.1 (agrees_changeDirectly [] (fun _ => (change s.board).2) s)
  exact ⟨board, holding⟩

theorem direct_listeners (s : SharedBlackboard) {α : Type} (change : Blackboard → α × Blackboard) :
    (s.direct change).2.listeners = s.listeners :=
  (changeDirectly_leads .any [] trivial).listeners

end Leads

/-! ## Listeners that make nothing but changes -/

section Follows

variable {own : List BlackboardSnapshot} {s : SharedBlackboard}

theorem changeDirectly_follows (busy : List Nat) {change : Blackboard → Blackboard}
    (changed : Blackboard.Changes own s.board (change s.board)) :
    Follows own s (s.changeDirectly busy change) := by
  obtain ⟨changes, listeners⟩ := changeDirectly_leads (.changes own) busy changed
  exact ⟨changes, listeners⟩

/-- A change with everything that it sets off is nothing but changes. -/
theorem transact_follows {α : Type} (lawful : s.Lawful own)
    {change : Blackboard → α × Blackboard}
    (changed : Blackboard.Changes own s.board (change s.board).2) :
    Follows own s (s.transact change).2 := by
  obtain ⟨changes, listeners⟩ := transact_leads (.changes own) lawful changed
  exact ⟨changes, listeners⟩

end Follows

/-! ## Listeners that leave the blackboard as it is -/

section Unchanging

variable {s : SharedBlackboard}

/-- The listeners leave the blackboard as it is when they are told of some events. -/
def UnmovedBy (s : SharedBlackboard) (events : List BlackboardEvent) : Prop :=
  ∀ l ∈ s.listeners, ∀ event ∈ events, ∀ seen, ∀ reaction ∈ l.react event seen, ∀ b,
    reaction.change b = b

theorem Unchanging.unmovedBy (unchanging : s.Unchanging) (events : List BlackboardEvent) :
    s.UnmovedBy events :=
  fun l listed event _ => unchanging l listed event

theorem dispatch_rests (fuel : Nat) (busy : List Nat) :
    Leads Blackboard.Rests s (dispatch fuel busy s) := by
  refine ⟨fun quiet => ?_, (dispatch_leads .any (fun _ _ _ _ _ _ _ => trivial) fuel busy).listeners⟩
  cases fuel with
  | zero => rfl
  | succ fuel => rw [dispatch, if_pos (by rw [quiet]; rfl)]

/-- When all events are delivered, nothing else has happened to the blackboard, and no event is
held back any more. -/
theorem dispatch_unmoved (unmoved : s.UnmovedBy s.board.raised) (fuel : Nat) (busy : List Nat) :
    (dispatch (fuel + 2) busy s).board = s.board.contents ∧
      (dispatch (fuel + 2) busy s).holding = false := by
  cases waits : s.board.raised.isEmpty with
  | true =>
    have empty : s.board.raised = [] := List.isEmpty_iff.1 waits
    rw [dispatch, if_pos waits, Blackboard.contents, ← empty]
    exact ⟨rfl, rfl⟩
  | false =>
    -- After one round nothing waits: what the listeners did has raised nothing.
    obtain ⟨s', eq, rests, -⟩ := dispatch_succ .rests
      (fun l listed event raised seen reaction member b _ =>
        unmoved l listed event raised seen reaction member b)
      waits (fuel + 1) busy fun s' busy _ => dispatch_rests (fuel + 1) busy
    have board : s'.board = s.board.contents := rests rfl
    rw [eq, dispatch, if_pos (by rw [board]; rfl)]
    exact ⟨board, rfl⟩

/-- A change with everything that it sets off is the change alone. -/
theorem transact_unmoved {α : Type} {change : Blackboard → α × Blackboard}
    (unmoved : s.UnmovedBy (change s.board).2.raised) :
    (s.transact change).2.board = (change s.board).2.contents ∧
      (s.transact change).2.holding = false := by
  let held : SharedBlackboard := { s with board := (change s.board).2, holding := true }
  have unmoved : held.UnmovedBy held.board.raised := unmoved
  exact dispatch_unmoved unmoved (s.listeners.length + 65) []

theorem transact_contents (unchanging : s.Unchanging) {α : Type}
    (change : Blackboard → α × Blackboard) :
    (s.transact change).2.board = (change s.board).2.contents ∧
      (s.transact change).2.holding = false :=
  transact_unmoved (unchanging.unmovedBy _)

end Unchanging

/-! ## What was delivered before -/

section Agrees

variable {s s' : SharedBlackboard}

theorem Agrees.foldl {α : Type} {f : SharedBlackboard → α → SharedBlackboard}
    (agrees : Agrees s s')
    (step : ∀ {s s' : SharedBlackboard}, Agrees s s' → ∀ x, Agrees (f s x) (f s' x))
    (xs : List α) : Agrees (xs.foldl f s) (xs.foldl f s') := by
  induction xs generalizing s s' with
  | nil => exact agrees
  | cons x rest ih => exact ih (step agrees x)

theorem Agrees.takeRaised (agrees : Agrees s s') : Agrees s.takeRaised.2 s'.takeRaised.2 := by
  obtain ⟨next, deliveries, rfl⟩ := agrees
  exact ⟨next, deliveries, rfl⟩

theorem Agrees.changeDirectly (agrees : Agrees s s') (busy : List Nat)
    (change : Blackboard → Blackboard) :
    Agrees (s.changeDirectly busy change) (s'.changeDirectly busy change) := by
  refine (agrees_changeDirectly busy change s).symm.trans
    (.trans ?_ (agrees_changeDirectly busy change s'))
  obtain ⟨next, deliveries, rfl⟩ := agrees
  exact ⟨next, deliveries, rfl⟩

theorem Agrees.dispatch (agrees : Agrees s s') (fuel : Nat) (busy : List Nat) :
    Agrees (s.dispatch fuel busy) (s'.dispatch fuel busy) := by
  induction fuel generalizing s s' busy with
  | zero => exact agrees
  | succ fuel ih =>
    obtain ⟨next, deliveries, rfl⟩ := agrees
    rw [SharedBlackboard.dispatch, SharedBlackboard.dispatch]
    dsimp only
    split
    · exact ⟨next, deliveries, rfl⟩
    · have same : Agrees s { s with nextListener := next, deliveries := deliveries } := ⟨_, _, rfl⟩
      refine ih ?_ busy
      refine same.takeRaised.foldl (fun agrees event => ?_) s.board.raised
      refine agrees.foldl (fun agrees l => ?_) s.listeners
      split
      · exact agrees
      · -- The listener sees the same blackboard, so its reactions are the same.
        obtain ⟨board, -⟩ := agrees_iff.1 agrees
        rw [board]
        refine Agrees.foldl ?_ (fun agrees reaction => ?_) _
        · exact (agrees_deliver _ _).symm.trans (agrees.trans (agrees_deliver _ _))
        cases reaction with
        | transact change =>
          refine ih ?_ _
          obtain ⟨next, deliveries, rfl⟩ := agrees
          exact ⟨next, deliveries, rfl⟩
        | direct change => exact agrees.changeDirectly _ change

theorem Agrees.transact (agrees : Agrees s s') {α : Type} (change : Blackboard → α × Blackboard) :
    (s'.transact change).1 = (s.transact change).1 ∧
      Agrees (s.transact change).2 (s'.transact change).2 := by
  obtain ⟨next, deliveries, rfl⟩ := agrees
  exact ⟨rfl, .dispatch ⟨next, deliveries, rfl⟩ s.dispatchBound []⟩

end Agrees

end SharedBlackboard

end BehaviorTree
