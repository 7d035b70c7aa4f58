import BehaviorTree.Proofs.Blackboard.Record
import Mathlib.Data.List.Nodup
import Mathlib.Data.List.Range

/-!
# Rounds of calls

A round calls each listener that is not busy once about each event that waited, and whatever the
answers set off is about later events. That is said in two relations between records: `Extends` for
any piece of a delivery, which composes, and `Delivers` for a delivery as a whole. An event that is
delivered by the change that raised it is settled: every listener heard of it once, except for those
in the middle of a call. What a listener raises on the blackboard itself while events are held back
waits for a later round, in which others may be busy; nothing is said of that.
-/

namespace BehaviorTree

/-- A change that raises its events after those that wait already. -/
def Blackboard.Additive (change : Blackboard → Blackboard) : Prop :=
  ∀ b, b.raised <+: (change b).raised

namespace Blackboard

variable {b b' : Blackboard}

@[simp]
theorem raised_withVars (b : Blackboard) (scope : Scope) (vars : Dict Variable) :
    (b.withVars scope vars).raised = b.raised := by
  cases scope <;> rfl

/-- What is raised comes after what waits. -/
theorem prefix_raise (same : b'.raised = b.raised) (event : BlackboardEvent) :
    b.raised <+: (b'.raise event).raised :=
  ⟨[event], congrArg (· ++ [event]) same.symm⟩

theorem prefix_set (b : Blackboard) (name : String) (value : Value) (scope : Scope) :
    b.raised <+: (b.set name value scope).2.raised := by
  unfold Blackboard.set
  split <;> exact prefix_raise (raised_withVars ..) _

theorem prefix_applyQueue (b : Blackboard) : b.raised <+: b.applyQueue.2.raised := by
  have fold (writes : List QueuedWrite) (state : List TypeChange × Blackboard) :
      state.2.raised <+: (writes.foldl applyWrite state).2.raised := by
    induction writes generalizing state with
    | nil => exact List.prefix_refl _
    | cons write rest ih =>
      exact (prefix_set state.2 write.name write.value write.scope).trans (ih (applyWrite state write))
  exact fold b.queue ([], { b with queue := [] })

/-- Nothing but the delivery of events takes events away. -/
theorem Change.prefix_or_taken {own : List BlackboardSnapshot} (change : Change own b b') :
    b.raised <+: b'.raised ∨ b' = { b with raised := [] } := by
  cases change with
  | define done =>
    obtain ⟨-, -, rfl⟩ := define_eq_ok.1 done
    exact .inl (prefix_raise (raised_withVars ..) _)
  | set name value scope => exact .inl (prefix_set b name value scope)
  | remove name scope =>
    left
    unfold Blackboard.remove
    split
    · exact List.prefix_refl _
    · exact prefix_raise (raised_withVars ..) _
  | rename done =>
    left
    rw [Blackboard.rename, Checks.guard_eq_ok] at done
    obtain ⟨-, done⟩ := done
    split at done
    · cases done
    · obtain rfl := Except.ok.inj done
      exact prefix_raise (raised_withVars ..) _
  | restore taken =>
    refine .inl (prefix_raise ?_ _)
    rfl
  | enqueue name value scope => exact .inl (List.prefix_refl _)
  | applyQueue => exact .inl b.prefix_applyQueue
  | takeRaised => exact .inr rfl

end Blackboard

/-- A listener whose changes raise their events after those that wait already. -/
def Listener.Additive (l : Listener) : Prop :=
  ∀ event board, ∀ reaction ∈ l.react event board, Blackboard.Additive reaction.change

namespace Recorded

variable {r r' r'' : Recorded} {before : List Delivery} {busy callers : List Nat} {held : Bool}
  {told told' : List (Nat × Nat)} {n : Nat}

/-! ## What the record says -/

/-- What the record says about a call: the event and the listener. -/
def callOf (r : Recorded) (c : Nat × Nat) : Option BlackboardEvent × Nat :=
  ((r.raisings[c.1]?).map (·.event), c.2)

/-- The record agrees with the events that wait and with the calls made since it was begun. -/
structure Coherent (before : List Delivery) (r : Recorded) : Prop where
  waiting : r.shared.board.raised <:+ r.raisings.map (·.event)
  called : ∀ c ∈ r.calls, c.1 < r.firstWaiting
  delivered : r.shared.deliveries.map (fun d => (some d.event, d.listener)) =
    before.map (fun d => (some d.event, d.listener)) ++ r.calls.map r.callOf

/-- An event stands on the record under its number and does not wait any more. -/
def Past (r : Recorded) (event : BlackboardEvent × Nat) : Prop :=
  event.2 < r.firstWaiting ∧ (r.raisings[event.2]?).map (·.event) = some event.1

/-- An event was delivered once to every listener, except for those in the middle of a call when it
was raised. -/
def Settled (r : Recorded) (n : Nat) (e : Raising) : Prop :=
  n < r.firstWaiting ∧ ∀ l ∈ r.shared.listeners,
    r.calls.count (n, l.id) = if l.id ∈ e.callers then 0 else 1

/-- One record continues another. -/
structure Continues (before : List Delivery) (r r' : Recorded) : Prop where
  coherent : r'.Coherent before
  listeners : r'.shared.listeners = r.shared.listeners
  raisings : r.raisings <+: r'.raisings
  first : r.firstWaiting ≤ r'.firstWaiting

/-- About the events that did not wait any more, just the calls in `told` were made; and all events
raised since are settled that were not raised on the blackboard itself while others were held back. -/
structure Extends (before : List Delivery) (told : List (Nat × Nat)) (r r' : Recorded) : Prop
    extends Continues before r r' where
  calls : r'.calls.filter (·.1 < r.firstWaiting) = r.calls ++ told
  settled : ∀ n e, r.raisings.length ≤ n → r'.raisings[n]? = some e → e.held = false →
    r'.Settled n e

/-- The events that waited were delivered to every listener that was not busy, in their order. -/
structure Delivers (before : List Delivery) (busy : List Nat) (r r' : Recorded) : Prop
    extends Extends before [] r r' where
  all : r.raisings.length ≤ r'.firstWaiting
  told : ∀ l ∈ r.shared.listeners, (r'.calls.filter fun c =>
      c.2 = l.id ∧ r.firstWaiting ≤ c.1 ∧ c.1 < r.raisings.length).map (·.1) =
    if l.id ∈ busy then [] else List.range' r.firstWaiting r.shared.board.raised.length

theorem firstWaiting_le (r : Recorded) : r.firstWaiting ≤ r.raisings.length := Nat.sub_le ..

theorem Coherent.firstWaiting_add (coherent : r.Coherent before) :
    r.firstWaiting + r.shared.board.raised.length = r.raisings.length := by
  have short := coherent.waiting.length_le
  rw [List.length_map] at short
  exact Nat.sub_add_cancel short

/-- An event keeps its number. -/
theorem getElem?_of_grown (raisings : r.raisings <+: r'.raisings) (old : n < r.raisings.length) :
    r'.raisings[n]? = r.raisings[n]? := by
  obtain ⟨more, eq⟩ := raisings
  rw [← eq, List.getElem?_append_left old]

/-- What is said about an old call stays as it is. -/
theorem callOf_eq_of_grown (raisings : r.raisings <+: r'.raisings) {c : Nat × Nat}
    (old : c.1 < r.raisings.length) : r'.callOf c = r.callOf c := by
  rw [callOf, callOf, getElem?_of_grown raisings old]

/-- Filtering twice keeps what both conditions let through. -/
theorem filter_filter_of_iff {p q both : Nat × Nat → Prop} [DecidablePred p] [DecidablePred q]
    [DecidablePred both] (iff : ∀ c, p c ∧ q c ↔ both c) (calls : List (Nat × Nat)) :
    (calls.filter (q ·)).filter (p ·) = calls.filter (both ·) := by
  rw [List.filter_filter]
  apply List.filter_congr
  intro c _
  rw [← Bool.decide_and, decide_eq_decide]
  exact iff c

/-! ## Continuing -/

theorem Continues.refl (coherent : r.Coherent before) : Continues before r r :=
  ⟨coherent, rfl, List.prefix_refl _, Nat.le_refl _⟩

theorem Continues.trans (first : Continues before r r') (second : Continues before r' r'') :
    Continues before r r'' where
  coherent := second.coherent
  listeners := second.listeners.trans first.listeners
  raisings := first.raisings.trans second.raisings
  first := first.first.trans second.first

theorem Coherent.calls_filter (coherent : r.Coherent before) {bound : Nat}
    (le : r.firstWaiting ≤ bound) : r.calls.filter (·.1 < bound) = r.calls :=
  List.filter_eq_self.2 fun c member => decide_eq_true ((coherent.called c member).trans_le le)

/-- No call is about an event that waits. -/
theorem Coherent.filter_eq_nil (coherent : r.Coherent before) {late : Nat × Nat → Prop}
    [DecidablePred late] (waits : ∀ c, late c → r.firstWaiting ≤ c.1) :
    r.calls.filter (late ·) = [] := by
  apply List.filter_eq_nil_iff.2
  intro c member holds
  have := coherent.called c member
  have := waits c (of_decide_eq_true holds)
  omega

theorem Extends.refl (coherent : r.Coherent before) : Extends before [] r r where
  toContinues := .refl coherent
  calls := by rw [coherent.calls_filter (Nat.le_refl _), List.append_nil]
  settled n e new found := by
    obtain ⟨bound, -⟩ := List.getElem?_eq_some_iff.1 found
    omega

/-- Calls about later events do not count for earlier ones. -/
theorem count_of_filter {bound : Nat} {calls old : List (Nat × Nat)}
    (eq : calls.filter (·.1 < bound) = old) (below : n < bound) (l : Nat) :
    calls.count (n, l) = old.count (n, l) := by
  rw [← eq, List.count_filter (by simpa using below)]

theorem filter_filter_lt {low high : Nat} (le : low ≤ high) (calls : List (Nat × Nat)) :
    (calls.filter (·.1 < high)).filter (·.1 < low) = calls.filter (·.1 < low) := by
  apply filter_filter_of_iff
  intro c
  omega

theorem Extends.trans (first : Extends before told r r') (second : Extends before told' r' r'')
    (older : ∀ c ∈ told', c.1 < r.firstWaiting) : Extends before (told ++ told') r r'' where
  toContinues := first.toContinues.trans second.toContinues
  calls := by
    have all : told'.filter (·.1 < r.firstWaiting) = told' :=
      List.filter_eq_self.2 fun c member => decide_eq_true (older c member)
    rw [← filter_filter_lt first.first, second.calls, List.filter_append, first.calls, all,
      List.append_assoc]
  settled n e new found free := by
    by_cases later : r'.raisings.length ≤ n
    · exact second.settled n e later found free
    · rw [getElem?_of_grown second.raisings (Nat.lt_of_not_le later)] at found
      obtain ⟨past, counts⟩ := first.settled n e new found free
      refine ⟨past.trans_le second.first, fun l listed => ?_⟩
      have none : told'.count (n, l.id) = 0 := List.count_eq_zero.2 fun member => by
        have := older _ member
        have := r.firstWaiting_le
        omega
      rw [count_of_filter second.calls past, List.count_append,
        counts l (second.listeners ▸ listed), none, Nat.add_zero]

/-- Steps of which each extends the record extend it together. -/
theorem extends_foldlM {α : Type} {f : Recorded → α → Option Recorded}
    (tell : α → List (Nat × Nat)) {xs : List α} (coherent : r.Coherent before)
    (step : ∀ x ∈ xs, ∀ r₁ r₂, Continues before r r₁ → f r₁ x = some r₂ →
      Extends before (tell x) r₁ r₂)
    (older : ∀ x ∈ xs, ∀ c ∈ tell x, c.1 < r.firstWaiting) (done : xs.foldlM f r = some r') :
    Extends before (xs.flatMap tell) r r' := by
  induction xs generalizing r with
  | nil =>
    obtain rfl := Option.some.inj done
    exact .refl coherent
  | cons x rest ih =>
    obtain ⟨r₁, first, others⟩ := foldlM_cons_eq_some.1 done
    have first := step x List.mem_cons_self r r₁ (.refl coherent) first
    have older' := fun y member => older y (List.mem_cons_of_mem x member)
    have later := ih first.coherent
      (fun y member r₂ r₃ continues =>
        step y (List.mem_cons_of_mem x member) r₂ r₃ (first.toContinues.trans continues))
      (fun y member c mem => (older' y member c mem).trans_le first.first) others
    refine first.trans later fun c member => ?_
    obtain ⟨y, listed, mem⟩ := List.mem_flatMap.1 member
    exact older' y listed c mem

/-! ## Steps -/

/-- A call about an event that does not wait any more. -/
theorem Coherent.extends_deliver (coherent : r.Coherent before) (delivery : Delivery)
    (past : r.Past (delivery.event, n)) :
    Extends before [(n, delivery.listener)] r (r.deliver n delivery) where
  coherent :=
    { waiting := coherent.waiting
      called := fun c member => by
        rcases List.mem_append.1 member with member | member
        · exact coherent.called c member
        · obtain rfl := List.mem_singleton.1 member
          exact past.1
      delivered := by
        have last : (r.deliver n delivery).callOf (n, delivery.listener) =
            (some delivery.event, delivery.listener) := congrArg (·, delivery.listener) past.2
        have same : (r.deliver n delivery).callOf = r.callOf := rfl
        simp only [deliver, SharedBlackboard.deliver, List.map_append, List.map_cons, List.map_nil]
        rw [coherent.delivered, List.append_assoc, ← last]
        rfl }
  listeners := rfl
  raisings := List.prefix_refl _
  first := Nat.le_refl _
  calls := by
    rw [deliver, List.filter_append, coherent.calls_filter (Nat.le_refl _)]
    simpa using past.1
  settled n e new found := by
    obtain ⟨bound, -⟩ := List.getElem?_eq_some_iff.1 found
    exact absurd bound (Nat.not_lt.2 new)

/-- A change puts the events that it raises at the end of those that wait and of the record. -/
theorem exists_change {change : Blackboard → Blackboard} (additive : Blackboard.Additive change)
    (r : Recorded) (callers : List Nat) (held : Bool) : ∃ new,
      (r.change callers held change).shared.board.raised = r.shared.board.raised ++ new ∧
      (r.change callers held change).raisings =
        r.raisings ++ new.map fun event => ⟨event, callers, held⟩ := by
  obtain ⟨new, eq⟩ := additive r.shared.board
  refine ⟨new, eq.symm, ?_⟩
  rw [Recorded.change]
  dsimp only
  rw [← eq, List.drop_left]

theorem Coherent.change {change : Blackboard → Blackboard} (coherent : r.Coherent before)
    (additive : Blackboard.Additive change) (callers : List Nat) (held : Bool) :
    Continues before r (r.change callers held change) ∧
      (r.change callers held change).firstWaiting = r.firstWaiting := by
  obtain ⟨new, raised, raisings⟩ := exists_change additive r callers held
  have grown : r.raisings <+: (r.change callers held change).raisings := ⟨_, raisings.symm⟩
  have first : (r.change callers held change).firstWaiting = r.firstWaiting := by
    rw [firstWaiting, firstWaiting, raised, raisings]
    simp only [List.length_append, List.length_map]
    omega
  refine ⟨⟨⟨?_, first ▸ coherent.called, ?_⟩, rfl, grown, first.ge⟩, first⟩
  · rw [raised, raisings, List.map_append, List.map_map]
    obtain ⟨early, split⟩ := coherent.waiting
    exact ⟨early, by rw [← split, List.append_assoc]; simp [Function.comp_def]⟩
  · refine coherent.delivered.trans (congrArg _ (List.map_congr_left fun c member => ?_))
    exact (callOf_eq_of_grown grown ((coherent.called c member).trans_le r.firstWaiting_le)).symm

/-- Of events that are held back nothing is said but that they wait. -/
theorem Coherent.extends_change {change : Blackboard → Blackboard} (coherent : r.Coherent before)
    (additive : Blackboard.Additive change) :
    Extends before [] r (r.change callers true change) where
  toContinues := (coherent.change additive callers true).1
  calls := (coherent.calls_filter (Nat.le_refl _)).trans (List.append_nil _).symm
  settled n e new found free := by
    obtain ⟨events, -, raisings⟩ := exists_change additive r callers true
    rw [raisings, List.getElem?_append_right new] at found
    obtain ⟨event, -, rfl⟩ := List.mem_map.1 (List.mem_of_getElem? found)
    cases free

/-- The calls of one listener, counted for one event. -/
theorem count_calls {calls : List (Nat × Nat)} {low high : Nat} (l : Nat) (ge : low ≤ n)
    (lt : n < high) : calls.count (n, l) =
      ((calls.filter fun c => c.2 = l ∧ low ≤ c.1 ∧ c.1 < high).map (·.1)).count n := by
  rw [List.count_eq_countP, List.count_eq_countP, List.countP_map, List.countP_filter]
  refine List.countP_congr fun c _ => ?_
  simp only [beq_iff_eq, Function.comp_apply, Bool.and_eq_true, decide_eq_true_eq, Prod.ext_iff]
  constructor
  · rintro ⟨rfl, rfl⟩
    exact ⟨rfl, rfl, ge, lt⟩
  · rintro ⟨rfl, rfl, -⟩
    exact ⟨rfl, rfl⟩

/-- Events that are raised and delivered while nobody but their callers is busy are settled. -/
theorem Coherent.extends_of_delivers {change : Blackboard → Blackboard}
    (coherent : r.Coherent before) (additive : Blackboard.Additive change)
    (delivers : Delivers before callers (r.change callers false change) r') :
    Extends before [] r r' := by
  obtain ⟨continues, first⟩ := coherent.change additive callers false
  obtain ⟨new, raised, raisings⟩ := exists_change additive r callers false
  refine ⟨continues.trans delivers.toContinues, ?_, fun n e late found free => ?_⟩
  · rw [← first, delivers.calls]
    rfl
  · -- The events of the change itself waited when the delivery began; later ones it settled.
    by_cases later : (r.change callers false change).raisings.length ≤ n
    · exact delivers.settled n e later found free
    · have caused : e.callers = callers := by
        rw [getElem?_of_grown delivers.raisings (Nat.lt_of_not_le later), raisings,
          List.getElem?_append_right late] at found
        obtain ⟨event, -, rfl⟩ := List.mem_map.1 (List.mem_of_getElem? found)
        rfl
      have total := continues.coherent.firstWaiting_add
      have ge : (r.change callers false change).firstWaiting ≤ n := by
        have := r.firstWaiting_le
        omega
      refine ⟨(Nat.lt_of_not_le later).trans_le delivers.all, fun l listed => ?_⟩
      rw [count_calls l.id ge (Nat.lt_of_not_le later),
        delivers.told l (delivers.listeners ▸ listed), caused]
      split
      · rfl
      · exact List.count_eq_one_of_mem (List.nodup_range' ..) (List.mem_range'_1.2 (by omega))

/-! ## Rounds -/

/-- The calls of a round about the event of a number. -/
def roundCalls (busy ids : List Nat) (n : Nat) : List (Nat × Nat) :=
  (ids.filter (!busy.contains ·)).map (n, ·)

theorem roundCalls_eq_flatMap (busy : List Nat) (n : Nat) (listeners : List Listener) :
    roundCalls busy (listeners.map (·.id)) n =
      listeners.flatMap fun l => if busy.contains l.id then [] else [(n, l.id)] := by
  induction listeners with
  | nil => rfl
  | cons l rest ih =>
    rw [List.map_cons, List.flatMap_cons, ← ih, roundCalls, roundCalls, List.filter_cons]
    cases busy.contains l.id <;> rfl

/-- One listener is called about each event once, if it is not busy. -/
theorem filter_roundCalls {ids numbers : List Nat} {low l : Nat} (distinct : ids.Nodup)
    (listed : l ∈ ids) (ge : ∀ n ∈ numbers, low ≤ n) :
    ((numbers.flatMap (roundCalls busy ids)).filter fun c => c.2 = l ∧ low ≤ c.1).map (·.1) =
      if l ∈ busy then [] else numbers := by
  induction numbers with
  | nil => simp
  | cons n rest ih =>
    obtain ⟨here, ge⟩ := List.forall_mem_cons.1 ge
    have own : ((roundCalls busy ids n).filter fun c => c.2 = l ∧ low ≤ c.1).map (·.1) =
        if l ∈ busy then [] else [n] := by
      have single : ids.filter (· = l) = [l] := by
        rw [List.filter_eq, List.count_eq_one_of_mem distinct listed]
        rfl
      have swap : (ids.filter (!busy.contains ·)).filter (· = l) =
          (ids.filter (· = l)).filter (!busy.contains ·) := List.filter_comm ..
      simp only [roundCalls, List.filter_map, Function.comp_def, here, and_true, swap, single]
      by_cases is_busy : l ∈ busy <;> simp [is_busy]
    rw [List.flatMap_cons, List.filter_append, List.map_append, own, ih ge]
    split <;> rfl

theorem firstWaiting_take (r : Recorded) : r.take.firstWaiting = r.raisings.length :=
  Nat.sub_zero _

theorem Coherent.take (coherent : r.Coherent before) : r.take.Coherent before where
  waiting := List.nil_suffix
  called c member := by
    rw [firstWaiting_take]
    exact (coherent.called c member).trans_le r.firstWaiting_le
  delivered := coherent.delivered

/-- The events that waited are past when they are taken. -/
theorem Coherent.past_take (coherent : r.Coherent before) {event : BlackboardEvent × Nat}
    (waits : event ∈ r.waiting) : r.take.Past event := by
  obtain ⟨le, bound, eq⟩ := List.mem_zipIdx waits
  obtain ⟨early, split⟩ := coherent.waiting
  have total := coherent.firstWaiting_add
  have first : early.length = r.firstWaiting := by
    have := congrArg List.length split
    rw [List.length_append, List.length_map] at this
    omega
  refine ⟨by rw [firstWaiting_take]; omega, ?_⟩
  have same : r.take.raisings = r.raisings := rfl
  rw [same, ← List.getElem?_map, ← split, List.getElem?_append_right (by omega), first, eq]
  exact List.getElem?_eq_getElem _

theorem Past.continues {event : BlackboardEvent × Nat} (past : r.Past event)
    (continues : Continues before r r') : r'.Past event := by
  refine ⟨past.1.trans_le continues.first, ?_⟩
  rw [getElem?_of_grown continues.raisings (past.1.trans_le r.firstWaiting_le)]
  exact past.2

/-- A round makes the calls about the events that waited. -/
theorem Coherent.extends_round (coherent : r.Coherent before)
    {call : BlackboardEvent × Nat → Recorded → Listener → Option Recorded}
    (calls : ∀ event, ∀ l ∈ r.shared.listeners, ∀ r₁ r₂, Continues before r.take r₁ →
      r₁.Past event → call event r₁ l = some r₂ → Extends before [(event.2, l.id)] r₁ r₂)
    (done : r.take.round busy call r.waiting r.shared.listeners = some r') :
    Extends before ((List.range' r.firstWaiting r.shared.board.raised.length).flatMap
      (roundCalls busy (r.shared.listeners.map (·.id)))) r.take r' := by
  rw [← List.zipIdx_map_snd, List.flatMap_map]
  refine extends_foldlM _ coherent.take (fun event waits r₁ r₂ continues done => ?_)
    (fun event waits c member => ?_) done
  · rw [roundCalls_eq_flatMap]
    refine extends_foldlM _ continues.coherent (fun l listed r₃ r₄ further done => ?_)
      (fun l listed c member => ?_) done
    · split at done
      · next is_busy =>
        obtain rfl := Option.some.inj done
        rw [if_pos is_busy]
        exact .refl further.coherent
      · next idle =>
        rw [if_neg idle]
        have further := continues.trans further
        exact calls event l listed r₃ r₄ further ((coherent.past_take waits).continues further) done
    · split at member
      · cases member
      · obtain rfl := List.mem_singleton.1 member
        exact (coherent.past_take waits).1.trans_le continues.first
  · obtain ⟨l, -, rfl⟩ := List.mem_map.1 member
    exact (coherent.past_take waits).1

/-- A round calls each listener that is not busy about each event that waited, in their order. -/
theorem Coherent.delivers_round (coherent : r.Coherent before)
    (distinct : (r.shared.listeners.map (·.id)).Nodup)
    {call : BlackboardEvent × Nat → Recorded → Listener → Option Recorded}
    (calls : ∀ event, ∀ l ∈ r.shared.listeners, ∀ r₁ r₂, Continues before r.take r₁ →
      r₁.Past event → call event r₁ l = some r₂ → Extends before [(event.2, l.id)] r₁ r₂)
    (done : r.take.round busy call r.waiting r.shared.listeners = some r') :
    Delivers before busy r r' := by
  have round := coherent.extends_round calls done
  generalize own : (List.range' r.firstWaiting r.shared.board.raised.length).flatMap
    (roundCalls busy (r.shared.listeners.map (·.id))) = told at round
  have about : r'.calls.filter (·.1 < r.raisings.length) = r.calls ++ told :=
    r.firstWaiting_take ▸ round.calls
  have reached : r.raisings.length ≤ r'.firstWaiting := r.firstWaiting_take ▸ round.first
  refine ⟨⟨⟨round.coherent, round.listeners, round.raisings, r.firstWaiting_le.trans reached⟩,
    ?calls, round.settled⟩, reached, fun l listed => ?told⟩
  case calls =>
    have later : ∀ c ∈ told, ¬ c.1 < r.firstWaiting := by
      intro c member
      obtain ⟨n, listed, mem⟩ := List.mem_flatMap.1 (own ▸ member)
      obtain ⟨l, -, rfl⟩ := List.mem_map.1 mem
      exact Nat.not_lt.2 (List.mem_range'_1.1 listed).1
    rw [← filter_filter_lt r.firstWaiting_le, about, List.filter_append,
      coherent.calls_filter (Nat.le_refl _),
      List.filter_eq_nil_iff.2 fun c member => by simpa using later c member]
  case told =>
    have split : (r'.calls.filter fun c =>
        c.2 = l.id ∧ r.firstWaiting ≤ c.1 ∧ c.1 < r.raisings.length) =
        (r'.calls.filter (·.1 < r.raisings.length)).filter fun c =>
          c.2 = l.id ∧ r.firstWaiting ≤ c.1 :=
      (filter_filter_of_iff (fun _ => and_assoc) _).symm
    have none : (r.calls.filter fun c => c.2 = l.id ∧ r.firstWaiting ≤ c.1) = [] :=
      coherent.filter_eq_nil fun c late => late.2
    rw [split, about, List.filter_append, none, List.nil_append, ← own]
    exact filter_roundCalls distinct (List.mem_map_of_mem listed)
      fun n member => (List.mem_range'_1.1 member).1

/-- What happens later is about later events. -/
theorem Delivers.trans (first : Delivers before busy r r') (second : Extends before [] r' r'') :
    Delivers before busy r r'' where
  toExtends := first.toExtends.trans second nofun
  all := first.all.trans second.first
  told l listed := by
    have same (calls : List (Nat × Nat)) : (calls.filter fun c =>
        c.2 = l.id ∧ r.firstWaiting ≤ c.1 ∧ c.1 < r.raisings.length) =
        (calls.filter (·.1 < r'.firstWaiting)).filter fun c =>
          c.2 = l.id ∧ r.firstWaiting ≤ c.1 ∧ c.1 < r.raisings.length := by
      refine (filter_filter_of_iff (fun c => ?_) calls).symm
      have := first.all
      omega
    rw [same, second.calls, List.append_nil]
    exact first.told l listed

/-! ## Delivering events -/

/-- A change on the blackboard itself. -/
theorem Coherent.extends_changeDirectly {change : Blackboard → Blackboard}
    (coherent : r.Coherent before) (distinct : (r.shared.listeners.map (·.id)).Nodup)
    (additive : Blackboard.Additive change) (done : r.changeDirectly busy change = some r') :
    Extends before [] r r' := by
  rw [changeDirectly] at done
  split at done
  · next holds =>
    obtain rfl := Option.some.inj done
    rw [holds]
    exact coherent.extends_change additive
  · next free =>
    rw [Bool.eq_false_iff.2 free] at done
    have coherent' := (coherent.change additive busy false).1.coherent
    refine coherent.extends_of_delivers additive (coherent'.delivers_round distinct ?_ done)
    intro event l listed r₁ r₂ continues past called
    obtain rfl := Option.some.inj called
    exact continues.coherent.extends_deliver ⟨l.id, event.1, none⟩ past

/-- Holding events back changes nothing that is recorded. -/
theorem delivers_of_hold (delivers : Delivers before busy r.hold r') : Delivers before busy r r' where
  coherent := delivers.coherent
  listeners := delivers.listeners
  raisings := delivers.raisings
  first := delivers.first
  calls := delivers.calls
  settled := delivers.settled
  all := delivers.all
  told := delivers.told

/-- A change that is made in answer to an event, with all that it sets off. -/
theorem Coherent.extends_answer {below : List Nat → Recorded → Option Recorded}
    {reaction : Reaction} (coherent : r.Coherent before)
    (distinct : (r.shared.listeners.map (·.id)).Nodup)
    (additive : Blackboard.Additive reaction.change)
    (below_delivers : ∀ busy r₁ r₂, r₁.Coherent before → r₁.shared.listeners = r.shared.listeners →
      below busy r₁ = some r₂ → Delivers before busy r₁ r₂)
    (done : answer below busy r reaction = some r') : Extends before [] r r' := by
  cases reaction with
  | direct change => exact coherent.extends_changeDirectly distinct additive done
  | transact change =>
    obtain ⟨waiting, called, delivered⟩ :=
      (coherent.change additive busy false).1.coherent
    exact coherent.extends_of_delivers additive
      (delivers_of_hold (below_delivers busy _ r' ⟨waiting, called, delivered⟩ rfl done))

/-- A call about an event, with all that it sets off. -/
theorem Coherent.extends_call {below : List Nat → Recorded → Option Recorded}
    {event : BlackboardEvent × Nat} {l : Listener} (coherent : r.Coherent before)
    (distinct : (r.shared.listeners.map (·.id)).Nodup) (additive : l.Additive)
    (below_delivers : ∀ busy r₁ r₂, r₁.Coherent before → r₁.shared.listeners = r.shared.listeners →
      below busy r₁ = some r₂ → Delivers before busy r₁ r₂)
    (past : r.Past event) (done : call below busy event r l = some r') :
    Extends before [(event.2, l.id)] r r' := by
  have first := coherent.extends_deliver ⟨l.id, event.1, some r.shared.board⟩ past
  have answers := extends_foldlM (fun _ => []) first.coherent
    (fun reaction member r₁ r₂ continues done => ?_) (fun _ _ => nofun) done
  · have none : (l.react event.1 r.shared.board).flatMap (fun _ => ([] : List (Nat × Nat))) = [] := by
      simp
    exact first.trans (none ▸ answers) nofun
  · have same := continues.listeners
    exact continues.coherent.extends_answer (same ▸ distinct)
      (additive event.1 r.shared.board reaction member)
      (fun busy r₃ r₄ coherent same' => below_delivers busy r₃ r₄ coherent (same'.trans same)) done

/-- Delivering events calls every listener that is not busy about each of those that waited, and
settles those that are raised meanwhile. -/
theorem Coherent.delivers_dispatch {fuel : Nat} (coherent : r.Coherent before)
    (distinct : (r.shared.listeners.map (·.id)).Nodup)
    (additive : ∀ l ∈ r.shared.listeners, l.Additive) (done : r.dispatch fuel busy = some r') :
    Delivers before busy r r' := by
  -- Both the deliveries inside the calls of a round and the rounds after it have less fuel.
  induction fuel generalizing r r' busy with
  | zero => cases done
  | succ fuel ih =>
    rw [dispatch] at done
    split at done
    · next quiet =>
      obtain rfl := Option.some.inj done
      have empty : r.shared.board.raised = [] := List.isEmpty_iff.1 quiet
      have all : r.raisings.length ≤ r.firstWaiting := by
        rw [firstWaiting, empty]
        exact Nat.le_refl _
      obtain ⟨⟨-, -, raisings, first⟩, calls, settled⟩ := Extends.refl coherent
      refine ⟨⟨⟨⟨coherent.waiting, coherent.called, coherent.delivered⟩, rfl, raisings, first⟩,
        calls, settled⟩, all, fun l listed => ?_⟩
      have none : (r.calls.filter fun c =>
          c.2 = l.id ∧ r.firstWaiting ≤ c.1 ∧ c.1 < r.raisings.length) = [] :=
        coherent.filter_eq_nil fun c late => late.2.1
      rw [none, empty]
      split <;> rfl
    · next waits =>
      obtain ⟨r₁, first, others⟩ := Option.bind_eq_some_iff.1 done
      have round : Delivers before busy r r₁ := by
        refine coherent.delivers_round distinct
          (fun event l listed r₂ r₃ continues past called => ?_) first
        have same := continues.listeners
        refine continues.coherent.extends_call (same ▸ distinct) (additive l listed)
          (fun busy r₄ r₅ coherent same' done => ?_) past called
        have same := same'.trans same
        exact ih coherent (same ▸ distinct) (same ▸ additive) done
      have same := round.listeners
      exact round.trans (ih round.coherent (same ▸ distinct) (same ▸ additive) others).toExtends

end Recorded

end BehaviorTree
