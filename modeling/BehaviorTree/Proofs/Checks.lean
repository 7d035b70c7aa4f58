import BehaviorTree.Graph.Error

/-!
# Chains of checks

Editing, validating, compiling and loading are chains of steps that may refuse. The lemmas here say
when such a chain goes through, in terms of its steps.
-/

namespace BehaviorTree.Checks

variable {ε α β : Type}

/-- A chain goes through if its first step does and the others do with what the first one gave. -/
theorem bind_eq_ok {x : Except ε α} {f : α → Except ε β} {b : β} :
    x >>= f = .ok b ↔ ∃ a, x = .ok a ∧ f a = .ok b := by
  cases x <;> simp [bind, Except.bind]

/-- A chain is refused by its first step, or later by what follows it. -/
theorem bind_eq_error {x : Except ε α} {f : α → Except ε β} {e : ε} :
    x >>= f = .error e ↔ x = .error e ∨ ∃ a, x = .ok a ∧ f a = .error e := by
  cases x <;> simp [bind, Except.bind]

theorem map_eq_ok {x : Except ε α} {f : α → β} {b : β} :
    x.map f = .ok b ↔ ∃ a, x = .ok a ∧ f a = b := by
  cases x <;> simp [Except.map]

theorem map_eq_error {x : Except ε α} {f : α → β} {e : ε} : x.map f = .error e ↔ x = .error e := by
  cases x <;> simp [Except.map]

/-- A chain gives what another gives, in another form, if each of its steps does. -/
theorem bind_map_eq_map_bind {γ δ : Type} {x : Except ε α} {f : α → β} {onResult : γ → δ}
    {next : α → Except ε γ} {next' : β → Except ε δ}
    (goesOn : ∀ a, x = .ok a → next' (f a) = (next a).map onResult) :
    x.map f >>= next' = (x >>= next).map onResult := by
  cases x with
  | error e => rfl
  | ok a => exact goesOn a rfl

theorem mapError_eq_ok {δ : Type} {x : Except ε α} {f : ε → δ} {a : α} :
    x.mapError f = .ok a ↔ x = .ok a := by
  cases x with
  | error e => exact iff_of_false (nomatch ·) (nomatch ·)
  | ok b => exact iff_of_eq ((Except.ok.injEq b a).trans (Except.ok.injEq b a).symm)

/-- A guard that refuses on a condition lets through what does not meet it. -/
theorem guard_eq_ok {p : Prop} [Decidable p] {e : ε} {x : Except ε α} {a : α} :
    (if p then .error e else x) = .ok a ↔ ¬ p ∧ x = .ok a := by
  by_cases h : p <;> simp [h]

/-- A guard refuses on its condition, and otherwise what it guards may refuse. -/
theorem guard_eq_error {p : Prop} [Decidable p] {e e' : ε} {x : Except ε α} :
    (if p then .error e else x) = .error e' ↔ p ∧ e = e' ∨ ¬ p ∧ x = .error e' := by
  by_cases h : p <;> simp [h]

theorem forM_cons_eq_ok {check : α → Except ε Unit} {x : α} {xs : List α} :
    (x :: xs).forM check = .ok () ↔ check x = .ok () ∧ xs.forM check = .ok () :=
  bind_eq_ok.trans ⟨fun ⟨_, first, rest⟩ => ⟨first, rest⟩, fun ⟨first, rest⟩ => ⟨(), first, rest⟩⟩

/-- A list of checks goes through if each of them does. -/
theorem forM_eq_ok {check : α → Except ε Unit} {xs : List α} :
    xs.forM check = .ok () ↔ ∀ x ∈ xs, check x = .ok () := by
  induction xs with
  | nil => exact iff_of_true rfl (by simp)
  | cons x xs ih => rw [forM_cons_eq_ok, ih, List.forall_mem_cons]

/-- A list of checks that does not go through is refused by one of them. -/
theorem exists_of_forM_eq_error {check : α → Except ε Unit} {xs : List α} {e : ε}
    (refused : xs.forM check = .error e) : ∃ x ∈ xs, check x = .error e := by
  induction xs with
  | nil => exact absurd refused (nomatch ·)
  | cons x xs ih =>
    rcases bind_eq_error.1 refused with first | ⟨_, -, rest⟩
    · exact ⟨x, List.mem_cons_self, first⟩
    · obtain ⟨y, listed, error⟩ := ih rest
      exact ⟨y, List.mem_cons_of_mem _ listed, error⟩

theorem foldlM_cons_eq_ok {step : β → α → Except ε β} {b c : β} {x : α} {xs : List α} :
    (x :: xs).foldlM step b = .ok c ↔ ∃ d, step b x = .ok d ∧ xs.foldlM step d = .ok c := by
  rw [List.foldlM_cons, bind_eq_ok]

/-- Steps one after the other are refused at one of them. -/
theorem exists_of_foldlM_eq_error {step : β → α → Except ε β} {b : β} {xs : List α} {e : ε}
    (refused : xs.foldlM step b = .error e) : ∃ x ∈ xs, ∃ c, step c x = .error e := by
  induction xs generalizing b with
  | nil => exact absurd refused (nomatch ·)
  | cons x xs ih =>
    rw [List.foldlM_cons] at refused
    rcases bind_eq_error.1 refused with first | ⟨c, -, rest⟩
    · exact ⟨x, List.mem_cons_self, b, first⟩
    · obtain ⟨y, listed, error⟩ := ih rest
      exact ⟨y, List.mem_cons_of_mem _ listed, error⟩

theorem mapM_cons_eq_ok {f : α → Except ε β} {x : α} {xs : List α} {ys : List β} :
    (x :: xs).mapM f = .ok ys ↔ ∃ y zs, f x = .ok y ∧ xs.mapM f = .ok zs ∧ ys = y :: zs := by
  simp only [List.mapM_cons, bind_eq_ok, pure, Except.pure, Except.ok.injEq]
  constructor
  · rintro ⟨y, first, zs, rest, rfl⟩
    exact ⟨y, zs, first, rest, rfl⟩
  · rintro ⟨y, zs, first, rest, rfl⟩
    exact ⟨y, first, zs, rest, rfl⟩

theorem of_mapM_eq_ok {f : α → Except ε β} {xs : List α} {ys : List β}
    (all : xs.mapM f = .ok ys) : ∀ x ∈ xs, ∃ y, f x = .ok y := by
  induction xs generalizing ys with
  | nil => exact fun x member => nomatch member
  | cons x xs ih =>
    obtain ⟨y, zs, first, rest, -⟩ := mapM_cons_eq_ok.1 all
    exact List.forall_mem_cons.2 ⟨⟨y, first⟩, ih rest⟩

theorem exists_mapM_eq_ok {f : α → Except ε β} {xs : List α} :
    (∃ ys, xs.mapM f = .ok ys) ↔ ∀ x ∈ xs, ∃ y, f x = .ok y := by
  refine ⟨fun ⟨_, all⟩ => of_mapM_eq_ok all, fun each => ?_⟩
  induction xs with
  | nil => exact ⟨[], rfl⟩
  | cons x xs ih =>
    obtain ⟨⟨y, first⟩, others⟩ := List.forall_mem_cons.1 each
    obtain ⟨ys, rest⟩ := ih others
    exact ⟨y :: ys, mapM_cons_eq_ok.2 ⟨y, ys, first, rest, rfl⟩⟩

theorem mem_of_mapM_eq_ok {f : α → Except ε β} {xs : List α} {ys : List β}
    (all : xs.mapM f = .ok ys) {y : β} : y ∈ ys ↔ ∃ x ∈ xs, f x = .ok y := by
  induction xs generalizing ys with
  | nil =>
    cases all
    simp
  | cons x xs ih =>
    obtain ⟨z, zs, first, rest, rfl⟩ := mapM_cons_eq_ok.1 all
    simp [ih rest, first, eq_comm]

/-! ## The same chain in other terms -/

section Translate

variable {δ γ ζ : Type}

/-- A result with its value and its error expressed in other terms. -/
def translate (onError : ε → δ) (onValue : α → β) : Except ε α → Except δ β
  | .ok a => .ok (onValue a)
  | .error e => .error (onError e)

theorem translate_error (onError : ε → δ) (onValue : α → β) (e : ε) :
    translate onError onValue (.error e) = .error (onError e) :=
  rfl

/-- What is expressed in the same terms stays as it is. -/
@[simp]
theorem translate_id (x : Except ε α) : translate id id x = x := by
  cases x <;> rfl

variable {onError : ε → δ} {onValue : α → β}

/-- A chain is translated step by step. -/
theorem translate_bind {onResult : γ → ζ} {x : Except ε α} {next : α → Except ε γ}
    {next' : β → Except δ ζ}
    (goesOn : ∀ a, x = .ok a → next' (onValue a) = translate onError onResult (next a)) :
    translate onError onValue x >>= next' = translate onError onResult (x >>= next) := by
  cases x with
  | error e => rfl
  | ok a => exact goesOn a rfl

theorem translate_mapM {check : α → Except ε β} {check' : α → Except δ γ} {onValue : β → γ}
    {xs : List α} (each : ∀ x ∈ xs, check' x = translate onError onValue (check x)) :
    xs.mapM check' = translate onError (List.map onValue) (xs.mapM check) := by
  induction xs with
  | nil => rfl
  | cons x xs ih =>
    obtain ⟨first, rest⟩ := List.forall_mem_cons.1 each
    rw [List.mapM_cons, List.mapM_cons, first, ih rest]
    apply translate_bind
    intro y _
    apply translate_bind
    intro ys _
    rfl

end Translate

end BehaviorTree.Checks
