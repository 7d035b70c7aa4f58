import BehaviorTree.Proofs.Binary.Codec
import BehaviorTree.Value.Binary

/-!
# The binary form of values loses nothing

A value is read back from what was written of it (`readsBack_codec`), however deep its containers
nest. The reader bounds the depth by the count of bytes that it is given, and since each container
takes a byte of its own, reading more bytes can only raise a bound that was not reached
(`persists_readWithin`).
-/

namespace BehaviorTree.Value

open Codec ByteReader

mutual

/-- The lengths that the binary form of a value states: those of texts in bytes and those of
containers in items or entries. -/
def lengths : Value → List Nat
  | .null | .bool _ | .number _ => []
  | .string s => [s.utf8ByteSize]
  | .array items => items.length :: lengthsOfItems items
  | .object entries => entries.length :: lengthsOfEntries entries

def lengthsOfItems : List Value → List Nat
  | [] => []
  | item :: items => lengths item ++ lengthsOfItems items

def lengthsOfEntries : List (String × Value) → List Nat
  | [] => []
  | (key, value) :: entries => key.utf8ByteSize :: lengths value ++ lengthsOfEntries entries

end

theorem lengthsOfEntries_eq (entries : List (String × Value)) : lengthsOfEntries entries =
    entries.flatMap fun entry => entry.1.utf8ByteSize :: entry.2.lengths := by
  induction entries with
  | nil => rfl
  | cons entry entries ih => rw [lengthsOfEntries, ih, List.flatMap_cons]

/-! ## The depth of nesting -/

/-- A deeper bound and bytes that follow change nothing about what is read. -/
theorem persists_readWithin {depth depth' : Nat} (le : depth ≤ depth') :
    Persists (readWithin depth) (readWithin depth') := by
  induction depth generalizing depth' with
  | zero => exact fun _ _ _ _ done => nomatch done
  | succ depth ih =>
    obtain ⟨deeper, rfl⟩ : ∃ deeper, depth' = deeper + 1 := ⟨depth' - 1, by omega⟩
    have inner : Persists (readWithin depth) (readWithin deeper) := ih (by omega)
    refine (persists_readInteger 4).bind fun kind => ?_
    match kind with
    | 0 => exact persists_pure _
    | 1 => exact Persists.bind local_bool fun _ => persists_pure _
    | 2 => exact Persists.bind local_number fun _ => persists_pure _
    | 3 => exact Persists.bind local_string fun _ => persists_pure _
    | 4 =>
      exact Persists.bind local_length fun count =>
        (inner.readCount count).bind fun _ => persists_pure _
    | 5 =>
      refine Persists.bind local_length fun count =>
        (Persists.readCount ?_ count).bind fun _ => persists_pure _
      exact Persists.bind local_string fun _ => inner.bind fun _ => persists_pure _
    | _ + 6 => exact persists_failure

theorem local_codec : codec.Local := by
  intro bytes v rest more done
  exact persists_readWithin (List.length_append ▸ Nat.le_add_right _ _) bytes v rest more done

/-! ## Reading what was written -/

theorem writeItems_eq (items : List Value) : writeItems items = items.flatMap write := by
  induction items with
  | nil => rfl
  | cons item items ih => rw [writeItems, ih, List.flatMap_cons]

theorem writeEntries_eq (entries : List (String × Value)) : writeEntries entries =
    entries.flatMap fun entry => Codec.string.write entry.1 ++ write entry.2 := by
  induction entries with
  | nil => rfl
  | cons entry entries ih => rw [writeEntries, ih, List.flatMap_cons]

/-- The kind of a value, at the front of its bytes. -/
theorem readKind {kind : Nat} (known : kind < 6) (rest : List UInt8) :
    (readInteger 4).run (writeInteger kind ++ rest) = some (kind, rest) :=
  readInteger_writeInteger (.inl (Nat.lt_trans known (by decide))) rest

theorem writeInteger_ne_nil (n : Nat) : writeInteger n ≠ [] := by
  unfold writeInteger
  repeat' split
  all_goals exact List.cons_ne_nil _ _

theorem write_ne_nil (v : Value) : write v ≠ [] := by
  cases v <;> simp [write, writeInteger_ne_nil]

mutual

/-- As many levels as there are bytes are enough to read a value back. -/
theorem readWithin_write {v : Value} (normal : v.Normal) (sized : ∀ n ∈ v.lengths, n < UInt64.size)
    {depth : Nat} (enough : (write v).length ≤ depth) (rest : List UInt8) :
    (readWithin depth).run (write v ++ rest) = some (v, rest) := by
  have first : 0 < (write v).length := List.length_pos_iff.2 (write_ne_nil v)
  obtain ⟨depth, rfl⟩ : ∃ inner, depth = inner + 1 := ⟨depth - 1, by omega⟩
  rw [readWithin]
  match v with
  | .null => rw [write, bind_run (readKind (by decide) _)]; rfl
  | .bool b =>
    rw [write, List.append_assoc, bind_run (readKind (by decide) _)]
    exact bind_run (readsBack_bool b rest)
  | .number x =>
    rw [write, List.append_assoc, bind_run (readKind (by decide) _)]
    exact bind_run (readsBack_number x rest)
  | .string s =>
    have bound : s.utf8ByteSize < UInt64.size := sized _ (by simp [lengths])
    rw [write, List.append_assoc, bind_run (readKind (by decide) _)]
    exact bind_run (readsBack_string bound rest)
  | .array items =>
    have bound : items.length < UInt64.size := sized _ (by simp [lengths])
    have room : (writeItems items).length ≤ depth := by
      have kind : 0 < (writeInteger 4).length := List.length_pos_iff.2 (writeInteger_ne_nil 4)
      simp only [write, List.length_append] at enough
      omega
    have inside := readWithin_writeItems (by cases normal; assumption)
      (fun n member => sized n (by simp [lengths, member])) room
    rw [write, List.append_assoc, List.append_assoc, bind_run (readKind (by decide) _)]
    show (Codec.length.read >>= _).run _ = _
    rw [bind_run (read_length bound _), writeItems_eq, bind_run (readCount_flatMap inside rest)]
    rfl
  | .object entries =>
    have bound : entries.length < UInt64.size := sized _ (by simp [lengths])
    have room : (writeEntries entries).length ≤ depth := by
      have kind : 0 < (writeInteger 5).length := List.length_pos_iff.2 (writeInteger_ne_nil 5)
      simp only [write, List.length_append] at enough
      omega
    have inside := readWithin_writeEntries (by cases normal; assumption)
      (fun n member => sized n (by simp [lengths, member])) room
    have ordered : Entries.Ordered entries := by cases normal; assumption
    rw [write, List.append_assoc, List.append_assoc, bind_run (readKind (by decide) _)]
    show (Codec.length.read >>= _).run _ = _
    rw [bind_run (read_length bound _), writeEntries_eq, bind_run (readCount_flatMap inside rest),
      ordered.ofList_eq]
    rfl

theorem readWithin_writeItems {items : List Value} (normal : ∀ v ∈ items, v.Normal)
    (sized : ∀ n ∈ lengthsOfItems items, n < UInt64.size) {depth : Nat}
    (enough : (writeItems items).length ≤ depth) :
    ∀ item ∈ items, ∀ rest, (readWithin depth).run (write item ++ rest) = some (item, rest) := by
  match items with
  | [] => simp
  | item :: items =>
    rw [List.forall_mem_cons] at normal ⊢
    simp only [lengthsOfItems, List.forall_mem_append] at sized
    simp only [writeItems, List.length_append] at enough
    exact ⟨readWithin_write normal.1 sized.1 (by omega),
      readWithin_writeItems normal.2 sized.2 (by omega)⟩

theorem readWithin_writeEntries {entries : List (String × Value)}
    (normal : ∀ entry ∈ entries, entry.2.Normal)
    (sized : ∀ n ∈ lengthsOfEntries entries, n < UInt64.size) {depth : Nat}
    (enough : (writeEntries entries).length ≤ depth) :
    ∀ entry ∈ entries, ∀ rest,
      (do return (← Codec.string.read, ← readWithin depth) : ByteReader (String × Value)).run
        ((Codec.string.write entry.1 ++ write entry.2) ++ rest) = some (entry, rest) := by
  match entries with
  | [] => simp
  | (key, v) :: entries =>
    rw [List.forall_mem_cons] at normal ⊢
    simp only [lengthsOfEntries, List.cons_append, List.forall_mem_cons,
      List.forall_mem_append] at sized
    simp only [writeEntries, List.length_append] at enough
    refine ⟨fun rest => ?_, readWithin_writeEntries normal.2 sized.2.2 (by omega)⟩
    have room : (write v).length ≤ depth := by omega
    rw [List.append_assoc, bind_run (readsBack_string sized.1 _),
      bind_run (readWithin_write normal.1 sized.2.1 room rest)]
    rfl

end

theorem readsBack_codec {v : Value} (normal : v.Normal)
    (sized : ∀ n ∈ v.lengths, n < UInt64.size) : codec.ReadsBack v :=
  fun rest => readWithin_write normal sized (List.length_append ▸ Nat.le_add_right _ _) rest

end BehaviorTree.Value
