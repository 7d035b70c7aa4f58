import BehaviorTree.Binary.Codec

/-!
# Codecs lose nothing

Two laws of codecs, each kept by every way of putting codecs together. Reading what was written of a
thing gives it back and leaves what follows (`Codec.ReadsBack`), and a reader that succeeds does not
look at what follows (`Codec.Local`). So nothing can be read from a part of what was written
(`Codec.ReadsBack.truncated`), and what was written of one thing does not begin with what was
written of another (`Codec.ReadsBack.eq_of_start`).
-/

namespace BehaviorTree

variable {α β : Type}

namespace ByteReader

theorem bind_eq_some {x : ByteReader α} {f : α → ByteReader β} {bytes rest : List UInt8} {b : β} :
    (x >>= f).run bytes = some (b, rest) ↔
      ∃ a middle, x.run bytes = some (a, middle) ∧ (f a).run middle = some (b, rest) := by
  rw [StateT.run_bind, Option.bind_eq_bind, Option.bind_eq_some_iff]
  exact ⟨fun ⟨p, first, later⟩ => ⟨p.1, p.2, first, later⟩,
    fun ⟨a, middle, first, later⟩ => ⟨(a, middle), first, later⟩⟩

theorem bind_run {x : ByteReader α} {f : α → ByteReader β} {bytes middle : List UInt8} {a : α}
    (first : x.run bytes = some (a, middle)) : (x >>= f).run bytes = (f a).run middle := by
  rw [StateT.run_bind, first]
  rfl

/-- What one reader takes from the front of bytes another takes too, however the bytes go on. -/
def Persists (read read' : ByteReader α) : Prop :=
  ∀ bytes a rest more, read.run bytes = some (a, rest) →
    read'.run (bytes ++ more) = some (a, rest ++ more)

theorem persists_pure (a : α) : Persists (pure a) (pure a) := by
  intro bytes b rest more done
  obtain ⟨rfl, rfl⟩ : a = b ∧ bytes = rest := by simpa using done
  rfl

theorem persists_failure : Persists (failure : ByteReader α) failure :=
  fun _ _ _ _ done => nomatch done

theorem Persists.bind {x x' : ByteReader α} {f f' : α → ByteReader β} (first : Persists x x')
    (later : ∀ a, Persists (f a) (f' a)) : Persists (x >>= f) (x' >>= f') := by
  intro bytes b rest more done
  obtain ⟨a, middle, taken, done⟩ := bind_eq_some.1 done
  rw [bind_run (first _ _ _ more taken)]
  exact later a _ _ _ more done

theorem Persists.ite {p : Prop} [Decidable p] {x x' y y' : ByteReader α} (yes : Persists x x')
    (no : Persists y y') : Persists (if p then x else y) (if p then x' else y') := by
  split
  · exact yes
  · exact no

theorem Persists.readCount {read read' : ByteReader α}
    (persists : Persists read read') (count : Nat) :
    Persists (Codec.readCount read count) (Codec.readCount read' count) := by
  induction count with
  | zero => exact persists_pure []
  | succ count ih => exact persists.bind fun _ => ih.bind fun _ => persists_pure _

end ByteReader

namespace Codec

open ByteReader

/-- A reader that succeeds leaves alone what follows, whatever it is. -/
def Local (c : Codec α) : Prop := Persists c.read c.read

/-- What was written of a thing is read as it, and the bytes after it are left. -/
def ReadsBack (c : Codec α) (a : α) : Prop :=
  ∀ rest, c.read.run (c.write a ++ rest) = some (a, rest)

/-- Nothing can be read from a part of what was written. -/
theorem ReadsBack.truncated {c : Codec α} {a : α} (back : c.ReadsBack a) (loc : c.Local)
    {part rest : List UInt8} (written : part ++ rest = c.write a) (missing : rest ≠ []) :
    c.read.run part = none := by
  cases done : c.read.run part with
  | none => rfl
  | some taken =>
    obtain ⟨b, left⟩ := taken
    have whole := back []
    rw [List.append_nil, ← written, loc part b left rest done] at whole
    -- All of the missing bytes would be left over from what the whole was read from.
    simp only [Option.some.injEq, Prod.mk.injEq, List.append_eq_nil_iff] at whole
    exact absurd whole.2.2 missing

/-- What was written of one thing does not begin with what was written of another. -/
theorem ReadsBack.eq_of_start {c : Codec α} {a b : α} (back : c.ReadsBack a)
    (back' : c.ReadsBack b) (start : c.write a <+: c.write b) : a = b := by
  obtain ⟨more, written⟩ := start
  have whole := back' []
  rw [List.append_nil, ← written, back more] at whole
  simp only [Option.some.injEq, Prod.mk.injEq] at whole
  exact whole.1

/-! ## Integers -/

theorem persists_readByte : Persists readByte readByte := by
  intro bytes b rest more done
  cases bytes with
  | nil => cases done
  | cons head tail =>
    obtain ⟨rfl, rfl⟩ : head = b ∧ tail = rest := by
      simpa [readByte, StateT.run] using done
    rfl

theorem persists_readLow (count : Nat) : Persists (readLow count) (readLow count) := by
  induction count with
  | zero => exact persists_pure 0
  | succ count ih => exact persists_readByte.bind fun low => ih.bind fun high => persists_pure _

theorem persists_readInteger (width : Nat) : Persists (readInteger width) (readInteger width) :=
  persists_readByte.bind fun _ => (persists_pure _).ite <| (persists_readLow 2).ite <|
    (persists_readLow 4).ite <| (persists_readLow 8).ite persists_failure

theorem readByte_cons (b : UInt8) (rest : List UInt8) :
    readByte.run (b :: rest) = some (b, rest) := rfl

/-- The low bytes of a number hold its remainder. -/
theorem readLow_lowBytes (count n : Nat) (rest : List UInt8) :
    (readLow count).run (lowBytes count n ++ rest) = some (n % Nat.pow 256 count, rest) := by
  induction count generalizing n with
  | zero => simp [readLow, lowBytes, Nat.mod_one]
  | succ count ih =>
    have low : (UInt8.ofNat n).toNat = n % 256 := UInt8.toNat_ofNat'
    have whole : n % Nat.pow 256 (count + 1) =
        n % 256 + 256 * (n / 256 % Nat.pow 256 count) := by
      rw [Nat.pow_eq, Nat.pow_succ', Nat.mod_mul, Nat.pow_eq]
    rw [readLow, lowBytes, List.cons_append, bind_run (readByte_cons _ _), bind_run (ih _), low,
      whole]
    rfl

theorem readLow_lowBytes_of_lt {count n : Nat} (bound : n < Nat.pow 256 count) (rest : List UInt8) :
    (readLow count).run (lowBytes count n ++ rest) = some (n, rest) := by
  rw [readLow_lowBytes, Nat.mod_eq_of_lt bound]

/-- An integer of at most four bytes is read at any width, and a longer one at full width. -/
theorem readInteger_writeInteger {width n : Nat}
    (fits : n < UInt32.size ∨ 8 ≤ width ∧ n < UInt64.size) (rest : List UInt8) :
    (readInteger width).run (writeInteger n ++ rest) = some (n, rest) := by
  have size16 : UInt16.size = Nat.pow 256 2 := rfl
  have size32 : UInt32.size = Nat.pow 256 4 := rfl
  have size64 : UInt64.size = Nat.pow 256 8 := rfl
  unfold readInteger writeInteger
  split
  · next small =>
    have same : (UInt8.ofNat n).toNat = n :=
      UInt8.toNat_ofNat_of_lt' (Nat.lt_trans small (by decide))
    have below : UInt8.ofNat n < 251 := by
      rw [UInt8.lt_iff_toNat_lt, same]
      exact small
    rw [List.singleton_append, bind_run (readByte_cons _ _), if_pos below, same]
    rfl
  split
  · next short =>
    rw [List.cons_append, bind_run (readByte_cons _ _)]
    exact readLow_lowBytes_of_lt (size16 ▸ short) rest
  split
  · next medium =>
    rw [List.cons_append, bind_run (readByte_cons _ _)]
    exact readLow_lowBytes_of_lt (size32 ▸ medium) rest
  · next long =>
    obtain ⟨wide, bound⟩ := fits.resolve_left long
    rw [List.cons_append, bind_run (readByte_cons _ _)]
    simpa [wide] using readLow_lowBytes_of_lt (size64 ▸ bound) rest

theorem local_length : length.Local := persists_readInteger 8

theorem read_length {n : Nat} (bound : n < UInt64.size) (rest : List UInt8) :
    length.read.run (writeInteger n ++ rest) = some (n, rest) :=
  readInteger_writeInteger (.inr ⟨Nat.le_refl 8, bound⟩) rest

/-! ## Scalars -/

theorem local_bool : bool.Local :=
  persists_readByte.bind fun _ => (persists_pure _).ite <| (persists_pure _).ite persists_failure

theorem readsBack_bool (b : Bool) : bool.ReadsBack b := by
  intro rest
  cases b <;> rfl

theorem local_number : number.Local := (persists_readLow 8).bind fun _ => persists_pure _

/-- Numbers keep their bits, those of a NaN included. -/
theorem readsBack_number (x : Number) : number.ReadsBack x := by
  intro rest
  have bound : x.bits.toNat < 256 ^ 8 := x.bits.toNat_lt
  have bits := readLow_lowBytes_of_lt bound rest
  show (readLow 8 >>= fun n => pure ⟨UInt64.ofNat n⟩ : ByteReader Number).run _ = _
  rw [number, bind_run bits, UInt64.ofNat_toNat]
  rfl

theorem persists_readBytes (count : Nat) : Persists (readBytes count) (readBytes count) := by
  intro bytes taken rest more done
  by_cases enough : count ≤ bytes.length
  · obtain ⟨rfl, rfl⟩ : bytes.take count = taken ∧ bytes.drop count = rest := by
      simpa [readBytes, StateT.run, enough] using done
    have still : count ≤ bytes.length + more.length := Nat.le_add_right_of_le enough
    simp [readBytes, StateT.run, still, List.take_append_of_le_length enough,
      List.drop_append_of_le_length enough]
  · simp [readBytes, StateT.run, enough] at done

theorem readBytes_append (front rest : List UInt8) :
    (readBytes front.length).run (front ++ rest) = some (front, rest) := by
  simp [readBytes, StateT.run]

theorem local_string : string.Local := by
  refine local_length.bind fun count => (persists_readBytes count).bind fun bytes => ?_
  cases String.fromUTF8? ⟨bytes.toArray⟩ with
  | some s => exact persists_pure s
  | none => exact persists_failure

theorem fromUTF8?_toByteArray (s : String) : String.fromUTF8? s.toByteArray = some s := by
  rw [String.fromUTF8?, dif_pos s.isValidUTF8]
  rfl

theorem readsBack_string {s : String} (bound : s.utf8ByteSize < UInt64.size) :
    string.ReadsBack s := by
  intro rest
  have size : s.toByteArray.data.toList.length = s.utf8ByteSize := rfl
  have taken := readBytes_append s.toByteArray.data.toList rest
  have text : String.fromUTF8? ⟨s.toByteArray.data.toList.toArray⟩ = some s :=
    fromUTF8?_toByteArray s
  rw [size] at taken
  simp only [string, List.append_assoc]
  rw [bind_run (read_length bound _), bind_run taken, text]
  rfl

theorem local_named [Named α] : (named (α := α)).Local := by
  refine (persists_readInteger 4).bind fun place => ?_
  cases (Named.ofPosition? place : Option α) with
  | some a => exact persists_pure a
  | none => exact persists_failure

theorem readsBack_named [Named α] (few : (Named.all : List α).length ≤ UInt32.size) (a : α) :
    named.ReadsBack a := by
  intro rest
  have place : Named.position a < UInt32.size := Nat.lt_of_lt_of_le (Named.position_lt a) few
  simp only [named]
  rw [bind_run (readInteger_writeInteger (.inl place) rest), Named.ofPosition?_position]
  rfl

/-! ## Compounds -/

variable {a : Codec α} {b : Codec β}

theorem Local.pair (first : a.Local) (second : b.Local) : (a.pair b).Local :=
  Persists.bind first fun _ => Persists.bind second fun _ => persists_pure _

theorem ReadsBack.pair {p : α × β} (first : a.ReadsBack p.1) (second : b.ReadsBack p.2) :
    (a.pair b).ReadsBack p := by
  intro rest
  simp only [Codec.pair, List.append_assoc]
  rw [bind_run (first _), bind_run (second _)]
  rfl

theorem Local.map {make : α → β} {view : β → α} (loc : a.Local) : (a.map make view).Local :=
  Persists.bind loc fun _ => persists_pure _

theorem ReadsBack.map {make : α → β} {view : β → α} {x : β} (back : a.ReadsBack (view x))
    (inverse : make (view x) = x) : (a.map make view).ReadsBack x := by
  intro rest
  simp only [Codec.map]
  rw [bind_run (back _), inverse]
  rfl

theorem Local.option (loc : a.Local) : (option a).Local :=
  Persists.bind local_bool fun _ =>
    Persists.ite (Persists.bind loc fun _ => persists_pure _) (persists_pure _)

theorem ReadsBack.option {x : Option α} (back : ∀ y, x = some y → a.ReadsBack y) :
    (option a).ReadsBack x := by
  intro rest
  cases x with
  | none => rfl
  | some y =>
    simp only [Codec.option, List.append_assoc]
    rw [bind_run (readsBack_bool true _), if_pos rfl, bind_run (back y rfl _)]
    rfl

/-- As many things as were written are read one by one. -/
theorem readCount_flatMap {read : ByteReader α} {write : α → List UInt8} {xs : List α}
    (back : ∀ x ∈ xs, ∀ rest, read.run (write x ++ rest) = some (x, rest)) (rest : List UInt8) :
    (readCount read xs.length).run (xs.flatMap write ++ rest) = some (xs, rest) := by
  induction xs with
  | nil => rfl
  | cons x xs ih =>
    rw [List.forall_mem_cons] at back
    rw [List.flatMap_cons, List.append_assoc, List.length_cons, readCount,
      bind_run (back.1 _), bind_run (ih back.2)]
    rfl

theorem Local.list (loc : a.Local) : (list a).Local :=
  Persists.bind local_length fun count => Persists.readCount loc count

theorem ReadsBack.list {xs : List α} (bound : xs.length < UInt64.size)
    (back : ∀ x ∈ xs, a.ReadsBack x) : (list a).ReadsBack xs := by
  intro rest
  simp only [Codec.list, List.append_assoc]
  rw [bind_run (read_length bound _)]
  exact readCount_flatMap back rest

theorem Local.dict (loc : a.Local) : (dict a).Local := (local_string.pair loc).list.map

theorem ReadsBack.dict {d : Dict α} (bound : d.size < UInt64.size)
    (back : ∀ entry ∈ d.entries, entry.1.utf8ByteSize < UInt64.size ∧ a.ReadsBack entry.2) :
    (dict a).ReadsBack d := by
  refine ReadsBack.map (.list bound fun entry member => ?_) d.ofList_entries
  exact .pair (readsBack_string (back entry member).1) (back entry member).2

end Codec

end BehaviorTree
