/-!
# Dictionaries with string keys

A `Dict` keeps its entries in ascending order of their keys, which for strings is the order of
code points and so of UTF-8 bytes. The order is part of the type, so a dictionary has one
representation and listing it needs no sorting. The functions on bare entry lists in `Entries`
serve the objects inside a `Value` too, whose type cannot carry the proof.
-/

namespace BehaviorTree

namespace Entries

variable {α β : Type}

/-- The keys ascend strictly. -/
def Ordered (entries : List (String × α)) : Prop :=
  entries.Pairwise fun a b => a.1 < b.1

instance (entries : List (String × α)) : Decidable (Ordered entries) :=
  inferInstanceAs (Decidable (List.Pairwise _ _))

/-- Puts a value under a key, in place of the one there. -/
def put (key : String) (value : α) : List (String × α) → List (String × α)
  | [] => [(key, value)]
  | (k, v) :: rest =>
    if key < k then (key, value) :: (k, v) :: rest
    else if key = k then (key, value) :: rest
    else (k, v) :: put key value rest

/-- Drops the entry of a key. -/
def drop (key : String) (entries : List (String × α)) : List (String × α) :=
  entries.filter fun entry => entry.1 != key

/-- Entries in any order made a dictionary's: of two with one key the later stays. -/
def ofList (entries : List (String × α)) : List (String × α) :=
  entries.foldl (fun acc entry => put entry.1 entry.2 acc) []

theorem mem_put {key : String} {value : α} {entry : String × α} {entries : List (String × α)}
    (h : entry ∈ put key value entries) : entry = (key, value) ∨ entry ∈ entries := by
  induction entries with
  | nil => simpa [put] using h
  | cons head rest ih =>
    simp only [put] at h
    split at h <;> grind

theorem ordered_put (key : String) (value : α) {entries : List (String × α)}
    (h : Ordered entries) : Ordered (put key value entries) := by
  induction entries with
  | nil => simp [put, Ordered]
  | cons head rest ih =>
    obtain ⟨above, tail⟩ := List.pairwise_cons.1 h
    simp only [put]
    split
    · next lt =>
      refine List.pairwise_cons.2 ⟨?_, h⟩
      intro b hb
      rcases List.mem_cons.1 hb with rfl | hb
      · exact lt
      · exact String.lt_trans lt (above b hb)
    · next not_lt =>
      split
      · next eq =>
        subst eq
        exact List.pairwise_cons.2 ⟨above, tail⟩
      · next ne =>
        refine List.pairwise_cons.2 ⟨?_, ih tail⟩
        intro b hb
        rcases mem_put hb with rfl | hb
        · exact Std.lt_of_le_of_ne (String.not_lt.1 not_lt) (Ne.symm ne)
        · exact above b hb

theorem ordered_drop (key : String) {entries : List (String × α)} (h : Ordered entries) :
    Ordered (drop key entries) :=
  h.filter _

theorem ordered_foldl_put (entries : List (String × α)) {acc : List (String × α)}
    (h : Ordered acc) :
    Ordered (entries.foldl (fun acc entry => put entry.1 entry.2 acc) acc) := by
  induction entries generalizing acc with
  | nil => exact h
  | cons head rest ih => exact ih (ordered_put _ _ h)

theorem ordered_ofList (entries : List (String × α)) : Ordered (ofList entries) :=
  ordered_foldl_put entries List.Pairwise.nil

theorem lookup_cons (key : String) (entry : String × α) (rest : List (String × α)) :
    (entry :: rest).lookup key = if key = entry.1 then some entry.2 else rest.lookup key := by
  obtain ⟨k, v⟩ := entry
  rw [List.lookup_cons]
  by_cases h : key = k
  · simp [h]
  · rw [beq_false_of_ne h, if_neg h]

theorem lookup_eq_none {key : String} {entries : List (String × α)}
    (h : ∀ entry ∈ entries, key ≠ entry.1) : entries.lookup key = none := by
  rw [List.lookup_eq_none_iff]
  intro entry hentry
  simpa using h entry hentry

theorem lookup_put_self (key : String) (value : α) (entries : List (String × α)) :
    (put key value entries).lookup key = some value := by
  induction entries with
  | nil => simp [put]
  | cons head rest ih =>
    simp only [put]
    split
    · simp
    · split
      · simp
      · next ne => rw [lookup_cons, if_neg ne, ih]

theorem lookup_put_of_ne {key other : String} (ne : other ≠ key) (value : α)
    (entries : List (String × α)) :
    (put key value entries).lookup other = entries.lookup other := by
  induction entries with
  | nil => rw [put, lookup_cons, if_neg ne]
  | cons head rest ih =>
    simp only [put]
    split
    · rw [lookup_cons, if_neg ne]
    · split
      · next eq => rw [lookup_cons, if_neg ne, lookup_cons, if_neg (eq ▸ ne)]
      · rw [lookup_cons, lookup_cons, ih]

theorem lookup_drop_self (key : String) (entries : List (String × α)) :
    (drop key entries).lookup key = none := by
  refine lookup_eq_none fun entry hentry eq => ?_
  simpa [eq] using (List.mem_filter.1 hentry).2

theorem lookup_drop_of_ne {key other : String} (ne : other ≠ key)
    (entries : List (String × α)) : (drop key entries).lookup other = entries.lookup other := by
  induction entries with
  | nil => rfl
  | cons head rest ih =>
    rw [drop, List.filter_cons]
    split
    · rw [lookup_cons, lookup_cons, ← ih, drop]
    · next h =>
      have : head.1 = key := by simpa using h
      rw [lookup_cons, if_neg (this ▸ ne), ← ih, drop]

theorem lookup_isSome {key : String} {entries : List (String × α)} :
    (entries.lookup key).isSome = true ↔ key ∈ entries.map (·.1) := by
  induction entries with
  | nil => simp
  | cons head rest ih =>
    rw [lookup_cons, List.map_cons, List.mem_cons, ← ih]
    by_cases h : key = head.1 <;> simp [h]

theorem lookup_map (f : α → β) (key : String) (entries : List (String × α)) :
    (entries.map fun entry => (entry.1, f entry.2)).lookup key = (entries.lookup key).map f := by
  induction entries with
  | nil => rfl
  | cons head rest ih =>
    rw [List.map_cons, lookup_cons, lookup_cons, ih]
    by_cases h : key = head.1 <;> simp [h]

/-- Of values that depend on their keys alone, a key finds its own. -/
theorem lookup_foldl_put_map (f : String → α) (keys : List String) (acc : List (String × α))
    (key : String) :
    ((keys.map fun k => (k, f k)).foldl (fun acc entry => put entry.1 entry.2 acc) acc).lookup key =
      if key ∈ keys then some (f key) else acc.lookup key := by
  induction keys generalizing acc with
  | nil => simp
  | cons k rest ih =>
    rw [List.map_cons, List.foldl_cons, ih]
    by_cases here : key = k
    · subst here
      simp [lookup_put_self]
    · simp [here, lookup_put_of_ne here]

/-- What is put under a key above all others comes last. -/
theorem put_of_above {key : String} (value : α) {entries : List (String × α)}
    (above : ∀ entry ∈ entries, entry.1 < key) : put key value entries = entries ++ [(key, value)] := by
  induction entries with
  | nil => rfl
  | cons head rest ih =>
    have lt := above head List.mem_cons_self
    rw [put, if_neg (String.lt_asymm lt), if_neg (String.ne_of_lt lt).symm,
      ih fun entry member => above entry (List.mem_cons_of_mem _ member), List.cons_append]

/-- What is put under a free key is one entry more. -/
theorem put_perm {key : String} (value : α) {entries : List (String × α)}
    (free : entries.lookup key = none) : (put key value entries).Perm ((key, value) :: entries) := by
  induction entries with
  | nil => exact .refl _
  | cons head rest ih =>
    rw [lookup_cons] at free
    by_cases same : key = head.1
    · rw [if_pos same] at free
      cases free
    · rw [if_neg same] at free
      rw [put, if_neg same]
      split
      · exact .refl _
      · exact ((ih free).cons head).trans (.swap _ _ _)

theorem foldl_put_of_ordered {acc entries : List (String × α)} (ordered : Ordered (acc ++ entries)) :
    entries.foldl (fun acc entry => put entry.1 entry.2 acc) acc = acc ++ entries := by
  induction entries generalizing acc with
  | nil => simp
  | cons head rest ih =>
    have above : ∀ entry ∈ acc, entry.1 < head.1 := fun entry member =>
      (List.pairwise_append.1 ordered).2.2 entry member head List.mem_cons_self
    have next : put head.1 head.2 acc = acc ++ [head] := put_of_above head.2 above
    rw [List.foldl_cons, next, ih (by simpa using ordered), List.append_assoc,
      List.singleton_append]

/-- Entries that are in order make themselves. -/
theorem Ordered.ofList_eq {entries : List (String × α)} (ordered : Ordered entries) :
    ofList entries = entries :=
  foldl_put_of_ordered ordered

theorem lookup_of_above {key : String} {entries : List (String × α)}
    (above : ∀ entry ∈ entries, entry.1 < key) : entries.lookup key = none :=
  lookup_eq_none fun entry member eq => String.lt_irrefl _ (eq ▸ above entry member)

theorem lookup_of_below {key : String} {entries : List (String × α)}
    (h : ∀ entry ∈ entries, key < entry.1) : entries.lookup key = none :=
  lookup_eq_none fun entry hentry eq => String.lt_irrefl _ (eq ▸ h entry hentry)

/-- Every entry of an ordered list is found under its key. -/
theorem Ordered.lookup_of_mem {entries : List (String × α)} (ordered : Ordered entries)
    {entry : String × α} (member : entry ∈ entries) : entries.lookup entry.1 = some entry.2 := by
  induction entries with
  | nil => cases member
  | cons head rest ih =>
    obtain ⟨above, tail⟩ := List.pairwise_cons.1 ordered
    rw [lookup_cons]
    rcases List.mem_cons.1 member with rfl | member
    · exact if_pos rfl
    · rw [if_neg (String.ne_of_lt (above entry member)).symm, ih tail member]

/-- A key under which some list finds a value is not below all keys of that list. -/
theorem not_below_head {x y : String × α} {xs ys : List (String × α)}
    (hy : Ordered (y :: ys)) (h : (y :: ys).lookup x.1 = (x :: xs).lookup x.1) : ¬ x.1 < y.1 := by
  intro lt
  have below : ∀ entry ∈ y :: ys, x.1 < entry.1 := by
    intro entry hentry
    rcases List.mem_cons.1 hentry with rfl | hentry
    · exact lt
    · exact String.lt_trans lt ((List.pairwise_cons.1 hy).1 entry hentry)
  rw [lookup_of_below below, lookup_cons, if_pos rfl] at h
  cases h

/-- Two ordered entry lists that answer every key alike are equal. -/
theorem Ordered.ext_lookup {xs ys : List (String × α)} (hx : Ordered xs) (hy : Ordered ys)
    (h : ∀ key, xs.lookup key = ys.lookup key) : xs = ys := by
  induction xs generalizing ys with
  | nil =>
    cases ys with
    | nil => rfl
    | cons y rest =>
      have := h y.1
      rw [lookup_cons, if_pos rfl] at this
      cases this
  | cons x xs ih =>
    cases ys with
    | nil =>
      have := h x.1
      rw [lookup_cons, if_pos rfl] at this
      cases this
    | cons y ys =>
      obtain ⟨above, tail⟩ := List.pairwise_cons.1 hx
      obtain ⟨above', tail'⟩ := List.pairwise_cons.1 hy
      have keys : x.1 = y.1 :=
        String.le_antisymm (String.not_lt.1 (not_below_head hx (h y.1)))
          (String.not_lt.1 (not_below_head hy (h x.1).symm))
      have values : x.2 = y.2 := by
        have := h x.1
        rw [lookup_cons, lookup_cons, if_pos rfl, if_pos keys] at this
        exact Option.some.inj this
      have rests : xs = ys := by
        refine ih tail tail' fun key => ?_
        by_cases e : key = x.1
        · subst e
          rw [lookup_of_below above, lookup_of_below (keys ▸ above')]
        · have := h key
          rwa [lookup_cons, lookup_cons, if_neg e, if_neg (keys ▸ e)] at this
      rw [rests, Prod.ext keys values]

end Entries

/-- A finite map from strings, listed in ascending order of keys. -/
structure Dict (α : Type) where
  entries : List (String × α) := []
  ordered : Entries.Ordered entries := by exact List.Pairwise.nil

namespace Dict

variable {α β : Type}

@[ext]
theorem ext {d e : Dict α} (h : d.entries = e.entries) : d = e := by
  cases d; cases e; cases h; rfl

instance : Inhabited (Dict α) := ⟨{}⟩

instance [DecidableEq α] : DecidableEq (Dict α) := fun d e =>
  decidable_of_iff (d.entries = e.entries) ⟨ext, fun h => h ▸ rfl⟩

def empty : Dict α := {}

def isEmpty (d : Dict α) : Bool := d.entries.isEmpty

def size (d : Dict α) : Nat := d.entries.length

/-- The value under a key. -/
def get? (d : Dict α) (key : String) : Option α := d.entries.lookup key

def contains (d : Dict α) (key : String) : Bool := (d.get? key).isSome

def keys (d : Dict α) : List String := d.entries.map (·.1)

/-- The values in the order of their keys. -/
def values (d : Dict α) : List α := d.entries.map (·.2)

/-- Puts a value under a key, in place of the one there. -/
def insert (d : Dict α) (key : String) (value : α) : Dict α where
  entries := Entries.put key value d.entries
  ordered := Entries.ordered_put key value d.ordered

/-- Drops the entry of a key. -/
def erase (d : Dict α) (key : String) : Dict α where
  entries := Entries.drop key d.entries
  ordered := Entries.ordered_drop key d.ordered

/-- A dictionary of listed entries: of two with one key the later stays. -/
def ofList (entries : List (String × α)) : Dict α where
  entries := Entries.ofList entries
  ordered := Entries.ordered_ofList entries

/-- Changes the values and keeps the keys. -/
def map (f : α → β) (d : Dict α) : Dict β where
  entries := d.entries.map fun entry => (entry.1, f entry.2)
  ordered := by rw [Entries.Ordered, List.pairwise_map]; exact d.ordered

@[simp]
theorem get?_empty (key : String) : (empty : Dict α).get? key = none := rfl

@[simp]
theorem get?_insert_self (d : Dict α) (key : String) (value : α) :
    (d.insert key value).get? key = some value :=
  Entries.lookup_put_self key value d.entries

theorem get?_insert_of_ne (d : Dict α) {key other : String} (ne : other ≠ key) (value : α) :
    (d.insert key value).get? other = d.get? other :=
  Entries.lookup_put_of_ne ne value d.entries

@[simp]
theorem get?_erase_self (d : Dict α) (key : String) : (d.erase key).get? key = none :=
  Entries.lookup_drop_self key d.entries

theorem get?_erase_of_ne (d : Dict α) {key other : String} (ne : other ≠ key) :
    (d.erase key).get? other = d.get? other :=
  Entries.lookup_drop_of_ne ne d.entries

@[simp]
theorem get?_map (f : α → β) (d : Dict α) (key : String) :
    (d.map f).get? key = (d.get? key).map f :=
  Entries.lookup_map f key d.entries

theorem get?_ofList_map (f : String → α) (keys : List String) (key : String) :
    (ofList (keys.map fun k => (k, f k))).get? key = if key ∈ keys then some (f key) else none :=
  Entries.lookup_foldl_put_map f keys [] key

theorem get?_of_mem {d : Dict α} {entry : String × α} (member : entry ∈ d.entries) :
    d.get? entry.1 = some entry.2 :=
  d.ordered.lookup_of_mem member

theorem mem_entries {d : Dict α} {key : String} {value : α} :
    (key, value) ∈ d.entries ↔ d.get? key = some value := by
  refine ⟨fun member => get?_of_mem member, fun found => ?_⟩
  obtain ⟨before, after, split, -⟩ := List.lookup_eq_some_iff.1 found
  rw [split]
  exact List.mem_append_right _ List.mem_cons_self

theorem mem_values {d : Dict α} {value : α} :
    value ∈ d.values ↔ ∃ key, d.get? key = some value := by
  simp [values, ← mem_entries]

theorem values_insert_perm {d : Dict α} {key : String} (value : α) (free : d.get? key = none) :
    (d.insert key value).values.Perm (value :: d.values) :=
  (Entries.put_perm value free).map Prod.snd

theorem nodup_keys (d : Dict α) : d.keys.Nodup :=
  List.pairwise_map.2 (d.ordered.imp String.ne_of_lt)

/-- A dictionary is made of its own entries. -/
theorem ofList_entries (d : Dict α) : ofList d.entries = d := ext d.ordered.ofList_eq

/-- A dictionary is determined by what it answers. -/
theorem ext_get? {d e : Dict α} (h : ∀ key, d.get? key = e.get? key) : d = e :=
  ext (d.ordered.ext_lookup e.ordered h)

theorem erase_of_free {d : Dict α} {key : String} (free : d.get? key = none) :
    d.erase key = d := by
  apply ext_get?
  intro other
  by_cases here : other = key
  · rw [here, get?_erase_self, free]
  · exact d.get?_erase_of_ne here

end Dict

end BehaviorTree
