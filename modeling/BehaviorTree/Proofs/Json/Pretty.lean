import BehaviorTree.Proofs.Json.Numerals

/-!
# Reading pretty text

The reader takes the pretty text of a JSON tree back to the tree that the text shows
(`read_pretty`). That is the tree itself but for three things: a number that is not finite is
written as `null`, any other number is what its numeral is read as, and a container inside
`maxDepth` others is unreadable.
-/

namespace BehaviorTree.Json

/-! ## Strings -/

variable {rest : List Char}

theorem readPieces_plain {c : Char} (not_quote : c ≠ '"') (not_escape : c ≠ '\\')
    (not_control : ¬ c.toNat < 0x20) : readPieces (c :: rest) =
      (readPieces rest).map fun (pieces, rest) => (.char c :: pieces, rest) := by
  rw [readPieces.eq_5 _ _ not_quote (fun _ _ _ _ _ is _ => not_escape is)
    (fun _ _ is _ => not_escape is), if_neg not_control]
  cases readPieces rest <;> rfl

theorem readPieces_letter {letter c : Char} (known : escapeChar? letter = some c) :
    readPieces ('\\' :: letter :: rest) =
      (readPieces rest).map fun (pieces, rest) => (.char c :: pieces, rest) := by
  rw [readPieces.eq_4 _ _ (by rintro _ _ _ _ _ rfl; cases known), known]
  cases readPieces rest <;> rfl

theorem readPieces_unit {a b c d : Char} {n : Nat} (known : codeUnit? a b c d = some n) :
    readPieces ('\\' :: 'u' :: a :: b :: c :: d :: rest) =
      (readPieces rest).map fun (pieces, rest) => (.unit n :: pieces, rest) := by
  rw [readPieces, known]
  cases readPieces rest <;> rfl

/-- A character that was escaped is read as one piece, which spells it. -/
theorem readPieces_escape (c : Char) : ∃ p,
    (∀ rest, readPieces (escape c ++ rest) =
      (readPieces rest).map fun (pieces, rest) => (p :: pieces, rest)) ∧
    ∀ pieces, spell (p :: pieces) = (spell pieces).map (c :: ·) := by
  unfold escape
  split
  case h_8 not_quote not_escape _ _ _ _ _ =>
    by_cases control : c.toNat < 0x20
    · have units : ∀ n < 0x20,
          codeUnit? '0' '0' (hexChar (n / 16)) (hexChar (n % 16)) = some n := by decide
      have trail : isTrailUnit c.toNat = false := by simp [isTrailUnit]; omega
      have lead : isLeadUnit c.toNat = false := by simp [isLeadUnit]; omega
      simp only [if_pos control]
      exact ⟨.unit c.toNat, fun rest => readPieces_unit (units c.toNat control),
        fun pieces => by simp [spell.eq_def (_ :: _), trail, lead]⟩
    · simp only [if_neg control]
      exact ⟨.char c, fun rest => readPieces_plain not_quote not_escape control, fun _ => rfl⟩
  all_goals exact ⟨.char _, fun rest => readPieces_letter rfl, fun _ => rfl⟩

/-- A quoted string is read as the characters that were escaped, up to its closing quote. -/
theorem readStringBody_escape (cs rest : List Char) :
    readStringBody (cs.flatMap escape ++ '"' :: rest) = some (some cs, rest) := by
  have pieces : ∃ pieces, readPieces (cs.flatMap escape ++ '"' :: rest) = some (pieces, rest) ∧
      spell pieces = some cs := by
    induction cs with
    | nil => exact ⟨[], rfl, rfl⟩
    | cons c cs ih =>
      obtain ⟨pieces, taken, spelled⟩ := ih
      obtain ⟨p, read, spells⟩ := readPieces_escape c
      refine ⟨p :: pieces, ?_, by rw [spells, spelled]; rfl⟩
      rw [List.flatMap_cons, List.append_assoc, read, taken]
      rfl
  obtain ⟨pieces, taken, spelled⟩ := pieces
  simp only [readStringBody, taken, Option.map_some, spelled]

/-! ## What a text shows -/

/-- What the text of a number is read as. -/
def numeral (cs : List Char) : Json := ((readNumber cs).map (·.1)).getD .unreadable

mutual

/-- The tree that is read from the text of a tree, inside `depth` containers. -/
def shown (depth : Nat) : Json → Json
  | .null | .unreadable => .null
  | .bool b => .bool b
  | .integer n => numeral (integerText n)
  | .number x => if x.isFinite then numeral (x.render Number.jsonLayout) else .null
  | .string s => .string s
  | .array items =>
    if depth < maxDepth then .array (shownItems (depth + 1) items) else .unreadable
  | .object members =>
    if depth < maxDepth then .object (shownMembers (depth + 1) members) else .unreadable

def shownItems (depth : Nat) : List Json → List Json
  | [] => []
  | item :: items => shown depth item :: shownItems depth items

def shownMembers (depth : Nat) : List (String × Json) → List (String × Json)
  | [] => []
  | (key, value) :: members => (key, shown depth value) :: shownMembers depth members

end

/-! ## Blanks -/

theorem skipBlanks_cons {c : Char} {cs : List Char} (ink : isBlank c = false) :
    skipBlanks (c :: cs) = c :: cs := by
  rw [skipBlanks, List.dropWhile_cons, ink]
  rfl

theorem skipBlanks_newLine (level : Nat) (cs : List Char) :
    skipBlanks (newLine level ++ cs) = skipBlanks cs := by
  have blanks (count : Nat) : ∀ c ∈ List.replicate count ' ', isBlank c = true :=
    fun _ member => List.eq_of_mem_replicate member ▸ rfl
  have line : ∀ c ∈ newLine level, isBlank c = true :=
    List.forall_mem_cons.2 ⟨rfl, blanks _⟩
  exact List.dropWhile_append_of_pos line

/-- Leading blanks do not matter. -/
theorem readValue_skipBlanks {fuel depth : Nat} {cs cs' : List Char}
    (same : skipBlanks cs = skipBlanks cs') :
    readValue fuel depth cs = readValue fuel depth cs' := by
  cases fuel with
  | zero => rw [readValue, readValue]
  | succ fuel => rw [readValue, readValue, same]

/-! ## One value -/

variable {fuel depth level : Nat}

/-- The characters with which a value may begin. -/
def Begins (c : Char) : Prop := isBlank c = false ∧ c ≠ ']' ∧ c ≠ '\x7d'

theorem isBlank_of_isDigit {c : Char} (digit : isDigit c = true) : isBlank c = false := by
  rw [← Bool.not_eq_true]
  intro blank
  simp only [isBlank, Bool.or_eq_true, beq_iff_eq] at blank
  rcases blank with ((rfl | rfl) | rfl) | rfl <;> cases digit

/-- The reader takes a numeral whole. -/
theorem readValue_numeral {cs : List Char} (is : IsNumeral cs) (ends : EndsNumeral rest) :
    readValue (fuel + 1) depth (cs ++ rest) = some (numeral cs, rest) := by
  obtain ⟨⟨c, cs, rfl, first⟩, j, reads⟩ := is
  have whole : numeral (c :: cs) = j := by
    have alone := reads [] (by simp [EndsNumeral])
    rw [List.append_nil] at alone
    rw [numeral, alone]
    rfl
  have ink : isBlank c = false := by
    rcases first with rfl | digit
    · rfl
    · exact isBlank_of_isDigit digit
  rw [readValue, List.cons_append, skipBlanks_cons ink, whole, ← reads rest ends]
  split
  case h_7 => rfl
  all_goals
    next eq =>
      obtain ⟨rfl, -⟩ := List.cons.inj eq
      exact absurd first (by decide)

theorem readValue_quote (s : String) :
    readValue (fuel + 1) depth (quote s ++ rest) = some (.string s, rest) := by
  have body : quote s ++ rest = '"' :: (s.toList.flatMap escape ++ '"' :: rest) := by simp [quote]
  rw [readValue, body, skipBlanks_cons rfl]
  simp [readStringBody_escape, String.ofList_toList]

/-- An array is what its items are read as, unless it stands too deep. -/
theorem readValue_items {items : List Json} {c : Char} {cs : List Char} (begins : Begins c)
    (inside : readItems fuel (depth + 1) (c :: cs) = some (items, rest)) :
    readValue (fuel + 1) depth ('[' :: newLine level ++ c :: cs) =
      some (if depth < maxDepth then .array items else .unreadable, rest) := by
  rw [readValue, List.cons_append, skipBlanks_cons rfl]
  simp only [skipBlanks_newLine, skipBlanks_cons begins.1]
  split
  · next eq => exact absurd (List.cons.inj eq).1 begins.2.1
  · rw [inside]
    rfl

/-- An object is what its members are read as, unless it stands too deep. -/
theorem readValue_members {members : List (String × Json)} {c : Char} {cs : List Char}
    (begins : Begins c)
    (inside : readMembers fuel (depth + 1) (c :: cs) = some (some members, rest)) :
    readValue (fuel + 1) depth ('\x7b' :: newLine level ++ c :: cs) =
      some (if depth < maxDepth then .object members else .unreadable, rest) := by
  rw [readValue, List.cons_append, skipBlanks_cons rfl]
  simp only [skipBlanks_newLine, skipBlanks_cons begins.1]
  split
  · next eq => exact absurd (List.cons.inj eq).1 begins.2.2
  · rw [inside]
    rfl

/-! ## Items and members -/

variable {cs more : List Char} {item : Json} {items : List Json} {key : String}
  {members : List (String × Json)}

theorem readItems_last
    (value : readValue fuel depth cs = some (item, newLine level ++ ']' :: rest)) :
    readItems (fuel + 1) depth cs = some ([item], rest) := by
  rw [readItems, value]
  simp [skipBlanks_newLine, skipBlanks_cons (c := ']') rfl]

theorem readItems_next (value : readValue fuel depth cs = some (item, ',' :: more))
    (others : readItems fuel depth more = some (items, rest)) :
    readItems (fuel + 1) depth cs = some (item :: items, rest) := by
  rw [readItems, value]
  simp [skipBlanks_cons (c := ',') rfl, others]

theorem readItems_skipBlanks {cs' : List Char} (same : skipBlanks cs = skipBlanks cs') :
    readItems fuel depth cs = readItems fuel depth cs' := by
  cases fuel with
  | zero => rw [readItems, readItems]
  | succ fuel => rw [readItems, readItems, readValue_skipBlanks same]

theorem readMembers_last
    (value : readValue fuel depth cs = some (item, newLine level ++ '\x7d' :: rest)) :
    readMembers (fuel + 1) depth (quote key ++ ':' :: ' ' :: cs) =
      some (some [(key, item)], rest) := by
  have body : quote key ++ ':' :: ' ' :: cs =
      '"' :: (key.toList.flatMap escape ++ '"' :: ':' :: ' ' :: cs) := by simp [quote]
  have spaced : readValue fuel depth (' ' :: cs) = readValue fuel depth cs :=
    readValue_skipBlanks rfl
  rw [readMembers, body, skipBlanks_cons rfl]
  simp [readStringBody_escape, skipBlanks_cons (c := ':') rfl, spaced, value, skipBlanks_newLine,
    skipBlanks_cons (c := '\x7d') rfl, String.ofList_toList]

theorem readMembers_next (value : readValue fuel depth cs = some (item, ',' :: more))
    (others : readMembers fuel depth more = some (some members, rest)) :
    readMembers (fuel + 1) depth (quote key ++ ':' :: ' ' :: cs) =
      some (some ((key, item) :: members), rest) := by
  have body : quote key ++ ':' :: ' ' :: cs =
      '"' :: (key.toList.flatMap escape ++ '"' :: ':' :: ' ' :: cs) := by simp [quote]
  have spaced : readValue fuel depth (' ' :: cs) = readValue fuel depth cs :=
    readValue_skipBlanks rfl
  rw [readMembers, body, skipBlanks_cons rfl]
  simp [readStringBody_escape, skipBlanks_cons (c := ':') rfl, spaced, value,
    skipBlanks_cons (c := ',') rfl, others, String.ofList_toList]

theorem readMembers_skipBlanks {cs' : List Char} (same : skipBlanks cs = skipBlanks cs') :
    readMembers fuel depth cs = readMembers fuel depth cs' := by
  cases fuel with
  | zero => rw [readMembers, readMembers]
  | succ fuel => rw [readMembers, readMembers, same]

/-! ## Whole trees -/

/-- The items of an array as they are written between the first line end and the bracket, and the
bracket. -/
def itemsText (level : Nat) : List Json → List Char
  | [] => []
  | item :: items => pretty (level + 1) item ++ prettyItems level items

/-- The members of an object as they are written between the first line end and the brace, and the
brace. -/
def membersText (level : Nat) : List (String × Json) → List Char
  | [] => []
  | (key, value) :: members =>
    quote key ++ ':' :: ' ' :: pretty (level + 1) value ++ prettyMembers level members

/-- JSON has no numeral for what is not finite. -/
theorem render_of_not_finite {x : Number} (infinite : x.isFinite = false) :
    x.render Number.jsonLayout = ['n', 'u', 'l', 'l'] := by
  rw [Number.render, infinite]
  cases x.isNaN <;> cases x.isNegative <;> rfl

theorem IsNumeral.begins {cs : List Char} (is : IsNumeral cs) :
    ∃ c rest, cs = c :: rest ∧ Begins c := by
  obtain ⟨c, rest, eq, first⟩ := is.starts
  refine ⟨c, rest, eq, ?_⟩
  rcases first with rfl | digit
  · exact ⟨rfl, by decide, by decide⟩
  · refine ⟨isBlank_of_isDigit digit, ?_, ?_⟩ <;> rintro rfl <;> cases digit

theorem begins_pretty (level : Nat) (j : Json) : ∃ c cs, pretty level j = c :: cs ∧ Begins c := by
  match j with
  | .null | .unreadable => exact ⟨'n', _, rfl, by simp [Begins, isBlank]⟩
  | .bool true => exact ⟨'t', _, rfl, by simp [Begins, isBlank]⟩
  | .bool false => exact ⟨'f', _, rfl, by simp [Begins, isBlank]⟩
  | .integer n => exact (isNumeral_integerText n).begins
  | .number x =>
    rw [pretty]
    cases finite : x.isFinite with
    | true => exact (isNumeral_render finite).begins
    | false => exact ⟨'n', _, render_of_not_finite finite, by simp [Begins, isBlank]⟩
  | .string s => exact ⟨'"', _, rfl, by simp [Begins, isBlank]⟩
  | .array [] | .array (_ :: _) => exact ⟨'[', _, rfl, by simp [Begins, isBlank]⟩
  | .object [] | .object ((_, _) :: _) => exact ⟨'\x7b', _, rfl, by simp [Begins, isBlank]⟩

theorem begins_itemsText (level : Nat) (item : Json) (items : List Json) (rest : List Char) :
    ∃ c cs, itemsText level (item :: items) ++ rest = c :: cs ∧ Begins c := by
  obtain ⟨c, cs, eq, begins⟩ := begins_pretty (level + 1) item
  exact ⟨c, _, by rw [itemsText, eq]; rfl, begins⟩

/-- What follows an item or a member does not go on with a numeral. -/
theorem endsNumeral_of_head {c : Char} {rest : List Char} (separator : c = ',' ∨ c = '\n') :
    EndsNumeral (c :: rest) := by
  rintro _ ⟨⟩
  rcases separator with rfl | rfl <;> decide

/-! The three laws are proved together by induction on the fuel. The text that is left to read pays
for it: each reader spends one and hands on a text that is shorter by a character at least. -/

mutual

/-- The reader takes the text of a value whole, if what follows does not go on with a numeral. -/
theorem readValue_pretty (j : Json) {fuel depth level : Nat} {rest : List Char}
    (enough : (pretty level j).length ≤ fuel) (ends : EndsNumeral rest) :
    readValue fuel depth (pretty level j ++ rest) = some (shown depth j, rest) := by
  obtain ⟨c, cs, first, -⟩ := begins_pretty level j
  obtain ⟨fuel, rfl⟩ : ∃ f, fuel = f + 1 :=
    ⟨fuel - 1, by rw [first, List.length_cons] at enough; omega⟩
  match j with
  | .null | .unreadable => rw [readValue, pretty, List.cons_append, skipBlanks_cons rfl]; rfl
  | .bool true => rw [readValue, pretty, List.cons_append, skipBlanks_cons rfl]; rfl
  | .bool false => rw [readValue, pretty, List.cons_append, skipBlanks_cons rfl]; rfl
  | .integer n => exact readValue_numeral (isNumeral_integerText n) ends
  | .number x =>
    rw [pretty, shown]
    cases finite : x.isFinite with
    | true => exact readValue_numeral (isNumeral_render finite) ends
    | false =>
      rw [render_of_not_finite finite, readValue, List.cons_append, skipBlanks_cons rfl]
      rfl
  | .string s => exact readValue_quote s
  | .array [] =>
    rw [readValue, pretty, List.cons_append, skipBlanks_cons rfl]
    simp [skipBlanks_cons (c := ']') rfl, shown, shownItems]
  | .array (item :: items) =>
    have text : pretty level (.array (item :: items)) ++ rest =
        '[' :: newLine (level + 1) ++ (itemsText level (item :: items) ++ rest) := by
      simp [pretty, itemsText]
    have room : (itemsText level (item :: items)).length ≤ fuel := by
      simp [pretty, itemsText] at enough ⊢
      omega
    obtain ⟨c, cs, eq, begins⟩ := begins_itemsText level item items rest
    have inside := readItems_pretty item items (depth + 1) rest room
    rw [eq] at inside
    rw [text, eq, readValue_items begins inside, shown]
  | .object [] =>
    rw [readValue, pretty, List.cons_append, skipBlanks_cons rfl]
    simp [skipBlanks_cons (c := '\x7d') rfl, shown, shownMembers]
  | .object ((key, value) :: members) =>
    have text : pretty level (.object ((key, value) :: members)) ++ rest = '\x7b' ::
        newLine (level + 1) ++ (membersText level ((key, value) :: members) ++ rest) := by
      simp [pretty, membersText]
    have room : (membersText level ((key, value) :: members)).length ≤ fuel := by
      simp [pretty, membersText] at enough ⊢
      omega
    have inside := readMembers_pretty key value members (depth + 1) rest room
    have begins : Begins '"' := by simp [Begins, isBlank]
    rw [text, shown]
    exact readValue_members begins inside
termination_by fuel

/-- Items are read up to the bracket after them. -/
theorem readItems_pretty (item : Json) (items : List Json) {fuel level : Nat} (depth : Nat)
    (rest : List Char) (enough : (itemsText level (item :: items)).length ≤ fuel) :
    readItems fuel depth (itemsText level (item :: items) ++ rest) =
      some (shownItems depth (item :: items), rest) := by
  obtain ⟨c, cs, first, -⟩ := begins_itemsText level item items []
  obtain ⟨fuel, rfl⟩ : ∃ f, fuel = f + 1 :=
    ⟨fuel - 1, by rw [List.append_nil] at first; rw [first, List.length_cons] at enough; omega⟩
  match items with
  | [] =>
    have text : itemsText level [item] ++ rest =
        pretty (level + 1) item ++ (newLine level ++ ']' :: rest) := by
      simp [itemsText, prettyItems]
    have room : (pretty (level + 1) item).length ≤ fuel := by
      simp [itemsText, prettyItems] at enough
      omega
    rw [text]
    exact readItems_last (readValue_pretty item room (endsNumeral_of_head (.inr rfl)))
  | next :: more =>
    have text : itemsText level (item :: next :: more) ++ rest = pretty (level + 1) item ++
        ',' :: (newLine (level + 1) ++ (itemsText level (next :: more) ++ rest)) := by
      simp [itemsText, prettyItems]
    have room : (pretty (level + 1) item).length ≤ fuel ∧
        (itemsText level (next :: more)).length ≤ fuel := by
      simp [itemsText, prettyItems] at enough ⊢
      omega
    have others := readItems_pretty next more depth rest room.2
    rw [readItems_skipBlanks (skipBlanks_newLine (level + 1) _).symm] at others
    rw [text]
    exact readItems_next (readValue_pretty item room.1 (endsNumeral_of_head (.inl rfl))) others
termination_by fuel

/-- Members are read up to the brace after them. -/
theorem readMembers_pretty (key : String) (value : Json) (members : List (String × Json))
    {fuel level : Nat} (depth : Nat) (rest : List Char)
    (enough : (membersText level ((key, value) :: members)).length ≤ fuel) :
    readMembers fuel depth (membersText level ((key, value) :: members) ++ rest) =
      some (some (shownMembers depth ((key, value) :: members)), rest) := by
  obtain ⟨fuel, rfl⟩ : ∃ f, fuel = f + 1 :=
    ⟨fuel - 1, by simp [membersText] at enough; omega⟩
  match members with
  | [] =>
    have text : membersText level [(key, value)] ++ rest = quote key ++ ':' :: ' ' ::
        (pretty (level + 1) value ++ (newLine level ++ '\x7d' :: rest)) := by
      simp [membersText, prettyMembers]
    have room : (pretty (level + 1) value).length ≤ fuel := by
      simp [membersText, prettyMembers] at enough
      omega
    rw [text]
    exact readMembers_last (readValue_pretty value room (endsNumeral_of_head (.inr rfl)))
  | (next, item) :: more =>
    have text : membersText level ((key, value) :: (next, item) :: more) ++ rest =
        quote key ++ ':' :: ' ' :: (pretty (level + 1) value ++ ',' ::
          (newLine (level + 1) ++ (membersText level ((next, item) :: more) ++ rest))) := by
      simp [membersText, prettyMembers]
    have room : (pretty (level + 1) value).length ≤ fuel ∧
        (membersText level ((next, item) :: more)).length ≤ fuel := by
      simp [membersText, prettyMembers] at enough ⊢
      omega
    have others := readMembers_pretty next item more depth rest room.2
    rw [readMembers_skipBlanks (skipBlanks_newLine (level + 1) _).symm] at others
    rw [text]
    exact readMembers_next (readValue_pretty value room.1 (endsNumeral_of_head (.inl rfl))) others
termination_by fuel

end

/-- The pretty text of a tree is read as what it shows. -/
theorem read_pretty (j : Json) : read (pretty 0 j) = some (shown 0 j) := by
  have ends : EndsNumeral [] := by simp [EndsNumeral]
  have room : (pretty 0 j).length ≤ 2 * (pretty 0 j).length + 2 := by omega
  have whole : readValue _ 0 (pretty 0 j ++ []) = _ := readValue_pretty j room ends
  rw [List.append_nil] at whole
  rw [read, whole]
  rfl

end BehaviorTree.Json
