import Pacing.Proofs.JsonTokens

/-!
# Written values are read back

Writing a value takes two steps: it is spelled in tokens, and the tokens are set out with blanks
between them. Reading undoes the two in turn. Cutting text into tokens undoes the layout, for values
whose numbers have no superfluous zeros, and building a value from tokens undoes the spelling, for
all values.
-/

namespace Pacing.Json

/-- A value in which all numbers are integers and all strings can be read. -/
inductive Plain : Json → Prop where
  | null : Plain .null
  | bool (b : Bool) : Plain (.bool b)
  | int (n : Int) : Plain (.int n)
  | text (s : String) : Plain (.text s)
  | array {items : List Json} : (∀ j ∈ items, Plain j) → Plain (.array items)
  | record {members : List (String × Json)} : (∀ m ∈ members, Plain m.2) → Plain (.record members)

mutual

/-- The tokens of a value. -/
def spell : Json → List Token
  | .null => [.null]
  | .bool b => [.bool b]
  | .number n => [.number n]
  | .string s => [.string s]
  | .array [] => [.openArray, .closeArray]
  | .array (item :: items) => .openArray :: spell item ++ spellItems items
  | .object [] => [.openObject, .closeObject]
  | .object (member :: members) => .openObject :: spellMember member ++ spellMembers members

/-- The tokens of the items after the first, up to the closing bracket. -/
def spellItems : List Json → List Token
  | [] => [.closeArray]
  | item :: items => .comma :: spell item ++ spellItems items

/-- The tokens of a key with its value. -/
def spellMember : Option String × Json → List Token
  | (key, value) => .string key :: .colon :: spell value

/-- The tokens of the members after the first, up to the closing brace. -/
def spellMembers : List (Option String × Json) → List Token
  | [] => [.closeObject]
  | member :: members => .comma :: spellMember member ++ spellMembers members

end

/-- Nothing but blanks stands between the parts. -/
structure Layout.Blank (layout : Layout) : Prop where
  before (depth : Nat) : ∀ c ∈ layout.before depth, isBlank c = true
  afterColon : ∀ c ∈ layout.afterColon, isBlank c = true

variable {layout : Layout} {done : List Token} {rest : List Char} {depth : Nat}

/-- Before a comma or a closing bracket a value has ended, with or without blanks between them. -/
theorem Layout.Blank.ends_before (h : layout.Blank) (depth : Nat) {c : Char}
    (hc : c = ',' ∨ c = ']' ∨ c = '}') : Ends (layout.before depth ++ c :: rest) := by
  intro d hd
  cases hbefore : layout.before depth with
  | nil =>
    rw [hbefore] at hd
    cases hd
    exact .inr hc
  | cons b blanks =>
    rw [hbefore] at hd
    cases hd
    exact .inl (h.before depth d (by simp [hbefore]))

/-- The blanks before a closing bracket are passed over. -/
theorem tokens?_closing (h : layout.Blank) {c : Char} {t : Token} (ht : punctuation? c = some t) :
    tokens? done (layout.before depth ++ c :: rest) = tokens? (t :: done) rest := by
  rw [tokens?_blanks (h.before depth), tokens?_punctuation ht]

/-- The text of a value is cut into its tokens. -/
def Cuts (layout : Layout) (j : Json) : Prop :=
  ∀ (depth : Nat) (done : List Token) (rest : List Char), Ends rest →
    tokens? done (print layout depth j ++ rest) = tokens? ((spell j).reverse ++ done) rest

/-- Behind an item the remaining ones begin with a comma or the closing bracket. -/
theorem ends_printItems (h : layout.Blank) (items : List Json) :
    Ends (printItems layout depth items ++ rest) := by
  cases items with
  | nil =>
    rw [printItems, List.append_assoc, List.singleton_append]
    exact h.ends_before depth (by simp)
  | cons item items =>
    intro c hc
    simp only [printItems, List.cons_append, List.head?_cons] at hc
    cases hc
    simp

/-- The remaining items are cut into their tokens if each of them is. -/
theorem tokens?_printItems (h : layout.Blank) {items : List Json}
    (hitems : ∀ j ∈ items, Cuts layout j) (done : List Token) :
    tokens? done (printItems layout depth items ++ rest) =
      tokens? ((spellItems items).reverse ++ done) rest := by
  induction items generalizing done with
  | nil =>
    rw [printItems, List.append_assoc, List.singleton_append,
      tokens?_closing h (t := .closeArray) rfl]
    rfl
  | cons item items ih =>
    obtain ⟨hitem, hitems⟩ := List.forall_mem_cons.mp hitems
    rw [printItems, List.append_assoc, List.append_assoc, List.cons_append,
      tokens?_punctuation (t := .comma) rfl, tokens?_blanks (h.before _),
      hitem _ _ _ (ends_printItems h items), ih hitems]
    simp [spellItems]

/-- A key with its value is cut into their tokens if the value is. -/
theorem tokens?_printMember (h : layout.Blank) (key : String) {value : Json}
    (hvalue : Cuts layout value) (hrest : Ends rest) (done : List Token) :
    tokens? done (printMember layout depth (some key, value) ++ rest) =
      tokens? ((spellMember (some key, value)).reverse ++ done) rest := by
  rw [printMember, List.append_assoc, List.append_assoc, List.cons_append, Option.getD_some,
    tokens?_quoted, tokens?_punctuation (t := .colon) rfl, tokens?_blanks h.afterColon,
    hvalue _ _ _ hrest]
  simp [spellMember]

/-- Behind a member the remaining ones begin with a comma or the closing brace. -/
theorem ends_printMembers (h : layout.Blank) (members : List (Option String × Json)) :
    Ends (printMembers layout depth members ++ rest) := by
  cases members with
  | nil =>
    rw [printMembers, List.append_assoc, List.singleton_append]
    exact h.ends_before depth (by simp)
  | cons member members =>
    intro c hc
    simp only [printMembers, List.cons_append, List.head?_cons] at hc
    cases hc
    simp

/-- The remaining members are cut into their tokens if each of their values is. -/
theorem tokens?_printMembers (h : layout.Blank) {members : List (String × Json)}
    (hmembers : ∀ m ∈ members, Cuts layout m.2) (done : List Token) :
    tokens? done (printMembers layout depth (members.map fun m => (some m.1, m.2)) ++ rest) =
      tokens? ((spellMembers (members.map fun m => (some m.1, m.2))).reverse ++ done) rest := by
  induction members generalizing done with
  | nil =>
    rw [List.map_nil, printMembers, List.append_assoc, List.singleton_append,
      tokens?_closing h (t := .closeObject) rfl]
    rfl
  | cons member members ih =>
    obtain ⟨hmember, hmembers⟩ := List.forall_mem_cons.mp hmembers
    rw [List.map_cons, printMembers, List.append_assoc, List.append_assoc, List.cons_append,
      tokens?_punctuation (t := .comma) rfl, tokens?_blanks (h.before _),
      tokens?_printMember h _ hmember (ends_printMembers h _), ih hmembers]
    simp [spellMembers]

/-- An array is cut into its tokens if its items are. -/
theorem Cuts.array (h : layout.Blank) {items : List Json} (hitems : ∀ j ∈ items, Cuts layout j) :
    Cuts layout (.array items) := by
  intro depth done rest hrest
  cases items with
  | nil =>
    rw [print, List.cons_append, tokens?_punctuation (t := .openArray) rfl, List.singleton_append,
      tokens?_punctuation (t := .closeArray) rfl]
    rfl
  | cons item items =>
    obtain ⟨hitem, hitems⟩ := List.forall_mem_cons.mp hitems
    rw [print, List.append_assoc, List.append_assoc, List.cons_append,
      tokens?_punctuation (t := .openArray) rfl, tokens?_blanks (h.before _),
      hitem _ _ _ (ends_printItems h items), tokens?_printItems h hitems]
    simp [spell]

/-- A record is cut into its tokens if the values in it are. -/
theorem Cuts.record (h : layout.Blank) {members : List (String × Json)}
    (hmembers : ∀ m ∈ members, Cuts layout m.2) : Cuts layout (.record members) := by
  intro depth done rest hrest
  cases members with
  | nil =>
    rw [Json.record, List.map_nil, print, List.cons_append,
      tokens?_punctuation (t := .openObject) rfl, List.singleton_append,
      tokens?_punctuation (t := .closeObject) rfl]
    rfl
  | cons member members =>
    obtain ⟨hmember, hmembers⟩ := List.forall_mem_cons.mp hmembers
    rw [Json.record, List.map_cons, print, List.append_assoc, List.append_assoc, List.cons_append,
      tokens?_punctuation (t := .openObject) rfl, tokens?_blanks (h.before _),
      tokens?_printMember h _ hmember (ends_printMembers h _), tokens?_printMembers h hmembers]
    simp [spell]

/-- The null is cut into its token. -/
theorem Cuts.null : Cuts layout .null :=
  fun _ done _ hrest => tokens?_literal done rfl hrest

/-- A canonical number is cut into its token. -/
theorem Cuts.number {n : Number} (hn : n.Canonical) : Cuts layout (.number n) :=
  fun _ done _ hrest => tokens?_number done hn hrest

/-- The text of a plain value is cut into its tokens. -/
theorem cuts_of_plain {j : Json} (hj : Plain j) (h : layout.Blank) : Cuts layout j := by
  induction hj with
  | null => exact .null
  | bool b =>
    cases b with
    | false => exact fun _ done rest hrest => tokens?_literal done rfl hrest
    | true => exact fun _ done rest hrest => tokens?_literal done rfl hrest
  | int n => exact .number (Number.canonical_ofInt n)
  | text s => exact fun _ done rest _ => tokens?_quoted done s rest
  | array _ ih => exact .array h ih
  | record _ ih => exact .record h ih

/-- Tokens of a value are read as that value. -/
def Reads (j : Json) : Prop :=
  ∀ (frames : List Frame) (rest : List Token),
    readValue? frames (spell j ++ rest) = readAfter? frames j rest

/-- The remaining items of an array are read one by one, up to its closing bracket. -/
theorem readAfter?_spellItems {items : List Json} (hitems : ∀ j ∈ items, Reads j)
    (frames : List Frame) (before : List Json) (item : Json) (rest : List Token) :
    readAfter? (.array before :: frames) item (spellItems items ++ rest) =
      readAfter? frames (.array (before.reverse ++ item :: items)) rest := by
  induction items generalizing before item with
  | nil => simp [spellItems, readAfter?]
  | cons next items ih =>
    obtain ⟨hnext, hitems⟩ := List.forall_mem_cons.mp hitems
    rw [spellItems, List.append_assoc, List.cons_append, readAfter?, hnext, ih hitems]
    simp

/-- The remaining members of an object are read one by one, up to its closing brace. -/
theorem readAfter?_spellMembers {members : List (Option String × Json)}
    (hmembers : ∀ m ∈ members, Reads m.2) (frames : List Frame)
    (before : List (Option String × Json)) (key : Option String) (value : Json)
    (rest : List Token) :
    readAfter? (.object before key :: frames) value (spellMembers members ++ rest) =
      readAfter? frames (.object (before.reverse ++ (key, value) :: members)) rest := by
  induction members generalizing before key value with
  | nil => simp [spellMembers, readAfter?]
  | cons next members ih =>
    obtain ⟨nextKey, nextValue⟩ := next
    obtain ⟨hnext, hmembers⟩ := List.forall_mem_cons.mp hmembers
    rw [spellMembers, spellMember, List.append_assoc, List.cons_append, List.cons_append,
      List.cons_append, readAfter?, hnext, ih hmembers]
    simp

/-- No value begins with the end of an array. -/
theorem spell_ne_closeArray (j : Json) (rest after : List Token) :
    spell j ++ rest ≠ .closeArray :: after := by
  cases j with
  | null => simp [spell]
  | bool b => simp [spell]
  | number n => simp [spell]
  | string s => simp [spell]
  | array items => cases items <;> simp [spell]
  | object members => cases members <;> simp [spell]

/-- An array is read back if its items are. -/
theorem reads_array {items : List Json} (hitems : ∀ j ∈ items, Reads j) : Reads (.array items) := by
  intro frames rest
  cases items with
  | nil => simp [spell, readValue?]
  | cons item items =>
    obtain ⟨hitem, hitems⟩ := List.forall_mem_cons.mp hitems
    rw [spell, List.append_assoc, List.cons_append, readValue?, hitem,
      readAfter?_spellItems hitems]
    · rfl
    · exact fun after h => spell_ne_closeArray item _ after h

/-- An object is read back if the values in it are. -/
theorem reads_object {members : List (Option String × Json)} (hmembers : ∀ m ∈ members, Reads m.2) :
    Reads (.object members) := by
  intro frames rest
  cases members with
  | nil => simp [spell, readValue?]
  | cons member members =>
    obtain ⟨key, value⟩ := member
    obtain ⟨hmember, hmembers⟩ := List.forall_mem_cons.mp hmembers
    rw [spell, spellMember, List.append_assoc, List.cons_append, List.cons_append,
      List.cons_append, readValue?, hmember, readAfter?_spellMembers hmembers]
    rfl

mutual

/-- The tokens of any value are read as that value. -/
theorem reads : (j : Json) → Reads j
  | .null => fun frames rest => by simp [spell, readValue?]
  | .bool b => fun frames rest => by simp [spell, readValue?]
  | .number n => fun frames rest => by simp [spell, readValue?]
  | .string s => fun frames rest => by simp [spell, readValue?]
  | .array items => reads_array (reads_items items)
  | .object members => reads_object (reads_members members)

/-- Each of some items is read back. -/
theorem reads_items : (items : List Json) → ∀ j ∈ items, Reads j
  | [] => List.forall_mem_nil _
  | item :: items => List.forall_mem_cons.mpr ⟨reads item, reads_items items⟩

/-- The value of each of some members is read back. -/
theorem reads_members : (members : List (Option String × Json)) → ∀ m ∈ members, Reads m.2
  | [] => List.forall_mem_nil _
  | (_, value) :: members => List.forall_mem_cons.mpr ⟨reads value, reads_members members⟩

end

/-- A value that is cut into its tokens is read back from what is written. -/
theorem Cuts.ofChars?_print {j : Json} (hj : Cuts layout j) :
    ofChars? (print layout 0 j) = some j := by
  have hcut := hj 0 [] [] (by simp [Ends])
  rw [List.append_nil, List.append_nil] at hcut
  have hread := reads j [] []
  rw [List.append_nil] at hread
  simp [ofChars?, hcut, tokens?, hread, readAfter?]

/-- The compact layout has nothing between the parts. -/
theorem Layout.Blank.compact : Layout.compact.Blank where
  before depth c hc := by cases hc
  afterColon c hc := by cases hc

/-- The indented layout has line breaks and spaces between the parts. -/
theorem Layout.Blank.indented : Layout.indented.Blank where
  before depth c hc := by
    simp only [Layout.indented, List.mem_cons, List.mem_replicate] at hc
    rcases hc with rfl | ⟨_, rfl⟩ <;> decide
  afterColon c hc := by
    simp only [Layout.indented, List.mem_singleton] at hc
    subst hc
    decide

/-- A value whose compact text is cut into its tokens is read back from it. -/
theorem Cuts.parse?_compact {j : Json} (hj : Cuts .compact j) : parse? j.compact = some j := by
  simp [parse?, Json.compact, hj.ofChars?_print]

/-- The compact text of a plain value is read back. -/
theorem parse?_compact {j : Json} (hj : Plain j) : parse? j.compact = some j :=
  (cuts_of_plain hj .compact).parse?_compact

/-- The indented text of a plain value is read back. -/
theorem parse?_pretty {j : Json} (hj : Plain j) : parse? j.pretty = some j := by
  simp [parse?, pretty, (cuts_of_plain hj .indented).ofChars?_print]

end Pacing.Json
