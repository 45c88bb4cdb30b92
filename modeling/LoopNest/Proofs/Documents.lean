import LoopNest.Proofs.Lexemes
import Mathlib.Data.List.Forall2

/-! A document whose numbers are integers and whose strings are escaped is read back from its text.
The text may be the one without blanks or the one with a line for each item and field; both are read
as the same tokens, and the parser takes the tokens of a document off the front of any list. Main
theorems: `Written.parse?_compact`, `Written.parse?_pretty`. -/

namespace LoopNest.Json

/-- A document as the writers make it. -/
inductive Written : Json → Prop where
  | null : Written null
  | bool (value : Bool) : Written (bool value)
  | int (value : Int) : Written (int value)
  | text (value : String) : Written (text value)
  | array {items : List Json} (each : ∀ item ∈ items, Written item) : Written (array items)
  | object {fields : List (String × Json)} (names : ∀ field ∈ fields, ∃ name, field.1 = escape name)
      (each : ∀ field ∈ fields, Written field.2) : Written (object fields)

def rowOfField (field : String × Json) : List Token :=
  .string field.1 :: .colon :: field.2.tokens

theorem exists_separated (close : Token) (row : List Token) (rows : List (List Token)) :
    ∃ more, separated close (row :: rows) = row ++ more := by
  cases rows with
  | nil => exact ⟨_, rfl⟩
  | cons second rows => exact ⟨_, rfl⟩

theorem itemTokens_cons_cons (item second : Json) (items : List Json) :
    itemTokens (item :: second :: items) =
      item.tokens ++ .comma :: itemTokens (second :: items) := by
  rw [itemTokens]
  simp

theorem itemTokens_eq (items : List Json) :
    itemTokens items = separated .closeArray (items.map tokens) := by
  induction items with
  | nil => rw [itemTokens]; rfl
  | cons item items ih =>
    cases items with
    | nil => rw [itemTokens]; rfl
    | cons second items => rw [itemTokens_cons_cons, ih]; rfl

theorem fieldTokens_cons_cons (field second : String × Json) (fields : List (String × Json)) :
    fieldTokens (field :: second :: fields) =
      rowOfField field ++ .comma :: fieldTokens (second :: fields) := by
  rw [fieldTokens]
  · rfl
  · simp

theorem fieldTokens_eq (fields : List (String × Json)) :
    fieldTokens fields = separated .closeObject (fields.map rowOfField) := by
  induction fields with
  | nil => rw [fieldTokens]; rfl
  | cons field fields ih =>
    cases fields with
    | nil => rw [fieldTokens]; rfl
    | cons second fields => rw [fieldTokens_cons_cons, ih]; rfl

section Layout

variable {depth : Nat} {j : Json}

def spelling (tokens : List Token) : List Char := tokens.flatMap fun token => token.text.toList

@[simp]
theorem spelling_cons (token : Token) (tokens : List Token) :
    spelling (token :: tokens) = token.text.toList ++ spelling tokens :=
  List.flatMap_cons

@[simp]
theorem spelling_append (tokens more : List Token) :
    spelling (tokens ++ more) = spelling tokens ++ spelling more :=
  List.flatMap_append

theorem spelling_separated (close : Token) (rows : List (List Token)) :
    spelling (separated close rows) =
      [','].intercalate (rows.map spelling) ++ close.text.toList := by
  induction rows with
  | nil => simp [spelling, separated]
  | cons row rows ih =>
    cases rows with
    | nil => simp [spelling, separated]
    | cons second rows =>
      have comma : Token.comma.text.toList = [','] := by simp [Token.text]
      rw [separated, spelling_append, spelling_cons, ih, comma, List.map_cons, List.map_cons,
        List.map_cons, List.intercalate_cons_cons]
      · simp
      · simp

theorem Spells.of_fixed {token : Token} (fixed : token.isFixed = true) :
    Spells token.text.toList [token] := by
  simpa using Spells.fixed fixed .nil

theorem Spells.of_string (value : String) :
    Spells (Token.string (escape value)).text.toList [.string (escape value)] := by
  simpa using Spells.string value .nil

variable {gap : List Char} (blank : ∀ c ∈ gap, isBlank c = true)
include blank

theorem Spells.enclosed {α : Type} {opening close : Token} (opens : opening.isFixed = true)
    (closes : close.isFixed = true) (ends : Ends close.text.toList) {entries : List α}
    {write : α → List Char} {row : α → List Token}
    (each : ∀ entry ∈ entries, Spells (write entry) (row entry)) :
    Spells (opening.text.toList ++ ([','].intercalate (entries.map write) ++
      (gap ++ close.text.toList))) (opening :: separated close (entries.map row)) := by
  refine .fixed opens (.rows closes ends blank ?_)
  rw [List.forall₂_map_left_iff, List.forall₂_map_right_iff, List.forall₂_same]
  exact each

theorem spells_array {items : List Json} {write : Json → List Char}
    (each : ∀ item ∈ items, Spells (write item) item.tokens) :
    Spells (Token.openArray.text.toList ++ ([','].intercalate (items.map write) ++
      (gap ++ Token.closeArray.text.toList))) (array items).tokens := by
  rw [tokens, itemTokens_eq]
  exact .enclosed blank rfl rfl (by simp [Ends, Token.text, isDigit]) each

theorem spells_object {fields : List (String × Json)} {write : String × Json → List Char}
    (each : ∀ field ∈ fields, Spells (write field) (rowOfField field)) :
    Spells (Token.openObject.text.toList ++ ([','].intercalate (fields.map write) ++
      (gap ++ Token.closeObject.text.toList))) (object fields).tokens := by
  rw [tokens, fieldTokens_eq]
  exact .enclosed blank rfl rfl (by simp [Ends, Token.text, isDigit]) each

theorem spells_field {field : String × Json} {text : List Char}
    (name : ∃ name, field.1 = escape name) (value : Spells text field.2.tokens) :
    Spells ((Token.string field.1).text.toList ++ (Token.colon.text.toList ++ (gap ++ text)))
      (rowOfField field) := by
  obtain ⟨name, escaped⟩ := name
  rw [rowOfField, escaped]
  exact .string name (.fixed rfl (.blanks blank value))

omit blank

theorem spelling_array (items : List Json) :
    spelling (array items).tokens = Token.openArray.text.toList ++
      ([','].intercalate (items.map fun item => spelling item.tokens) ++
        Token.closeArray.text.toList) := by
  rw [tokens, itemTokens_eq, spelling_cons, spelling_separated, List.map_map]
  rfl

theorem spelling_object (fields : List (String × Json)) :
    spelling (object fields).tokens = Token.openObject.text.toList ++
      ([','].intercalate (fields.map fun field => spelling (rowOfField field)) ++
        Token.closeObject.text.toList) := by
  rw [tokens, fieldTokens_eq, spelling_cons, spelling_separated, List.map_map]
  rfl

theorem Written.spells_compact (written : Written j) : Spells (spelling j.tokens) j.tokens := by
  have noGap : ∀ c ∈ ([] : List Char), isBlank c = true := by simp
  induction written with
  | null => simpa [tokens, spelling] using Spells.of_fixed rfl
  | bool value => simpa [tokens, spelling] using Spells.of_fixed rfl
  | int value => simpa [Json.int, tokens, spelling, Token.text] using Spells.numeral value
  | text value => simpa [Json.text, tokens, spelling] using Spells.of_string value
  | @array items each ih =>
    rw [spelling_array]
    exact spells_array noGap ih
  | @object fields names each ih =>
    rw [spelling_object]
    refine spells_object noGap fun field member => ?_
    have spells := spells_field noGap (names field member) (ih field member)
    simpa [rowOfField] using spells

theorem prettyItems_eq (items : List Json) :
    prettyItems depth items = items.map fun item => lineBreak depth ++ item.pretty depth := by
  induction items with
  | nil => rw [prettyItems]; rfl
  | cons item items ih => rw [prettyItems, ih, List.map_cons]

theorem prettyFields_eq (fields : List (String × Json)) :
    prettyFields depth fields = fields.map fun field =>
      lineBreak depth ++ Token.text (.string field.1) ++ ": " ++ field.2.pretty depth := by
  induction fields with
  | nil => rw [prettyFields]; rfl
  | cons field fields ih => rw [prettyFields, ih, List.map_cons]

theorem isBlank_of_mem_lineBreak {c : Char} (mem : c ∈ (lineBreak depth).toList) :
    isBlank c = true := by
  simp only [lineBreak, String.toList_append, String.toList_join, List.mem_append,
    List.mem_flatMap, List.mem_replicate] at mem
  rcases mem with newline | ⟨_, ⟨-, rfl⟩, space⟩
  · simp_all [isBlank]
  · simp_all [isBlank]

theorem toList_pretty_array {items : List Json} (inhabited : items ≠ []) :
    (pretty depth (array items)).toList = Token.openArray.text.toList ++
      ([','].intercalate (items.map fun item =>
        (lineBreak (depth + 1)).toList ++ (item.pretty (depth + 1)).toList) ++
        ((lineBreak depth).toList ++ Token.closeArray.text.toList)) := by
  rw [pretty, prettyItems_eq]
  · simp [String.toList_intercalate, Token.text, Function.comp_def]
  · exact inhabited

theorem toList_pretty_object {fields : List (String × Json)} (inhabited : fields ≠ []) :
    (pretty depth (object fields)).toList = Token.openObject.text.toList ++
      ([','].intercalate (fields.map fun field =>
        (lineBreak (depth + 1)).toList ++ ((Token.string field.1).text.toList ++
          (Token.colon.text.toList ++ ([' '] ++ (field.2.pretty (depth + 1)).toList)))) ++
        ((lineBreak depth).toList ++ Token.closeObject.text.toList)) := by
  rw [pretty, prettyFields_eq]
  · simp [String.toList_intercalate, Token.text, Function.comp_def]
  · exact inhabited

theorem Written.spells_pretty (written : Written j) :
    Spells (j.pretty depth).toList j.tokens := by
  have indent {depth : Nat} : ∀ c ∈ (lineBreak depth).toList, isBlank c = true :=
    fun _ => isBlank_of_mem_lineBreak
  induction written generalizing depth with
  | null => simpa [tokens, pretty] using Spells.of_fixed rfl
  | bool value => simpa [tokens, pretty] using Spells.of_fixed rfl
  | int value => simpa [Json.int, tokens, pretty, Token.text] using Spells.numeral value
  | text value => simpa [Json.text, tokens, pretty] using Spells.of_string value
  | @array items each ih =>
    rcases eq_or_ne items [] with rfl | inhabited
    · have spells : Spells (Token.openArray.text.toList ++ Token.closeArray.text.toList)
          [.openArray, .closeArray] := .fixed rfl (.of_fixed rfl)
      simpa [pretty, tokens, itemTokens, Token.text] using spells
    · rw [toList_pretty_array inhabited]
      exact spells_array indent fun item member => (ih item member).blanks indent
  | @object fields names each ih =>
    rcases eq_or_ne fields [] with rfl | inhabited
    · have spells : Spells (Token.openObject.text.toList ++ Token.closeObject.text.toList)
          [.openObject, .closeObject] := .fixed rfl (.of_fixed rfl)
      simpa [pretty, tokens, fieldTokens, Token.text] using spells
    · rw [toList_pretty_object inhabited]
      refine spells_object indent fun field member => .blanks indent ?_
      exact spells_field (by simp [isBlank]) (names field member) (ih field member)

end Layout

section Parsing

variable {j : Json} {fuel : Nat}

/-- The parser takes the tokens of the document off the front of any list. -/
def Parses (j : Json) : Prop :=
  ∀ (fuel : Nat) (rest : List Token), 2 * j.tokens.length ≤ fuel →
    parseValue fuel (j.tokens ++ rest) = some (j, rest)

theorem parseItems_tokens {items : List Json} (inhabited : items ≠ [])
    (each : ∀ item ∈ items, Parses item) (enough : 2 * (itemTokens items).length ≤ fuel)
    (done : List Json) (rest : List Token) :
    parseItems fuel done (itemTokens items ++ rest) =
      some (array (done.reverse ++ items), rest) := by
  induction items generalizing done fuel with
  | nil => exact absurd rfl inhabited
  | cons item items ih =>
    obtain ⟨first, others⟩ := List.forall_mem_cons.mp each
    cases items with
    | nil =>
      simp only [itemTokens, List.length_append, List.length_singleton] at enough ⊢
      obtain ⟨fuel, rfl⟩ := Nat.exists_eq_succ_of_ne_zero (show fuel ≠ 0 by omega)
      rw [parseItems, List.append_assoc, first _ _ (by omega)]
      simp
    | cons second items =>
      rw [itemTokens_cons_cons] at enough ⊢
      simp only [List.length_append, List.length_cons] at enough
      obtain ⟨fuel, rfl⟩ := Nat.exists_eq_succ_of_ne_zero (show fuel ≠ 0 by omega)
      rw [parseItems, List.append_assoc, first _ _ (by omega)]
      simp only [List.cons_append]
      rw [ih (by simp) others (by omega) (item :: done)]
      simp

theorem parseFields_tokens {fields : List (String × Json)} (inhabited : fields ≠ [])
    (each : ∀ field ∈ fields, Parses field.2) (enough : 2 * (fieldTokens fields).length ≤ fuel)
    (done : List (String × Json)) (rest : List Token) :
    parseFields fuel done (fieldTokens fields ++ rest) =
      some (object (done.reverse ++ fields), rest) := by
  induction fields generalizing done fuel with
  | nil => exact absurd rfl inhabited
  | cons field fields ih =>
    obtain ⟨first, others⟩ := List.forall_mem_cons.mp each
    cases fields with
    | nil =>
      simp only [fieldTokens, List.length_append, List.length_cons, List.length_nil] at enough ⊢
      obtain ⟨fuel, rfl⟩ := Nat.exists_eq_succ_of_ne_zero (show fuel ≠ 0 by omega)
      simp only [List.cons_append, List.append_assoc]
      rw [parseFields, first _ _ (by omega)]
      simp
    | cons second fields =>
      rw [fieldTokens_cons_cons] at enough ⊢
      simp only [rowOfField, List.length_append, List.length_cons] at enough
      obtain ⟨fuel, rfl⟩ := Nat.exists_eq_succ_of_ne_zero (show fuel ≠ 0 by omega)
      simp only [rowOfField, List.cons_append, List.append_assoc]
      rw [parseFields, first _ _ (by omega)]
      simp only
      rw [ih (by simp) others (by omega) (field :: done)]
      simp

/-- No value starts with a closing bracket. -/
theorem exists_tokens (j : Json) :
    ∃ token more, j.tokens = token :: more ∧ token ≠ .closeArray := by
  cases j <;> simp [tokens]

theorem parseValue_openArray {token : Token} (inner : token ≠ .closeArray) (more : List Token) :
    parseValue (fuel + 1) (.openArray :: token :: more) = parseItems fuel [] (token :: more) := by
  rw [parseValue]
  intro rest same
  exact inner (List.cons.inj same).1

theorem parses_of_single {token : Token} (single : j.tokens = [token])
    (parse : ∀ fuel rest, parseValue (fuel + 1) (token :: rest) = some (j, rest)) : Parses j := by
  intro fuel rest enough
  rw [single] at enough ⊢
  obtain ⟨fuel, rfl⟩ := Nat.exists_eq_add_of_le' (show 1 ≤ fuel by simp at enough; omega)
  exact parse fuel rest

theorem Written.parses (written : Written j) : Parses j := by
  induction written with
  | null => exact parses_of_single rfl fun _ _ => rfl
  | bool value => exact parses_of_single rfl fun _ _ => rfl
  | int value => exact parses_of_single rfl fun _ _ => rfl
  | text value => exact parses_of_single rfl fun _ _ => rfl
  | @array items each ih =>
    intro fuel rest enough
    rw [tokens, List.length_cons] at enough
    rw [tokens, List.cons_append]
    obtain ⟨fuel, rfl⟩ := Nat.exists_eq_succ_of_ne_zero (show fuel ≠ 0 by omega)
    cases items with
    | nil => simp [itemTokens, parseValue]
    | cons item items =>
      have inner := parseItems_tokens (List.cons_ne_nil item items) ih
        (show 2 * _ ≤ fuel by omega) [] rest
      obtain ⟨token, front, first, inside⟩ := exists_tokens item
      obtain ⟨more, start⟩ := exists_separated .closeArray item.tokens (items.map tokens)
      rw [itemTokens_eq, List.map_cons, start, first, List.cons_append, List.cons_append] at inner ⊢
      rw [parseValue_openArray inside, inner]
      rfl
  | @object fields names each ih =>
    intro fuel rest enough
    rw [tokens, List.length_cons] at enough
    rw [tokens, List.cons_append]
    obtain ⟨fuel, rfl⟩ := Nat.exists_eq_succ_of_ne_zero (show fuel ≠ 0 by omega)
    cases fields with
    | nil => simp [fieldTokens, parseValue]
    | cons field fields =>
      have inner := parseFields_tokens (List.cons_ne_nil field fields) ih
        (show 2 * _ ≤ fuel by omega) [] rest
      obtain ⟨more, start⟩ := exists_separated .closeObject (rowOfField field)
        (fields.map rowOfField)
      rw [fieldTokens_eq, List.map_cons, start, rowOfField] at inner ⊢
      exact inner

/-- A written document is read from every text that spells it. -/
theorem Written.parse?_of_spells (written : Written j) {text : String}
    (spells : Spells text.toList j.tokens) : parse? text = some j := by
  have short := spells.length_le
  rw [String.length_toList] at short
  have scanned : tokenize? text = some j.tokens := by
    have scan := spells.scan [] (text.length - j.tokens.length + 1) [] (by simp [Ends])
    rw [List.append_nil, show text.length - j.tokens.length + 1 + j.tokens.length =
      text.length + 1 by omega] at scan
    rw [tokenize?, scan, scanTokens]
    simp
  have parsed := written.parses (2 * j.tokens.length) [] (Nat.le_refl _)
  rw [List.append_nil] at parsed
  simp [parse?, scanned, parsed]

theorem Written.parse?_compact (written : Written j) : parse? j.compact = some j := by
  refine written.parse?_of_spells ?_
  rw [compact, String.toList_join, List.flatMap_map]
  exact written.spells_compact

theorem Written.parse?_pretty (written : Written j) (depth : Nat) :
    parse? (j.pretty depth) = some j :=
  written.parse?_of_spells written.spells_pretty

end Parsing

end LoopNest.Json
