import LoopNest.Json.Expression
import LoopNest.Proofs.Documents

/-! A reader gets a value back from a document if the document is written and the reader takes it at
every depth that holds it. This is said once for each way in which documents are put together: for
numbers and strings, lists and tables, records, and choices among names. Main definition: `Reads`.
-/

namespace LoopNest

namespace Word

def FitsUnsigned (n : Nat) : Prop := n < 18446744073709551616

instance (n : Nat) : Decidable (FitsUnsigned n) := inferInstanceAs (Decidable (n < _))

end Word

namespace Json

section Depth

mutual

def depth : Json → Nat
  | array items => itemDepth items + 1
  | object fields => fieldDepth fields + 1
  | _ => 0

def itemDepth : List Json → Nat
  | [] => 0
  | item :: items => max item.depth (itemDepth items)

def fieldDepth : List (String × Json) → Nat
  | [] => 0
  | (_, value) :: fields => max value.depth (fieldDepth fields)

end

theorem itemDepth_le {items : List Json} {d : Nat} :
    itemDepth items ≤ d ↔ ∀ item ∈ items, item.depth ≤ d := by
  induction items with
  | nil => simp [itemDepth]
  | cons item items ih => rw [itemDepth, Nat.max_le, ih, List.forall_mem_cons]

theorem fieldDepth_le {fields : List (String × Json)} {d : Nat} :
    fieldDepth fields ≤ d ↔ ∀ field ∈ fields, field.2.depth ≤ d := by
  induction fields with
  | nil => simp [fieldDepth]
  | cons field fields ih => rw [fieldDepth, Nat.max_le, ih, List.forall_mem_cons]

theorem succ_le_iff_exists {n d : Nat} : n + 1 ≤ d ↔ ∃ e, d = e + 1 ∧ n ≤ e := by
  constructor
  · intro above
    exact ⟨d - 1, by omega, by omega⟩
  · rintro ⟨e, rfl, within⟩
    omega

/-- What is inside a list is nested less deep. -/
theorem depth_array_le {items : List Json} {d : Nat} :
    (array items).depth ≤ d ↔ ∃ e, d = e + 1 ∧ ∀ item ∈ items, item.depth ≤ e := by
  rw [depth, succ_le_iff_exists]
  simp only [itemDepth_le]

theorem depth_object_le {fields : List (String × Json)} {d : Nat} :
    (object fields).depth ≤ d ↔ ∃ e, d = e + 1 ∧ ∀ field ∈ fields, field.2.depth ≤ e := by
  rw [depth, succ_le_iff_exists]
  simp only [fieldDepth_le]

theorem depth_record_le {fields : List (String × Json)} {d : Nat} :
    (record fields).depth ≤ d ↔ ∃ e, d = e + 1 ∧ ∀ field ∈ fields, field.2.depth ≤ e := by
  rw [record, depth_object_le]
  simp only [List.forall_mem_map]

end Depth

variable {α β : Type}

/-- A reader gets a value back from a written document. -/
structure Reads (read : Reader α) (j : Json) (value : α) : Prop where
  written : j.Written
  reads : ∀ depth, j.depth ≤ depth → read depth j = some value

theorem mapM_map {f : β → Option α} {write : α → β} {values : List α}
    (each : ∀ value ∈ values, f (write value) = some value) :
    (values.map write).mapM f = some values := by
  induction values with
  | nil => rfl
  | cons value values ih =>
    obtain ⟨first, others⟩ := List.forall_mem_cons.mp each
    simp [first, ih others]

section Members

/-- A record that is written is known by its fields. -/
theorem members_record {names : List String} {fields : List (String × Json)}
    (known : ∀ field ∈ fields, field.1 ∈ names) (distinct : (fields.map (·.1)).Nodup) :
    (record fields).members names = some fields := by
  rw [record, members]
  induction fields with
  | nil => rfl
  | cons field fields ih =>
    obtain ⟨first, others⟩ := List.forall_mem_cons.mp known
    rw [List.map_cons, List.nodup_cons] at distinct
    have new : fields.lookup field.1 = none := by
      rw [List.lookup_eq_none_iff]
      intro other member
      rw [bne_iff_ne]
      intro same
      exact distinct.1 (List.mem_map.mpr ⟨other, member, same.symm⟩)
    simp [knownFields, unescape?_escape, ih others distinct.2, first, new]

@[simp]
theorem required_cons_self (name : String) (j : Json) (m : Members) (read : Reader α)
    (depth : Nat) : Members.required ((name, j) :: m) name read depth = read depth j := by
  simp [Members.required]

@[simp]
theorem required_cons_of_ne {name other : String} (ne : name ≠ other) (j : Json) (m : Members)
    (read : Reader α) (depth : Nat) :
    Members.required ((other, j) :: m) name read depth = m.required name read depth := by
  have differs : (name == other) = false := by simp [ne]
  simp [Members.required, List.lookup_cons, differs]

@[simp]
theorem choice_text (name : String) (depth : Nat) :
    choice depth (text name) = some ⟨name, none, depth⟩ := by
  simp [text, choice, unescape?_escape]

@[simp]
theorem choice_record (name : String) (content : Json) (depth : Nat) :
    choice (depth + 1) (record [(name, content)]) = some ⟨name, some content, depth⟩ := by
  simp [record, choice, unescape?_escape]

end Members

theorem escapeChar_of_isDigit {c : Char} (digit : isDigit c = true) : escapeChar c = [c] := by
  have other {d : Char} (mark : isDigit d = false) : c ≠ d := by
    rintro rfl
    simp [digit] at mark
  have visible : ¬c.toNat < 32 := by
    simp only [isDigit, Bool.and_eq_true, decide_eq_true_eq] at digit
    have : 48 ≤ c.toNat := digit.1
    omega
  rw [escapeChar, if_neg (other rfl), if_neg (other rfl), if_neg (other rfl), if_neg (other rfl),
    if_neg (other rfl), if_neg (other rfl), if_neg (other rfl), if_neg visible]

/-- A number needs no escapes. -/
theorem escape_toString (n : Nat) : escape (toString n) = toString n := by
  have plain : (Nat.toDigits 10 n).flatMap escapeChar = Nat.toDigits 10 n :=
    (List.flatMap_congr fun c mem => escapeChar_of_isDigit (isDigit_of_mem_toDigits mem)).trans
      (List.flatMap_singleton' _)
  rw [escape, toList_toString, plain, Nat.toString_eq_ofList_toDigits]

namespace Reads

theorem nat {n : Nat} (fits : Word.FitsUnsigned n) : Reads Reader.nat (Json.nat n) n := by
  refine ⟨.int n, fun depth _ => ?_⟩
  rw [Json.nat, Reader.nat, toList_toString]
  exact decimal?_toDigits fits

theorem int {value : Int} (fits : Word.Fits value) :
    Reads Reader.int (Json.int value) value := by
  simp only [Word.Fits, Word.least, Word.greatest] at fits
  refine ⟨.int value, fun depth _ => ?_⟩
  rw [Json.int, Reader.int]
  rcases numeral_cases value with ⟨n, rfl, text⟩ | ⟨n, positive, rfl, text⟩
  · have read : decimal? (Nat.toDigits 10 n) = some n := decimal?_toDigits (by omega)
    obtain ⟨c, cs, digits, -, unsigned, -⟩ := exists_toDigits n
    rw [digits] at read
    simp only [text, digits]
    split
    · rename_i same
      exact absurd (List.cons.inj same).1 unsigned
    · simp only [read]
      rw [if_pos (by omega)]
  · have read : decimal? (Nat.toDigits 10 n) = some n := decimal?_toDigits (by omega)
    simp only [text, read]
    rw [if_pos (by omega)]

theorem bool (value : Bool) : Reads Reader.bool (Json.bool value) value :=
  ⟨.bool value, fun _ _ => rfl⟩

theorem text (value : String) : Reads Reader.text (Json.text value) value :=
  ⟨.text value, fun _ _ => unescape?_escape value⟩

variable {read : Reader α} {write : α → Json}

theorem list {values : List α} (each : ∀ value ∈ values, Reads read (write value) value) :
    Reads (Reader.list read) (array (values.map write)) values := by
  refine ⟨.array (List.forall_mem_map.mpr fun value member => (each value member).written),
    fun depth within => ?_⟩
  obtain ⟨inner, rfl, held⟩ := depth_array_le.mp within
  rw [List.forall_mem_map] at held
  exact mapM_map fun value member => (each value member).reads inner (held value member)

/-- Null stands for no value, so a value must not be written as null. -/
theorem optional {value : Option α}
    (given : ∀ v ∈ value, Reads read (write v) v ∧ write v ≠ null) :
    Reads (Reader.optional read) (ofOption write value) value := by
  cases value with
  | none => exact ⟨.null, fun _ _ => rfl⟩
  | some v =>
    obtain ⟨reads, visible⟩ := given v rfl
    refine ⟨reads.written, fun depth within => ?_⟩
    rw [ofOption] at within ⊢
    rw [Reader.optional, reads.reads depth within]
    · rfl
    · exact visible

theorem stmtMap {m : StmtMap α} (keys : ∀ entry ∈ m.entries, Word.FitsUnsigned entry.1)
    (each : ∀ entry ∈ m.entries, Reads read (write entry.2) entry.2) :
    Reads (Reader.stmtMap read) (ofStmtMap write m) m := by
  refine ⟨.object ?_ ?_, fun depth within => ?_⟩
  · exact List.forall_mem_map.mpr fun entry _ => ⟨toString entry.1, (escape_toString _).symm⟩
  · exact List.forall_mem_map.mpr fun entry member => (each entry member).written
  · obtain ⟨inner, rfl, held⟩ := depth_object_le.mp within
    rw [List.forall_mem_map] at held
    rw [Reader.stmtMap, ofStmtMap, Reader.numbered, mapM_map, Option.map_some,
      StmtMap.ofList_entries]
    intro entry member
    have number : decimal? (toString entry.1).toList = some entry.1 := by
      rw [toList_toString]
      exact decimal?_toDigits (keys entry member)
    have content := (each entry member).reads inner (held entry member)
    simp only [number, content]
    rfl

theorem record {fields : List (String × Json)} {value : α}
    (written : ∀ field ∈ fields, field.2.Written)
    (reads : ∀ depth, (∀ field ∈ fields, field.2.depth ≤ depth) →
      read (depth + 1) (Json.record fields) = some value) :
    Reads read (Json.record fields) value := by
  refine ⟨.object ?_ ?_, fun depth within => ?_⟩
  · exact List.forall_mem_map.mpr fun field _ => ⟨field.1, rfl⟩
  · exact List.forall_mem_map.mpr written
  · obtain ⟨inner, rfl, held⟩ := depth_record_le.mp within
    exact reads inner held

theorem oneOf {options : List (String × α)} {name : String} {value : α}
    (found : options.lookup name = some value) :
    Reads (Json.oneOf options) (Json.text name) value :=
  ⟨.text name, fun depth _ => by simp [Json.oneOf, Choice.isUnit, found]⟩

/-- A choice whose content is read back. -/
theorem tagged {name : String} {content : Json} {inner : β} {readInner : Reader β} {wrap : β → α}
    (reads : Reads readInner content inner)
    (choose : ∀ depth, read (depth + 1) (Json.record [(name, content)]) =
      (readInner depth content).map wrap) :
    Reads read (Json.record [(name, content)]) (wrap inner) := by
  refine .record (by simp [reads.written]) fun depth within => ?_
  rw [choose, reads.reads depth (within _ List.mem_cons_self), Option.map_some]

end Reads

end Json

end LoopNest
