import LoopNest.Json.Reader
import Mathlib.Data.Nat.Digits.Defs

/-! The text of a token is read back as that token, whatever comes behind it. A number is the
exception: it goes on as long as digits, a point or an exponent follow. So a text and the tokens it
is read as are related for every continuation that is none of these, and texts that are related can
be put one behind the other. Main definition: `Spells`. -/

namespace LoopNest.Json

section Numerals

/-- The digits of a number have no superfluous zero. -/
theorem head_toDigits_ne_zero {n : Nat} (positive : 0 < n) :
    (Nat.toDigits 10 n).head? ≠ some '0' := by
  induction n using Nat.strongRecOn with
  | ind n ih =>
    by_cases small : n < 10
    · rw [Nat.toDigits_of_lt_base small, List.head?_cons, ne_eq, Option.some.injEq,
        Nat.digitChar_eq_zero]
      omega
    · have front := ih (n / 10) (by omega) (by omega)
      rw [Nat.toDigits_of_base_le (by omega) (by omega), List.head?_append]
      cases first : (Nat.toDigits 10 (n / 10)).head? with
      | none => exact absurd (List.head?_eq_none_iff.mp first) Nat.toDigits_ne_nil
      | some c => rwa [first] at front

theorem isDigit_of_mem_toDigits {n : Nat} {c : Char} (mem : c ∈ Nat.toDigits 10 n) :
    isDigit c = true :=
  Nat.isDigit_of_mem_toDigits (by omega) (by omega) mem

theorem digitsValue_toDigits (n : Nat) : digitsValue (Nat.toDigits 10 n) = n :=
  Nat.ofDigitChars_eq_foldl.symm.trans Nat.ofDigitChars_ten_toDigits

/-- A number of 64 bits is read back from its digits. -/
theorem decimal?_toDigits {n : Nat} (small : n < 18446744073709551616) :
    decimal? (Nat.toDigits 10 n) = some n := by
  have shape : Nat.toDigits 10 n = ['0'] ∨ (Nat.toDigits 10 n).head? ≠ some '0' := by
    rcases Nat.eq_zero_or_pos n with rfl | positive
    · exact .inl rfl
    · exact .inr (head_toDigits_ne_zero positive)
  rw [decimal?, if_pos, digitsValue_toDigits]
  refine ⟨Nat.toDigits_ne_nil, List.all_eq_true.mpr fun c => isDigit_of_mem_toDigits, shape, ?_⟩
  rwa [digitsValue_toDigits]

theorem toList_toString (n : Nat) : (toString n).toList = Nat.toDigits 10 n := by
  rw [Nat.toString_eq_ofList_toDigits, String.toList_ofList]

end Numerals

/-- What may stand behind a number: it does not go on there. -/
def Ends (rest : List Char) : Prop :=
  ∀ c ∈ rest.head?, isDigit c = false ∧ c ≠ '.' ∧ c ≠ 'e' ∧ c ≠ 'E'

theorem Ends.append {front rest : List Char} (first : Ends front) (behind : Ends rest) :
    Ends (front ++ rest) := by
  cases front with
  | nil => exact behind
  | cons c front => exact first

theorem scanFraction_of_ends {rest : List Char} (ends : Ends rest) :
    scanFraction rest = ([], rest) := by
  unfold scanFraction
  split
  · exact absurd rfl (ends '.' rfl).2.1
  · rfl

theorem scanExponent_of_ends {rest : List Char} (ends : Ends rest) :
    scanExponent rest = ([], rest) := by
  cases rest with
  | nil => rfl
  | cons mark rest =>
    obtain ⟨-, -, small, large⟩ := ends mark rfl
    simp [scanExponent, small, large]

theorem takeWhile_toDigits (n : Nat) {rest : List Char} (ends : Ends rest) :
    (Nat.toDigits 10 n ++ rest).takeWhile isDigit = Nat.toDigits 10 n := by
  rw [List.takeWhile_append_of_pos fun c => isDigit_of_mem_toDigits]
  cases rest with
  | nil => simp
  | cons c rest => simp [(ends c rfl).1]

theorem dropWhile_toDigits (n : Nat) {rest : List Char} (ends : Ends rest) :
    (Nat.toDigits 10 n ++ rest).dropWhile isDigit = rest := by
  rw [List.dropWhile_append_of_pos fun c => isDigit_of_mem_toDigits]
  cases rest with
  | nil => rfl
  | cons c rest => simp [(ends c rfl).1]

/-- A number starts with a digit, and only zero starts with a zero. -/
theorem exists_toDigits (n : Nat) :
    ∃ c cs, Nat.toDigits 10 n = c :: cs ∧ isDigit c = true ∧ c ≠ '-' ∧ (0 < n → c ≠ '0') := by
  cases digits : Nat.toDigits 10 n with
  | nil => exact absurd digits Nat.toDigits_ne_nil
  | cons c cs =>
    have digit : isDigit c = true :=
      isDigit_of_mem_toDigits (by rw [digits]; exact List.mem_cons_self)
    refine ⟨c, cs, rfl, digit, ?_, ?_⟩
    · rintro rfl
      cases digit
    · intro positive zero
      exact head_toDigits_ne_zero positive (by rw [digits, zero, List.head?_cons])

theorem scanInteger_toDigits (n : Nat) {rest : List Char} (ends : Ends rest) :
    scanInteger (Nat.toDigits 10 n ++ rest) = some (Nat.toDigits 10 n, rest) := by
  rcases Nat.eq_zero_or_pos n with rfl | positive
  · rfl
  · have taken := takeWhile_toDigits n ends
    have dropped := dropWhile_toDigits n ends
    obtain ⟨c, cs, digits, digit, unsigned, nonzero⟩ := exists_toDigits n
    rw [digits, List.cons_append] at taken dropped ⊢
    simp [scanInteger, unsigned, nonzero positive, digit, taken, dropped]

theorem scanInteger_neg (n : Nat) {rest : List Char} (ends : Ends rest) :
    scanInteger ('-' :: (Nat.toDigits 10 n ++ rest)) = some ('-' :: Nat.toDigits 10 n, rest) := by
  rcases Nat.eq_zero_or_pos n with rfl | positive
  · rfl
  · have taken := takeWhile_toDigits n ends
    have dropped := dropWhile_toDigits n ends
    obtain ⟨c, cs, digits, digit, -, nonzero⟩ := exists_toDigits n
    rw [digits, List.cons_append] at taken dropped ⊢
    simp [scanInteger, nonzero positive, digit, taken, dropped]

/-- An integer is written as the digits of its amount, with a minus sign if it is negative. -/
theorem numeral_cases (value : Int) :
    (∃ n : Nat, value = n ∧ (toString value).toList = Nat.toDigits 10 n) ∨
      ∃ n : Nat, 0 < n ∧ value = -n ∧ (toString value).toList = '-' :: Nat.toDigits 10 n := by
  cases value with
  | ofNat n =>
    have text : toString (Int.ofNat n) = toString n := rfl
    exact .inl ⟨n, rfl, by rw [text, toList_toString]⟩
  | negSucc n =>
    have text : toString (Int.negSucc n) = "-" ++ toString (n + 1) := rfl
    refine .inr ⟨n + 1, by omega, rfl, ?_⟩
    rw [text, String.toList_append, toList_toString]
    simp

theorem scanNumber_numeral (value : Int) {rest : List Char} (ends : Ends rest) :
    scanNumber ((toString value).toList ++ rest) = some ((toString value).toList, rest) := by
  have whole : scanInteger ((toString value).toList ++ rest) =
      some ((toString value).toList, rest) := by
    rcases numeral_cases value with ⟨n, -, text⟩ | ⟨n, -, -, text⟩
    · rw [text, scanInteger_toDigits n ends]
    · rw [text, List.cons_append, scanInteger_neg n ends]
  rw [scanNumber, whole]
  simp [scanFraction_of_ends ends, scanExponent_of_ends ends]

theorem scanToken_of_numeric {c : Char} (cs : List Char) (numeric : isDigit c = true ∨ c = '-') :
    scanToken (c :: cs) =
      (scanNumber (c :: cs)).map fun p => (.number (String.ofList p.1), p.2) := by
  rw [scanToken]
  all_goals
    intros rest same
    obtain ⟨rfl, rfl⟩ := List.cons.inj same
    simp [isDigit] at numeric

theorem exists_numeral (value : Int) :
    ∃ c cs, (toString value).toList = c :: cs ∧ (isDigit c = true ∨ c = '-') := by
  rcases numeral_cases value with ⟨n, -, text⟩ | ⟨n, -, -, text⟩
  · obtain ⟨c, cs, digits, digit, -⟩ := exists_toDigits n
    exact ⟨c, cs, text.trans digits, .inl digit⟩
  · exact ⟨_, _, text, .inr rfl⟩

theorem scanToken_numeral (value : Int) {rest : List Char} (ends : Ends rest) :
    scanToken ((toString value).toList ++ rest) = some (.number (toString value), rest) := by
  have scanned := scanNumber_numeral value ends
  obtain ⟨c, cs, text, numeric⟩ := exists_numeral value
  rw [text, List.cons_append] at scanned ⊢
  rw [scanToken_of_numeric _ numeric, scanned, ← text]
  simp

section Strings

theorem scanString_simple (done : List Char) {c plain : Char} (rest : List Char)
    (h : simpleEscape? c = some plain) :
    scanString done ('\\' :: c :: rest) = scanString (c :: '\\' :: done) rest := by
  have notHex : c ≠ 'u' := by
    rintro rfl
    simp [simpleEscape?] at h
  rw [scanString]
  · simp [h]
  · intro a b e d r hh
    simp_all

theorem scanString_plain (done : List Char) {c : Char} (rest : List Char) (quote : c ≠ '"')
    (slash : c ≠ '\\') (visible : ¬c.toNat < 32) :
    scanString done (c :: rest) = scanString (c :: done) rest := by
  rw [scanString]
  · simp [slash, visible]
  all_goals simp_all

theorem scanString_escapeChar (done : List Char) (c : Char) (rest : List Char) :
    scanString done (escapeChar c ++ rest) = scanString ((escapeChar c).reverse ++ done) rest := by
  rcases escapeChar_cases c with
    ⟨e, simple, written⟩ | ⟨control, written⟩ | ⟨quote, slash, visible, written⟩
  · rw [written]
    exact scanString_simple done rest simple
  · simp only [written, List.cons_append, List.nil_append]
    rw [scanString, hexQuad?_control control]
    rfl
  · rw [written]
    exact scanString_plain done rest quote slash visible

theorem scanString_flatMap (done text rest : List Char) :
    scanString done (text.flatMap escapeChar ++ '"' :: rest) =
      some (done.reverse ++ text.flatMap escapeChar, rest) := by
  induction text generalizing done with
  | nil => simp [scanString]
  | cons c text ih =>
    rw [List.flatMap_cons, List.append_assoc, scanString_escapeChar, ih]
    simp

theorem scanToken_string (text : String) (rest : List Char) :
    scanToken ((Token.string (escape text)).text.toList ++ rest) =
      some (.string (escape text), rest) := by
  have scanned := scanString_flatMap [] text.toList rest
  simp [Token.text, escape, scanToken, scanned]

end Strings

def Token.isFixed : Token → Bool
  | .number _ | .string _ => false
  | _ => true

theorem scanToken_fixed {token : Token} (fixed : token.isFixed = true) (rest : List Char) :
    scanToken (token.text.toList ++ rest) = some (token, rest) := by
  cases token with
  | number raw => cases fixed
  | string raw => cases fixed
  | bool value => cases value <;> simp [Token.text, scanToken]
  | _ => simp [Token.text, scanToken]

/-- A text is read as a list of tokens, whatever comes behind it that does not continue a number. -/
structure Spells (text : List Char) (tokens : List Token) : Prop where
  /-- No token is empty. -/
  length_le : tokens.length ≤ text.length
  scan : ∀ (done : List Token) (fuel : Nat) (rest : List Char), Ends rest →
    scanTokens done (fuel + tokens.length) (text ++ rest) =
      scanTokens (tokens.reverse ++ done) fuel rest

namespace Spells

theorem nil : Spells [] [] := ⟨Nat.le_refl 0, fun _ _ _ _ => rfl⟩

variable {text next : List Char} {tokens more : List Token}

theorem append (first : Spells text tokens) (second : Spells next more) (ends : Ends next) :
    Spells (text ++ next) (tokens ++ more) := by
  refine ⟨?_, fun done fuel rest behind => ?_⟩
  · have := first.length_le
    have := second.length_le
    simp only [List.length_append]
    omega
  · have count : fuel + (tokens ++ more).length = fuel + more.length + tokens.length := by
      simp only [List.length_append]
      omega
    rw [count, List.append_assoc, first.scan _ _ _ (ends.append behind), second.scan _ _ _ behind]
    simp

theorem blanks {front : List Char} (blank : ∀ c ∈ front, isBlank c = true)
    (spells : Spells text tokens) : Spells (front ++ text) tokens := by
  refine ⟨?_, fun done fuel rest behind => ?_⟩
  · have := spells.length_le
    simp only [List.length_append]
    omega
  · have skipped (fuel : Nat) (rest : List Char) :
        scanTokens done fuel (front ++ rest) = scanTokens done fuel rest := by
      cases fuel with
      | zero => rfl
      | succ fuel => rw [scanTokens, scanTokens, List.dropWhile_append_of_pos blank]
    rw [List.append_assoc, skipped, spells.scan _ _ _ behind]

/-- A token is read that is not affected by the text behind it. -/
theorem cons {token : Token} (start : ∃ c ∈ token.text.toList.head?, isBlank c = false)
    (scans : ∀ rest, Ends rest →
      scanToken (token.text.toList ++ (text ++ rest)) = some (token, text ++ rest))
    (spells : Spells text tokens) : Spells (token.text.toList ++ text) (token :: tokens) := by
  obtain ⟨c, first, visible⟩ := start
  obtain ⟨cs, shape⟩ := List.head?_eq_some_iff.mp first
  refine ⟨?_, fun done fuel rest behind => ?_⟩
  · have := spells.length_le
    simp only [shape, List.length_append, List.length_cons]
    omega
  · have scanned := scans rest behind
    rw [shape, List.cons_append] at scanned
    rw [List.length_cons, ← Nat.add_assoc, scanTokens, List.append_assoc, shape, List.cons_append,
      List.dropWhile_cons_of_neg (by simp [visible])]
    simp only [scanned]
    rw [spells.scan _ _ _ behind]
    simp

theorem fixed {token : Token} (fixed : token.isFixed = true) (spells : Spells text tokens) :
    Spells (token.text.toList ++ text) (token :: tokens) := by
  refine cons ?_ (fun rest _ => scanToken_fixed fixed _) spells
  cases token with
  | number raw => cases fixed
  | string raw => cases fixed
  | bool value => cases value <;> simp [Token.text, isBlank]
  | _ => simp [Token.text, isBlank]

theorem string (value : String) (spells : Spells text tokens) :
    Spells ((Token.string (escape value)).text.toList ++ text)
      (.string (escape value) :: tokens) :=
  cons (by simp [Token.text, isBlank]) (fun rest _ => scanToken_string value _) spells

theorem numeral (value : Int) : Spells (toString value).toList [.number (toString value)] := by
  have start : ∃ c ∈ (toString value).toList.head?, isBlank c = false := by
    obtain ⟨c, cs, shape, numeric⟩ := exists_numeral value
    refine ⟨c, by rw [shape]; rfl, ?_⟩
    by_contra blank
    simp only [isBlank, Bool.not_eq_false, Bool.or_eq_true, decide_eq_true_eq] at blank
    rcases blank with ((rfl | rfl) | rfl) | rfl <;> simp [isDigit] at numeric
  have spells : Spells ((Token.number (toString value)).text.toList ++ [])
      [.number (toString value)] :=
    cons start (fun rest ends => scanToken_numeral value ends) nil
  rwa [List.append_nil] at spells

end Spells

theorem ends_cons {c : Char} {rest : List Char} :
    Ends (c :: rest) ↔ isDigit c = false ∧ c ≠ '.' ∧ c ≠ 'e' ∧ c ≠ 'E' := by
  simp [Ends]

theorem ends_of_blanks {front : List Char} (blank : ∀ c ∈ front, isBlank c = true) :
    Ends front := by
  cases front with
  | nil => simp [Ends]
  | cons c front =>
    have first := blank c List.mem_cons_self
    simp only [isBlank, Bool.or_eq_true, decide_eq_true_eq] at first
    rw [ends_cons]
    rcases first with ((rfl | rfl) | rfl) | rfl <;> decide

def separated (close : Token) : List (List Token) → List Token
  | [] => [close]
  | [row] => row ++ [close]
  | row :: rows => row ++ .comma :: separated close rows

/-- Blanks are allowed before the closing token. -/
theorem Spells.rows {close : Token} (fixed : close.isFixed = true)
    (ends : Ends close.text.toList) {gap : List Char} (blank : ∀ c ∈ gap, isBlank c = true)
    {texts : List (List Char)} {rows : List (List Token)} (each : List.Forall₂ Spells texts rows) :
    Spells ([','].intercalate texts ++ (gap ++ close.text.toList)) (separated close rows) := by
  have last : Spells (gap ++ close.text.toList) [close] := by
    simpa using Spells.blanks blank (Spells.fixed fixed .nil)
  induction each with
  | nil => exact last
  | @cons text row texts rows first others ih =>
    cases others with
    | nil => simpa [separated] using first.append last ((ends_of_blanks blank).append ends)
    | cons second others =>
      have onward : Spells (Token.comma.text.toList ++ _) (.comma :: _) := Spells.fixed rfl ih
      rw [List.intercalate_cons_cons, List.append_assoc, List.append_assoc]
      exact first.append onward (ends_cons.mpr (by decide))

end LoopNest.Json
