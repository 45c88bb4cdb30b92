import LoopNest.Affine.Text
import LoopNest.Proofs.Lexemes

/-! A sum is written summand by summand, with a sign in front of each and blanks around the sign.
Inside a summand blanks stand between brackets only, and the brackets match. So the blanks outside
of brackets show where a summand ends, and a text is the text of one sum at most. -/

namespace LoopNest

/-! ## Brackets -/

/-- The number of open brackets behind a character. Where none is open, none can be closed, and no
blank may stand. -/
def nest (depth : Nat) (c : Char) : Option Nat :=
  if c = '(' then some (depth + 1)
  else if c = ')' then if depth = 0 then none else some (depth - 1)
  else if c = ' ' ∧ depth = 0 then none
  else some depth

/-- The brackets match, and blanks stand between them only. -/
def Closed (text : List Char) : Prop := ∀ depth, text.foldlM nest depth = some depth

def Nested (text : List Char) : Prop := ∀ depth, text.foldlM nest (depth + 1) = some (depth + 1)

section Brackets

variable {text next rest rest' : List Char}

theorem Closed.nested (closed : Closed text) : Nested text := fun depth => closed (depth + 1)

theorem nested_nil : Nested [] := fun _ => rfl

theorem Closed.append (first : Closed text) (second : Closed next) : Closed (text ++ next) := by
  intro depth
  rw [List.foldlM_append, first depth]
  exact second depth

theorem Nested.append (first : Nested text) (second : Nested next) : Nested (text ++ next) := by
  intro depth
  rw [List.foldlM_append, first depth]
  exact second depth

/-- What is neither a bracket nor a blank leaves the depth as it is. -/
theorem closed_of_plain (plain : ∀ c ∈ text, c ≠ '(' ∧ c ≠ ')' ∧ c ≠ ' ') : Closed text := by
  intro depth
  induction text with
  | nil => rfl
  | cons c rest ih =>
    obtain ⟨⟨left, right, blank⟩, later⟩ := List.forall_mem_cons.mp plain
    rw [List.foldlM_cons]
    simpa [nest, left, right, blank] using ih later

theorem Nested.bracketed (nested : Nested text) : Closed ('(' :: (text ++ [')'])) := by
  intro depth
  have inside : (text ++ [')']).foldlM nest (depth + 1) = some depth := by
    rw [List.foldlM_append, nested depth]
    rfl
  rw [List.foldlM_cons]
  exact inside

/-- A closed text ends where a blank follows, so two that start a text in this way are one. -/
theorem Closed.eq_of_append (first : Closed text) (second : Closed next)
    (same : text ++ rest = next ++ rest') (ends : ∀ c ∈ rest.head?, c = ' ')
    (ends' : ∀ c ∈ rest'.head?, c = ' ') : text = next ∧ rest = rest' := by
  have longer {u v r : List Char} (shorter : Closed u) (whole : Closed (u ++ v))
      (blank : ∀ c ∈ (v ++ r).head?, c = ' ') : v = [] := by
    cases v with
    | nil => rfl
    | cons c v =>
      obtain rfl : c = ' ' := blank c rfl
      have stuck := whole 0
      rw [List.foldlM_append, shorter 0] at stuck
      cases stuck
  rcases List.append_eq_append_iff.mp same with ⟨more, rfl, rfl⟩ | ⟨more, rfl, rfl⟩
  · obtain rfl := longer first second ends
    simp
  · obtain rfl := longer second first ends'
    simp

end Brackets

/-! ## Numerals -/

theorem eq_of_toDigits {m n : Nat} (same : Nat.toDigits 10 m = Nat.toDigits 10 n) : m = n := by
  rw [← @Nat.ofDigitChars_ten_toDigits m, same, Nat.ofDigitChars_ten_toDigits]

theorem closed_toDigits (n : Nat) : Closed (Nat.toDigits 10 n) := by
  refine closed_of_plain fun c mem => ?_
  have digit := Json.isDigit_of_mem_toDigits mem
  refine ⟨?_, ?_, ?_⟩ <;>
  · rintro rfl
    cases digit

/-- Integers are written apart. -/
theorem eq_of_numeral {a b : Int} (same : (toString a).toList = (toString b).toList) : a = b := by
  have unsigned (m n : Nat) : Nat.toDigits 10 m ≠ '-' :: Nat.toDigits 10 n := by
    obtain ⟨c, cs, digits, -, unsigned, -⟩ := Json.exists_toDigits m
    rw [digits]
    exact fun same => unsigned (List.cons.inj same).1
  rcases Json.numeral_cases a with ⟨m, rfl, text⟩ | ⟨m, -, rfl, text⟩ <;>
  rcases Json.numeral_cases b with ⟨n, rfl, text'⟩ | ⟨n, -, rfl, text'⟩ <;>
  rw [text, text'] at same
  · rw [eq_of_toDigits same]
  · exact absurd same (unsigned m n)
  · exact absurd same.symm (unsigned n m)
  · rw [eq_of_toDigits (List.cons.inj same).2]

theorem closed_numeral (value : Int) :
    Closed (toString value).toList ∧ '/' ∉ (toString value).toList := by
  have digits (n : Nat) : '/' ∉ Nat.toDigits 10 n := fun mem => by
    cases Json.isDigit_of_mem_toDigits mem
  rcases Json.numeral_cases value with ⟨n, -, text⟩ | ⟨n, -, -, text⟩ <;> rw [text]
  · exact ⟨closed_toDigits n, digits n⟩
  · refine ⟨?_, by simpa using digits n⟩
    have minus : Closed ['-'] := closed_of_plain (by simp)
    exact minus.append (closed_toDigits n)

/-! ## Summands -/

/-- What a summand is a multiple of. The numerator of a floor is given by its text. -/
inductive Factor where
  | one
  | dim (index : Nat)
  | param (index : Nat)
  | floor (numerator : String) (denominator : Int)
  deriving DecidableEq, Repr

structure Summand where
  coeff : Int
  factor : Factor
  deriving DecidableEq, Repr

namespace Factor

def text : Factor → String
  | one => ""
  | dim index => Names.none.dim index
  | param index => Names.none.param index
  | floor numerator denominator => s!"floor(({numerator})/{denominator})"

def isFloor : Factor → Bool
  | floor _ _ => true
  | _ => false

def Writable : Factor → Prop
  | floor numerator _ => Nested numerator.toList
  | _ => True

theorem toList_dim (index : Nat) : (dim index).text.toList = 'i' :: Nat.toDigits 10 index := by
  have text : (dim index).text = "i" ++ toString index := rfl
  rw [text, String.toList_append, Json.toList_toString]
  rfl

theorem toList_param (index : Nat) : (param index).text.toList = 'p' :: Nat.toDigits 10 index := by
  have text : (param index).text = "p" ++ toString index := rfl
  rw [text, String.toList_append, Json.toList_toString]
  rfl

theorem toList_floor (numerator : String) (denominator : Int) :
    (floor numerator denominator).text.toList =
      ['f', 'l', 'o', 'o', 'r'] ++ '(' :: ('(' :: (numerator.toList ++ [')']) ++
        '/' :: (toString denominator).toList ++ [')']) := by
  have text : (floor numerator denominator).text =
      "floor((" ++ numerator ++ ")/" ++ toString denominator ++ ")" := rfl
  rw [text]
  simp

theorem closed_text {factor : Factor} (writable : factor.Writable) :
    Closed factor.text.toList := by
  have letter (c : Char) (plain : c ≠ '(' ∧ c ≠ ')' ∧ c ≠ ' ') : Closed [c] :=
    closed_of_plain (by simpa using plain)
  cases factor with
  | one => exact fun _ => rfl
  | dim index =>
    rw [toList_dim]
    exact (letter 'i' (by decide)).append (closed_toDigits index)
  | param index =>
    rw [toList_param]
    exact (letter 'p' (by decide)).append (closed_toDigits index)
  | floor numerator denominator =>
    have quotient := (Nested.bracketed writable).append
      ((letter '/' (by decide)).append (closed_numeral denominator).1)
    rw [toList_floor]
    exact (closed_of_plain (by simp)).append quotient.nested.bracketed

/-- A floor is read from its end: there is no slash behind the one in front of the denominator. -/
theorem eq_of_floor {n n' : String} {d d' : Int}
    (same : (floor n d).text.toList = (floor n' d').text.toList) : n = n' ∧ d = d' := by
  have slashes {u v x y : List Char} (same : u ++ '/' :: x = v ++ '/' :: y) (first : '/' ∉ x)
      (second : '/' ∉ y) : u = v ∧ x = y := by
    rcases List.append_eq_append_iff.mp same with ⟨_ | ⟨c, more⟩, rfl, rest⟩ |
      ⟨_ | ⟨c, more⟩, rfl, rest⟩
    · simpa using rest
    · obtain ⟨-, rfl⟩ := List.cons.inj rest
      simp at first
    · simpa [eq_comm] using rest
    · obtain ⟨-, rfl⟩ := List.cons.inj rest
      simp at second
  rw [toList_floor, toList_floor] at same
  obtain ⟨bracketed, denominators⟩ := slashes
    (List.append_cancel_right (List.cons.inj (List.append_cancel_left same)).2)
    (closed_numeral d).2 (closed_numeral d').2
  have numerators := List.append_cancel_right (List.cons.inj bracketed).2
  exact ⟨String.toList_inj.mp numerators, eq_of_numeral denominators⟩

/-- Factors are told apart by the first letter of their texts, and then by what follows. -/
theorem eq_of_text {f g : Factor} (same : f.text.toList = g.text.toList) : f = g := by
  have empty : one.text.toList = [] := rfl
  cases f <;> cases g
  case floor.floor n d n' d' =>
    obtain ⟨rfl, rfl⟩ := eq_of_floor same
    rfl
  all_goals
    simp only [empty, toList_dim, toList_param, toList_floor, List.cons_append, List.nil_append]
      at same
  case dim.dim => rw [eq_of_toDigits (List.cons.inj same).2]
  case param.param => rw [eq_of_toDigits (List.cons.inj same).2]
  all_goals simp at same ⊢

/-- The text of a factor starts with a letter. -/
theorem exists_letter {factor : Factor} (proper : factor ≠ one) :
    ∃ c cs, factor.text.toList = c :: cs ∧ Json.isDigit c = false ∧ c ≠ '*' ∧ c ≠ '-' := by
  cases factor with
  | one => exact absurd rfl proper
  | dim index => exact ⟨_, _, toList_dim index, by decide⟩
  | param index => exact ⟨_, _, toList_param index, by decide⟩
  | floor numerator denominator => exact ⟨_, _, toList_floor numerator denominator, by decide⟩

end Factor

namespace Summand

variable {s t : Summand}

def body (s : Summand) : String :=
  if s.factor = .one then toString s.coeff.natAbs
  else if s.coeff.natAbs = 1 then s.factor.text
  else toString s.coeff.natAbs ++ "*" ++ s.factor.text

theorem body_one (constant : s.factor = .one) :
    s.body.toList = Nat.toDigits 10 s.coeff.natAbs := by
  rw [body, if_pos constant, Json.toList_toString]

theorem body_unit (proper : s.factor ≠ .one) (unit : s.coeff.natAbs = 1) :
    s.body.toList = s.factor.text.toList := by
  rw [body, if_neg proper, if_pos unit]

theorem body_multiple (proper : s.factor ≠ .one) (other : s.coeff.natAbs ≠ 1) :
    s.body.toList = Nat.toDigits 10 s.coeff.natAbs ++ '*' :: s.factor.text.toList := by
  rw [body, if_neg proper, if_neg other, String.toList_append, String.toList_append,
    Json.toList_toString, List.append_assoc]
  rfl

theorem closed_body (writable : s.factor.Writable) : Closed s.body.toList := by
  have factor := Factor.closed_text writable
  have digits := closed_toDigits s.coeff.natAbs
  by_cases constant : s.factor = .one
  · rwa [body_one constant]
  · by_cases unit : s.coeff.natAbs = 1
    · rwa [body_unit constant unit]
    · have times : Closed ['*'] := closed_of_plain (by simp)
      rw [body_multiple constant unit]
      exact digits.append (times.append factor)

/-- A body has no sign. -/
theorem exists_body (s : Summand) : ∃ c cs, s.body.toList = c :: cs ∧ c ≠ '-' := by
  obtain ⟨c, cs, digits, -, unsigned, -⟩ := Json.exists_toDigits s.coeff.natAbs
  by_cases constant : s.factor = .one
  · exact ⟨c, cs, (body_one constant).trans digits, unsigned⟩
  · by_cases unit : s.coeff.natAbs = 1
    · obtain ⟨letter, rest, text, -, -, unsigned⟩ := Factor.exists_letter constant
      exact ⟨letter, rest, (body_unit constant unit).trans text, unsigned⟩
    · rw [body_multiple constant unit, digits]
      exact ⟨c, _, rfl, unsigned⟩

/-- The size of the coefficient and the text of the factor. A size that is not written is one. -/
def readBody (text : List Char) : Nat × List Char :=
  let digits := text.takeWhile Json.isDigit
  (if digits = [] then 1 else Nat.ofDigitChars 10 digits 0,
    (text.dropWhile Json.isDigit).dropWhile (· = '*'))

theorem readBody_toDigits (n : Nat) {rest : List Char} (ends : Json.Ends rest) :
    readBody (Nat.toDigits 10 n ++ rest) = (n, rest.dropWhile (· = '*')) := by
  rw [readBody, Json.takeWhile_toDigits n ends, Json.dropWhile_toDigits n ends,
    if_neg Nat.toDigits_ne_nil, Nat.ofDigitChars_ten_toDigits]

/-- The body of a summand is read back. -/
theorem readBody_body (s : Summand) :
    readBody s.body.toList = (s.coeff.natAbs, s.factor.text.toList) := by
  by_cases constant : s.factor = .one
  · have ends : Json.Ends [] := nofun
    have read := readBody_toDigits s.coeff.natAbs ends
    rw [List.append_nil] at read
    rw [body_one constant, read, constant]
    rfl
  · obtain ⟨c, cs, text, letter, other, -⟩ := Factor.exists_letter constant
    by_cases unit : s.coeff.natAbs = 1
    · rw [body_unit constant unit, text, unit]
      simp [readBody, letter, other]
    · have ends : Json.Ends ('*' :: s.factor.text.toList) := by
        rintro _ ⟨⟩
        decide
      rw [body_multiple constant unit, readBody_toDigits _ ends, text]
      simp [other]

theorem eq_of_body (signs : s.coeff < 0 ↔ t.coeff < 0) (same : s.body.toList = t.body.toList) :
    s = t := by
  have read := readBody_body s
  rw [same, readBody_body, Prod.mk.injEq] at read
  obtain ⟨sizes, texts⟩ := read
  have factors : t.factor = s.factor := Factor.eq_of_text texts
  have coeffs : s.coeff = t.coeff := by omega
  cases s
  cases t
  simp_all

def signed (s : Summand) : List Char :=
  (if s.coeff < 0 then [' ', '-', ' '] else [' ', '+', ' ']) ++ s.body.toList

def append (text : String) (s : Summand) : String :=
  appendSigned text (s.coeff < 0) s.body text.isEmpty

theorem toList_append_empty (s : Summand) :
    (append "" s).toList = (if s.coeff < 0 then ['-'] else []) ++ s.body.toList := by
  have start : "".isEmpty = true := rfl
  by_cases negative : s.coeff < 0 <;> simp [append, appendSigned, start, negative]

theorem toList_append {text : String} (started : text ≠ "") :
    (append text s).toList = text.toList ++ s.signed := by
  have inside : text.isEmpty = false := by simpa using started
  by_cases negative : s.coeff < 0 <;> simp [append, appendSigned, signed, inside, negative]

theorem append_ne (text : String) (s : Summand) : append text s ≠ "" := by
  intro empty
  obtain ⟨c, cs, body, -⟩ := s.exists_body
  have chars := congrArg String.toList empty
  by_cases started : text = ""
  · rw [started, toList_append_empty, body] at chars
    simp at chars
  · rw [toList_append started, signed, body] at chars
    simp at chars

theorem toList_foldl_append {text : String} (started : text ≠ "") (summands : List Summand) :
    (summands.foldl append text).toList = text.toList ++ summands.flatMap signed := by
  induction summands generalizing text with
  | nil => simp
  | cons s rest ih =>
    rw [List.foldl_cons, ih (append_ne text s), toList_append started, List.flatMap_cons,
      List.append_assoc]

end Summand

open Summand

def sumText (summands : List Summand) : String := summands.foldl append ""

theorem sumText_concat (summands : List Summand) (s : Summand) :
    sumText (summands ++ [s]) = append (sumText summands) s := by
  rw [sumText, List.foldl_append]
  rfl

theorem toList_sumText_cons (s : Summand) (rest : List Summand) :
    (sumText (s :: rest)).toList =
      (if s.coeff < 0 then ['-'] else []) ++ (s.body.toList ++ rest.flatMap signed) := by
  rw [sumText, List.foldl_cons, toList_foldl_append (append_ne "" s), toList_append_empty,
    List.append_assoc]

section Reading

variable {s t : Summand} {summands others : List Summand}

/-- Behind a summand stands nothing, or a blank. -/
theorem head_flatMap_signed (summands : List Summand) :
    ∀ c ∈ (summands.flatMap signed).head?, c = ' ' := by
  cases summands with
  | nil => simp
  | cons s rest => by_cases negative : s.coeff < 0 <;> simp [signed, negative]

theorem nested_flatMap_signed (writable : ∀ s ∈ summands, s.factor.Writable) :
    Nested (summands.flatMap signed) := by
  induction summands with
  | nil => exact nested_nil
  | cons s rest ih =>
    obtain ⟨here, later⟩ := List.forall_mem_cons.mp writable
    have sign : Nested (if s.coeff < 0 then [' ', '-', ' '] else [' ', '+', ' ']) := by
      intro depth
      by_cases negative : s.coeff < 0 <;> simp [negative, nest]
    rw [List.flatMap_cons]
    exact (sign.append (closed_body here).nested).append (ih later)

/-- A sum can stand between brackets. -/
theorem nested_sumText (writable : ∀ s ∈ summands, s.factor.Writable) :
    Nested (sumText summands).toList := by
  cases summands with
  | nil => exact nested_nil
  | cons s rest =>
    obtain ⟨here, later⟩ := List.forall_mem_cons.mp writable
    have sign : Nested (if s.coeff < 0 then ['-'] else []) := by
      intro depth
      by_cases negative : s.coeff < 0 <;> simp [negative, nest]
    rw [toList_sumText_cons]
    exact sign.append ((closed_body here).nested.append (nested_flatMap_signed later))

/-- Signs are told apart, at the start of a sum and behind others. -/
theorem signs_of_start {x y : List Char}
    (same : (if s.coeff < 0 then ['-'] else []) ++ (s.body.toList ++ x) =
      (if t.coeff < 0 then ['-'] else []) ++ (t.body.toList ++ y)) :
    (s.coeff < 0 ↔ t.coeff < 0) ∧ s.body.toList ++ x = t.body.toList ++ y := by
  obtain ⟨c, cs, body, unsigned⟩ := s.exists_body
  obtain ⟨c', cs', body', unsigned'⟩ := t.exists_body
  by_cases negative : s.coeff < 0 <;> by_cases negative' : t.coeff < 0 <;>
    simp only [negative, negative', if_true, if_false, List.nil_append, List.cons_append,
      List.cons.injEq, body, body', true_and] at same ⊢
  · exact same
  · exact absurd same.1.symm unsigned'
  · exact absurd same.1 unsigned
  · exact same

theorem signs_of_signed {x y : List Char} (same : s.signed ++ x = t.signed ++ y) :
    (s.coeff < 0 ↔ t.coeff < 0) ∧ s.body.toList ++ x = t.body.toList ++ y := by
  by_cases negative : s.coeff < 0 <;> by_cases negative' : t.coeff < 0 <;>
    simp only [signed, negative, negative', if_true, if_false, List.append_assoc,
      List.append_cancel_left_eq, true_and] at same ⊢
  · exact same
  · simp at same
  · simp at same
  · exact same

/-- The first summands of two sums are one, if what they begin is the same. -/
theorem eq_of_bodies (here : s.factor.Writable) (here' : t.factor.Writable)
    (parts : (s.coeff < 0 ↔ t.coeff < 0) ∧
      s.body.toList ++ summands.flatMap signed = t.body.toList ++ others.flatMap signed) :
    s = t ∧ summands.flatMap signed = others.flatMap signed := by
  obtain ⟨bodies, rests⟩ := (closed_body here).eq_of_append (closed_body here') parts.2
    (head_flatMap_signed summands) (head_flatMap_signed others)
  exact ⟨eq_of_body parts.1 bodies, rests⟩

theorem eq_of_flatMap_signed (writable : ∀ s ∈ summands, s.factor.Writable)
    (writable' : ∀ s ∈ others, s.factor.Writable)
    (same : summands.flatMap signed = others.flatMap signed) : summands = others := by
  have some (s : Summand) (rest : List Summand) : (s :: rest).flatMap signed ≠ [] := by
    by_cases negative : s.coeff < 0 <;> simp [signed, negative]
  induction summands generalizing others with
  | nil =>
    cases others with
    | nil => rfl
    | cons t others => exact absurd same.symm (some t others)
  | cons s rest ih =>
    cases others with
    | nil => exact absurd same (some s rest)
    | cons t others =>
      obtain ⟨here, later⟩ := List.forall_mem_cons.mp writable
      obtain ⟨here', later'⟩ := List.forall_mem_cons.mp writable'
      obtain ⟨first, rests⟩ := eq_of_bodies here here' (signs_of_signed same)
      rw [first, ih later later' rests]

theorem sumText_ne (s : Summand) (rest : List Summand) : sumText (s :: rest) ≠ "" := by
  intro empty
  obtain ⟨c, cs, body, -⟩ := s.exists_body
  have chars := congrArg String.toList empty
  rw [toList_sumText_cons, body] at chars
  simp at chars

/-- A text is the text of one sum at most. -/
theorem eq_of_sumText (writable : ∀ s ∈ summands, s.factor.Writable)
    (writable' : ∀ s ∈ others, s.factor.Writable) (same : sumText summands = sumText others) :
    summands = others := by
  cases summands with
  | nil =>
    cases others with
    | nil => rfl
    | cons t others => exact absurd same.symm (sumText_ne t others)
  | cons s rest =>
    cases others with
    | nil => exact absurd same (sumText_ne s rest)
    | cons t others =>
      obtain ⟨here, later⟩ := List.forall_mem_cons.mp writable
      obtain ⟨here', later'⟩ := List.forall_mem_cons.mp writable'
      have chars := congrArg String.toList same
      rw [toList_sumText_cons, toList_sumText_cons] at chars
      obtain ⟨first, rests⟩ := eq_of_bodies here here' (signs_of_start chars)
      rw [first, eq_of_flatMap_signed later later' rests]

end Reading

end LoopNest
