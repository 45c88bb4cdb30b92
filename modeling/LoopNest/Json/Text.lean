/-! A string is written between quotes. Quotes, backslashes and control characters are escaped; all
other characters stand for themselves. A reader also takes escapes that a writer does not use, among
them pairs of surrogates. -/

namespace LoopNest.Json

def hexDigit (n : Nat) : Char :=
  if n < 10 then Char.ofNat (48 + n) else Char.ofNat (87 + n)

def hexValue? (c : Char) : Option Nat :=
  if '0' ≤ c ∧ c ≤ '9' then some (c.toNat - 48)
  else if 'a' ≤ c ∧ c ≤ 'f' then some (c.toNat - 87)
  else if 'A' ≤ c ∧ c ≤ 'F' then some (c.toNat - 55)
  else none

def hexQuad? (a b c d : Char) : Option Nat := do
  let a ← hexValue? a
  let b ← hexValue? b
  let c ← hexValue? c
  let d ← hexValue? d
  return ((a * 16 + b) * 16 + c) * 16 + d

def escapeChar (c : Char) : List Char :=
  if c = '"' then ['\\', '"']
  else if c = '\\' then ['\\', '\\']
  else if c = '\x08' then ['\\', 'b']
  else if c = '\t' then ['\\', 't']
  else if c = '\n' then ['\\', 'n']
  else if c = '\x0c' then ['\\', 'f']
  else if c = '\r' then ['\\', 'r']
  else if c.toNat < 32 then
    ['\\', 'u', '0', '0', hexDigit (c.toNat / 16), hexDigit (c.toNat % 16)]
  else [c]

def escape (text : String) : String := String.ofList (text.toList.flatMap escapeChar)

def simpleEscape? (c : Char) : Option Char :=
  if c = '"' ∨ c = '\\' ∨ c = '/' then some c
  else if c = 'b' then some '\x08'
  else if c = 't' then some '\t'
  else if c = 'n' then some '\n'
  else if c = 'f' then some '\x0c'
  else if c = 'r' then some '\r'
  else none

/-- Appends to `done`, which is reversed. -/
def unescapeFrom (done : List Char) : List Char → Option (List Char)
  | '\\' :: 'u' :: a :: b :: c :: d :: rest =>
    match hexQuad? a b c d with
    | none => none
    | some high =>
      if 0xD800 ≤ high ∧ high < 0xDC00 then
        match rest with
        | '\\' :: 'u' :: e :: f :: g :: h :: rest =>
          match hexQuad? e f g h with
          | none => none
          | some low =>
            if 0xDC00 ≤ low ∧ low < 0xE000 then
              unescapeFrom (Char.ofNat (0x10000 + (high - 0xD800) * 0x400 + (low - 0xDC00)) :: done)
                rest
            else none
        | _ => none
      else if 0xDC00 ≤ high ∧ high < 0xE000 then none
      else unescapeFrom (Char.ofNat high :: done) rest
  | '\\' :: c :: rest =>
    match simpleEscape? c with
    | none => none
    | some plain => unescapeFrom (plain :: done) rest
  | c :: rest => unescapeFrom (c :: done) rest
  | [] => some done.reverse

def unescape? (raw : String) : Option String := (unescapeFrom [] raw.toList).map String.ofList

theorem hexQuad?_control {n : Nat} (h : n < 32) :
    hexQuad? '0' '0' (hexDigit (n / 16)) (hexDigit (n % 16)) = some n := by
  revert n
  decide

theorem unescapeFrom_cons (done : List Char) {c : Char} (rest : List Char) (h : c ≠ '\\') :
    unescapeFrom done (c :: rest) = unescapeFrom (c :: done) rest := by
  rw [unescapeFrom]
  · intro a b e d r hh
    simp_all
  · simp_all

theorem unescapeFrom_simple (done : List Char) {c plain : Char} (rest : List Char)
    (h : simpleEscape? c = some plain) :
    unescapeFrom done ('\\' :: c :: rest) = unescapeFrom (plain :: done) rest := by
  have notHex : c ≠ 'u' := by
    rintro rfl
    simp [simpleEscape?] at h
  rw [unescapeFrom]
  · rw [h]
  · intro a b e d r hh
    simp_all

/-- A character is written as a backslash and a further character, as its number, or as itself. -/
theorem escapeChar_cases (c : Char) :
    (∃ e, simpleEscape? e = some c ∧ escapeChar c = ['\\', e]) ∨
      (c.toNat < 32 ∧ escapeChar c =
        ['\\', 'u', '0', '0', hexDigit (c.toNat / 16), hexDigit (c.toNat % 16)]) ∨
      (c ≠ '"' ∧ c ≠ '\\' ∧ ¬c.toNat < 32 ∧ escapeChar c = [c]) := by
  by_cases simple : c ∈ ['"', '\\', '\x08', '\t', '\n', '\x0c', '\r']
  · left
    simp only [List.mem_cons, List.not_mem_nil, or_false] at simple
    rcases simple with rfl | rfl | rfl | rfl | rfl | rfl | rfl
    · exact ⟨'"', by decide⟩
    · exact ⟨'\\', by decide⟩
    · exact ⟨'b', by decide⟩
    · exact ⟨'t', by decide⟩
    · exact ⟨'n', by decide⟩
    · exact ⟨'f', by decide⟩
    · exact ⟨'r', by decide⟩
  · right
    simp only [List.mem_cons, List.not_mem_nil, or_false, not_or] at simple
    by_cases control : c.toNat < 32
    · simp [escapeChar, simple, control]
    · simp [escapeChar, simple, control]

theorem unescapeFrom_escapeChar (done : List Char) (c : Char) (rest : List Char) :
    unescapeFrom done (escapeChar c ++ rest) = unescapeFrom (c :: done) rest := by
  rcases escapeChar_cases c with ⟨e, simple, written⟩ | ⟨control, written⟩ | ⟨-, plain, -, written⟩
  · rw [written]
    exact unescapeFrom_simple done rest simple
  · simp only [written, List.cons_append, List.nil_append]
    rw [unescapeFrom, hexQuad?_control control]
    have noHigh : ¬(0xD800 ≤ c.toNat ∧ c.toNat < 0xDC00) := by omega
    have noLow : ¬(0xDC00 ≤ c.toNat ∧ c.toNat < 0xE000) := by omega
    simp only [noHigh, noLow, if_false, Char.ofNat_toNat]
  · rw [written]
    exact unescapeFrom_cons done rest plain

theorem unescapeFrom_flatMap (done text : List Char) :
    unescapeFrom done (text.flatMap escapeChar) = some (done.reverse ++ text) := by
  induction text generalizing done with
  | nil => simp [unescapeFrom]
  | cons c text ih =>
    rw [List.flatMap_cons, unescapeFrom_escapeChar, ih]
    simp

/-- A written string is read back. -/
theorem unescape?_escape (text : String) : unescape? (escape text) = some text := by
  simp [unescape?, escape, unescapeFrom_flatMap]

end LoopNest.Json
