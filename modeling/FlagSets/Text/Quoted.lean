import FlagSets.Text.Printable

/-!
# Quoted text

The written form of a text inside a message: between apostrophes, or between quotation marks when
the text holds an apostrophe and no quotation mark. The mark in use, the backslash and every
character without a visible form are written as escapes; all other characters stand for themselves.

## Main results

* `escape_of_isPrintable` : a printable character that is neither the mark nor a backslash is
  written as itself.
-/

namespace FlagSets.Text

/-- The mark that single-quoted text stands between. -/
def apostrophe : Char := Char.ofNat 0x27

/-- The mark used when the text itself holds an apostrophe. -/
def quotationMark : Char := Char.ofNat 0x22

/-- The character that opens an escape. -/
def backslash : Char := Char.ofNat 0x5c

/-- The mark a text is written between. -/
def markFor (s : List Char) : Char :=
  if apostrophe ∈ s ∧ quotationMark ∉ s then quotationMark else apostrophe

/-- The hexadecimal digits of `n`, padded with zeros to at least `width` of them. -/
def hexDigits (width n : Nat) : List Char :=
  let digits := Nat.toDigits 16 n
  List.replicate (width - digits.length) '0' ++ digits

/-- The escape of a character by its code point, in the shortest of the three sizes. -/
def codeEscape (c : Char) : List Char :=
  let n := c.toNat
  if n < 0x100 then backslash :: 'x' :: hexDigits 2 n
  else if n < 0x10000 then backslash :: 'u' :: hexDigits 4 n
  else backslash :: 'U' :: hexDigits 8 n

/-- How one character is written between two marks. -/
def escape (mark c : Char) : List Char :=
  if c = mark ∨ c = backslash then [backslash, c]
  else if c = '\n' then [backslash, 'n']
  else if c = '\r' then [backslash, 'r']
  else if c = '\t' then [backslash, 't']
  else if isPrintable c then [c]
  else codeEscape c

/-- A text as messages quote it. -/
def quoted (s : String) : String :=
  let mark := markFor s.toList
  String.ofList (mark :: s.toList.flatMap (escape mark) ++ [mark])

/-- A printable character that is neither the mark nor a backslash is written as itself. -/
theorem escape_of_isPrintable {mark c : Char} (hm : c ≠ mark) (hb : c ≠ backslash)
    (hp : isPrintable c = true) : escape mark c = [c] := by
  have hn : c ≠ '\n' := by rintro rfl; revert hp; decide
  have hr : c ≠ '\r' := by rintro rfl; revert hp; decide
  have ht : c ≠ '\t' := by rintro rfl; revert hp; decide
  simp [escape, hm, hb, hn, hr, ht, hp]

end FlagSets.Text
