import StackScript.Text.Classes
import StackScript.Number.Reading

/-!
# Quoted text

A text between double quotes, with escapes for what would not show: the quote, the backslash,
line ends and tabs by name, other unprintable or joining characters by code point.
-/

namespace StackScript

/-- A code point in braces, as in `\u{1b}`. -/
def codePointEscape (c : Char) : List Char :=
  '\\' :: 'u' :: '{' :: (hexDigits 1 c.toNat).toList ++ ['}']

/-- How one character is written between quotes. -/
def quotedChar (c : Char) : List Char :=
  match c with
  | '\x00' => ['\\', '0']
  | '\t' => ['\\', 't']
  | '\r' => ['\\', 'r']
  | '\n' => ['\\', 'n']
  | '\\' => ['\\', '\\']
  | '"' => ['\\', '"']
  | c =>
    if 0x20 ≤ c.toNat ∧ c.toNat < 0x7f then [c]
    else if isGraphemeExtend c ∨ isUnprintable c then codePointEscape c
    else [c]

/-- The text between double quotes. -/
def quoted (s : String) : String :=
  String.ofList ('"' :: s.toList.flatMap quotedChar ++ ['"'])

end StackScript
