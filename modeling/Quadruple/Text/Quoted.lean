/-
  Text between double quotes, as the compiler names its string constants.

  The double quote and the backslash are escaped by a backslash; NUL, tab, line feed and carriage
  return have letters of their own; every other character that does not show is written by its code
  point in hexadecimal between braces.
-/
import Quadruple.Text.Visible

namespace Quadruple.Text

/-- The form of one character inside quotes. -/
def quotedChar (c : Char) : List Char :=
  match c with
  | '\x00' => ['\\', '0']
  | '\t' => ['\\', 't']
  | '\r' => ['\\', 'r']
  | '\n' => ['\\', 'n']
  | '"' => ['\\', '"']
  | '\\' => ['\\', '\\']
  | c => if isVisible c then [c] else ['\\', 'u', '\x7b'] ++ Nat.toDigits 16 c.toNat ++ ['\x7d']

/-- A text between double quotes. -/
def quoted (s : String) : String := String.ofList ('"' :: s.toList.flatMap quotedChar ++ ['"'])

end Quadruple.Text
