import Classfile.Text.Hidden

/-!
Quoted text, as it appears in messages that list names.

A text stands between double quotes. Quotes and backslashes are escaped, and characters without a
visible form are written by their code.
-/

namespace Classfile

namespace Quoted

/-- The hexadecimal code of a character between braces. -/
def escapeCode (character : Char) : List Char :=
  "\\u\x7b".toList ++ Nat.toDigits 16 character.toNat ++ ['\x7d']

def escape (character : Char) : List Char :=
  match character with
  | '\x00' => ['\\', '0']
  | '\t' => ['\\', 't']
  | '\n' => ['\\', 'n']
  | '\r' => ['\\', 'r']
  | '"' => ['\\', '"']
  | '\\' => ['\\', '\\']
  | _ => if Hidden.contains character then escapeCode character else [character]

def quote (text : String) : String :=
  String.ofList ('"' :: (text.toList.flatMap escape ++ ['"']))

/-- Quoted texts between brackets, divided by commas. -/
def list (texts : List String) : String :=
  "[" ++ ", ".intercalate (texts.map quote) ++ "]"

end Quoted

end Classfile
