import ReliableStream.Text.Printable

/-!
# Quoted text

A text between double quotes, in which quotes, backslashes and the characters that do not print
are escaped: tab, line feed, carriage return and the null character by a letter or a zero, all
others by their code point in hexadecimal between braces.
-/

namespace ReliableStream.Text

/-- A character as it stands within quotes. -/
def escaped (c : Char) : List Char :=
  match c with
  | '"' => ['\\', '"']
  | '\\' => ['\\', '\\']
  | '\t' => ['\\', 't']
  | '\n' => ['\\', 'n']
  | '\r' => ['\\', 'r']
  | '\x00' => ['\\', '0']
  | c =>
    if isPrintable c then [c]
    else '\\' :: 'u' :: '\x7b' :: Nat.toDigits 16 c.toNat ++ ['\x7d']

/-- A text between quotes. -/
def quoted (text : String) : String :=
  String.ofList ('"' :: text.toList.flatMap escaped ++ ['"'])

end ReliableStream.Text
