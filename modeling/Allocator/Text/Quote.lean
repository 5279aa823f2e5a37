import Allocator.Text.Extender
import Allocator.Text.Printable

/-! Quoted text, as error messages show a field they refuse: the text between double
quotes, with a backslash before a double quote or a backslash, `\0`, `\t`, `\r` and `\n`
for those controls, and every extending mark and every unprintable character written
as `\u` with its code point in lowercase hexadecimal between braces. Other characters,
non-ASCII ones included, stand for themselves. -/
namespace Allocator

namespace Text

/-- The escape of one character inside quotes. -/
def escapeChar (c : Char) : List Char :=
  if c = '\x00' then ['\\', '0']
  else if c = '\t' then ['\\', 't']
  else if c = '\r' then ['\\', 'r']
  else if c = '\n' then ['\\', 'n']
  else if c = '\\' then ['\\', '\\']
  else if c = '"' then ['\\', '"']
  else if isExtender c || !isPrintable c then
    ['\\', 'u', '\x7b'] ++ (Nat.toDigits 16 c.toNat) ++ ['\x7d']
  else [c]

/-- A text between double quotes, escaped character by character. -/
def quote (s : String) : String :=
  String.ofList ('"' :: (s.toList.flatMap escapeChar ++ ['"']))

end Text

end Allocator
