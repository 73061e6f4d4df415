import TreeWalk.Text.Printable

/-!
# Quoted text

A text is quoted between double quotes and a single character between single ones. Inside, the quote in
use and the backslash are written after a backslash, four control characters by a letter or digit after
a backslash, and every other character that is not printable by its code point in hexadecimal digits.
-/

namespace TreeWalk.Text

/-- The written form of a character between quotes of the given kind. -/
def escape (quote c : Char) : List Char :=
  if c = quote || c = '\\' then ['\\', c]
  else if c = '\n' then ['\\', 'n']
  else if c = '\r' then ['\\', 'r']
  else if c = '\t' then ['\\', 't']
  else if c.toNat = 0 then ['\\', '0']
  else if isPrintable c then [c]
  else '\\' :: 'u' :: '\x7b' :: (Nat.toDigits 16 c.toNat ++ ['\x7d'])

/-- The characters between quotes of the given kind. -/
def quoteChars (quote : Char) (cs : List Char) : List Char :=
  quote :: (cs.flatMap (escape quote) ++ [quote])

def quoted (s : String) : String := String.ofList (quoteChars '"' s.toList)

def quotedChar (c : Char) : String := String.ofList (quoteChars '\'' [c])

end TreeWalk.Text
