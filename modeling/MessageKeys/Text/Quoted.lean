import MessageKeys.Number.Decimal
import MessageKeys.Text.Printable

/-!
# Quoted text

Text inside a message is quoted so that it can be read off one line: in single quotes
unless it has single quotes and no double ones, with a backslash before the quote and
before backslashes, and with a numbered escape for what does not print.
-/

namespace MessageKeys.Text

/-- A code point inside text quoted by `quote`. -/
def quotedPoint (quote c : CodePoint) : Text :=
  if c = quote || c = ('\\' : Char) then [CodePoint.ofChar '\\', c]
  else if c = ('\t' : Char) then "\\t"
  else if c = ('\n' : Char) then "\\n"
  else if c = ('\r' : Char) then "\\r"
  else if c.isPrintable then [c]
  else if c.val ≤ 0xff then ofString "\\x" ++ Numeral.hex 2 c.val
  else if c.val ≤ 0xffff then ofString "\\u" ++ Numeral.hex 4 c.val
  else ofString "\\U" ++ Numeral.hex 8 c.val

/-- Text in quotes. -/
def quoted (t : Text) : Text :=
  let single : CodePoint := CodePoint.ofChar '\''
  let double : CodePoint := CodePoint.ofChar '"'
  let quote := if t.contains single && !t.contains double then double else single
  [quote] ++ t.flatMap (quotedPoint quote) ++ [quote]

end MessageKeys.Text
