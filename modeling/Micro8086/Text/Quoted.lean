import Micro8086.Numeral
import Micro8086.Text.Visible

/-!
# Quoted text

Names in messages are quoted. Single quotes are used, or double ones when the name holds a single
quote and no double one. The quote in use and the backslash are escaped by a backslash; characters
that cannot be seen are written by their number.

* `Text.Quoted.encode`: a name in quotes.
-/

namespace Micro8086.Text.Quoted

/-- A character by its number, in two, four or eight digits. -/
def numbered (c : Char) : List Char :=
  let n := c.toNat
  let (letter, width) := if n < 0x100 then ('x', 2) else if n < 0x10000 then ('u', 4) else ('U', 8)
  '\\' :: letter :: (Numeral.hex width n).toList

/-- A character inside quotes. -/
def encodeChar (quote c : Char) : List Char :=
  if c = quote || c = '\\' then ['\\', c]
  else if c = '\n' then ['\\', 'n']
  else if c = '\r' then ['\\', 'r']
  else if c = '\t' then ['\\', 't']
  else if isVisible c then [c]
  else numbered c

/-- The quote that a name is put in. -/
def quoteFor (cs : List Char) : Char :=
  if cs.contains '\'' && !cs.contains '"' then '"' else '\''

/-- A name in quotes. -/
def encode (name : String) : String :=
  let quote := quoteFor name.toList
  String.ofList ([quote] ++ name.toList.flatMap (encodeChar quote) ++ [quote])

end Micro8086.Text.Quoted
