/-! A text in quotes, as it is shown in messages. The quotes are single, unless the text holds single
quotes and no double ones. -/

namespace Snack.Text

/-- The quote for a text. -/
def quoteFor (cs : List Char) : Char := if cs.contains '\'' && !cs.contains '"' then '"' else '\''

/-- A character inside quotes. -/
def showChar (quote c : Char) : List Char :=
  if c == quote || c == '\\' then ['\\', c]
  else match c with
    | '\n' => ['\\', 'n']
    | '\r' => ['\\', 'r']
    | '\t' => ['\\', 't']
    | c => [c]

def quoted (s : String) : List Char :=
  let cs := s.toList
  let quote := quoteFor cs
  quote :: cs.flatMap (showChar quote) ++ [quote]

end Snack.Text
