import Snack.Text.Quoted
import Snack.Token.Basic

/-! How a token is shown to someone who debugs the scanner: its kind, its text in quotes, its line and
its column. -/

namespace Snack.Token

def display (t : Token) : String :=
  "Token(" ++ t.kind.name ++ ", " ++ String.ofList (Text.quoted t.text) ++ ", " ++
    toString t.pos.line ++ ", " ++ toString t.pos.col ++ ")"

end Snack.Token
