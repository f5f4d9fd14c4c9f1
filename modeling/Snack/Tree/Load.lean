import Snack.Json.Basic
import Snack.Token.Basic
import Snack.Tree.Basic

/-! Reading a tree back from its dump. A dump that was made by hand may leave out places, parts and
kinds: an unknown place is used, and the tree notes what is missing where it is missing. -/

namespace Snack.Tree

/-- The place noted on a node, zero where it is not noted. -/
def posOf (j : Json) : Pos :=
  ⟨((j.get? "lineno").bind Json.int?).getD 0, ((j.get? "col").bind Json.int?).getD 0⟩

/-- A part that is a text. Whatever else has no parts of its own is taken as text. -/
def textOf? (j : Json) (key : String) : Option String := (j.get? key).bind Json.scalar?

def kindOf? (j : Json) : Option String := textOf? j "kind"

/-- The items of a list, or of a missing list the one item that says so. -/
def itemsOf {α : Type} (load : Json → α) (missing : α) (j : Json) (key : String) : List α :=
  match (j.get? key).bind Json.arr? with
  | some items => items.map load
  | none => [missing]

/-- The part of that name, read by `load`, or what stands for its absence. -/
def partOf {α : Type} (load : Json → α) (absent : String → α) (j : Json) (key : String) : α :=
  match j.get? key with
  | some part => load part
  | none => absent key

/-- Reads at most `n` levels. -/
def TypeExpr.load : (n : Nat) → Json → TypeExpr
  | 0, _ => .absent "kind"
  | n + 1, j =>
    let part := partOf (TypeExpr.load n) .absent j
    let p := posOf j
    match kindOf? j with
    | none => .absent "kind"
    | some "type" => ((textOf? j "name").map (.named p)).getD (.absent "name")
    | some "arraytype" => .array p (part "base")
    | some "dicttype" => .dict p (part "key") (part "value")
    | some "optionaltype" => .optional p (part "base")
    | some "typeid" => ((textOf? j "id").map (.ref p)).getD (.absent "id")
    | some kind => .unknown p kind

/-- Reads at most `n` levels. -/
def Expr.load : (n : Nat) → Json → Expr
  | 0, _ => .absent "kind"
  | n + 1, j =>
    let part := partOf (Expr.load n) .absent j
    let type := partOf (TypeExpr.load n) .absent j "type"
    let text (key : String) (f : String → Expr) : Expr := ((textOf? j key).map f).getD (.absent key)
    let items := itemsOf (Expr.load n) (.absent "items") j "items"
    let entry (e : Json) : Entry :=
      .mk (posOf e) (partOf (Expr.load n) .absent e "key") (partOf (Expr.load n) .absent e "value")
    let p := posOf j
    match kindOf? j with
    | none => .absent "kind"
    | some "num" => text "value" (.num p)
    | some "string" => text "value" (.str p)
    | some "bool" => text "value" fun s => .bool p (s == Keyword.true.text)
    | some "var" => text "id" (.var p)
    | some "paren" => .paren p (part "exp")
    | some "binary" => text "op" fun op => .binary p (.ofText op) (part "left") (part "right")
    | some "unary" => text "op" fun op => .unary p (.ofText op) (part "operand")
    | some "call" =>
      .call p (part "callee") (((j.get? "args").bind Json.arr?).map (·.map (Expr.load n)))
    | some "member" => .member p (part "object") ((textOf? j "op").map .ofText) (textOf? j "id")
    | some "array" => .array p items
    | some "tuple" => .tuple p items
    | some "dict" =>
      .dict p (itemsOf entry (.mk p (.absent "entries") (.absent "entries")) j "entries")
    | some "emptyarray" => .emptyArray p type
    | some "emptyoptional" => .emptyOptional p type
    | some kind => .unknown p kind

def Param.load (n : Nat) (j : Json) : Param :=
  ⟨posOf j, (j.some? "type").map (TypeExpr.load n), textOf? j "id"⟩

/-- Reads at most `n` levels. -/
def Stmt.load : (n : Nat) → Json → Stmt
  | 0, _ => .absent "kind"
  | n + 1, j =>
    let expr := partOf (Expr.load n) .absent j
    let type (key : String) : Option TypeExpr := (j.some? key).map (TypeExpr.load n)
    let blockOf (j : Json) : List Stmt := itemsOf (Stmt.load n) (.absent "block") j "block"
    let named (f : String → Stmt) : Stmt := ((textOf? j "id").map f).getD (.incomplete "id")
    let items (key : String) : Option (List Json) := (j.some? key).bind Json.arr?
    let elseIf (e : Json) : ElseIf := .mk (posOf e) (partOf (Expr.load n) .absent e "exp") (blockOf e)
    let body := blockOf j
    let p := posOf j
    match kindOf? j with
    | none => .absent "kind"
    | some "vardecl" =>
      ((textOf? j "id").map fun name =>
        .varDecl p (type "type") name ((j.some? "exp").map (Expr.load n))).getD (.absent "id")
    | some "collection" => named fun name => .collection p name (expr "collection")
    | some "function" | some "simplefunction" =>
      named fun name =>
        .function p name ((items "params").map (·.map (Param.load n))) (type "returns") body
    | some "class" => named fun name => .classDecl p name body
    | some "if" =>
      .ifChain p (expr "exp") body (((items "elseifs").getD []).map elseIf)
        ((items "elsepart").map (·.map (Stmt.load n)))
    | some "while" => .whileLoop p (expr "exp") body
    | some "forloop" =>
      .rangeLoop p (textOf? j "id") (expr "low") ((textOf? j "op").map .ofText) (expr "high") body
    | some "foreach" =>
      .eachLoop p ((items "ids").map (·.filterMap Json.scalar?)) (expr "exp") body
    | some "print" => .print p (itemsOf (Expr.load n) (.absent "exps") j "exps")
    | some "return" => .ret p ((j.some? "exp").map (Expr.load n))
    | some "break" => .brk p
    | some "assign" => .assign p (expr "target") (expr "exp")
    | some "addassign" => .addAssign p (expr "target") (expr "exp")
    | some "bump" => .bump p (expr "target") ((textOf? j "op").map .ofText)
    | some "call" =>
      .call p (expr "callee") ((items "args").map (·.map (Expr.load n)))
    | some kind => .unknown p kind

/-- The program in a dump. Whatever the root calls itself, its statements are what counts. -/
def Program.load (j : Json) : Program :=
  itemsOf (Stmt.load j.depth) (.absent "statements") j "statements"

end Snack.Tree
