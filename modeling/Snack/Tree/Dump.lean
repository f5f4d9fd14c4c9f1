import Snack.Json.Basic
import Snack.Token.Basic
import Snack.Tree.Basic

/-! The dump of a tree. Every node is an object that starts with its kind and its place, followed by
its parts. -/

namespace Snack.Tree

/-- An object for a node. -/
def node (kind : String) (p : Pos) (parts : List (String × Json)) : Json :=
  .obj (("kind", .str kind) :: ("lineno", .int p.line) :: ("col", .int p.col) :: parts)

def TypeExpr.toJson : TypeExpr → Json
  | .named p name => node "type" p [("name", .str name)]
  | .array p base => node "arraytype" p [("base", base.toJson)]
  | .dict p key value => node "dicttype" p [("key", key.toJson), ("value", value.toJson)]
  | .optional p base => node "optionaltype" p [("base", base.toJson)]
  | .ref p name => node "typeid" p [("id", .str name)]
  | .unknown p kind => node kind p []
  | .absent _ => .null

mutual

def Expr.toJson : Expr → Json
  | .num p text => node "num" p [("value", .str text)]
  | .str p value => node "string" p [("value", .str value)]
  | .bool p value =>
    node "bool" p [("value", .str (if value then Keyword.true.text else Keyword.false.text))]
  | .var p name => node "var" p [("id", .str name)]
  | .paren p inner => node "paren" p [("exp", inner.toJson)]
  | .binary p op left right =>
    node "binary" p [("left", left.toJson), ("op", .str op.text), ("right", right.toJson)]
  | .unary p op operand => node "unary" p [("op", .str op.text), ("operand", operand.toJson)]
  | .call p callee none => node "call" p [("callee", callee.toJson)]
  | .call p callee (some args) =>
    node "call" p [("callee", callee.toJson), ("args", .arr (Expr.listToJson args))]
  | .member p object op name =>
    node "member" p [("object", object.toJson), ("op", .ofOption (.str ·.text) op),
      ("id", .ofOption .str name)]
  | .array p items => node "array" p [("items", .arr (Expr.listToJson items))]
  | .tuple p items => node "tuple" p [("items", .arr (Expr.listToJson items))]
  | .dict p entries => node "dict" p [("entries", .arr (Entry.listToJson entries))]
  | .emptyArray p element => node "emptyarray" p [("type", element.toJson)]
  | .emptyOptional p base => node "emptyoptional" p [("type", base.toJson)]
  | .unknown p kind => node kind p []
  | .absent _ => .null

def Expr.listToJson : List Expr → List Json
  | [] => []
  | e :: es => e.toJson :: Expr.listToJson es

def Entry.listToJson : List Entry → List Json
  | [] => []
  | .mk p key value :: es =>
    node "entry" p [("key", key.toJson), ("value", value.toJson)] :: Entry.listToJson es

end

def Param.toJson (param : Param) : Json :=
  node "param" param.pos [("type", .ofOption TypeExpr.toJson param.type), ("id", .ofOption .str param.name)]

mutual

def Stmt.toJson : Stmt → Json
  | .varDecl p type name init =>
    node "vardecl" p [("type", .ofOption TypeExpr.toJson type), ("id", .str name),
      ("exp", .ofOption Expr.toJson init)]
  | .collection p name value => node "collection" p [("id", .str name), ("collection", value.toJson)]
  | .function p name none returns body =>
    node "simplefunction" p [("id", .str name), ("returns", .ofOption TypeExpr.toJson returns),
      ("block", .arr (Stmt.listToJson body))]
  | .function p name (some params) returns body =>
    node "function" p [("id", .str name), ("params", .arr (params.map Param.toJson)),
      ("returns", .ofOption TypeExpr.toJson returns), ("block", .arr (Stmt.listToJson body))]
  | .classDecl p name body => node "class" p [("id", .str name), ("block", .arr (Stmt.listToJson body))]
  | .ifChain p test body elseIfs none =>
    node "if" p [("exp", test.toJson), ("block", .arr (Stmt.listToJson body)),
      ("elseifs", .arr (ElseIf.listToJson elseIfs)), ("elsepart", .null)]
  | .ifChain p test body elseIfs (some elsePart) =>
    node "if" p [("exp", test.toJson), ("block", .arr (Stmt.listToJson body)),
      ("elseifs", .arr (ElseIf.listToJson elseIfs)), ("elsepart", .arr (Stmt.listToJson elsePart))]
  | .whileLoop p test body => node "while" p [("exp", test.toJson), ("block", .arr (Stmt.listToJson body))]
  | .rangeLoop p name low op high body =>
    node "forloop" p [("id", .ofOption .str name), ("low", low.toJson), ("op", .ofOption (.str ·.text) op),
      ("high", high.toJson), ("block", .arr (Stmt.listToJson body))]
  | .eachLoop p names collection body =>
    node "foreach" p [("ids", .ofOption (fun ns => .arr (ns.map .str)) names), ("exp", collection.toJson),
      ("block", .arr (Stmt.listToJson body))]
  | .print p exprs => node "print" p [("exps", .arr (exprs.map Expr.toJson))]
  | .ret p value => node "return" p [("exp", .ofOption Expr.toJson value)]
  | .brk p => node "break" p []
  | .assign p target value => node "assign" p [("target", target.toJson), ("exp", value.toJson)]
  | .addAssign p target value => node "addassign" p [("target", target.toJson), ("exp", value.toJson)]
  | .bump p target op => node "bump" p [("target", target.toJson), ("op", .ofOption (.str ·.text) op)]
  | .call p callee args => (Expr.call p callee args).toJson
  | .unknown p kind => node kind p []
  | .absent _ | .incomplete _ => .null

def Stmt.listToJson : List Stmt → List Json
  | [] => []
  | s :: ss => s.toJson :: Stmt.listToJson ss

def ElseIf.listToJson : List ElseIf → List Json
  | [] => []
  | .mk p test body :: es =>
    node "elseif" p [("exp", test.toJson), ("block", .arr (Stmt.listToJson body))] :: ElseIf.listToJson es

end

def Program.toJson (program : Program) : Json :=
  node "Program" .start [("statements", .arr (Stmt.listToJson program))]

end Snack.Tree
