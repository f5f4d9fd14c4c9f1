import Snack.Core.Basic
import Snack.Json.Basic

/-! The dump of a typed program. Every node is an object that starts with its type. A use of an entity
shows its name and type only; what was declared shows where it is declared. -/

namespace Snack.Core

/-- A node that has no form in a dump. -/
inductive DumpError where
  | type (tag : String)
  | entity (tag : String)
  | expression (tag : String)
  | statement (tag : String)
  deriving DecidableEq

def DumpError.message : DumpError → String
  | type tag => "cannot serialize type " ++ tag
  | entity tag => "cannot serialize entity " ++ tag
  | expression tag => "cannot serialize expression " ++ tag
  | statement tag => "cannot serialize statement " ++ tag

abbrev Dumped := Except DumpError

/-- An object for a node. -/
def node (tag : String) (parts : List (String × Json)) : Json := .obj (("_type", .str tag) :: parts)

def dumpPos (p : Pos) : Json := node "Loc" [("line", .int p.line), ("col", .int p.col)]

/-! ### Types and entities -/

mutual

def dumpTy : Ty → Dumped Json
  | .prim p => return node "Primitive" [("kind", .str p.name)]
  | .array t => return node "ArrayType" [("element", ← dumpTy t)]
  | .dict k v => return node "DictType" [("key", ← dumpTy k), ("value", ← dumpTy v)]
  | .tuple ts => return node "TupleType" [("elements", .arr (← dumpTys ts))]
  | .optional t => return node "OptionalType" [("base", ← dumpTy t)]
  | .function ps r => return node "FunctionType" [("params", .arr (← dumpTys ps)), ("ret", ← dumpTy r)]
  | .struct s => return node "StructType" [("name", .str s.name)]
  | .other tag => throw (.type tag)

def dumpTys : List Ty → Dumped (List Json)
  | [] => return []
  | t :: ts => return (← dumpTy t) :: (← dumpTys ts)

end

def dumpEntity (e : Entity) : Dumped Json :=
  match e.kind with
  | .var _ => return node "Variable" [("name", .str e.name), ("typ", ← dumpTy e.typ)]
  | .parameter => return node "Parameter" [("name", .str e.name), ("typ", ← dumpTy e.typ)]
  | .function _ => return node "Function" [("name", .str e.name), ("typ", ← dumpTy e.typ)]
  | .classDef => return node "Class" [("name", .str e.name)]
  | .builtin _ => return node "BuiltInFunction" [("name", .str e.name)]
  | .constant => return node "Constant" [("name", .str e.name)]
  | .other tag => throw (.entity tag)

def dumpEntities : List Entity → Dumped (List Json)
  | [] => return []
  | e :: es => return (← dumpEntity e) :: (← dumpEntities es)

/-! ### Expressions -/

mutual

def dumpExpr : Expr → Dumped Json
  | .int n => return node "IntegerLiteral" [("value", .int n)]
  | .float x => return node "FloatLiteral" [("value", .float x)]
  | .str s => return node "StringLiteral" [("value", .str s)]
  | .bool b => return node "BooleanLiteral" [("value", .bool b)]
  | .ref e => dumpEntity e
  | .binary op left right t =>
    return node "BinaryExpression" [("op", .str op.text), ("left", ← dumpExpr left),
      ("right", ← dumpExpr right), ("typ", ← dumpTy t)]
  | .unary op operand t =>
    return node "UnaryExpression" [("op", .str op.text), ("operand", ← dumpExpr operand),
      ("typ", ← dumpTy t)]
  | .call callee args t =>
    return node "FunctionCall" [("callee", ← dumpExpr callee), ("args", .arr (← dumpExprs args)),
      ("typ", ← dumpTy t)]
  | .construct c args =>
    return node "ConstructorCall" [("callee", ← dumpEntity c), ("args", .arr (← dumpExprs args))]
  | .member object op field t =>
    return node "MemberExpression" [("obj", ← dumpExpr object), ("op", .str op.text),
      ("field", .str field), ("typ", ← dumpTy t)]
  | .array es t =>
    return node "ArrayExpression" [("elements", .arr (← dumpExprs es)), ("typ", ← dumpTy t)]
  | .tuple es t =>
    return node "TupleExpression" [("elements", .arr (← dumpExprs es)), ("typ", ← dumpTy t)]
  | .dict es t =>
    return node "DictExpression" [("entries", .arr (← dumpEntries es)), ("typ", ← dumpTy t)]
  | .emptyArray t => return node "EmptyArray" [("typ", ← dumpTy t)]
  | .emptyOptional t => return node "EmptyOptional" [("typ", ← dumpTy t)]
  | .other tag _ => throw (.expression tag)

def dumpExprs : List Expr → Dumped (List Json)
  | [] => return []
  | e :: es => return (← dumpExpr e) :: (← dumpExprs es)

def dumpEntries : List (Expr × Expr) → Dumped (List Json)
  | [] => return []
  | (k, v) :: es =>
    return .obj [("key", ← dumpExpr k), ("value", ← dumpExpr v)] :: (← dumpEntries es)

end

def dumpExpr? : Option Expr → Dumped Json
  | none => return .null
  | some e => dumpExpr e

/-! ### Statements -/

def dumpFields : List Field → Dumped (List Json)
  | [] => return []
  | f :: fs => return .obj [("name", .str f.name), ("typ", ← dumpTy f.typ)] :: (← dumpFields fs)

mutual

def dumpStmt : Stmt → Dumped Json
  | .declare v init loc =>
    return node "VariableDeclaration" [("variable", ← dumpEntity v), ("initializer", ← dumpExpr? init),
      ("loc", dumpPos loc)]
  | .function f loc =>
    return node "FunctionDeclaration" [("function", ← dumpFunction f), ("loc", dumpPos loc)]
  | .classDecl c fields methods loc =>
    return node "ClassDeclaration" [("name", .str c.name), ("fields", .arr (← dumpFields fields)),
      ("methods", .arr (← dumpFunctions methods)), ("loc", dumpPos loc)]
  | .assign target source loc =>
    return node "Assignment" [("target", ← dumpExpr target), ("source", ← dumpExpr source),
      ("loc", dumpPos loc)]
  | .addAssign target source loc =>
    return node "AddAssignment" [("target", ← dumpExpr target), ("source", ← dumpExpr source),
      ("loc", dumpPos loc)]
  | .increment target loc =>
    return node "Increment" [("variable", ← dumpExpr target), ("loc", dumpPos loc)]
  | .decrement target loc =>
    return node "Decrement" [("variable", ← dumpExpr target), ("loc", dumpPos loc)]
  | .ifElse test body rest loc =>
    return node "IfStatement" [("test", ← dumpExpr test), ("consequent", .arr (← dumpStmts body)),
      ("alternate", ← dumpElse rest), ("loc", dumpPos loc)]
  | .whileLoop test body loc =>
    return node "WhileStatement" [("test", ← dumpExpr test), ("body", .arr (← dumpStmts body)),
      ("loc", dumpPos loc)]
  | .rangeLoop i low op high body loc =>
    return node "ForRangeStatement" [("iterator", ← dumpEntity i), ("low", ← dumpExpr low),
      ("op", .str op.text), ("high", ← dumpExpr high), ("body", .arr (← dumpStmts body)),
      ("loc", dumpPos loc)]
  | .eachLoop is collection body loc =>
    return node "ForStatement" [("iterators", .arr (← dumpEntities is)),
      ("collection", ← dumpExpr collection), ("body", .arr (← dumpStmts body)), ("loc", dumpPos loc)]
  | .ret value loc =>
    return node "ReturnStatement" [("expression", ← dumpExpr? value), ("loc", dumpPos loc)]
  | .brk loc => return node "BreakStatement" [("loc", dumpPos loc)]
  | .print es loc =>
    return node "PrintStatement" [("expressions", .arr (← dumpExprs es)), ("loc", dumpPos loc)]
  | .call e loc => return node "CallStatement" [("call", ← dumpExpr e), ("loc", dumpPos loc)]
  | .other tag _ => throw (.statement tag)

def dumpStmts : List Stmt → Dumped (List Json)
  | [] => return []
  | s :: ss => return (← dumpStmt s) :: (← dumpStmts ss)

def dumpElse : Else → Dumped Json
  | .none => return .null
  | .block body => return .arr (← dumpStmts body)
  | .elseIf test body rest loc =>
    return node "IfStatement" [("test", ← dumpExpr test), ("consequent", .arr (← dumpStmts body)),
      ("alternate", ← dumpElse rest), ("loc", dumpPos loc)]

def dumpFunction : Function → Dumped Json
  | .mk e params body loc =>
    return node "Function" [("name", .str e.name), ("params", .arr (← dumpEntities params)),
      ("typ", ← dumpTy e.typ), ("is_method", .bool (e.kind == .function true)),
      ("body", .arr (← dumpStmts body)), ("loc", dumpPos loc)]

def dumpFunctions : List Function → Dumped (List Json)
  | [] => return []
  | f :: fs => return (← dumpFunction f) :: (← dumpFunctions fs)

end

def Program.dump (p : Program) : Dumped Json :=
  return node "Program" [("statements", .arr (← dumpStmts p.statements))]

end Snack.Core
