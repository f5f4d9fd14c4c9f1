import Mathlib.Data.List.Forall2
import Snack.Core.Dump
import Snack.Proofs.Core.Spelled
import Snack.Proofs.Steps

/-! What a dump shows of a program. Nodes that are shown alike are of one kind, and lists of them are shown
alike node by node. -/

namespace Snack.Core

/-! ### Dumps of lists -/

/-- Both are shown, and in the same way. -/
def ShownAlike {α β : Type} (f : α → Dumped β) (a b : α) : Prop := ∃ j, f a = .ok j ∧ f b = .ok j

theorem forall₂_of_mapM {α β : Type} {f : α → Dumped β} {as bs : List α} {js : List β}
    (ha : as.mapM f = .ok js) (hb : bs.mapM f = .ok js) : List.Forall₂ (ShownAlike f) as bs := by
  induction as generalizing bs js with
  | nil =>
    cases bs with
    | nil => exact .nil
    | cons b bs =>
      simp only [List.mapM_nil, List.mapM_cons, except_bind_ok, except_pure_ok] at ha hb
      obtain ⟨j, -, js', -, hjs⟩ := hb
      cases ha.trans hjs.symm
  | cons a as ih =>
    simp only [List.mapM_cons, except_bind_ok, except_pure_ok] at ha
    obtain ⟨j, hj, js', hjs, rfl⟩ := ha
    cases bs with
    | nil =>
      rw [List.mapM_nil, except_pure_ok] at hb
      cases hb
    | cons b bs =>
      simp only [List.mapM_cons, except_bind_ok, except_pure_ok] at hb
      obtain ⟨j', hj', js'', hjs', heq⟩ := hb
      cases heq
      exact .cons ⟨j, hj, hj'⟩ (ih hjs hjs')

theorem dumpEntities_eq_mapM (es : List Entity) : dumpEntities es = es.mapM dumpEntity := by
  induction es with
  | nil => rfl
  | cons e es ih => rw [dumpEntities, List.mapM_cons, ih]

theorem dumpExprs_eq_mapM (es : List Expr) : dumpExprs es = es.mapM dumpExpr := by
  induction es with
  | nil => rfl
  | cons e es ih => rw [dumpExprs, List.mapM_cons, ih]

def dumpEntry (e : Expr × Expr) : Dumped Json :=
  return .obj [("key", ← dumpExpr e.1), ("value", ← dumpExpr e.2)]

theorem dumpEntries_eq_mapM (es : List (Expr × Expr)) : dumpEntries es = es.mapM dumpEntry := by
  induction es with
  | nil => rfl
  | cons e es ih => simp only [dumpEntries, List.mapM_cons, ih, dumpEntry, bind_assoc, pure_bind]

def dumpField (f : Field) : Dumped Json := return .obj [("name", .str f.name), ("typ", ← dumpTy f.typ)]

theorem dumpFields_eq_mapM (fs : List Field) : dumpFields fs = fs.mapM dumpField := by
  induction fs with
  | nil => rfl
  | cons f fs ih => simp only [dumpFields, List.mapM_cons, ih, dumpField, bind_assoc, pure_bind]

theorem dumpStmts_eq_mapM (ss : List Stmt) : dumpStmts ss = ss.mapM dumpStmt := by
  induction ss with
  | nil => rfl
  | cons s ss ih => rw [dumpStmts, List.mapM_cons, ih]

theorem dumpFunctions_eq_mapM (fs : List Function) : dumpFunctions fs = fs.mapM dumpFunction := by
  induction fs with
  | nil => rfl
  | cons f fs ih => rw [dumpFunctions, List.mapM_cons, ih]

/-! ### What a node shows first -/

/-- The type that a node starts with. A list of nodes counts as a block. -/
def shownTag : Json → String
  | .obj ((_, .str tag) :: _) => tag
  | .arr _ => "Block"
  | _ => ""

/-- The name that a node shows next. -/
def shownName : Json → String
  | .obj (_ :: (_, .str name) :: _) => name
  | _ => ""

def EntityKind.tag : EntityKind → String
  | .var _ => "Variable"
  | .parameter => "Parameter"
  | .function _ => "Function"
  | .classDef => "Class"
  | .builtin _ => "BuiltInFunction"
  | .constant => "Constant"
  | .other tag => tag

theorem shown_of_dumpEntity {e : Entity} {j : Json} (h : dumpEntity e = .ok j) :
    shownTag j = e.kind.tag ∧ shownName j = e.name ∧ ∀ tag, e.kind ≠ .other tag := by
  obtain ⟨id, kind, name, typ⟩ := e
  cases kind with
  | var | parameter | function =>
    simp only [dumpEntity, except_bind_ok, except_pure_ok] at h
    obtain ⟨jt, -, rfl⟩ := h
    exact ⟨rfl, rfl, nofun⟩
  | classDef | builtin | constant =>
    cases h
    exact ⟨rfl, rfl, nofun⟩
  | other tag => cases h

/-- What the node of an expression starts with. All entities count as one. -/
def Expr.tag : Expr → String
  | .int _ => "IntegerLiteral"
  | .float _ => "FloatLiteral"
  | .str _ => "StringLiteral"
  | .bool _ => "BooleanLiteral"
  | .ref _ => "Entity"
  | .binary .. => "BinaryExpression"
  | .unary .. => "UnaryExpression"
  | .call .. => "FunctionCall"
  | .construct .. => "ConstructorCall"
  | .member .. => "MemberExpression"
  | .array .. => "ArrayExpression"
  | .tuple .. => "TupleExpression"
  | .dict .. => "DictExpression"
  | .emptyArray _ => "EmptyArray"
  | .emptyOptional _ => "EmptyOptional"
  | .other tag _ => tag

/-- The types of nodes that show an entity. -/
def entityTags : List String := ["Variable", "Parameter", "Function", "Class", "BuiltInFunction", "Constant"]

theorem tag_mem_entityTags {k : EntityKind} (h : ∀ tag, k ≠ .other tag) : k.tag ∈ entityTags := by
  cases k with
  | other tag => exact absurd rfl (h tag)
  | _ => simp [EntityKind.tag, entityTags]

theorem tag_of_dumpExpr {e : Expr} {j : Json} (h : dumpExpr e = .ok j) :
    e.tag = if shownTag j ∈ entityTags then "Entity" else shownTag j := by
  cases e with
  | ref e =>
    obtain ⟨htag, -, hk⟩ := shown_of_dumpEntity h
    rw [htag, if_pos (tag_mem_entityTags hk)]
    rfl
  | other tag t => cases h
  | int | float | str | bool =>
    cases h
    rfl
  | _ =>
    simp only [dumpExpr, except_bind_ok, except_pure_ok] at h
    grind [node, shownTag, Expr.tag, entityTags]

/-- Expressions that are shown alike are of one kind. -/
theorem tag_of_shownAlike {e e' : Expr} {j : Json} (h : dumpExpr e = .ok j) (h' : dumpExpr e' = .ok j) :
    e.tag = e'.tag := by
  rw [tag_of_dumpExpr h, tag_of_dumpExpr h']

def Stmt.tag : Stmt → String
  | .declare .. => "VariableDeclaration"
  | .function .. => "FunctionDeclaration"
  | .classDecl .. => "ClassDeclaration"
  | .assign .. => "Assignment"
  | .addAssign .. => "AddAssignment"
  | .increment .. => "Increment"
  | .decrement .. => "Decrement"
  | .ifElse .. => "IfStatement"
  | .whileLoop .. => "WhileStatement"
  | .rangeLoop .. => "ForRangeStatement"
  | .eachLoop .. => "ForStatement"
  | .ret .. => "ReturnStatement"
  | .brk _ => "BreakStatement"
  | .print .. => "PrintStatement"
  | .call .. => "CallStatement"
  | .other tag _ => tag

theorem tag_of_dumpStmt {s : Stmt} {j : Json} (h : dumpStmt s = .ok j) : s.tag = shownTag j := by
  cases s with
  | brk p =>
    cases h
    rfl
  | other tag p => cases h
  | _ =>
    simp only [dumpStmt, except_bind_ok, except_pure_ok] at h
    grind [node, shownTag, Stmt.tag]

def Else.tag : Else → String
  | .none => ""
  | .block _ => "Block"
  | .elseIf .. => "IfStatement"

theorem tag_of_dumpElse {e : Else} {j : Json} (h : dumpElse e = .ok j) : e.tag = shownTag j := by
  cases e with
  | none =>
    cases h
    rfl
  | _ =>
    simp only [dumpElse, except_bind_ok, except_pure_ok] at h
    grind [node, shownTag, Else.tag]

/-! ### Expressions without loose ends -/

/-- Expressions whose operators are known and whose entities are what their kinds say. No method stands for
a value. -/
inductive Clear : Expr → Prop where
  | int (n : Int) : Clear (.int n)
  | float (x : Float) : Clear (.float x)
  | str (s : String) : Clear (.str s)
  | bool (b : Bool) : Clear (.bool b)
  | ref {e} (h : Typing.Proper e) (hm : e.kind ≠ .function true) : Clear (.ref e)
  | binary {op l r t} (hop : ∀ text, op ≠ .other text) (hl : Clear l) (hr : Clear r) :
      Clear (.binary op l r t)
  | unary {op e t} (hop : op ∈ [.neg, .not]) (he : Clear e) : Clear (.unary op e t)
  | call {f args t} (hf : Clear f) (ha : ∀ a ∈ args, Clear a) : Clear (.call f args t)
  | construct {c args} (hc : Typing.Proper c) (ha : ∀ a ∈ args, Clear a) : Clear (.construct c args)
  | member {o op field t} (ho : Clear o) : Clear (.member o op field t)
  | array {es t} (he : ∀ e ∈ es, Clear e) : Clear (.array es t)
  | tuple {es t} (he : ∀ e ∈ es, Clear e) : Clear (.tuple es t)
  | dict {es t} (hk : ∀ e ∈ es, Clear e.1) (hv : ∀ e ∈ es, Clear e.2) : Clear (.dict es t)
  | emptyArray {t} : Clear (.emptyArray t)
  | emptyOptional {t} : Clear (.emptyOptional t)

theorem Clear.of_spelled {e : Expr} (hs : Spelled e) (hw : Writable e) : Clear e := by
  induction hs with
  | int n => exact .int n
  | float x => exact .float x
  | str s => exact .str s
  | bool b => exact .bool b
  | ref h =>
    cases hw with
    | ref hp => exact .ref hp h.value
  | binary hop _ _ ihl ihr =>
    cases hw with
    | binary hl hr => exact .binary hop (ihl hl) (ihr hr)
  | unary hop _ ih =>
    cases hw with
    | unary he => exact .unary hop (ih he)
  | call _ _ ihf iha =>
    cases hw with
    | call hf ha => exact .call (ihf hf) fun a hmem => iha a hmem (ha a hmem)
  | construct _ _ iha =>
    cases hw with
    | construct hc _ ha => exact .construct hc fun a hmem => iha a hmem (ha a hmem)
  | member _ _ _ ih =>
    cases hw with
    | member ho => exact .member (ih ho)
  | array _ ih =>
    cases hw with
    | array he => exact .array fun e hmem => ih e hmem (he e hmem)
  | tuple _ ih =>
    cases hw with
    | tuple he => exact .tuple fun e hmem => ih e hmem (he e hmem)
  | dict _ _ ihk ihv =>
    cases hw with
    | dict hk hv => exact .dict (fun e hmem => ihk e hmem (hk e hmem)) fun e hmem => ihv e hmem (hv e hmem)
  | emptyArray => exact .emptyArray
  | emptyOptional => exact .emptyOptional

end Snack.Core
