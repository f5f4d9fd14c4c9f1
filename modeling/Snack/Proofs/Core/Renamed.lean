import Mathlib.Logic.Function.Iterate
import Snack.Proofs.Core.Bare
import Snack.Simplify.Stmt

/-! Typed programs in which `ρ` takes the place of all names. Which types are alike and what an expression
comes down to is decided without names, so renaming commutes with simplification. -/

/-! ### Types -/

namespace Snack.Ty

mutual

def rename (ρ : String → String) : Ty → Ty
  | prim p => prim p
  | array t => array (t.rename ρ)
  | dict k v => dict (k.rename ρ) (v.rename ρ)
  | tuple ts => tuple (renameAll ρ ts)
  | optional t => optional (t.rename ρ)
  | function ps r => function (renameAll ρ ps) (r.rename ρ)
  | struct s => struct ⟨s.id, ρ s.name⟩
  | other name => other name

def renameAll (ρ : String → String) : List Ty → List Ty
  | [] => []
  | t :: ts => t.rename ρ :: renameAll ρ ts

end

section Renames

variable {ρ : String → String}

theorem renameAll_eq_map (ts : List Ty) : renameAll ρ ts = ts.map (rename ρ) := by
  induction ts with
  | nil => rfl
  | cons t ts ih => rw [renameAll, ih, List.map_cons]

theorem length_renameAll (ts : List Ty) : (renameAll ρ ts).length = ts.length := by
  rw [renameAll_eq_map, List.length_map]

mutual

theorem equiv_rename (hρ : Function.Injective ρ) (t u : Ty) : (t.rename ρ).equiv (u.rename ρ) = t.equiv u := by
  cases t with
  | prim p => cases u <;> simp [rename, equiv]
  | array a =>
    cases u with
    | array b => exact equiv_rename hρ a b
    | _ => simp [rename, equiv]
  | dict k v =>
    cases u with
    | dict l w => simp only [rename, equiv, equiv_rename hρ k l, equiv_rename hρ v w]
    | _ => simp [rename, equiv]
  | tuple ts =>
    cases u with
    | tuple us => simp only [rename, equiv, equivAll_rename hρ ts us]
    | _ => simp [rename, equiv]
  | optional a =>
    cases u with
    | optional b => exact equiv_rename hρ a b
    | _ => simp [rename, equiv]
  | function ps r =>
    cases u with
    | function qs s => simp only [rename, equiv, equivAll_rename hρ ps qs, equiv_rename hρ r s]
    | _ => simp [rename, equiv]
  | struct s =>
    cases u with
    | struct s' =>
      obtain ⟨k, name⟩ := s
      obtain ⟨l, name'⟩ := s'
      rw [Bool.eq_iff_iff]
      simp [rename, equiv, hρ.eq_iff]
    | _ => simp [rename, equiv]
  | other name => cases u <;> simp [rename, equiv]

theorem equivAll_rename (hρ : Function.Injective ρ) (ts us : List Ty) :
    equivAll (renameAll ρ ts) (renameAll ρ us) = equivAll ts us := by
  cases ts with
  | nil => cases us <;> simp [renameAll, equivAll]
  | cons t ts =>
    cases us with
    | nil => simp [renameAll, equivAll]
    | cons u us => simp only [renameAll, equivAll, equiv_rename hρ t u, equivAll_rename hρ ts us]

end

theorem equiv_prim_rename (hρ : Function.Injective ρ) (t : Ty) (p : Prim) :
    (t.rename ρ).equiv (prim p) = t.equiv (prim p) := equiv_rename hρ t (prim p)

mutual

theorem flows_rename (hρ : Function.Injective ρ) (up : Bool) (t u : Ty) :
    flows up (t.rename ρ) (u.rename ρ) = flows up t u := by
  have hplain : ((if up then u.rename ρ else t.rename ρ).equiv any || (t.rename ρ).equiv (u.rename ρ)) =
      ((if up then u else t).equiv any || t.equiv u) := by
    rw [← apply_ite (rename ρ), equiv_prim_rename hρ, equiv_rename hρ]
  cases t with
  | function ps r =>
    cases u with
    | function qs s =>
      simp only [rename, flows, equivAll_rename hρ ps qs, equiv_rename hρ r s, flows_rename hρ up r s,
        flowsAll_rename hρ (!up) ps qs]
    | _ => simpa [rename, flows] using hplain
  | _ => simpa [rename, flows] using hplain

theorem flowsAll_rename (hρ : Function.Injective ρ) (up : Bool) (ts us : List Ty) :
    flowsAll up (renameAll ρ ts) (renameAll ρ us) = flowsAll up ts us := by
  cases ts with
  | nil => cases us <;> simp [renameAll, flowsAll]
  | cons t ts =>
    cases us with
    | nil => simp [renameAll, flowsAll]
    | cons u us => simp only [renameAll, flowsAll, flows_rename hρ up t u, flowsAll_rename hρ up ts us]

end

theorem assignable_rename (hρ : Function.Injective ρ) (t u : Ty) :
    (t.rename ρ).assignable (u.rename ρ) = t.assignable u := flows_rename hρ true t u

theorem isNumeric_rename (hρ : Function.Injective ρ) (t : Ty) : (t.rename ρ).isNumeric = t.isNumeric := by
  rw [isNumeric, isNumeric, equiv_prim_rename hρ, equiv_prim_rename hρ]

theorem isNumericOrString_rename (hρ : Function.Injective ρ) (t : Ty) :
    (t.rename ρ).isNumericOrString = t.isNumericOrString := by
  rw [isNumericOrString, isNumericOrString, isNumeric_rename hρ, equiv_prim_rename hρ]

end Renames

end Snack.Ty

/-! ### Programs -/

namespace Snack.Core

def Entity.rename (ρ : String → String) (e : Entity) : Entity := ⟨e.id, e.kind, ρ e.name, e.typ.rename ρ⟩

def Field.rename (ρ : String → String) (f : Field) : Field := ⟨ρ f.name, f.typ.rename ρ⟩

mutual

def Expr.rename (ρ : String → String) : Expr → Expr
  | .int n => .int n
  | .float x => .float x
  | .str s => .str s
  | .bool b => .bool b
  | .ref e => .ref (e.rename ρ)
  | .binary op l r t => .binary op (l.rename ρ) (r.rename ρ) (t.rename ρ)
  | .unary op e t => .unary op (e.rename ρ) (t.rename ρ)
  | .call f args t => .call (f.rename ρ) (renameExprs ρ args) (t.rename ρ)
  | .construct c args => .construct (c.rename ρ) (renameExprs ρ args)
  | .member o op field t => .member (o.rename ρ) op (ρ field) (t.rename ρ)
  | .array es t => .array (renameExprs ρ es) (t.rename ρ)
  | .tuple es t => .tuple (renameExprs ρ es) (t.rename ρ)
  | .dict es t => .dict (renameEntries ρ es) (t.rename ρ)
  | .emptyArray t => .emptyArray (t.rename ρ)
  | .emptyOptional t => .emptyOptional (t.rename ρ)
  | .other tag t => .other tag (t.rename ρ)

def renameExprs (ρ : String → String) : List Expr → List Expr
  | [] => []
  | e :: es => e.rename ρ :: renameExprs ρ es

def renameEntries (ρ : String → String) : List (Expr × Expr) → List (Expr × Expr)
  | [] => []
  | (k, v) :: es => (k.rename ρ, v.rename ρ) :: renameEntries ρ es

end

mutual

def Stmt.rename (ρ : String → String) : Stmt → Stmt
  | .declare v init loc => .declare (v.rename ρ) (init.map (·.rename ρ)) loc
  | .function f loc => .function (f.rename ρ) loc
  | .classDecl c fields methods loc =>
    .classDecl (c.rename ρ) (fields.map (·.rename ρ)) (renameFunctions ρ methods) loc
  | .assign target source loc => .assign (target.rename ρ) (source.rename ρ) loc
  | .addAssign target source loc => .addAssign (target.rename ρ) (source.rename ρ) loc
  | .increment target loc => .increment (target.rename ρ) loc
  | .decrement target loc => .decrement (target.rename ρ) loc
  | .ifElse test body rest loc => .ifElse (test.rename ρ) (renameBlock ρ body) (rest.rename ρ) loc
  | .whileLoop test body loc => .whileLoop (test.rename ρ) (renameBlock ρ body) loc
  | .rangeLoop i low op high body loc =>
    .rangeLoop (i.rename ρ) (low.rename ρ) op (high.rename ρ) (renameBlock ρ body) loc
  | .eachLoop is collection body loc =>
    .eachLoop (is.map (·.rename ρ)) (collection.rename ρ) (renameBlock ρ body) loc
  | .ret value loc => .ret (value.map (·.rename ρ)) loc
  | .brk loc => .brk loc
  | .print es loc => .print (renameExprs ρ es) loc
  | .call e loc => .call (e.rename ρ) loc
  | .other tag loc => .other tag loc

def renameBlock (ρ : String → String) : List Stmt → List Stmt
  | [] => []
  | s :: ss => s.rename ρ :: renameBlock ρ ss

def Else.rename (ρ : String → String) : Else → Else
  | .none => .none
  | .block body => .block (renameBlock ρ body)
  | .elseIf test body rest loc => .elseIf (test.rename ρ) (renameBlock ρ body) (rest.rename ρ) loc

def Function.rename (ρ : String → String) : Function → Function
  | .mk e params body loc => .mk (e.rename ρ) (params.map (·.rename ρ)) (renameBlock ρ body) loc

def renameFunctions (ρ : String → String) : List Function → List Function
  | [] => []
  | f :: fs => f.rename ρ :: renameFunctions ρ fs

end

def Program.rename (ρ : String → String) (p : Program) : Program := ⟨renameBlock ρ p.statements⟩

section Renames

variable {ρ : String → String}

theorem Expr.typ_rename (e : Expr) : (e.rename ρ).typ = e.typ.rename ρ := by
  cases e <;> rfl

theorem renameExprs_eq_map (es : List Expr) : renameExprs ρ es = es.map (·.rename ρ) := by
  induction es with
  | nil => rfl
  | cons e es ih => rw [renameExprs, ih, List.map_cons]

theorem renameEntries_eq_map (es : List (Expr × Expr)) :
    renameEntries ρ es = es.map fun e => (e.1.rename ρ, e.2.rename ρ) := by
  induction es with
  | nil => rfl
  | cons e es ih => rw [renameEntries, ih, List.map_cons]

theorem renameBlock_append (ss ts : List Stmt) :
    renameBlock ρ (ss ++ ts) = renameBlock ρ ss ++ renameBlock ρ ts := by
  induction ss with
  | nil => rfl
  | cons s ss ih => rw [List.cons_append, renameBlock, renameBlock, ih, List.cons_append]

end Renames

end Snack.Core

/-! ### Simplifying -/

namespace Snack.Simplify

open Snack.Core

section Renames

variable {ρ : String → String}

theorem number?_rename (e : Expr) : number? (e.rename ρ) = number? e := by
  cases e <;> rfl

theorem ofNumber_rename (x : Number) : (ofNumber x).rename ρ = ofNumber x := by
  cases x <;> rfl

theorem ofValue_rename (v : Number.Value) : (ofValue v).rename ρ = ofValue v := by
  cases v with
  | number x => exact ofNumber_rename x
  | bool b => rfl

theorem withLeft_rename (x : Number) (op : BinaryOp) (l r : Expr) :
    withLeft x op (l.rename ρ) (r.rename ρ) = (withLeft x op l r).map (·.rename ρ) := by
  cases op with
  | add | pow | div =>
    simp only [withLeft]
    split <;> rfl
  | mul =>
    simp only [withLeft]
    split
    · rfl
    · split <;> rfl
  | sub =>
    simp only [withLeft, Expr.typ_rename]
    split <;> rfl
  | _ => rfl

theorem withRight_rename (op : BinaryOp) (y : Number) (l r : Expr) (t : Ty) :
    withRight op y (l.rename ρ) (r.rename ρ) (t.rename ρ) = (withRight op y l r t).map (·.rename ρ) := by
  cases op with
  | add | sub | div =>
    simp only [withRight]
    split <;> rfl
  | mul =>
    simp only [withRight]
    split
    · rfl
    · split <;> rfl
  | pow =>
    simp only [withRight]
    split
    · cases t with
      | prim p => cases p <;> rfl
      | _ => rfl
    · rfl
  | _ => rfl

theorem binary?_rename (op : BinaryOp) (l r : Expr) (t : Ty) :
    binary? op (l.rename ρ) (r.rename ρ) (t.rename ρ) = (binary? op l r t).map (·.rename ρ) := by
  cases op with
  | coalesce => cases l <;> rfl
  | and | or =>
    cases l with
    | bool b =>
      cases r with
      | bool c => cases b <;> cases c <;> rfl
      | _ => cases b <;> rfl
    | _ =>
      cases r with
      | bool c => cases c <;> rfl
      | _ => rfl
  | _ =>
    simp only [binary?, number?_rename]
    split
    · simp [Function.comp_def, ofValue_rename]
    · exact withLeft_rename _ _ _ _
    · exact withRight_rename _ _ _ _ _
    · rfl

theorem binary_rename (op : BinaryOp) (l r : Expr) (t : Ty) :
    binary op (l.rename ρ) (r.rename ρ) (t.rename ρ) = (binary op l r t).rename ρ := by
  rw [binary, binary, binary?_rename]
  cases binary? op l r t <;> rfl

theorem unary_rename (op : UnaryOp) (e : Expr) (t : Ty) :
    unary op (e.rename ρ) (t.rename ρ) = (unary op e t).rename ρ := by
  cases op with
  | neg =>
    simp only [unary, number?_rename]
    cases number? e with
    | none => rfl
    | some x => exact (ofNumber_rename _).symm
  | _ => rfl

mutual

theorem expr_rename : ∀ e : Expr, expr (e.rename ρ) = (expr e).rename ρ
  | .binary op l r t => by
    rw [Expr.rename, expr, expr, expr_rename l, expr_rename r]
    exact binary_rename op _ _ t
  | .unary op e t => by
    rw [Expr.rename, expr, expr, expr_rename e]
    exact unary_rename op _ t
  | .call f args t => by rw [Expr.rename, expr, expr, Expr.rename, expr_rename f, exprs_rename args]
  | .construct c args => by rw [Expr.rename, expr, expr, Expr.rename, exprs_rename args]
  | .member o op field t => by rw [Expr.rename, expr, expr, Expr.rename, expr_rename o]
  | .array es t => by rw [Expr.rename, expr, expr, Expr.rename, exprs_rename es]
  | .tuple es t => by rw [Expr.rename, expr, expr, Expr.rename, exprs_rename es]
  | .dict es t => by rw [Expr.rename, expr, expr, Expr.rename, entries_rename es]
  | .int _ | .float _ | .str _ | .bool _ | .ref _ | .emptyArray _ | .emptyOptional _ | .other _ _ => rfl

theorem exprs_rename : ∀ es : List Expr, exprs (renameExprs ρ es) = renameExprs ρ (exprs es)
  | [] => rfl
  | e :: es => by rw [renameExprs, exprs, exprs, renameExprs, expr_rename e, exprs_rename es]

theorem entries_rename : ∀ es : List (Expr × Expr), entries (renameEntries ρ es) = renameEntries ρ (entries es)
  | [] => rfl
  | (k, v) :: es => by
    rw [renameEntries, entries, entries, renameEntries, expr_rename k, expr_rename v, entries_rename es]

end

theorem option_expr_rename (o : Option Expr) :
    (o.map (·.rename ρ)).map expr = (o.map expr).map (·.rename ρ) := by
  simp [Function.comp_def, expr_rename]

theorem sameEntity_rename (a b : Expr) : sameEntity (a.rename ρ) (b.rename ρ) = sameEntity a b := by
  cases a with
  | ref => cases b <;> rfl
  | _ => rfl

theorem emptyRange_rename (low high : Expr) :
    emptyRange (low.rename ρ) (high.rename ρ) = emptyRange low high := by
  rw [emptyRange, emptyRange, number?_rename, number?_rename]

theorem isEmptyArray_rename (e : Expr) : isEmptyArray (e.rename ρ) = isEmptyArray e := by
  cases e <;> rfl

theorem isFalse_rename (e : Expr) : isFalse (e.rename ρ) = isFalse e := by
  cases e with
  | bool b => cases b <;> rfl
  | _ => rfl

theorem spliced_rename (rest : Else) : spliced (rest.rename ρ) = renameBlock ρ (spliced rest) := by
  cases rest <;> rfl

theorem replaced_rename (rest : Else) : replaced (rest.rename ρ) = (replaced rest).rename ρ := by
  cases rest <;> rfl

mutual

theorem stmt_rename : ∀ s : Stmt, stmt (s.rename ρ) = renameBlock ρ (stmt s)
  | .declare v init _ => by simp only [Stmt.rename, stmt, renameBlock, option_expr_rename]
  | .function f _ => by simp only [Stmt.rename, stmt, renameBlock, function_rename f]
  | .classDecl _ _ methods _ => by simp only [Stmt.rename, stmt, renameBlock, functions_rename methods]
  | .assign target source _ => by
    simp only [Stmt.rename, stmt, expr_rename, sameEntity_rename]
    split <;> rfl
  | .addAssign .. | .increment .. | .decrement .. | .call .. => by
    simp only [Stmt.rename, stmt, renameBlock, expr_rename]
  | .ifElse test body rest _ => by
    simp only [Stmt.rename, stmt, expr_rename, block_rename body, elsePart_rename rest]
    cases expr test with
    | bool b =>
      cases b with
      | true => rfl
      | false => exact spliced_rename _
    | _ => rfl
  | .whileLoop test body _ => by
    simp only [Stmt.rename, stmt, expr_rename, isFalse_rename, block_rename body]
    split <;> rfl
  | .rangeLoop _ low _ high body _ => by
    simp only [Stmt.rename, stmt, expr_rename, emptyRange_rename, block_rename body]
    split <;> rfl
  | .eachLoop _ collection body _ => by
    simp only [Stmt.rename, stmt, expr_rename, isEmptyArray_rename, block_rename body]
    split <;> rfl
  | .ret value _ => by simp only [Stmt.rename, stmt, renameBlock, option_expr_rename]
  | .print es _ => by simp only [Stmt.rename, stmt, renameBlock, exprs_rename]
  | .brk .. | .other .. => rfl

theorem block_rename : ∀ ss : List Stmt, block (renameBlock ρ ss) = renameBlock ρ (block ss)
  | [] => rfl
  | s :: ss => by rw [renameBlock, block, block, stmt_rename s, block_rename ss, renameBlock_append]

theorem elsePart_rename : ∀ rest : Else, elsePart (rest.rename ρ) = (elsePart rest).rename ρ
  | .none => rfl
  | .block body => by rw [Else.rename, elsePart, elsePart, Else.rename, block_rename body]
  | .elseIf test body rest _ => by
    simp only [Else.rename, elsePart, expr_rename, block_rename body, elsePart_rename rest]
    cases expr test with
    | bool b =>
      cases b with
      | true => rfl
      | false => exact replaced_rename _
    | _ => rfl

theorem function_rename : ∀ f : Function, function (f.rename ρ) = (function f).rename ρ
  | .mk _ _ body _ => by rw [Function.rename, function, function, Function.rename, block_rename body]

theorem functions_rename : ∀ fs : List Function,
    functions (renameFunctions ρ fs) = renameFunctions ρ (functions fs)
  | [] => rfl
  | f :: fs => by
    rw [renameFunctions, functions, functions, renameFunctions, function_rename f, functions_rename fs]

end

theorem program_rename (p : Program) : program (p.rename ρ) = (program p).rename ρ :=
  congrArg Program.mk (block_rename p.statements)

/-- However often a program is simplified, its names do not matter. -/
theorem iterate_program_rename (n : Nat) (p : Program) :
    program^[n] (p.rename ρ) = (program^[n] p).rename ρ :=
  (Function.Semiconj.iterate_right (fun p => (program_rename p).symm) n p).symm

end Renames

end Snack.Simplify
