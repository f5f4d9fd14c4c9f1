import Snack.Core.Basic

/-! The entities of a program: those that a statement declares, in its scope or at any depth, and all that occur
in an expression or a statement, where they are declared and where they are used. -/

namespace Snack.Core

/-- The entities that a statement declares in the scope it stands in. -/
def Stmt.binds : Stmt → List Entity
  | .declare v _ _ => [v]
  | .function f _ => [f.entity]
  | .classDecl c _ _ _ => [c]
  | _ => []

/-! ### Occurrences -/

mutual

/-- The entities that an expression uses. -/
def Expr.entities : Expr → List Entity
  | .ref e => [e]
  | .binary _ left right _ => left.entities ++ right.entities
  | .unary _ operand _ => operand.entities
  | .call callee args _ => callee.entities ++ entitiesOfAll args
  | .construct c args => c :: entitiesOfAll args
  | .member object _ _ _ => object.entities
  | .array es _ | .tuple es _ => entitiesOfAll es
  | .dict es _ => entitiesOfEntries es
  | .int _ | .float _ | .str _ | .bool _ | .emptyArray _ | .emptyOptional _ | .other _ _ => []

def entitiesOfAll : List Expr → List Entity
  | [] => []
  | e :: es => e.entities ++ entitiesOfAll es

def entitiesOfEntries : List (Expr × Expr) → List Entity
  | [] => []
  | (k, v) :: es => k.entities ++ v.entities ++ entitiesOfEntries es

end

theorem forall_entitiesOfAll {K : Entity → Prop} {es : List Expr} :
    (∀ x ∈ entitiesOfAll es, K x) ↔ ∀ e ∈ es, ∀ x ∈ e.entities, K x := by
  induction es with
  | nil => simp [entitiesOfAll]
  | cons e es ih => rw [entitiesOfAll, List.forall_mem_append, List.forall_mem_cons, ih]

theorem forall_entitiesOfEntries {K : Entity → Prop} {es : List (Expr × Expr)} :
    (∀ x ∈ entitiesOfEntries es, K x) ↔
      (∀ e ∈ es, ∀ x ∈ e.1.entities, K x) ∧ ∀ e ∈ es, ∀ x ∈ e.2.entities, K x := by
  induction es with
  | nil => simp [entitiesOfEntries]
  | cons e es ih =>
    simp only [entitiesOfEntries, List.forall_mem_append, List.forall_mem_cons, ih]
    exact and_and_and_comm

mutual

/-- The entities that occur in a statement. -/
def Stmt.entities : Stmt → List Entity
  | .declare v init _ => v :: entitiesOfAll init.toList
  | .function f _ => f.entities
  | .classDecl c _ methods _ => c :: entitiesOfFunctions methods
  | .assign target source _ | .addAssign target source _ => target.entities ++ source.entities
  | .increment target _ | .decrement target _ => target.entities
  | .ifElse test body rest _ => test.entities ++ entitiesOfBlock body ++ rest.entities
  | .whileLoop test body _ => test.entities ++ entitiesOfBlock body
  | .rangeLoop i low _ high body _ => i :: (low.entities ++ high.entities ++ entitiesOfBlock body)
  | .eachLoop is collection body _ => is ++ collection.entities ++ entitiesOfBlock body
  | .ret value _ => entitiesOfAll value.toList
  | .print es _ => entitiesOfAll es
  | .call e _ => e.entities
  | .brk _ | .other _ _ => []

def entitiesOfBlock : List Stmt → List Entity
  | [] => []
  | s :: ss => s.entities ++ entitiesOfBlock ss

def Else.entities : Else → List Entity
  | .none => []
  | .block body => entitiesOfBlock body
  | .elseIf test body rest _ => test.entities ++ entitiesOfBlock body ++ rest.entities

def Function.entities : Function → List Entity
  | .mk e params body _ => e :: (params ++ entitiesOfBlock body)

def entitiesOfFunctions : List Function → List Entity
  | [] => []
  | f :: fs => f.entities ++ entitiesOfFunctions fs

end

theorem entities_subset_block {ss : List Stmt} {s : Stmt} (hs : s ∈ ss) :
    s.entities ⊆ entitiesOfBlock ss := by
  induction ss with
  | nil => cases hs
  | cons t ss ih =>
    rcases List.mem_cons.1 hs with rfl | hs
    · exact List.subset_append_left _ _
    · exact List.Subset.trans (ih hs) (List.subset_append_right _ _)

theorem entities_subset_functions {fs : List Function} {f : Function} (hf : f ∈ fs) :
    f.entities ⊆ entitiesOfFunctions fs := by
  induction fs with
  | nil => cases hf
  | cons g fs ih =>
    rcases List.mem_cons.1 hf with rfl | hf
    · exact List.subset_append_left _ _
    · exact List.Subset.trans (ih hf) (List.subset_append_right _ _)

/-- The entities that occur in a program. -/
def Program.entities (p : Program) : List Entity := entitiesOfBlock p.statements

/-! ### Declarations -/

mutual

/-- The entities that are declared in a statement, at any depth. -/
def Stmt.declared : Stmt → List Entity
  | .declare v _ _ => [v]
  | .function f _ => f.declared
  | .classDecl c _ methods _ => c :: declaredInFunctions methods
  | .ifElse _ body rest _ => declaredInBlock body ++ rest.declared
  | .whileLoop _ body _ => declaredInBlock body
  | .rangeLoop i _ _ _ body _ => i :: declaredInBlock body
  | .eachLoop is _ body _ => is ++ declaredInBlock body
  | _ => []

def declaredInBlock : List Stmt → List Entity
  | [] => []
  | s :: ss => s.declared ++ declaredInBlock ss

def Else.declared : Else → List Entity
  | .none => []
  | .block body => declaredInBlock body
  | .elseIf _ body rest _ => declaredInBlock body ++ rest.declared

def Function.declared : Function → List Entity
  | .mk e params body _ => e :: (params ++ declaredInBlock body)

def declaredInFunctions : List Function → List Entity
  | [] => []
  | f :: fs => f.declared ++ declaredInFunctions fs

end

def Program.declared (p : Program) : List Entity := declaredInBlock p.statements

theorem Stmt.binds_subset_declared (s : Stmt) : s.binds ⊆ s.declared := by
  cases s with
  | function f p =>
    obtain ⟨e, ps, b, q⟩ := f
    simp [Stmt.binds, Stmt.declared, Function.declared, Function.entity]
  | _ => simp [Stmt.binds, Stmt.declared]

end Snack.Core
