import Snack.Proofs.Core.Sites
import Snack.Proofs.Simplify.Reducts

/-! Simplifying a program makes no new sites: each one that is left holds the simplified form of an
expression that stood in the same role where no more was declared. Nor does it make declarations. So a
well scoped program stays well scoped. -/

namespace Snack.Simplify

open Snack.Core

/-- The site `t` is what simplification makes of `s`. -/
structure StemsFrom (t s : Site) : Prop where
  role : t.role = s.role
  expr : t.expr = expr s.expr
  reach : s.reach ⊆ t.reach

/-- Every site of `ts` stems from one of `ss`. -/
def StemFrom (ts ss : List Site) : Prop := ∀ t ∈ ts, ∃ s ∈ ss, StemsFrom t s

namespace StemFrom

theorem nil {ss : List Site} : StemFrom [] ss := by
  intro t ht
  cases ht

theorem mono {ts ss rs : List Site} (h : StemFrom ts ss) (hsub : ss ⊆ rs) : StemFrom ts rs := by
  intro t ht
  obtain ⟨s, hs, hst⟩ := h t ht
  exact ⟨s, hsub hs, hst⟩

theorem append {ts us ss rs : List Site} (h : StemFrom ts ss) (h' : StemFrom us rs) :
    StemFrom (ts ++ us) (ss ++ rs) :=
  List.forall_mem_append.2
    ⟨h.mono (List.subset_append_left _ _), h'.mono (List.subset_append_right _ _)⟩

theorem cons {r : Role} {e : Expr} {env env' : List Entity} {ts ss : List Site} (henv : env ⊆ env')
    (h : StemFrom ts ss) : StemFrom (⟨r, expr e, env'⟩ :: ts) (⟨r, e, env⟩ :: ss) :=
  List.forall_mem_cons.2
    ⟨⟨⟨r, e, env⟩, List.mem_cons_self, rfl, rfl, henv⟩, h.mono (List.subset_cons_self _ _)⟩

theorem one {r : Role} {e : Expr} {env env' : List Entity} (henv : env ⊆ env') :
    StemFrom [⟨r, expr e, env'⟩] [⟨r, e, env⟩] :=
  cons henv nil

theorem all {es : List Expr} {env env' : List Entity} (henv : env ⊆ env') :
    StemFrom ((exprs es).map (⟨.value, ·, env'⟩)) (es.map (⟨.value, ·, env⟩)) := by
  induction es with
  | nil => exact nil
  | cons e es ih => exact cons henv ih

theorem option {o : Option Expr} {env env' : List Entity} (henv : env ⊆ env') :
    StemFrom ((o.map expr).toList.map (⟨.value, ·, env'⟩)) (o.toList.map (⟨.value, ·, env⟩)) := by
  cases o with
  | none => exact nil
  | some e => exact one henv

/-- A test that is decided goes with the branch that it does not take. -/
theorem taken {ts ss rs : List Site} {s : Site} (h : StemFrom ts ss) :
    StemFrom ts (s :: (ss ++ rs)) :=
  h.mono (List.Subset.trans (List.subset_append_left _ _) (List.subset_cons_self _ _))

theorem passed {ts ss rs : List Site} {s : Site} (h : StemFrom ts rs) :
    StemFrom ts (s :: (ss ++ rs)) :=
  h.mono (List.Subset.trans (List.subset_append_right _ _) (List.subset_cons_self _ _))

end StemFrom

/-! ### Sites -/

section Sites

variable {left : Nat → Nat → List Entity}

theorem sites_spliced (env : List Entity) (e : Else) : sitesOfBlock left env (spliced e) = e.sites left env := by
  cases e with
  | none => rfl
  | block b => rfl
  | elseIf t b e p => exact sitesOfBlock_one env _

theorem sites_replaced (env : List Entity) (e : Else) : (replaced e).sites left env = e.sites left env := by
  cases e <;> rfl

/-- What takes the place of a statement declares at least what it does. -/
theorem binds_subset_reach (env : List Entity) (s : Stmt) : s.binds ++ env ⊆ reach env (stmt s) := by
  cases s with
  | function f p =>
    obtain ⟨e, ps, b, q⟩ := f
    exact List.Subset.refl _
  | declare | classDecl => exact List.Subset.refl _
  | _ => exact subset_reach env _

mutual

theorem stemFrom_stmt {env env' : List Entity} (henv : env ⊆ env') (s : Stmt) :
    StemFrom (sitesOfBlock left env' (stmt s)) (s.sites left env) := by
  cases s with
  | declare v init p =>
    rw [stmt, sitesOfBlock_one]
    exact .option henv
  | function f p =>
    rw [stmt, sitesOfBlock_one]
    exact stemFrom_function henv f
  | classDecl c fields methods p =>
    rw [stmt, sitesOfBlock_one]
    exact stemFrom_methods henv c 0 methods
  | assign t s p =>
    rw [stmt]
    split
    · exact .nil
    · rw [sitesOfBlock_one]
      exact .cons henv (.one henv)
  | addAssign t s p =>
    rw [stmt, sitesOfBlock_one]
    exact .cons henv (.one henv)
  | increment t p =>
    rw [stmt, sitesOfBlock_one]
    exact .one henv
  | decrement t p =>
    rw [stmt, sitesOfBlock_one]
    exact .one henv
  | ifElse t b e p =>
    have hb := stemFrom_block henv b
    have he := stemFrom_elsePart henv e
    rw [stmt]
    split
    · exact hb.taken
    · rw [sites_spliced]
      exact he.passed
    · rw [sitesOfBlock_one]
      exact .cons henv (hb.append he)
  | whileLoop t b p =>
    rw [stmt]
    split
    · exact .nil
    · rw [sitesOfBlock_one]
      exact .cons henv (stemFrom_block henv b)
  | rangeLoop i lo op hi b p =>
    rw [stmt]
    split
    · exact .nil
    · rw [sitesOfBlock_one]
      exact .cons henv (.cons henv (stemFrom_block (List.cons_subset_cons _ henv) b))
  | eachLoop is c b p =>
    rw [stmt]
    split
    · exact .nil
    · rw [sitesOfBlock_one]
      exact .cons henv (stemFrom_block (append_subset_append (List.Subset.refl _) henv) b)
  | ret value p =>
    rw [stmt, sitesOfBlock_one]
    exact .option henv
  | brk p => exact .nil
  | print es p =>
    rw [stmt, sitesOfBlock_one]
    exact .all henv
  | call e p =>
    rw [stmt, sitesOfBlock_one]
    exact .one henv
  | other tag p => exact .nil

theorem stemFrom_block {env env' : List Entity} (henv : env ⊆ env') (ss : List Stmt) :
    StemFrom (sitesOfBlock left env' (block ss)) (sitesOfBlock left env ss) := by
  cases ss with
  | nil => exact .nil
  | cons s ss =>
    -- behind what takes the place of `s` at least as much is declared as behind `s`
    have hbehind : s.binds ++ env ⊆ reach env' (stmt s) :=
      List.Subset.trans (append_subset_append (List.Subset.refl _) henv) (binds_subset_reach env' s)
    rw [block, sitesOfBlock_append]
    exact (stemFrom_stmt henv s).append (stemFrom_block hbehind ss)

theorem stemFrom_elsePart {env env' : List Entity} (henv : env ⊆ env') (e : Else) :
    StemFrom ((elsePart e).sites left env') (e.sites left env) := by
  cases e with
  | none => exact .nil
  | block b => exact stemFrom_block henv b
  | elseIf t b e p =>
    have hb := stemFrom_block henv b
    have he := stemFrom_elsePart henv e
    rw [elsePart]
    split
    · exact hb.taken
    · rw [sites_replaced]
      exact he.passed
    · exact .cons henv (hb.append he)

theorem stemFrom_function {env env' : List Entity} (henv : env ⊆ env') (f : Function) :
    StemFrom ((function f).sites left env') (f.sites left env) := by
  cases f with
  | mk e ps b p =>
    exact stemFrom_block
      (append_subset_append (List.Subset.refl _) (List.cons_subset_cons _ henv)) b

theorem stemFrom_methods {env env' : List Entity} (henv : env ⊆ env') (c : Entity) (k : Nat) (fs : List Function) :
    StemFrom (sitesOfMethods left c env' k (functions fs)) (sitesOfMethods left c env k fs) := by
  cases fs with
  | nil => exact .nil
  | cons f fs =>
    have hreach := append_subset_append (List.Subset.refl (left c.id k)) (List.cons_subset_cons c henv)
    exact (stemFrom_function hreach f).append (stemFrom_methods henv c (k + 1) fs)

end

end Sites

theorem stemFrom_program (p : Program) : StemFrom (program p).sites p.sites :=
  stemFrom_block (List.Subset.refl _) p.statements

/-! ### Declarations -/

theorem declaredInBlock_append (ss ts : List Stmt) :
    declaredInBlock (ss ++ ts) = declaredInBlock ss ++ declaredInBlock ts := by
  induction ss with
  | nil => rfl
  | cons s ss ih => simp [declaredInBlock, ih]

theorem declaredInBlock_one (s : Stmt) : declaredInBlock [s] = s.declared := by
  simp [declaredInBlock]

theorem declared_spliced (e : Else) : declaredInBlock (spliced e) = e.declared := by
  cases e with
  | none => rfl
  | block b => rfl
  | elseIf t b e p => exact declaredInBlock_one _

theorem declared_replaced (e : Else) : (replaced e).declared = e.declared := by
  cases e <;> rfl

mutual

theorem declared_stmt_sublist (s : Stmt) : (declaredInBlock (stmt s)).Sublist s.declared := by
  cases s with
  | function f p =>
    rw [stmt, declaredInBlock_one]
    exact declared_function_sublist f
  | classDecl c fields methods p =>
    rw [stmt, declaredInBlock_one]
    exact (declared_functions_sublist methods).cons_cons c
  | assign t s p =>
    rw [stmt]
    split <;> exact List.nil_sublist _
  | ifElse t b e p =>
    have hb := declared_block_sublist b
    have he := declared_elsePart_sublist e
    rw [stmt]
    split
    · exact hb.trans (List.sublist_append_left _ _)
    · rw [declared_spliced]
      exact he.trans (List.sublist_append_right _ _)
    · rw [declaredInBlock_one]
      exact hb.append he
  | whileLoop t b p =>
    rw [stmt]
    split
    · exact List.nil_sublist _
    · rw [declaredInBlock_one]
      exact declared_block_sublist b
  | rangeLoop i lo op hi b p =>
    rw [stmt]
    split
    · exact List.nil_sublist _
    · rw [declaredInBlock_one]
      exact (declared_block_sublist b).cons_cons i
  | eachLoop is c b p =>
    rw [stmt]
    split
    · exact List.nil_sublist _
    · rw [declaredInBlock_one]
      exact (List.Sublist.refl is).append (declared_block_sublist b)
  | _ => exact List.Sublist.refl _

theorem declared_block_sublist (ss : List Stmt) :
    (declaredInBlock (block ss)).Sublist (declaredInBlock ss) := by
  cases ss with
  | nil => exact List.Sublist.refl _
  | cons s ss =>
    rw [block, declaredInBlock_append]
    exact (declared_stmt_sublist s).append (declared_block_sublist ss)

theorem declared_elsePart_sublist (e : Else) : (elsePart e).declared.Sublist e.declared := by
  cases e with
  | none => exact List.Sublist.refl _
  | block b => exact declared_block_sublist b
  | elseIf t b e p =>
    have hb := declared_block_sublist b
    have he := declared_elsePart_sublist e
    rw [elsePart]
    split
    · exact hb.trans (List.sublist_append_left _ _)
    · rw [declared_replaced]
      exact he.trans (List.sublist_append_right _ _)
    · exact hb.append he

theorem declared_function_sublist (f : Function) : (function f).declared.Sublist f.declared := by
  cases f with
  | mk e ps b p => exact ((List.Sublist.refl ps).append (declared_block_sublist b)).cons_cons e

theorem declared_functions_sublist (fs : List Function) :
    (declaredInFunctions (functions fs)).Sublist (declaredInFunctions fs) := by
  cases fs with
  | nil => exact List.Sublist.refl _
  | cons f fs => exact (declared_function_sublist f).append (declared_functions_sublist fs)

end

theorem declared_program_sublist (p : Program) : (program p).declared.Sublist p.declared :=
  declared_block_sublist p.statements

/-! ### Well scoped programs -/

theorem StemsFrom.entities {t s : Site} (h : StemsFrom t s) : t.expr.entities ⊆ s.expr.entities := by
  rw [h.expr]
  exact entities_expr s.expr

/-- Simplification moves no use out of the reach of its declaration. -/
theorem scoped_program {left : Nat → Nat → List Entity} {env : List Entity} {p : Program} (h : p.Scoped left env) :
    (program p).Scoped left env := by
  intro t ht x hx
  obtain ⟨s, hs, hst⟩ := stemFrom_block (List.Subset.refl env) p.statements t ht
  exact hst.reach (h s hs x (hst.entities hx))

/-- In a well scoped program whose declarations are all of different entities, simplification leaves
every reference in the scope of its declaration, declares no entity twice and refers to nothing new. -/
theorem program_wellScoped {p : Program} (honce : p.DeclaresOnce) (hscoped : p.WellScoped) :
    (program p).WellScoped ∧ (program p).DeclaresOnce ∧ (program p).references ⊆ p.references := by
  refine ⟨?_, ?_, ?_⟩
  · intro t ht x hx hdecl
    obtain ⟨s, hs, hst⟩ := stemFrom_program p t ht
    have hreach : x.id ∈ s.reach.map (·.id) := hscoped s hs x (hst.entities hx) hdecl
    exact List.map_subset _ hst.reach hreach
  · exact honce.sublist ((declared_program_sublist p).map _)
  · intro x hx
    obtain ⟨t, ht, hxt⟩ := List.mem_flatMap.1 hx
    obtain ⟨s, hs, hst⟩ := stemFrom_program p t ht
    exact List.mem_flatMap.2 ⟨s, hs, hst.entities hxt⟩

/-- A branch that is always taken and declares something, a loop that never runs, and a function and a
method that call themselves. -/
def selfCalls : Program :=
  let x : Entity := ⟨1, .var true, "x", .int⟩
  let y : Entity := ⟨2, .var true, "x", .int⟩
  let f : Entity := ⟨3, .function false, "f", .function [.int] .void⟩
  let n : Entity := ⟨4, .parameter, "n", .int⟩
  let z : Entity := ⟨5, .var true, "z", .int⟩
  let c : Entity := ⟨6, .classDef, "C", .struct ⟨6, "C"⟩⟩
  let m : Entity := ⟨7, .function true, "m", .function [] .void⟩
  let i : Entity := ⟨8, .var false, "i", .int⟩
  ⟨[.declare x (some (.int 1)) .unknown,
    .ifElse (.bool true) [.declare y (some (.ref x)) .unknown, .print [.ref y] .unknown] .none .unknown,
    .function (.mk f [n]
      [.whileLoop (.bool false) [.declare z (some (.ref n)) .unknown] .unknown,
        .call (.call (.ref f) [.ref n] .void) .unknown] .unknown) .unknown,
    .classDecl c [] [.mk m [] [.call (.call (.ref m) [] .void) .unknown, .ret (some (.ref c)) .unknown]
      .unknown] .unknown,
    .eachLoop [i] (.array [.ref x] (.array .int)) [.print [.ref i] .unknown] .unknown]⟩

theorem program_wellScoped_selfCalls :
    selfCalls.DeclaresOnce ∧ selfCalls.WellScoped ∧
      (program selfCalls).WellScoped ∧ (program selfCalls).DeclaresOnce ∧
      (program selfCalls).references ⊆ selfCalls.references := by
  have honce : selfCalls.DeclaresOnce := by decide
  have hscoped : selfCalls.WellScoped := by decide
  exact ⟨honce, hscoped, program_wellScoped honce hscoped⟩

end Snack.Simplify
