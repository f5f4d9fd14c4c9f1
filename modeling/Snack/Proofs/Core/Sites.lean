import Snack.Proofs.Core.Entities

/-! The places of a program where an expression is evaluated, each with what is declared there. What a statement
declares reaches to the end of its block; functions and classes reach into themselves, parameters and iterators
into the body behind them. A program is well scoped if every expression refers to what has been declared where it
stands. -/

namespace Snack.Core

/-- What the value of an expression is used for. -/
inductive Role where
  | test
  | bound
  | value
  deriving DecidableEq

structure Site where
  role : Role
  expr : Expr
  /-- What is declared there. -/
  reach : List Entity

section Walk

/- What else the methods of a class reach, by the number of the class and the place of the method among them. -/
variable (left : Nat → Nat → List Entity)

mutual

/-- The sites of a statement behind the declarations of `env`. Functions, methods and classes are
declared in themselves. -/
def Stmt.sites (env : List Entity) : Stmt → List Site
  | .declare _ init _ => init.toList.map (⟨.value, ·, env⟩)
  | .function f _ => f.sites env
  | .classDecl c _ methods _ => sitesOfMethods c env 0 methods
  | .assign target source _ | .addAssign target source _ => [⟨.value, target, env⟩, ⟨.value, source, env⟩]
  | .increment target _ | .decrement target _ => [⟨.value, target, env⟩]
  | .ifElse test body rest _ => ⟨.test, test, env⟩ :: (sitesOfBlock env body ++ rest.sites env)
  | .whileLoop test body _ => ⟨.test, test, env⟩ :: sitesOfBlock env body
  | .rangeLoop i low _ high body _ =>
    ⟨.bound, low, env⟩ :: ⟨.bound, high, env⟩ :: sitesOfBlock (i :: env) body
  | .eachLoop is collection body _ => ⟨.value, collection, env⟩ :: sitesOfBlock (is ++ env) body
  | .ret value _ => value.toList.map (⟨.value, ·, env⟩)
  | .print es _ => es.map (⟨.value, ·, env⟩)
  | .call e _ => [⟨.value, e, env⟩]
  | .brk _ | .other _ _ => []

def sitesOfBlock (env : List Entity) : List Stmt → List Site
  | [] => []
  | s :: ss => s.sites env ++ sitesOfBlock (s.binds ++ env) ss

def Else.sites (env : List Entity) : Else → List Site
  | .none => []
  | .block body => sitesOfBlock env body
  | .elseIf test body rest _ => ⟨.test, test, env⟩ :: (sitesOfBlock env body ++ rest.sites env)

def Function.sites (env : List Entity) : Function → List Site
  | .mk e params body _ => sitesOfBlock (params ++ e :: env) body

/-- The sites in methods of a class that has `before` methods in front of them. -/
def sitesOfMethods (c : Entity) (env : List Entity) (before : Nat) : List Function → List Site
  | [] => []
  | f :: fs => f.sites (left c.id before ++ c :: env) ++ sitesOfMethods c env (before + 1) fs

end

end Walk

/-- The sites of a program that has nothing but what it declares. -/
def Program.sites (p : Program) : List Site := sitesOfBlock (fun _ _ => []) [] p.statements

/-- What is there behind some statements. -/
def reach (env : List Entity) : List Stmt → List Entity
  | [] => env
  | s :: ss => reach (s.binds ++ env) ss

theorem subset_reach (env : List Entity) (ss : List Stmt) : env ⊆ reach env ss := by
  induction ss generalizing env with
  | nil => exact List.Subset.refl _
  | cons s ss ih => exact List.Subset.trans (List.subset_append_right _ _) (ih _)

section Blocks

variable {left : Nat → Nat → List Entity}

theorem sitesOfBlock_append (env : List Entity) (ss ts : List Stmt) :
    sitesOfBlock left env (ss ++ ts) = sitesOfBlock left env ss ++ sitesOfBlock left (reach env ss) ts := by
  induction ss generalizing env with
  | nil => rfl
  | cons s ss ih => simp [sitesOfBlock, reach, ih]

theorem sitesOfBlock_one (env : List Entity) (s : Stmt) : sitesOfBlock left env [s] = s.sites left env := by
  simp [sitesOfBlock]

theorem forall_sitesOfBlock {Q : Site → Prop} {ss : List Stmt}
    (h : ∀ s ∈ ss, ∀ env, ∀ x ∈ s.sites left env, Q x) : ∀ env, ∀ x ∈ sitesOfBlock left env ss, Q x := by
  induction ss with
  | nil => exact fun env => List.forall_mem_nil _
  | cons s ss ih =>
    obtain ⟨hs, hss⟩ := List.forall_mem_cons.1 h
    exact fun env => List.forall_mem_append.2 ⟨hs env, ih hss _⟩

theorem forall_sitesOfMethods {Q : Site → Prop} {fs : List Function}
    (h : ∀ f ∈ fs, ∀ env, ∀ x ∈ f.sites left env, Q x) (c : Entity) (env : List Entity) (k : Nat) :
    ∀ x ∈ sitesOfMethods left c env k fs, Q x := by
  induction fs generalizing k with
  | nil => exact List.forall_mem_nil _
  | cons f fs ih =>
    obtain ⟨hf, hfs⟩ := List.forall_mem_cons.1 h
    exact List.forall_mem_append.2 ⟨hf _, ih hfs _⟩

end Blocks

/-! ### Well scoped programs -/

/-- Whether a reference to something of this kind needs a declaration in the program. What else an
expression can refer to is part of the language. -/
def EntityKind.isDeclared : EntityKind → Bool
  | .var _ | .parameter | .function _ | .classDef => true
  | .builtin _ | .constant | .other _ => false

/-- The entities that the expressions of a program refer to. -/
def Program.references (p : Program) : List Entity := p.sites.flatMap (·.expr.entities)

/-- Every reference to a variable, a parameter, a function or a class lies where that is declared. -/
def Program.WellScoped (p : Program) : Prop :=
  ∀ s ∈ p.sites, ∀ x ∈ s.expr.entities, x.kind.isDeclared → x.id ∈ s.reach.map (·.id)

instance (p : Program) : Decidable p.WellScoped :=
  inferInstanceAs (Decidable (∀ s ∈ p.sites, ∀ x ∈ s.expr.entities,
    x.kind.isDeclared → x.id ∈ s.reach.map (·.id)))

/-- Every declaration of a program introduces an entity of its own. -/
def Program.DeclaresOnce (p : Program) : Prop := (p.declared.map (·.id)).Nodup

instance (p : Program) : Decidable p.DeclaresOnce :=
  inferInstanceAs (Decidable (p.declared.map (·.id)).Nodup)

/-! ### Programs that use what is there -/

/-- An expression that uses what is there. -/
def Expr.Uses (env : List Entity) (e : Expr) : Prop := ∀ x ∈ e.entities, x ∈ env

/-- All expressions use what is declared where they stand. -/
def Scoped (sites : List Site) : Prop := ∀ s ∈ sites, s.expr.Uses s.reach

/-- Every use in a program of what is not in the environment lies in the reach of its declaration, or of one that
is left out of a class. -/
def Program.Scoped (left : Nat → Nat → List Entity) (env : List Entity) (p : Program) : Prop :=
  Core.Scoped (sitesOfBlock left env p.statements)

theorem scoped_cons {r : Role} {e : Expr} {env : List Entity} {sites : List Site} :
    Scoped (⟨r, e, env⟩ :: sites) ↔ e.Uses env ∧ Scoped sites := List.forall_mem_cons

theorem scoped_append {ss ts : List Site} : Scoped (ss ++ ts) ↔ Scoped ss ∧ Scoped ts := List.forall_mem_append

theorem scoped_nil : Scoped [] := List.forall_mem_nil _

theorem scoped_values {es : List Expr} {env : List Entity} :
    Scoped (es.map (⟨.value, ·, env⟩)) ↔ ∀ x ∈ entitiesOfAll es, x ∈ env := by
  rw [forall_entitiesOfAll]
  exact List.forall_mem_map

section Entities

/- `U` holds of all that is there from the start and of all that is declared or left out. -/
variable {left : Nat → Nat → List Entity} {U : Entity → Prop} {env : List Entity}

theorem Expr.Uses.entities {e : Expr} (h : e.Uses env) (henv : ∀ x ∈ env, U x) : ∀ x ∈ e.entities, U x :=
  fun x hx => henv x (h x hx)

theorem entities_of_values {es : List Expr} (henv : ∀ x ∈ env, U x) (h : Scoped (es.map (⟨.value, ·, env⟩))) :
    ∀ x ∈ entitiesOfAll es, U x :=
  fun x hx => henv x (scoped_values.1 h x hx)

mutual

/-- All that occurs in a statement is in its environment, or it is declared there or left out. -/
theorem Stmt.entities_of_scoped (hleft : ∀ c i, ∀ x ∈ left c i, U x) {env : List Entity} (henv : ∀ x ∈ env, U x)
    (s : Stmt) (h : Scoped (s.sites left env)) (hd : ∀ x ∈ s.declared, U x) : ∀ x ∈ s.entities, U x := by
  cases s with
  | declare v init p => exact List.forall_mem_cons.2 ⟨hd v List.mem_cons_self, entities_of_values henv h⟩
  | function f p => exact Function.entities_of_scoped hleft henv f h hd
  | classDecl c fields methods p =>
    obtain ⟨hc, hms⟩ := List.forall_mem_cons.1 hd
    exact List.forall_mem_cons.2 ⟨hc, entities_of_scopedMethods hleft henv hc methods h hms⟩
  | assign t s p | addAssign t s p =>
    simp only [Stmt.sites, scoped_cons] at h
    exact List.forall_mem_append.2 ⟨h.1.entities henv, h.2.1.entities henv⟩
  | increment t p | decrement t p | call t p =>
    simp only [Stmt.sites, scoped_cons] at h
    exact h.1.entities henv
  | ifElse t b e p =>
    obtain ⟨hb, he⟩ := List.forall_mem_append.1 hd
    simp only [Stmt.sites, scoped_cons, scoped_append] at h
    simp only [Stmt.entities, List.forall_mem_append]
    exact ⟨⟨h.1.entities henv, entities_of_scopedBlock hleft henv b h.2.1 hb⟩,
      Else.entities_of_scoped hleft henv e h.2.2 he⟩
  | whileLoop t b p =>
    simp only [Stmt.sites, scoped_cons] at h
    exact List.forall_mem_append.2 ⟨h.1.entities henv, entities_of_scopedBlock hleft henv b h.2 hd⟩
  | rangeLoop i lo op hi b p =>
    obtain ⟨hi, hb⟩ := List.forall_mem_cons.1 hd
    simp only [Stmt.sites, scoped_cons] at h
    simp only [Stmt.entities, List.forall_mem_cons, List.forall_mem_append]
    exact ⟨hi, ⟨h.1.entities henv, h.2.1.entities henv⟩,
      entities_of_scopedBlock hleft (List.forall_mem_cons.2 ⟨hi, henv⟩) b h.2.2 hb⟩
  | eachLoop is c b p =>
    obtain ⟨his, hb⟩ := List.forall_mem_append.1 hd
    simp only [Stmt.sites, scoped_cons] at h
    simp only [Stmt.entities, List.forall_mem_append]
    exact ⟨⟨his, h.1.entities henv⟩,
      entities_of_scopedBlock hleft (List.forall_mem_append.2 ⟨his, henv⟩) b h.2 hb⟩
  | ret value p | print es p => exact entities_of_values henv h
  | brk p | other tag p => exact List.forall_mem_nil _

theorem entities_of_scopedBlock (hleft : ∀ c i, ∀ x ∈ left c i, U x) {env : List Entity} (henv : ∀ x ∈ env, U x)
    (ss : List Stmt) (h : Scoped (sitesOfBlock left env ss)) (hd : ∀ x ∈ declaredInBlock ss, U x) :
    ∀ x ∈ entitiesOfBlock ss, U x := by
  cases ss with
  | nil => exact List.forall_mem_nil _
  | cons s ss =>
    obtain ⟨hs, hss⟩ := List.forall_mem_append.1 hd
    obtain ⟨h, htail⟩ := scoped_append.1 h
    have hbinds : ∀ x ∈ s.binds, U x := fun x hx => hs x (s.binds_subset_declared hx)
    exact List.forall_mem_append.2 ⟨Stmt.entities_of_scoped hleft henv s h hs,
      entities_of_scopedBlock hleft (List.forall_mem_append.2 ⟨hbinds, henv⟩) ss htail hss⟩

theorem Else.entities_of_scoped (hleft : ∀ c i, ∀ x ∈ left c i, U x) {env : List Entity} (henv : ∀ x ∈ env, U x)
    (e : Else) (h : Scoped (e.sites left env)) (hd : ∀ x ∈ e.declared, U x) : ∀ x ∈ e.entities, U x := by
  cases e with
  | none => exact List.forall_mem_nil _
  | block b => exact entities_of_scopedBlock hleft henv b h hd
  | elseIf t b e p =>
    obtain ⟨hb, he⟩ := List.forall_mem_append.1 hd
    simp only [Else.sites, scoped_cons, scoped_append] at h
    simp only [Else.entities, List.forall_mem_append]
    exact ⟨⟨h.1.entities henv, entities_of_scopedBlock hleft henv b h.2.1 hb⟩,
      Else.entities_of_scoped hleft henv e h.2.2 he⟩

theorem Function.entities_of_scoped (hleft : ∀ c i, ∀ x ∈ left c i, U x) {env : List Entity}
    (henv : ∀ x ∈ env, U x) (f : Function) (h : Scoped (f.sites left env)) (hd : ∀ x ∈ f.declared, U x) :
    ∀ x ∈ f.entities, U x := by
  cases f with
  | mk e ps b p =>
    obtain ⟨he, hd⟩ := List.forall_mem_cons.1 hd
    obtain ⟨hps, hb⟩ := List.forall_mem_append.1 hd
    refine List.forall_mem_cons.2 ⟨he, List.forall_mem_append.2 ⟨hps, entities_of_scopedBlock hleft ?_ b h hb⟩⟩
    exact List.forall_mem_append.2 ⟨hps, List.forall_mem_cons.2 ⟨he, henv⟩⟩

theorem entities_of_scopedMethods (hleft : ∀ c i, ∀ x ∈ left c i, U x) {env : List Entity} {c : Entity} {k : Nat}
    (henv : ∀ x ∈ env, U x) (hc : U c) (fs : List Function) (h : Scoped (sitesOfMethods left c env k fs))
    (hd : ∀ x ∈ declaredInFunctions fs, U x) : ∀ x ∈ entitiesOfFunctions fs, U x := by
  cases fs with
  | nil => exact List.forall_mem_nil _
  | cons f fs =>
    obtain ⟨hf, hfs⟩ := List.forall_mem_append.1 hd
    obtain ⟨h, htail⟩ := scoped_append.1 h
    have hreach : ∀ x ∈ left c.id k ++ c :: env, U x :=
      List.forall_mem_append.2 ⟨hleft c.id k, List.forall_mem_cons.2 ⟨hc, henv⟩⟩
    exact List.forall_mem_append.2 ⟨Function.entities_of_scoped hleft hreach f h hf,
      entities_of_scopedMethods hleft henv hc fs htail hfs⟩

end

end Entities

end Snack.Core
