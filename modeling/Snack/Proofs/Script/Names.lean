import Snack.Proofs.Core.Writable
import Snack.Script.Emit

/-! Writing a script. A program that can be written out has a script, and a name is given out only to an
entity that occurs in the program and is not from the library. -/

namespace Snack.Script

open Snack.Core Snack.Typing

/-! ### Writers that come to an end -/

/-- A writer that comes to an end and gives out names only for keys of a kind. -/
def Emits (U : Key → Prop) {α : Type} (x : Emit α) : Prop :=
  ∀ st, Leaves (fun _ st' => (∀ b ∈ st.names, U b.key) → ∀ b ∈ st'.names, U b.key)
    (fun _ => False) (x st)

/-- `U` holds of the keys of the entities that have names in the script. -/
def Named (U : Key → Prop) (m : Mangling) (es : List Entity) : Prop :=
  ∀ e ∈ es, isLibrary e.kind = false → U (m.key e)

section Writers

variable {U : Key → Prop} {α β : Type} {m : Mangling} {d : Nat}

theorem Emits.pure (a : α) : Emits U (pure a) := fun _ => id

theorem Emits.bind {x : Emit α} {f : α → Emit β} (hx : Emits U x) (hf : ∀ a, Emits U (f a)) :
    Emits U (x >>= f) :=
  fun st => leaves_bind (hx st) fun a st₁ hnames =>
    leaves_imp (hf a st₁) (fun _ _ hrest => hrest ∘ hnames) fun _ h => h

theorem emits_line (text : String) : Emits U (line d text) := fun _ => id

theorem emits_nameOf {e : Entity} (h : U (m.key e)) : Emits U (nameOf m e) := by
  intro st hst
  show ∀ b ∈ (mangle st.names (m.key e) e.name).2, U b.key
  unfold mangle
  split
  · exact hst
  · exact List.forall_mem_append.2 ⟨hst, by simpa using h⟩

theorem emits_namesOf {es : List Entity} (h : ∀ e ∈ es, U (m.key e)) : Emits U (namesOf m es) := by
  induction es with
  | nil => exact .pure _
  | cons e es ih =>
    obtain ⟨he, hes⟩ := List.forall_mem_cons.1 h
    exact (emits_nameOf he).bind fun _ => (ih hes).bind fun _ => .pure _

theorem emits_constructor (fields : List Field) : Emits U (constructor d fields) := by
  refine (emits_line _).bind fun _ => Emits.bind ?_ fun _ => emits_line _
  induction fields with
  | nil => exact .pure _
  | cons f fs ih => exact (emits_line _).bind fun _ => ih

end Writers

/-! ### Expressions -/

section Expressions

variable {U : Key → Prop} {m : Mangling} {d : Nat}

/-- Every entity of the library has a counterpart. -/
theorem emits_entity {e : Entity} (h : Proper e) (hU : isLibrary e.kind = false → U (m.key e)) :
    Emits U (entity m e) := by
  cases h with
  | var => exact emits_nameOf (hU rfl)
  | parameter => exact emits_nameOf (hU rfl)
  | @function id isMethod =>
    cases isMethod with
    | false => exact emits_nameOf (hU rfl)
    | true => exact .pure _
  | classDef => exact .pure _
  | standard h =>
    simp only [standardLibrary, List.mem_cons, List.not_mem_nil, or_false] at h
    rcases h with rfl | rfl | rfl | rfl | rfl | rfl | rfl | rfl | rfl | rfl | rfl | rfl | rfl | rfl
      <;> exact .pure _

theorem emits_exprs {es : List Expr} (h : ∀ e ∈ es, Emits U (expr m d e)) : Emits U (exprs m d es) := by
  induction es with
  | nil => exact .pure _
  | cons e es ih =>
    obtain ⟨he, hes⟩ := List.forall_mem_cons.1 h
    exact he.bind fun _ => (ih hes).bind fun _ => .pure _

theorem emits_args {es : List Expr} (hU : Named U m (entitiesOfAll es))
    (ih : ∀ e ∈ es, Named U m e.entities → Emits U (expr m d e)) : ∀ e ∈ es, Emits U (expr m d e) :=
  fun e he => ih e he (forall_entitiesOfAll.1 hU e he)

/-- There is one text for every expression. -/
theorem emits_exprs_bind {α : Type} {es : List Expr} {f : List String → Emit α} (hnil : es ≠ [])
    (h : ∀ e ∈ es, Emits U (expr m d e)) (hf : ∀ a as, Emits U (f (a :: as))) :
    Emits U (exprs m d es >>= f) := by
  cases es with
  | nil => exact absurd rfl hnil
  | cons e es =>
    obtain ⟨he, hes⟩ := List.forall_mem_cons.1 h
    rw [exprs, bind_assoc]
    refine he.bind fun a => ?_
    rw [bind_assoc]
    exact (emits_exprs hes).bind fun as => hf a as

theorem emits_entries {es : List (Expr × Expr)} (hk : ∀ e ∈ es, Emits U (expr m d e.1))
    (hv : ∀ e ∈ es, Emits U (expr m d e.2)) : Emits U (entries m d es) := by
  induction es with
  | nil => exact .pure _
  | cons e es ih =>
    obtain ⟨hke, hkes⟩ := List.forall_mem_cons.1 hk
    obtain ⟨hve, hves⟩ := List.forall_mem_cons.1 hv
    exact hke.bind fun _ => hve.bind fun _ => (ih hkes hves).bind fun _ => .pure _

/-- Only a function of the library takes lengths. -/
theorem ne_nil_of_isLen {f : Expr} {args : List Expr} (hf : Writable f)
    (h : ∀ x, f = .ref x → x.kind = .builtin false → args ≠ []) (hlen : isLen f = true) :
    args ≠ [] := by
  unfold isLen at hlen
  split at hlen
  · next id v name t =>
    cases hf with
    | ref hx =>
      cases hx with
      | standard hx =>
        have hall : ∀ e ∈ standardLibrary, (e.name == "len") = true → e.kind = .builtin false := by
          decide
        exact h _ rfl (hall _ hx hlen)
  · cases hlen

theorem emits_expr {e : Expr} (h : Writable e) (hU : Named U m e.entities) :
    Emits U (expr m d e) := by
  induction h with
  | int | float | str | bool => exact .pure _
  | ref h => exact emits_entity h (hU _ List.mem_cons_self)
  | binary _ _ _ ihl ihr =>
    obtain ⟨hl, hr⟩ := List.forall_mem_append.1 hU
    exact (ihl hl).bind fun _ => (ihr hr).bind fun _ => .pure _
  | @unary op e t _ _ ih =>
    cases op with
    | print => exact (ih hU).bind fun _ => (emits_line _).bind fun _ => .pure _
    | _ => exact (ih hU).bind fun _ => .pure _
  | @call f args t hf _ hlen _ ihf iha =>
    obtain ⟨hUf, hUa⟩ := List.forall_mem_append.1 hU
    have hargs := emits_args hUa iha
    rw [expr]
    cases hl : isLen f with
    | true => exact emits_exprs_bind (ne_nil_of_isLen hf hlen hl) hargs fun _ _ => .pure _
    | false => exact (emits_exprs hargs).bind fun _ => (ihf hUf).bind fun _ => .pure _
  | construct hc hk _ iha =>
    obtain ⟨hUc, hUa⟩ := List.forall_mem_cons.1 hU
    refine (emits_exprs (emits_args hUa iha)).bind fun _ => ?_
    exact (emits_nameOf (hUc (by rw [hk]; rfl))).bind fun _ => .pure _
  | member _ _ ih =>
    rw [expr]
    refine (ih hU).bind fun _ => ?_
    split <;> exact .pure _
  | array _ _ ih => exact (emits_exprs (emits_args hU ih)).bind fun _ => .pure _
  | tuple _ _ ih => exact (emits_exprs (emits_args hU ih)).bind fun _ => .pure _
  | dict _ _ _ ihk ihv =>
    obtain ⟨hUk, hUv⟩ := forall_entitiesOfEntries.1 hU
    refine Emits.bind (emits_entries ?_ ?_) fun _ => .pure _
    · exact fun e he => ihk e he (hUk e he)
    · exact fun e he => ihv e he (hUv e he)
  | emptyArray | emptyOptional => exact .pure _

end Expressions

/-! ### Statements -/

section Statements

variable {U : Key → Prop} {m : Mangling}

/-- The entities that occur in a node. -/
def occurring : Node → List Entity
  | .stmt s => s.entities
  | .rest e => e.entities
  | .function f => f.entities

/-- The node has a script at every depth. -/
def EmitsNode (U : Key → Prop) (m : Mangling) : Node → Prop
  | .stmt s => ∀ d, Emits U (stmt m d s)
  | .rest e => ∀ d, Emits U (elsePart m d e)
  | .function f => ∀ d keyword name, Emits U (function m d keyword name f)

theorem emits_block {d : Nat} {ss : List Stmt} (h : ∀ s ∈ ss, Emits U (stmt m d s)) :
    Emits U (block m d ss) := by
  induction ss with
  | nil => exact .pure _
  | cons s ss ih =>
    obtain ⟨hs, hss⟩ := List.forall_mem_cons.1 h
    exact hs.bind fun _ => ih hss

theorem emits_methods {d : Nat} {fs : List Function}
    (h : ∀ f ∈ fs, ∀ keyword name, Emits U (function m d keyword name f)) :
    Emits U (methods m d fs) := by
  induction fs with
  | nil => exact .pure _
  | cons f fs ih =>
    obtain ⟨hf, hfs⟩ := List.forall_mem_cons.1 h
    exact (hf _ _).bind fun _ => ih hfs

theorem emits_eachHead {d : Nat} {i : Entity} {is : List Entity} {c : Expr}
    (hi : ∀ j ∈ i :: is, U (m.key j))
    (hc : Emits U (expr m d c)) : Emits U (eachHead m d (i :: is) c) := by
  refine hc.bind fun _ => ?_
  split
  · next hk =>
    rw [hk] at hi
    exact (emits_namesOf hi).bind fun _ => emits_line _
  · next hk =>
    cases hk
    exact (emits_nameOf (hi _ List.mem_cons_self)).bind fun _ => emits_line _
  · next hk => cases hk

theorem emits_inner {b : List Stmt} (hU : Named U m (entitiesOfBlock b))
    (ih : ∀ s ∈ b, Named U m s.entities → EmitsNode U m (.stmt s)) (d : Nat) : Emits U (block m d b) :=
  emits_block fun s hs => ih s hs (fun e he => hU e (entities_subset_block hs he)) d

theorem emits_node {n : Node} (h : Built Writable Proper (·.typ.Known) n) (hU : Named U m (occurring n)) :
    EmitsNode U m n := by
  induction h with
  | @declare v init p hv hi =>
    obtain ⟨hUv, hUi⟩ := List.forall_mem_cons.1 hU
    intro d
    cases init with
    | none => exact (emits_nameOf (hUv hv.notLibrary)).bind fun _ => emits_line _
    | some e =>
      refine (emits_nameOf (hUv hv.notLibrary)).bind fun _ =>
        Emits.bind (emits_expr (hi e rfl) ?_) fun _ => emits_line _
      simpa [Named, entitiesOfAll] using hUi
  | @function f p hk _ ih =>
    have hUf : U (m.key f.entity) := by
      obtain ⟨e, ps, b, q⟩ := f
      exact hU e List.mem_cons_self hk
    exact fun d => (emits_nameOf hUf).bind fun name => ih hU d _ name
  | classDecl hc hf _ ih =>
    obtain ⟨hUc, hUm⟩ := List.forall_mem_cons.1 hU
    refine fun d => (emits_nameOf (hUc hc.notLibrary)).bind fun _ => (emits_line _).bind fun _ =>
      (emits_constructor _).bind fun _ =>
        Emits.bind (emits_methods fun f hf keyword name => ?_) fun _ => emits_line _
    exact ih f hf (fun e he => hUm e (entities_subset_functions hf he)) _ keyword name
  | assign ht hs =>
    obtain ⟨hUt, hUs⟩ := List.forall_mem_append.1 hU
    exact fun d => (emits_expr ht hUt).bind fun _ => (emits_expr hs hUs).bind fun _ => emits_line _
  | addAssign ht hs =>
    obtain ⟨hUt, hUs⟩ := List.forall_mem_append.1 hU
    exact fun d => (emits_expr ht hUt).bind fun _ => (emits_expr hs hUs).bind fun _ => emits_line _
  | increment ht => exact fun d => (emits_expr ht hU).bind fun _ => emits_line _
  | decrement ht => exact fun d => (emits_expr ht hU).bind fun _ => emits_line _
  | ifElse ht _ _ ihb ihe =>
    obtain ⟨hU, hUe⟩ := List.forall_mem_append.1 hU
    obtain ⟨hUt, hUb⟩ := List.forall_mem_append.1 hU
    exact fun d => (emits_expr ht hUt).bind fun _ => (emits_line _).bind fun _ =>
      (emits_inner hUb ihb _).bind fun _ => ihe hUe d
  | whileLoop ht _ ih =>
    obtain ⟨hUt, hUb⟩ := List.forall_mem_append.1 hU
    exact fun d => (emits_expr ht hUt).bind fun _ => (emits_line _).bind fun _ =>
      (emits_inner hUb ih _).bind fun _ => emits_line _
  | rangeLoop hi hl hh _ _ ih =>
    obtain ⟨hUi, hU⟩ := List.forall_mem_cons.1 hU
    obtain ⟨hU, hUb⟩ := List.forall_mem_append.1 hU
    obtain ⟨hUl, hUh⟩ := List.forall_mem_append.1 hU
    refine fun d => Emits.bind ?_ fun _ => (emits_inner hUb ih _).bind fun _ => emits_line _
    exact (emits_nameOf (hUi hi.notLibrary)).bind fun _ => (emits_expr hl hUl).bind fun _ =>
      (emits_expr hh hUh).bind fun _ => emits_line _
  | eachLoop hi hc _ ih =>
    obtain ⟨hU, hUb⟩ := List.forall_mem_append.1 hU
    obtain ⟨hUi, hUc⟩ := List.forall_mem_append.1 hU
    exact fun d =>
      (emits_eachHead (fun j hj => hUi j hj (hi j hj).notLibrary) (emits_expr hc hUc)).bind fun _ =>
      (emits_inner hUb ih _).bind fun _ => emits_line _
  | @ret value p hv =>
    intro d
    cases value with
    | none => exact emits_line _
    | some e =>
      refine Emits.bind (emits_expr (hv e rfl) ?_) fun _ => emits_line _
      simpa [Named, occurring, Stmt.entities, entitiesOfAll] using hU
  | brk => exact fun d => emits_line _
  | print he =>
    intro d
    refine Emits.bind (emits_exprs (emits_args hU ?_)) fun _ => emits_line _
    exact fun e hmem => emits_expr (he e hmem)
  | call he =>
    refine fun d => (emits_expr he hU).bind fun text => ?_
    split
    · exact .pure _
    · exact emits_line _
  | none => exact fun d => emits_line _
  | @block b _ ih =>
    intro d
    cases b with
    | nil => exact emits_line _
    | cons s ss => exact (emits_line _).bind fun _ => (emits_inner hU ih _).bind fun _ => emits_line _
  | elseIf ht _ _ ihb ihe =>
    obtain ⟨hU, hUe⟩ := List.forall_mem_append.1 hU
    obtain ⟨hUt, hUb⟩ := List.forall_mem_append.1 hU
    exact fun d => (emits_expr ht hUt).bind fun _ => (emits_line _).bind fun _ =>
      (emits_inner hUb ihb _).bind fun _ => ihe hUe d
  | body _ hp _ ih =>
    obtain ⟨hUp, hUb⟩ := List.forall_mem_append.1 (List.forall_mem_cons.1 hU).2
    exact fun d _ _ => (emits_namesOf fun q hq => hUp q hq (hp q hq).notLibrary).bind fun _ =>
      (emits_line _).bind fun _ => (emits_inner hUb ih _).bind fun _ => emits_line _

end Statements

/-- A program that can be written out has a script, with names of its own entities. -/
theorem run_of_writable {U : Key → Prop} {m : Mangling} {p : Program} (h : p.Writable)
    (hU : Named U m p.entities) : (run m p).1 = .ok () ∧ ∀ b ∈ (run m p).2.names, U b.key := by
  have hblock : Emits U (block m 0 p.statements) := emits_inner hU (fun s hs => emits_node (h s hs)) 0
  have hrun := hblock ⟨[], #[]⟩
  unfold run
  cases hr : block m 0 p.statements ⟨[], #[]⟩ with
  | ok _ st =>
    rw [hr] at hrun
    exact ⟨rfl, hrun (by simp)⟩
  | error e st =>
    rw [hr] at hrun
    exact hrun.elim

/-- A program that can be written out has a text. -/
theorem generate_of_writable (m : Mangling) {p : Program} (h : p.Writable) : ∃ text, generate m p = .ok text := by
  have hrun : (run m p).1 = .ok () := (run_of_writable (U := fun _ => True) h fun _ _ _ => trivial).1
  unfold generate
  cases hr : run m p with
  | mk result st =>
    rw [hr] at hrun
    obtain rfl : result = .ok () := hrun
    exact ⟨_, rfl⟩

end Snack.Script
