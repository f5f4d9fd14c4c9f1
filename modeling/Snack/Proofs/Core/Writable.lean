import Snack.Core.Dump
import Snack.Proofs.Core.Sites
import Snack.Proofs.Steps
import Snack.Proofs.Typing.Rules

/-! Programs that can be written out. No rule of types has to hold in them; it is enough that all their
parts are of kinds that are known, that a length is taken of something, and that a loop over a collection
has an iterator. -/

namespace Snack.Core

open Snack.Typing

/-! ### Parts of known kinds -/

/-- Expressions that can be written out. -/
inductive Writable : Expr → Prop where
  | int (n : Int) : Writable (.int n)
  | float (x : Float) : Writable (.float x)
  | str (s : String) : Writable (.str s)
  | bool (b : Bool) : Writable (.bool b)
  | ref {e} (h : Proper e) : Writable (.ref e)
  | binary {op l r t} (hl : Writable l) (hr : Writable r) (ht : t.Known) : Writable (.binary op l r t)
  | unary {op e t} (he : Writable e) (ht : t.Known) : Writable (.unary op e t)
  | call {f args t} (hf : Writable f) (ha : ∀ a ∈ args, Writable a)
      (hlen : ∀ x, f = .ref x → x.kind = .builtin false → args ≠ []) (ht : t.Known) :
      Writable (.call f args t)
  | construct {c args} (hc : Proper c) (hk : c.kind = .classDef) (ha : ∀ a ∈ args, Writable a) :
      Writable (.construct c args)
  | member {o op field t} (ho : Writable o) (ht : t.Known) : Writable (.member o op field t)
  | array {es t} (he : ∀ e ∈ es, Writable e) (ht : t.Known) : Writable (.array es t)
  | tuple {es t} (he : ∀ e ∈ es, Writable e) (ht : t.Known) : Writable (.tuple es t)
  | dict {es t} (hk : ∀ e ∈ es, Writable e.1) (hv : ∀ e ∈ es, Writable e.2) (ht : t.Known) :
      Writable (.dict es t)
  | emptyArray {t} (ht : t.Known) : Writable (.emptyArray t)
  | emptyOptional {t} (ht : t.Known) : Writable (.emptyOptional t)

theorem Writable.known {e : Expr} (h : Writable e) : e.typ.Known := by
  cases h with
  | int | float | str | bool => exact .prim _
  | ref h => exact h.known
  | construct hc => exact hc.known
  | _ => assumption

/-- Entities with a property that a program declares. -/
structure Own (O : Entity → Prop) (e : Entity) : Prop where
  proper : O e
  notLibrary : isLibrary e.kind = false

theorem Own.of_kind {O : Entity → Prop} {e : Entity} (h : O e) {k : EntityKind} (hk : e.kind = k)
    (hlib : isLibrary k = false) : Own O e := ⟨h, hk ▸ hlib⟩

/-- Nodes whose expressions have the property `P`, which declare entities of their own with the property `O`
and whose classes have fields with the property `F`. -/
inductive Built (P : Expr → Prop) (O : Entity → Prop) (F : Field → Prop) : Node → Prop where
  | declare {v init p} (hv : Own O v) (hi : ∀ e ∈ init, P e) : Built P O F (.stmt (.declare v init p))
  | function {f p} (hk : isLibrary f.entity.kind = false) (hf : Built P O F (.function f)) :
      Built P O F (.stmt (.function f p))
  | classDecl {c fields methods p} (hc : Own O c) (hf : ∀ f ∈ fields, F f)
      (hm : ∀ f ∈ methods, Built P O F (.function f)) : Built P O F (.stmt (.classDecl c fields methods p))
  | assign {t s p} (ht : P t) (hs : P s) : Built P O F (.stmt (.assign t s p))
  | addAssign {t s p} (ht : P t) (hs : P s) : Built P O F (.stmt (.addAssign t s p))
  | increment {t p} (ht : P t) : Built P O F (.stmt (.increment t p))
  | decrement {t p} (ht : P t) : Built P O F (.stmt (.decrement t p))
  | ifElse {t b e p} (ht : P t) (hb : ∀ s ∈ b, Built P O F (.stmt s)) (he : Built P O F (.rest e)) :
      Built P O F (.stmt (.ifElse t b e p))
  | whileLoop {t b p} (ht : P t) (hb : ∀ s ∈ b, Built P O F (.stmt s)) : Built P O F (.stmt (.whileLoop t b p))
  | rangeLoop {i low op high b p} (hi : Own O i) (hl : P low) (hh : P high) (hop : op ∈ [.through, .below])
      (hb : ∀ s ∈ b, Built P O F (.stmt s)) : Built P O F (.stmt (.rangeLoop i low op high b p))
  | eachLoop {i is c b p} (hi : ∀ j ∈ i :: is, Own O j) (hc : P c) (hb : ∀ s ∈ b, Built P O F (.stmt s)) :
      Built P O F (.stmt (.eachLoop (i :: is) c b p))
  | ret {value p} (hv : ∀ e ∈ value, P e) : Built P O F (.stmt (.ret value p))
  | brk {p} : Built P O F (.stmt (.brk p))
  | print {es p} (he : ∀ e ∈ es, P e) : Built P O F (.stmt (.print es p))
  | call {e p} (he : P e) : Built P O F (.stmt (.call e p))
  | none : Built P O F (.rest .none)
  | block {b} (hb : ∀ s ∈ b, Built P O F (.stmt s)) : Built P O F (.rest (.block b))
  | elseIf {t b e p} (ht : P t) (hb : ∀ s ∈ b, Built P O F (.stmt s)) (he : Built P O F (.rest e)) :
      Built P O F (.rest (.elseIf t b e p))
  | body {f params b p} (hf : O f) (hp : ∀ q ∈ params, Own O q) (hb : ∀ s ∈ b, Built P O F (.stmt s)) :
      Built P O F (.function (.mk f params b p))

/-- A program that can be written out. -/
def Program.Writable (p : Program) : Prop :=
  ∀ s ∈ p.statements, Built Core.Writable Proper (·.typ.Known) (.stmt s)

theorem Built.imp {P Q : Expr → Prop} {O : Entity → Prop} {F : Field → Prop} {n : Node} (h : Built P O F n)
    (hPQ : ∀ e, P e → Q e) : Built Q O F n := by
  induction h with
  | declare hv hi => exact .declare hv fun e he => hPQ e (hi e he)
  | function hk _ ih => exact .function hk ih
  | classDecl hc hf _ ih => exact .classDecl hc hf ih
  | assign ht hs => exact .assign (hPQ _ ht) (hPQ _ hs)
  | addAssign ht hs => exact .addAssign (hPQ _ ht) (hPQ _ hs)
  | increment ht => exact .increment (hPQ _ ht)
  | decrement ht => exact .decrement (hPQ _ ht)
  | ifElse ht _ _ ihb ihe => exact .ifElse (hPQ _ ht) ihb ihe
  | whileLoop ht _ ih => exact .whileLoop (hPQ _ ht) ih
  | rangeLoop hi hl hh hop _ ih => exact .rangeLoop hi (hPQ _ hl) (hPQ _ hh) hop ih
  | eachLoop hi hc _ ih => exact .eachLoop hi (hPQ _ hc) ih
  | ret hv => exact .ret fun e he => hPQ e (hv e he)
  | brk => exact .brk
  | print he => exact .print fun e hmem => hPQ e (he e hmem)
  | call he => exact .call (hPQ _ he)
  | none => exact .none
  | block _ ih => exact .block ih
  | elseIf ht _ _ ihb ihe => exact .elseIf (hPQ _ ht) ihb ihe
  | body hf hp _ ih => exact .body hf hp ih

/-- The sites of a node behind the declarations of `env`. -/
def sitesIn (env : List Entity) : Node → List Site
  | .stmt s => s.sites (fun _ _ => []) env
  | .rest e => e.sites (fun _ _ => []) env
  | .function f => f.sites (fun _ _ => []) env

/-- What a program is built of stands at its sites. -/
theorem Built.sites {P : Expr → Prop} {O : Entity → Prop} {F : Field → Prop} {n : Node}
    (h : Built P O F n) : ∀ env, ∀ x ∈ sitesIn env n, P x.expr := by
  induction h with
  | declare _ hi => exact fun env => List.forall_mem_map.2 fun e he => hi e (Option.mem_toList.1 he)
  | function _ _ ih => exact ih
  | @classDecl c _ _ _ _ _ _ ih => exact fun env => forall_sitesOfMethods ih c _ 0
  | assign ht hs => exact fun env => by simpa [sitesIn, Stmt.sites] using ⟨ht, hs⟩
  | addAssign ht hs => exact fun env => by simpa [sitesIn, Stmt.sites] using ⟨ht, hs⟩
  | increment ht => exact fun env => List.forall_mem_singleton.2 ht
  | decrement ht => exact fun env => List.forall_mem_singleton.2 ht
  | ifElse ht _ _ ihb ihe =>
    exact fun env => List.forall_mem_cons.2
      ⟨ht, List.forall_mem_append.2 ⟨forall_sitesOfBlock ihb env, ihe env⟩⟩
  | whileLoop ht _ ih => exact fun env => List.forall_mem_cons.2 ⟨ht, forall_sitesOfBlock ih env⟩
  | rangeLoop _ hl hh _ _ ih =>
    exact fun env => List.forall_mem_cons.2 ⟨hl, List.forall_mem_cons.2 ⟨hh, forall_sitesOfBlock ih _⟩⟩
  | eachLoop _ hc _ ih => exact fun env => List.forall_mem_cons.2 ⟨hc, forall_sitesOfBlock ih _⟩
  | ret hv => exact fun env => List.forall_mem_map.2 fun e he => hv e (Option.mem_toList.1 he)
  | brk | none => exact fun env => List.forall_mem_nil _
  | print he => exact fun env => List.forall_mem_map.2 he
  | call he => exact fun env => List.forall_mem_singleton.2 he
  | block _ ih => exact forall_sitesOfBlock ih
  | elseIf ht _ _ ihb ihe =>
    exact fun env => List.forall_mem_cons.2
      ⟨ht, List.forall_mem_append.2 ⟨forall_sitesOfBlock ihb env, ihe env⟩⟩
  | body _ _ _ ih => exact fun env => forall_sitesOfBlock ih _

/-- What is known of the expressions of a node in two ways. -/
theorem Built.and {P P' Q : Expr → Prop} {O O' : Entity → Prop} {F F' : Field → Prop} {n : Node}
    (h : Built P O F n) (h' : Built P' O' F' n) (hQ : ∀ e, P e → P' e → Q e) : Built Q O F n := by
  induction h with
  | declare hv hi =>
    cases h' with
    | declare _ hi' => exact .declare hv fun e he => hQ e (hi e he) (hi' e he)
  | function hk _ ih =>
    cases h' with
    | function _ hf' => exact .function hk (ih hf')
  | classDecl hc hf _ ih =>
    cases h' with
    | classDecl _ _ hm' => exact .classDecl hc hf fun f hmem => ih f hmem (hm' f hmem)
  | assign ht hs =>
    cases h' with
    | assign ht' hs' => exact .assign (hQ _ ht ht') (hQ _ hs hs')
  | addAssign ht hs =>
    cases h' with
    | addAssign ht' hs' => exact .addAssign (hQ _ ht ht') (hQ _ hs hs')
  | increment ht =>
    cases h' with
    | increment ht' => exact .increment (hQ _ ht ht')
  | decrement ht =>
    cases h' with
    | decrement ht' => exact .decrement (hQ _ ht ht')
  | ifElse ht _ _ ihb ihe =>
    cases h' with
    | ifElse ht' hb' he' => exact .ifElse (hQ _ ht ht') (fun s hs => ihb s hs (hb' s hs)) (ihe he')
  | whileLoop ht _ ih =>
    cases h' with
    | whileLoop ht' hb' => exact .whileLoop (hQ _ ht ht') fun s hs => ih s hs (hb' s hs)
  | rangeLoop hi hl hh hop _ ih =>
    cases h' with
    | rangeLoop _ hl' hh' _ hb' =>
      exact .rangeLoop hi (hQ _ hl hl') (hQ _ hh hh') hop fun s hs => ih s hs (hb' s hs)
  | eachLoop hi hc _ ih =>
    cases h' with
    | eachLoop _ hc' hb' => exact .eachLoop hi (hQ _ hc hc') fun s hs => ih s hs (hb' s hs)
  | ret hv =>
    cases h' with
    | ret hv' => exact .ret fun e he => hQ e (hv e he) (hv' e he)
  | brk => exact .brk
  | print he =>
    cases h' with
    | print he' => exact .print fun e hmem => hQ e (he e hmem) (he' e hmem)
  | call he =>
    cases h' with
    | call he' => exact .call (hQ _ he he')
  | none => exact .none
  | block _ ih =>
    cases h' with
    | block hb' => exact .block fun s hs => ih s hs (hb' s hs)
  | elseIf ht _ _ ihb ihe =>
    cases h' with
    | elseIf ht' hb' he' => exact .elseIf (hQ _ ht ht') (fun s hs => ihb s hs (hb' s hs)) (ihe he')
  | body hf hp _ ih =>
    cases h' with
    | body _ _ hb' => exact .body hf hp fun s hs => ih s hs (hb' s hs)

/-- Rules on types ask for more. -/
theorem built_of_wellTyped {M : Nat → Members} {r : Option Ty} {n : Node} (h : WellTyped M r n) :
    Built (Typed Proper Ty.Written M) Proper (·.typ.Known) n := by
  induction h with
  | declare hv hk hi => exact .declare (.of_kind hv hk rfl) fun e he => (hi e he).1
  | function hk _ ih => exact .function (hk ▸ rfl) ih
  | classDecl hc hk _ ht _ _ _ ih => exact .classDecl (.of_kind hc hk rfl) ht ih
  | assign ht hs _ => exact .assign ht hs
  | addAssign ht hs _ _ => exact .addAssign ht hs
  | increment ht _ => exact .increment ht
  | decrement ht _ => exact .decrement ht
  | ifElse ht _ _ _ ihb ihe => exact .ifElse ht ihb ihe
  | whileLoop ht _ _ ih => exact .whileLoop ht ih
  | rangeLoop hi hk _ hl _ hh _ hop _ ih => exact .rangeLoop (.of_kind hi hk rfl) hl hh hop ih
  | eachElement hi hk hc _ _ ih => exact .eachLoop (by simpa using Own.of_kind hi hk rfl) hc ih
  | eachEntry hi hik hj hjk hc _ _ ih =>
    exact .eachLoop (by simpa using ⟨Own.of_kind hi hik rfl, Own.of_kind hj hjk rfl⟩) hc ih
  | retNone => exact .ret (by simp)
  | ret _ he _ =>
    refine .ret ?_
    rintro e ⟨⟩
    exact he
  | brk => exact .brk
  | print he => exact .print he
  | call he => exact .call he
  | none => exact .none
  | block _ ih => exact .block ih
  | elseIf ht _ _ _ ihb ihe => exact .elseIf ht ihb ihe
  | body hf _ hp _ _ ih => exact .body hf (fun q hq => .of_kind (hp q hq).1 (hp q hq).2 rfl) ih

/-! ### Dumps -/

/-- A dump that is there. -/
def Dumps {α : Type} (x : Dumped α) : Prop := ∃ a, x = .ok a

namespace Dumps

variable {α β : Type} {x : Dumped α} {f : α → Dumped β}

theorem pure (a : α) : Dumps (pure a) := ⟨a, rfl⟩

theorem bind (hx : Dumps x) (hf : ∀ a, Dumps (f a)) : Dumps (x >>= f) := by
  obtain ⟨a, rfl⟩ := hx
  exact hf a

/-- A dump of one part. -/
theorem map {g : α → β} (hx : Dumps x) : Dumps (x >>= fun a => Pure.pure (g a)) :=
  hx.bind fun _ => pure _

end Dumps

theorem dumps_tys {ts : List Ty} (h : ∀ t ∈ ts, Dumps (dumpTy t)) : Dumps (dumpTys ts) := by
  induction ts with
  | nil => exact .pure _
  | cons t ts ih =>
    obtain ⟨ht, hts⟩ := List.forall_mem_cons.1 h
    exact ht.bind fun _ => (ih hts).map

theorem dumps_ty {t : Ty} (h : t.Known) : Dumps (dumpTy t) := by
  induction h with
  | prim p => exact .pure _
  | array _ ih => exact ih.map
  | dict _ _ ihk ihv => exact ihk.bind fun _ => ihv.map
  | tuple _ ih => exact (dumps_tys ih).map
  | optional _ ih => exact ih.map
  | function _ _ ihp ihr => exact (dumps_tys ihp).bind fun _ => ihr.map
  | struct s => exact .pure _

theorem dumps_entity {e : Entity} (h : Proper e) : Dumps (dumpEntity e) := by
  cases h with
  | var h => exact (dumps_ty h).map
  | parameter h => exact (dumps_ty h).map
  | function hp hr => exact (dumps_ty (.function hp hr)).map
  | classDef => exact .pure _
  | standard h =>
    have hlib := isLibrary_standard h
    unfold dumpEntity
    cases hk : e.kind with
    | builtin v => exact .pure _
    | constant => exact .pure _
    | _ => simp [hk, isLibrary] at hlib

theorem dumps_entities {es : List Entity} (h : ∀ e ∈ es, Proper e) : Dumps (dumpEntities es) := by
  induction es with
  | nil => exact .pure _
  | cons e es ih =>
    obtain ⟨he, hes⟩ := List.forall_mem_cons.1 h
    exact (dumps_entity he).bind fun _ => (ih hes).map

theorem dumps_exprs {es : List Expr} (h : ∀ e ∈ es, Dumps (dumpExpr e)) : Dumps (dumpExprs es) := by
  induction es with
  | nil => exact .pure _
  | cons e es ih =>
    obtain ⟨he, hes⟩ := List.forall_mem_cons.1 h
    exact he.bind fun _ => (ih hes).map

theorem dumps_entries {es : List (Expr × Expr)} (hk : ∀ e ∈ es, Dumps (dumpExpr e.1))
    (hv : ∀ e ∈ es, Dumps (dumpExpr e.2)) : Dumps (dumpEntries es) := by
  induction es with
  | nil => exact .pure _
  | cons e es ih =>
    obtain ⟨hke, hkes⟩ := List.forall_mem_cons.1 hk
    obtain ⟨hve, hves⟩ := List.forall_mem_cons.1 hv
    exact hke.bind fun _ => hve.bind fun _ => (ih hkes hves).map

theorem dumps_expr {e : Expr} (h : Writable e) : Dumps (dumpExpr e) := by
  induction h with
  | int | float | str | bool => exact .pure _
  | ref h => exact dumps_entity h
  | binary _ _ ht ihl ihr => exact ihl.bind fun _ => ihr.bind fun _ => (dumps_ty ht).map
  | unary _ ht ih => exact ih.bind fun _ => (dumps_ty ht).map
  | call _ _ _ ht ihf iha => exact ihf.bind fun _ => (dumps_exprs iha).bind fun _ => (dumps_ty ht).map
  | construct hc _ _ iha => exact (dumps_entity hc).bind fun _ => (dumps_exprs iha).map
  | member _ ht ih => exact ih.bind fun _ => (dumps_ty ht).map
  | array _ ht ih => exact (dumps_exprs ih).bind fun _ => (dumps_ty ht).map
  | tuple _ ht ih => exact (dumps_exprs ih).bind fun _ => (dumps_ty ht).map
  | dict _ _ ht ihk ihv => exact (dumps_entries ihk ihv).bind fun _ => (dumps_ty ht).map
  | emptyArray ht => exact (dumps_ty ht).map
  | emptyOptional ht => exact (dumps_ty ht).map

theorem dumps_expr? {o : Option Expr} (h : ∀ e ∈ o, Writable e) : Dumps (dumpExpr? o) := by
  cases o with
  | none => exact .pure _
  | some e => exact dumps_expr (h e rfl)

theorem dumps_fields {fs : List Field} (h : ∀ f ∈ fs, f.typ.Known) : Dumps (dumpFields fs) := by
  induction fs with
  | nil => exact .pure _
  | cons f fs ih =>
    obtain ⟨hf, hfs⟩ := List.forall_mem_cons.1 h
    exact (dumps_ty hf).bind fun _ => (ih hfs).map

theorem dumps_stmts {ss : List Stmt} (h : ∀ s ∈ ss, Dumps (dumpStmt s)) : Dumps (dumpStmts ss) := by
  induction ss with
  | nil => exact .pure _
  | cons s ss ih =>
    obtain ⟨hs, hss⟩ := List.forall_mem_cons.1 h
    exact hs.bind fun _ => (ih hss).map

theorem dumps_functions {fs : List Function} (h : ∀ f ∈ fs, Dumps (dumpFunction f)) :
    Dumps (dumpFunctions fs) := by
  induction fs with
  | nil => exact .pure _
  | cons f fs ih =>
    obtain ⟨hf, hfs⟩ := List.forall_mem_cons.1 h
    exact hf.bind fun _ => (ih hfs).map

/-- The dump of a node. -/
def dumpNode : Node → Dumped Json
  | .stmt s => dumpStmt s
  | .rest e => dumpElse e
  | .function f => dumpFunction f

theorem dumps_node {n : Node} (h : Built Writable Proper (·.typ.Known) n) : Dumps (dumpNode n) := by
  induction h with
  | declare hv hi => exact (dumps_entity hv.proper).bind fun _ => (dumps_expr? hi).map
  | function _ _ ih => exact Dumps.map ih
  | classDecl _ hf _ ih => exact (dumps_fields hf).bind fun _ => (dumps_functions ih).map
  | assign ht hs => exact (dumps_expr ht).bind fun _ => (dumps_expr hs).map
  | addAssign ht hs => exact (dumps_expr ht).bind fun _ => (dumps_expr hs).map
  | increment ht => exact (dumps_expr ht).map
  | decrement ht => exact (dumps_expr ht).map
  | ifElse ht _ _ ihb ihe =>
    exact (dumps_expr ht).bind fun _ => (dumps_stmts ihb).bind fun _ => Dumps.map ihe
  | whileLoop ht _ ih => exact (dumps_expr ht).bind fun _ => (dumps_stmts ih).map
  | rangeLoop hi hl hh _ _ ih =>
    exact (dumps_entity hi.proper).bind fun _ => (dumps_expr hl).bind fun _ =>
      (dumps_expr hh).bind fun _ =>
      (dumps_stmts ih).map
  | eachLoop hi hc _ ih =>
    exact (dumps_entities fun j hj => (hi j hj).proper).bind fun _ => (dumps_expr hc).bind fun _ =>
      (dumps_stmts ih).map
  | ret hv => exact (dumps_expr? hv).map
  | brk => exact .pure _
  | print he => exact (dumps_exprs fun e hmem => dumps_expr (he e hmem)).map
  | call he => exact (dumps_expr he).map
  | none => exact .pure _
  | block _ ih => exact (dumps_stmts ih).map
  | elseIf ht _ _ ihb ihe =>
    exact (dumps_expr ht).bind fun _ => (dumps_stmts ihb).bind fun _ => Dumps.map ihe
  | body hf hp _ ih =>
    exact (dumps_entities fun q hq => (hp q hq).proper).bind fun _ =>
      (dumps_ty hf.known).bind fun _ => (dumps_stmts ih).map

/-- A program that can be written out has a dump. -/
theorem Program.Writable.dumps {p : Program} (h : p.Writable) : Dumps p.dump :=
  (dumps_stmts fun s hs => dumps_node (h s hs)).map

end Snack.Core
