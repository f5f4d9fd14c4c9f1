import Snack.Proofs.Core.Parts
import Snack.Proofs.Core.Writable

/-! The types that occur in a program: those of its expressions and of all their parts, and those of the
variables, functions, parameters, classes and fields that it declares. An entity that is used is a part of
an expression, so its type is among them. -/

namespace Snack.Core

/-! ### Listing them -/

/-- The types of an expression and of its parts. -/
def Expr.types (e : Expr) : List Ty := e.parts.map Expr.typ

mutual

/-- The types that occur in a statement. -/
def Stmt.types : Stmt → List Ty
  | .declare v init _ => v.typ :: init.toList.flatMap Expr.types
  | .function f _ => f.types
  | .classDecl c fields methods _ => c.typ :: (fields.map Field.typ ++ typesOfFunctions methods)
  | .assign target source _ | .addAssign target source _ => target.types ++ source.types
  | .increment target _ | .decrement target _ => target.types
  | .ifElse test body rest _ => test.types ++ (typesOfBlock body ++ rest.types)
  | .whileLoop test body _ => test.types ++ typesOfBlock body
  | .rangeLoop i low _ high body _ => i.typ :: (low.types ++ (high.types ++ typesOfBlock body))
  | .eachLoop is collection body _ => is.map Entity.typ ++ (collection.types ++ typesOfBlock body)
  | .ret value _ => value.toList.flatMap Expr.types
  | .print es _ => es.flatMap Expr.types
  | .call e _ => e.types
  | .brk _ | .other _ _ => []

def typesOfBlock : List Stmt → List Ty
  | [] => []
  | s :: ss => s.types ++ typesOfBlock ss

def Else.types : Else → List Ty
  | .none => []
  | .block body => typesOfBlock body
  | .elseIf test body rest _ => test.types ++ (typesOfBlock body ++ rest.types)

def Function.types : Function → List Ty
  | .mk e params body _ => e.typ :: (params.map Entity.typ ++ typesOfBlock body)

def typesOfFunctions : List Function → List Ty
  | [] => []
  | f :: fs => f.types ++ typesOfFunctions fs

end

/-- The types that occur in a program. -/
def Program.types (p : Program) : List Ty := typesOfBlock p.statements

def typesOf : Typing.Node → List Ty
  | .stmt s => s.types
  | .rest e => e.types
  | .function f => f.types

/-! ### Types with a property -/

/-- All types in an expression have the property `T`. -/
def Expr.TypesIn (T : Ty → Prop) (e : Expr) : Prop := ∀ d ∈ e.parts, T d.typ

section Expressions

variable {T : Ty → Prop} {e l r : Expr} {es : List Expr} {t : Ty}

theorem forall_types : (∀ t ∈ e.types, T t) ↔ e.TypesIn T := List.forall_mem_map

theorem Expr.TypesIn.typ (h : e.TypesIn T) : T e.typ := h e List.mem_cons_self

theorem forall_partsOfAll_typ : (∀ d ∈ partsOfAll es, T d.typ) ↔ ∀ e ∈ es, e.TypesIn T := by
  simp only [mem_partsOfAll, Expr.TypesIn]
  exact ⟨fun h e he d hd => h d ⟨e, he, hd⟩, fun h d ⟨e, he, hd⟩ => h e he d hd⟩

theorem forall_partsOfEntries_typ {es : List (Expr × Expr)} :
    (∀ d ∈ partsOfEntries es, T d.typ) ↔ ∀ e ∈ es, e.1.TypesIn T ∧ e.2.TypesIn T := by
  simp only [mem_partsOfEntries, Expr.TypesIn]
  refine ⟨fun h e he => ⟨fun d hd => h d ⟨e, he, .inl hd⟩, fun d hd => h d ⟨e, he, .inr hd⟩⟩, fun h d => ?_⟩
  rintro ⟨e, he, hd | hd⟩
  · exact (h e he).1 d hd
  · exact (h e he).2 d hd

/-- An expression without parts has one type. -/
theorem typesIn_of_inner_nil (h : e.inner = []) (ht : T e.typ) : e.TypesIn T := by
  rw [Expr.TypesIn, Expr.parts, h]
  exact List.forall_mem_singleton.2 ht

theorem typesIn_binary {op : BinaryOp} (hl : l.TypesIn T) (hr : r.TypesIn T) (ht : T t) :
    (Expr.binary op l r t).TypesIn T :=
  List.forall_mem_cons.2 ⟨ht, List.forall_mem_append.2 ⟨hl, hr⟩⟩

theorem typesIn_unary {op : UnaryOp} (he : e.TypesIn T) (ht : T t) : (Expr.unary op e t).TypesIn T :=
  List.forall_mem_cons.2 ⟨ht, he⟩

theorem typesIn_call (he : e.TypesIn T) (hes : ∀ a ∈ es, a.TypesIn T) (ht : T t) :
    (Expr.call e es t).TypesIn T :=
  List.forall_mem_cons.2 ⟨ht, List.forall_mem_append.2 ⟨he, forall_partsOfAll_typ.2 hes⟩⟩

theorem typesIn_construct {c : Entity} (hes : ∀ a ∈ es, a.TypesIn T) (ht : T c.typ) :
    (Expr.construct c es).TypesIn T :=
  List.forall_mem_cons.2 ⟨ht, forall_partsOfAll_typ.2 hes⟩

theorem typesIn_member {op : AccessOp} {field : String} (he : e.TypesIn T) (ht : T t) :
    (Expr.member e op field t).TypesIn T :=
  List.forall_mem_cons.2 ⟨ht, he⟩

theorem typesIn_array (hes : ∀ a ∈ es, a.TypesIn T) (ht : T t) : (Expr.array es t).TypesIn T :=
  List.forall_mem_cons.2 ⟨ht, forall_partsOfAll_typ.2 hes⟩

theorem typesIn_tuple (hes : ∀ a ∈ es, a.TypesIn T) (ht : T t) : (Expr.tuple es t).TypesIn T :=
  List.forall_mem_cons.2 ⟨ht, forall_partsOfAll_typ.2 hes⟩

theorem typesIn_dict {es : List (Expr × Expr)} (hes : ∀ e ∈ es, e.1.TypesIn T ∧ e.2.TypesIn T) (ht : T t) :
    (Expr.dict es t).TypesIn T :=
  List.forall_mem_cons.2 ⟨ht, forall_partsOfEntries_typ.2 hes⟩

end Expressions

section Statements

variable {T : Ty → Prop}

theorem forall_flatMap_types {es : List Expr} (h : ∀ e ∈ es, e.TypesIn T) :
    ∀ t ∈ es.flatMap Expr.types, T t :=
  List.forall_mem_flatMap.2 fun e he => forall_types.2 (h e he)

theorem forall_typesOfBlock {ss : List Stmt} (h : ∀ s ∈ ss, ∀ t ∈ s.types, T t) :
    ∀ t ∈ typesOfBlock ss, T t := by
  induction ss with
  | nil => exact List.forall_mem_nil _
  | cons s ss ih =>
    obtain ⟨hs, hss⟩ := List.forall_mem_cons.1 h
    exact List.forall_mem_append.2 ⟨hs, ih hss⟩

theorem forall_typesOfFunctions {fs : List Function} (h : ∀ f ∈ fs, ∀ t ∈ f.types, T t) :
    ∀ t ∈ typesOfFunctions fs, T t := by
  induction fs with
  | nil => exact List.forall_mem_nil _
  | cons f fs ih =>
    obtain ⟨hf, hfs⟩ := List.forall_mem_cons.1 h
    exact List.forall_mem_append.2 ⟨hf, ih hfs⟩

/-- The nodes in which all types have the property `T`. -/
abbrev BuiltOf (T : Ty → Prop) : Typing.Node → Prop :=
  Built (Expr.TypesIn T) (fun e => T e.typ) fun f => T f.typ

theorem BuiltOf.types {n : Typing.Node} (h : BuiltOf T n) : ∀ t ∈ typesOf n, T t := by
  induction h with
  | declare hv hi =>
    exact List.forall_mem_cons.2 ⟨hv.proper, forall_flatMap_types fun e he => hi e (Option.mem_toList.1 he)⟩
  | function _ _ ih => exact ih
  | classDecl hc hf _ ih =>
    exact List.forall_mem_cons.2 ⟨hc.proper,
      List.forall_mem_append.2 ⟨List.forall_mem_map.2 hf, forall_typesOfFunctions ih⟩⟩
  | assign ht hs => exact List.forall_mem_append.2 ⟨forall_types.2 ht, forall_types.2 hs⟩
  | addAssign ht hs => exact List.forall_mem_append.2 ⟨forall_types.2 ht, forall_types.2 hs⟩
  | increment ht => exact forall_types.2 ht
  | decrement ht => exact forall_types.2 ht
  | ifElse ht _ _ ihb ihe =>
    exact List.forall_mem_append.2
      ⟨forall_types.2 ht, List.forall_mem_append.2 ⟨forall_typesOfBlock ihb, ihe⟩⟩
  | whileLoop ht _ ih => exact List.forall_mem_append.2 ⟨forall_types.2 ht, forall_typesOfBlock ih⟩
  | rangeLoop hi hl hh _ _ ih =>
    exact List.forall_mem_cons.2 ⟨hi.proper, List.forall_mem_append.2 ⟨forall_types.2 hl,
      List.forall_mem_append.2 ⟨forall_types.2 hh, forall_typesOfBlock ih⟩⟩⟩
  | eachLoop hi hc _ ih =>
    exact List.forall_mem_append.2 ⟨List.forall_mem_map.2 fun j hj => (hi j hj).proper,
      List.forall_mem_append.2 ⟨forall_types.2 hc, forall_typesOfBlock ih⟩⟩
  | ret hv => exact forall_flatMap_types fun e he => hv e (Option.mem_toList.1 he)
  | brk => exact List.forall_mem_nil _
  | print he => exact forall_flatMap_types he
  | call he => exact forall_types.2 he
  | none => exact List.forall_mem_nil _
  | block _ ih => exact forall_typesOfBlock ih
  | elseIf ht _ _ ihb ihe =>
    exact List.forall_mem_append.2
      ⟨forall_types.2 ht, List.forall_mem_append.2 ⟨forall_typesOfBlock ihb, ihe⟩⟩
  | body hf hp _ ih =>
    exact List.forall_mem_cons.2 ⟨hf, List.forall_mem_append.2
      ⟨List.forall_mem_map.2 fun q hq => (hp q hq).proper, forall_typesOfBlock ih⟩⟩

theorem Program.forall_types {p : Program} (h : ∀ s ∈ p.statements, BuiltOf T (.stmt s)) :
    ∀ t ∈ p.types, T t :=
  forall_typesOfBlock fun s hs => (h s hs).types

end Statements

end Snack.Core
