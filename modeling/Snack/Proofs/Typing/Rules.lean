import Snack.Proofs.Core.Entities
import Snack.Typing.Expr

/-! The rules that a typed program obeys. They speak of the program alone and of the members that each
class has in the end, not of the order in which the analysis comes to know them. -/

namespace Snack

/-! ### Types -/

/-- Types that the rules know. -/
inductive Ty.Known : Ty → Prop where
  | prim (p : Prim) : Known (.prim p)
  | array {t : Ty} (h : Known t) : Known (.array t)
  | dict {k v : Ty} (hk : Known k) (hv : Known v) : Known (.dict k v)
  | tuple {ts : List Ty} (h : ∀ t ∈ ts, Known t) : Known (.tuple ts)
  | optional {t : Ty} (h : Known t) : Known (.optional t)
  | function {ps : List Ty} {r : Ty} (hp : ∀ p ∈ ps, Known p) (hr : Known r) : Known (.function ps r)
  | struct (s : StructRef) : Known (.struct s)

/-- Types that have a spelling. There is none for tuples and functions. -/
inductive Ty.Written : Ty → Prop where
  | prim (p : Prim) : Written (.prim p)
  | array {t : Ty} (h : Written t) : Written (.array t)
  | dict {k v : Ty} (hk : Written k) (hv : Written v) : Written (.dict k v)
  | optional {t : Ty} (h : Written t) : Written (.optional t)
  | struct (s : StructRef) : Written (.struct s)

theorem Ty.Written.known {t : Ty} (h : t.Written) : t.Known := by
  induction h with
  | prim p => exact .prim p
  | array _ ih => exact .array ih
  | dict _ _ ihk ihv => exact .dict ihk ihv
  | optional _ ih => exact .optional ih
  | struct s => exact .struct s

namespace Typing

open Snack.Core

/-- Entities whose type suits their kind. -/
inductive Proper : Entity → Prop where
  | var {id m name t} (h : t.Known) : Proper ⟨id, .var m, name, t⟩
  | parameter {id name t} (h : t.Known) : Proper ⟨id, .parameter, name, t⟩
  | function {id m name ps r} (hp : ∀ p ∈ ps, p.Known) (hr : r.Known) :
      Proper ⟨id, .function m, name, .function ps r⟩
  | classDef {id name} : Proper ⟨id, .classDef, name, .struct ⟨id, name⟩⟩
  | standard {e} (h : e ∈ standardLibrary) : Proper e

/-- The kinds of what a program uses without declaring it. -/
def isLibrary : EntityKind → Bool
  | .builtin _ | .constant => true
  | _ => false

theorem isLibrary_standard {e : Entity} (h : e ∈ standardLibrary) : isLibrary e.kind = true := by
  have hall : ∀ e ∈ standardLibrary, isLibrary e.kind = true := by decide
  exact hall e h

theorem Proper.eq_of_classDef {e : Entity} (h : Proper e) (hk : e.kind = .classDef) :
    e.typ = .struct ⟨e.id, e.name⟩ := by
  cases h with
  | classDef => rfl
  | standard h =>
    have hlib := isLibrary_standard h
    rw [hk] at hlib
    cases hlib
  | _ => cases hk

theorem Proper.known {e : Entity} (h : Proper e) : e.typ.Known := by
  cases h with
  | var h => exact h
  | parameter h => exact h
  | function hp hr => exact .function hp hr
  | classDef => exact .struct _
  | standard h =>
    simp only [standardLibrary, List.mem_cons, List.not_mem_nil, or_false] at h
    rcases h with rfl | rfl | rfl | rfl | rfl | rfl | rfl | rfl | rfl | rfl | rfl | rfl | rfl | rfl <;>
      first | exact .prim _ | exact .function (by simp [Ty.Known.prim]) (.prim _)

/-! ### Expressions -/

/-- `BinaryRule op t u v`: the operator takes operands of types `t` and `u` to a value of type `v`. -/
inductive BinaryRule : BinaryOp → Ty → Ty → Ty → Prop where
  | logic {op} (h : op ∈ [.and, .or]) : BinaryRule op .bool .bool .bool
  | coalesce {base t} (h : t.assignable base = true) : BinaryRule .coalesce (.optional base) t base
  | order {op t} (h : op ∈ [.lt, .le, .gt, .ge]) (ht : t.isNumericOrString = true) :
      BinaryRule op t t .bool
  | equality {op t} (h : op ∈ [.eq, .ne]) : BinaryRule op t t .bool
  | add {t} (ht : t.isNumericOrString = true) : BinaryRule .add t t t
  | arith {op t} (h : op ∈ [.sub, .mul, .div, .rem, .pow]) (ht : t.isNumeric = true) :
      BinaryRule op t t t

/-- The operand types of an operator. Its value has the type of the operand. -/
inductive UnaryRule : UnaryOp → Ty → Prop where
  | neg {t} (ht : t.isNumeric = true) : UnaryRule .neg t
  | not : UnaryRule .not .bool

/-- A library function that takes any number of arguments. -/
inductive Variadic : Expr → Prop where
  | mk {id name t} : Variadic (.ref ⟨id, .builtin true, name, t⟩)

/-- Expressions that obey the rules, where `K` tells the entities that may be used, `W` the types that
may be written, and `M` has the members of each class. -/
inductive Typed (K : Entity → Prop) (W : Ty → Prop) (M : Nat → Members) : Expr → Prop where
  | int (n : Int) : Typed K W M (.int n)
  | float (x : Float) : Typed K W M (.float x)
  | str (s : String) : Typed K W M (.str s)
  | bool (b : Bool) : Typed K W M (.bool b)
  | ref {e} (h : K e) : Typed K W M (.ref e)
  | binary {op l r t} (hl : Typed K W M l) (hr : Typed K W M r) (h : BinaryRule op l.typ r.typ t) :
      Typed K W M (.binary op l r t)
  | unary {op e} (he : Typed K W M e) (h : UnaryRule op e.typ) : Typed K W M (.unary op e e.typ)
  | call {f args ps r} (hf : Typed K W M f) (ht : f.typ = .function ps r)
      (hn : args.length = ps.length ∨ Variadic f) (ha : ∀ a ∈ args, Typed K W M a) :
      Typed K W M (.call f args r)
  | construct {c args} (hc : K c) (hk : c.kind = .classDef) (hn : args.length = (M c.id).fields.length)
      (ha : ∀ a ∈ args, Typed K W M a) : Typed K W M (.construct c args)
  | items {o op k v} (ho : Typed K W M o) (ht : o.typ = .dict k v) :
      Typed K W M (.member o op "items" (.dict k v))
  | member {o op s name t} (ho : Typed K W M o) (hop : op ≠ .ifPresent) (ht : o.typ = .struct s)
      (hm : (M s.id).typ? name = some t) : Typed K W M (.member o op name t)
  | optionalMember {o s name t} (ho : Typed K W M o) (ht : o.typ = .optional (.struct s))
      (hm : (M s.id).typ? name = some t) : Typed K W M (.member o .ifPresent name (optionalOf t))
  | array {es t} (he : ∀ e ∈ es, Typed K W M e) (ht : ∀ e ∈ es, e.typ = t) (hnil : es = [] → t = .any) :
      Typed K W M (.array es (.array t))
  | tuple {es} (he : ∀ e ∈ es, Typed K W M e) : Typed K W M (.tuple es (.tuple (es.map Expr.typ)))
  | dict {es k v} (hk : ∀ e ∈ es, Typed K W M e.1) (hv : ∀ e ∈ es, Typed K W M e.2)
      (ht : ∀ e ∈ es, e.1.typ = k ∧ e.2.typ = v) (hnil : es = [] → k = .any ∧ v = .any) :
      Typed K W M (.dict es (.dict k v))
  | emptyArray {t} (h : W t) : Typed K W M (.emptyArray (.array t))
  | emptyOptional {t} (h : W t) : Typed K W M (.emptyOptional (.optional t))

/-! ### Statements -/

/-- What a rule is about. -/
inductive Node where
  | stmt (s : Stmt)
  | rest (r : Else)
  | function (f : Function)

/-- `WellTyped M result node`: the node obeys the rules in a function that gives back a `result`, or
outside of functions. -/
inductive WellTyped (M : Nat → Members) : Option Ty → Node → Prop where
  | declare {r v init p} (hv : Proper v) (hk : v.kind = .var true)
      (hi : ∀ e ∈ init, Typed Proper Ty.Written M e ∧ e.typ.assignable v.typ = true) :
      WellTyped M r (.stmt (.declare v init p))
  | function {r f p} (hk : f.entity.kind = .function false) (hf : WellTyped M r (.function f)) :
      WellTyped M r (.stmt (.function f p))
  | classDecl {r c fields methods p} (hc : Proper c) (hk : c.kind = .classDef)
      (hf : fields = (M c.id).fields) (ht : ∀ f ∈ fields, f.typ.Known)
      (hms : methods.map Function.entity = (M c.id).methods)
      (hmk : ∀ f ∈ methods, f.entity.kind = .function true)
      (hm : ∀ f ∈ methods, WellTyped M r (.function f)) :
      WellTyped M r (.stmt (.classDecl c fields methods p))
  | assign {r t s p} (ht : Typed Proper Ty.Written M t) (hs : Typed Proper Ty.Written M s)
      (ha : s.typ.assignable t.typ = true) : WellTyped M r (.stmt (.assign t s p))
  | addAssign {r t s p} (ht : Typed Proper Ty.Written M t) (hs : Typed Proper Ty.Written M s)
      (hn : t.typ.isNumericOrString = true)
      (ha : s.typ.assignable t.typ = true) : WellTyped M r (.stmt (.addAssign t s p))
  | increment {r t p} (ht : Typed Proper Ty.Written M t) (hn : t.typ.isNumeric = true) :
      WellTyped M r (.stmt (.increment t p))
  | decrement {r t p} (ht : Typed Proper Ty.Written M t) (hn : t.typ.isNumeric = true) :
      WellTyped M r (.stmt (.decrement t p))
  | ifElse {r t b e p} (ht : Typed Proper Ty.Written M t) (hbool : t.typ = .bool)
      (hb : ∀ s ∈ b, WellTyped M r (.stmt s))
      (he : WellTyped M r (.rest e)) : WellTyped M r (.stmt (.ifElse t b e p))
  | whileLoop {r t b p} (ht : Typed Proper Ty.Written M t) (hbool : t.typ = .bool)
      (hb : ∀ s ∈ b, WellTyped M r (.stmt s)) : WellTyped M r (.stmt (.whileLoop t b p))
  | rangeLoop {r i low op high b p} (hi : Proper i) (hk : i.kind = .var false) (ht : i.typ = low.typ)
      (hl : Typed Proper Ty.Written M low) (hln : low.typ.isNumeric = true)
      (hh : Typed Proper Ty.Written M high)
      (hhn : high.typ.isNumeric = true) (hop : op ∈ [.through, .below])
      (hb : ∀ s ∈ b, WellTyped M r (.stmt s)) : WellTyped M r (.stmt (.rangeLoop i low op high b p))
  | eachElement {r i c b p} (hi : Proper i) (hk : i.kind = .var false)
      (hc : Typed Proper Ty.Written M c)
      (ht : c.typ = .array i.typ) (hb : ∀ s ∈ b, WellTyped M r (.stmt s)) :
      WellTyped M r (.stmt (.eachLoop [i] c b p))
  | eachEntry {r i j c b p} (hi : Proper i) (hik : i.kind = .var false) (hj : Proper j)
      (hjk : j.kind = .var false) (hc : Typed Proper Ty.Written M c) (ht : c.typ = .dict i.typ j.typ)
      (hb : ∀ s ∈ b, WellTyped M r (.stmt s)) : WellTyped M r (.stmt (.eachLoop [i, j] c b p))
  | retNone {p} : WellTyped M (some .void) (.stmt (.ret none p))
  | ret {r e p} (hr : r ≠ .void) (he : Typed Proper Ty.Written M e) (ha : e.typ.assignable r = true) :
      WellTyped M (some r) (.stmt (.ret (some e) p))
  | brk {r p} : WellTyped M r (.stmt (.brk p))
  | print {r es p} (he : ∀ e ∈ es, Typed Proper Ty.Written M e) : WellTyped M r (.stmt (.print es p))
  | call {r e p} (he : Typed Proper Ty.Written M e) : WellTyped M r (.stmt (.call e p))
  | none {r} : WellTyped M r (.rest .none)
  | block {r b} (hb : ∀ s ∈ b, WellTyped M r (.stmt s)) : WellTyped M r (.rest (.block b))
  | elseIf {r t b e p} (ht : Typed Proper Ty.Written M t) (hbool : t.typ = .bool)
      (hb : ∀ s ∈ b, WellTyped M r (.stmt s))
      (he : WellTyped M r (.rest e)) : WellTyped M r (.rest (.elseIf t b e p))
  | body {r f params result b p} (hf : Proper f) (ht : f.typ = .function (params.map (·.typ)) result)
      (hp : ∀ q ∈ params, Proper q ∧ q.kind = .parameter) (hn : (params.map (·.name)).Nodup)
      (hb : ∀ s ∈ b, WellTyped M (some result) (.stmt s)) : WellTyped M r (.function (.mk f params b p))

end Typing

end Snack
