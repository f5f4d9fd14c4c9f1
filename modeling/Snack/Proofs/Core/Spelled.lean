import Snack.Proofs.Core.Writable
import Snack.Proofs.Script.Identifiers
import Snack.Proofs.Token.Scan

/-! Programs in which all names are words and all operators are known, as they come from a source text. Where
a program is written out, a word never runs over the end of a line and never begins a block. -/

namespace Snack.Core

open Token (Word)

/-- Entities that can stand as values. A method cannot, it is reached behind a point. -/
structure Nameable (e : Entity) : Prop where
  word : Word e.name
  value : e.kind ≠ .function true

inductive Spelled : Expr → Prop where
  | int (n : Int) : Spelled (.int n)
  | float (x : Float) : Spelled (.float x)
  | str (s : String) : Spelled (.str s)
  | bool (b : Bool) : Spelled (.bool b)
  | ref {e} (h : Nameable e) : Spelled (.ref e)
  | binary {op l r t} (hop : ∀ text, op ≠ .other text) (hl : Spelled l) (hr : Spelled r) :
      Spelled (.binary op l r t)
  | unary {op e t} (hop : op ∈ [.neg, .not]) (he : Spelled e) : Spelled (.unary op e t)
  | call {f args t} (hf : Spelled f) (ha : ∀ a ∈ args, Spelled a) : Spelled (.call f args t)
  | construct {c args} (hc : Nameable c) (ha : ∀ a ∈ args, Spelled a) : Spelled (.construct c args)
  | member {o op field t} (hop : op ∈ [.direct, .ifPresent]) (hn : Word field) (ho : Spelled o) :
      Spelled (.member o op field t)
  | array {es t} (he : ∀ e ∈ es, Spelled e) : Spelled (.array es t)
  | tuple {es t} (he : ∀ e ∈ es, Spelled e) : Spelled (.tuple es t)
  | dict {es t} (hk : ∀ e ∈ es, Spelled e.1) (hv : ∀ e ∈ es, Spelled e.2) : Spelled (.dict es t)
  | emptyArray {t} : Spelled (.emptyArray t)
  | emptyOptional {t} : Spelled (.emptyOptional t)

/-- Nodes that declare words only and whose expressions have the property `P`. -/
abbrev Worded (P : Expr → Prop) : Typing.Node → Prop :=
  Built P (fun e => Word e.name) fun f => Word f.name

/-- Nodes that are spelled in words. -/
abbrev SpelledNode : Typing.Node → Prop := Worded Spelled

def Program.Spelled (p : Program) : Prop := ∀ s ∈ p.statements, SpelledNode (.stmt s)

end Snack.Core
