import Snack.Proofs.Core.Direct
import Snack.Proofs.Core.Spelled

/-! Expressions with other numbers in them. Whether an expression can be written out, and in which words, does
not depend on the values of its number literals, and it holds of all its parts with it. -/

namespace Snack.Core

/-! ### Parts -/

theorem Writable.direct {e : Expr} (h : Writable e) : ∀ d ∈ e.direct, Writable d := by
  cases h with
  | binary hl hr => exact List.forall_mem_cons.2 ⟨hl, List.forall_mem_singleton.2 hr⟩
  | unary he => exact List.forall_mem_singleton.2 he
  | call hf ha => exact List.forall_mem_cons.2 ⟨hf, ha⟩
  | construct _ _ ha => exact ha
  | member ho => exact List.forall_mem_singleton.2 ho
  | array he => exact he
  | tuple he => exact he
  | dict hk hv => exact List.forall_mem_append.2 ⟨List.forall_mem_map.2 hk, List.forall_mem_map.2 hv⟩
  | _ => exact List.forall_mem_nil _

theorem Spelled.direct {e : Expr} (h : Spelled e) : ∀ d ∈ e.direct, Spelled d := by
  cases h with
  | binary _ hl hr => exact List.forall_mem_cons.2 ⟨hl, List.forall_mem_singleton.2 hr⟩
  | unary _ he => exact List.forall_mem_singleton.2 he
  | call hf ha => exact List.forall_mem_cons.2 ⟨hf, ha⟩
  | construct _ ha => exact ha
  | member _ _ ho => exact List.forall_mem_singleton.2 ho
  | array he => exact he
  | tuple he => exact he
  | dict hk hv => exact List.forall_mem_append.2 ⟨List.forall_mem_map.2 hk, List.forall_mem_map.2 hv⟩
  | _ => exact List.forall_mem_nil _

/-! ### Other numbers -/

/-- The expressions differ at most in the values of their number literals. -/
inductive Renumbered : Expr → Expr → Prop where
  | int (m n : Int) : Renumbered (.int m) (.int n)
  | float (x y : Float) : Renumbered (.float x) (.float y)
  | str (s : String) : Renumbered (.str s) (.str s)
  | bool (b : Bool) : Renumbered (.bool b) (.bool b)
  | ref (e : Entity) : Renumbered (.ref e) (.ref e)
  | binary {op l r l' r' t} (hl : Renumbered l l') (hr : Renumbered r r') :
      Renumbered (.binary op l r t) (.binary op l' r' t)
  | unary {op e e' t} (he : Renumbered e e') : Renumbered (.unary op e t) (.unary op e' t)
  | call {f f' args args' t} (hf : Renumbered f f') (ha : List.Forall₂ Renumbered args args') :
      Renumbered (.call f args t) (.call f' args' t)
  | construct {c args args'} (ha : List.Forall₂ Renumbered args args') :
      Renumbered (.construct c args) (.construct c args')
  | member {o o' op field t} (ho : Renumbered o o') : Renumbered (.member o op field t) (.member o' op field t)
  | array {es es' t} (he : List.Forall₂ Renumbered es es') : Renumbered (.array es t) (.array es' t)
  | tuple {es es' t} (he : List.Forall₂ Renumbered es es') : Renumbered (.tuple es t) (.tuple es' t)
  | dict {es es' t} (hk : List.Forall₂ Renumbered (es.map Prod.fst) (es'.map Prod.fst))
      (hv : List.Forall₂ Renumbered (es.map Prod.snd) (es'.map Prod.snd)) :
      Renumbered (.dict es t) (.dict es' t)
  | emptyArray (t : Ty) : Renumbered (.emptyArray t) (.emptyArray t)
  | emptyOptional (t : Ty) : Renumbered (.emptyOptional t) (.emptyOptional t)

theorem forall_of_forall₂ {R : Expr → Expr → Prop} {P : Expr → Prop} {es es' : List Expr}
    (hR : List.Forall₂ R es es') (h : ∀ e ∈ es, ∀ d, R e d → P d) : ∀ d ∈ es', P d := by
  induction hR with
  | nil => exact List.forall_mem_nil _
  | cons hd _ ih =>
    obtain ⟨he, hes⟩ := List.forall_mem_cons.1 h
    exact List.forall_mem_cons.2 ⟨he _ hd, ih hes⟩

/-- The same for the keys or the values of a dictionary. -/
theorem forall_of_forall₂_map {R : Expr → Expr → Prop} {P : Expr → Prop} {es es' : List (Expr × Expr)}
    {f : Expr × Expr → Expr} (hR : List.Forall₂ R (es.map f) (es'.map f))
    (h : ∀ e ∈ es, ∀ d, R (f e) d → P d) : ∀ e ∈ es', P (f e) :=
  List.forall_mem_map.1 (forall_of_forall₂ hR (List.forall_mem_map.2 h))

theorem Spelled.renumbered {e d : Expr} (h : Spelled e) (hd : Renumbered e d) : Spelled d := by
  induction h generalizing d with
  | int | float | str | bool | emptyArray | emptyOptional =>
    cases hd
    constructor
  | ref h =>
    cases hd
    exact .ref h
  | binary hop _ _ ihl ihr =>
    cases hd with
    | binary hl hr => exact .binary hop (ihl hl) (ihr hr)
  | unary hop _ ih =>
    cases hd with
    | unary he => exact .unary hop (ih he)
  | call _ _ ihf iha =>
    cases hd with
    | call hf ha => exact .call (ihf hf) (forall_of_forall₂ ha fun e he d => iha e he)
  | construct hc _ iha =>
    cases hd with
    | construct ha => exact .construct hc (forall_of_forall₂ ha fun e he d => iha e he)
  | member hop hn _ ih =>
    cases hd with
    | member ho => exact .member hop hn (ih ho)
  | array _ ih =>
    cases hd with
    | array he => exact .array (forall_of_forall₂ he fun e hmem d => ih e hmem)
  | tuple _ ih =>
    cases hd with
    | tuple he => exact .tuple (forall_of_forall₂ he fun e hmem d => ih e hmem)
  | dict _ _ ihk ihv =>
    cases hd with
    | dict hk hv =>
      exact .dict (forall_of_forall₂_map hk fun e he d => ihk e he)
        (forall_of_forall₂_map hv fun e he d => ihv e he)

theorem Writable.renumbered {e d : Expr} (h : Writable e) (hd : Renumbered e d) : Writable d := by
  induction h generalizing d with
  | int | float | str | bool =>
    cases hd
    constructor
  | ref h =>
    cases hd
    exact .ref h
  | binary _ _ ht ihl ihr =>
    cases hd with
    | binary hl hr => exact .binary (ihl hl) (ihr hr) ht
  | unary _ ht ih =>
    cases hd with
    | unary he => exact .unary (ih he) ht
  | @call f args t _ _ hlen ht ihf iha =>
    cases hd with
    | call hf ha =>
      refine .call (ihf hf) (forall_of_forall₂ ha fun e he d => iha e he) ?_ ht
      rintro x rfl hx rfl
      cases hf
      cases ha
      exact hlen x rfl hx rfl
  | construct hc hk _ iha =>
    cases hd with
    | construct ha => exact .construct hc hk (forall_of_forall₂ ha fun e he d => iha e he)
  | member _ ht ih =>
    cases hd with
    | member ho => exact .member (ih ho) ht
  | array _ ht ih =>
    cases hd with
    | array he => exact .array (forall_of_forall₂ he fun e hmem d => ih e hmem) ht
  | tuple _ ht ih =>
    cases hd with
    | tuple he => exact .tuple (forall_of_forall₂ he fun e hmem d => ih e hmem) ht
  | dict _ _ ht ihk ihv =>
    cases hd with
    | dict hk hv =>
      exact .dict (forall_of_forall₂_map hk fun e he d => ihk e he)
        (forall_of_forall₂_map hv fun e he d => ihv e he) ht
  | emptyArray ht =>
    cases hd
    exact .emptyArray ht
  | emptyOptional ht =>
    cases hd
    exact .emptyOptional ht

end Snack.Core
