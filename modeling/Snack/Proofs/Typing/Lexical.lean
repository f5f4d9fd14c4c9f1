import Snack.Proofs.Typing.Accepts

/-! Lexical scope, as rules between a tree and its typed form. A name is looked up in an environment, which
is only ever handed inwards and onwards: a region starts from what is in reach around it, the next statement
of a block from what is in reach before this one and what this one declares. So nothing that is declared in a
region beside, in one that is closed, or further down can be meant by a name. Entities are numbered in the
order in which the text declares them. -/

namespace Snack.Tree

/-! ### Declarations of a text -/

mutual

/-- The number of entities that a statement declares, at any depth. -/
def Stmt.declares : Stmt → Nat
  | .varDecl .. | .collection .. => 1
  | .function _ _ params _ body => 1 + (params.getD []).length + declaresInBlock body
  | .classDecl _ _ body => 1 + declaresInClass body
  | .ifChain _ _ body elseIfs none => declaresInBlock body + declaresInClauses elseIfs
  | .ifChain _ _ body elseIfs (some elsePart) =>
    declaresInBlock body + declaresInClauses elseIfs + declaresInBlock elsePart
  | .whileLoop _ _ body => declaresInBlock body
  | .rangeLoop _ _ _ _ _ body => 1 + declaresInBlock body
  | .eachLoop _ names _ body => (names.getD []).length + declaresInBlock body
  | _ => 0

def declaresInBlock : List Stmt → Nat
  | [] => 0
  | s :: ss => s.declares + declaresInBlock ss

def declaresInClauses : List ElseIf → Nat
  | [] => 0
  | .mk _ _ body :: cs => declaresInBlock body + declaresInClauses cs

/-- A field is no entity. -/
def declaresInClass : List Stmt → Nat
  | [] => 0
  | .varDecl .. :: ss => declaresInClass ss
  | s :: ss => s.declares + declaresInClass ss

end

end Snack.Tree

namespace Snack.Typing

open Snack.Core

/-! ### Environments -/

/-- The entities that are declared so far in the region at hand and in each one around it, the innermost
region first and in each the latest declaration first, and the innermost class. -/
structure Env where
  here : List Entity
  around : List (List Entity)
  cls : Option Entity

namespace Env

/-- What a name means: its latest declaration in the innermost region that has one. -/
def find? (env : Env) (name : String) : Option Entity :=
  (env.here :: env.around).findSome? fun region => region.find? fun e => e.name = name

def declare (env : Env) (e : Entity) : Env := { env with here := e :: env.here }

def declareAll (env : Env) (es : List Entity) : Env := es.foldl declare env

/-- A new region in the one at hand. -/
def region (env : Env) : Env := { env with here := [], around := env.here :: env.around }

def classRegion (env : Env) (c : Entity) : Env := { env.region with cls := some c }

/-- A program lies in the reach of the standard library. -/
def start : Env := ⟨[], [standardLibrary], none⟩

/-- The type that is written, in which a name means a class. -/
def type? (env : Env) : Tree.TypeExpr → Option Ty
  | .named _ name => (Prim.ofText? name).map .prim
  | .array _ base => (env.type? base).map .array
  | .dict _ key value => (env.type? key).bind fun k => (env.type? value).map (.dict k)
  | .optional _ base => (env.type? base).map optionalOf
  | .ref _ name => ((env.find? name).filter fun e => e.kind = .classDef).map (·.typ)
  | .unknown .. | .absent _ => none

def typeOr? (env : Env) (default : Ty) : Option Tree.TypeExpr → Option Ty
  | none => some default
  | some t => env.type? t

/-- The fields of a class body. All their types are read in the same environment. -/
def fields? (env : Env) : List Tree.Stmt → Option (List Field)
  | [] => some []
  | .varDecl _ t name _ :: rest =>
    (env.typeOr? .any t).bind fun ty => (env.fields? rest).map (⟨name, ty⟩ :: ·)
  | _ :: rest => env.fields? rest

end Env

/-! ### Expressions -/

mutual

/-- The typed form of an expression whose names are read in the environment. -/
inductive Refers (env : Env) : Tree.Expr → Expr → Prop where
  | int {p text n} : Refers env (.num p text) (.int n)
  | float {p text x} : Refers env (.num p text) (.float x)
  | str {p s} : Refers env (.str p s) (.str s)
  | bool {p b} : Refers env (.bool p b) (.bool b)
  | self {p c} (hc : env.cls = some c) : Refers env (.var p "self") (.ref c)
  | var {p name e} (hs : name = "self" → env.cls = none) (he : env.find? name = some e) :
      Refers env (.var p name) (.ref e)
  | paren {p t e} (h : Refers env t e) : Refers env (.paren p t) e
  | binary {p op l r l' r' ty} (hl : Refers env l l') (hr : Refers env r r') :
      Refers env (.binary p op l r) (.binary op l' r' ty)
  | unary {p op t e ty} (h : Refers env t e) : Refers env (.unary p op t) (.unary op e ty)
  | call {p t ts f es ty} (hf : RefersCallee env t f) (hs : RefersAll env ts es) :
      Refers env (.call p t (some ts)) (.call f es ty)
  | construct {p t ts c es} (hf : RefersCallee env t (.ref c)) (hc : c.kind = .classDef)
      (hs : RefersAll env ts es) : Refers env (.call p t (some ts)) (.construct c es)
  | member {p t e op name ty} (h : Refers env t e) :
      Refers env (.member p t (some op) (some name)) (.member e op name ty)
  | array {p ts es ty} (hs : RefersAll env ts es) : Refers env (.array p ts) (.array es ty)
  | tuple {p ts es ty} (hs : RefersAll env ts es) : Refers env (.tuple p ts) (.tuple es ty)
  | dict {p ts es ty} (hs : RefersEntries env ts es) : Refers env (.dict p ts) (.dict es ty)
  | emptyArray {p t ty} (ht : env.type? t = some ty) : Refers env (.emptyArray p t) (.emptyArray (.array ty))
  | emptyOptional {p t ty} (ht : env.type? t = some ty) :
      Refers env (.emptyOptional p t) (.emptyOptional (.optional ty))

/-- What is called: the entity of a plain name, be it a class or not, or a value. -/
inductive RefersCallee (env : Env) : Tree.Expr → Expr → Prop where
  | name {p name e} (hs : name ≠ "self") (he : env.find? name = some e) :
      RefersCallee env (.var p name) (.ref e)
  | value {t e} (ht : ∀ p name, t = .var p name → name = "self") (h : Refers env t e) : RefersCallee env t e

inductive RefersAll (env : Env) : List Tree.Expr → List Expr → Prop where
  | nil : RefersAll env [] []
  | cons {t ts e es} (h : Refers env t e) (hs : RefersAll env ts es) : RefersAll env (t :: ts) (e :: es)

inductive RefersEntries (env : Env) : List Tree.Entry → List (Expr × Expr) → Prop where
  | nil : RefersEntries env [] []
  | cons {p k v ts k' v' es} (hk : Refers env k k') (hv : Refers env v v') (hs : RefersEntries env ts es) :
      RefersEntries env (.mk p k v :: ts) ((k', v') :: es)

end

inductive RefersIfAny (env : Env) : Option Tree.Expr → Option Expr → Prop where
  | none : RefersIfAny env none none
  | some {t e} (h : Refers env t e) : RefersIfAny env (some t) (some e)

/-! ### Statements -/

/-- The parameters of a function. The type of each is read in sight of those before it. -/
inductive LexicalParams : Env → Nat → List Tree.Param → List Entity → Prop where
  | nil {env n} : LexicalParams env n [] []
  | cons {env n p t name ty ps qs} (ht : env.typeOr? .any t = some ty)
      (hs : LexicalParams (env.declare ⟨n, .parameter, name, ty⟩) (n + 1) ps qs) :
      LexicalParams env n (⟨p, t, some name⟩ :: ps) (⟨n, .parameter, name, ty⟩ :: qs)

/-- `Lexical env n task answer`: the names of the task are read from the environment on, and its first
declaration has the number `n`. -/
inductive Lexical : Env → Nat → Task → Answer → Prop where
  | varDecl {env n p t name init value ty} (ht : ∀ u, t = some u → env.type? u = some ty)
      (hv : RefersIfAny env init value) :
      Lexical env n (.stmt (.varDecl p t name init)) (.stmt (.declare ⟨n, .var true, name, ty⟩ value p))
  | collection {env n p name t e} (he : Refers env t e) :
      Lexical env n (.stmt (.collection p name t))
        (.stmt (.declare ⟨n, .var true, name, e.typ⟩ (some e) p))
  /-- A function can be meant in its own parameters and body, which are one region. -/
  | function {env n p name ps returns body r f qs ss} (hr : env.typeOr? .void returns = some r)
      (hf : f = functionEntity n false name qs r)
      (hq : LexicalParams (env.declare f).region (n + 1) (ps.getD []) qs)
      (hb : Lexical ((env.declare f).region.declareAll qs) (n + 1 + qs.length) (.block body) (.block ss)) :
      Lexical env n (.stmt (.function p name ps returns body)) (.stmt (.function (.mk f qs ss p) p))
  /-- The types of the fields are read where the body begins. -/
  | classDecl {env n p name body c fields ms left} (hc : c = classEntity n name)
      (hf : ((env.declare c).classRegion c).fields? body = some fields)
      (hm : Lexical ((env.declare c).classRegion c) (n + 1) (.methods c body) (.methods ms left)) :
      Lexical env n (.stmt (.classDecl p name body)) (.stmt (.classDecl c fields ms p))
  | ifChain {env n p t body elseIfs e b cs} (ht : Refers env t e)
      (hb : Lexical env.region n (.block body) (.block b))
      (hc : Lexical env (n + Tree.declaresInBlock body) (.clauses elseIfs) (.clauses cs)) :
      Lexical env n (.stmt (.ifChain p t body elseIfs none)) (.stmt (.ifElse e b (Check.clauses cs .none) p))
  | ifElse {env n p t body elseIfs elsePart e b cs b'} (ht : Refers env t e)
      (hb : Lexical env.region n (.block body) (.block b))
      (hc : Lexical env (n + Tree.declaresInBlock body) (.clauses elseIfs) (.clauses cs))
      (he : Lexical env.region (n + Tree.declaresInBlock body + Tree.declaresInClauses elseIfs)
        (.block elsePart) (.block b')) :
      Lexical env n (.stmt (.ifChain p t body elseIfs (some elsePart)))
        (.stmt (.ifElse e b (Check.clauses cs (.block b')) p))
  | whileLoop {env n p t body e b} (ht : Refers env t e)
      (hb : Lexical env.region n (.block body) (.block b)) :
      Lexical env n (.stmt (.whileLoop p t body)) (.stmt (.whileLoop e b p))
  | rangeLoop {env n p name low op high body lo op' hi b i} (hl : Refers env low lo) (hh : Refers env high hi)
      (hv : i = ⟨n, .var false, name, lo.typ⟩)
      (hb : Lexical (env.region.declare i) (n + 1) (.block body) (.block b)) :
      Lexical env n (.stmt (.rangeLoop p (some name) low op high body)) (.stmt (.rangeLoop i lo op' hi b p))
  | eachLoop {env n p names t body e is b} (ht : Refers env t e) (hnames : is.map (·.name) = names)
      (hids : is.map (·.id) = List.range' n is.length) (hkinds : ∀ i ∈ is, i.kind = .var false)
      (hb : Lexical (env.region.declareAll is) (n + is.length) (.block body) (.block b)) :
      Lexical env n (.stmt (.eachLoop p (some names) t body)) (.stmt (.eachLoop is e b p))
  | ret {env n p value e} (hv : RefersIfAny env value e) :
      Lexical env n (.stmt (.ret p value)) (.stmt (.ret e p))
  | brk {env n p} : Lexical env n (.stmt (.brk p)) (.stmt (.brk p))
  | print {env n p ts es} (hs : RefersAll env ts es) :
      Lexical env n (.stmt (.print p ts)) (.stmt (.print es p))
  | assign {env n p t v e s} (ht : Refers env t e) (hv : Refers env v s) :
      Lexical env n (.stmt (.assign p t v)) (.stmt (.assign e s p))
  | addAssign {env n p t v e s} (ht : Refers env t e) (hv : Refers env v s) :
      Lexical env n (.stmt (.addAssign p t v)) (.stmt (.addAssign e s p))
  | increment {env n p t e} (ht : Refers env t e) :
      Lexical env n (.stmt (.bump p t (some .up))) (.stmt (.increment e p))
  | decrement {env n p t e} (ht : Refers env t e) :
      Lexical env n (.stmt (.bump p t (some .down))) (.stmt (.decrement e p))
  | call {env n p t args e} (he : Refers env (.call p t args) e) :
      Lexical env n (.stmt (.call p t args)) (.stmt (.call e p))
  | nil {env n} : Lexical env n (.block []) (.block [])
  | cons {env n t ts s ss} (hs : Lexical env n (.stmt t) (.stmt s))
      (hss : Lexical (env.declareAll s.binds) (n + t.declares) (.block ts) (.block ss)) :
      Lexical env n (.block (t :: ts)) (.block (s :: ss))
  | noClause {env n} : Lexical env n (.clauses []) (.clauses [])
  | clause {env n p t body rest e b cs} (ht : Refers env t e)
      (hb : Lexical env.region n (.block body) (.block b))
      (hc : Lexical env (n + Tree.declaresInBlock body) (.clauses rest) (.clauses cs)) :
      Lexical env n (.clauses (.mk p t body :: rest)) (.clauses (⟨e, b, p⟩ :: cs))
  | noMethod {env n cls} : Lexical env n (.methods cls []) (.methods [] [])
  | field {env n cls p t name init rest ms left}
      (hm : Lexical env n (.methods cls rest) (.methods ms left)) :
      Lexical env n (.methods cls (.varDecl p t name init :: rest)) (.methods ms left)
  /-- No name means a method: what comes after it does not have it in its environment, nor does its body. -/
  | method {env n cls p name ps returns body rest r f qs ss ms left}
      (hr : env.typeOr? .void returns = some r) (hf : f = functionEntity n true name qs r)
      (hq : LexicalParams env.region (n + 1) (ps.getD []) qs)
      (hb : Lexical (env.region.declareAll qs) (n + 1 + qs.length) (.block body) (.block ss))
      (hm : Lexical env (n + (Tree.Stmt.function p name ps returns body).declares) (.methods cls rest)
        (.methods ms left)) :
      Lexical env n (.methods cls (.function p name ps returns body :: rest))
        (.methods (.mk f qs ss p :: ms) left)
  /-- A statement that is left out of its class declares names for what comes after it all the same. -/
  | leftOut {env n cls t rest s ms left} (hk : isMember t = false) (hs : Lexical env n (.stmt t) (.stmt s))
      (hm : Lexical (env.declareAll s.binds) (n + t.declares) (.methods cls rest) (.methods ms left)) :
      Lexical env n (.methods cls (t :: rest)) (.methods ms (s :: left))

/-! ### Environments with the same classes -/

/-- Each name means the same class in both environments, or in neither a class. -/
def SameClasses (env env' : Env) : Prop :=
  ∀ name, ((env.find? name).filter fun e => e.kind = .classDef) =
    (env'.find? name).filter fun e => e.kind = .classDef

theorem Env.find?_declare (env : Env) (e : Entity) (name : String) :
    (env.declare e).find? name = if e.name = name then some e else env.find? name := by
  by_cases h : e.name = name <;> simp [find?, declare, List.findSome?_cons, h]

namespace SameClasses

variable {env env' : Env}

theorem type? (h : SameClasses env env') (t : Tree.TypeExpr) : env.type? t = env'.type? t := by
  induction t with
  | named | unknown | absent => rfl
  | array p base ih => simp [Env.type?, ih]
  | dict p key value ihk ihv => simp [Env.type?, ihk, ihv]
  | optional p base ih => simp [Env.type?, ih]
  | ref p name => rw [Env.type?, Env.type?, h name]

theorem typeOr? (h : SameClasses env env') (default : Ty) (t : Option Tree.TypeExpr) :
    env.typeOr? default t = env'.typeOr? default t := by
  cases t with
  | none => rfl
  | some t => exact h.type? t

theorem declare (h : SameClasses env env') (e : Entity) :
    SameClasses (env.declare e) (env'.declare e) := by
  intro name
  rw [Env.find?_declare, Env.find?_declare]
  split
  · rfl
  · exact h name

/-- A function is no class, whatever the types of its parameters are. -/
theorem ofFunction (env : Env) (n : Nat) (name : String) (qs qs' : List Entity) (r : Ty) :
    SameClasses (env.declare (functionEntity n false name qs r)).region
      (env.declare (functionEntity n false name qs' r)).region := by
  intro x
  have hregion : ∀ env : Env, env.region.find? x = env.find? x := fun _ => rfl
  rw [hregion, hregion, Env.find?_declare, Env.find?_declare]
  by_cases h : name = x <;> simp [functionEntity, h, Option.filter]

theorem params (h : SameClasses env env') {n : Nat} {ps : List Tree.Param} {qs : List Entity}
    (hp : LexicalParams env n ps qs) : LexicalParams env' n ps qs := by
  induction hp generalizing env' with
  | nil => exact .nil
  | cons ht _ ih =>
    rw [h.typeOr?] at ht
    exact .cons ht (ih (h.declare _))

end SameClasses

end Snack.Typing
