import Snack.Proofs.Tree.Renamed
import Snack.Proofs.Typing.Layout
import Snack.Proofs.Typing.Renaming

/-! The analysis does not look into names. If all of them are exchanged for others, it goes the same way
with the others, to the program with the other names or to the same fault. -/

namespace Snack.Typing

open Snack.Core

/-- The second result is the renamed form of the first. -/
abbrev Follows {α : Type} (ρ : String → String) (φ : α → α) : Except Error α → Except Error α → Prop :=
  Parallel (Image (Error.rename ρ)) (Image φ)

/-! ### Expressions -/

section Rules

variable {ρ : Renaming} {st : State} {p : Pos}

theorem renamed_require {b b' : Bool} {c c' : Cause} (hb : b' = b) (hc : c' = c.rename ρ) :
    Follows ρ id (require b p c) (require b' p c') := by
  subst hb hc
  unfold require
  split
  · exact rfl
  · exact rfl

theorem renamed_requireNumeric (e : Expr) :
    Follows ρ id (requireNumeric e p) (requireNumeric (e.rename ρ) p) :=
  renamed_require (by rw [Expr.typ_rename, Ty.isNumeric_rename ρ.injective]) rfl

theorem renamed_requireNumericOrString (e : Expr) :
    Follows ρ id (requireNumericOrString e p) (requireNumericOrString (e.rename ρ) p) :=
  renamed_require (by rw [Expr.typ_rename, Ty.isNumericOrString_rename ρ.injective]) rfl

theorem renamed_requireBoolean (e : Expr) :
    Follows ρ id (requireBoolean e p) (requireBoolean (e.rename ρ) p) :=
  renamed_require (by rw [Expr.typ_rename, Ty.equiv_prim_rename ρ.injective])
    (by rw [Expr.typ_rename]; rfl)

theorem renamed_requireSame (l r : Expr) :
    Follows ρ id (requireSame l r p) (requireSame (l.rename ρ) (r.rename ρ) p) :=
  renamed_require (by rw [Expr.typ_rename, Expr.typ_rename, Ty.equiv_rename ρ.injective])
    (by rw [Expr.typ_rename, Expr.typ_rename]; rfl)

theorem renamed_requireAssignable (e : Expr) (t : Ty) :
    Follows ρ id (requireAssignable e t p) (requireAssignable (e.rename ρ) (t.rename ρ) p) :=
  renamed_require (by rw [Expr.typ_rename, Ty.assignable_rename ρ.injective])
    (by rw [Expr.typ_rename]; rfl)

theorem renamed_part {α : Type} (φ : α → α) (key : String) (o : Option α) :
    Follows ρ φ (part key o) (part key (o.map φ)) := by
  cases o <;> exact rfl

/-- A part that is not a name. -/
theorem renamed_own_part {α : Type} (key : String) (o : Option α) :
    Follows ρ id (part key o) (part key o) := by
  cases o <;> exact rfl

theorem renamed_lookup (name : String) :
    Follows ρ (·.rename ρ) (st.lookup name p) ((st.rename ρ).lookup (ρ name) p) := by
  rw [State.lookup, State.lookup, find?_rename]
  cases st.find? name <;> exact rfl

/-- A name that stands for what it calls. -/
theorem renamed_named (st : State) (name : String) (p : Pos) :
    Follows ρ (·.rename ρ) (Expr.ref <$> st.lookup name p) (Expr.ref <$> (st.rename ρ).lookup (ρ name) p) := by
  rw [map_eq_pure_bind, map_eq_pure_bind]
  exact (renamed_lookup name).image fun _ => rfl

theorem optionalOf_rename (t : Ty) : optionalOf (t.rename ρ) = (optionalOf t).rename ρ := by
  cases t <;> rfl

theorem renamed_resolve (t : Tree.TypeExpr) :
    Follows ρ (·.rename ρ) (resolve st t) (resolve (st.rename ρ) (t.rename ρ)) := by
  induction t with
  | named p name =>
    rw [Tree.TypeExpr.rename, resolve, resolve]
    split <;> exact rfl
  | array p base ih => exact ih.image fun _ => rfl
  | dict p key value ihk ihv => exact ihk.image fun _ => ihv.image fun _ => rfl
  | optional p base ih => exact ih.image fun t => optionalOf_rename t
  | ref p name =>
    refine (renamed_lookup name).image fun e => ?_
    dsimp only [Entity.rename]
    split <;> exact rfl
  | unknown p kind => exact rfl
  | absent part => exact rfl

theorem renamed_number (text : String) : Follows ρ (·.rename ρ) (number text p) (number text p) := by
  unfold number
  split
  · split <;> exact rfl
  split
  · exact rfl
  cases Numeral.int? text with
  | none => exact rfl
  | some n =>
    dsimp only
    cases Number.fits n <;> exact rfl

theorem renamed_nameValue (name : String) :
    Follows ρ (·.rename ρ) (nameValue st name p) (nameValue (st.rename ρ) (ρ name) p) := by
  have hcls : (if ρ name == "self" then (st.rename ρ).scope.cls else none) =
      (if name == "self" then st.scope.cls else none).map (·.rename ρ) := by
    rw [ρ.beq_fixed name List.mem_cons_self]
    split <;> rfl
  rw [nameValue, nameValue, hcls]
  cases if name == "self" then st.scope.cls else none with
  | some cls => exact rfl
  | none =>
    refine (renamed_lookup name).image fun e => ?_
    dsimp only [Entity.rename]
    split <;> exact rfl

theorem renamed_binaryType (op : BinaryOp) (l r : Expr) (pl pr : Pos) :
    Follows ρ (·.rename ρ) (binaryType op l r p pl pr) (binaryType op (l.rename ρ) (r.rename ρ) p pl pr) := by
  cases op with
  | and | or =>
    exact (renamed_requireBoolean l).image fun _ => (renamed_requireBoolean r).image fun _ => rfl
  | coalesce =>
    rw [binaryType, binaryType, Expr.typ_rename]
    cases l.typ with
    | optional base => exact (renamed_requireAssignable r base).image fun _ => rfl
    | _ => exact rfl
  | lt | le | gt | ge =>
    exact (renamed_requireNumericOrString l).image fun _ => (renamed_requireSame l r).image fun _ => rfl
  | eq | ne => exact (renamed_requireSame l r).image fun _ => rfl
  | add =>
    exact (renamed_requireNumericOrString l).image fun _ => (renamed_requireSame l r).image fun _ =>
      l.typ_rename
  | sub | mul | div | rem | pow =>
    exact (renamed_requireNumeric l).image fun _ => (renamed_requireSame l r).image fun _ =>
      l.typ_rename
  | other text => exact rfl

theorem renamed_requireOperand (op : UnaryOp) (e : Expr) (po : Pos) :
    Follows ρ id (requireOperand op e p po) (requireOperand op (e.rename ρ) p po) := by
  cases op with
  | neg => exact renamed_requireNumeric e
  | not => exact renamed_requireBoolean e
  | print | other => exact rfl

theorem renamed_memberType (o : Expr) (op : AccessOp) (name : String) (po : Pos) :
    Follows ρ (·.rename ρ) (memberType st o op name p po)
      (memberType (st.rename ρ) (o.rename ρ) op (ρ name) p po) := by
  have hitems : "items" ∈ fixedNames := List.mem_cons_of_mem _ List.mem_cons_self
  rw [memberType, memberType, Expr.typ_rename]
  cases o.typ with
  | dict k v => exact (renamed_require (ρ.beq_fixed name hitems) rfl).image fun _ => rfl
  | struct s =>
    dsimp only [Ty.rename]
    split
    · exact rfl
    · simp only [pure_bind, membersOf_rename, typ?_rename]
      cases (st.membersOf s.id).typ? name <;> exact rfl
  | optional t =>
    cases t with
    | struct s =>
      dsimp only [Ty.rename]
      split
      · simp only [pure_bind, membersOf_rename, typ?_rename]
        cases (st.membersOf s.id).typ? name with
        | none => exact rfl
        | some t => exact optionalOf_rename t
      · exact rfl
    | _ =>
      dsimp only [Ty.rename]
      split <;> exact rfl
  | _ =>
    dsimp only [Ty.rename]
    split <;> exact rfl

theorem typs_rename (es : List Expr) :
    (renameExprs ρ es).map Expr.typ = Ty.renameAll ρ (es.map Expr.typ) := by
  rw [renameExprs_eq_map, Ty.renameAll_eq_map, List.map_map, List.map_map]
  exact List.map_congr_left fun e _ => e.typ_rename

theorem renamed_arrayType (es : List Expr) :
    Follows ρ (·.rename ρ) (arrayType p es) (arrayType p (renameExprs ρ es)) := by
  cases es with
  | nil => exact rfl
  | cons e es =>
    refine (renamed_require ?_ rfl).image fun _ => congrArg Ty.array e.typ_rename
    rw [renameExprs_eq_map, List.all_map]
    congr 1
    funext d
    simp only [Function.comp_apply, Expr.typ_rename, Ty.equiv_rename ρ.injective]

theorem renamed_dictType (es : List (Expr × Expr)) :
    Follows ρ (·.rename ρ) (dictType p es) (dictType p (renameEntries ρ es)) := by
  cases es with
  | nil => exact rfl
  | cons e es =>
    obtain ⟨k, v⟩ := e
    refine (renamed_require ?_ rfl).image fun _ => congrArg₂ Ty.dict k.typ_rename v.typ_rename
    rw [renameEntries_eq_map, List.all_map]
    congr 1
    funext d
    simp only [Function.comp_apply, Expr.typ_rename, Ty.equiv_rename ρ.injective]

def Callee.rename (ρ : String → String) : Callee → Callee
  | .constructor cls => .constructor (cls.rename ρ)
  | .function f result => .function (f.rename ρ) (result.rename ρ)

theorem applied_rename (c : Callee) (args : List Expr) :
    (c.rename ρ).applied (renameExprs ρ args) = (c.applied args).rename ρ := by
  cases c <;> rfl

theorem renamed_count {required required' : Nat} (h : required' = required) (argc : Nat) :
    Follows ρ id (require (argc == required) p (.argumentCount required argc))
      (require (argc == required') p (.argumentCount required' argc)) := by
  subst h
  exact renamed_require rfl rfl

theorem renamed_calleeOf (f : Expr) (argc : Nat) :
    Follows ρ (·.rename ρ) (calleeOf st f argc p) (calleeOf (st.rename ρ) (f.rename ρ) argc p) := by
  -- what is called has its type in the entity or in itself
  cases f with
  | ref e =>
    obtain ⟨id, kind, name, typ⟩ := e
    cases kind with
    | classDef =>
      have hfields : ((st.rename ρ).membersOf id).fields.length = (st.membersOf id).fields.length := by
        rw [membersOf_rename, Members.rename, List.length_map]
      exact (renamed_count hfields argc).image fun _ => rfl
    | builtin variadic =>
      cases typ with
      | function ps r =>
        cases variadic with
        | true => exact rfl
        | false => exact (renamed_count (Ty.length_renameAll ps) argc).image fun _ => rfl
      | _ => cases variadic <;> exact rfl
    | _ =>
      cases typ with
      | function ps r => exact (renamed_count (Ty.length_renameAll ps) argc).image fun _ => rfl
      | _ => exact rfl
  | construct c args =>
    obtain ⟨id, kind, name, typ⟩ := c
    cases typ with
    | function ps r => exact (renamed_count (Ty.length_renameAll ps) argc).image fun _ => rfl
    | _ => exact rfl
  | int | float | str | bool => exact rfl
  | binary _ _ _ typ | unary _ _ typ | call _ _ typ | member _ _ _ typ | array _ typ | tuple _ typ
  | dict _ typ | emptyArray typ | emptyOptional typ | other _ typ =>
    cases typ with
    | function ps r => exact (renamed_count (Ty.length_renameAll ps) argc).image fun _ => rfl
    | _ => exact rfl

theorem calleeName?_rename (e : Tree.Expr) :
    calleeName? (e.rename ρ) = (calleeName? e).map fun x => (ρ x.1, x.2) := by
  cases e with
  | var p name =>
    rw [Tree.Expr.rename, calleeName?, calleeName?, ρ.beq_fixed name List.mem_cons_self]
    split <;> rfl
  | call p callee args => cases args <;> rfl
  | _ => rfl

end Rules

section Inference

variable {ρ : Renaming}

mutual

theorem renamed_infer (st : State) (e : Tree.Expr) :
    Follows ρ (·.rename ρ) (infer st e) (infer (st.rename ρ) (e.rename ρ)) := by
  cases e with
  | num p text => exact renamed_number text
  | str | bool => exact rfl
  | var p name => exact renamed_nameValue name
  | paren p inner => exact renamed_infer st inner
  | binary p op l r =>
    refine (renamed_infer st l).image fun _ => (renamed_infer st r).image fun _ => ?_
    rw [l.pos_rename, r.pos_rename]
    exact (renamed_binaryType op _ _ _ _).image fun _ => rfl
  | unary p op o =>
    refine (renamed_infer st o).image fun e => ?_
    rw [o.pos_rename]
    exact (renamed_requireOperand op e _).image fun _ => congrArg (Expr.unary op _) e.typ_rename
  | call p callee args =>
    rw [Tree.Expr.rename_call, infer, infer, calleeName?_rename]
    cases args with
    | none =>
      cases calleeName? callee with
      | none => exact (renamed_infer st callee).image fun _ => rfl
      | some x => exact (renamed_named st x.1 x.2).image fun _ => rfl
    | some args =>
      have hcall (g : Expr) : Follows ρ (·.rename ρ)
          (calleeOf st g args.length p >>= fun c => inferAll st args >>= fun es => pure (c.applied es))
          (calleeOf (st.rename ρ) (g.rename ρ) (Tree.renameExprs ρ args).length p >>= fun c =>
            inferAll (st.rename ρ) (Tree.renameExprs ρ args) >>= fun es => pure (c.applied es)) := by
        rw [Tree.length_renameExprs]
        exact (renamed_calleeOf g _).image fun c => (renamed_inferAll st args).image fun es =>
          applied_rename c es
      cases calleeName? callee with
      | none => exact (renamed_infer st callee).image fun g => hcall g
      | some x => exact (renamed_named st x.1 x.2).image fun g => hcall g
  | member p o op name =>
    refine (renamed_infer st o).image fun e => (renamed_own_part _ op).image fun op => ?_
    refine (renamed_part ρ _ name).image fun name => ?_
    rw [o.pos_rename]
    exact (renamed_memberType e op name _).image fun _ => rfl
  | array p es =>
    exact (renamed_inferAll st es).image fun es => (renamed_arrayType es).image fun _ => rfl
  | tuple p es =>
    exact (renamed_inferAll st es).image fun es => congrArg (Expr.tuple _ ∘ Ty.tuple) (typs_rename es)
  | dict p es =>
    exact (renamed_inferEntries st es).image fun es => (renamed_dictType es).image fun _ => rfl
  | emptyArray p t => exact (renamed_resolve t).image fun _ => rfl
  | emptyOptional p t => exact (renamed_resolve t).image fun _ => rfl
  | unknown p kind => exact rfl
  | absent part => exact rfl

theorem renamed_inferAll (st : State) (es : List Tree.Expr) :
    Follows ρ (renameExprs ρ) (inferAll st es) (inferAll (st.rename ρ) (Tree.renameExprs ρ es)) := by
  cases es with
  | nil => exact rfl
  | cons e es => exact (renamed_infer st e).image fun _ => (renamed_inferAll st es).image fun _ => rfl

theorem renamed_inferEntries (st : State) (es : List Tree.Entry) :
    Follows ρ (renameEntries ρ) (inferEntries st es)
      (inferEntries (st.rename ρ) (Tree.renameEntries ρ es)) := by
  cases es with
  | nil => exact rfl
  | cons e es =>
    obtain ⟨p, k, v⟩ := e
    exact (renamed_infer st k).image fun _ => (renamed_infer st v).image fun _ =>
      (renamed_inferEntries st es).image fun _ => rfl

end

end Inference

/-! ### Steps -/

/-- The second step does with renamed knowledge what the first one does. -/
abbrev Tracks {α : Type} (ρ : String → String) (φ : α → α) : Check α → Check α → Prop :=
  Agrees (Image (Error.rename ρ)) (Image (State.rename ρ)) (Image φ)

section Steps

variable {ρ : Renaming} {α : Type} {φ : α → α} {p : Pos}

theorem tracks_ask {x y : State → Except Error α} (h : ∀ st, Follows ρ φ (x st) (y (st.rename ρ))) :
    Tracks ρ φ (Check.ask x) (Check.ask y) := by
  rintro st _ rfl
  unfold Check.ask
  rcases (h st).cases with ⟨a, b, hx, hy, hab⟩ | ⟨e, d, hx, hy, hed⟩
  · rw [hx, hy]
    exact ⟨rfl, hab⟩
  · rw [hx, hy]
    exact hed

theorem tracks_lift {x y : Except Error α} (h : Follows ρ φ x y) :
    Tracks ρ φ (Check.lift x) (Check.lift y) :=
  tracks_ask fun _ => h

theorem tracks_modify {g g' : State → State} (h : ∀ st, g' (st.rename ρ) = (g st).rename ρ) :
    Tracks ρ id (modify g : Check Unit) (modify g') := by
  rintro st _ rfl
  exact ⟨h st, rfl⟩

theorem tracks_get : Tracks ρ (·.rename ρ) (get : Check State) get := fun _ _ h => ⟨h, h⟩

theorem tracks_fresh : Tracks ρ id Check.fresh Check.fresh := by
  rintro st _ rfl
  exact ⟨rfl, rfl⟩

theorem tracks_leave : Tracks ρ id Check.leave Check.leave := by
  rintro st _ rfl
  rw [Check.leave, Check.leave, exit?_rename]
  cases st.exit? with
  | none => exact rfl
  | some st' => exact ⟨rfl, rfl⟩

theorem tracks_expr (e : Tree.Expr) : Tracks ρ (·.rename ρ) (Check.expr e) (Check.expr (e.rename ρ)) :=
  tracks_ask fun st => renamed_infer st e

theorem tracks_type (t : Tree.TypeExpr) : Tracks ρ (·.rename ρ) (Check.type t) (Check.type (t.rename ρ)) :=
  tracks_ask fun _ => renamed_resolve t

theorem tracks_expr? (e : Option Tree.Expr) :
    Tracks ρ (Option.map (·.rename ρ)) (Check.expr? e) (Check.expr? (e.map (·.rename ρ))) := by
  cases e with
  | none => exact .pure rfl
  | some e => exact (tracks_expr e).image fun _ => .pure rfl

theorem tracks_type? (t : Option Tree.TypeExpr) :
    Tracks ρ (Option.map (·.rename ρ)) (Check.type? t) (Check.type? (t.map (·.rename ρ))) := by
  cases t with
  | none => exact .pure rfl
  | some t => exact (tracks_type t).image fun _ => .pure rfl

theorem tracks_notDeclared (name : String) :
    Tracks ρ id (Check.notDeclared name p) (Check.notDeclared (ρ name) p) :=
  tracks_ask fun st => renamed_require (by rw [isLocal_rename]) rfl

theorem tracks_declare (name : String) (e : Entity) :
    Tracks ρ id (Check.declare name e p) (Check.declare (ρ name) (e.rename ρ) p) :=
  (tracks_notDeclared name).image fun _ => tracks_modify fun st => bind_rename ρ st name e

theorem tracks_within {inLoop : Option Bool} {function : Option Callable} {cls : Option Entity}
    {x y : Check α} (h : Tracks ρ φ x y) :
    Tracks ρ φ (Check.within inLoop function cls x)
      (Check.within inLoop (function.map (·.rename ρ)) (cls.map (·.rename ρ)) y) :=
  (tracks_modify fun st => enter_rename ρ st inLoop function cls).image fun _ => h.image fun _ =>
    tracks_leave.image fun _ => .pure rfl

/-! ### Declarations -/

theorem tracks_newVariable (name : String) (init : Option Expr) (t : Ty) :
    Tracks ρ (·.rename ρ) (Check.newVariable name init t p)
      (Check.newVariable (ρ name) (init.map (·.rename ρ)) (t.rename ρ) p) :=
  tracks_fresh.image fun k => (tracks_declare name ⟨k, .var true, name, t⟩).image fun _ => .pure rfl

theorem renamed_slotType (t : Option Ty) (e : Option Expr) :
    Follows ρ (·.rename ρ) (Check.slotType t e p)
      (Check.slotType (t.map (·.rename ρ)) (e.map (·.rename ρ)) p) := by
  cases t with
  | some t =>
    cases e with
    | some e => exact (renamed_requireAssignable e t).image fun _ => rfl
    | none => exact rfl
  | none =>
    cases e with
    | some e => exact e.typ_rename
    | none => exact rfl

/-- A type that is left out. -/
theorem getD_rename (t : Option Ty) (q : Prim) :
    (t.map (·.rename ρ)).getD (.prim q) = (t.getD (.prim q)).rename ρ := by
  cases t <;> rfl

theorem tracks_params (ps : List Tree.Param) :
    Tracks ρ (List.map (·.rename ρ)) (Check.params ps) (Check.params (ps.map (·.rename ρ))) := by
  induction ps with
  | nil => exact .pure rfl
  | cons q ps ih =>
    refine (tracks_type? q.type).image fun t => (tracks_lift (renamed_part ρ _ q.name)).image fun name => ?_
    refine tracks_fresh.image fun k => ?_
    simp only [getD_rename]
    exact (tracks_declare name ⟨k, .parameter, name, t.getD .any⟩).image fun _ => ih.image fun _ => .pure rfl

theorem tracks_announce (cls : Option Entity) (e : Entity) :
    Tracks ρ id (Check.announce cls e p) (Check.announce (cls.map (·.rename ρ)) (e.rename ρ) p) := by
  cases cls with
  | none => exact tracks_declare e.name e
  | some c =>
    refine tracks_ask fun st => renamed_require ?_ rfl
    show (!((st.rename ρ).membersOf c.id).has (ρ e.name)) = _
    rw [membersOf_rename, has_rename]

theorem tracks_settle (cls : Option Entity) (e : Entity) :
    Tracks ρ id (Check.settle cls e) (Check.settle (cls.map (·.rename ρ)) (e.rename ρ)) := by
  cases cls with
  | none => exact tracks_modify fun st => settle_rename ρ st e.name e
  | some c => exact tracks_modify fun st => addMethod_rename ρ st c.id e

theorem params_typ_rename (qs : List Entity) :
    (qs.map (·.rename ρ)).map (·.typ) = Ty.renameAll ρ (qs.map (·.typ)) := by
  rw [Ty.renameAll_eq_map, List.map_map, List.map_map]
  rfl

theorem tracks_function (cls : Option Entity) (name : String) (ps : List Tree.Param)
    (returns : Option Tree.TypeExpr) {body body' : Check (List Stmt)}
    (hb : Tracks ρ (renameBlock ρ) body body') :
    Tracks ρ (·.rename ρ) (Check.function cls p name ps returns body)
      (Check.function (cls.map (·.rename ρ)) p (ρ name) (ps.map (·.rename ρ)) (returns.map (·.rename ρ))
        body') := by
  refine (tracks_type? returns).image fun t => tracks_fresh.image fun k => ?_
  simp only [getD_rename, Option.isSome_map]
  refine (tracks_announce cls ⟨k, .function cls.isSome, name, .function [] (t.getD .void)⟩).image fun _ => ?_
  refine tracks_within ((tracks_params ps).image fun qs => ?_)
  have hentity : Entity.rename ρ ⟨k, .function cls.isSome, name, .function (qs.map (·.typ)) (t.getD .void)⟩ =
      ⟨k, .function cls.isSome, ρ name, .function (Ty.renameAll ρ (qs.map (·.typ)))
        ((t.getD .void).rename ρ)⟩ := rfl
  simp only [params_typ_rename, id_eq, ← hentity]
  refine (tracks_settle cls _).image fun _ => ?_
  exact hb.image fun _ => .pure rfl

theorem tracks_field (k : Nat) (t : Option Tree.TypeExpr) (name : String) (init : Option Tree.Expr) :
    Tracks ρ id (Check.field k p t name init)
      (Check.field k p (t.map (·.rename ρ)) (ρ name) (init.map (·.rename ρ))) := by
  refine (tracks_lift (renamed_require (by rw [Option.isNone_map]) rfl)).image fun _ => ?_
  refine (tracks_ask fun st => renamed_require ?_ rfl).image fun _ => (tracks_type? t).image fun t => ?_
  · rw [membersOf_rename, field?_rename, Option.isNone_map]
  · simp only [getD_rename]
    exact tracks_modify fun st => addField_rename ρ st k ⟨name, t.getD .any⟩

theorem tracks_fields (k : Nat) (body : List Tree.Stmt) :
    Tracks ρ id (Check.fields k body) (Check.fields k (Tree.renameBlock ρ body)) := by
  induction body with
  | nil => exact .pure rfl
  | cons s body ih =>
    cases s with
    | varDecl p t name init => exact (tracks_field k t name init).image fun _ => ih
    | absent part => exact .throw rfl
    | ifChain p t b cs rest => cases rest <;> exact ih
    | _ => exact ih

/-! ### Control flow -/

theorem tracks_test (e : Tree.Expr) : Tracks ρ (·.rename ρ) (Check.test e) (Check.test (e.rename ρ)) := by
  refine (tracks_expr e).image fun t => ?_
  rw [e.pos_rename]
  exact (tracks_lift (renamed_requireBoolean t)).image fun _ => .pure rfl

theorem tracks_bound (e : Tree.Expr) : Tracks ρ (·.rename ρ) (Check.bound e) (Check.bound (e.rename ρ)) := by
  refine (tracks_expr e).image fun t => ?_
  rw [e.pos_rename]
  exact (tracks_lift (renamed_requireNumeric t)).image fun _ => .pure rfl

theorem renamed_rangeOp (op : Option RangeOp) : Follows ρ id (Check.rangeOp p op) (Check.rangeOp p op) := by
  unfold Check.rangeOp
  split <;> exact rfl

theorem tracks_rangeLoop (name : Option String) (low : Tree.Expr) (op : Option RangeOp) (high : Tree.Expr)
    {body body' : Check (List Stmt)} (hb : Tracks ρ (renameBlock ρ) body body') :
    Tracks ρ (·.rename ρ) (Check.rangeLoop p name low op high body)
      (Check.rangeLoop p (name.map ρ) (low.rename ρ) op (high.rename ρ) body') := by
  refine (tracks_bound low).image fun lo => (tracks_bound high).image fun hi => ?_
  refine (tracks_lift (renamed_part ρ _ name)).image fun name => tracks_fresh.image fun k => ?_
  rw [lo.typ_rename]
  refine (tracks_within ((tracks_declare name ⟨k, .var false, name, lo.typ⟩).image fun _ => hb)).image
    fun b => ?_
  exact (tracks_lift (renamed_rangeOp op)).image fun _ => .pure rfl

theorem renamed_elementTypes (t : Ty) :
    Follows ρ (List.map (·.rename ρ)) (Check.elementTypes t p) (Check.elementTypes (t.rename ρ) p) := by
  cases t <;> exact rfl

theorem tracks_iterators (is : List (String × Ty)) :
    Tracks ρ (List.map (·.rename ρ)) (Check.iterators p is)
      (Check.iterators p (is.map fun i => (ρ i.1, i.2.rename ρ))) := by
  induction is with
  | nil => exact .pure rfl
  | cons i is ih =>
    exact tracks_fresh.image fun k => (tracks_declare i.1 ⟨k, .var false, i.1, i.2⟩).image fun _ =>
      ih.image fun _ => .pure rfl

theorem tracks_eachLoop (names : Option (List String)) (e : Tree.Expr) {body body' : Check (List Stmt)}
    (hb : Tracks ρ (renameBlock ρ) body body') :
    Tracks ρ (·.rename ρ) (Check.eachLoop p names e body)
      (Check.eachLoop p (names.map (·.map ρ)) (e.rename ρ) body') := by
  refine (tracks_expr e).image fun c => ?_
  rw [c.typ_rename, e.pos_rename]
  refine (tracks_lift (renamed_elementTypes c.typ)).image fun ts => ?_
  refine (tracks_lift (renamed_part (List.map ρ) _ names)).image fun names => ?_
  rw [List.length_map, List.length_map, List.zip_map]
  refine (tracks_lift (renamed_require rfl rfl)).image fun _ => tracks_within ?_
  exact (tracks_iterators (names.zip ts)).image fun _ => hb.image fun _ => .pure rfl

theorem tracks_ret (value : Option Tree.Expr) :
    Tracks ρ (·.rename ρ) (Check.ret p value) (Check.ret p (value.map (·.rename ρ))) := by
  refine tracks_get.image fun st => ?_
  obtain ⟨⟨locals, inLoop, function, cls⟩, outer, members, next, dropped⟩ := st
  cases function with
  | none => exact .throw rfl
  | some f =>
    have hvoid : (f.rename ρ).result.equiv .void = f.result.equiv .void :=
      Ty.equiv_prim_rename ρ.injective _ _
    cases value with
    | none =>
      refine (tracks_lift (renamed_require ?_ rfl)).image fun _ => .pure rfl
      exact hvoid
    | some e =>
      refine (tracks_lift (renamed_require ?_ rfl)).image fun _ => (tracks_expr e).image fun v => ?_
      · exact congrArg not hvoid
      · rw [e.pos_rename]
        exact (tracks_lift (renamed_requireAssignable v f.result)).image fun _ => .pure rfl

theorem renamed_requirePlace (e : Expr) :
    Follows ρ id (Check.requirePlace e p) (Check.requirePlace (e.rename ρ) p) := by
  cases e with
  | ref e =>
    obtain ⟨k, kind, name, typ⟩ := e
    cases kind with
    | var mutable => cases mutable <;> exact rfl
    | _ => exact rfl
  | _ => exact rfl

theorem tracks_target (e : Tree.Expr) :
    Tracks ρ (·.rename ρ) (Check.target e) (Check.target (e.rename ρ)) := by
  refine (tracks_expr e).image fun t => ?_
  rw [e.pos_rename]
  exact (tracks_lift (renamed_requirePlace t)).image fun _ => .pure rfl

theorem tracks_assign (place value : Tree.Expr) :
    Tracks ρ (·.rename ρ) (Check.assign p place value)
      (Check.assign p (place.rename ρ) (value.rename ρ)) := by
  refine (tracks_expr value).image fun source => (tracks_target place).image fun t => ?_
  rw [place.pos_rename, t.typ_rename]
  exact (tracks_lift (renamed_requireAssignable source t.typ)).image fun _ => .pure rfl

theorem tracks_addAssign (place value : Tree.Expr) :
    Tracks ρ (·.rename ρ) (Check.addAssign p place value)
      (Check.addAssign p (place.rename ρ) (value.rename ρ)) := by
  refine (tracks_expr value).image fun source => (tracks_target place).image fun t => ?_
  rw [place.pos_rename, t.typ_rename]
  exact (tracks_lift (renamed_requireNumericOrString t)).image fun _ =>
    (tracks_lift (renamed_requireAssignable source t.typ)).image fun _ => .pure rfl

theorem tracks_bump (e : Tree.Expr) (op : Option BumpOp) :
    Tracks ρ (·.rename ρ) (Check.bump p e op) (Check.bump p (e.rename ρ) op) := by
  refine (tracks_target e).image fun t => ?_
  rw [e.pos_rename]
  refine (tracks_lift (renamed_requireNumeric t)).image fun _ => ?_
  refine (tracks_lift (renamed_own_part _ op)).image fun op => ?_
  cases op <;> exact .pure rfl

end Steps

/-! ### Statements -/

def Check.Clause.rename (ρ : String → String) (c : Check.Clause) : Check.Clause :=
  ⟨c.test.rename ρ, renameBlock ρ c.body, c.loc⟩

section Statements

variable {ρ : Renaming}

theorem clauses_rename (cs : List Check.Clause) (rest : Else) :
    Check.clauses (cs.map (·.rename ρ)) (rest.rename ρ) = (Check.clauses cs rest).rename ρ := by
  induction cs with
  | nil => rfl
  | cons c cs ih => exact congrArg (Else.elseIf _ _ · _) ih

theorem params_getD_rename (ps : Option (List Tree.Param)) :
    (ps.map (·.map (·.rename ρ))).getD [] = (ps.getD []).map (·.rename ρ) := by
  cases ps <;> rfl

theorem isMember_rename (t : Tree.Stmt) : isMember (t.rename ρ) = isMember t := by
  cases t with
  | ifChain p t b cs rest => cases rest <;> rfl
  | _ => rfl

theorem tracks_drop (kind cls : String) : Tracks ρ id (Check.drop kind cls) (Check.drop kind (ρ cls)) := by
  refine tracks_modify fun st => ?_
  simp only [State.rename, List.map_append, List.map_cons, List.map_nil]

mutual

theorem tracks_stmt : ∀ t : Tree.Stmt, Tracks ρ (·.rename ρ) (Check.stmt t) (Check.stmt (t.rename ρ))
  | .varDecl p t name init =>
    (tracks_notDeclared name).image fun _ => (tracks_type? t).image fun t => (tracks_expr? init).image fun e =>
      (tracks_lift (renamed_slotType t e)).image fun t => tracks_newVariable name e t
  | .collection p name e => by
    refine (tracks_notDeclared name).image fun _ => (tracks_expr e).image fun e => ?_
    rw [e.typ_rename]
    exact tracks_newVariable name (some e) e.typ
  | .function p name ps returns body => by
    rw [Tree.Stmt.rename, Check.stmt, Check.stmt, params_getD_rename]
    exact (tracks_function none name _ returns (tracks_block body)).image fun _ => .pure rfl
  | .classDecl p name body => by
    refine tracks_fresh.image fun k => ?_
    refine (tracks_declare name ⟨k, .classDef, name, .struct ⟨k, name⟩⟩).image fun _ => ?_
    refine (tracks_within ((tracks_fields k body).image fun _ => tracks_methods _ body)).image fun fs => ?_
    refine tracks_get.image fun st => .pure ?_
    exact congrArg (fun m : Members => Stmt.classDecl _ m.fields _ p) (membersOf_rename ρ st k)
  | .ifChain p t body cs none =>
    (tracks_test t).image fun _ => (tracks_within (tracks_block body)).image fun _ =>
      (tracks_elseIfClauses cs).image fun cs => .pure (congrArg (Stmt.ifElse _ _ · p) (clauses_rename cs .none))
  | .ifChain p t body cs (some rest) =>
    (tracks_test t).image fun _ => (tracks_within (tracks_block body)).image fun _ =>
      (tracks_elseIfClauses cs).image fun cs => (tracks_within (tracks_block rest)).image fun b =>
        .pure (congrArg (Stmt.ifElse _ _ · p) (clauses_rename cs (.block b)))
  | .whileLoop p t body =>
    (tracks_test t).image fun _ => (tracks_within (tracks_block body)).image fun _ => .pure rfl
  | .rangeLoop p name low op high body => tracks_rangeLoop name low op high (tracks_block body)
  | .eachLoop p names e body => tracks_eachLoop names e (tracks_block body)
  | .print p es => (tracks_ask fun st => renamed_inferAll st es).image fun _ => .pure rfl
  | .ret p value => tracks_ret value
  | .brk p => (tracks_ask fun st => renamed_require rfl rfl).image fun _ => .pure rfl
  | .assign p place value => tracks_assign place value
  | .addAssign p place value => tracks_addAssign place value
  | .bump p place op => tracks_bump place op
  | .call p callee args => by
    have hcall : Tracks ρ (Expr.rename ρ) _ _ := tracks_expr (.call p callee args)
    rw [Tree.Expr.rename_call] at hcall
    exact hcall.image fun _ => .pure rfl
  | .unknown p kind => .throw rfl
  | .absent part => .throw rfl
  | .incomplete part => .throw rfl

theorem tracks_block : ∀ ts : List Tree.Stmt,
    Tracks ρ (renameBlock ρ) (Check.block ts) (Check.block (Tree.renameBlock ρ ts))
  | [] => .pure rfl
  | t :: ts => (tracks_stmt t).image fun _ => (tracks_block ts).image fun _ => .pure rfl

theorem tracks_elseIfClauses : ∀ cs : List Tree.ElseIf,
    Tracks ρ (List.map (·.rename ρ)) (Check.elseIfClauses cs)
      (Check.elseIfClauses (Tree.renameClauses ρ cs))
  | [] => .pure rfl
  | .mk _ t body :: cs =>
    (tracks_test t).image fun _ => (tracks_within (tracks_block body)).image fun _ =>
      (tracks_elseIfClauses cs).image fun _ => .pure rfl

theorem tracks_methods (cls : Entity) : ∀ ts : List Tree.Stmt,
    Tracks ρ (renameFunctions ρ) (Check.methods cls ts)
      (Check.methods (cls.rename ρ) (Tree.renameBlock ρ ts))
  | [] => .pure rfl
  | t :: ts => by
    cases hk : isMember t with
    | true =>
      cases t with
      | varDecl p t name init => exact tracks_methods cls ts
      | function p name ps returns body =>
        rw [Tree.renameBlock, Tree.Stmt.rename, Check.methods, Check.methods, params_getD_rename]
        exact (tracks_function (some cls) name _ returns (tracks_block body)).image fun _ =>
          (tracks_methods cls ts).image fun _ => .pure rfl
      | _ => simp [isMember] at hk
    | false =>
      rw [Tree.renameBlock, Check.methods_leftOut hk, Check.methods_leftOut ((isMember_rename t).trans hk),
        Tree.Stmt.kind_rename]
      exact (tracks_stmt t).image fun _ => (tracks_drop _ cls.name).image fun _ => tracks_methods cls ts

end

/-- What a renamed tree gives is the renamed form of what the tree gives. -/
theorem renamed_analyze (tree : Tree.Program) :
    Parallel (Image (Error.rename ρ)) (Image (Program.rename ρ)) (analyze tree).1
      (analyze (Tree.renameBlock ρ tree)).1 := by
  have hblock : Tracks ρ (renameBlock ρ) _ _ := tracks_block tree
  have hboth := hblock .initial .initial (initial_rename ρ).symm
  unfold analyze
  cases h : Check.block tree .initial <;> cases h' : Check.block (Tree.renameBlock ρ tree) .initial <;>
    rw [h, h'] at hboth
  · exact congrArg Program.mk hboth.2
  · exact hboth.elim
  · exact hboth.elim
  · exact hboth

end Statements

/-- Names do not matter to the analysis. A tree with other names is accepted if and only if the tree is. Its
program is then the program with other names, and is so however often both are simplified. If the trees are
not accepted, they break a rule of one class at one place. -/
theorem analyze_ignores_spelling (ρ : Renaming) (tree : Tree.Program) :
    Parallel (fun e d => d.cause = e.cause.rename ρ ∧ d.cause.category = e.cause.category ∧ d.pos = e.pos)
      (fun p q => ∀ n, Simplify.program^[n] q = (Simplify.program^[n] p).rename ρ)
      (analyze tree).1 (analyze (Tree.renameBlock ρ tree)).1 := by
  rcases (renamed_analyze tree).cases with ⟨p, q, hp, hq, rfl⟩ | ⟨e, d, he, hd, rfl⟩
  · rw [hp, hq]
    exact fun n => Simplify.iterate_program_rename n p
  · rw [he, hd]
    exact ⟨rfl, Cause.category_rename ρ e.cause, rfl⟩

/-- A class and a variable of it. -/
def crateTree : Tree.Program :=
  [.classDecl ⟨1, 1⟩ "Crate" [.varDecl ⟨2, 3⟩ (some (.named ⟨2, 5⟩ "bool")) "full" none],
   .varDecl ⟨4, 1⟩ (some (.ref ⟨4, 3⟩ "Crate")) "x"
     (some (.call ⟨4, 11⟩ (.var ⟨4, 11⟩ "Crate") (some [.bool ⟨4, 17⟩ true]))),
   .print ⟨5, 1⟩ [.member ⟨5, 3⟩ (.var ⟨5, 3⟩ "x") (some .direct) (some "full")]]

def crates : Program :=
  let crate : Entity := ⟨14, .classDef, "Crate", .struct ⟨14, "Crate"⟩⟩
  let x : Entity := ⟨15, .var true, "x", .struct ⟨14, "Crate"⟩⟩
  ⟨[.classDecl crate [⟨"full", .bool⟩] [] ⟨1, 1⟩,
    .declare x (some (.construct crate [.bool true])) ⟨4, 1⟩,
    .print [.member (.ref x) .direct "full" .bool] ⟨5, 1⟩]⟩

/-- The name of the class for the variable and that of the variable for the class. -/
def crossed : Renaming := .exchange "Crate" "x" (by decide) (by decide)

theorem analyze_ignores_spelling_crates :
    (analyze crateTree).1 = .ok crates ∧
    Parallel (fun e d => d.cause = e.cause.rename crossed ∧ d.cause.category = e.cause.category ∧ d.pos = e.pos)
      (fun p q => ∀ n, Simplify.program^[n] q = (Simplify.program^[n] p).rename crossed)
      (analyze crateTree).1 (analyze (Tree.renameBlock crossed crateTree)).1 :=
  ⟨rfl, analyze_ignores_spelling crossed crateTree⟩

end Snack.Typing
