import Mathlib.Logic.Basic
import Snack.Proofs.Agree
import Snack.Proofs.Core.Bare
import Snack.Proofs.Tree.Moved
import Snack.Proofs.Typing.Accepts

/-! The places in a tree are noted in the typed program and in failures, and decide nothing. If all of them
are taken elsewhere, the place of a failure is taken along. -/

namespace Snack.Typing

open Snack.Core

/-- A fault of the tree itself is told without a place. -/
def Cause.IsPlaced (c : Cause) : Prop := c.category ∉ [.missingPart, .malformed, .unbalanced]

/-- How the failures of the analysis compare when `f` takes the places of a tree elsewhere. -/
abbrev Moved (f : Pos → Pos) : Error → Error → Prop := Located.MovesTo Cause.IsPlaced f

section Moves

variable {f : Pos → Pos}

theorem moved_at (c : Cause) (p : Pos) : Moved f ⟨c, p⟩ ⟨c, f p⟩ := .at c p

theorem moved_ofTree {c : Cause} (h : c.category ∈ [.missingPart, .malformed, .unbalanced]) :
    Moved f (.ofTree c) (.ofTree c) :=
  .untold (not_not_intro h)

theorem moved_missing (part : String) : Moved f (.missing part) (.missing part) :=
  moved_ofTree List.mem_cons_self

/-! ### Expressions -/

section Rules

variable {st : State}

theorem moved_require (b : Bool) (c : Cause) (p : Pos) :
    Parallel (Moved f) Eq (require b p c) (require b (f p) c) := by
  unfold require
  split
  · exact .ok _
  · exact moved_at c p

theorem moved_part {α : Type} (key : String) (o : Option α) :
    Parallel (Moved f) Eq (part key o) (part key o) := by
  cases o with
  | some a => exact .ok a
  | none => exact moved_missing key

theorem moved_lookup (name : String) (p : Pos) :
    Parallel (Moved f) Eq (st.lookup name p) (st.lookup name (f p)) := by
  unfold State.lookup
  split
  · exact .ok _
  · exact moved_at _ p

theorem moved_resolve (t : Tree.TypeExpr) :
    Parallel (Moved f) Eq (resolve st t) (resolve st (t.move f)) := by
  induction t with
  | named p name =>
    rw [Tree.TypeExpr.move, resolve, resolve]
    split
    · exact .ok _
    · exact moved_at _ p
  | array p base ih => exact ih.bind fun _ _ => .ok _
  | dict p key value ihk ihv => exact ihk.bind fun _ _ => ihv.bind fun _ _ => .ok _
  | optional p base ih => exact ih.bind fun _ _ => .ok _
  | ref p name =>
    refine (moved_lookup name p).bind fun e _ => ?_
    split
    · exact .ok _
    · exact moved_at _ p
  | unknown p kind => exact moved_at _ p
  | absent part => exact moved_missing part

theorem moved_number (text : String) (p : Pos) :
    Parallel (Moved f) Eq (number text p) (number text (f p)) := by
  unfold number
  split
  · split
    · exact .ok _
    · exact moved_ofTree (by simp [Cause.category])
  split
  · exact moved_at _ p
  cases Numeral.int? text with
  | none => exact moved_ofTree (by simp [Cause.category])
  | some n =>
    dsimp only
    cases Number.fits n with
    | true => exact .ok _
    | false => exact moved_at _ p

theorem moved_nameValue (name : String) (p : Pos) :
    Parallel (Moved f) Eq (nameValue st name p) (nameValue st name (f p)) := by
  unfold nameValue
  split
  · exact .ok _
  · refine (moved_lookup name p).bind fun e _ => ?_
    split
    · exact moved_at _ p
    · exact .ok _

theorem moved_binaryType (op : BinaryOp) (l r : Expr) (p pl pr : Pos) :
    Parallel (Moved f) Eq (binaryType op l r p pl pr) (binaryType op l r (f p) (f pl) (f pr)) := by
  cases op with
  | and | or => exact (moved_require _ _ _).bind fun _ _ => (moved_require _ _ _).bind fun _ _ => .ok _
  | coalesce =>
    rw [binaryType, binaryType]
    split
    · exact (moved_require _ _ _).bind fun _ _ => .ok _
    · exact moved_at _ pl
  | eq | ne => exact (moved_require _ _ _).bind fun _ _ => .ok _
  | other text => exact moved_at _ p
  | _ => exact (moved_require _ _ _).bind fun _ _ => (moved_require _ _ _).bind fun _ _ => .ok _

theorem moved_requireOperand (op : UnaryOp) (e : Expr) (p po : Pos) :
    Parallel (Moved f) Eq (requireOperand op e p po) (requireOperand op e (f p) (f po)) := by
  cases op with
  | neg | not => exact moved_require _ _ _
  | print | other => exact moved_at _ p

theorem moved_memberType (o : Expr) (op : AccessOp) (name : String) (p po : Pos) :
    Parallel (Moved f) Eq (memberType st o op name p po) (memberType st o op name (f p) (f po)) := by
  unfold memberType
  split
  · exact (moved_require _ _ _).bind fun _ _ => .ok _
  · dsimp only
    -- through a plain or an optional access, the object has to be of a class that has the member
    split <;>
    · split
      · refine Parallel.bind (.ok _) fun s _ => ?_
        split
        · exact moved_at _ p
        · exact .ok _
      · exact moved_at _ po

theorem moved_arrayType (es : List Expr) (p : Pos) :
    Parallel (Moved f) Eq (arrayType p es) (arrayType (f p) es) := by
  cases es with
  | nil => exact .ok _
  | cons => exact (moved_require _ _ _).bind fun _ _ => .ok _

theorem moved_dictType (es : List (Expr × Expr)) (p : Pos) :
    Parallel (Moved f) Eq (dictType p es) (dictType (f p) es) := by
  cases es with
  | nil => exact .ok _
  | cons => exact (moved_require _ _ _).bind fun _ _ => .ok _

theorem moved_calleeOf (e : Expr) (n : Nat) (p : Pos) :
    Parallel (Moved f) Eq (calleeOf st e n p) (calleeOf st e n (f p)) := by
  unfold calleeOf
  split
  · exact (moved_require _ _ _).bind fun _ _ => .ok _
  · exact .ok _
  · split
    · exact (moved_require _ _ _).bind fun _ _ => .ok _
    · exact moved_at _ p

theorem calleeName?_move (e : Tree.Expr) :
    calleeName? (e.move f) = (calleeName? e).map fun x => (x.1, f x.2) := by
  cases e with
  | var p name =>
    rw [Tree.Expr.move, Tree.Expr.change, calleeName?, calleeName?]
    split <;> rfl
  | call p callee args => cases args <;> rfl
  | _ => rfl

/-- An expression that has a type is not missing, so its place is taken along. -/
theorem pos_of_infer {t : Tree.Expr} {e : Expr} (h : infer st t = .ok e) :
    (t.change f id).pos = f t.pos := by
  refine Tree.Expr.pos_move fun part hpart => ?_
  subst hpart
  cases h

end Rules

mutual

theorem moved_infer (st : State) (e : Tree.Expr) :
    Parallel (Moved f) Eq (infer st e) (infer st (e.move f)) := by
  cases e with
  | num p text => exact moved_number text p
  | str | bool => exact .ok _
  | var p name => exact moved_nameValue name p
  | paren p inner => exact moved_infer st inner
  | binary p op l r =>
    refine (moved_infer st l).bind fun _ hl => (moved_infer st r).bind fun _ hr => ?_
    rw [pos_of_infer hl, pos_of_infer hr]
    exact (moved_binaryType op _ _ _ _ _).bind fun _ _ => .ok _
  | unary p op o =>
    refine (moved_infer st o).bind fun _ ho => ?_
    rw [pos_of_infer ho]
    exact (moved_requireOperand op _ _ _).bind fun _ _ => .ok _
  | call p callee args =>
    rw [Tree.Expr.move_call, infer, infer, calleeName?_move]
    cases args with
    | none =>
      cases calleeName? callee with
      | none => exact (moved_infer st callee).bind fun _ _ => moved_missing _
      | some x => exact (moved_lookup x.1 _).map.bind fun _ _ => moved_missing _
    | some args =>
      have hcall (g : Expr) : Parallel (Moved f) Eq
          (calleeOf st g args.length p >>= fun c => inferAll st args >>= fun es => pure (c.applied es))
          (calleeOf st g (Tree.moveExprs f args).length (f p) >>= fun c =>
            inferAll st (Tree.moveExprs f args) >>= fun es => pure (c.applied es)) := by
        rw [Tree.length_moveExprs]
        exact (moved_calleeOf g _ _).bind fun _ _ => (moved_inferAll st args).bind fun _ _ => .ok _
      cases calleeName? callee with
      | none => exact (moved_infer st callee).bind fun g _ => hcall g
      | some x => exact (moved_lookup x.1 _).map.bind fun g _ => hcall g
  | member p o op name =>
    refine (moved_infer st o).bind fun _ ho => (moved_part _ _).bind fun _ _ =>
      (moved_part _ _).bind fun _ _ => ?_
    rw [pos_of_infer ho]
    exact (moved_memberType _ _ _ _ _).bind fun _ _ => .ok _
  | array p es => exact (moved_inferAll st es).bind fun _ _ => (moved_arrayType _ _).bind fun _ _ => .ok _
  | tuple p es => exact (moved_inferAll st es).bind fun _ _ => .ok _
  | dict p es => exact (moved_inferEntries st es).bind fun _ _ => (moved_dictType _ _).bind fun _ _ => .ok _
  | emptyArray p t => exact (moved_resolve t).bind fun _ _ => .ok _
  | emptyOptional p t => exact (moved_resolve t).bind fun _ _ => .ok _
  | unknown p kind => exact moved_at _ p
  | absent part => exact moved_missing part

theorem moved_inferAll (st : State) (es : List Tree.Expr) :
    Parallel (Moved f) Eq (inferAll st es) (inferAll st (Tree.moveExprs f es)) := by
  cases es with
  | nil => exact .ok _
  | cons e es => exact (moved_infer st e).bind fun _ _ => (moved_inferAll st es).bind fun _ _ => .ok _

theorem moved_inferEntries (st : State) (es : List Tree.Entry) :
    Parallel (Moved f) Eq (inferEntries st es) (inferEntries st (Tree.moveEntries f es)) := by
  cases es with
  | nil => exact .ok _
  | cons e es =>
    obtain ⟨p, k, v⟩ := e
    exact (moved_infer st k).bind fun _ _ => (moved_infer st v).bind fun _ _ =>
      (moved_inferEntries st es).bind fun _ _ => .ok _

end

/-! ### Steps -/

section Steps

variable {α β : Type} {p : Pos}

theorem agrees_ask {x y : State → Except Error α} (h : ∀ st, Parallel (Moved f) Eq (x st) (y st)) :
    Agrees (Moved f) Eq Eq (Check.ask x) (Check.ask y) := by
  rintro st _ rfl
  have hst := h st
  unfold Check.ask
  rcases hst.cases with ⟨a, b, hx, hy, hab⟩ | ⟨e, d, hx, hy, hed⟩
  · rw [hx, hy]
    exact ⟨rfl, hab⟩
  · rw [hx, hy]
    exact hed

theorem agrees_lift {x y : Except Error α} (h : Parallel (Moved f) Eq x y) :
    Agrees (Moved f) Eq Eq (Check.lift x) (Check.lift y) :=
  agrees_ask fun _ => h

theorem agrees_expr (e : Tree.Expr) :
    Agrees (Moved f) Eq Eq (Check.expr e) (Check.expr (e.move f)) :=
  agrees_ask fun st => moved_infer st e

theorem agrees_type (t : Tree.TypeExpr) :
    Agrees (Moved f) Eq Eq (Check.type t) (Check.type (t.move f)) :=
  agrees_ask fun _ => moved_resolve t

theorem agrees_expr? (e : Option Tree.Expr) :
    Agrees (Moved f) Eq Eq (Check.expr? e) (Check.expr? (e.map (·.move f))) := by
  cases e with
  | none => exact .pure rfl
  | some e => exact (agrees_expr e).next fun _ => .pure rfl

theorem agrees_type? (t : Option Tree.TypeExpr) :
    Agrees (Moved f) Eq Eq (Check.type? t) (Check.type? (t.map (·.move f))) := by
  cases t with
  | none => exact .pure rfl
  | some t => exact (agrees_type t).next fun _ => .pure rfl

theorem agrees_part (key : String) (o : Option α) :
    Agrees (Moved f) Eq Eq (Check.lift (part key o)) (Check.lift (part key o)) :=
  agrees_lift (moved_part key o)

theorem agrees_require (x : State → Bool) (c : Cause) (p : Pos) :
    Agrees (Moved f) Eq Eq (Check.ask fun st => require (x st) p c)
      (Check.ask fun st => require (x st) (f p) c) :=
  agrees_ask fun st => moved_require (x st) c p

theorem agrees_lift_require (b : Bool) (c : Cause) (p : Pos) :
    Agrees (Moved f) Eq Eq (Check.lift (require b p c)) (Check.lift (require b (f p) c)) :=
  agrees_require (fun _ => b) c p

theorem agrees_get : Agrees (Moved f) Eq Eq (get : Check State) get := fun _ _ h => ⟨h, h⟩

theorem agrees_modify (g : State → State) : Agrees (Moved f) Eq Eq (modify g : Check Unit) (modify g) :=
  fun _ _ h => ⟨congrArg g h, rfl⟩

theorem agrees_fresh : Agrees (Moved f) Eq Eq Check.fresh Check.fresh := by
  rintro st _ rfl
  exact ⟨rfl, rfl⟩

theorem agrees_leave : Agrees (Moved f) Eq Eq Check.leave Check.leave := by
  refine .refl fun st e st' h => ?_
  unfold Check.leave at h
  split at h <;> cases h
  exact moved_ofTree (by simp [Cause.category])

theorem agrees_declare (name : String) (e : Entity) (p : Pos) :
    Agrees (Moved f) Eq Eq (Check.declare name e p) (Check.declare name e (f p)) :=
  (agrees_require _ _ p).next fun _ => agrees_modify _

theorem agrees_within {inLoop : Option Bool} {function : Option Callable} {cls : Option Entity}
    {R : α → β → Prop} {x : Check α} {y : Check β} (h : Agrees (Moved f) Eq R x y) :
    Agrees (Moved f) Eq R (Check.within inLoop function cls x) (Check.within inLoop function cls y) :=
  (agrees_modify _).next fun _ => h.bind fun _ _ hab => agrees_leave.next fun _ => .pure hab

theorem pos_of_expr {t : Tree.Expr} {e : Expr} {st st' : State} (h : Check.expr t st = .ok e st') :
    (t.move f).pos = f t.pos :=
  pos_of_infer (Check.expr_ok.1 h).1

theorem pos_of_target {t : Tree.Expr} {e : Expr} {st st' : State} (h : Check.target t st = .ok e st') :
    (t.move f).pos = f t.pos :=
  pos_of_infer (Check.target_ok.1 h).1

/-! ### Declarations -/

theorem agrees_newVariable (name : String) (init : Option Expr) (t : Ty) (p : Pos) :
    Agrees (Moved f) Eq (Like Stmt.bare) (Check.newVariable name init t p)
      (Check.newVariable name init t (f p)) :=
  agrees_fresh.next fun _ => (agrees_declare _ _ p).next fun _ => .pure rfl

theorem moved_slotType (t : Option Ty) (e : Option Expr) (p : Pos) :
    Parallel (Moved f) Eq (Check.slotType t e p) (Check.slotType t e (f p)) := by
  unfold Check.slotType
  split
  · exact (moved_require _ _ _).bind fun _ _ => .ok _
  · exact .ok _
  · exact .ok _
  · exact .ok _

theorem agrees_params (ps : List Tree.Param) :
    Agrees (Moved f) Eq Eq (Check.params ps) (Check.params (ps.map (·.move f))) := by
  induction ps with
  | nil => exact .pure rfl
  | cons q ps ih =>
    refine (agrees_type? q.type).next fun _ => (agrees_part _ _).next fun _ => agrees_fresh.next fun _ => ?_
    exact (agrees_declare _ _ _).next fun _ => ih.next fun _ => .pure rfl

theorem agrees_announce (cls : Option Entity) (e : Entity) (p : Pos) :
    Agrees (Moved f) Eq Eq (Check.announce cls e p) (Check.announce cls e (f p)) := by
  cases cls with
  | none => exact agrees_declare _ _ _
  | some c => exact agrees_require _ _ _

theorem agrees_settle (cls : Option Entity) (e : Entity) :
    Agrees (Moved f) Eq Eq (Check.settle cls e) (Check.settle cls e) := by
  cases cls with
  | none => exact agrees_modify _
  | some c => exact agrees_modify _

theorem agrees_function (cls : Option Entity) (name : String) (ps : List Tree.Param)
    (returns : Option Tree.TypeExpr) {body body' : Check (List Stmt)}
    (hb : Agrees (Moved f) Eq (Like bareBlock) body body') :
    Agrees (Moved f) Eq (Like Function.bare) (Check.function cls p name ps returns body)
      (Check.function cls (f p) name (ps.map (·.move f)) (returns.map (·.move f)) body') := by
  refine (agrees_type? returns).next fun _ => agrees_fresh.next fun _ => ?_
  refine (agrees_announce _ _ _).next fun _ => agrees_within ((agrees_params ps).next fun qs => ?_)
  refine (agrees_settle _ _).next fun _ => hb.bind fun b b' hb => ?_
  exact .pure (congrArg (Function.mk _ _ · .unknown) hb)

theorem agrees_field (id : Nat) (t : Option Tree.TypeExpr) (name : String) (init : Option Tree.Expr) :
    Agrees (Moved f) Eq Eq (Check.field id p t name init)
      (Check.field id (f p) (t.map (·.move f)) name (init.map (·.move f))) := by
  have hinit : (init.map (·.move f)).isNone = init.isNone := by cases init <;> rfl
  rw [Check.field, Check.field, hinit]
  refine (agrees_lift_require _ _ _).next fun _ => (agrees_require _ _ _).next fun _ => ?_
  exact (agrees_type? t).next fun _ => agrees_modify _

theorem agrees_fields (id : Nat) (body : List Tree.Stmt) :
    Agrees (Moved f) Eq Eq (Check.fields id body) (Check.fields id (Tree.moveBlock f body)) := by
  induction body with
  | nil => exact .pure rfl
  | cons s body ih =>
    cases s with
    | varDecl p t name init => exact (agrees_field id t name init).next fun _ => ih
    | absent part => exact .throw (moved_missing part)
    | ifChain p t b cs rest => cases rest <;> exact ih
    | _ => exact ih

/-! ### Control flow -/

theorem agrees_test (e : Tree.Expr) :
    Agrees (Moved f) Eq Eq (Check.test e) (Check.test (e.move f)) := by
  refine (agrees_expr e).nextOk fun _ _ _ he => ?_
  rw [pos_of_expr he]
  exact (agrees_lift_require _ _ _).next fun _ => .pure rfl

theorem agrees_bound (e : Tree.Expr) :
    Agrees (Moved f) Eq Eq (Check.bound e) (Check.bound (e.move f)) := by
  refine (agrees_expr e).nextOk fun _ _ _ he => ?_
  rw [pos_of_expr he]
  exact (agrees_lift_require _ _ _).next fun _ => .pure rfl

theorem agrees_iterators (is : List (String × Ty)) (p : Pos) :
    Agrees (Moved f) Eq Eq (Check.iterators p is) (Check.iterators (f p) is) := by
  induction is with
  | nil => exact .pure rfl
  | cons i is ih =>
    exact agrees_fresh.next fun _ => (agrees_declare _ _ _).next fun _ => ih.next fun _ => .pure rfl

theorem moved_requirePlace (t : Expr) (p : Pos) :
    Parallel (Moved f) Eq (Check.requirePlace t p) (Check.requirePlace t (f p)) := by
  unfold Check.requirePlace
  split
  · exact moved_at _ p
  · exact moved_at _ p
  · exact moved_at _ p
  · exact moved_at _ p
  · exact moved_at _ p
  · exact .ok _

theorem agrees_target (e : Tree.Expr) :
    Agrees (Moved f) Eq Eq (Check.target e) (Check.target (e.move f)) := by
  refine (agrees_expr e).nextOk fun _ _ _ he => ?_
  rw [pos_of_expr he]
  exact (agrees_lift (moved_requirePlace _ _)).next fun _ => .pure rfl

theorem moved_rangeOp (op : Option RangeOp) (p : Pos) :
    Parallel (Moved f) Eq (Check.rangeOp p op) (Check.rangeOp (f p) op) := by
  unfold Check.rangeOp
  split
  · exact moved_missing _
  · exact moved_at _ p
  · exact .ok _

theorem agrees_rangeLoop (name : Option String) (low : Tree.Expr) (op : Option RangeOp) (high : Tree.Expr)
    {body body' : Check (List Stmt)} (hb : Agrees (Moved f) Eq (Like bareBlock) body body') :
    Agrees (Moved f) Eq (Like Stmt.bare) (Check.rangeLoop p name low op high body)
      (Check.rangeLoop (f p) name (low.move f) op (high.move f) body') := by
  refine (agrees_bound low).next fun _ => (agrees_bound high).next fun _ => (agrees_part _ _).next fun _ => ?_
  refine agrees_fresh.next fun _ => ?_
  refine (agrees_within ((agrees_declare _ _ p).next fun _ => hb)).bind fun b b' hb => ?_
  exact (agrees_lift (moved_rangeOp op p)).next fun _ =>
    .pure (congrArg (Stmt.rangeLoop _ _ _ _ · .unknown) hb)

theorem moved_elementTypes (t : Ty) (p : Pos) :
    Parallel (Moved f) Eq (Check.elementTypes t p) (Check.elementTypes t (f p)) := by
  unfold Check.elementTypes
  split
  · exact .ok _
  · exact .ok _
  · exact moved_at _ p

theorem agrees_eachLoop (names : Option (List String)) (e : Tree.Expr) {body body' : Check (List Stmt)}
    (hb : Agrees (Moved f) Eq (Like bareBlock) body body') :
    Agrees (Moved f) Eq (Like Stmt.bare) (Check.eachLoop p names e body)
      (Check.eachLoop (f p) names (e.move f) body') := by
  refine (agrees_expr e).nextOk fun _ _ _ he => ?_
  rw [pos_of_expr he]
  refine (agrees_lift (moved_elementTypes _ _)).next fun _ => (agrees_part _ _).next fun _ => ?_
  refine (agrees_lift_require _ _ _).next fun _ => agrees_within ((agrees_iterators _ _).next fun _ => ?_)
  exact hb.bind fun b b' hb => .pure (congrArg (Stmt.eachLoop _ _ · .unknown) hb)

theorem agrees_ret (value : Option Tree.Expr) :
    Agrees (Moved f) Eq (Like Stmt.bare) (Check.ret p value) (Check.ret (f p) (value.map (·.move f))) := by
  refine agrees_get.next fun st => ?_
  split
  · exact .throw (moved_at _ p)
  · cases value with
    | none => exact (agrees_lift_require _ _ _).next fun _ => .pure rfl
    | some e =>
      refine (agrees_lift_require _ _ _).next fun _ => (agrees_expr e).nextOk fun _ _ _ he => ?_
      rw [pos_of_expr he]
      exact (agrees_lift_require _ _ _).next fun _ => .pure rfl

theorem agrees_assign (place value : Tree.Expr) :
    Agrees (Moved f) Eq (Like Stmt.bare) (Check.assign p place value)
      (Check.assign (f p) (place.move f) (value.move f)) := by
  refine (agrees_expr value).next fun _ => (agrees_target place).nextOk fun _ _ _ ht => ?_
  rw [pos_of_target ht]
  exact (agrees_lift_require _ _ _).next fun _ => .pure rfl

theorem agrees_addAssign (place value : Tree.Expr) :
    Agrees (Moved f) Eq (Like Stmt.bare) (Check.addAssign p place value)
      (Check.addAssign (f p) (place.move f) (value.move f)) := by
  refine (agrees_expr value).next fun _ => (agrees_target place).nextOk fun _ _ _ ht => ?_
  rw [pos_of_target ht]
  exact (agrees_lift_require _ _ _).next fun _ => (agrees_lift_require _ _ _).next fun _ => .pure rfl

theorem agrees_bump (e : Tree.Expr) (op : Option BumpOp) :
    Agrees (Moved f) Eq (Like Stmt.bare) (Check.bump p e op) (Check.bump (f p) (e.move f) op) := by
  refine (agrees_target e).nextOk fun _ _ _ ht => ?_
  rw [pos_of_target ht]
  refine (agrees_lift_require _ _ _).next fun _ => (agrees_part _ _).next fun op => ?_
  split
  · exact .pure rfl
  · exact .pure rfl

end Steps

/-! ### Statements -/

namespace Check

def Clause.bare (c : Clause) : Clause := ⟨c.test, bareBlock c.body, .unknown⟩

theorem bare_clauses (cs : List Clause) (rest : Else) :
    (clauses cs rest).bare = clauses (cs.map Clause.bare) rest.bare := by
  induction cs with
  | nil => rfl
  | cons c cs ih => exact congrArg (Else.elseIf _ _ · .unknown) ih

theorem bare_ifElse {t : Expr} {b b' : List Stmt} {cs cs' : List Clause} {rest rest' : Else} {p q : Pos}
    (hb : bareBlock b = bareBlock b') (hcs : cs.map Clause.bare = cs'.map Clause.bare)
    (hr : rest.bare = rest'.bare) :
    (Stmt.ifElse t b (clauses cs rest) p).bare = (Stmt.ifElse t b' (clauses cs' rest') q).bare := by
  rw [Stmt.bare, Stmt.bare, bare_clauses, bare_clauses, hb, hcs, hr]

end Check

theorem getD_move (ps : Option (List Tree.Param)) :
    (ps.map (·.map (·.move f))).getD [] = (ps.getD []).map (·.move f) := by
  cases ps <;> rfl

theorem isMember_move (t : Tree.Stmt) : isMember (t.move f) = isMember t := by
  cases t with
  | ifChain p t b cs rest => cases rest <;> rfl
  | _ => rfl

theorem kind_move (t : Tree.Stmt) : (t.move f).kind = t.kind := by
  cases t with
  | ifChain p t b cs rest => cases rest <;> rfl
  | function p name ps returns body => cases ps <;> rfl
  | _ => rfl

mutual

theorem agrees_stmt : ∀ t : Tree.Stmt,
    Agrees (Moved f) Eq (Like Stmt.bare) (Check.stmt t) (Check.stmt (t.move f))
  | .varDecl p t name init =>
    (agrees_require _ _ _).next fun _ => (agrees_type? t).next fun _ => (agrees_expr? init).next fun _ =>
      (agrees_lift (moved_slotType _ _ _)).next fun _ => agrees_newVariable _ _ _ _
  | .collection p name e =>
    (agrees_require _ _ _).next fun _ => (agrees_expr e).next fun _ => agrees_newVariable _ _ _ _
  | .function p name ps returns body => by
    rw [Tree.Stmt.move, Tree.Stmt.change, Check.stmt, Check.stmt, getD_move]
    exact (agrees_function none name _ returns (agrees_block body)).bind fun _ _ hf =>
      .pure (congrArg (Stmt.function · .unknown) hf)
  | .classDecl p name body =>
    agrees_fresh.next fun _ => (agrees_declare _ _ _).next fun _ =>
      (agrees_within ((agrees_fields _ body).next fun _ => agrees_methods _ body)).bind fun _ _ hfs =>
        agrees_get.next fun _ => .pure (congrArg (Stmt.classDecl _ _ · .unknown) hfs)
  | .ifChain p t body cs none =>
    (agrees_test t).next fun _ => (agrees_within (agrees_block body)).bind fun _ _ hb =>
      (agrees_elseIfClauses cs).bind fun _ _ hcs => .pure (Check.bare_ifElse hb hcs rfl)
  | .ifChain p t body cs (some rest) =>
    (agrees_test t).next fun _ => (agrees_within (agrees_block body)).bind fun _ _ hb =>
      (agrees_elseIfClauses cs).bind fun _ _ hcs => (agrees_within (agrees_block rest)).bind fun _ _ hr =>
        .pure (Check.bare_ifElse hb hcs (congrArg Else.block hr))
  | .whileLoop p t body =>
    (agrees_test t).next fun _ => (agrees_within (agrees_block body)).bind fun _ _ hb =>
      .pure (congrArg (Stmt.whileLoop _ · .unknown) hb)
  | .rangeLoop p name low op high body => agrees_rangeLoop name low op high (agrees_block body)
  | .eachLoop p names e body => agrees_eachLoop names e (agrees_block body)
  | .print p es => (agrees_ask fun st => moved_inferAll st es).next fun _ => .pure rfl
  | .ret p value => agrees_ret value
  | .brk p => (agrees_require _ _ _).next fun _ => .pure rfl
  | .assign p place value => agrees_assign place value
  | .addAssign p place value => agrees_addAssign place value
  | .bump p place op => agrees_bump place op
  | .call p callee args => by
    have hcall := agrees_expr (f := f) (.call p callee args)
    rw [Tree.Expr.move_call] at hcall
    exact hcall.next fun _ => .pure rfl
  | .unknown p kind => .throw (moved_at _ p)
  | .absent part => .throw (moved_missing part)
  | .incomplete part => .throw (moved_missing part)

theorem agrees_block : ∀ ts : List Tree.Stmt,
    Agrees (Moved f) Eq (Like bareBlock) (Check.block ts) (Check.block (Tree.moveBlock f ts))
  | [] => .pure rfl
  | t :: ts =>
    (agrees_stmt t).bind fun _ _ hs => (agrees_block ts).bind fun _ _ hss =>
      .pure (congrArg₂ List.cons hs hss)

theorem agrees_elseIfClauses : ∀ cs : List Tree.ElseIf,
    Agrees (Moved f) Eq (Like (List.map Check.Clause.bare)) (Check.elseIfClauses cs)
      (Check.elseIfClauses (Tree.moveClauses f cs))
  | [] => .pure rfl
  | .mk _ t body :: cs =>
    (agrees_test t).next fun _ => (agrees_within (agrees_block body)).bind fun _ _ hb =>
      (agrees_elseIfClauses cs).bind fun _ _ hcs =>
        .pure (congrArg₂ List.cons (congrArg (Check.Clause.mk _ · .unknown) hb) hcs)

theorem agrees_methods (cls : Entity) : ∀ ts : List Tree.Stmt,
    Agrees (Moved f) Eq (Like bareFunctions) (Check.methods cls ts)
      (Check.methods cls (Tree.moveBlock f ts))
  | [] => .pure rfl
  | t :: ts => by
    cases hk : isMember t with
    | true =>
      cases t with
      | varDecl p t name init => exact agrees_methods cls ts
      | function p name ps returns body =>
        rw [Tree.moveBlock, Tree.changeBlock, Tree.Stmt.change, Check.methods, Check.methods, getD_move]
        exact (agrees_function (some cls) name _ returns (agrees_block body)).bind fun _ _ hf =>
          (agrees_methods cls ts).bind fun _ _ hfs => .pure (congrArg₂ List.cons hf hfs)
      | _ => simp [isMember] at hk
    | false =>
      show Agrees _ _ _ _ (Check.methods cls (t.move f :: Tree.moveBlock f ts))
      rw [Check.methods_leftOut hk, Check.methods_leftOut ((isMember_move t).trans hk), kind_move]
      exact (agrees_stmt t).bind fun _ _ _ => (agrees_modify _).next fun _ => agrees_methods cls ts

end

end Moves

/-- A tree whose places are taken elsewhere gives the same program up to places, or breaks the same rule
where the place of the first fault is taken to. -/
theorem moved_analyze (f : Pos → Pos) (tree : Tree.Program) :
    Parallel (Moved f) (Like Program.bare) (analyze tree).1 (analyze (Tree.moveBlock f tree)).1 := by
  have hboth := agrees_block (f := f) tree .initial .initial rfl
  unfold analyze
  cases h : Check.block tree .initial <;> cases h' : Check.block (Tree.moveBlock f tree) .initial <;>
    rw [h, h'] at hboth
  · exact congrArg Program.mk hboth.2
  · exact hboth.elim
  · exact hboth.elim
  · exact hboth

/-- Without its places a tree gives the same program, or breaks the same rule. -/
theorem same_analyze_bare (tree : Tree.Program) :
    Same (Program.bare <$> (analyze tree).1) (Program.bare <$> (analyze (Tree.bareBlock tree)).1) := by
  have hmoved : Parallel _ (Like Program.bare) (analyze tree).1 (analyze (Tree.bareBlock tree)).1 :=
    moved_analyze (fun _ => .unknown) tree
  rcases hmoved.cases with ⟨p, q, hp, hq, hpq⟩ | ⟨e, d, he, hd, hed⟩
  · rw [hp, hq]
    exact congrArg Except.ok hpq
  · rw [he, hd]
    exact congrArg Except.error hed.cause

/-- Trees that differ in places only are analysed alike. -/
theorem same_analyze {a b : Tree.Program} (h : Tree.bareBlock a = Tree.bareBlock b) :
    Same (Program.bare <$> (analyze a).1) (Program.bare <$> (analyze b).1) := by
  calc
    _ = _ := same_analyze_bare a
    _ = _ := by rw [h]
    _ = _ := (same_analyze_bare b).symm

end Snack.Typing
