import Snack.Proofs.Typing.Blocks

/-! The scopes that an analysis leaves open. A step that succeeds ends in the scope it began in, with new
names at most. A step that fails may leave scopes open that it opened, but around them is the scope it
began in, where every name still stands for what it did. -/

namespace Snack.Typing

open Snack.Core

/-! ### Scopes behind a step -/

/-- The scope has new names at most, and the scopes around it are as they were. -/
def Extends (st st' : State) : Prop := ∃ es, Grows st st' (State.names es) ∧ Apart st es

/-- The scope is open, with new names at most, and so are the scopes around it. More of them may be open
inside of it. -/
def StaysOpen (st st' : State) : Prop :=
  ∃ before, Extends st before ∧ before.scope :: before.outer <:+ st'.scope :: st'.outer

/-- One more scope is open, inside of the scope with new names at most. -/
def OneInside (st st' : State) : Prop :=
  ∃ before, Extends st before ∧ st'.outer = before.scope :: before.outer

section Extending

variable {st st₁ st' : State}

theorem Extends.refl (st : State) : Extends st st := ⟨[], .refl st, .nil⟩

theorem Extends.of_scopes (hs : st'.scope = st.scope) (ho : st'.outer = st.outer) : Extends st st' :=
  ⟨[], ⟨hs, ho⟩, .nil⟩

theorem Extends.trans (h : Extends st st₁) (h' : Extends st₁ st') : Extends st st' := by
  obtain ⟨es, hg, ha⟩ := h
  obtain ⟨ds, hg', hd⟩ := h'
  refine ⟨es ++ ds, ?_, ha.append hg hd⟩
  rw [State.names_append]
  exact hg.trans hg'

theorem Extends.add {e : Entity} (h : st.isLocal e.name = false) : Extends st (st.add e) :=
  ⟨[e], .add st e, .one h⟩

theorem Extends.staysOpen (h : Extends st st') : StaysOpen st st' := ⟨st', h, List.suffix_rfl⟩

/-- A scope that was opened, with names that are declared in it since. -/
theorem OneInside.extends (h : OneInside st st₁) (h' : Extends st₁ st') : OneInside st st' := by
  obtain ⟨before, hb, ho⟩ := h
  obtain ⟨es, hg, -⟩ := h'
  exact ⟨before, hb, hg.outer.trans ho⟩

theorem StaysOpen.after (h : StaysOpen st₁ st') (hx : Extends st st₁) : StaysOpen st st' := by
  obtain ⟨before, hb, hsuffix⟩ := h
  exact ⟨before, hx.trans hb, hsuffix⟩

theorem StaysOpen.inside (h : StaysOpen st₁ st') (hx : OneInside st st₁) : StaysOpen st st' := by
  obtain ⟨inner, hi, hsuffix⟩ := h
  obtain ⟨before, hb, ho⟩ := hx.extends hi
  refine ⟨before, hb, .trans ?_ hsuffix⟩
  rw [← ho]
  exact List.suffix_cons _ _

end Extending

/-! ### Single steps -/

/-- What a step leaves of the scopes of `st`: `Q` of them where it succeeds, and that they stay open where
it fails. -/
def Ends {α : Type} (st : State) (Q : State → Prop) : EStateM.Result Error State α → Prop
  | .ok _ st' => Q st'
  | .error _ st' => StaysOpen st st'

/-- A step that keeps the scopes it finds, whatever they are. -/
def Orderly {α : Type} (x : Check α) : Prop := ∀ st, Ends st (Extends st) (x st)

section Steps

variable {α β : Type} {x : Check α} {f : α → Check β} {st st₁ st' : State} {Q : State → Prop}

theorem Orderly.fails {e : Error} (hx : Orderly x) (h : x st = .error e st') : StaysOpen st st' := by
  have hends := hx st
  rwa [h] at hends

theorem Orderly.succeeds {a : α} (hx : Orderly x) (h : x st = .ok a st') : Extends st st' := by
  have hends := hx st
  rwa [h] at hends

theorem ends_bind (he : ∀ e st₂, x st₁ = .error e st₂ → StaysOpen st st₂)
    (hf : ∀ a st₂, x st₁ = .ok a st₂ → Ends st Q (f a st₂)) : Ends st Q ((x >>= f) st₁) := by
  show Ends st Q (EStateM.bind x f st₁)
  unfold EStateM.bind
  cases h : x st₁ with
  | error e st₂ => exact he e st₂ h
  | ok a st₂ => exact hf a st₂ h

theorem Orderly.bind (hx : Orderly x) (hf : ∀ a, Orderly (f a)) : Orderly (x >>= f) := by
  intro st
  refine ends_bind (fun _ _ h => hx.fails h) fun a st₁ h => ?_
  have hfirst := hx.succeeds h
  cases hrest : f a st₁ with
  | error e st₂ => exact ((hf a).fails hrest).after hfirst
  | ok b st₂ => exact hfirst.trans ((hf a).succeeds hrest)

theorem Orderly.pure (a : α) : Orderly (pure a) := fun st => .refl st

theorem Orderly.throw (e : Error) : Orderly (throw e : Check α) := fun st => (Extends.refl st).staysOpen

theorem orderly_ask (q : State → Except Error α) : Orderly (Check.ask q) := by
  intro st
  unfold Check.ask
  split
  · exact Extends.refl st
  · exact (Extends.refl st).staysOpen

theorem orderly_lift (r : Except Error α) : Orderly (Check.lift r) := orderly_ask _

theorem orderly_fresh : Orderly Check.fresh := fun _ => .of_scopes rfl rfl

theorem orderly_get : Orderly (get : Check State) := fun st => .refl st

/-- Only a name that is new in its scope is declared. -/
theorem orderly_declare (e : Entity) (p : Pos) : Orderly (Check.declare e.name e p) := by
  intro st
  refine ends_bind (fun _ _ h => (orderly_ask _).fails h) fun _ st₁ h => ?_
  obtain ⟨hn, rfl⟩ := Check.notDeclared_ok.1 h
  exact ⟨[e], ⟨rfl, rfl⟩, .one hn⟩

end Steps

/-! ### Steps in scopes of their own -/

section Scopes

variable {α : Type} {x : Check α} {st st₁ : State} {l : Option Bool} {c : Option Callable}
  {k : Option Entity}

theorem Orderly.ends_oneInside (hx : Orderly x) (h : OneInside st st₁) :
    Ends st (OneInside st) (x st₁) := by
  cases hr : x st₁ with
  | error e st₂ => exact (hx.fails hr).inside h
  | ok a st₂ => exact h.extends (hx.succeeds hr)

/-- A scope that was opened can be closed, and the names are then those of the scope around it. -/
theorem ends_within (h : Ends st (OneInside st) (x (st₁.enter l c k))) :
    Ends st (Extends st) (Check.within l c k x st₁) := by
  show Ends st _ (EStateM.bind x (fun a => Check.leave >>= fun _ => pure a) (st₁.enter l c k))
  unfold EStateM.bind
  cases hx : x (st₁.enter l c k) with
  | error e st₂ =>
    rw [hx] at h
    exact h
  | ok a st₂ =>
    rw [hx] at h
    obtain ⟨before, hb, ho⟩ := h
    have hleave : Check.leave st₂ = .ok () (st₂.backTo before) :=
      Check.leave_ok.2 (State.exit?_backTo ho)
    show Ends st _ (EStateM.bind Check.leave (fun _ => pure a) st₂)
    unfold EStateM.bind
    rw [hleave]
    exact hb.trans (.of_scopes rfl rfl)

theorem orderly_within (hx : Orderly x) : Orderly (Check.within l c k x) := fun st =>
  ends_within (hx.ends_oneInside ⟨st, .refl st, rfl⟩)

end Scopes

/-! ### Parts of statements -/

section Parts

variable {p : Pos} {body : Check (List Stmt)}

theorem orderly_type? (t : Option Tree.TypeExpr) : Orderly (Check.type? t) := by
  cases t with
  | none => exact .pure _
  | some t => exact (orderly_ask _).bind fun _ => .pure _

theorem orderly_expr? (e : Option Tree.Expr) : Orderly (Check.expr? e) := by
  cases e with
  | none => exact .pure _
  | some e => exact (orderly_ask _).bind fun _ => .pure _

/-- A check of what an expression is, which then stands for itself. -/
theorem orderly_checked (e : Tree.Expr) (r : Expr → Except Error Unit) :
    Orderly (Check.expr e >>= fun t => Check.lift (r t) >>= fun _ => pure t) :=
  (orderly_ask _).bind fun _ => (orderly_lift _).bind fun _ => .pure _

theorem orderly_newVariable (name : String) (init : Option Expr) (t : Ty) :
    Orderly (Check.newVariable name init t p) :=
  orderly_fresh.bind fun id => (orderly_declare ⟨id, .var true, name, t⟩ p).bind fun _ => .pure _

theorem orderly_params (qs : List Tree.Param) : Orderly (Check.params qs) := by
  induction qs with
  | nil => exact .pure _
  | cons q qs ih =>
    exact (orderly_type? _).bind fun t => (orderly_lift _).bind fun name => orderly_fresh.bind fun id =>
      (orderly_declare ⟨id, .parameter, name, t.getD .any⟩ q.pos).bind fun _ => ih.bind fun _ => .pure _

theorem orderly_iterators (ns : List (String × Ty)) : Orderly (Check.iterators p ns) := by
  induction ns with
  | nil => exact .pure _
  | cons n ns ih =>
    exact orderly_fresh.bind fun id => (orderly_declare ⟨id, .var false, n.1, n.2⟩ p).bind fun _ =>
      ih.bind fun _ => .pure _

/-- A function is declared once: what it is known as until its parameters are read is replaced by what it
stays known as. -/
theorem orderly_function (name : String) (ps : List Tree.Param) (returns : Option Tree.TypeExpr)
    (hb : Orderly body) : Orderly (Check.function none p name ps returns body) := by
  intro st
  refine ends_bind (fun _ _ h => (orderly_type? returns).fails h) fun r st₁ hr => ?_
  obtain ⟨-, rfl⟩ := Check.type?_ok.1 hr
  refine ends_bind (fun _ _ h => orderly_fresh.fails h) fun id st₁ hid => ?_
  obtain ⟨rfl, rfl⟩ := Check.fresh_ok.1 hid
  have hskip : Extends st st.skip := .of_scopes rfl rfl
  refine ends_bind (fun _ _ h => ((orderly_declare _ p).fails h).after hskip) fun _ st₁ hd => ?_
  obtain ⟨hn, rfl⟩ := Check.declare_ok.1 hd
  have hn : st.isLocal name = false := hn
  refine ends_within ?_
  let f (qs : List Entity) : Entity := functionEntity st.next false name qs (r.getD .void)
  have hknown (qs : List Entity) : Extends st (st.add (f qs)) := .add hn
  refine ends_bind (fun _ _ h => ?_) fun qs st₁ hq => ?_
  · exact ((orderly_params ps).fails h).inside ⟨st.add (f []), hknown [], rfl⟩
  obtain ⟨rfl, -⟩ := Check.params_ok hq
  refine ends_bind (fun _ _ h => by cases h) fun _ st₁ hs => ?_
  obtain rfl := modify_ok.1 hs
  have hset := State.settle_announced (d := f []) (f := f qs) (l := some false)
    (c := some ⟨name, r.getD .void⟩) (k := none) qs hn rfl
  refine (hb.bind fun ss => .pure _).ends_oneInside ⟨st.add (f qs), hknown qs, ?_⟩
  exact (congrArg State.outer hset).trans (State.addAll_outer _ _)

theorem orderly_addMethod (c f : Entity) : Orderly (Check.settle (some c) f) :=
  fun _ => .of_scopes rfl rfl

theorem orderly_addField (id : Nat) (f : Field) : Orderly (modify (·.addField id f) : Check Unit) :=
  fun _ => .of_scopes rfl rfl

theorem orderly_drop (kind cls : String) : Orderly (Check.drop kind cls) :=
  fun _ => .of_scopes rfl rfl

theorem orderly_method (c : Entity) (name : String) (ps : List Tree.Param)
    (returns : Option Tree.TypeExpr) (hb : Orderly body) :
    Orderly (Check.function (some c) p name ps returns body) := by
  refine (orderly_type? returns).bind fun _ => orderly_fresh.bind fun _ =>
    (orderly_ask _).bind fun _ => orderly_within ?_
  exact (orderly_params ps).bind fun _ => (orderly_addMethod _ _).bind fun _ => hb.bind fun _ => .pure _

theorem orderly_fields (id : Nat) (ts : List Tree.Stmt) : Orderly (Check.fields id ts) := by
  induction ts with
  | nil => exact .pure _
  | cons t ts ih =>
    cases t with
    | varDecl p t name init =>
      refine Orderly.bind ?_ fun _ => ih
      exact (orderly_lift _).bind fun _ => (orderly_ask _).bind fun _ => (orderly_type? t).bind fun _ =>
        orderly_addField _ _
    | absent part => exact .throw _
    | _ => exact ih

theorem orderly_ret (value : Option Tree.Expr) : Orderly (Check.ret p value) := by
  refine orderly_get.bind fun st => ?_
  cases st.scope.function with
  | none => exact .throw _
  | some f =>
    cases value with
    | none => exact (orderly_lift _).bind fun _ => .pure _
    | some value =>
      exact (orderly_lift _).bind fun _ => (orderly_ask _).bind fun _ => (orderly_lift _).bind fun _ =>
        .pure _

theorem orderly_bump (place : Tree.Expr) (op : Option BumpOp) : Orderly (Check.bump p place op) := by
  refine (orderly_checked place _).bind fun _ => (orderly_lift _).bind fun _ =>
    (orderly_lift _).bind fun op => ?_
  cases op <;> exact .pure _

theorem orderly_classDecl {name : String} {ts : List Tree.Stmt} {methods : Entity → Check (List Function)}
    (hm : ∀ cls, Orderly (methods cls)) : Orderly (Check.classDecl p name ts methods) := by
  refine orderly_fresh.bind fun id => (orderly_declare (classEntity id name) p).bind fun _ =>
    (orderly_within ?_).bind fun _ => orderly_get.bind fun _ => .pure _
  exact (orderly_fields id ts).bind fun _ => hm _

theorem orderly_rangeLoop (name : Option String) (low high : Tree.Expr) (op : Option RangeOp)
    (hb : Orderly body) : Orderly (Check.rangeLoop p name low op high body) := by
  refine (orderly_checked low _).bind fun lo => (orderly_checked high _).bind fun _ =>
    (orderly_lift _).bind fun name => orderly_fresh.bind fun id => ?_
  refine (orderly_within ?_).bind fun _ => (orderly_lift _).bind fun _ => .pure _
  exact (orderly_declare ⟨id, .var false, name, lo.typ⟩ p).bind fun _ => hb

theorem orderly_eachLoop (names : Option (List String)) (coll : Tree.Expr) (hb : Orderly body) :
    Orderly (Check.eachLoop p names coll body) := by
  refine (orderly_ask _).bind fun _ => (orderly_lift _).bind fun _ => (orderly_lift _).bind fun _ =>
    (orderly_lift _).bind fun _ => orderly_within ?_
  exact (orderly_iterators _).bind fun _ => hb.bind fun _ => .pure _

end Parts

/-! ### Statements -/

mutual

theorem orderly_stmt (t : Tree.Stmt) : Orderly (Check.stmt t) := by
  cases t with
  | varDecl p t name init =>
    exact (orderly_ask _).bind fun _ => (orderly_type? t).bind fun _ => (orderly_expr? init).bind fun _ =>
      (orderly_lift _).bind fun _ => orderly_newVariable _ _ _
  | collection p name value =>
    exact (orderly_ask _).bind fun _ => (orderly_ask _).bind fun _ => orderly_newVariable _ _ _
  | function p name ps returns body =>
    rw [Check.stmt]
    exact (orderly_function name _ returns (orderly_block body)).bind fun _ => .pure _
  | classDecl p name body =>
    rw [Check.stmt]
    exact orderly_classDecl fun cls => orderly_methods cls body
  | ifChain p cond body elseIfs elsePart =>
    cases elsePart with
    | none =>
      exact (orderly_checked cond _).bind fun _ => (orderly_within (orderly_block body)).bind fun _ =>
        (orderly_clauses elseIfs).bind fun _ => .pure _
    | some elsePart =>
      exact (orderly_checked cond _).bind fun _ => (orderly_within (orderly_block body)).bind fun _ =>
        (orderly_clauses elseIfs).bind fun _ => (orderly_within (orderly_block elsePart)).bind fun _ =>
        .pure _
  | whileLoop p cond body =>
    exact (orderly_checked cond _).bind fun _ => (orderly_within (orderly_block body)).bind fun _ =>
      .pure _
  | rangeLoop p name low op high body => exact orderly_rangeLoop name low high op (orderly_block body)
  | eachLoop p names coll body => exact orderly_eachLoop names coll (orderly_block body)
  | ret p value => exact orderly_ret value
  | brk p => exact (orderly_ask _).bind fun _ => .pure _
  | print p exprs => exact (orderly_ask _).bind fun _ => .pure _
  | assign p place value =>
    exact (orderly_ask _).bind fun _ => (orderly_checked place _).bind fun _ =>
      (orderly_lift _).bind fun _ => .pure _
  | addAssign p place value =>
    exact (orderly_ask _).bind fun _ => (orderly_checked place _).bind fun _ =>
      (orderly_lift _).bind fun _ => (orderly_lift _).bind fun _ => .pure _
  | bump p place op => exact orderly_bump place op
  | call p callee args => exact (orderly_ask _).bind fun _ => .pure _
  | unknown p kind => exact .throw _
  | absent part => exact .throw _
  | incomplete part => exact .throw _

theorem orderly_block (ts : List Tree.Stmt) : Orderly (Check.block ts) := by
  cases ts with
  | nil => exact .pure _
  | cons t ts => exact (orderly_stmt t).bind fun _ => (orderly_block ts).bind fun _ => .pure _

theorem orderly_clauses (cs : List Tree.ElseIf) : Orderly (Check.elseIfClauses cs) := by
  cases cs with
  | nil => exact .pure _
  | cons c cs =>
    obtain ⟨p, cond, body⟩ := c
    exact (orderly_checked cond _).bind fun _ => (orderly_within (orderly_block body)).bind fun _ =>
      (orderly_clauses cs).bind fun _ => .pure _

theorem orderly_methods (cls : Entity) (ts : List Tree.Stmt) : Orderly (Check.methods cls ts) := by
  cases ts with
  | nil => exact .pure _
  | cons t ts =>
    cases hk : isMember t with
    | false =>
      rw [Check.methods_leftOut hk]
      exact (orderly_stmt t).bind fun _ => (orderly_drop _ _).bind fun _ => orderly_methods cls ts
    | true =>
      cases t with
      | varDecl p t name init => exact orderly_methods cls ts
      | function p name ps returns body =>
        exact (orderly_method cls name _ returns (orderly_block body)).bind fun _ =>
          (orderly_methods cls ts).bind fun _ => .pure _
      | _ => cases hk

end

/-! ### The discipline -/

/-- The name that a statement declares in the scope it stands in. -/
def declaredName? : Tree.Stmt → Option String
  | .varDecl _ _ name _ | .collection _ name _ | .function _ name _ _ _ | .classDecl _ name _ => some name
  | _ => none

theorem names_of_accepted {t : Tree.Stmt} {st st' : State} {s : Stmt}
    (h : Accepts (.stmt t) st (.stmt s) st') : s.binds.map (·.name) = (declaredName? t).toList := by
  cases h <;> rfl

/-- What is known when a step is over. -/
def stateAfter {α : Type} : EStateM.Result Error State α → State
  | .ok _ st | .error _ st => st

theorem stateAfter_ask {α : Type} (q : State → Except Error α) (st : State) :
    stateAfter (Check.ask q st) = st := by
  unfold Check.ask
  split <;> rfl

/-- From any state, expressions and types change nothing, whether they fail or not. A statement that
succeeds adds to its scope the one name that it declares, which was not there, or none if it declares none,
and leaves the scopes around it as they were. A statement that fails leaves its scope open, with no name
removed or bound anew. -/
theorem scopes_kept (st : State) :
    (∀ e, stateAfter (Check.expr e st) = st) ∧ (∀ t, stateAfter (Check.type t st) = st) ∧
      (∀ t s st', Check.stmt t st = .ok s st' → ∃ es, Grows st st' (State.names es) ∧ Apart st es ∧
        es.map (·.name) = (declaredName? t).toList) ∧
      ∀ t e st', Check.stmt t st = .error e st' → StaysOpen st st' := by
  refine ⟨fun _ => stateAfter_ask _ st, fun _ => stateAfter_ask _ st, fun t s st' h => ?_,
    fun t e st' h => (orderly_stmt t).fails h⟩
  have hrun := accepts_stmt t h
  exact ⟨s.binds, hrun.grows, hrun.declares.binds, names_of_accepted hrun⟩

def varTree : Tree.Stmt := .varDecl ⟨1, 6⟩ none "x" (some (.bool ⟨1, 12⟩ true))

/-- A declaration in a loop, and behind it a return outside of functions. -/
def loopTree : Tree.Stmt := .whileLoop ⟨1, 1⟩ (.bool ⟨1, 3⟩ true) [varTree, .ret ⟨2, 1⟩ none]

/-- The declaration adds its name, and the return leaves the scope of the loop open, with that name in it. -/
theorem scopes_kept_loop :
    (∃ s st', Check.stmt varTree .initial = .ok s st' ∧
      ∃ es, Grows .initial st' (State.names es) ∧ Apart .initial es ∧ es.map (·.name) = ["x"]) ∧
    ∃ e st', Check.stmt loopTree .initial = .error e st' ∧ st'.scope.locals.map (·.1) = ["x"] ∧
      StaysOpen .initial st' :=
  ⟨⟨_, _, rfl, (scopes_kept .initial).2.2.1 varTree _ _ rfl⟩,
    ⟨_, _, rfl, rfl, (scopes_kept .initial).2.2.2 loopTree _ _ rfl⟩⟩

end Snack.Typing
