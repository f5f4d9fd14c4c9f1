import Snack.Proofs.Core.Entities
import Snack.Proofs.Typing.State

/-! The successful runs of the analysis as a relation with one rule for each way to succeed. What holds
of every program that is accepted is proved by induction on its rules, so no proof after this module
opens the steps of the analysis itself. -/

namespace Snack.Typing

open Snack.Core

/-! ### Runs that succeed -/

/-- What is analysed. -/
inductive Task where
  | stmt (t : Tree.Stmt)
  | block (ts : List Tree.Stmt)
  | clauses (cs : List Tree.ElseIf)
  | methods (cls : Entity) (ts : List Tree.Stmt)

/-- What an analysis gives. That of the methods of a class also has the statements left out of it. -/
inductive Answer where
  | stmt (s : Stmt)
  | block (ss : List Stmt)
  | clauses (cs : List Check.Clause)
  | methods (fs : List Function) (left : List Stmt)

/-- A function with the types of its parameters, or with none before they are known. -/
def functionEntity (id : Nat) (isMethod : Bool) (name : String) (params : List Entity)
    (result : Ty) : Entity :=
  ⟨id, .function isMethod, name, .function (params.map (·.typ)) result⟩

def classEntity (id : Nat) (name : String) : Entity := ⟨id, .classDef, name, .struct ⟨id, name⟩⟩

namespace State

/-- The scope that a function's parameters and body lie in. -/
def enterFunction (st : State) (name : String) (result : Ty) : State :=
  st.enter (some false) (some ⟨name, result⟩) none

def enterLoop (st : State) : State := st.enter (some true) none none

def enterBlock (st : State) : State := st.enter none none none

def enterClass (st : State) (cls : Entity) : State := st.enter (some false) none (some cls)

/-- Notes that a statement is left out of a class. -/
def leaveOut (st : State) (kind cls : String) : State :=
  { st with dropped := st.dropped ++ [(kind, cls)] }

end State

/-- Fields and methods, the statements that a class keeps. -/
def isMember : Tree.Stmt → Bool
  | .varDecl .. | .function .. => true
  | _ => false

/-- `Accepts task st answer st'`: from what is known in `st` the task succeeds with the answer, and
`st'` is known then. -/
inductive Accepts : Task → State → Answer → State → Prop where
  | varDecl {p t name init st declared value ty} (hn : st.isLocal name = false)
      (ht : t.mapM (resolve st) = .ok declared) (hv : init.mapM (infer st) = .ok value)
      (hs : Check.slotType declared value p = .ok ty) :
      Accepts (.stmt (.varDecl p t name init)) st
        (.stmt (.declare ⟨st.next, .var true, name, ty⟩ value p))
          (st.add ⟨st.next, .var true, name, ty⟩)
  | collection {p name value st e} (hn : st.isLocal name = false) (hv : infer st value = .ok e) :
      Accepts (.stmt (.collection p name value)) st
        (.stmt (.declare ⟨st.next, .var true, name, e.typ⟩ (some e) p))
        (st.add ⟨st.next, .var true, name, e.typ⟩)
  | function {p name ps returns body st r qs ss st₀ st₁} (hn : st.isLocal name = false)
      (hr : returns.mapM (resolve st) = .ok r)
      (hq : Check.params (ps.getD [])
        ((st.add (functionEntity st.next false name [] (r.getD .void))).enterFunction name
          (r.getD .void)) = .ok qs st₀)
      (hb : Accepts (.block body)
        (((st.add (functionEntity st.next false name qs (r.getD .void))).enterFunction name
          (r.getD .void)).addAll qs)
        (.block ss) st₁) :
      Accepts (.stmt (.function p name ps returns body)) st
        (.stmt (.function (.mk (functionEntity st.next false name qs (r.getD .void)) qs ss p) p))
        (st₁.backTo (st.add (functionEntity st.next false name qs (r.getD .void))))
  | classDecl {p name body st st₁ fs left st₂} (hn : st.isLocal name = false)
      (hf : Check.fields st.next body
        ((st.add (classEntity st.next name)).enterClass (classEntity st.next name)) = .ok () st₁)
      (hm : Accepts (.methods (classEntity st.next name) body) st₁ (.methods fs left) st₂) :
      Accepts (.stmt (.classDecl p name body)) st
        (.stmt (.classDecl (classEntity st.next name) (st₂.membersOf st.next).fields fs p))
        (st₂.backTo (st.add (classEntity st.next name)))
  | ifChain {p cond body elseIfs st test b cs st₁ st₂} (ht : infer st cond = .ok test)
      (hbool : test.typ.equiv .bool = true) (hb : Accepts (.block body) st.enterBlock (.block b) st₁)
      (hc : Accepts (.clauses elseIfs) (st₁.backTo st) (.clauses cs) st₂) :
      Accepts (.stmt (.ifChain p cond body elseIfs none)) st
        (.stmt (.ifElse test b (Check.clauses cs .none) p)) st₂
  | ifElse {p cond body elseIfs elsePart st test b cs rest st₁ st₂ st₃} (ht : infer st cond = .ok test)
      (hbool : test.typ.equiv .bool = true) (hb : Accepts (.block body) st.enterBlock (.block b) st₁)
      (hc : Accepts (.clauses elseIfs) (st₁.backTo st) (.clauses cs) st₂)
      (he : Accepts (.block elsePart) st₂.enterBlock (.block rest) st₃) :
      Accepts (.stmt (.ifChain p cond body elseIfs (some elsePart))) st
        (.stmt (.ifElse test b (Check.clauses cs (.block rest)) p)) (st₃.backTo st₂)
  | whileLoop {p cond body st test b st₁} (ht : infer st cond = .ok test)
      (hbool : test.typ.equiv .bool = true) (hb : Accepts (.block body) st.enterLoop (.block b) st₁) :
      Accepts (.stmt (.whileLoop p cond body)) st (.stmt (.whileLoop test b p)) (st₁.backTo st)
  | rangeLoop {p name low op high body st lo hi op' b st₁} (hl : infer st low = .ok lo)
      (hln : lo.typ.isNumeric = true) (hh : infer st high = .ok hi) (hhn : hi.typ.isNumeric = true)
      (hb : Accepts (.block body) (st.enterLoop.add ⟨st.next, .var false, name, lo.typ⟩) (.block b) st₁)
      (ho : Check.rangeOp p op = .ok op') :
      Accepts (.stmt (.rangeLoop p (some name) low op high body)) st
        (.stmt (.rangeLoop ⟨st.next, .var false, name, lo.typ⟩ lo op' hi b p)) (st₁.backTo st)
  | eachLoop {p names coll body st c ts is b st₀ st₁} (hc : infer st coll = .ok c)
      (ht : Check.elementTypes c.typ coll.pos = .ok ts) (hlen : names.length = ts.length)
      (hi : Check.iterators p (names.zip ts) st.enterLoop = .ok is st₀)
      (hb : Accepts (.block body) (st.enterLoop.addAll is) (.block b) st₁) :
      Accepts (.stmt (.eachLoop p (some names) coll body)) st (.stmt (.eachLoop is c b p))
        (st₁.backTo st)
  | retNone {p st f} (hf : st.scope.function = some f) (hv : f.result.equiv .void = true) :
      Accepts (.stmt (.ret p none)) st (.stmt (.ret none p)) st
  | ret {p value st f e} (hf : st.scope.function = some f) (hv : f.result.equiv .void = false)
      (he : infer st value = .ok e) (ha : e.typ.assignable f.result = true) :
      Accepts (.stmt (.ret p (some value))) st (.stmt (.ret (some e) p)) st
  | brk {p st} (hl : st.scope.inLoop = true) : Accepts (.stmt (.brk p)) st (.stmt (.brk p)) st
  | print {p exprs st es} (he : inferAll st exprs = .ok es) :
      Accepts (.stmt (.print p exprs)) st (.stmt (.print es p)) st
  | assign {p place value st source t} (hs : infer st value = .ok source) (ht : infer st place = .ok t)
      (hp : Check.requirePlace t place.pos = .ok ()) (ha : source.typ.assignable t.typ = true) :
      Accepts (.stmt (.assign p place value)) st (.stmt (.assign t source p)) st
  | addAssign {p place value st source t} (hs : infer st value = .ok source)
      (ht : infer st place = .ok t)
      (hp : Check.requirePlace t place.pos = .ok ()) (hn : t.typ.isNumericOrString = true)
      (ha : source.typ.assignable t.typ = true) :
      Accepts (.stmt (.addAssign p place value)) st (.stmt (.addAssign t source p)) st
  | increment {p place st t} (ht : infer st place = .ok t)
      (hp : Check.requirePlace t place.pos = .ok ()) (hn : t.typ.isNumeric = true) :
      Accepts (.stmt (.bump p place (some .up))) st (.stmt (.increment t p)) st
  | decrement {p place st t} (ht : infer st place = .ok t)
      (hp : Check.requirePlace t place.pos = .ok ()) (hn : t.typ.isNumeric = true) :
      Accepts (.stmt (.bump p place (some .down))) st (.stmt (.decrement t p)) st
  | call {p callee args st e} (he : infer st (.call p callee args) = .ok e) :
      Accepts (.stmt (.call p callee args)) st (.stmt (.call e p)) st
  | nil {st} : Accepts (.block []) st (.block []) st
  | cons {t ts st s ss st₁ st₂} (hs : Accepts (.stmt t) st (.stmt s) st₁)
      (hss : Accepts (.block ts) st₁ (.block ss) st₂) :
      Accepts (.block (t :: ts)) st (.block (s :: ss)) st₂
  | noClause {st} : Accepts (.clauses []) st (.clauses []) st
  | clause {p cond body rest st test b cs st₁ st₂} (ht : infer st cond = .ok test)
      (hbool : test.typ.equiv .bool = true) (hb : Accepts (.block body) st.enterBlock (.block b) st₁)
      (hc : Accepts (.clauses rest) (st₁.backTo st) (.clauses cs) st₂) :
      Accepts (.clauses (.mk p cond body :: rest)) st (.clauses (⟨test, b, p⟩ :: cs)) st₂
  | noMethod {cls st} : Accepts (.methods cls []) st (.methods [] []) st
  | field {cls p t name init rest st fs left st₁}
      (hm : Accepts (.methods cls rest) st (.methods fs left) st₁) :
      Accepts (.methods cls (.varDecl p t name init :: rest)) st (.methods fs left) st₁
  | method {cls p name ps returns body rest st r qs ss fs left st₀ st₁ st₂}
      (hr : returns.mapM (resolve st) = .ok r) (hn : (st.membersOf cls.id).has name = false)
      (hq : Check.params (ps.getD []) (st.skip.enterFunction name (r.getD .void)) = .ok qs st₀)
      (hb : Accepts (.block body)
        (((st.skip.enterFunction name (r.getD .void)).addAll qs).addMethod cls.id
          (functionEntity st.next true name qs (r.getD .void)))
        (.block ss) st₁)
      (hm : Accepts (.methods cls rest) (st₁.backTo st) (.methods fs left) st₂) :
      Accepts (.methods cls (.function p name ps returns body :: rest)) st
        (.methods (.mk (functionEntity st.next true name qs (r.getD .void)) qs ss p :: fs) left) st₂
  | leftOut {cls t rest st s fs left st₁ st₂} (hk : isMember t = false)
      (hs : Accepts (.stmt t) st (.stmt s) st₁)
      (hm : Accepts (.methods cls rest) (st₁.leaveOut t.kind cls.name) (.methods fs left) st₂) :
      Accepts (.methods cls (t :: rest)) st (.methods fs (s :: left)) st₂

/-! ### Single steps -/

namespace Check

section Steps

variable {α : Type} {st st' : State}

theorem require_ok {b : Bool} {p : Pos} {c : Cause} {u : Unit} : require b p c = .ok u ↔ b = true := by
  cases b <;> simp [require]

theorem part_ok {key : String} {o : Option α} {a : α} : part key o = .ok a ↔ o = some a := by
  cases o <;> simp [part]

theorem ask_ok {f : State → Except Error α} {a : α} :
    ask f st = .ok a st' ↔ f st = .ok a ∧ st = st' := by
  unfold ask
  cases f st <;> simp

theorem lift_ok {r : Except Error α} {a : α} : lift r st = .ok a st' ↔ r = .ok a ∧ st = st' := ask_ok

theorem expr_ok {t : Tree.Expr} {e : Expr} :
    expr t st = .ok e st' ↔ infer st t = .ok e ∧ st = st' := ask_ok

theorem type?_ok {t : Option Tree.TypeExpr} {r : Option Ty} :
    type? t st = .ok r st' ↔ t.mapM (resolve st) = .ok r ∧ st = st' := by
  cases t with
  | none =>
    simp only [type?, pure_ok, option_mapM_ok]
    grind
  | some t =>
    simp only [type?, type, bind_ok, ask_ok, pure_ok, option_mapM_ok]
    grind

theorem expr?_ok {t : Option Tree.Expr} {r : Option Expr} :
    expr? t st = .ok r st' ↔ t.mapM (infer st) = .ok r ∧ st = st' := by
  cases t with
  | none =>
    simp only [expr?, pure_ok, option_mapM_ok]
    grind
  | some t =>
    simp only [expr?, expr_ok, bind_ok, pure_ok, option_mapM_ok]
    grind

theorem fresh_ok {n : Nat} : fresh st = .ok n st' ↔ st.next = n ∧ st.skip = st' := by
  simp [fresh, State.skip]

theorem notDeclared_ok {name : String} {p : Pos} {u : Unit} :
    notDeclared name p st = .ok u st' ↔ st.isLocal name = false ∧ st = st' := by
  simp [notDeclared, ask_ok, require_ok]

theorem declare_ok {name : String} {e : Entity} {p : Pos} {u : Unit} :
    declare name e p st = .ok u st' ↔ st.isLocal name = false ∧ st.bind name e = st' := by
  simp [declare, bind_ok, notDeclared_ok, modify_ok, and_assoc]

theorem leave_ok {u : Unit} : leave st = .ok u st' ↔ st.exit? = some st' := by
  unfold leave
  cases st.exit? <;> simp

theorem within_ok {l : Option Bool} {f : Option Callable} {c : Option Entity} {body : Check α} {a : α} :
    within l f c body st = .ok a st' ↔
      ∃ st₁, body (st.enter l f c) = .ok a st₁ ∧ st₁.exit? = some st' := by
  simp only [within, bind_ok, modify_ok, leave_ok, pure_ok]
  grind

theorem test_ok {t : Tree.Expr} {e : Expr} :
    test t st = .ok e st' ↔ infer st t = .ok e ∧ e.typ.equiv .bool = true ∧ st = st' := by
  simp only [test, requireBoolean, bind_ok, expr_ok, lift_ok, require_ok, pure_ok]
  grind

theorem bound_ok {t : Tree.Expr} {e : Expr} :
    bound t st = .ok e st' ↔ infer st t = .ok e ∧ e.typ.isNumeric = true ∧ st = st' := by
  simp only [bound, requireNumeric, bind_ok, expr_ok, lift_ok, require_ok, pure_ok]
  grind

theorem target_ok {t : Tree.Expr} {e : Expr} :
    target t st = .ok e st' ↔ infer st t = .ok e ∧ requirePlace e t.pos = .ok () ∧ st = st' := by
  simp only [target, bind_ok, expr_ok, lift_ok, pure_ok]
  grind

end Steps

section Declarations

variable {st st' : State}

theorem newVariable_ok {name : String} {init : Option Expr} {t : Ty} {p : Pos} {s : Stmt}
    (h : newVariable name init t p st = .ok s st') :
    s = .declare ⟨st.next, .var true, name, t⟩ init p ∧ st' = st.add ⟨st.next, .var true, name, t⟩ := by
  simp only [newVariable, bind_ok, fresh_ok, declare_ok, pure_ok] at h
  obtain ⟨_, _, ⟨rfl, rfl⟩, _, _, ⟨-, rfl⟩, rfl, rfl⟩ := h
  exact ⟨rfl, rfl⟩

/-- Parameters are new, and are added to the scope in their order. -/
theorem params_ok {ps : List Tree.Param} {qs : List Entity} (h : params ps st = .ok qs st') :
    st' = st.addAll qs ∧ Fresh st.next (st.next + qs.length) qs := by
  induction ps generalizing st qs with
  | nil =>
    obtain ⟨rfl, rfl⟩ := pure_ok.1 h
    exact ⟨rfl, .nil⟩
  | cons q ps ih =>
    simp only [params, bind_ok, type?_ok, lift_ok, part_ok, fresh_ok, declare_ok, pure_ok] at h
    obtain ⟨_, _, ⟨-, rfl⟩, _, _, ⟨-, rfl⟩, _, _, ⟨rfl, rfl⟩, _, _, ⟨-, rfl⟩, _, _, hqs, rfl, rfl⟩ := h
    obtain ⟨hrest, hfresh⟩ := ih hqs
    refine ⟨hrest, ?_⟩
    rw [List.length_cons, Nat.add_comm _ 1, ← Nat.add_assoc]
    exact .cons rfl hfresh (Nat.le_add_right _ _)

theorem iterators_ok {p : Pos} {ns : List (String × Ty)} {is : List Entity}
    (h : iterators p ns st = .ok is st') :
    st' = st.addAll is ∧ Fresh st.next (st.next + is.length) is := by
  induction ns generalizing st is with
  | nil =>
    obtain ⟨rfl, rfl⟩ := pure_ok.1 h
    exact ⟨rfl, .nil⟩
  | cons n ns ih =>
    simp only [iterators, bind_ok, fresh_ok, declare_ok, pure_ok] at h
    obtain ⟨_, _, ⟨rfl, rfl⟩, _, _, ⟨-, rfl⟩, _, _, his, rfl, rfl⟩ := h
    obtain ⟨hrest, hfresh⟩ := ih his
    refine ⟨hrest, ?_⟩
    rw [List.length_cons, Nat.add_comm _ 1, ← Nat.add_assoc]
    exact .cons rfl hfresh (Nat.le_add_right _ _)

/-- Fields are added to their class in their order, each with any type or one that is read in the scope
of the class. -/
theorem fields_ok {id : Nat} {ts : List Tree.Stmt} {u : Unit} (h : fields id ts st = .ok u st') :
    ∃ fs, st' = st.addFields id fs ∧
      ∀ f ∈ fs, f.typ = .any ∨ ∃ before t, resolve (st.addFields id before) t = .ok f.typ := by
  induction ts generalizing st with
  | nil => exact ⟨[], (pure_ok.1 h).2.symm, by simp⟩
  | cons t ts ih =>
    cases t with
    | varDecl p t name init =>
      simp only [fields, field, bind_ok, lift_ok, ask_ok, type?_ok, modify_ok] at h
      obtain ⟨_, _, ⟨_, _, ⟨-, rfl⟩, _, _, ⟨-, rfl⟩, r, _, ⟨ht, rfl⟩, rfl⟩, h⟩ := h
      obtain ⟨fs, rfl, hfs⟩ := ih h
      refine ⟨⟨name, r.getD .any⟩ :: fs, rfl, fun f hf => ?_⟩
      rcases List.mem_cons.1 hf with rfl | hf
      · rcases option_mapM_ok.1 ht with ⟨-, rfl⟩ | ⟨t, ty, -, rfl, hty⟩
        · exact .inl rfl
        · exact .inr ⟨[], t, hty⟩
      · rcases hfs f hf with hany | ⟨before, t, ht⟩
        · exact .inl hany
        · exact .inr ⟨⟨name, r.getD .any⟩ :: before, t, ht⟩
    | absent part => exact absurd h throw_ok
    | _ => exact ih h

theorem function_ok {p : Pos} {name : String} {ps : List Tree.Param} {returns : Option Tree.TypeExpr}
    {body : Check (List Stmt)} {f : Function}
    (h : function none p name ps returns body st = .ok f st') :
    ∃ r qs ss st₀ st₁, returns.mapM (resolve st) = .ok r ∧ st.isLocal name = false ∧
      params ps
        ((st.add (functionEntity st.next false name [] (r.getD .void))).enterFunction name (r.getD .void))
        = .ok qs st₀ ∧
      body (((st.add (functionEntity st.next false name qs (r.getD .void))).enterFunction name
        (r.getD .void)).addAll qs) = .ok ss st₁ ∧
      st₁.exit? = some st' ∧ f = .mk (functionEntity st.next false name qs (r.getD .void)) qs ss p := by
  simp only [function, announce, settle, bind_ok, type?_ok, fresh_ok, declare_ok, within_ok, modify_ok,
    pure_ok] at h
  obtain ⟨r, _, ⟨hr, rfl⟩, _, _, ⟨rfl, rfl⟩, _, _, ⟨hn, rfl⟩, st₁,
    ⟨qs, st₀, hq, _, _, rfl, ss, _, hb, rfl, rfl⟩,
    hx⟩ := h
  obtain ⟨rfl, -⟩ := params_ok hq
  have hn : st.isLocal name = false := hn
  have hset := State.settle_announced (d := functionEntity st.next false name [] (r.getD .void))
    (f := functionEntity st.next false name qs (r.getD .void)) (l := some false)
    (c := some ⟨name, r.getD .void⟩) (k := none) qs hn rfl
  refine ⟨r, qs, ss, _, _, hr, hn, hq, ?_, hx, rfl⟩
  rw [State.enterFunction, ← hset]
  exact hb

theorem method_ok {c : Entity} {p : Pos} {name : String} {ps : List Tree.Param}
    {returns : Option Tree.TypeExpr} {body : Check (List Stmt)} {f : Function}
    (h : function (some c) p name ps returns body st = .ok f st') :
    ∃ r qs ss st₀ st₁, returns.mapM (resolve st) = .ok r ∧ (st.membersOf c.id).has name = false ∧
      params ps (st.skip.enterFunction name (r.getD .void)) = .ok qs st₀ ∧
      body (((st.skip.enterFunction name (r.getD .void)).addAll qs).addMethod c.id
        (functionEntity st.next true name qs (r.getD .void))) = .ok ss st₁ ∧
      st₁.exit? = some st' ∧ f = .mk (functionEntity st.next true name qs (r.getD .void)) qs ss p := by
  simp only [function, announce, settle, bind_ok, type?_ok, fresh_ok, ask_ok, require_ok, within_ok,
    modify_ok,
    pure_ok] at h
  obtain ⟨r, _, ⟨hr, rfl⟩, _, _, ⟨rfl, rfl⟩, _, _, ⟨hn, rfl⟩, st₁,
    ⟨qs, st₀, hq, _, _, rfl, ss, _, hb, rfl, rfl⟩,
    hx⟩ := h
  obtain ⟨rfl, -⟩ := params_ok hq
  exact ⟨r, qs, ss, _, _, hr, by rwa [Bool.not_eq_true'] at hn, hq, hb, hx, rfl⟩

theorem methods_leftOut {cls : Entity} {t : Tree.Stmt} {ts : List Tree.Stmt} (hk : isMember t = false) :
    methods cls (t :: ts) = (stmt t >>= fun _ => drop t.kind cls.name >>= fun _ => methods cls ts) := by
  cases t with
  | varDecl | function => cases hk
  | _ => rw [methods] <;> simp

end Declarations

end Check

/-! ### What a run leaves behind -/

/-- The entities that are declared in the scope of a task. -/
def Answer.binds : Answer → List Entity
  | .stmt s => s.binds
  | .block ss => ss.flatMap Stmt.binds
  | .clauses _ => []
  | .methods _ left => left.flatMap Stmt.binds

/-- The methods that a task adds to the class with the number `k`. -/
def Task.added : Task → Answer → Nat → List Entity
  | .methods cls _, .methods fs _, k => if k = cls.id then fs.map Function.entity else []
  | _, _, _ => []

theorem Keeps.ofMethod {st st₁ : State} {name : String} {result : Ty} {qs : List Entity} {id : Nat}
    {f : Entity} {new : Nat → List Entity} (hn : (st.membersOf id).has f.name = false)
    (h : Keeps (((st.skip.enterFunction name result).addAll qs).addMethod id f) st₁ new) :
    Keeps st (st₁.backTo st) fun k => (if k = id then [f] else []) ++ new k := by
  have hparams : Keeps st ((st.skip.enterFunction name result).addAll qs) fun _ => [] :=
    .of_members (State.le_addAll_next (Nat.le_succ _)) (State.addAll_members _ _)
  have hnew : (((st.skip.enterFunction name result).addAll qs).membersOf id).method? f.name = none := by
    rw [State.membersOf_congr (State.addAll_members _ _)]
    exact (Members.has_eq_false.1 hn).2
  exact ((hparams.trans (.addMethod hnew)).trans h).inner (Nat.le_refl _) rfl

namespace Accepts

variable {task : Task} {ans : Answer} {st st' : State}

/-- A run adds the names that its answer declares. Whatever scope it opens is closed again. -/
theorem grows (h : Accepts task st ans st') : Grows st st' (State.names ans.binds) := by
  induction h with
  | varDecl | collection => exact .add _ _
  | function | classDecl => exact (Grows.add _ _).trans (.backTo _ _)
  | whileLoop | rangeLoop | eachLoop => exact .backTo _ _
  | ifChain _ _ _ _ _ ihc => exact (Grows.backTo _ _).trans ihc
  | ifElse _ _ _ _ _ _ ihc _ => exact ((Grows.backTo _ _).trans ihc).trans (.backTo _ _)
  | clause _ _ _ _ _ ihc => exact (Grows.backTo _ _).trans ihc
  | cons _ _ ihs ihss =>
    simpa only [Answer.binds, List.flatMap_cons, State.names_append] using ihs.trans ihss
  | field _ ih => exact ih
  | method _ _ _ _ _ _ ihm => exact ⟨ihm.scope, ihm.outer⟩
  | leftOut _ _ _ ihs ihm =>
    -- noting the statement changes no scope
    have hm : Grows _ _ _ := ihs.trans ⟨ihm.scope, ihm.outer⟩
    simpa only [Answer.binds, List.flatMap_cons, State.names_append] using hm
  | _ => exact .refl _

/-- A scope that is opened for a run can be closed after it. -/
theorem exit? (h : Accepts task st ans st') (before : State)
    (hst : st.outer = before.scope :: before.outer) : st'.exit? = some (st'.backTo before) :=
  State.exit?_backTo (h.grows.outer.trans hst)

/-- No run takes back what is known of a class, and the methods it adds are those in its answer. -/
theorem keeps (h : Accepts task st ans st') : Keeps st st' (task.added ans) := by
  induction h with
  | varDecl | collection => exact .of_members (Nat.le_succ _) rfl
  | function _ _ _ _ ih =>
    exact ih.inner (State.le_addAll_next (Nat.le_succ _)) (State.addAll_members _ _)
  | @classDecl p name body st st₁ fs left st₂ hn hf hm ih =>
    obtain ⟨new, rfl, -⟩ := Check.fields_ok hf
    have hnew : Keeps st (((st.add (classEntity st.next name)).enterClass
        (classEntity st.next name)).addFields st.next new) fun _ => [] :=
      .addFields _ (Nat.le_succ _) rfl (Nat.le_refl _)
    have hin := hnew.trans ih
    -- the class itself had no number before
    refine ⟨hin.next, hin.fields, hin.table, fun k hk => ?_⟩
    have hne : k ≠ (classEntity st.next name).id := Nat.ne_of_lt hk
    show (st₂.membersOf k).methods = (st.membersOf k).methods ++ []
    simpa [Task.added, hne] using hin.methods k hk
  | ifChain _ _ _ _ ihb ihc => exact ihb.ofScope.trans ihc
  | ifElse _ _ _ _ _ ihb ihc ihe => exact ihb.ofScope.trans (ihc.trans ihe.ofScope)
  | whileLoop _ _ _ ih => exact ih.ofScope
  | rangeLoop _ _ _ _ _ _ ih => exact ih.inner (Nat.le_succ _) rfl
  | eachLoop _ _ _ _ _ ih =>
    exact ih.inner (State.le_addAll_next (Nat.le_refl _)) (State.addAll_members _ _)
  | clause _ _ _ _ ihb ihc => exact ihb.ofScope.trans ihc
  | cons _ _ ihs ihss => exact ihs.trans ihss
  | noMethod => exact (Keeps.refl _).congr fun k => by simp [Task.added]
  | field _ ih => exact ih
  | @method cls p name ps returns body rest st r qs ss fs left st₀ st₁ st₂ _ hn _ _ _ ihb ihm =>
    refine ((ihb.ofMethod hn).trans ihm).congr fun k => ?_
    by_cases hk : k = cls.id
    · simp [Task.added, hk, Function.entity]
    · simp [Task.added, hk]
  | @leftOut cls t _ _ _ _ _ st₁ _ _ _ _ ihs ihm =>
    have hnote : Keeps st₁ (st₁.leaveOut t.kind cls.name) fun _ => [] :=
      .of_members (Nat.le_refl _) rfl
    exact ihs.trans (hnote.trans ihm)
  | _ => exact .refl _

end Accepts

/-! ### Every success is a run -/

section Success

variable {st st' : State}

/-- A block in a scope of its own, given the runs of the block. -/
theorem inScope {l : Option Bool} {f : Option Callable} {c : Option Entity} {body : Check (List Stmt)}
    {ts : List Tree.Stmt} {ss : List Stmt}
    (hbody : ∀ {st ss st'}, body st = .ok ss st' → Accepts (.block ts) st (.block ss) st')
    (h : Check.within l f c body st = .ok ss st') :
    ∃ st₁, Accepts (.block ts) (st.enter l f c) (.block ss) st₁ ∧ st' = st₁.backTo st := by
  obtain ⟨st₁, hb, hx⟩ := Check.within_ok.1 h
  have ha := hbody hb
  rw [ha.exit? _ rfl] at hx
  exact ⟨st₁, ha, (Option.some.inj hx).symm⟩

theorem accepts_ret {p : Pos} {value : Option Tree.Expr} {s : Stmt}
    (h : Check.ret p value st = .ok s st') : Accepts (.stmt (.ret p value)) st (.stmt s) st' := by
  simp only [Check.ret, bind_ok, get_ok] at h
  obtain ⟨_, _, ⟨rfl, rfl⟩, h⟩ := h
  cases hf : st.scope.function with
  | none =>
    rw [hf] at h
    exact absurd h throw_ok
  | some f =>
    rw [hf] at h
    cases value with
    | none =>
      simp only [bind_ok, Check.lift_ok, Check.require_ok, pure_ok] at h
      obtain ⟨_, _, ⟨hv, rfl⟩, rfl, rfl⟩ := h
      exact .retNone hf hv
    | some value =>
      simp only [requireAssignable, bind_ok, Check.lift_ok, Check.require_ok, Check.expr_ok,
        pure_ok] at h
      obtain ⟨_, _, ⟨hv, rfl⟩, _, _, ⟨he, rfl⟩, _, _, ⟨ha, rfl⟩, rfl, rfl⟩ := h
      exact .ret hf (by rwa [Bool.not_eq_true'] at hv) he ha

theorem accepts_bump {p : Pos} {place : Tree.Expr} {op : Option BumpOp} {s : Stmt}
    (h : Check.bump p place op st = .ok s st') :
    Accepts (.stmt (.bump p place op)) st (.stmt s) st' := by
  simp only [Check.bump, requireNumeric, bind_ok, Check.target_ok, Check.lift_ok, Check.require_ok,
    Check.part_ok] at h
  obtain ⟨_, _, ⟨ht, hp, rfl⟩, _, _, ⟨hn, rfl⟩, op, _, ⟨rfl, rfl⟩, h⟩ := h
  cases op with
  | up =>
    obtain ⟨rfl, rfl⟩ := pure_ok.1 h
    exact .increment ht hp hn
  | down =>
    obtain ⟨rfl, rfl⟩ := pure_ok.1 h
    exact .decrement ht hp hn

mutual

theorem accepts_stmt (t : Tree.Stmt) {st : State} {s : Stmt} {st' : State}
    (h : Check.stmt t st = .ok s st') : Accepts (.stmt t) st (.stmt s) st' := by
  cases t with
  | varDecl p t name init =>
    simp only [Check.stmt, Check.varDecl, bind_ok, Check.notDeclared_ok, Check.type?_ok, Check.expr?_ok,
      Check.lift_ok] at h
    obtain ⟨_, _, ⟨hn, rfl⟩, _, _, ⟨ht, rfl⟩, _, _, ⟨hv, rfl⟩, _, _, ⟨hs, rfl⟩, h⟩ := h
    obtain ⟨rfl, rfl⟩ := Check.newVariable_ok h
    exact .varDecl hn ht hv hs
  | collection p name value =>
    simp only [Check.stmt, Check.collection, bind_ok, Check.notDeclared_ok, Check.expr_ok] at h
    obtain ⟨_, _, ⟨hn, rfl⟩, _, _, ⟨hv, rfl⟩, h⟩ := h
    obtain ⟨rfl, rfl⟩ := Check.newVariable_ok h
    exact .collection hn hv
  | function p name ps returns body =>
    simp only [Check.stmt, bind_ok, pure_ok] at h
    obtain ⟨_, _, hf, rfl, rfl⟩ := h
    obtain ⟨r, qs, ss, st₀, st₁, hr, hn, hq, hb, hx, rfl⟩ := Check.function_ok hf
    have ha := accepts_block body hb
    rw [ha.exit? _ (State.addAll_outer _ _)] at hx
    obtain rfl := Option.some.inj hx
    exact .function hn hr hq ha
  | classDecl p name body =>
    simp only [Check.stmt, Check.classDecl, bind_ok, Check.fresh_ok, Check.declare_ok, Check.within_ok,
      get_ok, pure_ok] at h
    obtain ⟨_, _, ⟨rfl, rfl⟩, _, _, ⟨hn, rfl⟩, fs, _, ⟨st₂, ⟨_, st₁, hf, hm⟩, hx⟩, _, _, ⟨rfl, rfl⟩,
      rfl, rfl⟩ := h
    obtain ⟨left, ha⟩ := accepts_methods _ body hm
    obtain ⟨new, rfl, -⟩ := Check.fields_ok hf
    rw [ha.exit? _ (by rw [State.addFields_eq]; rfl)] at hx
    obtain rfl := Option.some.inj hx
    have hn : st.isLocal name = false := hn
    have hc := Accepts.classDecl (p := p) hn hf ha
    exact hc
  | ifChain p cond body elseIfs elsePart =>
    cases elsePart with
    | none =>
      simp only [Check.stmt, bind_ok, Check.test_ok, pure_ok] at h
      obtain ⟨_, _, ⟨ht, hbool, rfl⟩, _, _, hb, _, _, hc, rfl, rfl⟩ := h
      obtain ⟨st₁, ha, rfl⟩ := inScope (accepts_block body) hb
      exact .ifChain ht hbool ha (accepts_clauses elseIfs hc)
    | some elsePart =>
      simp only [Check.stmt, bind_ok, Check.test_ok, pure_ok] at h
      obtain ⟨_, _, ⟨ht, hbool, rfl⟩, _, _, hb, _, _, hc, _, _, he, rfl, rfl⟩ := h
      obtain ⟨st₁, ha, rfl⟩ := inScope (accepts_block body) hb
      obtain ⟨st₃, hr, rfl⟩ := inScope (accepts_block elsePart) he
      exact .ifElse ht hbool ha (accepts_clauses elseIfs hc) hr
  | whileLoop p cond body =>
    simp only [Check.stmt, bind_ok, Check.test_ok, pure_ok] at h
    obtain ⟨_, _, ⟨ht, hbool, rfl⟩, _, _, hb, rfl, rfl⟩ := h
    obtain ⟨st₁, ha, rfl⟩ := inScope (accepts_block body) hb
    exact .whileLoop ht hbool ha
  | rangeLoop p name low op high body =>
    simp only [Check.stmt, Check.rangeLoop, Check.inLoop, bind_ok, Check.bound_ok, Check.lift_ok,
      Check.part_ok,
      Check.fresh_ok, Check.within_ok, Check.declare_ok, pure_ok] at h
    obtain ⟨_, _, ⟨hl, hln, rfl⟩, _, _, ⟨hh, hhn, rfl⟩, _, _, ⟨rfl, rfl⟩, _, _, ⟨rfl, rfl⟩, _, _,
      ⟨st₁, ⟨_, _, ⟨-, rfl⟩, hb⟩, hx⟩, _, _, ⟨ho, rfl⟩, rfl, rfl⟩ := h
    have ha := accepts_block body hb
    rw [ha.exit? st rfl] at hx
    obtain rfl := Option.some.inj hx
    exact .rangeLoop hl hln hh hhn ha ho
  | eachLoop p names coll body =>
    simp only [Check.stmt, Check.eachLoop, Check.inLoop, bind_ok, Check.expr_ok, Check.lift_ok,
      Check.part_ok,
      Check.require_ok, Check.within_ok, pure_ok] at h
    obtain ⟨_, _, ⟨hc, rfl⟩, _, _, ⟨ht, rfl⟩, _, _, ⟨rfl, rfl⟩, _, _, ⟨hlen, rfl⟩, st₁,
      ⟨is, _, hi, _, _, hb, rfl, rfl⟩, hx⟩ := h
    obtain ⟨rfl, -⟩ := Check.iterators_ok hi
    have ha := accepts_block body hb
    rw [ha.exit? _ (State.addAll_outer _ _)] at hx
    obtain rfl := Option.some.inj hx
    exact .eachLoop hc ht (by simpa using hlen) hi ha
  | ret p value => exact accepts_ret h
  | brk p =>
    simp only [Check.stmt, bind_ok, Check.ask_ok, Check.require_ok, pure_ok] at h
    obtain ⟨_, _, ⟨hl, rfl⟩, rfl, rfl⟩ := h
    exact .brk hl
  | print p exprs =>
    simp only [Check.stmt, bind_ok, Check.ask_ok, pure_ok] at h
    obtain ⟨_, _, ⟨he, rfl⟩, rfl, rfl⟩ := h
    exact .print he
  | assign p place value =>
    simp only [Check.stmt, Check.assign, requireAssignable, bind_ok, Check.expr_ok, Check.target_ok,
      Check.lift_ok, Check.require_ok, pure_ok] at h
    obtain ⟨_, _, ⟨hs, rfl⟩, _, _, ⟨ht, hp, rfl⟩, _, _, ⟨ha, rfl⟩, rfl, rfl⟩ := h
    exact .assign hs ht hp ha
  | addAssign p place value =>
    simp only [Check.stmt, Check.addAssign, requireAssignable, requireNumericOrString, bind_ok,
      Check.expr_ok,
      Check.target_ok, Check.lift_ok, Check.require_ok, pure_ok] at h
    obtain ⟨_, _, ⟨hs, rfl⟩, _, _, ⟨ht, hp, rfl⟩, _, _, ⟨hn, rfl⟩, _, _, ⟨ha, rfl⟩, rfl, rfl⟩ := h
    exact .addAssign hs ht hp hn ha
  | bump p place op => exact accepts_bump h
  | call p callee args =>
    simp only [Check.stmt, bind_ok, Check.expr_ok, pure_ok] at h
    obtain ⟨_, _, ⟨he, rfl⟩, rfl, rfl⟩ := h
    exact .call he
  | unknown p kind => exact absurd h throw_ok
  | absent part => exact absurd h throw_ok
  | incomplete part => exact absurd h throw_ok

theorem accepts_block (ts : List Tree.Stmt) {st : State} {ss : List Stmt} {st' : State}
    (h : Check.block ts st = .ok ss st') : Accepts (.block ts) st (.block ss) st' := by
  cases ts with
  | nil =>
    obtain ⟨rfl, rfl⟩ := pure_ok.1 h
    exact .nil
  | cons t ts =>
    simp only [Check.block, bind_ok, pure_ok] at h
    obtain ⟨_, _, hs, _, _, hss, rfl, rfl⟩ := h
    exact .cons (accepts_stmt t hs) (accepts_block ts hss)

theorem accepts_clauses (cs : List Tree.ElseIf) {st : State} {ds : List Check.Clause} {st' : State}
    (h : Check.elseIfClauses cs st = .ok ds st') : Accepts (.clauses cs) st (.clauses ds) st' := by
  cases cs with
  | nil =>
    obtain ⟨rfl, rfl⟩ := pure_ok.1 h
    exact .noClause
  | cons c cs =>
    obtain ⟨p, cond, body⟩ := c
    simp only [Check.elseIfClauses, bind_ok, Check.test_ok, pure_ok] at h
    obtain ⟨_, _, ⟨ht, hbool, rfl⟩, _, _, hb, _, _, hc, rfl, rfl⟩ := h
    obtain ⟨st₁, ha, rfl⟩ := inScope (accepts_block body) hb
    exact .clause ht hbool ha (accepts_clauses cs hc)

theorem accepts_methods (cls : Entity) (ts : List Tree.Stmt) {st : State} {fs : List Function}
    {st' : State} (h : Check.methods cls ts st = .ok fs st') :
    ∃ left, Accepts (.methods cls ts) st (.methods fs left) st' := by
  cases ts with
  | nil =>
    obtain ⟨rfl, rfl⟩ := pure_ok.1 h
    exact ⟨[], .noMethod⟩
  | cons t ts =>
    cases hk : isMember t with
    | true =>
      cases t with
      | varDecl p t name init =>
        obtain ⟨left, ha⟩ := accepts_methods cls ts h
        exact ⟨left, .field ha⟩
      | function p name ps returns body =>
        simp only [Check.methods, bind_ok, pure_ok] at h
        obtain ⟨_, _, hf, _, _, hm, rfl, rfl⟩ := h
        obtain ⟨r, qs, ss, st₀, st₁, hr, hn, hq, hb, hx, rfl⟩ := Check.method_ok hf
        have ha := accepts_block body hb
        rw [ha.exit? st (State.addAll_outer _ _)] at hx
        obtain rfl := Option.some.inj hx
        obtain ⟨left, hm⟩ := accepts_methods cls ts hm
        exact ⟨left, .method hr hn hq ha hm⟩
      | _ => simp [isMember] at hk
    | false =>
      rw [Check.methods_leftOut hk] at h
      simp only [Check.drop, bind_ok, modify_ok] at h
      obtain ⟨s, _, hs, _, _, rfl, hm⟩ := h
      obtain ⟨left, hm⟩ := accepts_methods cls ts hm
      exact ⟨s :: left, .leftOut hk (accepts_stmt t hs) hm⟩

end

/-- A program that is accepted comes from a run that starts with the standard library. -/
theorem accepts_of_analyze {tree : Tree.Program} {program : Program}
    (h : analyze tree = (.ok program, st)) :
    Accepts (.block tree) .initial (.block program.statements) st := by
  unfold analyze at h
  split at h
  · next hb =>
    simp only [Prod.mk.injEq, Except.ok.injEq] at h
    obtain ⟨rfl, rfl⟩ := h
    exact accepts_block tree hb
  · simp at h

end Success

end Snack.Typing
