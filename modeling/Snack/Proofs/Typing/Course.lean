import Snack.Proofs.Typing.Scopes

/-! The course of an analysis: the steps it takes, with what is known before and after each of them, whether the
analysis comes to its end or a broken rule interrupts it. It is the analysis itself with its moments written
down, so what holds at every moment holds at every point of the analysis. -/

namespace Snack.Typing

open Snack.Core

/-! ### Moments -/

inductive Event where
  /-- A step is over. -/
  | step
  /-- A statement comes next. -/
  | stmt (t : Tree.Stmt)
  /-- Of the members of a class, this one comes next: a method, or a statement that is left out. -/
  | member (cls : Entity) (t : Tree.Stmt)

structure Moment where
  event : Event
  state : State

/-- A part of the analysis, and the moments that it passes from what is known at first. -/
structure Course (α : Type) where
  run : Check α
  passed : State → List Moment

namespace Course

variable {α β : Type}

/-- The moments of what comes next, if it comes to that. -/
def passedNext (f : α → Course β) : EStateM.Result Error State α → List Moment
  | .ok a st => (f a).passed st
  | .error _ _ => []

instance : Monad Course where
  pure a := ⟨pure a, fun _ => []⟩
  bind x f := ⟨x.run >>= fun a => (f a).run, fun st => x.passed st ++ passedNext f (x.run st)⟩

/-- A step, which asks questions and then changes what is known at most once. -/
def step (x : Check α) : Course α := ⟨x, fun st => [⟨.step, stateAfter (x st)⟩]⟩

/-- Says what comes next. -/
def mark (e : Event) : Course Unit := ⟨pure (), fun st => [⟨e, st⟩]⟩

/-! ### Parts of statements -/

def within (inLoop : Option Bool) (function : Option Callable) (cls : Option Entity) (body : Course α) :
    Course α := do
  step (modify (·.enter inLoop function cls))
  let a ← body
  step Check.leave
  return a

def inBlock (body : Course α) : Course α := within none none none body

def inLoop (body : Course α) : Course α := within (some true) none none body

def newVariable (name : String) (init : Option Expr) (t : Ty) (p : Pos) : Course Stmt := do
  let v : Entity := ⟨← step Check.fresh, .var true, name, t⟩
  step (Check.declare name v p)
  return .declare v init p

def varDecl (p : Pos) (t : Option Tree.TypeExpr) (name : String) (init : Option Tree.Expr) : Course Stmt := do
  step (Check.notDeclared name p)
  let declared ← step (Check.type? t)
  let value ← step (Check.expr? init)
  newVariable name value (← step (Check.lift (Check.slotType declared value p))) p

def collection (p : Pos) (name : String) (value : Tree.Expr) : Course Stmt := do
  step (Check.notDeclared name p)
  let e ← step (Check.expr value)
  newVariable name (some e) e.typ p

def params : List Tree.Param → Course (List Entity)
  | [] => return []
  | q :: qs => do
    let t := (← step (Check.type? q.type)).getD .any
    let name ← step (Check.lift (part "id" q.name))
    let e : Entity := ⟨← step Check.fresh, .parameter, name, t⟩
    step (Check.declare name e q.pos)
    return e :: (← params qs)

def function (cls : Option Entity) (p : Pos) (name : String) (ps : List Tree.Param)
    (returns : Option Tree.TypeExpr) (body : Course (List Stmt)) : Course Function := do
  let result := (← step (Check.type? returns)).getD .void
  let f : Entity := ⟨← step Check.fresh, .function cls.isSome, name, .function [] result⟩
  step (Check.announce cls f p)
  within (some false) (some ⟨name, result⟩) none do
    let qs ← params ps
    let f := { f with typ := .function (qs.map (·.typ)) result }
    step (Check.settle cls f)
    return .mk f qs (← body) p

def fields (id : Nat) : List Tree.Stmt → Course Unit
  | [] => return ()
  | .varDecl p t name init :: rest => do
    step (Check.field id p t name init)
    fields id rest
  | .absent part :: _ => step (throw (.missing part))
  | _ :: rest => fields id rest

def classDecl (p : Pos) (name : String) (body : List Tree.Stmt) (methods : Entity → Course (List Function)) :
    Course Stmt := do
  let id ← step Check.fresh
  let cls : Entity := ⟨id, .classDef, name, .struct ⟨id, name⟩⟩
  step (Check.declare name cls p)
  let fs ← within (some false) none (some cls) do
    fields id body
    methods cls
  let st ← step get
  return .classDecl cls (st.membersOf id).fields fs p

def rangeLoop (p : Pos) (name : Option String) (low : Tree.Expr) (op : Option RangeOp) (high : Tree.Expr)
    (body : Course (List Stmt)) : Course Stmt := do
  let lo ← step (Check.bound low)
  let hi ← step (Check.bound high)
  let name ← step (Check.lift (part "id" name))
  let i : Entity := ⟨← step Check.fresh, .var false, name, lo.typ⟩
  let b ← inLoop do
    step (Check.declare name i p)
    body
  return .rangeLoop i lo (← step (Check.lift (Check.rangeOp p op))) hi b p

def iterators (p : Pos) : List (String × Ty) → Course (List Entity)
  | [] => return []
  | (name, t) :: rest => do
    let i : Entity := ⟨← step Check.fresh, .var false, name, t⟩
    step (Check.declare name i p)
    return i :: (← iterators p rest)

def eachLoop (p : Pos) (names : Option (List String)) (collection : Tree.Expr) (body : Course (List Stmt)) :
    Course Stmt := do
  let c ← step (Check.expr collection)
  let ts ← step (Check.lift (Check.elementTypes c.typ collection.pos))
  let names ← step (Check.lift (part "ids" names))
  step (Check.lift (require (names.length == ts.length) p (.iteratorCount ts.length names.length)))
  inLoop do
    let is ← iterators p (names.zip ts)
    return .eachLoop is c (← body) p

/-! ### Statements -/

mutual

def stmt : Tree.Stmt → Course Stmt
  | .varDecl p t name init => varDecl p t name init
  | .collection p name value => collection p name value
  | .function p name ps returns body => do
    return .function (← function none p name (ps.getD []) returns (block body)) p
  | .classDecl p name body => classDecl p name body fun cls => methods cls body
  | .ifChain p cond body elseIfs none => do
    let t ← step (Check.test cond)
    let b ← inBlock (block body)
    return .ifElse t b (Check.clauses (← elseIfClauses elseIfs) .none) p
  | .ifChain p cond body elseIfs (some elsePart) => do
    let t ← step (Check.test cond)
    let b ← inBlock (block body)
    let cs ← elseIfClauses elseIfs
    let rest ← inBlock (block elsePart)
    return .ifElse t b (Check.clauses cs (.block rest)) p
  | .whileLoop p cond body => do
    let t ← step (Check.test cond)
    return .whileLoop t (← inLoop (block body)) p
  | .rangeLoop p name low op high body => rangeLoop p name low op high (block body)
  | .eachLoop p names coll body => eachLoop p names coll (block body)
  | t => step (Check.stmt t)

def block : List Tree.Stmt → Course (List Stmt)
  | [] => return []
  | s :: ss => do
    mark (.stmt s)
    return (← stmt s) :: (← block ss)

def elseIfClauses : List Tree.ElseIf → Course (List Check.Clause)
  | [] => return []
  | .mk p cond body :: rest => do
    let t ← step (Check.test cond)
    let b ← inBlock (block body)
    return ⟨t, b, p⟩ :: (← elseIfClauses rest)

def methods (cls : Entity) : List Tree.Stmt → Course (List Function)
  | [] => return []
  | .varDecl .. :: rest => methods cls rest
  | .function p name ps returns body :: rest => do
    mark (.member cls (.function p name ps returns body))
    let f ← function (some cls) p name (ps.getD []) returns (block body)
    return f :: (← methods cls rest)
  | s :: rest => do
    mark (.member cls s)
    mark (.stmt s)
    let _ ← stmt s
    step (Check.drop s.kind cls.name)
    methods cls rest

end

end Course

/-- The moments of the analysis of a program, up to its end or to the rule that is broken first. -/
def history (tree : Tree.Program) : List Moment :=
  (Course.block tree).passed .initial ++ [⟨.step, (analyze tree).2⟩]

/-! ### The course is the analysis -/

section Sequence

variable {α β : Type} {x : Check α} {f : α → Check β} {st st₁ : State}

theorem bind_of_ok {a : α} (h : x st = .ok a st₁) : (x >>= f) st = f a st₁ := by
  show EStateM.bind x f st = _
  unfold EStateM.bind
  rw [h]

theorem bind_of_error {e : Error} (h : x st = .error e st₁) : (x >>= f) st = .error e st₁ := by
  show EStateM.bind x f st = _
  unfold EStateM.bind
  rw [h]

end Sequence

namespace Course

variable {α β : Type}

theorem run_params (ps : List Tree.Param) : (params ps).run = Check.params ps := by
  induction ps with
  | nil => rfl
  | cons q qs ih =>
    rw [Check.params, ← ih]
    rfl

theorem run_iterators (p : Pos) (ns : List (String × Ty)) : (iterators p ns).run = Check.iterators p ns := by
  induction ns with
  | nil => rfl
  | cons n ns ih =>
    rw [Check.iterators, ← ih]
    rfl

theorem run_fields (id : Nat) (ts : List Tree.Stmt) : (fields id ts).run = Check.fields id ts := by
  induction ts with
  | nil => rfl
  | cons t ts ih =>
    cases t with
    | varDecl p t name init =>
      rw [Check.fields, ← ih]
      rfl
    | absent part => rfl
    | _ => exact ih

theorem run_function (cls : Option Entity) (p : Pos) (name : String) (ps : List Tree.Param)
    (returns : Option Tree.TypeExpr) (body : Course (List Stmt)) :
    (function cls p name ps returns body).run = Check.function cls p name ps returns body.run := by
  unfold Check.function
  rw [← run_params]
  rfl

theorem run_classDecl (p : Pos) (name : String) (body : List Tree.Stmt)
    (methods : Entity → Course (List Function)) :
    (classDecl p name body methods).run = Check.classDecl p name body fun cls => (methods cls).run := by
  unfold Check.classDecl
  simp only [← run_fields]
  rfl

theorem run_eachLoop (p : Pos) (names : Option (List String)) (coll : Tree.Expr) (body : Course (List Stmt)) :
    (eachLoop p names coll body).run = Check.eachLoop p names coll body.run := by
  unfold Check.eachLoop
  simp only [← run_iterators]
  rfl

/-- Statements that have no statements in them and declare nothing. -/
def isSingle : Tree.Stmt → Bool
  | .varDecl .. | .collection .. | .function .. | .classDecl .. | .ifChain .. | .whileLoop .. | .rangeLoop ..
  | .eachLoop .. => false
  | _ => true

theorem stmt_single {t : Tree.Stmt} (h : isSingle t = true) : stmt t = step (Check.stmt t) := by
  cases t with
  | varDecl | collection | function | classDecl | ifChain | whileLoop | rangeLoop | eachLoop => cases h
  | _ => rw [stmt] <;> simp

theorem methods_leftOut {cls : Entity} {t : Tree.Stmt} {ts : List Tree.Stmt} (hk : isMember t = false) :
    methods cls (t :: ts) = (mark (.member cls t) >>= fun _ => mark (.stmt t) >>= fun _ => stmt t >>= fun _ =>
      step (Check.drop t.kind cls.name) >>= fun _ => methods cls ts) := by
  cases t with
  | varDecl | function => cases hk
  | _ => rw [methods] <;> simp

mutual

theorem run_stmt (t : Tree.Stmt) : (stmt t).run = Check.stmt t := by
  cases t with
  | function p name ps returns body =>
    rw [stmt, Check.stmt, ← run_block body, ← run_function]
    rfl
  | classDecl p name body =>
    rw [stmt, Check.stmt, run_classDecl]
    simp only [run_methods]
  | ifChain p cond body elseIfs elsePart =>
    cases elsePart with
    | none =>
      rw [stmt, Check.stmt, ← run_block body, ← run_clauses elseIfs]
      rfl
    | some elsePart =>
      rw [stmt, Check.stmt, ← run_block body, ← run_clauses elseIfs, ← run_block elsePart]
      rfl
  | whileLoop p cond body =>
    rw [stmt, Check.stmt, ← run_block body]
    rfl
  | rangeLoop p name low op high body =>
    rw [stmt, Check.stmt, ← run_block body]
    rfl
  | eachLoop p names coll body => rw [stmt, Check.stmt, ← run_block body, run_eachLoop]
  | _ => rfl

theorem run_block (ts : List Tree.Stmt) : (block ts).run = Check.block ts := by
  cases ts with
  | nil => rfl
  | cons t ts =>
    rw [block, Check.block, ← run_stmt t, ← run_block ts]
    rfl

theorem run_clauses (cs : List Tree.ElseIf) : (elseIfClauses cs).run = Check.elseIfClauses cs := by
  cases cs with
  | nil => rfl
  | cons c cs =>
    obtain ⟨p, cond, body⟩ := c
    rw [elseIfClauses, Check.elseIfClauses, ← run_block body, ← run_clauses cs]
    rfl

theorem run_methods (cls : Entity) (ts : List Tree.Stmt) : (methods cls ts).run = Check.methods cls ts := by
  cases ts with
  | nil => rfl
  | cons t ts =>
    cases hk : isMember t with
    | false =>
      rw [methods_leftOut hk, Check.methods_leftOut hk, ← run_stmt t, ← run_methods cls ts]
      rfl
    | true =>
      cases t with
      | varDecl p t name init => exact run_methods cls ts
      | function p name ps returns body =>
        rw [methods, Check.methods, ← run_block body, ← run_methods cls ts, ← run_function]
        rfl
      | _ => cases hk

end

/-! ### Moments of a sequence -/

/-- The moments of a part and, as the last one, its end. -/
def trail (x : Course α) (st : State) : List Moment := x.passed st ++ [⟨.step, stateAfter (x.run st)⟩]

section Sequence

variable {x : Course α} {f : α → Course β} {st st₁ : State}

theorem passed_bind_ok {a : α} (h : x.run st = .ok a st₁) :
    (x >>= f).passed st = x.passed st ++ (f a).passed st₁ := by
  show x.passed st ++ passedNext f (x.run st) = _
  rw [h]
  rfl

theorem passed_bind_error {e : Error} (h : x.run st = .error e st₁) : (x >>= f).passed st = x.passed st := by
  show x.passed st ++ passedNext f (x.run st) = _
  rw [h]
  exact List.append_nil _

theorem trail_bind_ok {a : α} (h : x.run st = .ok a st₁) :
    (x >>= f).trail st = x.passed st ++ (f a).trail st₁ := by
  have hrun : (x >>= f).run st = (f a).run st₁ := bind_of_ok h
  rw [trail, trail, passed_bind_ok h, hrun, List.append_assoc]

/-- Nothing comes after a failure. -/
theorem trail_bind_error {e : Error} (h : x.run st = .error e st₁) : (x >>= f).trail st = x.trail st := by
  have hrun : (x >>= f).run st = .error e st₁ := bind_of_error h
  rw [trail, trail, passed_bind_error h, hrun, h]
  rfl

/-- A moment of a sequence is one of its first part or, if that succeeds, of what comes next. -/
theorem mem_passed_bind {m : Moment} (h : m ∈ (x >>= f).passed st) :
    m ∈ x.passed st ∨ ∃ a st₁, x.run st = .ok a st₁ ∧ m ∈ (f a).passed st₁ := by
  cases hx : x.run st with
  | error e st₁ =>
    rw [passed_bind_error hx] at h
    exact .inl h
  | ok a st₁ =>
    rw [passed_bind_ok hx, List.mem_append] at h
    exact h.imp_right fun h => ⟨a, st₁, rfl, h⟩

end Sequence

/-! ### Parts without statements -/

/-- No statement comes next in this part. -/
def Unmarked (x : Course α) : Prop := ∀ st, ∀ m ∈ x.passed st, m.event = .step

theorem Unmarked.pure (a : α) : Unmarked (pure a) := fun _ => List.forall_mem_nil _

theorem Unmarked.step (x : Check α) : Unmarked (step x) := fun _ => List.forall_mem_singleton.2 rfl

theorem Unmarked.bind {x : Course α} {f : α → Course β} (hx : Unmarked x) (hf : ∀ a, Unmarked (f a)) :
    Unmarked (x >>= f) := by
  intro st m hm
  rcases mem_passed_bind hm with hm | ⟨a, st₁, -, hm⟩
  · exact hx st m hm
  · exact hf a st₁ m hm

theorem unmarked_params (ps : List Tree.Param) : Unmarked (params ps) := by
  induction ps with
  | nil => exact .pure _
  | cons q qs ih =>
    exact (Unmarked.step _).bind fun _ => (Unmarked.step _).bind fun _ => (Unmarked.step _).bind fun _ =>
      (Unmarked.step _).bind fun _ => ih.bind fun _ => .pure _

theorem unmarked_iterators (p : Pos) (ns : List (String × Ty)) : Unmarked (iterators p ns) := by
  induction ns with
  | nil => exact .pure _
  | cons n ns ih =>
    exact (Unmarked.step _).bind fun _ => (Unmarked.step _).bind fun _ => ih.bind fun _ => .pure _

theorem unmarked_fields (id : Nat) (ts : List Tree.Stmt) : Unmarked (fields id ts) := by
  induction ts with
  | nil => exact .pure _
  | cons t ts ih =>
    cases t with
    | varDecl p t name init => exact (Unmarked.step _).bind fun _ => ih
    | absent part => exact .step _
    | _ => exact ih

theorem history_eq (tree : Tree.Program) : history tree = (block tree).trail .initial := by
  rw [history, trail, run_block, analyze]
  cases Check.block tree .initial <;> rfl

end Course

end Snack.Typing
