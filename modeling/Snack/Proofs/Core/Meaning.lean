import Mathlib.Logic.Function.Basic
import Snack.Core.Basic

/-! What a program of integers and booleans does when it runs: which values it prints and how it leaves
the store. Integers are unbounded and a variable is told by its number. Whatever has no meaning here, an
unbound variable, an operand of the wrong kind or any other construct, has no run at all. -/

namespace Snack.Core

inductive Value where
  | int (n : Int)
  | bool (b : Bool)
  deriving DecidableEq

/-- The values of variables by their numbers. -/
abbrev Store := Nat → Option Value

/-- The store in which a variable holds a value. -/
def Store.set (σ : Store) (v : Entity) (x : Value) : Store := Function.update σ v.id (some x)

/-- The store in which a variable is bound as it is in another store, or not at all. -/
def Store.restore (σ before : Store) (v : Entity) : Store := Function.update σ v.id (before v.id)

@[simp] theorem Store.set_self (σ : Store) (v : Entity) (x : Value) : σ.set v x v.id = some x := by
  simp [set]

theorem Store.set_of_eq {σ : Store} {v : Entity} {x : Value} (h : σ v.id = some x) : σ.set v x = σ := by
  simp [set, ← h]

theorem Store.restore_set (σ : Store) (v : Entity) (x : Value) : (σ.set v x).restore σ v = σ := by
  simp [restore, set]

def Entity.isVar (e : Entity) : Bool :=
  match e.kind with
  | .var _ => true
  | _ => false

/-! ### Expressions -/

def evalUnary : UnaryOp → Value → Option Value
  | .neg, .int n => some (.int (-n))
  | .not, .bool b => some (.bool !b)
  | _, _ => none

/-- An operation on two values. The logical operations are not among them: their right operand may stay
unevaluated. -/
def evalBinary : BinaryOp → Value → Value → Option Value
  | .add, .int a, .int b => some (.int (a + b))
  | .sub, .int a, .int b => some (.int (a - b))
  | .mul, .int a, .int b => some (.int (a * b))
  | .lt, .int a, .int b => some (.bool (a < b))
  | .le, .int a, .int b => some (.bool (a ≤ b))
  | .gt, .int a, .int b => some (.bool (a > b))
  | .ge, .int a, .int b => some (.bool (a ≥ b))
  | .eq, .int a, .int b => some (.bool (a = b))
  | .ne, .int a, .int b => some (.bool (a ≠ b))
  | .eq, .bool a, .bool b => some (.bool (a = b))
  | .ne, .bool a, .bool b => some (.bool (a ≠ b))
  | _, _, _ => none

/-- A value, if it is a boolean. -/
def boolean? : Value → Option Value
  | .bool b => some (.bool b)
  | .int _ => none

/-- The value of an expression in a store. -/
def eval (σ : Store) : Expr → Option Value
  | .int n => some (.int n)
  | .bool b => some (.bool b)
  | .ref e => if e.isVar then σ e.id else none
  | .unary op e _ => (eval σ e).bind (evalUnary op)
  | .binary .and l r _ =>
    match eval σ l with
    | some (.bool true) => (eval σ r).bind boolean?
    | some (.bool false) => some (.bool false)
    | _ => none
  | .binary .or l r _ =>
    match eval σ l with
    | some (.bool true) => some (.bool true)
    | some (.bool false) => (eval σ r).bind boolean?
    | _ => none
  | .binary op l r _ =>
    match eval σ l, eval σ r with
    | some x, some y => evalBinary op x y
    | _, _ => none
  | _ => none

/-- The values of expressions, in order. -/
def evalAll (σ : Store) : List Expr → Option (List Value)
  | [] => some []
  | e :: es =>
    match eval σ e, evalAll σ es with
    | some x, some xs => some (x :: xs)
    | _, _ => none

/-- Whether a counting loop goes on at `a` under the bound `b`. -/
def admits : RangeOp → Int → Int → Option Bool
  | .through, a, b => some (a ≤ b)
  | .below, a, b => some (a < b)
  | .other _, _, _ => none

/-! ### Statements -/

/-- How a statement ends: the next one follows, or the loop around it is left. -/
inductive Outcome where
  | normal
  | broken
  deriving DecidableEq

/-- What can run. -/
inductive Job where
  | stmt (s : Stmt)
  | block (body : List Stmt)
  | orElse (rest : Else)
  /-- A counting loop whose iterator has a value. -/
  | counting (iterator : Entity) (op : RangeOp) (high : Expr) (body : List Stmt)

/-- `Runs job σ out o σ'`: from the store `σ` the job prints the lines `out`, ends as `o` and leaves the
store `σ'`. A line is the list of the values printed together. The bound of a counting loop is
evaluated anew before every step, and the next step starts from what the iterator holds by then. -/
inductive Runs : Job → Store → List (List Value) → Outcome → Store → Prop where
  | declare {v e p σ x} (h : eval σ e = some x) :
    Runs (.stmt (.declare v (some e) p)) σ [] .normal (σ.set v x)
  | assign {v e p σ x} (hv : v.isVar) (h : eval σ e = some x) :
    Runs (.stmt (.assign (.ref v) e p)) σ [] .normal (σ.set v x)
  | addAssign {v e p σ a b} (ha : eval σ (.ref v) = some (.int a)) (hb : eval σ e = some (.int b)) :
    Runs (.stmt (.addAssign (.ref v) e p)) σ [] .normal (σ.set v (.int (a + b)))
  | increment {v p σ a} (ha : eval σ (.ref v) = some (.int a)) :
    Runs (.stmt (.increment (.ref v) p)) σ [] .normal (σ.set v (.int (a + 1)))
  | decrement {v p σ a} (ha : eval σ (.ref v) = some (.int a)) :
    Runs (.stmt (.decrement (.ref v) p)) σ [] .normal (σ.set v (.int (a - 1)))
  | print {es p σ xs} (h : evalAll σ es = some xs) : Runs (.stmt (.print es p)) σ [xs] .normal σ
  | brk {p σ} : Runs (.stmt (.brk p)) σ [] .broken σ
  | ifTrue {t body rest p σ out o σ'} (ht : eval σ t = some (.bool true))
    (hb : Runs (.block body) σ out o σ') : Runs (.stmt (.ifElse t body rest p)) σ out o σ'
  | ifFalse {t body rest p σ out o σ'} (ht : eval σ t = some (.bool false))
    (hr : Runs (.orElse rest) σ out o σ') : Runs (.stmt (.ifElse t body rest p)) σ out o σ'
  | whileEnd {t body p σ} (ht : eval σ t = some (.bool false)) :
    Runs (.stmt (.whileLoop t body p)) σ [] .normal σ
  | whileStep {t body p σ out σ₁ out' o σ'} (ht : eval σ t = some (.bool true))
    (hb : Runs (.block body) σ out .normal σ₁)
    (hw : Runs (.stmt (.whileLoop t body p)) σ₁ out' o σ') :
    Runs (.stmt (.whileLoop t body p)) σ (out ++ out') o σ'
  | whileBreak {t body p σ out σ'} (ht : eval σ t = some (.bool true))
    (hb : Runs (.block body) σ out .broken σ') : Runs (.stmt (.whileLoop t body p)) σ out .normal σ'
  | range {i lo op hi body p σ a out o σ'} (hl : eval σ lo = some (.int a))
    (hc : Runs (.counting i op hi body) (σ.set i (.int a)) out o σ') :
    Runs (.stmt (.rangeLoop i lo op hi body p)) σ out o (σ'.restore σ i)
  | countEnd {i op hi body σ a b} (ha : σ i.id = some (.int a)) (hb : eval σ hi = some (.int b))
    (ht : admits op a b = some false) : Runs (.counting i op hi body) σ [] .normal σ
  | countStep {i op hi body σ a b out σ₁ c out' o σ'} (ha : σ i.id = some (.int a))
    (hb : eval σ hi = some (.int b)) (ht : admits op a b = some true)
    (hr : Runs (.block body) σ out .normal σ₁) (hc : σ₁ i.id = some (.int c))
    (hn : Runs (.counting i op hi body) (σ₁.set i (.int (c + 1))) out' o σ') :
    Runs (.counting i op hi body) σ (out ++ out') o σ'
  | countBreak {i op hi body σ a b out σ'} (ha : σ i.id = some (.int a))
    (hb : eval σ hi = some (.int b)) (ht : admits op a b = some true)
    (hr : Runs (.block body) σ out .broken σ') : Runs (.counting i op hi body) σ out .normal σ'
  | nil {σ} : Runs (.block []) σ [] .normal σ
  | cons {s ss σ out σ₁ out' o σ'} (hs : Runs (.stmt s) σ out .normal σ₁)
    (hr : Runs (.block ss) σ₁ out' o σ') : Runs (.block (s :: ss)) σ (out ++ out') o σ'
  | consBreak {s ss σ out σ'} (hs : Runs (.stmt s) σ out .broken σ') :
    Runs (.block (s :: ss)) σ out .broken σ'
  | noElse {σ} : Runs (.orElse .none) σ [] .normal σ
  | elseBlock {body σ out o σ'} (hb : Runs (.block body) σ out o σ') :
    Runs (.orElse (.block body)) σ out o σ'
  | elseIfTrue {t body rest p σ out o σ'} (ht : eval σ t = some (.bool true))
    (hb : Runs (.block body) σ out o σ') : Runs (.orElse (.elseIf t body rest p)) σ out o σ'
  | elseIfFalse {t body rest p σ out o σ'} (ht : eval σ t = some (.bool false))
    (hr : Runs (.orElse rest) σ out o σ') : Runs (.orElse (.elseIf t body rest p)) σ out o σ'

/-- `Prints p σ out`: the program runs from the store `σ` to its end and prints the lines `out`. -/
def Program.Prints (p : Program) (σ : Store) (out : List (List Value)) : Prop :=
  ∃ σ', Runs (.block p.statements) σ out .normal σ'

/-! ### Laws of evaluation -/

section Eval

variable {σ : Store} {l r : Expr} {z : Value} {op : BinaryOp} {t : Ty}

/-- The operations that evaluate both operands. -/
def strict : BinaryOp → Bool
  | .and | .or => false
  | _ => true

theorem eval_strict (h : strict op) : eval σ (.binary op l r t) = some z ↔
    ∃ x y, eval σ l = some x ∧ eval σ r = some y ∧ evalBinary op x y = some z := by
  cases op <;> simp only [strict, Bool.false_eq_true] at h <;> simp only [eval] <;>
    cases eval σ l <;> cases eval σ r <;> simp

theorem eval_and : eval σ (.binary .and l r t) = some z ↔
    (eval σ l = some (.bool false) ∧ z = .bool false) ∨
      ∃ b, eval σ l = some (.bool true) ∧ eval σ r = some (.bool b) ∧ z = .bool b := by
  simp only [eval]
  rcases eval σ l with _ | _ | _ | _ <;> rcases eval σ r with _ | _ | _ <;>
    simp [boolean?, eq_comm]

theorem eval_or : eval σ (.binary .or l r t) = some z ↔
    (eval σ l = some (.bool true) ∧ z = .bool true) ∨
      ∃ b, eval σ l = some (.bool false) ∧ eval σ r = some (.bool b) ∧ z = .bool b := by
  simp only [eval]
  rcases eval σ l with _ | _ | _ | _ <;> rcases eval σ r with _ | _ | _ <;>
    simp [boolean?, eq_comm]

/-- An operation keeps its value when its operands do. -/
theorem eval_binary_mono {l' r' : Expr} (hl : ∀ x, eval σ l = some x → eval σ l' = some x)
    (hr : ∀ y, eval σ r = some y → eval σ r' = some y) (h : eval σ (.binary op l r t) = some z) :
    eval σ (.binary op l' r' t) = some z := by
  by_cases hs : strict op
  · obtain ⟨x, y, hx, hy, hz⟩ := (eval_strict hs).1 h
    exact (eval_strict hs).2 ⟨x, y, hl x hx, hr y hy, hz⟩
  · cases op <;> simp [strict] at hs
    case or =>
      rcases eval_or.1 h with ⟨hx, hz⟩ | ⟨b, hx, hy, hz⟩
      · exact eval_or.2 (.inl ⟨hl _ hx, hz⟩)
      · exact eval_or.2 (.inr ⟨b, hl _ hx, hr _ hy, hz⟩)
    case and =>
      rcases eval_and.1 h with ⟨hx, hz⟩ | ⟨b, hx, hy, hz⟩
      · exact eval_and.2 (.inl ⟨hl _ hx, hz⟩)
      · exact eval_and.2 (.inr ⟨b, hl _ hx, hr _ hy, hz⟩)

end Eval

/-! ### Laws of runs -/

namespace Runs

/-- A job has at most one run from a store. -/
theorem unique {j : Job} {σ : Store} {out₁ out₂ : List (List Value)} {o₁ o₂ : Outcome} {σ₁ σ₂ : Store}
    (h₁ : Runs j σ out₁ o₁ σ₁) (h₂ : Runs j σ out₂ o₂ σ₂) : out₁ = out₂ ∧ o₁ = o₂ ∧ σ₁ = σ₂ := by
  -- along the first run: the second one takes the same rule, since tests have one value
  induction h₁ generalizing out₂ o₂ σ₂ with
  | declare h => cases h₂ with | declare h' => simp_all
  | assign _ h => cases h₂ with | assign _ h' => simp_all
  | addAssign ha hb => cases h₂ with | addAssign ha' hb' => simp_all
  | increment ha => cases h₂ with | increment ha' => simp_all
  | decrement ha => cases h₂ with | decrement ha' => simp_all
  | print h => cases h₂ with | print h' => simp_all
  | brk => cases h₂ with | brk => simp
  | ifTrue ht _ ih =>
    cases h₂ with
    | ifTrue _ hb => exact ih hb
    | ifFalse ht' _ => simp_all
  | ifFalse ht _ ih =>
    cases h₂ with
    | ifTrue ht' _ => simp_all
    | ifFalse _ hr => exact ih hr
  | whileEnd ht => cases h₂ <;> simp_all
  | whileStep ht _ _ ihb ihw =>
    cases h₂ with
    | whileEnd ht' => simp_all
    | whileStep _ hb hw =>
      obtain ⟨rfl, -, rfl⟩ := ihb hb
      obtain ⟨rfl, rfl, rfl⟩ := ihw hw
      simp
    | whileBreak _ hb => simpa using (ihb hb).2.1
  | whileBreak ht _ ihb =>
    cases h₂ with
    | whileEnd ht' => simp_all
    | whileStep _ hb _ => simpa using (ihb hb).2.1
    | whileBreak _ hb => simp [ihb hb]
  | range hl _ ih =>
    cases h₂ with
    | range hl' hc =>
      obtain rfl : _ = _ := by simpa using hl.symm.trans hl'
      obtain ⟨rfl, rfl, rfl⟩ := ih hc
      simp
  | countEnd ha hb ht => cases h₂ <;> simp_all
  | countStep ha hb ht _ hc _ ihr ihn =>
    cases h₂ with
    | countEnd ha' hb' ht' => simp_all
    | countStep _ _ _ hr hc' hn =>
      obtain ⟨rfl, -, rfl⟩ := ihr hr
      obtain rfl : _ = _ := by simpa using hc.symm.trans hc'
      obtain ⟨rfl, rfl, rfl⟩ := ihn hn
      simp
    | countBreak _ _ _ hr => simpa using (ihr hr).2.1
  | countBreak ha hb ht _ ihr =>
    cases h₂ with
    | countEnd ha' hb' ht' => simp_all
    | countStep _ _ _ hr _ _ => simpa using (ihr hr).2.1
    | countBreak _ _ _ hr => simp [ihr hr]
  | nil => cases h₂ with | nil => simp
  | cons _ _ ihs ihr =>
    cases h₂ with
    | cons hs hr =>
      obtain ⟨rfl, -, rfl⟩ := ihs hs
      obtain ⟨rfl, rfl, rfl⟩ := ihr hr
      simp
    | consBreak hs => simpa using (ihs hs).2.1
  | consBreak _ ihs =>
    cases h₂ with
    | cons hs _ => simpa using (ihs hs).2.1
    | consBreak hs => simp [ihs hs]
  | noElse => cases h₂ with | noElse => simp
  | elseBlock _ ih => cases h₂ with | elseBlock hb => exact ih hb
  | elseIfTrue ht _ ih =>
    cases h₂ with
    | elseIfTrue _ hb => exact ih hb
    | elseIfFalse ht' _ => simp_all
  | elseIfFalse ht _ ih =>
    cases h₂ with
    | elseIfTrue ht' _ => simp_all
    | elseIfFalse _ hr => exact ih hr

theorem append {xs ys : List Stmt} {σ σ₁ σ' : Store} {out out' : List (List Value)} {o : Outcome}
    (hx : Runs (.block xs) σ out .normal σ₁) (hy : Runs (.block ys) σ₁ out' o σ') :
    Runs (.block (xs ++ ys)) σ (out ++ out') o σ' := by
  induction xs generalizing σ out with
  | nil => cases hx with | nil => exact hy
  | cons x xs ih =>
    cases hx with
    | cons hs hr =>
      rw [List.append_assoc]
      exact hs.cons (ih hr)

theorem append_broken {xs ys : List Stmt} {σ σ' : Store} {out : List (List Value)}
    (hx : Runs (.block xs) σ out .broken σ') : Runs (.block (xs ++ ys)) σ out .broken σ' := by
  induction xs generalizing σ out with
  | nil => cases hx
  | cons x xs ih =>
    cases hx with
    | cons hs hr => exact hs.cons (ih hr)
    | consBreak hs => exact hs.consBreak

/-- A block of one statement runs as the statement does. -/
theorem block_one {s : Stmt} {σ σ' : Store} {out : List (List Value)} {o : Outcome} :
    Runs (.block [s]) σ out o σ' ↔ Runs (.stmt s) σ out o σ' := by
  constructor
  · intro h
    cases h with
    | cons hs hr => cases hr with | nil => simpa using hs
    | consBreak hs => exact hs
  · intro h
    cases o with
    | normal => simpa using h.cons .nil
    | broken => exact h.consBreak

end Runs

end Snack.Core
