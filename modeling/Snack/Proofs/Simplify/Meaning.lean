import Mathlib.Tactic.SplitIfs
import Snack.Proofs.Core.Meaning
import Snack.Proofs.Number.Integers
import Snack.Simplify.Stmt

/-! Simplification keeps the meaning of programs: where a program runs to its end, the simplified one
does too, printing the same lines and leaving the same store. It may run where the program does not,
since an operand that cannot be evaluated may be gone. -/

namespace Snack.Simplify

open Snack.Core

/-! ### Folding -/

/-- The value that a folded constant has. -/
def valueOf? : Number.Value → Option Value
  | .number (.int n) => some (.int n)
  | .number (.float _) => none
  | .bool b => some (.bool b)

/-- Folding two integers gives the value of the operation. -/
theorem valueOf?_fold? {op : BinaryOp} {a b : Int} {x : Value} {v : Number.Value}
    (h : evalBinary op (.int a) (.int b) = some x) (hv : Number.fold? (.int a) op (.int b) = some v) :
    valueOf? v = some x := by
  cases op <;>
    simp only [evalBinary, Option.some.injEq, reduceCtorEq, Number.fold?, Number.arith?,
      Number.Value.ofNumber?,
      Option.bind_some, Option.ite_none_right_eq_some, Number.lt_int, Number.le_int,
        Number.eq_int] at h hv <;> subst h
  case add | sub | mul => obtain ⟨-, rfl⟩ := hv; rfl
  all_goals subst hv; simp [valueOf?, ge_iff_le, gt_iff_lt]

theorem eval_ofValue {σ : Store} {v : Number.Value} {x : Value} (h : valueOf? v = some x) :
    eval σ (ofValue v) = some x := by
  match v, h with
  | .number (.int n), h => simpa [valueOf?, ofValue, ofNumber, eval] using h
  | .bool b, h => simpa [valueOf?, ofValue, eval] using h

/-- A literal number that has a value here is an integer. -/
theorem number?_of_eval {σ : Store} {e : Expr} {x : Value} {n : Number} (h : eval σ e = some x)
    (hn : number? e = some n) : ∃ a, e = .int a ∧ x = .int a ∧ n = .int a := by
  cases e with
  | int a =>
    simp only [eval, Option.some.injEq, number?] at h hn
    exact ⟨a, rfl, h.symm, hn.symm⟩
  | float y => simp [eval] at h
  | _ => simp [number?] at hn

/-! ### Expressions -/

section Binary

variable {σ : Store} {l r e : Expr} {x y z : Value} {op : BinaryOp} {t : Ty}

theorem eval_withLeft {a : Int} (hr : eval σ r = some y) (hz : evalBinary op (.int a) y = some z)
    (h : withLeft (.int a) op (.int a) r = some e) : eval σ e = some z := by
  cases y with
  | bool b => cases op <;> simp [evalBinary] at hz
  | int b =>
    cases op <;> simp only [withLeft, Number.isZero_int, Number.isOne_int, decide_eq_true_eq,
      reduceCtorEq] at h <;>
      simp only [evalBinary, Option.some.injEq, reduceCtorEq] at hz
    case add =>
      split_ifs at h with ha
      cases h
      simpa [ha] using hr.trans (by simpa [ha] using hz)
    case sub =>
      split_ifs at h with ha
      cases h
      simpa [eval, hr, evalUnary, ha] using hz
    case mul =>
      split_ifs at h with h1 h0
      · cases h
        simpa [h1] using hr.trans (by simpa [h1] using hz)
      · cases h
        simpa [eval, h0] using hz

theorem eval_withRight {b : Int} (hl : eval σ l = some x) (hz : evalBinary op x (.int b) = some z)
    (h : withRight op (.int b) l (.int b) t = some e) : eval σ e = some z := by
  cases x with
  | bool a => cases op <;> simp [evalBinary] at hz
  | int a =>
    cases op <;> simp only [withRight, Number.isZero_int, Number.isOne_int, decide_eq_true_eq,
      reduceCtorEq] at h <;>
      simp only [evalBinary, Option.some.injEq, reduceCtorEq] at hz
    case add | sub =>
      split_ifs at h with hb
      cases h
      simpa [hb] using hl.trans (by simpa [hb] using hz)
    case mul =>
      split_ifs at h with h1 h0
      · cases h
        simpa [h1] using hl.trans (by simpa [h1] using hz)
      · cases h
        simpa [eval, h0] using hz

theorem eval_and? (h : binary? .and l r t = some e) (hz : eval σ (.binary .and l r t) = some z) :
    eval σ e = some z := by
  simp only [binary?] at h
  split at h
  · cases h
    rcases eval_and.1 hz with ⟨hx, rfl⟩ | ⟨b, hx, hy, rfl⟩
    · simp [eval] at hx
    · exact hy
  · cases h
    rcases eval_and.1 hz with ⟨hx, rfl⟩ | ⟨b, hx, hy, rfl⟩
    · exact hx
    · rwa [← hy, eval]
  · cases h

theorem eval_or? (h : binary? .or l r t = some e) (hz : eval σ (.binary .or l r t) = some z) :
    eval σ e = some z := by
  simp only [binary?] at h
  split at h
  · cases h
    rcases eval_or.1 hz with ⟨hx, rfl⟩ | ⟨b, hx, hy, rfl⟩
    · simp [eval] at hx
    · exact hy
  · cases h
    rcases eval_or.1 hz with ⟨hx, rfl⟩ | ⟨b, hx, hy, rfl⟩
    · exact hx
    · rwa [← hy, eval]
  · cases h

/-- What is put in the place of an operation has its value. -/
theorem eval_binary? (h : binary? op l r t = some e) (hz : eval σ (.binary op l r t) = some z) :
    eval σ e = some z := by
  unfold binary? at h
  split at h
  · obtain ⟨x, y, -, -, hxy⟩ := (eval_strict rfl).1 hz
    simp [evalBinary] at hxy
  · exact eval_and? h hz
  · exact eval_or? h hz
  · next _ hand hor =>
    have hs : strict op = true := by
      cases op with
      | and => exact absurd rfl hand
      | or => exact absurd rfl hor
      | _ => rfl
    obtain ⟨x, y, hx, hy, hxy⟩ := (eval_strict hs).1 hz
    -- two literals are folded; with one of them, the other operand decides
    split at h
    · next m n hm hn =>
      obtain ⟨a, rfl, rfl, rfl⟩ := number?_of_eval hx hm
      obtain ⟨b, rfl, rfl, rfl⟩ := number?_of_eval hy hn
      obtain ⟨v, hv, rfl⟩ := Option.map_eq_some_iff.1 h
      exact eval_ofValue (valueOf?_fold? hxy hv)
    · next m hm _ =>
      obtain ⟨a, rfl, rfl, rfl⟩ := number?_of_eval hx hm
      exact eval_withLeft hy hxy h
    · next n _ hn =>
      obtain ⟨b, rfl, rfl, rfl⟩ := number?_of_eval hy hn
      exact eval_withRight hx hxy h
    · cases h

theorem eval_binary (hz : eval σ (.binary op l r t) = some z) : eval σ (binary op l r t) = some z := by
  unfold binary
  cases h : binary? op l r t with
  | none => exact hz
  | some e => exact eval_binary? h hz

end Binary

theorem eval_unary {σ : Store} {op : UnaryOp} {e : Expr} {t : Ty} {z : Value}
    (hz : eval σ (.unary op e t) = some z) : eval σ (unary op e t) = some z := by
  unfold unary
  split
  · next x hx =>
    obtain ⟨y, hy, hz⟩ := Option.bind_eq_some_iff.1 hz
    obtain ⟨a, rfl, rfl, rfl⟩ := number?_of_eval hy hx
    simpa [ofNumber, Number.neg, eval, evalUnary] using hz
  · exact hz

/-- A simplified expression has the value of the expression. -/
theorem eval_expr {σ : Store} : ∀ {e : Expr} {z : Value}, eval σ e = some z → eval σ (expr e) = some z
  | .binary op l r t, z, h => by
    rw [expr]
    exact eval_binary (eval_binary_mono (fun _ => eval_expr) (fun _ => eval_expr) h)
  | .unary op e t, z, h => by
    obtain ⟨x, hx, hz⟩ := Option.bind_eq_some_iff.1 h
    rw [expr]
    exact eval_unary (Option.bind_eq_some_iff.2 ⟨x, eval_expr hx, hz⟩)
  | .int _, _, h | .bool _, _, h | .ref _, _, h => by simpa [expr] using h
  | .float _, _, h | .str _, _, h | .call .., _, h | .construct .., _, h | .member .., _, h
  | .array .., _, h | .tuple .., _, h | .dict .., _, h | .emptyArray _, _, h | .emptyOptional _, _, h
  | .other .., _, h => by simp [eval] at h

theorem evalAll_exprs {σ : Store} {es : List Expr} {xs : List Value} (h : evalAll σ es = some xs) :
    evalAll σ (exprs es) = some xs := by
  induction es generalizing xs with
  | nil => simpa [exprs] using h
  | cons e es ih =>
    simp only [evalAll] at h
    split at h
    · next x ys hx hs =>
      cases h
      simp [exprs, evalAll, eval_expr hx, ih hs]
    · cases h

/-! ### Statements -/

/-- A job after simplification: a statement becomes the block that takes its place. -/
def job : Job → Job
  | .stmt s => .block (stmt s)
  | .block body => .block (block body)
  | .orElse rest => .orElse (elsePart rest)
  | .counting i op hi body => .counting i op (expr hi) (block body)

section Runs

variable {σ σ' : Store} {out : List (List Value)} {o : Outcome} {t : Expr} {body : List Stmt}
  {rest : Else} {p : Pos}

theorem runs_spliced (h : Runs (.orElse rest) σ out o σ') :
    Runs (.block (spliced rest)) σ out o σ' := by
  cases h with
  | noElse => exact .nil
  | elseBlock hb => exact hb
  | elseIfTrue ht hb => exact Runs.block_one.2 (.ifTrue ht hb)
  | elseIfFalse ht hr => exact Runs.block_one.2 (.ifFalse ht hr)

theorem runs_replaced (h : Runs (.orElse rest) σ out o σ') :
    Runs (.orElse (replaced rest)) σ out o σ' := by
  cases rest with
  | none => cases h with | noElse => exact .elseBlock .nil
  | block _ => exact h
  | elseIf _ _ _ _ => exact h

theorem runs_ifTrue (ht : eval σ t = some (.bool true)) (hb : Runs (.block (block body)) σ out o σ') :
    Runs (.block (stmt (.ifElse t body rest p))) σ out o σ' := by
  have ht' := eval_expr ht
  rw [stmt]
  split
  · exact hb
  · next h => simp [h, eval] at ht'
  · exact Runs.block_one.2 (.ifTrue ht' hb)

theorem runs_ifFalse (ht : eval σ t = some (.bool false))
    (hr : Runs (.orElse (elsePart rest)) σ out o σ') :
    Runs (.block (stmt (.ifElse t body rest p))) σ out o σ' := by
  have ht' := eval_expr ht
  rw [stmt]
  split
  · next h => simp [h, eval] at ht'
  · exact runs_spliced hr
  · exact Runs.block_one.2 (.ifFalse ht' hr)

theorem runs_elseIfTrue (ht : eval σ t = some (.bool true))
    (hb : Runs (.block (block body)) σ out o σ') :
    Runs (.orElse (elsePart (.elseIf t body rest p))) σ out o σ' := by
  have ht' := eval_expr ht
  rw [elsePart]
  split
  · exact .elseBlock hb
  · next h => simp [h, eval] at ht'
  · exact .elseIfTrue ht' hb

theorem runs_elseIfFalse (ht : eval σ t = some (.bool false))
    (hr : Runs (.orElse (elsePart rest)) σ out o σ') :
    Runs (.orElse (elsePart (.elseIf t body rest p))) σ out o σ' := by
  have ht' := eval_expr ht
  rw [elsePart]
  split
  · next h => simp [h, eval] at ht'
  · exact runs_replaced hr
  · exact .elseIfFalse ht' hr

/-- A variable that is assigned to itself has the value already. -/
theorem value_of_sameEntity {e : Expr} {v : Entity} {x : Value} (h : sameEntity e (.ref v))
    (hx : eval σ e = some x) : σ v.id = some x := by
  cases e with
  | ref a =>
    have ha : a.id = v.id := by simpa [sameEntity] using h
    simp only [eval, Option.ite_none_right_eq_some] at hx
    exact ha ▸ hx.2
  | _ => simp [sameEntity] at h

/-- A loop whose test holds once is not removed. -/
theorem whileLoop_kept (ht : eval σ t = some (.bool true)) :
    stmt (.whileLoop t body p) = [.whileLoop (expr t) (block body) p] := by
  have ht' := eval_expr ht
  rw [stmt]
  split_ifs with h
  · cases he : expr t <;> simp_all [isFalse, eval]
  · rfl

/-- A loop over an empty range does nothing: its iterator is bound as before when it ends. -/
theorem runs_emptyRange {i : Entity} {a : Int} {op : RangeOp} {lo hi : Expr}
    (he : emptyRange lo hi) (hl : eval σ lo = some (.int a))
    (hc : Runs (.counting i op hi body) (σ.set i (.int a)) out o σ') :
    out = [] ∧ o = .normal ∧ σ'.restore σ i = σ := by
  unfold emptyRange at he
  split at he
  · next x y hx hy =>
    obtain ⟨a', rfl, ha, rfl⟩ := number?_of_eval hl hx
    cases ha
    have hb : ∀ {τ : Store} {b : Int}, eval τ hi = some (.int b) → b < a := by
      intro τ b hb
      obtain ⟨b', -, h, rfl⟩ := number?_of_eval hb hy
      cases h
      simpa [Number.lt_int] using he
    -- the iterator starts above the bound, so the loop ends at its first test
    have first : ∀ {c b : Int}, (σ.set i (.int a)) i.id = some (.int c) →
        eval (σ.set i (.int a)) hi = some (.int b) → admits op c b ≠ some true := by
      intro c b hc hb'
      have hlt := hb hb'
      obtain rfl : a = c := by simpa using hc
      cases op <;> simp [admits] <;> omega
    cases hc with
    | countEnd => exact ⟨rfl, rfl, Store.restore_set σ i _⟩
    | countStep ha hb' ht => exact absurd ht (first ha hb')
    | countBreak ha hb' ht => exact absurd ht (first ha hb')
  · cases he

end Runs

/-- Where a job runs, the simplified one has the same run. -/
theorem runs_job {j : Job} {σ σ' : Store} {out : List (List Value)} {o : Outcome}
    (h : Runs j σ out o σ') : Runs (job j) σ out o σ' := by
  induction h with
  | declare h => exact Runs.block_one.2 (.declare (eval_expr h))
  | @assign v e p σ x hv h =>
    have h' := eval_expr h
    have hr : expr (.ref v) = .ref v := by simp [expr]
    by_cases hsame : sameEntity (expr e) (.ref v)
    · rw [Store.set_of_eq (value_of_sameEntity hsame h')]
      simpa [job, stmt, hr, hsame] using Runs.nil
    · simpa [job, stmt, hr, hsame] using Runs.block_one.2 (.assign hv h')
  | addAssign ha hb =>
    simp only [job, stmt, expr]
    exact Runs.block_one.2 (.addAssign ha (eval_expr hb))
  | increment ha =>
    simp only [job, stmt, expr]
    exact Runs.block_one.2 (.increment ha)
  | decrement ha =>
    simp only [job, stmt, expr]
    exact Runs.block_one.2 (.decrement ha)
  | print h => exact Runs.block_one.2 (.print (evalAll_exprs h))
  | brk => exact Runs.block_one.2 .brk
  | ifTrue ht _ ih => exact runs_ifTrue ht ih
  | ifFalse ht _ ih => exact runs_ifFalse ht ih
  | whileEnd ht =>
    simp only [job, stmt]
    split_ifs
    · exact .nil
    · exact Runs.block_one.2 (.whileEnd (eval_expr ht))
  | whileStep ht _ _ ihb ihw =>
    simp only [job, whileLoop_kept ht, Runs.block_one] at ihb ihw ⊢
    exact .whileStep (eval_expr ht) ihb ihw
  | whileBreak ht _ ihb =>
    simp only [job, whileLoop_kept ht, Runs.block_one] at ihb ⊢
    exact .whileBreak (eval_expr ht) ihb
  | range hl _ ih =>
    simp only [job, stmt] at ih ⊢
    split_ifs with he
    · obtain ⟨rfl, rfl, hσ⟩ := runs_emptyRange he (eval_expr hl) ih
      rw [hσ]
      exact .nil
    · exact Runs.block_one.2 (.range (eval_expr hl) ih)
  | countEnd ha hb ht => exact .countEnd ha (eval_expr hb) ht
  | countStep ha hb ht _ hc _ ihr ihn => exact .countStep ha (eval_expr hb) ht ihr hc ihn
  | countBreak ha hb ht _ ihr => exact .countBreak ha (eval_expr hb) ht ihr
  | nil => exact .nil
  | cons _ _ ihs ihr =>
    simp only [job, block]
    exact ihs.append ihr
  | consBreak _ ihs =>
    simp only [job, block]
    exact ihs.append_broken
  | noElse => exact .noElse
  | elseBlock _ ih => exact .elseBlock ih
  | elseIfTrue ht _ ih => exact runs_elseIfTrue ht ih
  | elseIfFalse ht _ ih => exact runs_elseIfFalse ht ih

/-- A program that prints certain lines and ends is simplified to one that prints just these. -/
theorem program_prints {p : Program} {σ : Store} {out : List (List Value)} (h : p.Prints σ out)
    (out' : List (List Value)) : (program p).Prints σ out' ↔ out' = out := by
  obtain ⟨σ', hr⟩ := h
  have hs := runs_job hr
  constructor
  · rintro ⟨σ₁, hr'⟩
    exact (hr'.unique hs).1
  · rintro rfl
    exact ⟨σ', hs⟩

/-- Counts from zero below `1 + 2`, prints each number and leaves the loop at one. -/
def countToOne : Program :=
  let x : Entity := ⟨20, .var true, "x", .int⟩
  let i : Entity := ⟨21, .var false, "i", .int⟩
  let leave : Stmt :=
    .ifElse (.binary .and (.binary .eq (.ref i) (.int 1) .bool) (.bool true) .bool) [.brk .start] .none .start
  ⟨[.declare x (some (.binary .add (.int 1) (.int 2) .int)) .start,
    .rangeLoop i (.int 0) .below (.ref x) [leave,
      .print [.binary .mul (.ref i) (.int 1) .int] .start] .start]⟩

theorem countToOne_prints : countToOne.Prints (fun _ => none) [[.int 0]] :=
  ⟨_, .cons (.declare rfl) (.cons
    (.range rfl
      (.countStep rfl rfl rfl (.cons (.ifFalse rfl .noElse) (.cons (.print rfl) .nil)) rfl
        (.countBreak rfl rfl rfl (.consBreak (.ifTrue rfl (.consBreak .brk))))))
    .nil)⟩

theorem program_prints_countToOne :
    countToOne.Prints (fun _ => none) [[.int 0]] ∧
      ∀ out, (program countToOne).Prints (fun _ => none) out ↔ out = [[.int 0]] :=
  ⟨countToOne_prints, program_prints countToOne_prints⟩

end Snack.Simplify
