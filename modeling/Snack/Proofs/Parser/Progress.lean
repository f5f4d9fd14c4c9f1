import Snack.Proofs.Parser.Spans

/-! Reading moves on and comes to an end. From any place in tokens that end, every parser stops at one that is
not before it. Each turn of a recursion is made with fewer tokens left than the one before it. -/

namespace Snack.Parser

open Snack.Tree

/-! ### Termination -/

section Termination

variable {α : Type} {R : α → List Token → Prop} {ts : List Token}

/-- The recursion with these turns comes to an end before it has made more of them than there are tokens: what
it makes of the tokens is the same whatever it would do after that. A reader with a bound is such a recursion,
and what it does when the bound is used up is never seen. -/
def Settles (ts : List Token) (turn : Parser α → Parser α) : Prop :=
  Unrolled ts.length turn turn fun p q => p ts = q ts

/-- The same of a loop that goes on from a value, whatever the value. -/
def SettlesFrom (ts : List Token) (turn : (α → Parser α) → α → Parser α) : Prop :=
  Unrolled ts.length turn turn fun f g => ∀ a, f a ts = g a ts

/-- All that is repeated or nested comes to an end. -/
structure Terminates (ts : List Token) : Prop where
  types : Settles ts typeWith
  marks : ∀ p, SettlesFrom ts (markTurn p)
  params : Settles ts (itemTurn param)
  names : Settles ts (itemTurn (expectIdent >>= fun t => pure t.text))
  exprs : Settles ts (itemTurn expr)
  entries : Settles ts (entryTurn expr)
  suffixes : SettlesFrom ts (suffixTurn expr)
  unaries : Settles ts (unaryTurn postfixExpr)
  products : SettlesFrom ts (chainTurn ["*", "/", "%"] unary)
  sums : SettlesFrom ts (chainTurn ["+", "-"] product)
  conjunctions : SettlesFrom ts (chainTurn ["&&"] comparison)
  disjunctions : SettlesFrom ts (chainTurn ["||"] conjunction)
  coalesced : Settles ts (coalesceTurn disjunction)
  nestedExprs : Settles ts exprWith
  clauses : Settles ts (clauseTurn block)
  body : Settles ts (closeTurn stmt)
  nestedBlocks : Settles ts fun block => blockWith (stmtWith block)
  statements : Settles ts endTurn

theorem Settles.of_takes {turn : Parser α → Parser α} (hts : Ended ts)
    (h : Unrolled ts.length turn turn fun p q => Takes ts.length p q R) : Settles ts turn :=
  fun f g hf hg m m' hm hm' => (h f g hf hg m m' hm hm' ts hts (Nat.le_refl _)).1

theorem SettlesFrom.of_onward {turn : (α → Parser α) → α → Parser α} (hts : Ended ts)
    (h : Unrolled ts.length turn turn fun f g => Onward ts.length f g fun _ _ => True) :
    SettlesFrom ts turn :=
  fun f g hf hg m m' hm hm' a => (h f g hf hg m m' hm hm' a [] trivial ts hts (Nat.le_refl _)).1

theorem settlesFrom_chainTurn (hts : Ended ts) (ops : List String) {operand : Parser Expr}
    {lv : Level} (h : ∀ n, Takes n operand operand (Expr.IsReadFrom lv)) : SettlesFrom ts (chainTurn ops operand) :=
  .of_onward hts (unrolled_chainTurn (h _) fun _ _ _ _ _ _ _ _ _ => trivial)

theorem Ended.terminates (hts : Ended ts) : Terminates ts where
  types := .of_takes hts unrolled_typeWith
  marks _ := .of_onward hts (unrolled_markTurn fun _ _ _ _ _ => trivial)
  params := .of_takes hts (unrolled_itemTurn takes_param)
  names := .of_takes hts (unrolled_itemTurn takes_name)
  exprs := .of_takes hts (unrolled_itemTurn takes_expr)
  entries := .of_takes hts (unrolled_entryTurn takes_expr)
  suffixes := .of_onward hts (unrolled_suffixTurn takes_expr ⟨by simp, by simp⟩)
  unaries := .of_takes hts (unrolled_unaryTurn (takes_postfixWith takes_expr).weaken)
  products := settlesFrom_chainTurn hts _ fun _ => (takes_unaryWith takes_expr).weaken
  sums := settlesFrom_chainTurn hts _ fun _ => (takes_productWith takes_expr).weaken
  conjunctions := settlesFrom_chainTurn hts _ fun _ => (takes_compareWith takes_expr).weaken
  disjunctions := settlesFrom_chainTurn hts _ fun _ => (takes_andWith takes_expr).weaken
  coalesced := .of_takes hts (unrolled_coalesceTurn (takes_orWith takes_expr).weaken)
  nestedExprs := .of_takes hts unrolled_exprWith
  clauses := .of_takes hts (unrolled_clauseTurn takes_block)
  body := .of_takes hts (unrolled_closeTurn takes_stmt)
  nestedBlocks := .of_takes hts unrolled_blockWith
  statements := .of_takes hts unrolled_endTurn

end Termination

/-! ### Progress -/

/-- What is read by a parser of its own. -/
inductive Phrase where
  | program | block
  | stmt | varDecl | collection | function | classDecl | ifChain | whileLoop | forLoop | print | ret
  | exprStmt
  | type | param | params
  | expr | disjunction | conjunction | comparison | sum | product | unary | power | postfixExpr | primary
  | dict
  /-- Expressions up to a closing token. -/
  | exprs (close : String)

namespace Phrase

/-- What a phrase is read as. -/
def Value : Phrase → Type
  | program | block => List Stmt
  | stmt | varDecl | collection | function | classDecl | ifChain | whileLoop | forLoop | print | ret
  | exprStmt => Stmt
  | type => TypeExpr
  | param => Param
  | params => List Param
  | expr | disjunction | conjunction | comparison | sum | product | unary | power | postfixExpr | primary
  | dict => Expr
  | exprs _ => List Expr

def parser : (x : Phrase) → Parser x.Value
  | program => Parser.program
  | block => Parser.block
  | stmt => Parser.stmt
  | varDecl => Parser.varDecl
  | collection => Parser.collection
  | function => Parser.function Parser.block
  | classDecl => Parser.classDecl Parser.block
  | ifChain => Parser.ifChain Parser.block
  | whileLoop => Parser.whileLoop Parser.block
  | forLoop => Parser.forLoop Parser.block
  | print => Parser.print
  | ret => Parser.ret
  | exprStmt => Parser.exprStmt
  | type => typeExpr
  | param => Parser.param
  | params => Parser.params
  | expr => Parser.expr
  | disjunction => Parser.disjunction
  | conjunction => Parser.conjunction
  | comparison => Parser.comparison
  | sum => Parser.sum
  | product => Parser.product
  | unary => Parser.unary
  | power => Parser.power
  | postfixExpr => Parser.postfixExpr
  | primary => Parser.primary
  | dict => dictLiteral Parser.expr
  | exprs close => itemsUntil close Parser.expr

/-- Whether there can be nothing to read. -/
def mayBeEmpty : Phrase → Bool
  | program | params | exprs _ => true
  | _ => false

end Phrase

section Progress

variable {tokens : List Token} {k n : Nat}

/-- Where a parser that was given the tokens from the index `k` on leaves them: not before that, further on if
it has to take some, and at the last token at most. -/
inductive Reaches {α : Type} (tokens : List Token) (k : Nat) (moves : Prop) :
    EStateM.Result Error (List Token) α → Prop where
  | ok {a j} (hk : k ≤ j) (hmoves : moves → k < j) (hj : j < tokens.length) :
      Reaches tokens k moves (.ok a (tokens.drop j))
  | error {e j} (hk : k ≤ j) (hj : j < tokens.length) (he : e.cause ≠ .exhausted) :
      Reaches tokens k moves (.error e (tokens.drop j))

theorem Phrase.takes (x : Phrase) :
    Takes n x.parser x.parser fun _ cs => x.mayBeEmpty = false → cs ≠ [] := by
  have hstmt : ∀ {p : Parser Stmt} {c : Prop}, Takes (n + 1) p p Stmt.IsReadFrom →
      Takes n p p fun _ cs => c → cs ≠ [] := fun h => h.weaken.imp fun _ _ hs _ => hs.spans.ne_nil
  have hexpr : ∀ {p : Parser Expr} {lv : Level} {c : Prop}, Takes (n + 1) p p (Expr.IsReadFrom lv) →
      Takes n p p fun _ cs => c → cs ≠ [] := fun h => h.weaken.imp fun _ _ he _ => he.spans.startsAt.ne_nil
  cases x with
  | program => exact takes_program.imp (by simp [mayBeEmpty])
  | params => exact (takes_itemsUntil _ takes_param).imp (by simp [mayBeEmpty])
  | exprs => exact (takes_itemsUntil _ takes_expr).imp (by simp [mayBeEmpty])
  | block => exact takes_block.imp fun _ _ hb _ => by cases hb.spans; simp
  | type => exact takes_typeExpr.imp fun _ _ hy _ => hy.spans.ne_nil
  | param => exact takes_param.imp fun _ _ hp _ => hp.spans.ne_nil
  | stmt => exact hstmt takes_stmt
  | varDecl => exact hstmt takes_varDecl
  | collection => exact hstmt takes_collection
  | function => exact hstmt (takes_function takes_block)
  | classDecl => exact hstmt (takes_classDecl takes_block)
  | ifChain => exact hstmt (takes_ifChain takes_block)
  | whileLoop => exact hstmt (takes_whileLoop takes_block)
  | forLoop => exact hstmt (takes_forLoop takes_block)
  | print => exact hstmt takes_print
  | ret => exact hstmt takes_ret
  | exprStmt => exact hstmt takes_exprStmt
  | expr => exact hexpr takes_expr
  | disjunction => exact hexpr (takes_orWith takes_expr)
  | conjunction => exact hexpr (takes_andWith takes_expr)
  | comparison => exact hexpr (takes_compareWith takes_expr)
  | sum => exact hexpr (takes_sumWith takes_expr)
  | product => exact hexpr (takes_productWith takes_expr)
  | unary => exact hexpr (takes_unaryWith takes_expr)
  | power => exact hexpr (takes_powerOf (takes_postfixWith takes_expr) (takes_unaryWith takes_expr).weaken)
  | postfixExpr => exact hexpr (takes_postfixWith takes_expr)
  | primary => exact hexpr (takes_primaryWith takes_expr)
  | dict => exact hexpr (takes_dictLiteral takes_expr)

theorem Ended.drop {ts : List Token} (h : Ended ts) {k : Nat} (hk : k < ts.length) : Ended (ts.drop k) := by
  induction h generalizing k with
  | last q =>
    obtain rfl : k = 0 := by simpa using hk
    exact .last q
  | cons ht hts ih =>
    cases k with
    | zero => exact .cons ht hts
    | succ k => exact ih (Nat.lt_of_succ_lt_succ hk)

/-- Where the tokens are split behind those that were taken. -/
theorem eq_drop_of_append {cs us : List Token} (hk : k < tokens.length) (h : tokens.drop k = cs ++ us)
    (hus : Ended us) : k + cs.length < tokens.length ∧ us = tokens.drop (k + cs.length) := by
  have hlen := congrArg List.length h
  have hpos := hus.length_pos
  rw [List.length_drop, List.length_append] at hlen
  refine ⟨by omega, ?_⟩
  rw [← List.drop_drop, h, List.drop_left]

theorem Outcome.reaches {α : Type} {R : α → List Token → Prop} {moves : Prop}
    {r : EStateM.Result Error (List Token) α} (h : Outcome R (tokens.drop k) r)
    (hk : k < tokens.length) (hR : ∀ a cs, R a cs → moves → cs ≠ []) : Reaches tokens k moves r := by
  cases h with
  | @ok a cs us hts hus ha =>
    obtain ⟨hj, rfl⟩ := eq_drop_of_append hk hts hus
    refine .ok (Nat.le_add_right _ _) (fun hm => ?_) hj
    have := List.length_pos_of_ne_nil (hR a cs ha hm)
    omega
  | @error e cs us hts hus he =>
    obtain ⟨hj, rfl⟩ := eq_drop_of_append hk hts hus
    exact .error (Nat.le_add_right _ _) hj he

/-- A program that is read takes all tokens but the last. -/
theorem program_leaves_last (h : Ended (tokens.drop k)) (hk : k < tokens.length) {tree : Program}
    {us : List Token} (hok : program (tokens.drop k) = .ok tree us) :
    us = tokens.drop (tokens.length - 1) := by
  obtain ⟨q, rfl⟩ := stmtsUntilEnd_stops h (Nat.le_refl _) hok
  have htakes := (takes_program _ h (Nat.le_refl _)).2
  rw [hok] at htakes
  obtain ⟨hts, -, -⟩ := htakes
  have hlen := congrArg List.length hts
  rw [List.length_drop, List.length_append, List.length_singleton] at hlen
  obtain ⟨-, heq⟩ := eq_drop_of_append hk hts (.last q)
  rw [heq]
  congr 1
  omega

/-- From every index of tokens that end, all recursions end and every parser moves on or fails; a program is
read up to the end. -/
theorem phrases_progress (h : Ended tokens) (hk : k < tokens.length) :
    Terminates (tokens.drop k) ∧
      (∀ x : Phrase, Reaches tokens k (x.mayBeEmpty = false) (x.parser (tokens.drop k))) ∧
      ∀ tree us, program (tokens.drop k) = .ok tree us → us = tokens.drop (tokens.length - 1) := by
  have hdrop := h.drop hk
  refine ⟨hdrop.terminates, fun x => ?_, fun tree us hok => program_leaves_last hdrop hk hok⟩
  exact (x.takes _ hdrop (Nat.le_refl _)).2.reaches hk fun _ _ h => h

/-- The tokens of `:x`, a block that is not closed. -/
def openTokens : List Token := [⟨.op, ":", ⟨1, 1⟩⟩, ⟨.ident, "x", ⟨1, 2⟩⟩, .endAt ⟨1, 3⟩]

theorem phrases_progress_open :
    Ended openTokens ∧ 0 < openTokens.length ∧ Terminates (openTokens.drop 0) ∧
      (∀ x : Phrase, Reaches openTokens 0 (x.mayBeEmpty = false) (x.parser (openTokens.drop 0))) ∧
      ∀ tree us, program (openTokens.drop 0) = .ok tree us →
        us = openTokens.drop (openTokens.length - 1) := by
  have hended : Ended openTokens := .cons (by decide) (.cons (by decide) (.last _))
  have hpos : 0 < openTokens.length := by decide
  exact ⟨hended, hpos, phrases_progress hended hpos⟩

end Progress

end Snack.Parser
