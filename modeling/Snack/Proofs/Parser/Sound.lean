import Snack.Proofs.Parser.Spans

/-! The tree that is read from tokens is made of just these tokens, in order, and its operations nest as the
grammar asks for. -/

namespace Snack.Tree

open Token (Proper)

/-! ### Words of tokens -/

section Words

variable {t : Token} {s : String} {cs : List Token} {xs ys : List Lexeme} {L M : Language Lexeme}

theorem single_mem_word (hs : t.spells s = true) (ht : t.Regular ∧ t.Sane) : [t.lexeme] ∈ word s := by
  rw [ht.1.lexeme_eq hs]
  exact rfl

theorem cons_mem_word_mul (hs : t.spells s = true) (ht : t.Regular ∧ t.Sane) (h : xs ∈ L) :
    t.lexeme :: xs ∈ word s * L :=
  Language.append_mem_mul (single_mem_word hs ht) h

theorem lexeme_of_kind {k : Token.Kind} (hk : t.kind = k) : t.lexeme = ⟨k, t.text⟩ := by rw [Token.lexeme, hk]

theorem cons_mem_ident_mul (hk : t.kind = .ident) (h : xs ∈ L) : t.lexeme :: xs ∈ ident t.text * L := by
  have hsingle : [t.lexeme] ∈ ident t.text := by
    rw [lexeme_of_kind hk]
    exact rfl
  exact Language.append_mem_mul hsingle h

variable {α : Type} {R : α → List Token → Prop} {f : α → Language Lexeme}

/-- The tokens of a value are a word of its language. -/
def Spelled (R : α → List Token → Prop) (f : α → Language Lexeme) (a : α) : Prop :=
  ∀ cs, R a cs → Proper cs → cs.map Token.lexeme ∈ f a

theorem spelled_separated {as : List α} (h : ∀ a ∈ as, Spelled R f a) :
    Spelled (Separated R) (fun as => listed (as.map f)) as := by
  have hcommas {as : List α} (h : ∀ a ∈ as, Spelled R f a) :
      Spelled (AfterCommas R) (fun as => ((as.map f).map (word "," * ·)).prod) as := by
    induction as with
    | nil =>
      rintro cs ⟨⟩ -
      exact rfl
    | cons a as ih =>
      rintro _ (_ | ⟨ht, ha, has⟩) hp
      obtain ⟨hfirst, hrest⟩ := List.forall_mem_cons.1 h
      simp only [Token.proper_cons, Token.proper_append] at hp
      simp only [List.map_cons, List.map_append, List.prod_cons, mul_assoc]
      exact cons_mem_word_mul ht hp.1 (Language.append_mem_mul (hfirst _ ha hp.2.1) (ih hrest _ has hp.2.2))
  rintro cs (_ | ⟨ha, has⟩) hp
  · exact rfl
  · obtain ⟨hfirst, hrest⟩ := List.forall_mem_cons.1 h
    obtain ⟨hcs, hds⟩ := Token.proper_append.1 hp
    rw [List.map_append]
    exact Language.append_mem_mul (hfirst _ ha hcs) (hcommas hrest _ has hds)

theorem spelled_terminated {as : List α} (h : ∀ a ∈ as, Spelled R f a) :
    Spelled (Terminated R) (fun as => listedWithComma (as.map f)) as := by
  induction as with
  | nil =>
    rintro cs ⟨⟩ -
    exact rfl
  | cons a as ih =>
    obtain ⟨hfirst, hrest⟩ := List.forall_mem_cons.1 h
    rintro cs (_ | ha | ⟨ha, ht, has⟩) hp
    · refine listed_le_listedWithComma _ ?_
      rw [List.map_singleton, listed, List.map_nil, List.prod_nil, mul_one]
      exact hfirst _ ha hp
    · simp only [Token.proper_cons, Token.proper_append] at hp
      refine listedWithComma_cons _ _ ?_
      rw [mul_assoc, List.map_append, List.map_cons]
      exact Language.append_mem_mul (hfirst _ ha hp.1) (cons_mem_word_mul ht hp.2.1 (ih hrest _ has hp.2.2))

theorem spelled_ifAny {o : Option α} (h : ∀ a ∈ o, Spelled R f a) : Spelled (IfAny R) (perhaps f) o := by
  rintro cs (_ | ha) hp
  · exact rfl
  · exact h _ rfl cs ha hp

theorem spelled_behind {a : α} (h : Spelled R f a) (s : String) :
    Spelled (Behind R s) (fun a => word s * f a) a := by
  rintro _ ⟨ht, ha⟩ hp
  obtain ⟨ht', hcs⟩ := Token.proper_cons.1 hp
  exact cons_mem_word_mul ht ht' (h _ ha hcs)

theorem spelled_between {a : α} (h : Spelled R f a) (s s' : String) :
    Spelled (Between R s s') (fun a => word s * (f a * word s')) a := by
  rintro _ ⟨ht, ha, hu⟩ hp
  simp only [Token.proper_cons, Token.proper_append] at hp
  simp only [List.map_cons, List.map_append]
  exact cons_mem_word_mul ht hp.1 (Language.append_mem_mul (h _ ha hp.2.1) (single_mem_word hu hp.2.2.1))

end Words

/-! ### Nodes -/

theorem spelled_type (type : TypeExpr) : Spelled TypeExpr.Spans TypeExpr.yields type := by
  intro cs h hp
  induction h with
  | named hk =>
    rw [List.map_singleton, lexeme_of_kind hk]
    exact rfl
  | array ht _ hu ih =>
    simp only [Token.proper_cons, Token.proper_append] at hp
    simp only [List.map_cons, List.map_append, TypeExpr.yields, mul_assoc]
    exact cons_mem_word_mul ht hp.1 (Language.append_mem_mul (ih hp.2.1) (single_mem_word hu hp.2.2.1))
  | dict ht _ hu _ hw ihk ihv =>
    simp only [Token.proper_cons, Token.proper_append] at hp
    simp only [List.map_cons, List.map_append, TypeExpr.yields, mul_assoc]
    exact cons_mem_word_mul ht hp.1 (Language.append_mem_mul (ihk hp.2.1) (cons_mem_word_mul hu hp.2.2.1
      (Language.append_mem_mul (ihv hp.2.2.2.1) (single_mem_word hw hp.2.2.2.2.1))))
  | optional _ _ ht ih =>
    simp only [Token.proper_cons, Token.proper_append] at hp
    rw [List.map_append]
    exact Language.append_mem_mul (ih hp.1) (single_mem_word ht hp.2.1)
  | ref hk =>
    rw [List.map_singleton, lexeme_of_kind hk]
    exact rfl

def Entry.yields (e : Entry) : Language Lexeme := e.key.yields * word ":" * e.value.yields

theorem yieldsOfEntries_eq_map (es : List Entry) : yieldsOfEntries es = es.map Entry.yields := by
  induction es with
  | nil => rfl
  | cons e es ih =>
    obtain ⟨p, key, value⟩ := e
    rw [yieldsOfEntries, ih, List.map_cons]
    rfl

mutual

theorem spelled_expr (e : Expr) : Spelled Expr.Spans Expr.yields e := by
  intro cs h hp
  cases h with
  | num hk | str hk | var hk =>
    rw [List.map_singleton, lexeme_of_kind hk]
    exact rfl
  | bool ht => exact single_mem_word ht (Token.proper_cons.1 hp).1
  | paren ht he hu =>
    rw [Expr.yields, mul_assoc]
    exact spelled_between (spelled_expr _) _ _ _ (.mk ht he hu) hp
  | binary _ hl ht hr =>
    simp only [Token.proper_cons, Token.proper_append] at hp
    rw [Expr.yields, mul_assoc, List.map_append, List.map_cons]
    exact Language.append_mem_mul (spelled_expr _ _ hl hp.1)
      (cons_mem_word_mul ht hp.2.1 (spelled_expr _ _ hr hp.2.2))
  | unary ht he => exact spelled_behind (spelled_expr _) _ _ (.mk ht he) hp
  | call _ hf ha =>
    obtain ⟨hcs, hds⟩ := Token.proper_append.1 hp
    simp only [Expr.yields, mul_assoc, yieldsOf_eq_map, List.map_append]
    exact Language.append_mem_mul (spelled_expr _ _ hf hcs)
      (spelled_between (spelled_separated (spelled_exprs _)) _ _ _ ha hds)
  | member _ ho ht hu =>
    simp only [Token.proper_cons, Token.proper_append] at hp
    rw [Expr.yields, mul_assoc, List.map_append, ← mul_one (ident _)]
    exact Language.append_mem_mul (spelled_expr _ _ ho hp.1)
      (cons_mem_word_mul ht hp.2.1 (cons_mem_ident_mul hu Language.nil_mem_one))
  | array ht he hu | tuple ht he hu =>
    rw [Expr.yields, mul_assoc, yieldsOf_eq_map]
    exact spelled_between (spelled_separated (spelled_exprs _)) _ _ _ (.mk ht he hu) hp
  | dict ht he hu =>
    rw [Expr.yields, mul_assoc, yieldsOfEntries_eq_map]
    exact spelled_between (spelled_terminated (spelled_entries _)) _ _ _ (.mk ht he hu) hp
  | emptyArray ht hy hu =>
    rw [Expr.yields, mul_assoc]
    exact spelled_between (spelled_type _) _ _ _ (.mk ht hy hu) hp
  | emptyOptional ht hy => exact spelled_behind (spelled_type _) _ _ (.mk ht hy) hp

theorem spelled_exprs (es : List Expr) : ∀ e ∈ es, Spelled Expr.Spans Expr.yields e := by
  cases es with
  | nil => simp
  | cons e es => exact List.forall_mem_cons.2 ⟨spelled_expr e, spelled_exprs es⟩

theorem spelled_entries (es : List Entry) : ∀ e ∈ es, Spelled Entry.Spans Entry.yields e := by
  cases es with
  | nil => simp
  | cons e es =>
    obtain ⟨p, key, value⟩ := e
    refine List.forall_mem_cons.2 ⟨?_, spelled_entries es⟩
    rintro _ ⟨-, hk, ht, hv⟩ hp
    simp only [Token.proper_cons, Token.proper_append] at hp
    rw [Entry.yields, mul_assoc, List.map_append, List.map_cons]
    exact Language.append_mem_mul (spelled_expr key _ hk hp.1)
      (cons_mem_word_mul ht hp.2.1 (spelled_expr value _ hv hp.2.2))

end

theorem spelled_param (q : Param) : Spelled Param.Spans Param.yields q := by
  rintro _ ⟨-, hy, ht⟩ hp
  obtain ⟨hcs, -⟩ := Token.proper_append.1 hp
  dsimp only [Param.yields]
  rw [List.map_append, List.map_singleton, ← mul_one (ident _)]
  exact Language.append_mem_mul (spelled_ifAny (fun t _ => spelled_type t) _ hy hcs)
    (cons_mem_ident_mul ht Language.nil_mem_one)

theorem spelled_params (ps : List Param) :
    Spelled (Between (Separated Param.Spans) "(" ")") paramsYields ps := by
  intro cs h hp
  rw [paramsYields, mul_assoc]
  exact spelled_between (spelled_separated fun q _ => spelled_param q) _ _ cs h hp

theorem spelled_names (names : List String) :
    Spelled (Separated Named) (fun names => listed (names.map ident)) names := by
  refine spelled_separated fun name _ => ?_
  rintro _ ⟨ht⟩ -
  rw [← mul_one (ident _)]
  exact cons_mem_ident_mul ht Language.nil_mem_one

/-- What stands in a block is spelled in it. -/
theorem spelled_body {ss : List Stmt} (h : Spelled (InRow Stmt.Spans) yieldsOfBlock ss) :
    Spelled blockSpans (fun ss => inBlock (yieldsOfBlock ss)) ss := by
  intro cs hcs hp
  dsimp only [inBlock]
  rw [mul_assoc]
  exact spelled_between h _ _ cs hcs hp

theorem yields_ifChain (p : Pos) (t : Expr) (body : List Stmt) (cs : List ElseIf) (rest : Option (List Stmt)) :
    (Stmt.ifChain p t body cs rest).yields =
      word Keyword.ifBranch.text * (t.yields * (inBlock (yieldsOfBlock body) * (yieldsOfClauses cs *
        perhaps (fun b => word Keyword.elseBranch.text * inBlock (yieldsOfBlock b)) rest))) := by
  cases rest <;> simp [Stmt.yields, perhaps, mul_assoc]

mutual

theorem spelled_stmt (s : Stmt) : Spelled Stmt.Spans Stmt.yields s := by
  intro cs h hp
  cases h with
  | varDecl ht hy hu hi =>
    simp only [Token.proper_cons, Token.proper_append] at hp
    simp only [Stmt.yields, mul_assoc, List.map_cons, List.map_append]
    exact cons_mem_word_mul ht hp.1 (Language.append_mem_mul
      (spelled_ifAny (fun t _ => spelled_type t) _ hy hp.2.1) (cons_mem_ident_mul hu
        (spelled_ifAny (fun e _ => spelled_behind (spelled_expr e) "=") _ hi hp.2.2.2)))
  | collection ht hu hv he =>
    simp only [Token.proper_cons] at hp
    simp only [Stmt.yields, mul_assoc, List.map_cons]
    exact cons_mem_word_mul ht hp.1 (cons_mem_ident_mul hu
      (cons_mem_word_mul hv hp.2.2.1 (spelled_expr _ _ he hp.2.2.2)))
  | function ht hu hps hr hb =>
    simp only [Token.proper_cons, Token.proper_append] at hp
    simp only [Stmt.yields, mul_assoc, List.map_cons, List.map_append]
    exact cons_mem_word_mul ht hp.1 (cons_mem_ident_mul hu (Language.append_mem_mul
      (spelled_ifAny (fun ps _ => spelled_params ps) _ hps hp.2.2.1) (Language.append_mem_mul
        (spelled_ifAny (fun t _ => spelled_behind (spelled_type t) "->") _ hr hp.2.2.2.1)
        (spelled_body (spelled_block _) _ hb hp.2.2.2.2))))
  | classDecl ht hu hb =>
    simp only [Token.proper_cons] at hp
    simp only [Stmt.yields, mul_assoc, List.map_cons]
    exact cons_mem_word_mul ht hp.1 (cons_mem_ident_mul hu (spelled_body (spelled_block _) _ hb hp.2.2))
  | ifChain ht he hb hc hr =>
    simp only [Token.proper_cons, Token.proper_append] at hp
    simp only [yields_ifChain, List.map_cons, List.map_append]
    exact cons_mem_word_mul ht hp.1 (Language.append_mem_mul (spelled_expr _ _ he hp.2.1)
      (Language.append_mem_mul (spelled_body (spelled_block _) _ hb hp.2.2.1)
        (Language.append_mem_mul (spelled_clauses _ _ hc hp.2.2.2.1)
          (spelled_ifAny (fun b _ => spelled_behind (spelled_body (spelled_block b)) _) _ hr hp.2.2.2.2))))
  | whileLoop ht he hb =>
    simp only [Token.proper_cons, Token.proper_append] at hp
    simp only [Stmt.yields, mul_assoc, List.map_cons, List.map_append]
    exact cons_mem_word_mul ht hp.1 (Language.append_mem_mul (spelled_expr _ _ he hp.2.1)
      (spelled_body (spelled_block _) _ hb hp.2.2))
  | rangeLoop ht hu hv hl hw hh hb =>
    simp only [Token.proper_cons, Token.proper_append] at hp
    simp only [Stmt.yields, mul_assoc, List.map_cons, List.map_append]
    exact cons_mem_word_mul ht hp.1 (cons_mem_ident_mul hu (cons_mem_word_mul hv hp.2.2.1
      (Language.append_mem_mul (spelled_expr _ _ hl hp.2.2.2.1) (cons_mem_word_mul hw hp.2.2.2.2.1
        (Language.append_mem_mul (spelled_expr _ _ hh hp.2.2.2.2.2.1)
          (spelled_body (spelled_block _) _ hb hp.2.2.2.2.2.2))))))
  | eachLoop ht hn hu he hb =>
    simp only [Token.proper_cons, Token.proper_append] at hp
    simp only [Stmt.yields, mul_assoc, List.map_cons, List.map_append]
    exact cons_mem_word_mul ht hp.1 (Language.append_mem_mul (spelled_names _ _ hn hp.2.1)
      (cons_mem_word_mul hu hp.2.2.1 (Language.append_mem_mul (spelled_expr _ _ he hp.2.2.2.1)
        (spelled_body (spelled_block _) _ hb hp.2.2.2.2))))
  | print ht he =>
    rw [Stmt.yields, yieldsOf_eq_map]
    exact spelled_behind (spelled_separated fun e _ => spelled_expr e) _ _ (.mk ht he) hp
  | ret ht hv => exact spelled_behind (spelled_ifAny fun e _ => spelled_expr e) _ _ (.mk ht hv) hp
  | @brk t ht =>
    -- a break is told by its text alone, which a string literal may have as well
    have hk : t.kind = .string ∨ t.kind = .keyword := (Token.proper_cons.1 hp).1.1.imp_right fun hk => by
      rw [hk, ht]
      decide
    rw [List.map_singleton, Token.lexeme, ht]
    rcases hk with hk | hk <;> rw [hk]
    · exact .inr rfl
    · exact .inl rfl
  | assign _ hx ht hv | addAssign _ hx ht hv =>
    simp only [Token.proper_cons, Token.proper_append] at hp
    rw [Stmt.yields, mul_assoc, List.map_append, List.map_cons]
    exact Language.append_mem_mul (spelled_expr _ _ hx hp.1)
      (cons_mem_word_mul ht hp.2.1 (spelled_expr _ _ hv hp.2.2))
  | bump _ hx ht =>
    simp only [Token.proper_cons, Token.proper_append] at hp
    rw [Stmt.yields, List.map_append]
    exact Language.append_mem_mul (spelled_expr _ _ hx hp.1) (single_mem_word ht hp.2.1)
  | call h => exact spelled_expr _ _ h hp

theorem spelled_block (ss : List Stmt) : Spelled (InRow Stmt.Spans) yieldsOfBlock ss := by
  cases ss with
  | nil =>
    rintro _ ⟨⟩ -
    exact rfl
  | cons s ss =>
    rintro _ (_ | ⟨hs, hss⟩) hp
    obtain ⟨hcs, hds⟩ := Token.proper_append.1 hp
    rw [yieldsOfBlock, List.map_append]
    exact Language.append_mem_mul (spelled_stmt s _ hs hcs) (spelled_block ss _ hss hds)

theorem spelled_clauses (cs : List ElseIf) : Spelled (InRow ElseIf.Spans) yieldsOfClauses cs := by
  cases cs with
  | nil =>
    rintro _ ⟨⟩ -
    exact rfl
  | cons c cs =>
    rintro _ (_ | ⟨⟨ht, he, hb⟩, hcs⟩) hp
    simp only [Token.proper_cons, Token.proper_append] at hp
    simp only [yieldsOfClauses, mul_assoc, List.map_cons, List.map_append, List.cons_append, List.append_assoc]
    exact cons_mem_word_mul ht hp.1.1 (Language.append_mem_mul (spelled_expr _ _ he hp.1.2.1)
      (Language.append_mem_mul (spelled_body (spelled_block _) _ hb hp.1.2.2) (spelled_clauses cs _ hcs hp.2)))

end

end Snack.Tree

namespace Snack.Parser

open Snack.Tree

/-- The program that is read from the tokens of a source text is made of all of them but the end, and its
operations nest as the grammar asks for. -/
theorem run_yields_tokens {source : String} {ts : List Token} {tree : Program}
    (hscan : Token.scan source = .ok ts) (hrun : run ts = .ok tree) :
    ∃ body q, ts = body ++ [Token.endAt q] ∧ body.map Token.lexeme ∈ yieldsOfBlock tree ∧
      ∀ s ∈ tree, s.Graded := by
  obtain ⟨body, q, hts, hspans, hproper, hsound⟩ := read_of_run hscan hrun
  exact ⟨body, q, hts, spelled_block tree body hspans hproper, (sound_block hsound).1⟩

/-- The tokens of `🍽 {1: x,}`. -/
def entryTokens : List Token :=
  [⟨.keyword, "🍽", ⟨1, 1⟩⟩, ⟨.op, "\x7b", ⟨1, 3⟩⟩, ⟨.number, "1", ⟨1, 4⟩⟩, ⟨.op, ":", ⟨1, 5⟩⟩,
    ⟨.ident, "x", ⟨1, 7⟩⟩, ⟨.op, ",", ⟨1, 8⟩⟩, ⟨.op, "\x7d", ⟨1, 9⟩⟩, .endAt ⟨1, 10⟩]

def entryTree : Program := [.print ⟨1, 1⟩ [.dict ⟨1, 3⟩ [.mk ⟨1, 4⟩ (.num ⟨1, 4⟩ "1") (.var ⟨1, 7⟩ "x")]]]

theorem run_yields_tokens_entry :
    Token.scan "🍽 \x7b1: x,\x7d" = .ok entryTokens ∧ run entryTokens = .ok entryTree ∧
      ∃ body q, entryTokens = body ++ [Token.endAt q] ∧ body.map Token.lexeme ∈ yieldsOfBlock entryTree ∧
        ∀ s ∈ entryTree, s.Graded := by
  have hscan : Token.scan "🍽 \x7b1: x,\x7d" = .ok entryTokens := rfl
  have hrun : run entryTokens = .ok entryTree := by cbv
  exact ⟨hscan, hrun, run_yields_tokens hscan hrun⟩

end Snack.Parser
