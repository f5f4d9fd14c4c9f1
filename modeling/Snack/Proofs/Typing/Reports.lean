import Snack.Proofs.Tree.Formed
import Snack.Proofs.Typing.Accepts

/-! The failures of the analysis on a tree that came from a source text. Each of them tells of a rule that the
text breaks, and the only thing in it that is not supported is a field with a first value: no part of the
tree is missing, no number is unreadable, and no scope is closed that was not opened. -/

namespace Snack.Typing

open Snack.Core

/-- A cause that is told of a source text. -/
structure Cause.IsReport (c : Cause) : Prop where
  reported : c.category ∉ [.missingPart, .malformed, .unbalanced]
  supported : c.category = .unsupported → c = .fieldInitializer

/-- The rules that a program can break, without those on what is supported. -/
def Category.isRule : Category → Bool
  | .missingPart | .malformed | .unbalanced | .unsupported => false
  | _ => true

theorem Cause.IsReport.of_rule {c : Cause} (h : c.category.isRule = true) : c.IsReport := by
  constructor
  · intro hc
    simp only [List.mem_cons, List.not_mem_nil, or_false] at hc
    rcases hc with hc | hc | hc <;> rw [hc] at h <;> cases h
  · intro hc
    rw [hc] at h
    cases h

theorem Cause.IsReport.notAssignable (s t : Ty) : (Cause.notAssignable s t).IsReport := by
  cases s with
  | function ps r =>
    cases t with
    | function qs r' =>
      refine .of_rule ?_
      show Category.isRule (if ps.length = qs.length then _ else _) = true
      split <;> rfl
    | _ => exact .of_rule rfl
  | _ => exact .of_rule rfl

/-! ### Expressions -/

/-- A result that fails with a report only. -/
def Reports {α : Type} (x : Except Error α) : Prop := ∀ e, x = .error e → e.cause.IsReport

section Results

variable {α β : Type} {x : Except Error α} {f : α → Except Error β}

theorem Reports.ok (a : α) : Reports (.ok a) := fun _ h => nomatch h

theorem Reports.error {e : Error} (h : e.cause.IsReport) : Reports (.error e : Except Error α) := by
  rintro _ ⟨⟩
  exact h

theorem Reports.bind (hx : Reports x) (hf : ∀ a, Reports (f a)) : Reports (x >>= f) := by
  cases x with
  | error e => exact .error (hx e rfl)
  | ok a => exact hf a

theorem Reports.map {g : α → β} (hx : Reports x) : Reports (g <$> x) := by
  cases x with
  | error e => exact .error (hx e rfl)
  | ok a => exact .ok (g a)

theorem reports_require {b : Bool} {p : Pos} {c : Cause} (h : c.IsReport) :
    Reports (require b p c) := by
  unfold require
  split
  · exact .ok _
  · exact .error h

end Results

section Rules

variable {st : State} {e l r : Expr} {p pl pr : Pos}

theorem reports_lookup (name : String) : Reports (st.lookup name p) := by
  unfold State.lookup
  split
  · exact .ok _
  · exact .error (.of_rule rfl)

theorem reports_requireNumeric : Reports (requireNumeric e p) := reports_require (.of_rule rfl)

theorem reports_requireNumericOrString : Reports (requireNumericOrString e p) :=
  reports_require (.of_rule rfl)

theorem reports_requireBoolean : Reports (requireBoolean e p) := reports_require (.of_rule rfl)

theorem reports_requireSame : Reports (requireSame l r p) := reports_require (.of_rule rfl)

theorem reports_requireAssignable (t : Ty) : Reports (requireAssignable e t p) :=
  reports_require (.notAssignable _ _)

theorem reports_resolve {t : Tree.TypeExpr} (h : t.Formed) : Reports (resolve st t) := by
  induction h with
  | named h =>
    obtain ⟨q, hq⟩ := Option.isSome_iff_exists.1 h
    rw [resolve, hq]
    exact .ok _
  | array _ ih => exact ih.bind fun _ => .ok _
  | dict _ _ ihk ihv => exact ihk.bind fun _ => ihv.bind fun _ => .ok _
  | optional _ ih => exact ih.bind fun _ => .ok _
  | ref =>
    refine (reports_lookup _).bind fun e => ?_
    split
    · exact .ok _
    · exact .error (.of_rule rfl)

theorem reports_number {text : String} (h : Numeral.Readable text) : Reports (number text p) := by
  unfold number
  unfold Numeral.Readable at h
  split
  · next hf =>
    rw [if_pos hf] at h
    obtain ⟨x, hx⟩ := Option.isSome_iff_exists.1 h
    rw [hx]
    exact .ok _
  · next hf =>
    rw [if_neg hf] at h
    obtain ⟨n, hn⟩ := h
    split
    · exact .error (.of_rule rfl)
    · rw [hn]
      dsimp only
      split
      · exact .ok _
      · exact .error (.of_rule rfl)

theorem reports_nameValue (name : String) : Reports (nameValue st name p) := by
  unfold nameValue
  split
  · exact .ok _
  · refine (reports_lookup _).bind fun e => ?_
    split
    · exact .error (.of_rule rfl)
    · exact .ok _

theorem reports_binaryType {op : BinaryOp} (hop : ∀ text, op ≠ .other text) :
    Reports (binaryType op l r p pl pr) := by
  cases op with
  | and | or => exact reports_requireBoolean.bind fun _ => reports_requireBoolean.bind fun _ => .ok _
  | coalesce =>
    rw [binaryType]
    split
    · exact (reports_requireAssignable _).bind fun _ => .ok _
    · exact .error (.of_rule rfl)
  | lt | le | gt | ge =>
    exact reports_requireNumericOrString.bind fun _ => reports_requireSame.bind fun _ => .ok _
  | eq | ne => exact reports_requireSame.bind fun _ => .ok _
  | add => exact reports_requireNumericOrString.bind fun _ => reports_requireSame.bind fun _ => .ok _
  | sub | mul | div | rem | pow =>
    exact reports_requireNumeric.bind fun _ => reports_requireSame.bind fun _ => .ok _
  | other text => exact absurd rfl (hop text)

theorem reports_requireOperand {op : UnaryOp} (hop : op ∈ [.neg, .not]) :
    Reports (requireOperand op e p pl) := by
  simp only [List.mem_cons, List.not_mem_nil, or_false] at hop
  rcases hop with rfl | rfl
  · exact reports_requireNumeric
  · exact reports_requireBoolean

theorem reports_memberType (op : AccessOp) (name : String) :
    Reports (memberType st e op name p pl) := by
  unfold memberType
  split
  · exact (reports_require (.of_rule rfl)).bind fun _ => .ok _
  · dsimp only
    split
    · split
      · refine Reports.bind (.ok _) fun s => ?_
        split
        · exact .error (.of_rule rfl)
        · exact .ok _
      · exact .error (.of_rule rfl)
    · split
      · refine Reports.bind (.ok _) fun s => ?_
        split
        · exact .error (.of_rule rfl)
        · exact .ok _
      · exact .error (.of_rule rfl)

theorem reports_arrayType (es : List Expr) : Reports (arrayType p es) := by
  cases es with
  | nil => exact .ok _
  | cons => exact (reports_require (.of_rule rfl)).bind fun _ => .ok _

theorem reports_dictType (es : List (Expr × Expr)) : Reports (dictType p es) := by
  cases es with
  | nil => exact .ok _
  | cons => exact (reports_require (.of_rule rfl)).bind fun _ => .ok _

theorem reports_calleeOf (n : Nat) : Reports (calleeOf st e n p) := by
  unfold calleeOf
  split
  · exact (reports_require (.of_rule rfl)).bind fun _ => .ok _
  · exact .ok _
  · split
    · exact (reports_require (.of_rule rfl)).bind fun _ => .ok _
    · exact .error (.of_rule rfl)

theorem reports_inferAll {es : List Tree.Expr} (h : ∀ e ∈ es, Reports (infer st e)) :
    Reports (inferAll st es) := by
  induction es with
  | nil => exact .ok _
  | cons e es ih =>
    obtain ⟨he, hes⟩ := List.forall_mem_cons.1 h
    exact he.bind fun _ => (ih hes).bind fun _ => .ok _

theorem reports_inferEntries {es : List Tree.Entry} (hk : ∀ e ∈ es, Reports (infer st e.key))
    (hv : ∀ e ∈ es, Reports (infer st e.value)) : Reports (inferEntries st es) := by
  induction es with
  | nil => exact .ok _
  | cons e es ih =>
    obtain ⟨q, k, v⟩ := e
    obtain ⟨hke, hkes⟩ := List.forall_mem_cons.1 hk
    obtain ⟨hve, hves⟩ := List.forall_mem_cons.1 hv
    exact hke.bind fun _ => hve.bind fun _ => (ih hkes hves).bind fun _ => .ok _

theorem reports_infer {t : Tree.Expr} (h : t.Formed) : Reports (infer st t) := by
  induction h with
  | num h => exact reports_number h
  | str | bool => exact .ok _
  | var => exact reports_nameValue _
  | paren _ ih => exact ih
  | binary hop _ _ ihl ihr =>
    exact ihl.bind fun _ => ihr.bind fun _ => (reports_binaryType hop).bind fun _ => .ok _
  | unary hop _ ih => exact ih.bind fun _ => (reports_requireOperand hop).bind fun _ => .ok _
  | @call p f args _ _ ihf iha =>
    have hargs := reports_inferAll iha
    rw [infer]
    split
    · exact (Reports.map (reports_lookup _)).bind fun _ => (reports_calleeOf _).bind fun _ =>
        hargs.bind fun _ => .ok _
    · exact ihf.bind fun _ => (reports_calleeOf _).bind fun _ => hargs.bind fun _ => .ok _
  | member _ _ _ ih => exact ih.bind fun _ => (reports_memberType _ _).bind fun _ => .ok _
  | array _ ih => exact (reports_inferAll ih).bind fun _ => (reports_arrayType _).bind fun _ => .ok _
  | tuple _ ih => exact (reports_inferAll ih).bind fun _ => .ok _
  | dict _ _ ihk ihv =>
    exact (reports_inferEntries ihk ihv).bind fun _ => (reports_dictType _).bind fun _ => .ok _
  | emptyArray h => exact (reports_resolve h).bind fun _ => .ok _
  | emptyOptional h => exact (reports_resolve h).bind fun _ => .ok _

end Rules

/-! ### Steps -/

/-- A step that fails with a report only and leaves as many scopes open as it finds. -/
def Tame {α : Type} (x : Check α) : Prop :=
  ∀ st, Leaves (fun _ st' => st'.outer.length = st.outer.length) (·.cause.IsReport) (x st)

section Steps

variable {α β : Type} {x : Check α} {f : α → Check β}

theorem Tame.pure (a : α) : Tame (pure a) := fun _ => rfl

theorem Tame.bind (hx : Tame x) (hf : ∀ a, Tame (f a)) : Tame (x >>= f) :=
  fun st => leaves_bind (hx st) fun a st₁ h =>
    leaves_imp (hf a st₁) (fun _ _ h' => h'.trans h) fun _ h => h

theorem Tame.throw {e : Error} (h : e.cause.IsReport) : Tame (throw e : Check α) := fun _ => h

theorem tame_modify {g : State → State} (h : ∀ st, (g st).outer.length = st.outer.length) :
    Tame (modify g : Check Unit) := h

theorem tame_ask {q : State → Except Error α} (h : ∀ st, Reports (q st)) : Tame (Check.ask q) := by
  intro st
  unfold Check.ask
  split
  · rfl
  · next e he => exact h st e he

theorem tame_lift {r : Except Error α} (h : Reports r) : Tame (Check.lift r) := tame_ask fun _ => h

/-- A scope that is opened can be closed. -/
theorem tame_within {inLoop : Option Bool} {function : Option Callable} {cls : Option Entity}
    (h : Tame x) : Tame (Check.within inLoop function cls x) := by
  intro st
  refine leaves_bind
    (Q := fun _ (st₁ : State) => st₁.outer.length = st.outer.length + 1) rfl fun _ st₁ hopen => ?_
  refine leaves_bind (h st₁) fun a st₂ hbody => ?_
  have houter : st₂.outer.length = st.outer.length + 1 := hbody.trans hopen
  refine leaves_bind
    (Q := fun _ (st₃ : State) => st₃.outer.length = st.outer.length) ?_ fun _ _ hclosed => hclosed
  unfold Check.leave State.exit?
  cases ho : st₂.outer with
  | nil =>
    rw [ho] at houter
    cases houter
  | cons s rest =>
    rw [ho, List.length_cons] at houter
    exact Nat.succ.inj houter

theorem tame_fresh : Tame Check.fresh := fun _ => rfl

theorem tame_get : Tame (get : Check State) := fun _ => rfl

theorem tame_notDeclared (name : String) (p : Pos) : Tame (Check.notDeclared name p) :=
  tame_ask fun _ => reports_require (.of_rule rfl)

theorem tame_declare (name : String) (e : Entity) (p : Pos) : Tame (Check.declare name e p) :=
  (tame_notDeclared name p).bind fun _ => tame_modify fun _ => rfl

end Steps

/-! ### Parts of statements -/

section Parts

variable {p : Pos}

theorem tame_expr {e : Tree.Expr} (h : e.Formed) : Tame (Check.expr e) :=
  tame_ask fun _ => reports_infer h

theorem tame_type? {t : Option Tree.TypeExpr} (h : ∀ u ∈ t, u.Formed) : Tame (Check.type? t) := by
  cases t with
  | none => exact .pure _
  | some t => exact (tame_ask fun _ => reports_resolve (h t rfl)).bind fun _ => .pure _

theorem tame_expr? {e : Option Tree.Expr} (h : ∀ d ∈ e, d.Formed) : Tame (Check.expr? e) := by
  cases e with
  | none => exact .pure _
  | some e => exact (tame_expr (h e rfl)).bind fun _ => .pure _

theorem reports_slotType (declared : Option Ty) (init : Option Expr) :
    Reports (Check.slotType declared init p) := by
  unfold Check.slotType
  split
  · exact (reports_requireAssignable _).bind fun _ => .ok _
  · exact .ok _
  · exact .ok _
  · exact .ok _

theorem tame_newVariable (name : String) (init : Option Expr) (t : Ty) :
    Tame (Check.newVariable name init t p) :=
  tame_fresh.bind fun _ => (tame_declare _ _ _).bind fun _ => .pure _

theorem tame_params {qs : List Tree.Param} (h : ∀ q ∈ qs, q.Formed) : Tame (Check.params qs) := by
  induction qs with
  | nil => exact .pure _
  | cons q qs ih =>
    obtain ⟨hq, hqs⟩ := List.forall_mem_cons.1 h
    obtain ⟨name, hname⟩ := Option.isSome_iff_exists.1 hq.name
    have hpart : Reports (part "id" q.name) := by
      rw [hname]
      exact .ok _
    exact (tame_type? hq.type).bind fun _ => (tame_lift hpart).bind fun _ => tame_fresh.bind fun _ =>
      (tame_declare _ _ _).bind fun _ => (ih hqs).bind fun _ => .pure _

theorem tame_announce (cls : Option Entity) (f : Entity) : Tame (Check.announce cls f p) := by
  cases cls with
  | none => exact tame_declare _ _ _
  | some c => exact tame_ask fun _ => reports_require (.of_rule rfl)

theorem tame_settle (cls : Option Entity) (f : Entity) : Tame (Check.settle cls f) := by
  cases cls with
  | none =>
    refine tame_modify fun st => ?_
    unfold State.settle
    split
    · rfl
    · next h => simp [h]
  | some c => exact tame_modify fun _ => rfl

theorem tame_function (cls : Option Entity) (name : String) {ps : List Tree.Param}
    {returns : Option Tree.TypeExpr}
    {body : Check (List Stmt)} (hp : ∀ q ∈ ps, q.Formed) (hr : ∀ t ∈ returns, t.Formed)
    (hb : Tame body) : Tame (Check.function cls p name ps returns body) := by
  refine (tame_type? hr).bind fun _ => tame_fresh.bind fun _ => (tame_announce _ _).bind fun _ =>
    tame_within ?_
  exact (tame_params hp).bind fun _ => (tame_settle _ _).bind fun _ => hb.bind fun _ => .pure _

theorem tame_fields (id : Nat) {body : List Tree.Stmt} (h : ∀ s ∈ body, s.Formed) :
    Tame (Check.fields id body) := by
  induction body with
  | nil => exact .pure _
  | cons s body ih =>
    obtain ⟨hs, hbody⟩ := List.forall_mem_cons.1 h
    cases hs with
    | varDecl _ ht hi =>
      refine Tame.bind ?_ fun _ => ih hbody
      refine (tame_lift (reports_require ⟨by decide, fun _ => rfl⟩)).bind fun _ => ?_
      refine (tame_ask fun _ => reports_require (.of_rule rfl)).bind fun _ => ?_
      exact (tame_type? ht).bind fun _ => tame_modify fun _ => rfl
    | _ => exact ih hbody

theorem tame_test {e : Tree.Expr} (h : e.Formed) : Tame (Check.test e) :=
  (tame_expr h).bind fun _ => (tame_lift reports_requireBoolean).bind fun _ => .pure _

theorem tame_bound {e : Tree.Expr} (h : e.Formed) : Tame (Check.bound e) :=
  (tame_expr h).bind fun _ => (tame_lift reports_requireNumeric).bind fun _ => .pure _

theorem tame_iterators (is : List (String × Ty)) : Tame (Check.iterators p is) := by
  induction is with
  | nil => exact .pure _
  | cons i is ih =>
    exact tame_fresh.bind fun _ => (tame_declare _ _ _).bind fun _ => ih.bind fun _ => .pure _

theorem tame_target {e : Tree.Expr} (h : e.Formed) : Tame (Check.target e) := by
  refine (tame_expr h).bind fun t => Tame.bind (tame_lift ?_) fun _ => .pure _
  unfold Check.requirePlace
  split
  · exact .error (.of_rule rfl)
  · exact .error (.of_rule rfl)
  · exact .error (.of_rule rfl)
  · exact .error (.of_rule rfl)
  · exact .error (.of_rule rfl)
  · exact .ok _

end Parts

/-! ### Statements -/

section Statements

variable {p : Pos} {body : Check (List Stmt)}

theorem tame_rangeLoop (name : String) {low high : Tree.Expr} {op : RangeOp} (hl : low.Formed)
    (hop : op ∈ [.through, .below]) (hh : high.Formed) (hb : Tame body) :
    Tame (Check.rangeLoop p (some name) low (some op) high body) := by
  have hrange : Reports (Check.rangeOp p (some op)) := by
    simp only [List.mem_cons, List.not_mem_nil, or_false] at hop
    rcases hop with rfl | rfl <;> exact .ok _
  refine (tame_bound hl).bind fun _ => (tame_bound hh).bind fun _ =>
    (tame_lift (.ok name)).bind fun _ =>
    tame_fresh.bind fun _ => Tame.bind (tame_within ?_) fun _ => (tame_lift hrange).bind fun _ =>
      .pure _
  exact (tame_declare _ _ _).bind fun _ => hb

theorem tame_eachLoop (names : List String) {e : Tree.Expr} (he : e.Formed) (hb : Tame body) :
    Tame (Check.eachLoop p (some names) e body) := by
  have helements (t : Ty) : Reports (Check.elementTypes t e.pos) := by
    unfold Check.elementTypes
    split
    · exact .ok _
    · exact .ok _
    · exact .error (.of_rule rfl)
  refine (tame_expr he).bind fun _ => (tame_lift (helements _)).bind fun _ =>
    (tame_lift (.ok names)).bind fun _ =>
    (tame_lift (reports_require (.of_rule rfl))).bind fun _ => tame_within ?_
  exact (tame_iterators _).bind fun _ => hb.bind fun _ => .pure _

theorem tame_ret {value : Option Tree.Expr} (h : ∀ e ∈ value, e.Formed) : Tame (Check.ret p value) := by
  refine tame_get.bind fun st => ?_
  split
  · exact .throw (.of_rule rfl)
  · split
    · exact (tame_lift (reports_require (.of_rule rfl))).bind fun _ => .pure _
    · next e =>
      exact (tame_lift (reports_require (.of_rule rfl))).bind fun _ =>
        (tame_expr (h e rfl)).bind fun _ =>
        (tame_lift (reports_requireAssignable _)).bind fun _ => .pure _

theorem tame_bump {e : Tree.Expr} (h : e.Formed) (op : BumpOp) : Tame (Check.bump p e (some op)) := by
  refine (tame_target h).bind fun _ => (tame_lift reports_requireNumeric).bind fun _ =>
    (tame_lift (.ok op)).bind fun _ => ?_
  split <;> exact .pure _

theorem tame_block {ts : List Tree.Stmt} (h : ∀ t ∈ ts, Tame (Check.stmt t)) :
    Tame (Check.block ts) := by
  induction ts with
  | nil => exact .pure _
  | cons t ts ih =>
    obtain ⟨ht, hts⟩ := List.forall_mem_cons.1 h
    exact ht.bind fun _ => (ih hts).bind fun _ => .pure _

theorem tame_elseIfClauses {cs : List Tree.ElseIf} (ht : ∀ c ∈ cs, c.test.Formed)
    (hb : ∀ c ∈ cs, Tame (Check.block c.body)) : Tame (Check.elseIfClauses cs) := by
  induction cs with
  | nil => exact .pure _
  | cons c cs ih =>
    obtain ⟨q, t, b⟩ := c
    obtain ⟨htc, htcs⟩ := List.forall_mem_cons.1 ht
    obtain ⟨hbc, hbcs⟩ := List.forall_mem_cons.1 hb
    exact (tame_test htc).bind fun _ => (tame_within hbc).bind fun _ => (ih htcs hbcs).bind fun _ =>
      .pure _

/-- A statement is tame, and so is its analysis in the body of a class. -/
structure TameStmt (t : Tree.Stmt) : Prop where
  stmt : Tame (Check.stmt t)
  method : ∀ {cls rest}, Tame (Check.methods cls rest) → Tame (Check.methods cls (t :: rest))

theorem tame_drop (kind cls : String) : Tame (Check.drop kind cls) := tame_modify fun _ => rfl

theorem TameStmt.leftOut {t : Tree.Stmt} (hk : isMember t = false) (h : Tame (Check.stmt t)) :
    TameStmt t where
  stmt := h
  method hrest := by
    rw [Check.methods_leftOut hk]
    exact h.bind fun _ => (tame_drop _ _).bind fun _ => hrest

theorem tame_methods {cls : Entity} {ts : List Tree.Stmt} (h : ∀ t ∈ ts, TameStmt t) :
    Tame (Check.methods cls ts) := by
  induction ts with
  | nil => exact .pure _
  | cons t ts ih =>
    obtain ⟨ht, hts⟩ := List.forall_mem_cons.1 h
    exact ht.method (ih hts)

theorem tame_of_formed {t : Tree.Stmt} (h : t.Formed) : TameStmt t := by
  induction h with
  | varDecl _ ht hi =>
    refine ⟨?_, fun hrest => hrest⟩
    exact (tame_notDeclared _ _).bind fun _ => (tame_type? ht).bind fun _ =>
      (tame_expr? hi).bind fun _ =>
      (tame_lift (reports_slotType _ _)).bind fun _ => tame_newVariable _ _ _
  | collection _ h =>
    refine .leftOut rfl ?_
    exact (tame_notDeclared _ _).bind fun _ => (tame_expr h).bind fun _ => tame_newVariable _ _ _
  | @function p name ps returns body _ hp hr _ ih =>
    have hps : ∀ q ∈ ps.getD [], q.Formed := by
      cases ps with
      | none => simp
      | some qs => exact hp qs rfl
    have hbody := tame_block fun t ht => (ih t ht).stmt
    refine ⟨(tame_function none name hps hr hbody).bind fun _ => .pure _, fun hrest => ?_⟩
    exact (tame_function (some _) name hps hr hbody).bind fun _ => hrest.bind fun _ => .pure _
  | @classDecl p name body _ hb ih =>
    refine .leftOut rfl
      (tame_fresh.bind fun _ => (tame_declare _ _ _).bind fun _ => Tame.bind (tame_within ?_) fun _ =>
      tame_get.bind fun _ => .pure _)
    exact (tame_fields _ hb).bind fun _ => tame_methods ih
  | @ifChain p t body cs rest ht _ hct _ _ ihb ihc ihr =>
    have hbody := tame_block fun s hs => (ihb s hs).stmt
    have hclauses := tame_elseIfClauses hct fun c hc => tame_block fun s hs => (ihc c hc s hs).stmt
    refine .leftOut rfl ?_
    cases rest with
    | none =>
      exact (tame_test ht).bind fun _ => (tame_within hbody).bind fun _ => hclauses.bind fun _ =>
        .pure _
    | some b =>
      have hrest := tame_block fun s hs => (ihr b rfl s hs).stmt
      exact (tame_test ht).bind fun _ => (tame_within hbody).bind fun _ => hclauses.bind fun _ =>
        (tame_within hrest).bind fun _ => .pure _
  | whileLoop ht _ ih =>
    have hbody := tame_block fun s hs => (ih s hs).stmt
    exact .leftOut rfl ((tame_test ht).bind fun _ => (tame_within hbody).bind fun _ => .pure _)
  | rangeLoop _ hl hop hh _ ih =>
    exact .leftOut rfl (tame_rangeLoop _ hl hop hh (tame_block fun s hs => (ih s hs).stmt))
  | eachLoop _ he _ ih => exact .leftOut rfl (tame_eachLoop _ he (tame_block fun s hs => (ih s hs).stmt))
  | print h =>
    exact .leftOut rfl
      ((tame_ask fun _ => reports_inferAll fun e he => reports_infer (h e he)).bind fun _ => .pure _)
  | ret h => exact .leftOut rfl (tame_ret h)
  | brk => exact .leftOut rfl ((tame_ask fun _ => reports_require (.of_rule rfl)).bind fun _ => .pure _)
  | assign ht he =>
    exact .leftOut rfl ((tame_expr he).bind fun _ => (tame_target ht).bind fun _ =>
      (tame_lift (reports_requireAssignable _)).bind fun _ => .pure _)
  | addAssign ht he =>
    exact .leftOut rfl ((tame_expr he).bind fun _ => (tame_target ht).bind fun _ =>
      (tame_lift reports_requireNumericOrString).bind fun _ =>
        (tame_lift (reports_requireAssignable _)).bind fun _ => .pure _)
  | bump ht => exact .leftOut rfl (tame_bump ht _)
  | call hf ha => exact .leftOut rfl ((tame_expr (.call hf ha)).bind fun _ => .pure _)

end Statements

/-- The analysis of a tree that came from a source text fails with a report only. -/
theorem reports_analyze {tree : Tree.Program} (h : ∀ t ∈ tree, t.Formed) :
    Reports (analyze tree).1 := by
  have hrun := tame_block (fun t ht => (tame_of_formed (h t ht)).stmt) .initial
  unfold analyze
  cases hb : Check.block tree .initial with
  | ok ss st => exact .ok _
  | error e st =>
    rw [hb] at hrun
    exact .error hrun

end Snack.Typing
