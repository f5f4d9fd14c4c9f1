import Snack.Proofs.Core.Spelled
import Snack.Proofs.Tree.Formed
import Snack.Proofs.Typing.Sound

/-! The names in an accepted program are those of its tree, so they are words if the tree came from a source
text. A method is known to its class only, so no expression has it for a value. -/

namespace Snack.Typing

open Snack.Core
open Token (Word)

/-! ### Expressions -/

section Expressions

variable {st : State} {P : Expr → Prop}

theorem forall_inferAll {ts : List Tree.Expr} {es : List Expr} (h : inferAll st ts = .ok es)
    (hP : ∀ t ∈ ts, ∀ {e}, infer st t = .ok e → P e) : ∀ e ∈ es, P e := by
  induction ts generalizing es with
  | nil =>
    cases h
    exact List.forall_mem_nil _
  | cons t ts ih =>
    simp only [inferAll, except_bind_ok, except_pure_ok] at h
    obtain ⟨d, hd, ds, hds, rfl⟩ := h
    obtain ⟨ht, hts⟩ := List.forall_mem_cons.1 hP
    exact List.forall_mem_cons.2 ⟨ht hd, ih hds hts⟩

theorem forall_inferEntries {ts : List Tree.Entry} {es : List (Expr × Expr)}
    (h : inferEntries st ts = .ok es) (hk : ∀ t ∈ ts, ∀ {e}, infer st t.key = .ok e → P e)
    (hv : ∀ t ∈ ts, ∀ {e}, infer st t.value = .ok e → P e) : ∀ e ∈ es, P e.1 ∧ P e.2 := by
  induction ts generalizing es with
  | nil =>
    cases h
    exact List.forall_mem_nil _
  | cons t ts ih =>
    obtain ⟨p, key, value⟩ := t
    simp only [inferEntries, except_bind_ok, except_pure_ok] at h
    obtain ⟨k, hke, v, hve, ds, hds, rfl⟩ := h
    obtain ⟨hkt, hkts⟩ := List.forall_mem_cons.1 hk
    obtain ⟨hvt, hvts⟩ := List.forall_mem_cons.1 hv
    exact List.forall_mem_cons.2 ⟨⟨hkt hke, hvt hve⟩, ih hds hkts hvts⟩

theorem forall_infer? {o : Option Tree.Expr} (hP : ∀ {t e}, t.Formed → infer st t = .ok e → P e)
    (ho : ∀ t ∈ o, t.Formed) {r : Option Expr} (h : o.mapM (infer st) = .ok r) : ∀ e ∈ r, P e := by
  rcases option_mapM_ok.1 h with ⟨-, rfl⟩ | ⟨t, e, rfl, rfl, he⟩
  · exact fun e he => nomatch he
  · rintro _ ⟨⟩
    exact hP (ho t rfl) he

theorem spelled_of_infer (hst : Knows st Nameable) {t : Tree.Expr} (ht : t.Formed) {e : Expr}
    (h : infer st t = .ok e) : Spelled e := by
  induction ht generalizing e with
  | num =>
    rcases number_ok h with ⟨n, rfl⟩ | ⟨x, rfl⟩
    · exact .int n
    · exact .float x
  | str =>
    cases h
    exact .str _
  | bool =>
    cases h
    exact .bool _
  | var =>
    obtain ⟨x, hx, rfl⟩ := nameValue_ok hst h
    exact .ref hx
  | paren _ ih => exact ih h
  | binary hop _ _ ihl ihr =>
    simp only [infer, except_bind_ok, except_pure_ok] at h
    obtain ⟨l, hl, r, hr, t, -, rfl⟩ := h
    exact .binary hop (ihl hl) (ihr hr)
  | unary hop _ ih =>
    simp only [infer, except_bind_ok, except_pure_ok] at h
    obtain ⟨o, ho, _, -, rfl⟩ := h
    exact .unary hop (ih ho)
  | call _ _ ihf iha =>
    obtain ⟨f, es, hf, has, hres⟩ := infer_call_ok h
    have hf : Spelled f := by
      rcases hf with ⟨name, x, hx, rfl⟩ | hf
      · exact .ref (hst.of_find? hx)
      · exact ihf hf
    have ha := forall_inferAll has fun t ht {e} he => iha t ht he
    rcases hres with ⟨c, rfl, -, -, rfl⟩ | ⟨ps, r, -, -, rfl⟩
    · cases hf with
      | ref hc => exact .construct hc ha
    · exact .call hf ha
  | member hop hn _ ih =>
    simp only [infer, except_bind_ok, Check.part_ok, except_pure_ok] at h
    obtain ⟨o, ho, _, ⟨⟩, _, ⟨⟩, t, -, rfl⟩ := h
    exact .member hop hn (ih ho)
  | array _ ih =>
    simp only [infer, except_bind_ok, except_pure_ok] at h
    obtain ⟨es, hes, t, -, rfl⟩ := h
    exact .array (forall_inferAll hes fun t ht {e} he => ih t ht he)
  | tuple _ ih =>
    simp only [infer, except_bind_ok, except_pure_ok] at h
    obtain ⟨es, hes, rfl⟩ := h
    exact .tuple (forall_inferAll hes fun t ht {e} he => ih t ht he)
  | dict _ _ ihk ihv =>
    simp only [infer, except_bind_ok, except_pure_ok] at h
    obtain ⟨es, hes, t, -, rfl⟩ := h
    have he := forall_inferEntries hes (fun t ht {e} he => ihk t ht he) fun t ht {e} he => ihv t ht he
    exact .dict (fun e hmem => (he e hmem).1) fun e hmem => (he e hmem).2
  | emptyArray =>
    simp only [infer, except_bind_ok, except_pure_ok] at h
    obtain ⟨t, -, rfl⟩ := h
    exact .emptyArray
  | emptyOptional =>
    simp only [infer, except_bind_ok, except_pure_ok] at h
    obtain ⟨t, -, rfl⟩ := h
    exact .emptyOptional

end Expressions

/-! ### Declarations -/

section Declarations

variable {st st' : State}

theorem formed_getD {ps : Option (List Tree.Param)} (h : ∀ qs ∈ ps, ∀ q ∈ qs, q.Formed) :
    ∀ q ∈ ps.getD [], q.Formed := by
  cases ps with
  | none => exact List.forall_mem_nil _
  | some qs => exact h qs rfl

theorem nameable_params {ps : List Tree.Param} {qs : List Entity} (hp : ∀ q ∈ ps, q.Formed)
    (h : Check.params ps st = .ok qs st') : ∀ q ∈ qs, Own (fun e => Word e.name) q ∧ Nameable q := by
  induction ps generalizing st qs with
  | nil =>
    obtain ⟨rfl, rfl⟩ := pure_ok.1 h
    exact List.forall_mem_nil _
  | cons p ps ih =>
    simp only [Check.params, bind_ok, Check.type?_ok, Check.lift_ok, Check.part_ok, Check.fresh_ok,
      Check.declare_ok, pure_ok] at h
    obtain ⟨r, _, ⟨-, rfl⟩, name, _, ⟨hname, rfl⟩, _, _, ⟨rfl, rfl⟩, _, _, ⟨-, rfl⟩, qs, _, hqs, rfl,
      rfl⟩ := h
    obtain ⟨hp, hps⟩ := List.forall_mem_cons.1 hp
    have hword := hp.word name hname
    exact List.forall_mem_cons.2 ⟨⟨⟨hword, rfl⟩, hword, by rintro ⟨⟩⟩, ih hps hqs⟩

/-- A loop over a collection has an iterator. -/
theorem elementTypes_ne_nil {t : Ty} {p : Pos} {ts : List Ty} (h : Check.elementTypes t p = .ok ts) :
    ts ≠ [] := by
  unfold Check.elementTypes at h
  split at h <;> cases h <;> simp

theorem words_iterators {p : Pos} {ns : List (String × Ty)} {is : List Entity} (hn : ∀ n ∈ ns, Word n.1)
    (h : Check.iterators p ns st = .ok is st') : ∀ i ∈ is, Word i.name := by
  induction ns generalizing st is with
  | nil =>
    obtain ⟨rfl, rfl⟩ := pure_ok.1 h
    exact List.forall_mem_nil _
  | cons n ns ih =>
    simp only [Check.iterators, bind_ok, Check.fresh_ok, Check.declare_ok, pure_ok] at h
    obtain ⟨_, _, ⟨rfl, rfl⟩, _, _, ⟨-, rfl⟩, is, _, his, rfl, rfl⟩ := h
    obtain ⟨hn, hns⟩ := List.forall_mem_cons.1 hn
    exact List.forall_mem_cons.2 ⟨hn, ih hns his⟩

/-- All that is known is called by words, and a method is no name in scope. -/
structure InWords (st : State) : Prop where
  scopes : Knows st Nameable
  fields : ∀ k, ∀ f ∈ (st.membersOf k).fields, Word f.name

namespace InWords

theorem of_members (h : InWords st) (hk : Knows st' Nameable) (hm : st'.members = st.members) : InWords st' := by
  refine ⟨hk, fun k => ?_⟩
  rw [State.membersOf_congr hm]
  exact h.fields k

theorem add {e : Entity} (h : InWords st) (he : Nameable e) : InWords (st.add e) :=
  h.of_members (h.scopes.add he) rfl

theorem addAll {es : List Entity} (h : InWords st) (he : ∀ e ∈ es, Nameable e) : InWords (st.addAll es) :=
  h.of_members (h.scopes.addAll he) (State.addAll_members _ _)

theorem enter {l : Option Bool} {f : Option Callable} (h : InWords st) : InWords (st.enter l f none) :=
  h.of_members (h.scopes.enter nofun) rfl

theorem backTo {before : State} (h : InWords st) (hb : InWords before) : InWords (st.backTo before) :=
  ⟨hb.scopes.backTo, h.fields⟩

theorem addMethod (h : InWords st) (id : Nat) (e : Entity) : InWords (st.addMethod id e) where
  scopes := h.scopes.of_scopes rfl rfl
  fields k := by
    rw [State.membersOf_addMethod]
    split
    · exact h.fields id
    · exact h.fields k

theorem addFields (h : InWords st) {id : Nat} {ts : List Tree.Stmt} {u : Unit}
    (ht : ∀ t ∈ ts, t.Formed) (hf : Check.fields id ts st = .ok u st') : InWords st' := by
  induction ts generalizing st with
  | nil =>
    obtain ⟨-, rfl⟩ := pure_ok.1 hf
    exact h
  | cons t ts ih =>
    obtain ⟨htf, hts⟩ := List.forall_mem_cons.1 ht
    cases t with
    | varDecl p t name init =>
      simp only [Check.fields, Check.field, bind_ok, Check.lift_ok, Check.ask_ok, Check.type?_ok,
        modify_ok] at hf
      obtain ⟨_, _, ⟨_, _, ⟨-, rfl⟩, _, _, ⟨-, rfl⟩, r, _, ⟨-, rfl⟩, rfl⟩, hf⟩ := hf
      have hin : InWords (st.addField id ⟨name, r.getD .any⟩) := by
        refine ⟨h.scopes.of_scopes rfl rfl, fun k => ?_⟩
        rw [State.membersOf_addField]
        split
        · cases htf with
          | varDecl hn => exact List.forall_mem_append.2 ⟨h.fields id, List.forall_mem_singleton.2 hn⟩
        · exact h.fields k
      exact ih hin hts hf
    | absent part => exact absurd hf throw_ok
    | _ => exact ih h hts hf

/-! Parameters, classes and loops. -/

variable {st₀ st₁ : State} {name : String}

theorem inParams {ps : Option (List Tree.Param)} {qs : List Entity} (h : InWords st)
    (hp : ∀ qs ∈ ps, ∀ q ∈ qs, q.Formed) (hq : Check.params (ps.getD []) st₀ = .ok qs st₁) :
    (∀ q ∈ qs, Own (fun e => Word e.name) q) ∧ InWords (st.addAll qs) := by
  have hqs := nameable_params (formed_getD hp) hq
  exact ⟨fun q hq => (hqs q hq).1, h.addAll fun q hq => (hqs q hq).2⟩

theorem inClass {ts : List Tree.Stmt} {u : Unit} (h : InWords st) (hn : Word name) (ht : ∀ t ∈ ts, t.Formed)
    (hf : Check.fields st.next ts ((st.add (classEntity st.next name)).enterClass (classEntity st.next name)) =
      .ok u st₁) : InWords st₁ := by
  have hc : Nameable (classEntity st.next name) := ⟨hn, nofun⟩
  have hin : InWords ((st.add (classEntity st.next name)).enterClass (classEntity st.next name)) :=
    h.of_members ((h.scopes.add hc).enter (by rintro _ ⟨⟩; exact hc)) rfl
  exact hin.addFields ht hf

theorem inEachLoop {p q : Pos} {t : Ty} {ts : List Ty} {names : List String} {is : List Entity} (h : InWords st)
    (hn : ∀ n ∈ names, Word n) (ht : Check.elementTypes t q = .ok ts) (hlen : names.length = ts.length)
    (hi : Check.iterators p (names.zip ts) st.enterLoop = .ok is st₀) :
    is ≠ [] ∧ (∀ i ∈ is, Own (fun e => Word e.name) i) ∧ InWords (st.enterLoop.addAll is) := by
  have hwords := words_iterators (fun n hmem => hn _ (List.of_mem_zip hmem).1) hi
  obtain ⟨htypes, hkinds⟩ := iterators_typ hi
  refine ⟨?_, fun i hi => ⟨hwords i hi, by rw [hkinds i hi]; rfl⟩, ?_⟩
  · rintro rfl
    have hlength : 0 = ts.length := by simpa [hlen] using congrArg List.length htypes
    exact elementTypes_ne_nil ht (List.length_eq_zero_iff.1 hlength.symm)
  · exact InWords.addAll h.enter fun i hi => ⟨hwords i hi, by simp [hkinds i hi]⟩

end InWords

end Declarations

/-! ### Whole programs -/

/-- The tree of a task came from a source text. -/
def Task.Formed : Task → Prop
  | .stmt t => t.Formed
  | .block ts => ∀ t ∈ ts, t.Formed
  | .clauses cs => ∀ c ∈ cs, c.test.Formed ∧ ∀ s ∈ c.body, s.Formed
  | .methods _ ts => ∀ t ∈ ts, t.Formed

section Programs

variable {P : Expr → Prop}

/-- The parts of an answer declare words only, and their expressions have the property `P`. -/
def Answer.Worded (P : Expr → Prop) : Answer → Prop
  | .stmt s => Core.Worded P (.stmt s)
  | .block ss => ∀ s ∈ ss, Core.Worded P (.stmt s)
  | .clauses cs => ∀ c ∈ cs, P c.test ∧ ∀ s ∈ c.body, Core.Worded P (.stmt s)
  | .methods fs _ => ∀ f ∈ fs, Core.Worded P (.function f)

theorem worded_clauses {cs : List Check.Clause} {rest : Else} (hc : (Answer.clauses cs).Worded P)
    (hr : Worded P (.rest rest)) : Worded P (.rest (Check.clauses cs rest)) := by
  induction cs with
  | nil => exact hr
  | cons c cs ih =>
    obtain ⟨ht, hb⟩ := hc c List.mem_cons_self
    exact .elseIf ht hb (ih fun d hd => hc d (List.mem_cons_of_mem _ hd))

/-- What holds of every expression that is inferred from a source text holds of every expression in an
answer. -/
theorem Accepts.spells (hP : ∀ {st t e}, Knows st Nameable → t.Formed → infer st t = .ok e → P e)
    {task : Task} {st st' : State} {ans : Answer} (h : Accepts task st ans st')
    (ht : task.Formed) (hst : InWords st) : ans.Worded P ∧ InWords st' := by
  induction h with
  | varDecl _ _ hv _ =>
    cases ht with
    | varDecl hn _ hi =>
      exact ⟨.declare ⟨hn, rfl⟩ (forall_infer? (hP hst.scopes) hi hv), hst.add ⟨hn, nofun⟩⟩
  | collection _ hv =>
    cases ht with
    | collection hn he =>
      refine ⟨.declare ⟨hn, rfl⟩ ?_, hst.add ⟨hn, nofun⟩⟩
      rintro _ ⟨⟩
      exact hP hst.scopes he hv
  | @function p name ps returns body st r qs ss st₀ st₁ _ _ hq _ ih =>
    cases ht with
    | function hn hp _ hb =>
      have hf : InWords (st.add (functionEntity st.next false name qs (r.getD .void))) := hst.add ⟨hn, nofun⟩
      obtain ⟨hqs, hin⟩ := InWords.inParams hf.enter hp hq
      obtain ⟨hbody, hst₁⟩ := ih hb hin
      exact ⟨.function rfl (.body hn hqs hbody), hst₁.backTo hf⟩
  | @classDecl p name body st st₁ fs left st₂ _ hf _ ih =>
    cases ht with
    | classDecl hn hb =>
      obtain ⟨hmethods, hst₂⟩ := ih hb (hst.inClass hn hb hf)
      exact ⟨.classDecl ⟨hn, rfl⟩ (hst₂.fields st.next) hmethods, hst₂.backTo (hst.add ⟨hn, nofun⟩)⟩
  | ifChain ht' _ _ _ ihb ihc =>
    cases ht with
    | ifChain ht hfb hct hcb _ =>
      obtain ⟨hbody, hst₁⟩ := ihb hfb hst.enter
      obtain ⟨hclauses, hst₂⟩ := ihc (fun c hc => ⟨hct c hc, hcb c hc⟩) (hst₁.backTo hst)
      exact ⟨.ifElse (hP hst.scopes ht ht') hbody (worded_clauses hclauses .none), hst₂⟩
  | ifElse ht' _ _ _ _ ihb ihc ihe =>
    cases ht with
    | ifChain ht hfb hct hcb hr =>
      obtain ⟨hbody, hst₁⟩ := ihb hfb hst.enter
      obtain ⟨hclauses, hst₂⟩ := ihc (fun c hc => ⟨hct c hc, hcb c hc⟩) (hst₁.backTo hst)
      obtain ⟨helse, hst₃⟩ := ihe (hr _ rfl) hst₂.enter
      exact ⟨.ifElse (hP hst.scopes ht ht') hbody (worded_clauses hclauses (.block helse)), hst₃.backTo hst₂⟩
  | whileLoop ht' _ _ ih =>
    cases ht with
    | whileLoop ht hfb =>
      obtain ⟨hbody, hst₁⟩ := ih hfb hst.enter
      exact ⟨.whileLoop (hP hst.scopes ht ht') hbody, hst₁.backTo hst⟩
  | rangeLoop hl _ hh _ _ ho ih =>
    cases ht with
    | rangeLoop hn hfl _ hfh hfb =>
      obtain ⟨hbody, hst₁⟩ := ih hfb (InWords.add hst.enter ⟨hn, nofun⟩)
      exact ⟨.rangeLoop ⟨hn, rfl⟩ (hP hst.scopes hfl hl) (hP hst.scopes hfh hh) (rangeOp_ok ho) hbody,
        hst₁.backTo hst⟩
  | eachLoop hc hts hlen hi _ ih =>
    cases ht with
    | eachLoop hn hfc hfb =>
      obtain ⟨hne, his, hin⟩ := hst.inEachLoop hn hts hlen hi
      obtain ⟨hbody, hst₁⟩ := ih hfb hin
      obtain ⟨i, is, rfl⟩ := List.exists_cons_of_ne_nil hne
      exact ⟨.eachLoop his (hP hst.scopes hfc hc) hbody, hst₁.backTo hst⟩
  | retNone => exact ⟨.ret (by simp), hst⟩
  | ret _ _ he _ =>
    cases ht with
    | ret hv =>
      refine ⟨.ret ?_, hst⟩
      rintro _ ⟨⟩
      exact hP hst.scopes (hv _ rfl) he
  | brk => exact ⟨.brk, hst⟩
  | print he =>
    cases ht with
    | print hes => exact ⟨.print (forall_inferAll he fun t ht {e} => hP hst.scopes (hes t ht)), hst⟩
  | assign hs ht' _ _ =>
    cases ht with
    | assign hft hfs => exact ⟨.assign (hP hst.scopes hft ht') (hP hst.scopes hfs hs), hst⟩
  | addAssign hs ht' _ _ _ =>
    cases ht with
    | addAssign hft hfs => exact ⟨.addAssign (hP hst.scopes hft ht') (hP hst.scopes hfs hs), hst⟩
  | increment ht' _ _ =>
    cases ht with
    | bump hft => exact ⟨.increment (hP hst.scopes hft ht'), hst⟩
  | decrement ht' _ _ =>
    cases ht with
    | bump hft => exact ⟨.decrement (hP hst.scopes hft ht'), hst⟩
  | call he =>
    cases ht with
    | call hff hfa => exact ⟨.call (hP hst.scopes (.call hff hfa) he), hst⟩
  | nil | noClause | noMethod => exact ⟨List.forall_mem_nil _, hst⟩
  | cons _ _ ihs ihss =>
    obtain ⟨htf, htsf⟩ := List.forall_mem_cons.1 ht
    obtain ⟨hhead, hst₁⟩ := ihs htf hst
    obtain ⟨htail, hst₂⟩ := ihss htsf hst₁
    exact ⟨List.forall_mem_cons.2 ⟨hhead, htail⟩, hst₂⟩
  | clause ht' _ _ _ ihb ihc =>
    obtain ⟨⟨htf, hfb⟩, hfc⟩ := List.forall_mem_cons.1 ht
    obtain ⟨hbody, hst₁⟩ := ihb hfb hst.enter
    obtain ⟨hclauses, hst₂⟩ := ihc hfc (hst₁.backTo hst)
    exact ⟨List.forall_mem_cons.2 ⟨⟨hP hst.scopes htf ht', hbody⟩, hclauses⟩, hst₂⟩
  | field _ ih => exact ih (List.forall_mem_cons.1 ht).2 hst
  | @method cls p name ps returns body rest st r qs ss fs left st₀ st₁ st₂ _ _ hq _ _ ihb ihm =>
    obtain ⟨htf, htsf⟩ := List.forall_mem_cons.1 ht
    cases htf with
    | function hn hp _ hb =>
      have hskip : InWords st.skip := hst.of_members (hst.scopes.of_scopes rfl rfl) rfl
      obtain ⟨hqs, hin⟩ := InWords.inParams hskip.enter hp hq
      obtain ⟨hbody, hst₁⟩ := ihb hb (hin.addMethod _ _)
      obtain ⟨hmethods, hst₂⟩ := ihm htsf (hst₁.backTo hst)
      exact ⟨List.forall_mem_cons.2 ⟨.body hn hqs hbody, hmethods⟩, hst₂⟩
  | leftOut _ _ _ ihs ihm =>
    obtain ⟨htf, htsf⟩ := List.forall_mem_cons.1 ht
    obtain ⟨-, hst₁⟩ := ihs htf hst
    exact ihm htsf (hst₁.of_members (hst₁.scopes.of_scopes rfl rfl) rfl)

theorem worded_of_analyze (hP : ∀ {st t e}, Knows st Nameable → t.Formed → infer st t = .ok e → P e)
    {tree : Tree.Program} {p : Program} {st : State} (ht : ∀ t ∈ tree, t.Formed)
    (h : analyze tree = (.ok p, st)) : ∀ s ∈ p.statements, Worded P (.stmt s) := by
  have hlibrary : ∀ e ∈ standardLibrary, e.name.toList.all Token.isWordChar ∧ e.kind ≠ .function true := by
    decide
  have hst : Knows .initial Nameable :=
    .initial fun e he => ⟨List.all_eq_true.1 (hlibrary e he).1, (hlibrary e he).2⟩
  exact ((accepts_of_analyze h).spells hP ht ⟨hst, fun _ _ hf => nomatch hf⟩).1

end Programs

/-- An accepted program is spelled in words. -/
theorem spelled_of_analyze {tree : Tree.Program} {p : Program} {st : State} (ht : ∀ t ∈ tree, t.Formed)
    (h : analyze tree = (.ok p, st)) : p.Spelled :=
  worded_of_analyze (fun hst ht he => spelled_of_infer hst ht he) ht h

end Snack.Typing
