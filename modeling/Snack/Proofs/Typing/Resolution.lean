import Snack.Parser.Stmt
import Snack.Proofs.Typing.Lexical
import Snack.Proofs.Typing.Sound

/-! The analysis resolves names lexically. It has one current scope, which is opened and closed as it goes
through a program; at every point the scopes that are open hold what the environment of that point holds, so
looking a name up gives the entity that the rules of scope give. -/

namespace Snack.Typing

open Snack.Core

/-! ### Scopes and environments -/

/-- Entities under their names. -/
def tagged (es : List Entity) : List (String × Entity) := es.map fun e => (e.name, e)

/-- All names of the open scopes, innermost scope and latest name first. -/
def State.reach (st : State) : List (String × Entity) := (st.scope :: st.outer).flatMap (·.locals)

def Env.reach (env : Env) : List (String × Entity) := (env.here :: env.around).flatMap tagged

/-- The open scopes hold what the environment holds. -/
structure Views (st : State) (env : Env) : Prop where
  reach : st.reach = env.reach
  cls : st.scope.cls = env.cls

section Lookup

variable {α : Type}

theorem lookup_flatMap (f : α → List (String × Entity)) (regions : List α) (name : String) :
    (regions.flatMap f).lookup name = regions.findSome? fun r => (f r).lookup name := by
  induction regions with
  | nil => rfl
  | cons r rs ih =>
    rw [List.flatMap_cons, List.lookup_append, ih, List.findSome?_cons]
    cases (f r).lookup name <;> rfl

theorem lookup_tagged (es : List Entity) (name : String) :
    (tagged es).lookup name = es.find? fun e => e.name = name := by
  induction es with
  | nil => rfl
  | cons e es ih =>
    rw [tagged, List.map_cons, List.lookup_cons, List.find?_cons]
    by_cases h : e.name = name
    · simp [h]
    · have hne : (name == e.name) = false := by simpa using Ne.symm h
      simp only [hne, h, decide_false]
      exact ih

end Lookup

theorem State.find?_eq (st : State) (name : String) : st.find? name = st.reach.lookup name :=
  (lookup_flatMap _ _ _).symm

theorem Env.find?_eq (env : Env) (name : String) : env.find? name = env.reach.lookup name := by
  rw [reach, lookup_flatMap, find?]
  simp only [lookup_tagged]

theorem Env.declareAll_eq (env : Env) (es : List Entity) :
    env.declareAll es = { env with here := es.reverse ++ env.here } := by
  induction es generalizing env with
  | nil => rfl
  | cons e es ih =>
    have hcons : env.declareAll (e :: es) = (env.declare e).declareAll es := rfl
    rw [hcons, ih]
    simp [declare]

namespace Views

variable {st st' : State} {env : Env}

theorem find? (h : Views st env) (name : String) : st.find? name = env.find? name := by
  rw [State.find?_eq, Env.find?_eq, h.reach]

theorem of_scopes (h : Views st env) (hs : st'.scope = st.scope) (ho : st'.outer = st.outer) :
    Views st' env where
  reach := by
    rw [State.reach, hs, ho]
    exact h.reach
  cls := by
    rw [hs]
    exact h.cls

/-- What a run adds to the innermost scope is declared in the region at hand. -/
theorem of_grows {es : List Entity} (h : Views st env) (hg : Grows st st' (State.names es)) :
    Views st' (env.declareAll es) where
  reach := by
    -- on both sides the new names come in front of the same rest
    have hreach := h.reach
    simp only [State.reach, Env.reach, List.flatMap_cons] at hreach
    rw [State.reach, hg.scope, hg.outer, Env.declareAll_eq]
    simp only [Env.reach, List.flatMap_cons, tagged, List.map_append, List.append_assoc, hreach]
    simp [State.names]
  cls := by
    rw [hg.scope, Env.declareAll_eq]
    exact h.cls

theorem addAll (h : Views st env) (es : List Entity) : Views (st.addAll es) (env.declareAll es) :=
  h.of_grows (.addAll st es)

theorem add (h : Views st env) (e : Entity) : Views (st.add e) (env.declare e) := h.addAll [e]

theorem backTo {before : State} (h : Views before env) : Views (st.backTo before) env := h.of_scopes rfl rfl

theorem enter (h : Views st env) (l : Option Bool) (f : Option Callable) :
    Views (st.enter l f none) env.region where
  reach := h.reach
  cls := h.cls

theorem enterClass (h : Views st env) (c : Entity) : Views (st.enterClass c) (env.classRegion c) where
  reach := h.reach
  cls := rfl

theorem addFields (h : Views st env) (id : Nat) (fs : List Field) : Views (st.addFields id fs) env := by
  rw [State.addFields_eq]
  exact h.of_scopes rfl rfl

theorem start : Views .initial .start where
  reach := by simp [State.reach, Env.reach, State.initial, Env.start, tagged]
  cls := rfl

/-! ### Written types -/

theorem type? (h : Views st env) (t : Tree.TypeExpr) {ty : Ty} (ht : resolve st t = .ok ty) :
    env.type? t = some ty := by
  induction t generalizing ty with
  | named p name =>
    simp only [resolve] at ht
    split at ht
    · next q hq =>
      cases ht
      simp [Env.type?, hq]
    · cases ht
  | array p base ih =>
    simp only [resolve, except_bind_ok, except_pure_ok] at ht
    obtain ⟨b, hb, rfl⟩ := ht
    simp [Env.type?, ih hb]
  | dict p key value ihk ihv =>
    simp only [resolve, except_bind_ok, except_pure_ok] at ht
    obtain ⟨k, hk, v, hv, rfl⟩ := ht
    simp [Env.type?, ihk hk, ihv hv]
  | optional p base ih =>
    simp only [resolve, except_bind_ok, except_pure_ok] at ht
    obtain ⟨b, hb, rfl⟩ := ht
    simp [Env.type?, ih hb]
  | ref p name =>
    simp only [resolve, except_bind_ok, State.lookup_ok, h.find?] at ht
    obtain ⟨e, he, ht⟩ := ht
    split at ht
    · next hk =>
      obtain rfl := except_pure_ok.1 ht
      simp [Env.type?, he, hk, Option.filter]
    · exact absurd ht except_throw_ok
  | unknown p kind => cases ht
  | absent part => cases ht

theorem typeOr? (h : Views st env) {t : Option Tree.TypeExpr} {r : Option Ty} (default : Ty)
    (ht : t.mapM (resolve st) = .ok r) : env.typeOr? default t = some (r.getD default) := by
  rcases option_mapM_ok.1 ht with ⟨rfl, rfl⟩ | ⟨u, ty, rfl, rfl, hu⟩
  · rfl
  · exact h.type? u hu

end Views

/-! ### Expressions -/

theorem calleeName?_eq_some {t : Tree.Expr} {name : String} {q : Pos} (h : calleeName? t = some (name, q)) :
    t = .var q name ∧ name ≠ "self" := by
  unfold calleeName? at h
  split at h
  · split at h
    · cases h
    · next hne =>
      cases h
      exact ⟨rfl, by simpa using hne⟩
  · cases h

theorem eq_self_of_calleeName? {t : Tree.Expr} (h : calleeName? t = none) (p : Pos) (name : String)
    (ht : t = .var p name) : name = "self" := by
  subst ht
  simpa [calleeName?] using h

section Expressions

variable {st : State} {env : Env}

theorem refers_number {text : String} {p : Pos} {e : Expr} (h : number text p = .ok e) :
    Refers env (.num p text) e := by
  unfold number at h
  split at h
  · split at h <;> cases h
    exact .float
  · split at h
    · cases h
    · split at h
      · split at h <;> cases h
        exact .int
      · cases h

theorem refers_name (hv : Views st env) {name : String} {p : Pos} {e : Expr}
    (h : nameValue st name p = .ok e) : Refers env (.var p name) e := by
  unfold nameValue at h
  split at h
  · next c hc =>
    cases h
    by_cases hs : name = "self"
    · subst hs
      have hc : st.scope.cls = some c := by simpa using hc
      exact .self (hv.cls ▸ hc)
    · simp [hs] at hc
  · next hc =>
    obtain ⟨x, hx, h⟩ := except_bind_ok.1 h
    split at h
    · exact absurd h except_throw_ok
    · obtain rfl := except_pure_ok.1 h
      rw [State.lookup_ok, hv.find?] at hx
      refine .var (fun hs => ?_) hx
      have hcls : st.scope.cls = none := by simpa [hs] using hc
      exact hv.cls ▸ hcls

mutual

theorem refers_of_infer (hv : Views st env) (t : Tree.Expr) {e : Expr} (h : infer st t = .ok e) :
    Refers env t e := by
  cases t with
  | num p text => exact refers_number h
  | str p value =>
    cases h
    exact .str
  | bool p value =>
    cases h
    exact .bool
  | var p name => exact refers_name hv h
  | paren p inner => exact .paren (refers_of_infer hv inner h)
  | binary p op left right =>
    simp only [infer, except_bind_ok, except_pure_ok] at h
    obtain ⟨l, hl, r, hr, t, -, rfl⟩ := h
    exact .binary (refers_of_infer hv left hl) (refers_of_infer hv right hr)
  | unary p op operand =>
    simp only [infer, except_bind_ok, except_pure_ok] at h
    obtain ⟨o, ho, _, -, rfl⟩ := h
    exact .unary (refers_of_infer hv operand ho)
  | call p callee args =>
    cases args with
    | none => exact absurd h infer_call_none
    | some as =>
      obtain ⟨f, c, es, hf, hc, has, rfl⟩ := infer_call_steps h
      have hcallee : RefersCallee env callee f := by
        rcases hf with ⟨name, q, x, hname, hx, rfl⟩ | ⟨hname, hf⟩
        · obtain ⟨rfl, hne⟩ := calleeName?_eq_some hname
          exact .name hne (hv.find? name ▸ hx)
        · exact .value (eq_self_of_calleeName? hname) (refers_of_infer hv callee hf)
      have hargs := refers_of_inferAll hv as has
      rcases calleeOf_ok hc with ⟨c, rfl, rfl, hk, -⟩ | ⟨ps, r, rfl, -, -⟩
      · exact .construct hcallee hk hargs
      · exact .call hcallee hargs
  | member p object op name =>
    simp only [infer, except_bind_ok, Check.part_ok, except_pure_ok] at h
    obtain ⟨o, ho, _, rfl, _, rfl, t, -, rfl⟩ := h
    exact .member (refers_of_infer hv object ho)
  | array p items =>
    simp only [infer, except_bind_ok, except_pure_ok] at h
    obtain ⟨es, hes, t, -, rfl⟩ := h
    exact .array (refers_of_inferAll hv items hes)
  | tuple p items =>
    simp only [infer, except_bind_ok, except_pure_ok] at h
    obtain ⟨es, hes, rfl⟩ := h
    exact .tuple (refers_of_inferAll hv items hes)
  | dict p entries =>
    simp only [infer, except_bind_ok, except_pure_ok] at h
    obtain ⟨es, hes, t, -, rfl⟩ := h
    exact .dict (refers_of_inferEntries hv entries hes)
  | emptyArray p element =>
    simp only [infer, except_bind_ok, except_pure_ok] at h
    obtain ⟨t, ht, rfl⟩ := h
    exact .emptyArray (hv.type? element ht)
  | emptyOptional p base =>
    simp only [infer, except_bind_ok, except_pure_ok] at h
    obtain ⟨t, ht, rfl⟩ := h
    exact .emptyOptional (hv.type? base ht)
  | unknown p kind => cases h
  | absent part => cases h

theorem refers_of_inferAll (hv : Views st env) (ts : List Tree.Expr) {es : List Expr}
    (h : inferAll st ts = .ok es) : RefersAll env ts es := by
  cases ts with
  | nil =>
    cases h
    exact .nil
  | cons t ts =>
    simp only [inferAll, except_bind_ok, except_pure_ok] at h
    obtain ⟨d, hd, ds, hds, rfl⟩ := h
    exact .cons (refers_of_infer hv t hd) (refers_of_inferAll hv ts hds)

theorem refers_of_inferEntries (hv : Views st env) (ts : List Tree.Entry) {es : List (Expr × Expr)}
    (h : inferEntries st ts = .ok es) : RefersEntries env ts es := by
  cases ts with
  | nil =>
    cases h
    exact .nil
  | cons t ts =>
    obtain ⟨p, key, value⟩ := t
    simp only [inferEntries, except_bind_ok, except_pure_ok] at h
    obtain ⟨k, hk, v, hval, ds, hds, rfl⟩ := h
    exact .cons (refers_of_infer hv key hk) (refers_of_infer hv value hval)
      (refers_of_inferEntries hv ts hds)

end

theorem refers_of_infer? (hv : Views st env) {t : Option Tree.Expr} {r : Option Expr}
    (h : t.mapM (infer st) = .ok r) : RefersIfAny env t r := by
  rcases option_mapM_ok.1 h with ⟨rfl, rfl⟩ | ⟨u, e, rfl, rfl, he⟩
  · exact .none
  · exact .some (refers_of_infer hv u he)

end Expressions

/-! ### Parameters and fields -/

section Declared

variable {st st' : State} {env : Env}

theorem lexicalParams {ps : List Tree.Param} {qs : List Entity} (hv : Views st env)
    (h : Check.params ps st = .ok qs st') : LexicalParams env st.next ps qs := by
  induction ps generalizing st env qs with
  | nil =>
    obtain ⟨rfl, rfl⟩ := pure_ok.1 h
    exact .nil
  | cons p ps ih =>
    simp only [Check.params, bind_ok, Check.type?_ok, Check.lift_ok, Check.part_ok, Check.fresh_ok,
      Check.declare_ok, pure_ok] at h
    obtain ⟨r, _, ⟨ht, rfl⟩, name, _, ⟨hname, rfl⟩, _, _, ⟨rfl, rfl⟩, _, _, ⟨-, rfl⟩, qs, _, hqs, rfl,
      rfl⟩ := h
    obtain ⟨pos, type, _⟩ := p
    obtain rfl : _ = some name := hname
    exact .cons (hv.typeOr? .any ht) (ih (hv.add _) hqs)

theorem length_params {ps : List Tree.Param} {qs : List Entity} (h : Check.params ps st = .ok qs st') :
    qs.length = ps.length := by
  induction ps generalizing st qs with
  | nil =>
    obtain ⟨rfl, rfl⟩ := pure_ok.1 h
    rfl
  | cons p ps ih =>
    simp only [Check.params, bind_ok, pure_ok] at h
    obtain ⟨_, _, -, _, _, -, _, _, -, _, _, -, qs, _, hqs, rfl, rfl⟩ := h
    simp [ih hqs]

/-- Fields do not see each other: they are members and no names. -/
theorem lexicalFields {id : Nat} {ts : List Tree.Stmt} {u : Unit} (hv : Views st env)
    (h : Check.fields id ts st = .ok u st') : ∃ fs, st' = st.addFields id fs ∧ env.fields? ts = some fs := by
  induction ts generalizing st with
  | nil => exact ⟨[], (pure_ok.1 h).2.symm, rfl⟩
  | cons t ts ih =>
    cases t with
    | varDecl p t name init =>
      simp only [Check.fields, Check.field, bind_ok, Check.lift_ok, Check.ask_ok, Check.type?_ok,
        modify_ok] at h
      obtain ⟨_, _, ⟨_, _, ⟨-, rfl⟩, _, _, ⟨-, rfl⟩, r, _, ⟨ht, rfl⟩, rfl⟩, h⟩ := h
      have hone : Views (st.addField id ⟨name, r.getD .any⟩) env := hv.of_scopes rfl rfl
      obtain ⟨fs, rfl, hfs⟩ := ih hone h
      refine ⟨⟨name, r.getD .any⟩ :: fs, rfl, ?_⟩
      simp [Env.fields?, hv.typeOr? .any ht, hfs]
    | absent part => exact absurd h throw_ok
    | _ => exact ih hv h

theorem iterators_numbered {p : Pos} {ns : List (String × Ty)} {is : List Entity}
    (h : Check.iterators p ns st = .ok is st') :
    is.map (·.name) = ns.map (·.1) ∧ is.map (·.id) = List.range' st.next is.length := by
  induction ns generalizing st is with
  | nil =>
    obtain ⟨rfl, rfl⟩ := pure_ok.1 h
    simp
  | cons n ns ih =>
    simp only [Check.iterators, bind_ok, Check.fresh_ok, Check.declare_ok, pure_ok] at h
    obtain ⟨_, _, ⟨rfl, rfl⟩, _, _, ⟨-, rfl⟩, is, _, his, rfl, rfl⟩ := h
    obtain ⟨hnames, hids⟩ := ih his
    have hnext : (State.bind st.skip n.1 ⟨st.next, .var false, n.1, n.2⟩).next = st.next + 1 := rfl
    rw [hnext] at hids
    simp [hnames, hids, List.range'_succ]

theorem slotType_declared {d ty : Ty} {value : Option Expr} {p : Pos}
    (h : Check.slotType (some d) value p = .ok ty) : d = ty := by
  cases value with
  | none =>
    cases h
    rfl
  | some e =>
    simp only [Check.slotType, except_bind_ok, except_pure_ok] at h
    obtain ⟨_, -, rfl⟩ := h
    rfl

end Declared

/-! ### Numbers -/

def Task.declares : Task → Nat
  | .stmt t => t.declares
  | .block ts => Tree.declaresInBlock ts
  | .clauses cs => Tree.declaresInClauses cs
  | .methods _ ts => Tree.declaresInClass ts

theorem declaresInClass_leftOut {t : Tree.Stmt} (ts : List Tree.Stmt) (h : isMember t = false) :
    Tree.declaresInClass (t :: ts) = t.declares + Tree.declaresInClass ts := by
  cases t with
  | varDecl | function => cases h
  | _ => rfl

/-- A function takes a number for itself, one for each parameter, and those of its body. -/
theorem next_of_function {st st₀ inner st₁ : State} {p : Pos} {name : String} {ps : Option (List Tree.Param)}
    {returns : Option Tree.TypeExpr} {body : List Tree.Stmt} {qs : List Entity} {n : Nat}
    (hq : Check.params (ps.getD []) st = .ok qs st₀) (hinner : inner.next = n + 1 + qs.length)
    (hb : st₁.next = inner.next + Tree.declaresInBlock body) :
    st₁.next = n + (Tree.Stmt.function p name ps returns body).declares := by
  have hlen := length_params hq
  rw [hb, hinner, Tree.Stmt.declares]
  omega

/-- A run takes a number for each declaration of the text. -/
theorem Accepts.next_eq {task : Task} {st st' : State} {ans : Answer} (h : Accepts task st ans st') :
    st'.next = st.next + task.declares := by
  induction h with
  | varDecl | collection => rfl
  | @function p name ps returns body st r qs ss st₀ st₁ hn hr hq hb ih =>
    have hbody : st₁.next = st.next + (Tree.Stmt.function p name ps returns body).declares :=
      next_of_function hq (State.addAll_next _ _) ih
    exact hbody
  | @classDecl p name body st st₁ fs left st₂ hn hf hm ih =>
    obtain ⟨new, rfl, -⟩ := Check.fields_ok hf
    have hstart : (((st.add (classEntity st.next name)).enterClass (classEntity st.next name)).addFields
        st.next new).next = st.next + 1 := State.addFields_next _ _ _
    show st₂.next = st.next + (1 + Tree.declaresInClass body)
    rw [ih, hstart, Task.declares]
    omega
  | @ifChain p cond body elseIfs st test b cs st₁ st₂ ht hbool hb hc ihb ihc =>
    have hbody : st₁.next = st.next + Tree.declaresInBlock body := ihb
    have hclauses : st₂.next = st₁.next + Tree.declaresInClauses elseIfs := ihc
    simp only [Task.declares, Tree.Stmt.declares]
    omega
  | @ifElse p cond body elseIfs elsePart st test b cs rest st₁ st₂ st₃ ht hbool hb hc he ihb ihc ihe =>
    have hbody : st₁.next = st.next + Tree.declaresInBlock body := ihb
    have hclauses : st₂.next = st₁.next + Tree.declaresInClauses elseIfs := ihc
    have helse : (st₃.backTo st₂).next = st₂.next + Tree.declaresInBlock elsePart := ihe
    simp only [Task.declares, Tree.Stmt.declares]
    omega
  | whileLoop _ _ _ ih => exact ih
  | @rangeLoop p name low op high body st lo hi op' b st₁ hl hln hh hhn hb ho ih =>
    have hbody : (st₁.backTo st).next = st.next + 1 + Tree.declaresInBlock body := ih
    simp only [Task.declares, Tree.Stmt.declares]
    omega
  | @eachLoop p names coll body st c ts is b st₀ st₁ hc ht hlen hi hb ih =>
    have hcount : is.length = names.length := by
      have hnames := congrArg List.length (iterators_numbered hi).1
      simpa [hlen] using hnames
    have hstart : (st.enterLoop.addAll is).next = st.next + is.length := State.addAll_next _ _
    have hbody : (st₁.backTo st).next = (st.enterLoop.addAll is).next + Tree.declaresInBlock body := ih
    simp only [Task.declares, Tree.Stmt.declares, Option.getD_some]
    omega
  | @cons t ts st s ss st₁ st₂ hs hss ihs ihss =>
    have hhead : st₁.next = st.next + t.declares := ihs
    have htail : st₂.next = st₁.next + Tree.declaresInBlock ts := ihss
    simp only [Task.declares, Tree.declaresInBlock]
    omega
  | @clause p cond body rest st test b cs st₁ st₂ ht hbool hb hc ihb ihc =>
    have hbody : st₁.next = st.next + Tree.declaresInBlock body := ihb
    have hclauses : st₂.next = st₁.next + Tree.declaresInClauses rest := ihc
    simp only [Task.declares, Tree.declaresInClauses]
    omega
  | field _ ih => exact ih
  | @method cls p name ps returns body rest st r qs ss fs left st₀ st₁ st₂ hr hn hq hb hm ihb ihm =>
    have hbody : st₁.next = st.next + (Tree.Stmt.function p name ps returns body).declares :=
      next_of_function hq (State.addAll_next _ _) ihb
    have hrest : st₂.next = st₁.next + Tree.declaresInClass rest := ihm
    simp only [Task.declares, Tree.declaresInClass]
    omega
  | @leftOut cls t rest st s fs left st₁ st₂ hk hs hm ihs ihm =>
    have hhead : st₁.next = st.next + t.declares := ihs
    have htail : st₂.next = st₁.next + Tree.declaresInClass rest := ihm
    rw [Task.declares, declaresInClass_leftOut rest hk]
    omega
  | _ => rfl

namespace Unnumbered

variable {st : State}

/-- In the body of a method, which its class has by then. -/
theorem inMethod {id : Nat} {name : String} {r : Ty} {qs : List Entity} {f : Entity} (h : Unnumbered st)
    (hid : id < st.next) : Unnumbered (((st.skip.enterFunction name r).addAll qs).addMethod id f) := by
  have hskip : Unnumbered st.skip := h.of_members rfl (Nat.le_succ _)
  refine ((hskip.enter _ _ _).addAll qs).addMethod ?_
  have hnext : st.next + 1 ≤ ((st.skip.enterFunction name r).addAll qs).next :=
    State.le_addAll_next (Nat.le_refl _)
  exact Nat.lt_of_lt_of_le (Nat.lt_succ_of_lt hid) hnext

/-- In the body of a class, once its fields are there. -/
theorem inClass {name : String} {fs : List Field} (h : Unnumbered st) :
    Unnumbered (((st.add (classEntity st.next name)).enterClass (classEntity st.next name)).addFields
      st.next fs) :=
  ((h.add _).enter _ _ _).addFields (Nat.lt_succ_self st.next)

end Unnumbered

theorem Accepts.unnumbered {task : Task} {st st' : State} {ans : Answer} (h : Accepts task st ans st')
    (hst : Unnumbered st) (hcls : task.Numbered st) : Unnumbered st' := by
  induction h with
  | varDecl | collection => exact hst.add _
  | function _ _ _ _ ih => exact (ih (((hst.add _).enter _ _ _).addAll _) trivial).backTo
  | @classDecl p name body st st₁ fs left st₂ hn hf hm ih =>
    obtain ⟨new, rfl, -⟩ := Check.fields_ok hf
    exact (ih hst.inClass (numbered_class st name new body)).backTo
  | ifChain _ _ _ _ ihb ihc => exact ihc (ihb (hst.enter _ _ _) trivial).backTo trivial
  | ifElse _ _ _ _ _ ihb ihc ihe =>
    have hc := ihc (ihb (hst.enter _ _ _) trivial).backTo trivial
    exact (ihe (hc.enter _ _ _) trivial).backTo
  | whileLoop _ _ _ ih => exact (ih (hst.enter _ _ _) trivial).backTo
  | rangeLoop _ _ _ _ _ _ ih => exact (ih (Unnumbered.add (hst.enter _ _ _) _) trivial).backTo
  | eachLoop _ _ _ _ _ ih => exact (ih (Unnumbered.addAll (hst.enter _ _ _) _) trivial).backTo
  | cons _ _ ihs ihss => exact ihss (ihs hst trivial) trivial
  | clause _ _ _ _ ihb ihc => exact ihc (ihb (hst.enter _ _ _) trivial).backTo trivial
  | field _ ih => exact ih hst hcls
  | method _ hn _ hb _ ihb ihm =>
    have hbody := ihb (hst.inMethod hcls) trivial
    exact ihm hbody.backTo (Nat.lt_of_lt_of_le hcls (hb.keeps.ofMethod hn).next)
  | leftOut _ hs _ ihs ihm =>
    exact ihm ((ihs hst trivial).of_members rfl (Nat.le_refl _)) (Nat.lt_of_lt_of_le hcls hs.keeps.next)
  | _ => exact hst

/-! ### Statements -/

/-- What a task gives is what the rules of scope give in the environment that its start has. -/
theorem Accepts.lexical {task : Task} {st st' : State} {ans : Answer} {env : Env}
    (h : Accepts task st ans st') (hst : Unnumbered st) (hcls : task.Numbered st) (hv : Views st env) :
    Lexical env st.next task ans := by
  induction h generalizing env with
  | @varDecl p t name init st declared value ty hn ht hval hs =>
    refine .varDecl (fun u hu => ?_) (refers_of_infer? hv hval)
    subst hu
    rcases option_mapM_ok.1 ht with ⟨⟨⟩, -⟩ | ⟨_, d, ⟨⟩, rfl, hd⟩
    rw [← slotType_declared hs]
    exact hv.type? u hd
  | collection _ hval => exact .collection (refers_of_infer hv _ hval)
  | @function p name ps returns body st r qs ss st₀ st₁ hn hr hq hb ih =>
    have hfun := hv.add (functionEntity st.next false name qs (r.getD .void))
    -- the types of the parameters are read before they are part of the function's own type
    have hparams := lexicalParams ((hv.add _).enter _ _) hq
    have hbody := ih ((((hst.add _).enter _ _ _).addAll _)) trivial ((hfun.enter _ _).addAll qs)
    rw [State.addAll_next] at hbody
    exact .function (hv.typeOr? .void hr) rfl ((SameClasses.ofFunction _ _ _ _ _ _).params hparams) hbody
  | @classDecl p name body st st₁ fs left st₂ hn hf hm ih =>
    have hin := (hv.add (classEntity st.next name)).enterClass (classEntity st.next name)
    obtain ⟨new, rfl, hnew⟩ := lexicalFields hin hf
    have hnum := numbered_class st name new body
    have hms := ih hst.inClass hnum (hin.addFields _ _)
    rw [State.addFields_next] at hms
    have hfields : (st₂.membersOf st.next).fields = new := by
      -- there were no fields before these, and the methods add none
      have hnone : ((st.add (classEntity st.next name)).enterClass
          (classEntity st.next name)).membersOf st.next = ⟨[], [], []⟩ := hst st.next (Nat.le_refl _)
      rw [hm.keeps.fields st.next hnum, State.membersOf_addFields, if_pos rfl, hnone]
      rfl
    rw [hfields]
    exact .classDecl rfl hnew hms
  | @ifChain p cond body elseIfs st test b cs st₁ st₂ ht hbool hb hc ihb ihc =>
    have hbody := ihb (hst.enter _ _ _) trivial (hv.enter _ _)
    have hclauses := ihc (hb.unnumbered (hst.enter _ _ _) trivial).backTo trivial hv.backTo
    have hnext : (st₁.backTo st).next = st.next + Tree.declaresInBlock body := hb.next_eq
    rw [hnext] at hclauses
    exact .ifChain (refers_of_infer hv cond ht) hbody hclauses
  | @ifElse p cond body elseIfs elsePart st test b cs rest st₁ st₂ st₃ ht hbool hb hc he ihb ihc ihe =>
    have hs₁ : Unnumbered (st₁.backTo st) := (hb.unnumbered (hst.enter _ _ _) trivial).backTo
    have hs₂ := hc.unnumbered hs₁ trivial
    have hv₂ : Views st₂ env := hv.backTo.of_grows hc.grows
    have hbody := ihb (hst.enter _ _ _) trivial (hv.enter _ _)
    have hclauses := ihc hs₁ trivial hv.backTo
    have helse := ihe (hs₂.enter _ _ _) trivial (hv₂.enter _ _)
    have hnext : (st₁.backTo st).next = st.next + Tree.declaresInBlock body := hb.next_eq
    have hnext₂ : st₂.enterBlock.next = st.next + Tree.declaresInBlock body +
        Tree.declaresInClauses elseIfs := by
      rw [← hnext]
      exact hc.next_eq
    rw [hnext] at hclauses
    rw [hnext₂] at helse
    exact .ifElse (refers_of_infer hv cond ht) hbody hclauses helse
  | whileLoop ht _ _ ih =>
    exact .whileLoop (refers_of_infer hv _ ht) (ih (hst.enter _ _ _) trivial (hv.enter _ _))
  | @rangeLoop p name low op high body st lo hi op' b st₁ hl hln hh hhn hb ho ih =>
    have hin : Views st.enterLoop env.region := hv.enter _ _
    have hbody := ih (Unnumbered.add (hst.enter _ _ _) _) trivial (hin.add _)
    exact .rangeLoop (refers_of_infer hv low hl) (refers_of_infer hv high hh) rfl hbody
  | @eachLoop p names coll body st c ts is b st₀ st₁ hc ht hlen hi hb ih =>
    have hin : Views st.enterLoop env.region := hv.enter _ _
    have hbody := ih (Unnumbered.addAll (hst.enter _ _ _) _) trivial (hin.addAll is)
    obtain ⟨hnames, hids⟩ := iterators_numbered hi
    rw [List.map_fst_zip (Nat.le_of_eq hlen)] at hnames
    rw [State.addAll_next] at hbody
    exact .eachLoop (refers_of_infer hv coll hc) hnames hids (iterators_typ hi).2 hbody
  | retNone => exact .ret .none
  | ret _ _ he => exact .ret (.some (refers_of_infer hv _ he))
  | brk => exact .brk
  | print he => exact .print (refers_of_inferAll hv _ he)
  | assign hs ht => exact .assign (refers_of_infer hv _ ht) (refers_of_infer hv _ hs)
  | addAssign hs ht => exact .addAssign (refers_of_infer hv _ ht) (refers_of_infer hv _ hs)
  | increment ht => exact .increment (refers_of_infer hv _ ht)
  | decrement ht => exact .decrement (refers_of_infer hv _ ht)
  | call he => exact .call (refers_of_infer hv _ he)
  | nil => exact .nil
  | @cons t ts st s ss st₁ st₂ hs hss ihs ihss =>
    have htail := ihss (hs.unnumbered hst trivial) trivial (hv.of_grows hs.grows)
    rw [hs.next_eq] at htail
    exact .cons (ihs hst trivial hv) htail
  | noClause => exact .noClause
  | @clause p cond body rest st test b cs st₁ st₂ ht hbool hb hc ihb ihc =>
    have hbody := ihb (hst.enter _ _ _) trivial (hv.enter _ _)
    have hclauses := ihc (hb.unnumbered (hst.enter _ _ _) trivial).backTo trivial hv.backTo
    have hnext : (st₁.backTo st).next = st.next + Tree.declaresInBlock body := hb.next_eq
    rw [hnext] at hclauses
    exact .clause (refers_of_infer hv cond ht) hbody hclauses
  | noMethod => exact .noMethod
  | field _ ih => exact .field (ih hst hcls hv)
  | @method cls p name ps returns body rest st r qs ss fs left st₀ st₁ st₂ hr hn hq hb hm ihb ihm =>
    have hskip : Views st.skip env := hv.of_scopes rfl rfl
    have hin : Views (st.skip.enterFunction name (r.getD .void)) env.region := hskip.enter _ _
    have hbody := ihb (hst.inMethod hcls) trivial ((hin.addAll qs).of_scopes rfl rfl)
    have hstart : (((st.skip.enterFunction name (r.getD .void)).addAll qs).addMethod cls.id
        (functionEntity st.next true name qs (r.getD .void))).next = st.next + 1 + qs.length :=
      State.addAll_next _ _
    have hrest := ihm (hb.unnumbered (hst.inMethod hcls) trivial).backTo
      (Nat.lt_of_lt_of_le hcls (hb.keeps.ofMethod hn).next) hv.backTo
    have hnext : (st₁.backTo st).next = st.next + (Tree.Stmt.function p name ps returns body).declares :=
      next_of_function hq hstart hb.next_eq
    rw [hstart] at hbody
    rw [hnext] at hrest
    exact .method (hv.typeOr? .void hr) rfl (lexicalParams hin hq) hbody hrest
  | @leftOut cls t rest st s fs left st₁ st₂ hk hs hm ihs ihm =>
    have hs₁ : Unnumbered (st₁.leaveOut t.kind cls.name) :=
      (hs.unnumbered hst trivial).of_members rfl (Nat.le_refl _)
    have hv₁ : Views (st₁.leaveOut t.kind cls.name) (env.declareAll s.binds) :=
      (hv.of_grows hs.grows).of_scopes rfl rfl
    have htail := ihm hs₁ (Nat.lt_of_lt_of_le hcls hs.keeps.next) hv₁
    have hnext : (st₁.leaveOut t.kind cls.name).next = st.next + t.declares := hs.next_eq
    rw [hnext] at htail
    exact .leftOut hk (ihs hst trivial hv) htail

/-- In a program that is accepted every name means the entity that the rules of scope give. -/
theorem analyze_lexical {tree : Tree.Program} {program : Program} {st : State}
    (h : analyze tree = (.ok program, st)) :
    Lexical .start standardLibrary.length (.block tree) (.block program.statements) := by
  have hrun := accepts_of_analyze h
  have hnone : Unnumbered .initial := fun k _ => rfl
  exact hrun.lexical hnone trivial .start

/-! A variable in a method hides one of the program, and `self` is the object of the class. -/

def hideTree : Tree.Program :=
  [.varDecl ⟨1, 1⟩ none "x" (some (.bool ⟨1, 7⟩ true)),
   .classDecl ⟨2, 1⟩ "Box"
     [.varDecl ⟨3, 2⟩ (some (.ref ⟨3, 4⟩ "Box")) "next" none,
      .function ⟨4, 2⟩ "show" none none
        [.varDecl ⟨5, 3⟩ none "x" (some (.member ⟨5, 9⟩ (.var ⟨5, 9⟩ "self") (some .direct) (some "next"))),
         .print ⟨6, 3⟩ [.var ⟨6, 5⟩ "x"]]],
   .print ⟨7, 1⟩ [.var ⟨7, 3⟩ "x"]]

def hideProgram : Program :=
  let x : Entity := ⟨14, .var true, "x", .bool⟩
  let c : Entity := ⟨15, .classDef, "Box", .struct ⟨15, "Box"⟩⟩
  let y : Entity := ⟨17, .var true, "x", .struct ⟨15, "Box"⟩⟩
  ⟨[.declare x (some (.bool true)) ⟨1, 1⟩,
    .classDecl c [⟨"next", c.typ⟩]
      [.mk ⟨16, .function true, "show", .function [] .void⟩ []
        [.declare y (some (.member (.ref c) .direct "next" c.typ)) ⟨5, 3⟩, .print [.ref y] ⟨6, 3⟩] ⟨4, 2⟩]
      ⟨2, 1⟩,
    .print [.ref x] ⟨7, 1⟩]⟩

theorem analyze_lexical_hide :
    (analyze hideTree).1 = .ok hideProgram ∧
    Lexical .start standardLibrary.length (.block hideTree) (.block hideProgram.statements) :=
  have h : (analyze hideTree).1 = .ok hideProgram := by rfl
  ⟨h, analyze_lexical (Prod.ext h rfl)⟩

/-! A class with a class of its own and, below it, a field of that name. -/

def nestedSource : String := "🫙 B: 🍳 🥚 v ; 🫙 A: 🫙 B: 🍳 🍝 v ; 🍳 B b 🥘 show: 🍽 self.b.v ; ;"

def nestedTokens : List Token :=
  [⟨.keyword, "🫙", ⟨1, 1⟩⟩, ⟨.ident, "B", ⟨1, 3⟩⟩, ⟨.op, ":", ⟨1, 4⟩⟩, ⟨.keyword, "🍳", ⟨1, 6⟩⟩,
   ⟨.type, "🥚", ⟨1, 8⟩⟩, ⟨.ident, "v", ⟨1, 10⟩⟩, ⟨.op, ";", ⟨1, 12⟩⟩, ⟨.keyword, "🫙", ⟨1, 14⟩⟩,
   ⟨.ident, "A", ⟨1, 16⟩⟩, ⟨.op, ":", ⟨1, 17⟩⟩, ⟨.keyword, "🫙", ⟨1, 19⟩⟩, ⟨.ident, "B", ⟨1, 21⟩⟩,
   ⟨.op, ":", ⟨1, 22⟩⟩, ⟨.keyword, "🍳", ⟨1, 24⟩⟩, ⟨.type, "🍝", ⟨1, 26⟩⟩, ⟨.ident, "v", ⟨1, 28⟩⟩,
   ⟨.op, ";", ⟨1, 30⟩⟩, ⟨.keyword, "🍳", ⟨1, 32⟩⟩, ⟨.ident, "B", ⟨1, 34⟩⟩, ⟨.ident, "b", ⟨1, 36⟩⟩,
   ⟨.keyword, "🥘", ⟨1, 38⟩⟩, ⟨.ident, "show", ⟨1, 40⟩⟩, ⟨.op, ":", ⟨1, 44⟩⟩, ⟨.keyword, "🍽", ⟨1, 46⟩⟩,
   ⟨.ident, "self", ⟨1, 48⟩⟩, ⟨.op, ".", ⟨1, 52⟩⟩, ⟨.ident, "b", ⟨1, 53⟩⟩, ⟨.op, ".", ⟨1, 54⟩⟩,
   ⟨.ident, "v", ⟨1, 55⟩⟩, ⟨.op, ";", ⟨1, 57⟩⟩, ⟨.op, ";", ⟨1, 59⟩⟩, ⟨.eof, "", ⟨1, 60⟩⟩]

def nestedTree : Tree.Program :=
  [.classDecl ⟨1, 1⟩ "B" [.varDecl ⟨1, 6⟩ (some (.named ⟨1, 8⟩ "🥚")) "v" none],
   .classDecl ⟨1, 14⟩ "A"
     [.classDecl ⟨1, 19⟩ "B" [.varDecl ⟨1, 24⟩ (some (.named ⟨1, 26⟩ "🍝")) "v" none],
      .varDecl ⟨1, 32⟩ (some (.ref ⟨1, 34⟩ "B")) "b" none,
      .function ⟨1, 38⟩ "show" none none
        [.print ⟨1, 46⟩ [.member ⟨1, 48⟩ (.member ⟨1, 48⟩ (.var ⟨1, 48⟩ "self") (some .direct) (some "b"))
          (some .direct) (some "v")]]]]

def outerClass : Entity := ⟨14, .classDef, "B", .struct ⟨14, "B"⟩⟩

def owningClass : Entity := ⟨15, .classDef, "A", .struct ⟨15, "A"⟩⟩

def nestedClass : Entity := ⟨16, .classDef, "B", .struct ⟨16, "B"⟩⟩

def nestedProgram : Program where
  statements :=
    [.classDecl outerClass [⟨"v", .int⟩] [] ⟨1, 1⟩,
     .classDecl owningClass [⟨"b", outerClass.typ⟩]
       [.mk ⟨17, .function true, "show", .function [] .void⟩ []
         [.print [.member (.member (.ref owningClass) .direct "b" outerClass.typ) .direct "v" .int] ⟨1, 46⟩]
         ⟨1, 38⟩] ⟨1, 14⟩]

/-- What is in reach where the field stands, below the nested class. -/
def fieldEnv : Env :=
  (((Env.start.declare outerClass).declare owningClass).classRegion owningClass).declare nestedClass

/-- The source is accepted, but its field has the type of the outer class, although the nested class of that
name is declared above the field in the same body. -/
theorem field_passes_over_nested_class :
    Token.scan nestedSource = .ok nestedTokens ∧ Parser.run nestedTokens = .ok nestedTree ∧
    (analyze nestedTree).1 = .ok nestedProgram ∧
    (∃ ms, nestedProgram.statements[1]? = some (.classDecl owningClass [⟨"b", outerClass.typ⟩] ms ⟨1, 14⟩)) ∧
    fieldEnv.find? "B" = some nestedClass ∧ fieldEnv.type? (.ref ⟨1, 34⟩ "B") = some nestedClass.typ ∧
    nestedClass.typ ≠ outerClass.typ := by
  refine ⟨by rfl, by rfl, by rfl, ⟨_, rfl⟩, by rfl, by rfl, ?_⟩
  simp [nestedClass, outerClass]

end Snack.Typing
