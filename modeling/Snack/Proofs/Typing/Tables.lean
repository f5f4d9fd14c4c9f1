import Mathlib.Data.List.Forall2
import Snack.Proofs.Typing.Course
import Snack.Proofs.Typing.Members

/-! The members of classes in the course of an analysis. At every moment, whether the analysis goes on or has
failed, the fields and methods of a class have names of their own. Members are only added, behind those that are
there, and once a method is looked at, the fields of its class are complete. -/

namespace Snack.Typing

open Snack.Core

/-! ### What is known of classes -/

/-- Every field has a name of its own, no method has the name of a field, and the table that the type has of the
methods has one entry for each method of the class, in their order and with their types. -/
structure Members.Consistent (m : Members) : Prop where
  fields : (m.fields.map (·.name)).Nodup
  apart : ∀ e ∈ m.methods, ∀ f ∈ m.fields, e.name ≠ f.name
  table : m.Tabled

/-- Fields and methods have names of their own, and a class that has no number yet has no members. -/
structure Tidy (st : State) : Prop extends DistinctMembers st where
  apart : ∀ k, ∀ e ∈ (st.membersOf k).methods, (st.membersOf k).field? e.name = none
  unnumbered : Unnumbered st

/-- Members are added behind those that are there. -/
structure Grown (st st' : State) : Prop where
  next : st.next ≤ st'.next
  fields : ∀ k, (st.membersOf k).fields <+: (st'.membersOf k).fields
  methods : ∀ k, (st.membersOf k).methods <+: (st'.membersOf k).methods

/-- Moreover no class that has a number by now gets another field. -/
structure Settled (st st' : State) : Prop extends Grown st st' where
  complete : ∀ k < st.next, (st'.membersOf k).fields = (st.membersOf k).fields

section Changes

variable {st st₁ st' b : State}

theorem Tidy.consistent (h : Tidy st) (k : Nat) : (st.membersOf k).Consistent where
  fields := h.fields k
  apart e he f hf heq := Members.notMem_of_field? (h.apart k e he) (List.mem_map.2 ⟨f, hf, heq.symm⟩)
  table := h.tabled k

theorem Tidy.initial : Tidy .initial where
  toDistinctMembers := .initial
  apart _ := List.forall_mem_nil _
  unnumbered _ _ := rfl

theorem Tidy.of_members (h : Tidy st) (hn : st.next ≤ st'.next) (hm : st'.members = st.members) : Tidy st' where
  toDistinctMembers := h.toDistinctMembers.of_members hm
  apart k := by
    rw [State.membersOf_congr hm]
    exact h.apart k
  unnumbered := h.unnumbered.of_members hm hn

/-- A field that is new in a class without methods. -/
theorem Tidy.addField {id : Nat} {f : Field} (h : Tidy st) (hid : id < st.next)
    (hm : (st.membersOf id).methods = []) (hf : (st.membersOf id).field? f.name = none) :
    Tidy (st.addField id f) where
  toDistinctMembers := h.toDistinctMembers.addField hf
  apart k := by
    rw [State.membersOf_addField]
    split
    · simp [hm]
    · exact h.apart k
  unnumbered := by
    have hall : Unnumbered (st.addFields id [f]) := h.unnumbered.addFields hid
    exact hall

/-- A method that is new among the members of its class. -/
theorem Tidy.addMethod {id : Nat} {e : Entity} (h : Tidy st) (hid : id < st.next)
    (he : (st.membersOf id).has e.name = false) : Tidy (st.addMethod id e) := by
  rw [Members.has_eq_false] at he
  refine ⟨h.toDistinctMembers.addMethod he.2, ?_, h.unnumbered.addMethod hid⟩
  intro k d hd
  rw [State.membersOf_addMethod] at hd ⊢
  split at hd
  · next hk =>
    rw [if_pos hk]
    rcases List.mem_append.1 hd with hd | hd
    · exact h.apart id d hd
    · rw [List.mem_singleton.1 hd]
      exact he.1
  · next hk =>
    rw [if_neg hk]
    exact h.apart k d hd

theorem Grown.trans (h : Grown st st₁) (h' : Grown st₁ st') : Grown st st' where
  next := Nat.le_trans h.next h'.next
  fields k := (h.fields k).trans (h'.fields k)
  methods k := (h.methods k).trans (h'.methods k)

theorem Settled.trans (h : Settled st st₁) (h' : Settled st₁ st') : Settled st st' where
  toGrown := h.toGrown.trans h'.toGrown
  complete k hk := (h'.complete k (Nat.lt_of_lt_of_le hk h.next)).trans (h.complete k hk)

theorem Settled.of_members (hn : st.next ≤ st'.next) (hm : st'.members = st.members) : Settled st st' := by
  have hk := State.membersOf_congr hm
  exact ⟨⟨hn, by simp [hk], by simp [hk]⟩, by simp [hk]⟩

theorem Settled.refl (st : State) : Settled st st := .of_members (Nat.le_refl _) rfl

theorem Grown.addField (st : State) (id : Nat) (f : Field) : Grown st (st.addField id f) where
  next := Nat.le_refl _
  fields k := by
    by_cases hk : k = id <;> simp [State.membersOf_addField, hk]
  methods k := by
    by_cases hk : k = id <;> simp [State.membersOf_addField, hk]

/-- A field of a class that had no number at first. -/
theorem Settled.addField {id : Nat} {f : Field} (h : Settled b st) (hid : b.next ≤ id) :
    Settled b (st.addField id f) where
  toGrown := h.toGrown.trans (.addField st id f)
  complete k hk := by
    rw [State.membersOf_addField, if_neg (by omega)]
    exact h.complete k hk

theorem Settled.addMethod (st : State) (id : Nat) (e : Entity) : Settled st (st.addMethod id e) where
  next := Nat.le_refl _
  fields k := by
    by_cases hk : k = id <;> simp [State.membersOf_addMethod, hk]
  methods k := by
    by_cases hk : k = id <;> simp [State.membersOf_addMethod, hk]
  complete k _ := by
    by_cases hk : k = id <;> simp [State.membersOf_addMethod, hk]

end Changes

/-! ### Moments in their order -/

/-- Moments at which classes are tidy, and a class has its number before its members are looked at. -/
structure Moment.Tidy (m : Moment) : Prop where
  state : Typing.Tidy m.state
  member : ∀ cls t, m.event = .member cls t → cls.id < m.state.next

/-- What is known at a moment stays true later on. Between steps all classes that have a number have all their
fields. -/
structure Precedes (m : Moment) (st : State) : Prop where
  grown : Grown m.state st
  settled : m.event ≠ .step → Settled m.state st

/-- All moments are tidy and in order, and no class that had its number in `b` gets a field. -/
structure Course.Passes {α : Type} (b : State) (x : Course α) (st : State) : Prop where
  moments : ∀ m ∈ x.trail st, m.Tidy ∧ Settled b m.state ∧ Grown st m.state
  ordered : (x.trail st).Pairwise fun m m' => Precedes m m'.state

namespace Course

variable {α β : Type} {x : Course α} {f : α → Course β} {b st st₁ st' : State}

theorem end_mem_trail (x : Course α) (st : State) : ⟨.step, stateAfter (x.run st)⟩ ∈ x.trail st :=
  List.mem_append_right _ (List.mem_singleton_self _)

namespace Passes

/-- The state that a part ends in. -/
theorem result (h : Passes b x st) : Typing.Tidy (stateAfter (x.run st)) ∧ Settled b (stateAfter (x.run st)) ∧
    Grown st (stateAfter (x.run st)) := by
  obtain ⟨htidy, hrest⟩ := h.moments _ (end_mem_trail x st)
  exact ⟨htidy.state, hrest⟩

theorem precedes_result (h : Passes b x st) {m : Moment} (hm : m ∈ x.passed st) :
    Precedes m (stateAfter (x.run st)) :=
  (List.pairwise_append.1 h.ordered).2.2 m hm _ (List.mem_singleton_self _)

/-- What is settled since a later state is settled since an earlier one. -/
theorem since (h : Passes st x st) (hb : Settled b st) : Passes b x st where
  moments m hm := by
    obtain ⟨htidy, hsettled, hgrown⟩ := h.moments m hm
    exact ⟨htidy, hb.trans hsettled, hgrown⟩
  ordered := h.ordered

/-- A sequence. What comes next does not change what a moment before it has settled. -/
theorem sequence (hx : Passes b x st) (hf : ∀ a st₁, x.run st = .ok a st₁ → Passes b (f a) st₁)
    (hcross : ∀ m ∈ x.passed st, m.event ≠ .step → ∀ a st₁, x.run st = .ok a st₁ →
      ∀ m' ∈ (f a).trail st₁, Settled st₁ m'.state) : Passes b (x >>= f) st := by
  cases hr : x.run st with
  | error e st₁ =>
    refine ⟨?_, ?_⟩ <;> rw [trail_bind_error hr]
    · exact hx.moments
    · exact hx.ordered
  | ok a st₁ =>
    have hnext := hf a st₁ hr
    have hend : ∀ m ∈ x.passed st, Precedes m st₁ := by
      intro m hm
      have hprecedes := hx.precedes_result hm
      rwa [hr] at hprecedes
    have hgrown : Grown st st₁ := by
      have hresult := hx.result.2.2
      rwa [hr] at hresult
    refine ⟨?_, ?_⟩ <;> rw [trail_bind_ok hr]
    · intro m hm
      rcases List.mem_append.1 hm with hm | hm
      · exact hx.moments m (List.mem_append_left _ hm)
      · obtain ⟨htidy, hsettled, hlater⟩ := hnext.moments m hm
        exact ⟨htidy, hsettled, hgrown.trans hlater⟩
    · refine List.pairwise_append.2 ⟨(List.pairwise_append.1 hx.ordered).1, hnext.ordered, ?_⟩
      intro m hm m' hm'
      refine ⟨(hend m hm).grown.trans (hnext.moments m' hm').2.2, fun hevent => ?_⟩
      exact ((hend m hm).settled hevent).trans (hcross m hm hevent a st₁ hr m' hm')

/-- A part and then one that settles what it finds. -/
theorem bind (hx : Passes b x st)
    (hf : ∀ a st₁, x.run st = .ok a st₁ → Typing.Tidy st₁ → Grown st st₁ → Passes st₁ (f a) st₁) :
    Passes b (x >>= f) st := by
  have hresult : ∀ a st₁, x.run st = .ok a st₁ → Passes st₁ (f a) st₁ ∧ Settled b st₁ := by
    intro a st₁ hr
    obtain ⟨htidy, hsettled, hgrown⟩ := hx.result
    rw [hr] at htidy hsettled hgrown
    exact ⟨hf a st₁ hr htidy hgrown, hsettled⟩
  refine hx.sequence (fun a st₁ hr => (hresult a st₁ hr).1.since (hresult a st₁ hr).2) ?_
  intro m _ _ a st₁ hr m' hm'
  exact ((hresult a st₁ hr).1.moments m' hm').2.1

/-- Steps only, and then whatever passes. -/
theorem steps (hx : Passes b x st) (hsteps : ∀ m ∈ x.passed st, m.event = .step)
    (hf : ∀ a st₁, x.run st = .ok a st₁ → Typing.Tidy st₁ → Settled b st₁ → Passes b (f a) st₁) :
    Passes b (x >>= f) st := by
  refine hx.sequence (fun a st₁ hr => ?_) fun m hm hevent => absurd (hsteps m hm) hevent
  obtain ⟨htidy, hsettled, -⟩ := hx.result
  rw [hr] at htidy hsettled
  exact hf a st₁ hr htidy hsettled

theorem pure (a : α) (hst : Typing.Tidy st) : Passes st (pure a : Course α) st where
  moments m hm := by
    rw [List.mem_singleton.1 hm]
    exact ⟨⟨hst, by simp⟩, .refl st, (Settled.refl st).toGrown⟩
  ordered := List.pairwise_singleton _ _

theorem step {y : Check α} (htidy : Typing.Tidy (stateAfter (y st))) (hsettled : Settled b (stateAfter (y st)))
    (hgrown : Grown st (stateAfter (y st))) : Passes b (step y) st where
  moments m hm := by
    obtain rfl : m = ⟨.step, stateAfter (y st)⟩ := by simpa [trail, Course.step] using hm
    exact ⟨⟨htidy, by simp⟩, hsettled, hgrown⟩
  ordered := List.pairwise_pair.2 ⟨(Settled.refl _).toGrown, by simp⟩

theorem mark {e : Event} (hst : Typing.Tidy st) (he : ∀ cls t, e = .member cls t → cls.id < st.next) :
    Passes st (mark e) st where
  moments m hm := by
    have hm : m ∈ [⟨e, st⟩, ⟨.step, st⟩] := hm
    simp only [List.mem_cons, List.not_mem_nil, or_false] at hm
    rcases hm with rfl | rfl
    · exact ⟨⟨hst, he⟩, .refl st, (Settled.refl st).toGrown⟩
    · exact ⟨⟨hst, by simp⟩, .refl st, (Settled.refl st).toGrown⟩
  ordered := List.pairwise_pair.2 ⟨(Settled.refl st).toGrown, fun _ => .refl st⟩

end Passes

end Course

/-! ### Steps that leave classes alone -/

/-- A step that changes nothing, whether it succeeds or not. -/
def Asks {α : Type} (x : Check α) : Prop := ∀ st, stateAfter (x st) = st

/-- A step that changes no members. -/
def LeavesMembers {α : Type} (x : Check α) : Prop :=
  ∀ st, st.next ≤ (stateAfter (x st)).next ∧ (stateAfter (x st)).members = st.members

section Alone

variable {α β : Type} {x : Check α} {f : α → Check β} {st : State}

/-- What is known after a question and what comes next: what was known before, or what that leaves. -/
theorem Asks.after {P : State → Prop} (hx : Asks x) (hst : P st)
    (hf : ∀ a, x st = .ok a st → P (stateAfter (f a st))) : P (stateAfter ((x >>= f) st)) := by
  have hsame := hx st
  cases hr : x st with
  | error e st₁ =>
    rw [hr] at hsame
    obtain rfl : st₁ = st := hsame
    rw [bind_of_error hr]
    exact hst
  | ok a st₁ =>
    rw [hr] at hsame
    obtain rfl : st₁ = st := hsame
    rw [bind_of_ok hr]
    exact hf a hr

theorem Asks.bind (hx : Asks x) (hf : ∀ a, Asks (f a)) : Asks (x >>= f) := fun st =>
  hx.after (P := (· = st)) rfl fun a _ => hf a st

theorem Asks.pure (a : α) : Asks (pure a) := fun _ => rfl

theorem Asks.throw (e : Error) : Asks (throw e : Check α) := fun _ => rfl

theorem asks_ask (q : State → Except Error α) : Asks (Check.ask q) := stateAfter_ask q

theorem asks_get : Asks (get : Check State) := fun _ => rfl

theorem asks_type? (t : Option Tree.TypeExpr) : Asks (Check.type? t) := by
  cases t with
  | none => exact .pure _
  | some t => exact (asks_ask _).bind fun _ => .pure _

theorem asks_expr? (e : Option Tree.Expr) : Asks (Check.expr? e) := by
  cases e with
  | none => exact .pure _
  | some e => exact (asks_ask _).bind fun _ => .pure _

theorem asks_checked (e : Tree.Expr) (r : Expr → Except Error Unit) :
    Asks (Check.expr e >>= fun t => Check.lift (r t) >>= fun _ => pure t) :=
  (asks_ask _).bind fun _ => (asks_ask _).bind fun _ => .pure _

theorem asks_ret (p : Pos) (value : Option Tree.Expr) : Asks (Check.ret p value) := by
  refine asks_get.bind fun st => ?_
  cases st.scope.function with
  | none => exact .throw _
  | some f =>
    cases value with
    | none => exact (asks_ask _).bind fun _ => .pure _
    | some value =>
      exact (asks_ask _).bind fun _ => (asks_ask _).bind fun _ => (asks_ask _).bind fun _ => .pure _

theorem asks_bump (p : Pos) (place : Tree.Expr) (op : Option BumpOp) : Asks (Check.bump p place op) := by
  refine (asks_checked place _).bind fun _ => (asks_ask _).bind fun _ => (asks_ask _).bind fun op => ?_
  cases op <;> exact .pure _

theorem asks_stmt {t : Tree.Stmt} (h : Course.isSingle t = true) : Asks (Check.stmt t) := by
  cases t with
  | varDecl | collection | function | classDecl | ifChain | whileLoop | rangeLoop | eachLoop => cases h
  | ret p value => exact asks_ret p value
  | brk p => exact (asks_ask _).bind fun _ => .pure _
  | print p exprs => exact (asks_ask _).bind fun _ => .pure _
  | assign p place value =>
    exact (asks_ask _).bind fun _ => (asks_checked place _).bind fun _ => (asks_ask _).bind fun _ => .pure _
  | addAssign p place value =>
    exact (asks_ask _).bind fun _ => (asks_checked place _).bind fun _ => (asks_ask _).bind fun _ =>
      (asks_ask _).bind fun _ => .pure _
  | bump p place op => exact asks_bump p place op
  | call p callee args => exact (asks_ask _).bind fun _ => .pure _
  | unknown | absent | incomplete => exact .throw _

theorem Asks.leavesMembers (h : Asks x) : LeavesMembers x := by
  intro st
  simp [h st]

theorem leavesMembers_fresh : LeavesMembers Check.fresh := fun st => ⟨Nat.le_succ st.next, rfl⟩

theorem leavesMembers_enter (l : Option Bool) (g : Option Callable) (c : Option Entity) :
    LeavesMembers (modify (·.enter l g c) : Check Unit) := fun _ => ⟨Nat.le_refl _, rfl⟩

theorem leavesMembers_leave : LeavesMembers Check.leave := by
  intro st
  unfold Check.leave State.exit?
  cases st.outer with
  | nil => exact ⟨Nat.le_refl _, rfl⟩
  | cons s rest => exact ⟨Nat.le_refl _, rfl⟩

theorem leavesMembers_declare (name : String) (e : Entity) (p : Pos) : LeavesMembers (Check.declare name e p) := by
  intro st
  exact (asks_ask _).after (P := fun st' => st.next ≤ st'.next ∧ st'.members = st.members)
    ⟨Nat.le_refl _, rfl⟩ fun _ _ => ⟨Nat.le_refl _, rfl⟩

theorem leavesMembers_settle (f : Entity) : LeavesMembers (Check.settle none f) := by
  intro st
  show _ ≤ (st.settle f.name f).next ∧ (st.settle f.name f).members = _
  unfold State.settle
  cases st.outer <;> exact ⟨Nat.le_refl _, rfl⟩

end Alone

/-! ### Parts that settle what they find -/

namespace Course

/-- A part that passes from any tidy state. -/
def Steady {α : Type} (x : Course α) : Prop := ∀ st, Typing.Tidy st → Passes st x st

section Steady

variable {α β : Type} {x : Course α} {f : α → Course β}

theorem Steady.bind (hx : Steady x) (hf : ∀ a, Steady (f a)) : Steady (x >>= f) := fun st hst =>
  (hx st hst).bind fun a st₁ _ htidy _ => hf a st₁ htidy

theorem Steady.pure (a : α) : Steady (pure a) := fun _ hst => Passes.pure a hst

/-- A step that leaves classes alone. -/
theorem steady_step {y : Check α} (h : LeavesMembers y) : Steady (step y) := by
  intro st hst
  obtain ⟨hn, hm⟩ := h st
  have hsettled := Settled.of_members hn hm
  exact .step (hst.of_members hn hm) hsettled hsettled.toGrown

theorem steady_ask {y : Check α} (h : Asks y) : Steady (step y) := steady_step h.leavesMembers

theorem steady_declare (name : String) (e : Entity) (p : Pos) : Steady (step (Check.declare name e p)) :=
  steady_step (leavesMembers_declare name e p)

theorem steady_fresh : Steady (step Check.fresh) := steady_step leavesMembers_fresh

/-- A scope is closed, and a value is given back. -/
theorem steady_close (a : α) : Steady (step Check.leave >>= fun _ => pure a) :=
  (steady_step leavesMembers_leave).bind fun _ => .pure a

theorem steady_within {l : Option Bool} {g : Option Callable} {c : Option Entity} (hx : Steady x) :
    Steady (within l g c x) :=
  (steady_step (leavesMembers_enter l g c)).bind fun _ => hx.bind fun _ => steady_close _

end Steady

section Parts

variable {p : Pos} {body : Course (List Stmt)}

theorem steady_newVariable (name : String) (init : Option Expr) (t : Ty) :
    Steady (newVariable name init t p) :=
  steady_fresh.bind fun _ => (steady_declare _ _ _).bind fun _ => .pure _

theorem steady_params (ps : List Tree.Param) : Steady (params ps) := by
  induction ps with
  | nil => exact .pure _
  | cons q ps ih =>
    exact (steady_ask (asks_type? _)).bind fun _ => (steady_ask (asks_ask _)).bind fun _ =>
      steady_fresh.bind fun _ => (steady_declare _ _ _).bind fun _ => ih.bind fun _ => .pure _

theorem steady_iterators (ns : List (String × Ty)) : Steady (iterators p ns) := by
  induction ns with
  | nil => exact .pure _
  | cons n ns ih =>
    exact steady_fresh.bind fun _ => (steady_declare _ _ _).bind fun _ => ih.bind fun _ => .pure _

theorem steady_function (name : String) (ps : List Tree.Param) (returns : Option Tree.TypeExpr)
    (hb : Steady body) : Steady (function none p name ps returns body) := by
  refine (steady_ask (asks_type? returns)).bind fun _ => steady_fresh.bind fun _ =>
    (steady_declare _ _ _).bind fun _ => steady_within ?_
  exact (steady_params ps).bind fun _ => (steady_step (leavesMembers_settle _)).bind fun _ =>
    hb.bind fun _ => .pure _

/-- A method is added to its class once its parameters are known, and only if its name is new there. -/
theorem passes_method {cls : Entity} {name : String} {ps : List Tree.Param} {returns : Option Tree.TypeExpr}
    {st : State} (hst : Typing.Tidy st) (hid : cls.id < st.next) (hb : Steady body) :
    Passes st (function (some cls) p name ps returns body) st := by
  refine (steady_ask (asks_type? returns) st hst).bind fun r st₁ hr htidy _ => ?_
  obtain ⟨-, rfl⟩ := Check.type?_ok.1 hr
  refine (steady_fresh st hst).bind fun id st₁ hfresh htidy _ => ?_
  obtain ⟨rfl, rfl⟩ := Check.fresh_ok.1 hfresh
  refine (steady_ask (asks_ask _) _ htidy).bind fun _ st₁ hask htidy _ => ?_
  have hask : Check.announce (some cls) (functionEntity st.next true name [] (r.getD .void)) p st.skip =
      .ok _ st₁ := hask
  simp only [Check.announce, Check.ask_ok, Check.require_ok, Bool.not_eq_true'] at hask
  obtain ⟨hnew, rfl⟩ := hask
  refine (steady_step (leavesMembers_enter _ _ _) _ htidy).bind fun _ st₁ hopen htidy _ => ?_
  obtain rfl := modify_ok.1 hopen
  refine Passes.bind ?_ fun _ st₁ _ htidy _ => steady_close _ st₁ htidy
  refine (steady_params ps _ htidy).bind fun qs st₁ hparams htidy _ => ?_
  rw [run_params] at hparams
  obtain ⟨rfl, -⟩ := Check.params_ok hparams
  refine Passes.bind ?_ fun _ st₁ _ htidy _ => (hb.bind fun _ => .pure _) st₁ htidy
  have hadded := Settled.addMethod ((st.skip.enter (some false) (some ⟨name, r.getD .void⟩) none).addAll qs) cls.id
    (functionEntity st.next true name qs (r.getD .void))
  refine .step (htidy.addMethod ?_ ?_) hadded hadded.toGrown
  · exact Nat.lt_of_lt_of_le hid (State.le_addAll_next (Nat.le_succ _))
  · rwa [State.membersOf_congr (State.addAll_members _ _)]

theorem steady_rangeLoop (name : Option String) (low high : Tree.Expr) (op : Option RangeOp) (hb : Steady body) :
    Steady (rangeLoop p name low op high body) := by
  refine (steady_ask (asks_checked low _)).bind fun _ =>
    (steady_ask (asks_checked high _)).bind fun _ => (steady_ask (asks_ask _)).bind fun _ =>
    steady_fresh.bind fun _ => ?_
  refine (steady_within ?_).bind fun _ => (steady_ask (asks_ask _)).bind fun _ => .pure _
  exact (steady_declare _ _ _).bind fun _ => hb

theorem steady_eachLoop (names : Option (List String)) (coll : Tree.Expr) (hb : Steady body) :
    Steady (eachLoop p names coll body) := by
  refine (steady_ask (asks_ask _)).bind fun _ => (steady_ask (asks_ask _)).bind fun _ =>
    (steady_ask (asks_ask _)).bind fun _ => (steady_ask (asks_ask _)).bind fun _ => steady_within ?_
  exact (steady_iterators _).bind fun _ => hb.bind fun _ => .pure _

end Parts

/-! ### Classes -/

section Classes

variable {p : Pos} {name : String} {id : Nat} {b st : State}

/-- A field is added, or it breaks a rule and nothing changes. -/
theorem stateAfter_field (id : Nat) (p : Pos) (t : Option Tree.TypeExpr) (name : String) (init : Option Tree.Expr)
    (st : State) :
    stateAfter (Check.field id p t name init st) = st ∨ ∃ f, (st.membersOf id).field? f.name = none ∧
      stateAfter (Check.field id p t name init st) = st.addField id f := by
  let P (st' : State) := st' = st ∨ ∃ f, (st.membersOf id).field? f.name = none ∧ st' = st.addField id f
  refine (asks_ask _).after (P := P) (.inl rfl) fun _ _ => (asks_ask _).after (P := P) (.inl rfl) fun _ hask => ?_
  simp only [Check.ask_ok, Check.require_ok, Option.isNone_iff_eq_none] at hask
  refine (asks_type? t).after (P := P) (.inl rfl) fun r _ => ?_
  exact .inr ⟨⟨name, r.getD .any⟩, hask.1, rfl⟩

/-- A field of a class that had no number in `b` and has no methods yet. -/
theorem tidy_field (t : Option Tree.TypeExpr) (init : Option Tree.Expr) (hst : Typing.Tidy st) (hb : Settled b st)
    (hid : id < st.next) (hnew : b.next ≤ id) (hm : (st.membersOf id).methods = []) {st' : State}
    (hafter : stateAfter (Check.field id p t name init st) = st') :
    Typing.Tidy st' ∧ Settled b st' ∧ Grown st st' ∧ id < st'.next ∧ (st'.membersOf id).methods = [] := by
  subst hafter
  rcases stateAfter_field id p t name init st with hafter | ⟨f, hnone, hafter⟩
  · rw [hafter]
    exact ⟨hst, hb, (Settled.refl st).toGrown, hid, hm⟩
  · rw [hafter]
    refine ⟨hst.addField hid hm hnone, hb.addField hnew, .addField st id f, hid, ?_⟩
    simp [State.membersOf_addField, hm]

theorem passes_fields (ts : List Tree.Stmt) (hst : Typing.Tidy st) (hb : Settled b st) (hid : id < st.next)
    (hnew : b.next ≤ id) (hm : (st.membersOf id).methods = []) : Passes b (fields id ts) st := by
  induction ts generalizing st with
  | nil => exact (Passes.pure () hst).since hb
  | cons t ts ih =>
    cases t with
    | varDecl p t name init =>
      have hfield := fun st' => @tidy_field p name id b st t init hst hb hid hnew hm st'
      obtain ⟨htidy, hsettled, hgrown, -, -⟩ := hfield _ rfl
      refine (Passes.step htidy hsettled hgrown).steps (by simp [step]) fun _ st₁ hr htidy hsettled => ?_
      obtain ⟨-, -, -, hid, hm⟩ := hfield st₁ (congrArg stateAfter hr)
      exact ih htidy hsettled hid hm
    | absent part => exact (steady_ask (.throw _) st hst).since hb
    | _ => exact ih hst hb hid hm

/-- A class gets its number, its name and its fields before its methods are looked at. -/
theorem passes_classDecl {ts : List Tree.Stmt} {methods : Entity → Course (List Function)} (hst : Typing.Tidy st)
    (hms : ∀ cls st₁, Typing.Tidy st₁ → cls.id < st₁.next → Passes st₁ (methods cls) st₁) :
    Passes st (classDecl p name ts methods) st := by
  refine (steady_fresh st hst).steps (Unmarked.step _ _) fun id st₁ hfresh htidy hsettled => ?_
  obtain ⟨rfl, rfl⟩ := Check.fresh_ok.1 hfresh
  refine ((steady_declare _ _ _ _ htidy).since hsettled).steps (Unmarked.step _ _)
    fun _ st₁ hdeclare htidy hsettled => ?_
  obtain ⟨-, rfl⟩ := Check.declare_ok.1 hdeclare
  refine Passes.bind ?_ fun _ st₁ _ htidy _ => ((steady_ask asks_get).bind fun _ => .pure _) st₁ htidy
  refine ((steady_step (leavesMembers_enter _ _ _) _ htidy).since hsettled).steps (Unmarked.step _ _)
    fun _ st₁ henter htidy hsettled => ?_
  obtain rfl := modify_ok.1 henter
  refine Passes.bind ?_ fun _ st₁ _ htidy _ => steady_close _ st₁ htidy
  have hnone : (st.membersOf st.next).methods = [] := by rw [hst.unnumbered st.next (Nat.le_refl _)]
  refine (passes_fields ts htidy hsettled (Nat.lt_succ_self _) (Nat.le_refl _) hnone).steps (unmarked_fields _ ts _)
    fun _ st₂ hfields htidy hsettled => ?_
  refine (hms _ st₂ htidy ?_).since hsettled
  rw [run_fields] at hfields
  obtain ⟨fs, rfl, -⟩ := Check.fields_ok hfields
  rw [State.addFields_next]
  exact Nat.lt_succ_self _

end Classes

/-! ### Statements -/

mutual

theorem steady_stmt (t : Tree.Stmt) : Steady (stmt t) := by
  cases t with
  | varDecl p t name init =>
    rw [stmt]
    exact (steady_ask (asks_ask _)).bind fun _ => (steady_ask (asks_type? t)).bind fun _ =>
      (steady_ask (asks_expr? init)).bind fun _ => (steady_ask (asks_ask _)).bind fun _ => steady_newVariable _ _ _
  | collection p name value =>
    rw [stmt]
    exact (steady_ask (asks_ask _)).bind fun _ => (steady_ask (asks_ask _)).bind fun _ => steady_newVariable _ _ _
  | function p name ps returns body =>
    rw [stmt]
    exact (steady_function name _ returns (steady_block body)).bind fun _ => .pure _
  | classDecl p name body =>
    rw [stmt]
    exact fun st hst => passes_classDecl hst fun cls st₁ htidy hid => passes_methods cls body htidy hid
  | ifChain p cond body elseIfs elsePart =>
    cases elsePart with
    | none =>
      rw [stmt]
      exact (steady_ask (asks_checked cond _)).bind fun _ => (steady_within (steady_block body)).bind fun _ =>
        (steady_clauses elseIfs).bind fun _ => .pure _
    | some elsePart =>
      rw [stmt]
      exact (steady_ask (asks_checked cond _)).bind fun _ => (steady_within (steady_block body)).bind fun _ =>
        (steady_clauses elseIfs).bind fun _ => (steady_within (steady_block elsePart)).bind fun _ => .pure _
  | whileLoop p cond body =>
    rw [stmt]
    exact (steady_ask (asks_checked cond _)).bind fun _ => (steady_within (steady_block body)).bind fun _ => .pure _
  | rangeLoop p name low op high body =>
    rw [stmt]
    exact steady_rangeLoop name low high op (steady_block body)
  | eachLoop p names coll body =>
    rw [stmt]
    exact steady_eachLoop names coll (steady_block body)
  | _ =>
    rw [stmt_single rfl]
    exact steady_ask (asks_stmt rfl)

theorem steady_block (ts : List Tree.Stmt) : Steady (block ts) := by
  cases ts with
  | nil => exact .pure _
  | cons t ts =>
    have hmark : Steady (mark (.stmt t)) := fun st hst => .mark hst (by simp)
    rw [block]
    exact hmark.bind fun _ => (steady_stmt t).bind fun _ => (steady_block ts).bind fun _ => .pure _

theorem steady_clauses (cs : List Tree.ElseIf) : Steady (elseIfClauses cs) := by
  cases cs with
  | nil => exact .pure _
  | cons c cs =>
    obtain ⟨p, cond, body⟩ := c
    rw [elseIfClauses]
    exact (steady_ask (asks_checked cond _)).bind fun _ => (steady_within (steady_block body)).bind fun _ =>
      (steady_clauses cs).bind fun _ => .pure _

theorem passes_methods (cls : Entity) (ts : List Tree.Stmt) {st : State} (hst : Typing.Tidy st)
    (hid : cls.id < st.next) : Passes st (methods cls ts) st := by
  cases ts with
  | nil => exact .pure _ hst
  | cons t ts =>
    have hmember : Passes st (mark (.member cls t)) st := by
      refine .mark hst ?_
      rintro _ _ ⟨⟩
      exact hid
    -- the class keeps its number through whatever comes between its members
    have hrest : ∀ st₁, Typing.Tidy st₁ → Grown st st₁ → Passes st₁ (methods cls ts) st₁ := fun st₁ htidy hgrown =>
      passes_methods cls ts htidy (Nat.lt_of_lt_of_le hid hgrown.next)
    cases hk : isMember t with
    | false =>
      rw [methods_leftOut hk]
      refine hmember.bind fun _ st₁ hmark _ _ => ?_
      obtain ⟨-, rfl⟩ := pure_ok.1 hmark
      have hstmt : Passes st (mark (.stmt t)) st := .mark hst (by simp)
      refine hstmt.bind fun _ st₁ hmark _ _ => ?_
      obtain ⟨-, rfl⟩ := pure_ok.1 hmark
      refine (steady_stmt t st hst).bind fun _ st₁ _ htidy hgrown => ?_
      have hdrop : LeavesMembers (Check.drop t.kind cls.name) := fun _ => ⟨Nat.le_refl _, rfl⟩
      refine (steady_step hdrop st₁ htidy).bind fun _ st₂ _ htidy hgrown' => ?_
      exact hrest st₂ htidy (hgrown.trans hgrown')
    | true =>
      cases t with
      | varDecl p t name init =>
        rw [methods]
        exact passes_methods cls ts hst hid
      | function p name ps returns body =>
        rw [methods]
        refine hmember.bind fun _ st₁ hmark _ _ => ?_
        obtain ⟨-, rfl⟩ := pure_ok.1 hmark
        refine (passes_method hst hid (steady_block body)).bind fun _ st₁ _ htidy hgrown => ?_
        exact (hrest st₁ htidy hgrown).bind fun _ st₂ _ htidy _ => .pure _ htidy
      | _ => cases hk

end

end Course

/-! ### Classes that are accepted -/

def isField : Tree.Stmt → Bool
  | .varDecl .. => true
  | _ => false

def isMethod : Tree.Stmt → Bool
  | .function .. => true
  | _ => false

/-- The field of a declaration, with its type in the scope of the class. -/
inductive FieldOf (st : State) : Tree.Stmt → Field → Prop where
  | mk {p t name r} (ht : t.mapM (resolve st) = .ok r) : FieldOf st (.varDecl p t name none) ⟨name, r.getD .any⟩

/-- The method of a function. Its type is that of its parameters and its result. -/
inductive MethodOf : Tree.Stmt → Function → Prop where
  | mk {p name ps returns body id qs result ss}
      (hq : qs.map (fun q => some q.name) = (ps.getD []).map (·.name)) :
      MethodOf (.function p name ps returns body) (.mk (functionEntity id true name qs result) qs ss p)

section Accepted

variable {p : Pos} {name : String} {st st' : State}

theorem resolve_addField (st : State) (id : Nat) (f : Field) (t : Tree.TypeExpr) :
    resolve (st.addField id f) t = resolve st t := by
  induction t with
  | array _ _ ih | optional _ _ ih => simp only [resolve, ih]
  | dict _ _ _ ihk ihv => simp only [resolve, ihk, ihv]
  | _ => rfl

theorem FieldOf.before {id : Nat} {f g : Field} {t : Tree.Stmt} (h : FieldOf (st.addField id f) t g) :
    FieldOf st t g := by
  obtain ⟨ht⟩ := h
  rw [funext (resolve_addField st id f)] at ht
  exact .mk ht

/-- Fields are added in the order of their declarations. -/
theorem fields_declared {id : Nat} {ts : List Tree.Stmt} {u : Unit} (h : Check.fields id ts st = .ok u st') :
    ∃ fs, st' = st.addFields id fs ∧ List.Forall₂ (FieldOf st) (ts.filter isField) fs := by
  induction ts generalizing st with
  | nil => exact ⟨[], (pure_ok.1 h).2.symm, .nil⟩
  | cons t ts ih =>
    cases t with
    | varDecl p t name init =>
      simp only [Check.fields, Check.field, bind_ok, Check.lift_ok, Check.ask_ok, Check.type?_ok, modify_ok,
        Check.require_ok, Option.isNone_iff_eq_none] at h
      obtain ⟨_, _, ⟨_, _, ⟨rfl, rfl⟩, _, _, ⟨-, rfl⟩, r, _, ⟨ht, rfl⟩, rfl⟩, h⟩ := h
      obtain ⟨fs, rfl, hfs⟩ := ih h
      exact ⟨⟨name, r.getD .any⟩ :: fs, rfl, .cons (.mk ht) (hfs.imp fun _ _ => .before)⟩
    | absent part => exact absurd h throw_ok
    | _ => exact ih h

theorem names_of_params {ps : List Tree.Param} {qs : List Entity} (h : Check.params ps st = .ok qs st') :
    qs.map (fun q => some q.name) = ps.map (·.name) := by
  induction ps generalizing st qs with
  | nil =>
    obtain ⟨rfl, -⟩ := pure_ok.1 h
    rfl
  | cons p ps ih =>
    simp only [Check.params, bind_ok, Check.type?_ok, Check.lift_ok, Check.part_ok, Check.fresh_ok,
      Check.declare_ok, pure_ok] at h
    obtain ⟨_, _, ⟨-, rfl⟩, _, _, ⟨hname, rfl⟩, _, _, ⟨rfl, rfl⟩, _, _, ⟨-, rfl⟩, _, _, hqs, rfl, rfl⟩ := h
    simp [hname, ih hqs]

/-- Methods come in the order of their functions. -/
theorem Accepts.methodsOf {cls : Entity} {ts : List Tree.Stmt} {fs : List Function} {left : List Stmt}
    (h : Accepts (.methods cls ts) st (.methods fs left) st') : List.Forall₂ MethodOf (ts.filter isMethod) fs := by
  induction ts generalizing st fs left with
  | nil =>
    cases h
    exact .nil
  | cons t ts ih =>
    cases h with
    | field hm => exact ih hm
    | method _ _ hq _ hm => exact .cons (.mk (names_of_params hq)) (ih hm)
    | leftOut hk _ hm =>
      have hfun : isMethod t = false := by
        cases t with
        | function => cases hk
        | _ => rfl
      rw [List.filter_cons_of_neg (by simp [hfun])]
      exact ih hm

/-- The fields of a class that is accepted are those that its body declares, and its methods are the functions in
its body, each in order. -/
theorem class_accepted {body : List Tree.Stmt} {s : Stmt} (hst : Tidy st)
    (h : Check.stmt (.classDecl p name body) st = .ok s st') :
    ∃ fields fs, s = .classDecl (classEntity st.next name) fields fs p ∧
      st'.membersOf st.next =
        ⟨fields, fs.map fun f => (f.entity.name, f.entity.typ), fs.map Function.entity⟩ ∧
      List.Forall₂ (FieldOf ((st.add (classEntity st.next name)).enterClass (classEntity st.next name)))
        (body.filter isField) fields ∧
      List.Forall₂ MethodOf (body.filter isMethod) fs := by
  have haccepts := accepts_stmt _ h
  have htable := (haccepts.distinctMembers hst.toDistinctMembers).tabled st.next
  cases haccepts with
  | @classDecl _ _ _ _ _ fs left st₂ hn hf hm =>
    obtain ⟨fields, rfl, hfields⟩ := fields_declared hf
    have hnum : st.next < (((st.add (classEntity st.next name)).enterClass
        (classEntity st.next name)).addFields st.next fields).next := by
      rw [State.addFields_next]
      exact Nat.lt_succ_self _
    have hempty : ((st.add (classEntity st.next name)).enterClass (classEntity st.next name)).membersOf st.next =
        ⟨[], [], []⟩ := hst.unnumbered st.next (Nat.le_refl _)
    have hall : (st₂.membersOf st.next).fields = fields := by
      rw [hm.keeps.fields st.next hnum, State.membersOf_addFields, if_pos rfl, hempty]
      rfl
    have hmethods : (st₂.membersOf st.next).methods = fs.map Function.entity := by
      rw [hm.keeps.methods st.next hnum, State.membersOf_addFields, if_pos rfl, hempty]
      simp [Task.added, classEntity]
    rw [← hall] at hfields
    refine ⟨_, fs, rfl, ?_, hfields, hm.methodsOf⟩
    have htable : (st₂.membersOf st.next).table = fs.map fun f => (f.entity.name, f.entity.typ) := by
      have hlisted : (st₂.membersOf st.next).Tabled := htable
      rw [hlisted, hmethods, List.map_map]
      rfl
    show st₂.membersOf st.next = _
    rw [← hmethods, ← htable]

end Accepted

/-! ### All moments -/

theorem passes_history (tree : Tree.Program) : (Course.block tree).Passes .initial .initial :=
  Course.steady_block tree .initial .initial

/-- The members of classes at all moments of an analysis, whether it succeeds or fails. No two fields of a class
have one name, no method has the name of a field, and the table that its type has of the methods has the names and
types of the methods that the class itself lists, in their order. What a class has it keeps, types included, and it
gets no field once a method or another of its members is looked at. A class that is accepted has the fields and the
methods that its body declares, in their order. -/
theorem member_tables_consistent (tree : Tree.Program) :
    (Course.block tree).run = Check.block tree ∧
    (∀ m ∈ history tree, ∀ k, (m.state.membersOf k).Consistent) ∧
    ((history tree).Pairwise fun m m' =>
      (∀ k, (m.state.membersOf k).fields <+: (m'.state.membersOf k).fields ∧
        (m.state.membersOf k).methods <+: (m'.state.membersOf k).methods) ∧
      ∀ cls t, m.event = .member cls t →
        (m'.state.membersOf cls.id).fields = (m.state.membersOf cls.id).fields) ∧
    ∀ m ∈ history tree, ∀ p name body s st', m.event = .stmt (.classDecl p name body) →
      Check.stmt (.classDecl p name body) m.state = .ok s st' →
        ∃ fields fs, s = .classDecl (classEntity m.state.next name) fields fs p ∧
          st'.membersOf m.state.next =
            ⟨fields, fs.map fun f => (f.entity.name, f.entity.typ), fs.map Function.entity⟩ ∧
          List.Forall₂ (FieldOf ((m.state.add (classEntity m.state.next name)).enterClass
            (classEntity m.state.next name))) (body.filter isField) fields ∧
          List.Forall₂ MethodOf (body.filter isMethod) fs := by
  rw [Course.history_eq]
  obtain ⟨hmoments, hordered⟩ := passes_history tree
  refine ⟨Course.run_block tree, fun m hm k => (hmoments m hm).1.state.consistent k, ?_, ?_⟩
  · refine hordered.imp_of_mem fun {m m'} hm _ hprecedes => ?_
    refine ⟨fun k => ⟨hprecedes.grown.fields k, hprecedes.grown.methods k⟩, fun cls t hevent => ?_⟩
    have hsettled := hprecedes.settled (by simp [hevent])
    exact hsettled.complete cls.id ((hmoments m hm).1.member cls t hevent)
  · intro m hm p name body s st' _ haccepted
    exact class_accepted (hmoments m hm).1.state haccepted

/-- A method with a class inside, a field below it, and a method that has the name of the field. -/
def boxTree : Tree.Program :=
  [.classDecl ⟨1, 1⟩ "Box"
    [.function ⟨2, 3⟩ "f" (some [⟨⟨2, 5⟩, none, some "x"⟩]) none
      [.classDecl ⟨3, 5⟩ "Lid" [.varDecl ⟨4, 7⟩ none "w" none]],
     .varDecl ⟨5, 3⟩ none "n" none,
     .function ⟨6, 3⟩ "n" none none []]]

theorem member_tables_consistent_box :
    (∃ st, analyze boxTree = (.error ⟨.alreadyDeclared "n", ⟨6, 3⟩⟩, st)) ∧
    (∃ m ∈ history boxTree, ∃ t, m.event = .member (classEntity 14 "Box") t ∧
      (m.state.membersOf 14).fields = [⟨"n", .any⟩]) ∧
    (∃ m ∈ history boxTree, (m.state.membersOf 14).table = [("f", .function [.any] .void)]) ∧
    ∀ m ∈ history boxTree, ∀ k, (m.state.membersOf k).Consistent :=
  ⟨⟨_, rfl⟩, ⟨_, List.mem_of_getElem? (i := 5) rfl, _, rfl, rfl⟩, ⟨_, List.mem_of_getElem? (i := 14) rfl, rfl⟩,
    (member_tables_consistent boxTree).2.1⟩

end Snack.Typing
