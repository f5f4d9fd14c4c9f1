import Snack.Proofs.Typing.Infer

/-! Soundness of the analysis: every node of a program that is accepted obeys the rules, with the members
that the classes have in the end. -/

namespace Snack.Typing

open Snack.Core

/-! ### What comes later -/

/-- What is known stays true, and no class with a number from `n` on gets another method. -/
def Later (n : Nat) (st st' : State) : Prop := ∃ new, Keeps st st' new ∧ ∀ k, n ≤ k → new k = []

namespace Later

variable {n m : Nat} {st st₁ st' : State} {new : Nat → List Entity}

theorem refl (n : Nat) (st : State) : Later n st st := ⟨_, .refl st, fun _ _ => rfl⟩

theorem mono (h : Later n st st') (hn : n ≤ m) : Later m st st' := by
  obtain ⟨new, hk, hnew⟩ := h
  exact ⟨new, hk, fun k hm => hnew k (Nat.le_trans hn hm)⟩

theorem closed {outer : State} (h : Later n (st.backTo outer) st') : Later n st st' := by
  obtain ⟨new, hk, hnew⟩ := h
  exact ⟨new, hk.closed, hnew⟩

/-- What comes later than a run comes later than its start. -/
theorem after (h : Later n st₁ st') (hk : Keeps st st₁ new) (hnew : ∀ k, n ≤ k → new k = []) :
    Later n st st' := by
  obtain ⟨new', hk', hnew'⟩ := h
  refine ⟨_, hk.trans hk', fun k hn => ?_⟩
  rw [hnew k hn, hnew' k hn, List.append_nil]

/-- The run adds no method to a class that was there before. -/
theorem before (h : Later n st₁ st') (hk : Keeps st st₁ fun _ => []) : Later n st st' :=
  h.after hk fun _ _ => rfl

end Later

/-! ### What is known is sound -/

/-- The entities in scope are proper and have numbers by now, and so have the classes with members. -/
structure Sound (st : State) : Prop where
  scopes : Knows st fun e => Proper e ∧ e.id < st.next
  fields : ∀ k, ∀ f ∈ (st.membersOf k).fields, f.typ.Known
  table : ∀ k, ∀ m ∈ (st.membersOf k).table, m.2.Known
  unnumbered : ∀ k, st.next ≤ k → st.membersOf k = ⟨[], [], []⟩

namespace Sound

variable {st st' : State}

theorem proper (h : Sound st) : Knows st Proper := h.scopes.imp fun _ he => he.1

/-- Sound scopes over members that stay as they are. -/
theorem of_members (h : Sound st) (hk : Knows st' fun e => Proper e ∧ e.id < st'.next)
    (hm : st'.members = st.members) (hn : st.next ≤ st'.next) : Sound st' where
  scopes := hk
  fields k := by
    rw [State.membersOf_congr hm]
    exact h.fields k
  table k := by
    rw [State.membersOf_congr hm]
    exact h.table k
  unnumbered := Unnumbered.of_members h.unnumbered hm hn

theorem addAll {es : List Entity} (h : Sound st)
    (he : ∀ e ∈ es, Proper e ∧ e.id < st.next + es.length) : Sound (st.addAll es) := by
  refine h.of_members ?_ (State.addAll_members _ _) (State.le_addAll_next (Nat.le_refl _))
  refine Knows.addAll (h.scopes.imp fun e he => ⟨he.1, ?_⟩) fun e hmem => ?_
  · exact State.le_addAll_next he.2
  · rw [State.addAll_next]
    exact he e hmem

theorem add {e : Entity} (h : Sound st) (hp : Proper e) (hid : e.id = st.next) : Sound (st.add e) := by
  have hall : Sound (st.addAll [e]) := h.addAll (by simp [hp, hid])
  exact hall

theorem enter {l : Option Bool} {f : Option Callable} {c : Option Entity} (h : Sound st)
    (hc : ∀ cls, c = some cls → Proper cls ∧ cls.id < st.next) : Sound (st.enter l f c) :=
  h.of_members (h.scopes.enter hc) rfl (Nat.le_refl _)

theorem skip (h : Sound st) : Sound st.skip := by
  have hscopes : Knows st.skip _ := h.scopes.of_scopes rfl rfl
  exact h.of_members (hscopes.imp fun _ he => ⟨he.1, Nat.lt_succ_of_lt he.2⟩) rfl (Nat.le_succ _)

theorem leaveOut (h : Sound st) (kind cls : String) : Sound (st.leaveOut kind cls) :=
  h.of_members h.scopes rfl (Nat.le_refl _)

theorem backTo {before : State} (h : Sound st) (hb : Sound before) (hn : before.next ≤ st.next) :
    Sound (st.backTo before) where
  scopes := by
    have hscopes : Knows before fun e => Proper e ∧ e.id < st.next :=
      hb.scopes.imp fun _ he => ⟨he.1, Nat.lt_of_lt_of_le he.2 hn⟩
    exact hscopes.of_scopes rfl rfl
  fields := h.fields
  table := h.table
  unnumbered := h.unnumbered

theorem addMethod {id : Nat} {e : Entity} (h : Sound st) (hid : id < st.next) (he : e.typ.Known) :
    Sound (st.addMethod id e) where
  scopes := h.scopes
  fields k := by
    rw [State.membersOf_addMethod]
    split
    · exact h.fields id
    · exact h.fields k
  table k m hm := by
    rw [State.membersOf_addMethod] at hm
    split at hm
    · rcases Table.mem_put hm with hm | rfl
      · exact h.table id m hm
      · exact he
    · exact h.table k m hm
  unnumbered := Unnumbered.addMethod h.unnumbered hid

theorem addFields {id : Nat} {fs : List Field} (h : Sound st) (hid : id < st.next)
    (hf : ∀ f ∈ fs, f.typ.Known) : Sound (st.addFields id fs) where
  scopes := by
    rw [State.addFields_eq]
    exact h.scopes
  fields k f hmem := by
    rw [State.membersOf_addFields] at hmem
    split at hmem
    · rcases List.mem_append.1 hmem with hmem | hmem
      · exact h.fields id f hmem
      · exact hf f hmem
    · exact h.fields k f hmem
  table k := by
    rw [State.membersOf_addFields]
    split
    · exact h.table id
    · exact h.table k
  unnumbered := Unnumbered.addFields h.unnumbered hid

theorem initial : Sound .initial where
  scopes := by
    have hid : ∀ e ∈ standardLibrary, e.id < standardLibrary.length := by decide
    exact Knows.initial fun e he => ⟨.standard he, hid e he⟩
  fields k := by simp [State.initial, State.membersOf]
  table k := by simp [State.initial, State.membersOf]
  unnumbered k _ := rfl

/-- A member has a known type. -/
theorem typ?_known (h : Sound st) {k : Nat} {name : String} {t : Ty}
    (ht : (st.membersOf k).typ? name = some t) : t.Known := by
  unfold Members.typ? at ht
  split at ht
  · next f hf =>
    cases ht
    exact h.fields k f (List.mem_of_find?_eq_some hf)
  · exact h.table k _ (Table.mem_of_lookup ht)

/-- What is known of classes stays true. -/
theorem later {n : Nat} (h : Sound st) (hl : Later n st st') :
    (∀ x : Entity, Proper x ∧ x.id < st.next →
      (st'.membersOf x.id).fields = (st.membersOf x.id).fields) ∧
    ∀ k name t, (st.membersOf k).typ? name = some t → (st'.membersOf k).typ? name = some t := by
  obtain ⟨_, hk, -⟩ := hl
  refine ⟨fun x hx => hk.fields x.id hx.2, fun k name t ht => ?_⟩
  rcases Nat.lt_or_ge k st.next with hlt | hge
  · exact hk.typ? hlt ht
  · simp [h.unnumbered k hge, Members.typ?, Members.field?, Members.method?] at ht

/-- An expression that is accepted obeys the rules, also with all that is known of classes later on. -/
theorem infer {n : Nat} (h : Sound st) (hl : Later n st st') {t : Tree.Expr} {e : Expr}
    (he : infer st t = .ok e) : Typed Proper Ty.Written st'.membersOf e := by
  obtain ⟨hfields, htypes⟩ := h.later hl
  have htyped := typed_of_infer h.scopes (fun _ _ => written_of_resolve h.proper) t he
  exact htyped.mono (fun _ hx => hx.1) hfields htypes

theorem inferAll {n : Nat} (h : Sound st) (hl : Later n st st') {ts : List Tree.Expr} {es : List Expr}
    (he : inferAll st ts = .ok es) : ∀ e ∈ es, Typed Proper Ty.Written st'.membersOf e := by
  intro e hmem
  obtain ⟨hfields, htypes⟩ := h.later hl
  have htyped := typed_of_inferAll h.scopes (fun _ _ => written_of_resolve h.proper) ts he
  exact (htyped e hmem).mono (fun _ hx => hx.1) hfields htypes

theorem known_of_infer (h : Sound st) {t : Tree.Expr} {e : Expr} (he : Typing.infer st t = .ok e) :
    e.typ.Known :=
  (h.infer (.refl 0 st) he).known fun _ _ _ ht => h.typ?_known ht

theorem known_of_resolve (h : Sound st) {t : Option Tree.TypeExpr} {r : Option Ty} {d : Ty}
    (ht : t.mapM (resolve st) = .ok r) (hd : d.Known) : (r.getD d).Known := by
  rcases option_mapM_ok.1 ht with ⟨-, rfl⟩ | ⟨t, ty, -, rfl, hty⟩
  · exact hd
  · exact (written_of_resolve h.proper hty).known

end Sound

/-! ### Parameters and iterators -/

theorem Proper.of_var {e : Entity} {m : Bool} (hk : e.kind = .var m) (ht : e.typ.Known) : Proper e := by
  obtain ⟨id, kind, name, typ⟩ := e
  cases hk
  exact .var ht

section Declared

variable {st st' : State}

/-- Parameters are proper, and no two have one name. -/
theorem params_proper {ps : List Tree.Param} {qs : List Entity} (hst : Knows st Proper)
    (h : Check.params ps st = .ok qs st') :
    (qs.map (·.name)).Nodup ∧ ∀ q ∈ qs, Proper q ∧ q.kind = .parameter ∧ st.isLocal q.name = false := by
  induction ps generalizing st qs with
  | nil =>
    obtain ⟨rfl, rfl⟩ := pure_ok.1 h
    simp
  | cons p ps ih =>
    simp only [Check.params, bind_ok, Check.type?_ok, Check.lift_ok, Check.part_ok, Check.fresh_ok,
      Check.declare_ok, pure_ok] at h
    obtain ⟨r, _, ⟨ht, rfl⟩, name, _, ⟨-, rfl⟩, _, _, ⟨rfl, rfl⟩, _, _, ⟨hn, rfl⟩, qs, _, hqs, rfl,
      rfl⟩ := h
    have hknown : (r.getD .any).Known := by
      rcases option_mapM_ok.1 ht with ⟨-, rfl⟩ | ⟨t, ty, -, rfl, hty⟩
      · exact .prim _
      · exact (written_of_resolve hst hty).known
    have hq : Proper ⟨st.next, .parameter, name, r.getD .any⟩ := .parameter hknown
    obtain ⟨hnodup, hall⟩ := ih (hst.add hq) hqs
    have hlocal : ∀ q ∈ qs, q.name ≠ name ∧ st.isLocal q.name = false := fun q hmem =>
      State.isLocal_add.1 (hall q hmem).2.2
    refine ⟨?_, fun q hmem => ?_⟩
    · rw [List.map_cons, List.nodup_cons]
      refine ⟨fun hmem => ?_, hnodup⟩
      obtain ⟨q, hq, hname⟩ := List.mem_map.1 hmem
      exact (hlocal q hq).1 hname
    · rcases List.mem_cons.1 hmem with rfl | hmem
      · exact ⟨hq, rfl, hn⟩
      · exact ⟨(hall q hmem).1, (hall q hmem).2.1, (hlocal q hmem).2⟩

/-- Iterators have the types of what they stand for. -/
theorem iterators_typ {p : Pos} {ns : List (String × Ty)} {is : List Entity}
    (h : Check.iterators p ns st = .ok is st') :
    is.map (·.typ) = ns.map (·.2) ∧ ∀ i ∈ is, i.kind = .var false := by
  induction ns generalizing st is with
  | nil =>
    obtain ⟨rfl, rfl⟩ := pure_ok.1 h
    simp
  | cons n ns ih =>
    simp only [Check.iterators, bind_ok, Check.fresh_ok, Check.declare_ok, pure_ok] at h
    obtain ⟨_, _, ⟨rfl, rfl⟩, _, _, ⟨-, rfl⟩, is, _, his, rfl, rfl⟩ := h
    obtain ⟨htypes, hall⟩ := ih his
    refine ⟨by simp [htypes], fun i hmem => ?_⟩
    rcases List.mem_cons.1 hmem with rfl | hmem
    · rfl
    · exact hall i hmem

/-- A slot takes its first value. -/
theorem slotType_known {declared : Option Ty} {init : Option Expr} {p : Pos} {t : Ty}
    (hd : ∀ u ∈ declared, u.Known) (hi : ∀ e ∈ init, e.typ.Known)
    (h : Check.slotType declared init p = .ok t) : t.Known ∧ ∀ e ∈ init, e.typ.assignable t = true := by
  cases declared with
  | none =>
    cases init with
    | none =>
      cases h
      exact ⟨.prim _, by simp⟩
    | some e =>
      cases h
      have he : e.typ.Known := hi e rfl
      refine ⟨he, fun d hd => ?_⟩
      cases hd
      exact he.assignable_self
  | some u =>
    cases init with
    | none =>
      cases h
      exact ⟨hd _ rfl, by simp⟩
    | some e =>
      simp only [Check.slotType, requireAssignable, except_bind_ok, Check.require_ok,
        except_pure_ok] at h
      obtain ⟨_, ha, rfl⟩ := h
      refine ⟨hd _ rfl, fun d hd => ?_⟩
      cases hd
      exact ha

end Declared

/-! ### Soundness -/

/-- The parts of an answer obey the rules. -/
def Answer.WellTyped (M : Nat → Members) (r : Option Ty) : Answer → Prop
  | .stmt s => Typing.WellTyped M r (.stmt s)
  | .block ss => ∀ s ∈ ss, Typing.WellTyped M r (.stmt s)
  | .clauses cs => ∀ c ∈ cs, Typed Proper Ty.Written M c.test ∧ c.test.typ = .bool ∧
      ∀ s ∈ c.body, Typing.WellTyped M r (.stmt s)
  | .methods fs _ => ∀ f ∈ fs, f.entity.kind = .function true ∧ Typing.WellTyped M r (.function f)

theorem wellTyped_clauses {M : Nat → Members} {r : Option Ty} {cs : List Check.Clause} {rest : Else}
    (hc : (Answer.clauses cs).WellTyped M r) (hr : WellTyped M r (.rest rest)) :
    WellTyped M r (.rest (Check.clauses cs rest)) := by
  induction cs with
  | nil => exact hr
  | cons c cs ih =>
    obtain ⟨ht, hbool, hb⟩ := hc c List.mem_cons_self
    exact .elseIf ht hbool hb (ih fun d hd => hc d (List.mem_cons_of_mem _ hd))

theorem rangeOp_ok {p : Pos} {op : Option RangeOp} {op' : RangeOp} (h : Check.rangeOp p op = .ok op') :
    op' ∈ [.through, .below] := by
  unfold Check.rangeOp at h
  split at h
  · cases h
  · cases h
  · next op hne =>
    cases h
    cases op' with
    | other text => exact absurd rfl (hne text)
    | _ => simp

theorem known_elementTypes {t : Ty} {p : Pos} {ts : List Ty} (ht : t.Known)
    (h : Check.elementTypes t p = .ok ts) : ∀ u ∈ ts, u.Known := by
  cases ht with
  | array he =>
    cases h
    simpa using he
  | dict hk hv =>
    cases h
    simpa using ⟨hk, hv⟩
  | _ => cases h

/-- A loop over a collection whose iterators have the types of what it holds. -/
theorem wellTyped_eachLoop {M : Nat → Members} {r : Option Ty} {is : List Entity} {c : Expr}
    {b : List Stmt} {p q : Pos} {ts : List Ty} (hc : Typed Proper Ty.Written M c)
    (ht : Check.elementTypes c.typ q = .ok ts)
    (htypes : is.map (·.typ) = ts) (his : ∀ i ∈ is, Proper i ∧ i.kind = .var false)
    (hb : ∀ s ∈ b, WellTyped M r (.stmt s)) : WellTyped M r (.stmt (.eachLoop is c b p)) := by
  unfold Check.elementTypes at ht
  split at ht
  · next e he =>
    cases ht
    obtain ⟨i, rfl, rfl⟩ := List.map_eq_singleton_iff.1 htypes
    obtain ⟨hi, hik⟩ := his i List.mem_cons_self
    exact .eachElement hi hik hc he hb
  · next k v he =>
    cases ht
    obtain ⟨i, js, rfl, rfl, hjs⟩ := List.map_eq_cons_iff.1 htypes
    obtain ⟨j, rfl, rfl⟩ := List.map_eq_singleton_iff.1 hjs
    obtain ⟨hi, hik⟩ := his i List.mem_cons_self
    obtain ⟨hj, hjk⟩ := his j (List.mem_cons_of_mem _ List.mem_cons_self)
    exact .eachEntry hi hik hj hjk hc he hb
  · cases ht

/-- The type of what a `return` gives back, if it may stand there. -/
def State.result (st : State) : Option Ty := st.scope.function.map (·.result)

@[simp] theorem State.result_addAll (st : State) (es : List Entity) :
    (st.addAll es).result = st.result := by
  rw [State.result, State.addAll_scope]
  rfl

theorem State.result_addFields (st : State) (id : Nat) (fs : List Field) :
    (st.addFields id fs).result = st.result := by
  rw [State.addFields_eq]
  rfl

/-- A task on a class is about one that has its number. -/
def Task.Numbered (st : State) : Task → Prop
  | .methods cls _ => cls.id < st.next
  | _ => True

theorem numbered_class (st : State) (name : String) (fs : List Field) (body : List Tree.Stmt) :
    Task.Numbered (((st.add (classEntity st.next name)).enterClass (classEntity st.next name)).addFields
      st.next fs) (.methods (classEntity st.next name) body) := by
  rw [Task.Numbered, State.addFields_next]
  exact Nat.lt_succ_self st.next

theorem known_fields {st : State} {id : Nat} {fs : List Field} (hst : Knows st Proper)
    (h : ∀ f ∈ fs, f.typ = .any ∨ ∃ before t, resolve (st.addFields id before) t = .ok f.typ) :
    ∀ f ∈ fs, f.typ.Known := by
  intro f hf
  rcases h f hf with hany | ⟨before, t, ht⟩
  · rw [hany]
    exact .prim _
  · have hscopes : Knows (st.addFields id before) Proper := by
      rw [State.addFields_eq]
      exact hst.of_scopes rfl rfl
    exact (written_of_resolve hscopes ht).known

/-! ### Where bodies begin -/

namespace Sound

variable {st st₀ st₁ : State} {name : String} {ps : List Tree.Param} {returns : Option Tree.TypeExpr}
  {r : Option Ty} {qs : List Entity}

/-- A function, its parameters and what is known where its body begins. -/
theorem inFunction (hst : Sound st) (hr : returns.mapM (resolve st) = .ok r)
    (hq : Check.params ps ((st.add (functionEntity st.next false name [] (r.getD .void))).enterFunction name
      (r.getD .void)) = .ok qs st₀) :
    Proper (functionEntity st.next false name qs (r.getD .void)) ∧ (qs.map (·.name)).Nodup ∧
      (∀ q ∈ qs, Proper q ∧ q.kind = .parameter) ∧
      Sound (((st.add (functionEntity st.next false name qs (r.getD .void))).enterFunction name
        (r.getD .void)).addAll qs) := by
  have hres : (r.getD .void).Known := hst.known_of_resolve hr (.prim _)
  have hann : Proper (functionEntity st.next false name [] (r.getD .void)) := .function (by simp) hres
  obtain ⟨hnodup, hqs⟩ := params_proper ((hst.add hann rfl).enter (by simp)).proper hq
  have hfresh := (Check.params_ok hq).2
  have hf : Proper (functionEntity st.next false name qs (r.getD .void)) := by
    refine .function (fun t ht => ?_) hres
    obtain ⟨q, hq, rfl⟩ := List.mem_map.1 ht
    exact (hqs q hq).1.known
  refine ⟨hf, hnodup, fun q hq => ⟨(hqs q hq).1, (hqs q hq).2.1⟩, ?_⟩
  exact ((hst.add hf rfl).enter (by simp)).addAll fun q hq => ⟨(hqs q hq).1, (hfresh.range q hq).2⟩

/-- A method likewise, which its class has by then. -/
theorem inMethod {id : Nat} (hst : Sound st) (hid : id < st.next) (hr : returns.mapM (resolve st) = .ok r)
    (hq : Check.params ps (st.skip.enterFunction name (r.getD .void)) = .ok qs st₀) :
    Proper (functionEntity st.next true name qs (r.getD .void)) ∧ (qs.map (·.name)).Nodup ∧
      (∀ q ∈ qs, Proper q ∧ q.kind = .parameter) ∧
      Sound (((st.skip.enterFunction name (r.getD .void)).addAll qs).addMethod id
        (functionEntity st.next true name qs (r.getD .void))) := by
  have hres : (r.getD .void).Known := hst.known_of_resolve hr (.prim _)
  have hsf : Sound (st.skip.enterFunction name (r.getD .void)) := hst.skip.enter (by simp)
  obtain ⟨hnodup, hqs⟩ := params_proper hsf.proper hq
  have hfresh := (Check.params_ok hq).2
  have hf : Proper (functionEntity st.next true name qs (r.getD .void)) := by
    refine .function (fun t ht => ?_) hres
    obtain ⟨q, hq, rfl⟩ := List.mem_map.1 ht
    exact (hqs q hq).1.known
  refine ⟨hf, hnodup, fun q hq => ⟨(hqs q hq).1, (hqs q hq).2.1⟩, ?_⟩
  exact (hsf.addAll fun q hq => ⟨(hqs q hq).1, (hfresh.range q hq).2⟩).addMethod
    (State.le_addAll_next (Nat.lt_succ_of_lt hid)) hf.known

/-- What is known in a class once its fields are there. -/
theorem inClass {ts : List Tree.Stmt} {u : Unit} (hst : Sound st)
    (hf : Check.fields st.next ts ((st.add (classEntity st.next name)).enterClass (classEntity st.next name)) =
      .ok u st₁) : Sound st₁ := by
  have hin : Sound ((st.add (classEntity st.next name)).enterClass (classEntity st.next name)) := by
    refine (hst.add .classDef rfl).enter ?_
    rintro _ ⟨⟩
    exact ⟨.classDef, Nat.lt_succ_self _⟩
  obtain ⟨new, rfl, hnew⟩ := Check.fields_ok hf
  exact hin.addFields (Nat.lt_succ_self _) (known_fields hin.proper hnew)

/-- The iterators of a loop and what is known where its body begins. -/
theorem inEachLoop {p : Pos} {coll : Tree.Expr} {c : Expr} {ts : List Ty} {names : List String}
    {is : List Entity} (hst : Sound st) (hc : Typing.infer st coll = .ok c)
    (ht : Check.elementTypes c.typ coll.pos = .ok ts) (hlen : names.length = ts.length)
    (hi : Check.iterators p (names.zip ts) st.enterLoop = .ok is st₀) :
    is.map (·.typ) = ts ∧ (∀ i ∈ is, Proper i ∧ i.kind = .var false) ∧ Sound (st.enterLoop.addAll is) := by
  obtain ⟨htypes, his⟩ := iterators_typ hi
  have hfresh := (Check.iterators_ok hi).2
  rw [List.map_snd_zip (Nat.le_of_eq hlen.symm)] at htypes
  have hproper : ∀ i ∈ is, Proper i ∧ i.kind = .var false := by
    intro i hmem
    have hmem' : i.typ ∈ ts := htypes ▸ List.mem_map_of_mem hmem
    exact ⟨.of_var (his i hmem) (known_elementTypes (hst.known_of_infer hc) ht _ hmem'), his i hmem⟩
  exact ⟨htypes, hproper,
    (hst.enter (by simp)).addAll fun i hmem => ⟨(hproper i hmem).1, (hfresh.range i hmem).2⟩⟩

end Sound

/-- A task ends in the function it starts in. -/
theorem Accepts.result_eq {task : Task} {st st' : State} {ans : Answer} (h : Accepts task st ans st') :
    st'.result = st.result := by
  rw [State.result, h.grows.scope]
  rfl

/-- What is known stays sound, and the answer obeys the rules with whatever becomes known of classes
later on. The classes that the run brings in are complete when it ends. -/
theorem Accepts.sound {task : Task} {st st' : State} {ans : Answer} (h : Accepts task st ans st')
    (hst : Sound st) (hcls : task.Numbered st) :
    Sound st' ∧ ∀ {st''}, Later st.next st' st'' → ans.WellTyped st''.membersOf st.result := by
  induction h with
  | @varDecl p t name init st declared value ty hn ht hv hs =>
    have hd : ∀ u ∈ declared, u.Known := by
      rintro u ⟨⟩
      exact hst.known_of_resolve (d := .any) ht (.prim _)
    have hi : ∀ e ∈ value, ∃ t, infer st t = .ok e := by
      rintro e ⟨⟩
      rcases option_mapM_ok.1 hv with ⟨-, ⟨⟩⟩ | ⟨t, _, -, ⟨⟩, ht⟩
      exact ⟨t, ht⟩
    have hknown : ∀ e ∈ value, e.typ.Known := by
      intro e he
      obtain ⟨t, ht⟩ := hi e he
      exact hst.known_of_infer ht
    obtain ⟨hty, hassign⟩ := slotType_known hd hknown hs
    have hvar : Proper ⟨st.next, .var true, name, ty⟩ := .var hty
    refine ⟨hst.add hvar rfl, fun {st''} hk => .declare hvar rfl fun e he => ?_⟩
    obtain ⟨t, ht⟩ := hi e he
    exact ⟨hst.infer (hk.before (.add _ _)) ht, hassign e he⟩
  | @collection p name value st e hn hv =>
    have hty := hst.known_of_infer hv
    have hvar : Proper ⟨st.next, .var true, name, e.typ⟩ := .var hty
    refine ⟨hst.add hvar rfl, fun {st''} hk => .declare hvar rfl ?_⟩
    rintro d ⟨⟩
    exact ⟨hst.infer (hk.before (.add _ _)) hv, hty.assignable_self⟩
  | @function p name ps returns body st r qs ss st₀ st₁ hn hr hq hb ih =>
    obtain ⟨hf, hnodup, hqs, hin⟩ := hst.inFunction hr hq
    have hsf := hst.add hf rfl
    obtain ⟨hs₁, hbody⟩ := ih hin trivial
    rw [State.result_addAll] at hbody
    refine ⟨hs₁.backTo hsf (Nat.le_trans ?_ hb.keeps.next), fun {st''} hk => ?_⟩
    · exact State.le_addAll_next (Nat.le_refl _)
    · have hbody := hbody (hk.closed.mono (State.le_addAll_next (Nat.le_succ _)))
      exact .function rfl (.body hf rfl hqs hnodup hbody)
  | @classDecl p name body st st₁ fs left st₂ hn hf hm ih =>
    have hc : Proper (classEntity st.next name) := .classDef
    have hsc := hst.add hc rfl
    have hs₁ := hst.inClass hf
    obtain ⟨new, rfl, -⟩ := Check.fields_ok hf
    have hnext : (st.add (classEntity st.next name)).next ≤ st₂.next := by
      refine Nat.le_trans ?_ hm.keeps.next
      rw [State.addFields_eq]
      exact Nat.le_refl _
    have hnum := numbered_class st name new body
    obtain ⟨hs₂, hms⟩ := ih hs₁ hnum
    rw [State.result_addFields] at hms
    refine ⟨hs₂.backTo hsc hnext, fun {st''} hl => ?_⟩
    have hms := hms (hl.closed.mono (Nat.le_of_lt hnum))
    obtain ⟨later, hk, hlater⟩ := hl.closed
    have hmethods : fs.map Function.entity = (st''.membersOf st.next).methods := by
      have hnone : ((st.add (classEntity st.next name)).enterClass
          (classEntity st.next name)).membersOf st.next = ⟨[], [], []⟩ :=
        hst.unnumbered st.next (Nat.le_refl _)
      rw [hk.methods st.next hnext, hlater st.next (Nat.le_refl _), hm.keeps.methods st.next hnum,
        State.membersOf_addFields, if_pos rfl, hnone]
      simp [Task.added, classEntity]
    exact .classDecl hc rfl (hk.fields st.next hnext).symm (hs₂.fields st.next) hmethods
      (fun f hf => (hms f hf).1) fun f hf => (hms f hf).2
  | @ifChain p cond body elseIfs st test b cs st₁ st₂ ht hbool hb hc ihb ihc =>
    obtain ⟨hs₁, hbody⟩ := ihb (hst.enter (by simp)) trivial
    obtain ⟨hs₂, hclauses⟩ := ihc (hs₁.backTo hst hb.keeps.next) trivial
    refine ⟨hs₂, fun {st''} hk => ?_⟩
    have hk' := hk.before hc.keeps
    exact .ifElse (hst.infer (hk'.before hb.keeps.ofScope) ht) (Ty.eq_of_equiv hbool)
      (hbody hk'.closed) (wellTyped_clauses (hclauses (hk.mono hb.keeps.next)) .none)
  | @ifElse p cond body elseIfs elsePart st test b cs rest st₁ st₂ st₃ ht hbool hb hc he ihb ihc ihe =>
    obtain ⟨hs₁, hbody⟩ := ihb (hst.enter (by simp)) trivial
    obtain ⟨hs₂, hclauses⟩ := ihc (hs₁.backTo hst hb.keeps.next) trivial
    obtain ⟨hs₃, helse⟩ := ihe (hs₂.enter (by simp)) trivial
    refine ⟨hs₃.backTo hs₂ he.keeps.next, fun {st''} hk => ?_⟩
    have hk₂ := hk.before he.keeps.ofScope
    have hk' := hk₂.before hc.keeps
    have hrest := helse (hk.closed.mono (Nat.le_trans hb.keeps.next hc.keeps.next))
    rw [show st₂.enterBlock.result = st.result from hc.result_eq] at hrest
    exact .ifElse (hst.infer (hk'.before hb.keeps.ofScope) ht) (Ty.eq_of_equiv hbool)
      (hbody hk'.closed) (wellTyped_clauses (hclauses (hk₂.mono hb.keeps.next)) (.block hrest))
  | @whileLoop p cond body st test b st₁ ht hbool hb ih =>
    obtain ⟨hs₁, hbody⟩ := ih (hst.enter (by simp)) trivial
    refine ⟨hs₁.backTo hst hb.keeps.next, fun {st''} hk => ?_⟩
    exact .whileLoop (hst.infer (hk.before hb.keeps.ofScope) ht) (Ty.eq_of_equiv hbool)
      (hbody hk.closed)
  | @rangeLoop p name low op high body st lo hi op' b st₁ hl hln hh hhn hb ho ih =>
    have hi : Proper ⟨st.next, .var false, name, lo.typ⟩ := .var (hst.known_of_infer hl)
    obtain ⟨hs₁, hbody⟩ := ih (Sound.add (hst.enter (by simp)) hi rfl) trivial
    have hk₁ : Keeps st (st₁.backTo st) fun _ => [] := hb.keeps.inner (Nat.le_succ _) rfl
    refine ⟨hs₁.backTo hst hk₁.next, fun {st''} hk => ?_⟩
    have hbody := hbody (hk.closed.mono (Nat.le_succ _))
    exact .rangeLoop hi rfl rfl (hst.infer (hk.before hk₁) hl) hln (hst.infer (hk.before hk₁) hh) hhn
      (rangeOp_ok ho) hbody
  | @eachLoop p names coll body st c ts is b st₀ st₁ hc ht hlen hi hb ih =>
    obtain ⟨htypes, hproper, hin⟩ := hst.inEachLoop hc ht hlen hi
    obtain ⟨hs₁, hbody⟩ := ih hin trivial
    rw [State.result_addAll] at hbody
    have hin : st.next ≤ (st.enterLoop.addAll is).next := State.le_addAll_next (Nat.le_refl _)
    have hk₁ : Keeps st (st₁.backTo st) fun _ => [] := hb.keeps.inner hin (State.addAll_members _ _)
    refine ⟨hs₁.backTo hst hk₁.next, fun {st''} hk => ?_⟩
    have hbody := hbody (hk.closed.mono hin)
    exact wellTyped_eachLoop (hst.infer (hk.before hk₁) hc) ht htypes hproper hbody
  | @retNone p st f hf hv =>
    refine ⟨hst, fun {st''} hk => ?_⟩
    have hr : st.result = some .void := by simp [State.result, hf, Ty.eq_of_equiv hv]
    rw [hr]
    exact .retNone
  | @ret p value st f e hf hv he ha =>
    refine ⟨hst, fun {st''} hk => ?_⟩
    have hr : st.result = some f.result := by simp [State.result, hf]
    have hne : f.result ≠ .void := by
      intro heq
      rw [heq] at hv
      simp [Ty.equiv] at hv
    rw [hr]
    exact .ret hne (hst.infer hk he) ha
  | brk => exact ⟨hst, fun _ => .brk⟩
  | print he => exact ⟨hst, fun hk => .print (hst.inferAll hk he)⟩
  | assign hs ht hp ha => exact ⟨hst, fun hk => .assign (hst.infer hk ht) (hst.infer hk hs) ha⟩
  | addAssign hs ht hp hn ha =>
    exact ⟨hst, fun hk => .addAssign (hst.infer hk ht) (hst.infer hk hs) hn ha⟩
  | increment ht hp hn => exact ⟨hst, fun hk => .increment (hst.infer hk ht) hn⟩
  | decrement ht hp hn => exact ⟨hst, fun hk => .decrement (hst.infer hk ht) hn⟩
  | call he => exact ⟨hst, fun hk => .call (hst.infer hk he)⟩
  | nil => exact ⟨hst, fun _ => by simp [Answer.WellTyped]⟩
  | @cons t ts st s ss st₁ st₂ hs hss ihs ihss =>
    obtain ⟨hs₁, hhead⟩ := ihs hst trivial
    obtain ⟨hs₂, htail⟩ := ihss hs₁ trivial
    refine ⟨hs₂, fun {st''} hk d hd => ?_⟩
    rcases List.mem_cons.1 hd with rfl | hd
    · exact hhead (hk.before hss.keeps)
    · have htail := htail (hk.mono hs.keeps.next) d hd
      rwa [hs.result_eq] at htail
  | noClause => exact ⟨hst, fun _ => by simp [Answer.WellTyped]⟩
  | @clause p cond body rest st test b cs st₁ st₂ ht hbool hb hc ihb ihc =>
    obtain ⟨hs₁, hbody⟩ := ihb (hst.enter (by simp)) trivial
    obtain ⟨hs₂, hclauses⟩ := ihc (hs₁.backTo hst hb.keeps.next) trivial
    refine ⟨hs₂, fun {st''} hk c hmem => ?_⟩
    have hk' := hk.before hc.keeps
    rcases List.mem_cons.1 hmem with rfl | hmem
    · exact ⟨hst.infer (hk'.before hb.keeps.ofScope) ht, Ty.eq_of_equiv hbool, hbody hk'.closed⟩
    · exact hclauses (hk.mono hb.keeps.next) c hmem
  | noMethod => exact ⟨hst, fun _ => by simp [Answer.WellTyped]⟩
  | field _ ih => exact ih hst hcls
  | @method cls p name ps returns body rest st r qs ss fs left st₀ st₁ st₂ hr hn hq hb hm ihb ihm =>
    obtain ⟨hf, hnodup, hqs, hin⟩ := hst.inMethod hcls hr hq
    obtain ⟨hs₁, hbody⟩ := ihb hin trivial
    have hk₁ := hb.keeps.ofMethod hn
    obtain ⟨hs₂, htail⟩ := ihm (hs₁.backTo hst hk₁.next) (Nat.lt_of_lt_of_le hcls hk₁.next)
    refine ⟨hs₂, fun {st''} hk f hmem => ?_⟩
    rcases List.mem_cons.1 hmem with rfl | hmem
    · refine ⟨rfl, .body hf rfl hqs hnodup ?_⟩
      have hresult : (((st.skip.enterFunction name (r.getD .void)).addAll qs).addMethod cls.id
          (functionEntity st.next true name qs (r.getD .void))).result = some (r.getD .void) :=
        State.result_addAll _ _
      rw [hresult] at hbody
      -- the class was there before its methods
      have hstart : st.next ≤ ((st.skip.enterFunction name (r.getD .void)).addAll qs).next :=
        State.le_addAll_next (Nat.le_succ _)
      refine hbody ((hk.mono hstart).after hm.keeps fun k hle => if_neg ?_).closed
      have hlt : cls.id < k := Nat.lt_of_lt_of_le hcls (Nat.le_trans hstart hle)
      exact Nat.ne_of_gt hlt
    · exact htail (hk.mono hk₁.next) f hmem
  | @leftOut cls t rest st s fs left st₁ st₂ hk hs hm ihs ihm =>
    obtain ⟨hs₁, -⟩ := ihs hst trivial
    obtain ⟨hs₂, htail⟩ := ihm (hs₁.leaveOut _ _) (Nat.lt_of_lt_of_le hcls hs.keeps.next)
    refine ⟨hs₂, fun {st''} hk => ?_⟩
    have htail := htail (hk.mono hs.keeps.next)
    rwa [show (st₁.leaveOut t.kind cls.name).result = st.result from hs.result_eq] at htail

end Snack.Typing
