import Snack.Proofs.Core.Types
import Snack.Proofs.Tree.EmptyOptionals
import Snack.Proofs.Typing.Spelled

/-! Properties of types that the analysis hands on. It takes types from what is written and from the
library, and makes new ones out of the types of operands, elements, members and parameters. A property
that each of these steps keeps holds of every type in an accepted program, wherever it occurs. Only the
type of an empty optional has to be looked at for itself, since it is not made like other optionals. -/

namespace Snack.Typing

open Snack.Core

/-- A property of types that passes from types to those made of them and back, but for optionals of
optionals. -/
structure Hereditary (T : Ty → Prop) : Prop where
  prim (p : Prim) : T (.prim p)
  struct (s : StructRef) : T (.struct s)
  array {t : Ty} : T (.array t) ↔ T t
  dict {k v : Ty} : T (.dict k v) ↔ T k ∧ T v
  tuple {ts : List Ty} (h : ∀ t ∈ ts, T t) : T (.tuple ts)
  function {ps : List Ty} {r : Ty} : T (.function ps r) ↔ (∀ p ∈ ps, T p) ∧ T r
  base {t : Ty} (h : T (.optional t)) : T t
  optionalOf {t : Ty} (h : T t) : T (optionalOf t)

/-! ### What is known -/

/-- An entity with a type of the property `T`, and that of a class if it is one. -/
structure Suits (T : Ty → Prop) (e : Entity) : Prop where
  typ : T e.typ
  cls : e.kind = .classDef → ∃ s, e.typ = .struct s

theorem Suits.of_kind {T : Ty → Prop} {e : Entity} (h : T e.typ) (hk : e.kind ≠ .classDef) : Suits T e :=
  ⟨h, fun hc => absurd hc hk⟩

/-- All types that are known, of names and of members, have the property `T`. -/
structure Within (T : Ty → Prop) (st : State) : Prop where
  scopes : Knows st (Suits T)
  fields : ∀ k, ∀ f ∈ (st.membersOf k).fields, T f.typ
  table : ∀ k, ∀ m ∈ (st.membersOf k).table, T m.2
  methods : ∀ k, ∀ m ∈ (st.membersOf k).methods, T m.typ

namespace Within

variable {T : Ty → Prop} {st st' : State}

/-- New scopes over members that stay as they are. -/
theorem of_members (h : Within T st) (hk : Knows st' (Suits T)) (hm : st'.members = st.members) :
    Within T st' where
  scopes := hk
  fields k := by
    rw [State.membersOf_congr hm]
    exact h.fields k
  table k := by
    rw [State.membersOf_congr hm]
    exact h.table k
  methods k := by
    rw [State.membersOf_congr hm]
    exact h.methods k

theorem addAll {es : List Entity} (h : Within T st) (he : ∀ e ∈ es, Suits T e) : Within T (st.addAll es) :=
  h.of_members (h.scopes.addAll he) (State.addAll_members _ _)

theorem add {e : Entity} (h : Within T st) (he : Suits T e) : Within T (st.add e) :=
  h.of_members (h.scopes.add he) rfl

/-- A new scope in the same class. -/
theorem enter {l : Option Bool} {f : Option Callable} (h : Within T st) : Within T (st.enter l f none) :=
  h.of_members (h.scopes.enter (by simp)) rfl

theorem enterClass {c : Entity} (h : Within T st) (hc : Suits T c) : Within T (st.enterClass c) := by
  refine h.of_members (h.scopes.enter ?_) rfl
  rintro _ ⟨⟩
  exact hc

theorem skip (h : Within T st) : Within T st.skip := h.of_members (h.scopes.of_scopes rfl rfl) rfl

theorem leaveOut (h : Within T st) (kind cls : String) : Within T (st.leaveOut kind cls) :=
  h.of_members (h.scopes.of_scopes rfl rfl) rfl

theorem backTo {before : State} (h : Within T st) (hb : Within T before) : Within T (st.backTo before) :=
  h.of_members hb.scopes.backTo rfl

theorem addMethod {e : Entity} (h : Within T st) (id : Nat) (he : T e.typ) : Within T (st.addMethod id e) where
  scopes := h.scopes.of_scopes rfl rfl
  fields k := by
    rw [State.membersOf_addMethod]
    split
    · exact h.fields id
    · exact h.fields k
  table k m hm := by
    rw [State.membersOf_addMethod] at hm
    split at hm
    · rcases Table.mem_put hm with hm | rfl
      · exact h.table id m hm
      · exact he
    · exact h.table k m hm
  methods k := by
    rw [State.membersOf_addMethod]
    split
    · exact List.forall_mem_append.2 ⟨h.methods id, List.forall_mem_singleton.2 he⟩
    · exact h.methods k

theorem addFields {fs : List Field} (h : Within T st) (id : Nat) (hf : ∀ f ∈ fs, T f.typ) :
    Within T (st.addFields id fs) where
  scopes := h.scopes.addFields
  fields k := by
    rw [State.membersOf_addFields]
    split
    · exact List.forall_mem_append.2 ⟨h.fields id, hf⟩
    · exact h.fields k
  table k := by
    rw [State.membersOf_addFields]
    split
    · exact h.table id
    · exact h.table k
  methods k := by
    rw [State.membersOf_addFields]
    split
    · exact h.methods id
    · exact h.methods k

theorem typ? (h : Within T st) {k : Nat} {name : String} {t : Ty}
    (ht : (st.membersOf k).typ? name = some t) : T t := by
  unfold Members.typ? at ht
  split at ht
  · next f hf =>
    cases ht
    exact h.fields k f (List.mem_of_find?_eq_some hf)
  · exact h.table k _ (Table.mem_of_lookup ht)

theorem initial (hT : Hereditary T) : Within T .initial where
  scopes := by
    refine Knows.initial fun e he => ⟨?_, fun hk => ?_⟩
    · simp only [standardLibrary, List.mem_cons, List.not_mem_nil, or_false] at he
      rcases he with rfl | rfl | rfl | rfl | rfl | rfl | rfl | rfl | rfl | rfl | rfl | rfl | rfl | rfl <;>
        first | exact hT.prim _ | exact hT.function.2 ⟨by simp [hT.prim], hT.prim _⟩
    · have hlib := isLibrary_standard he
      rw [hk] at hlib
      cases hlib
  fields k := List.forall_mem_nil _
  table k := List.forall_mem_nil _
  methods k := List.forall_mem_nil _

end Within

/-! ### Expressions -/

namespace Hereditary

variable {T : Ty → Prop} {st : State}

theorem of_resolve (hT : Hereditary T) {U : Ty → Prop} (hst : Knows st (Suits U)) {t : Tree.TypeExpr} {ty : Ty}
    (h : resolve st t = .ok ty) : T ty := by
  induction t generalizing ty with
  | named p name =>
    unfold resolve at h
    split at h
    · cases h
      exact hT.prim _
    · cases h
  | array p base ih =>
    simp only [resolve, except_bind_ok, except_pure_ok] at h
    obtain ⟨_, hb, rfl⟩ := h
    exact hT.array.2 (ih hb)
  | dict p key value ihk ihv =>
    simp only [resolve, except_bind_ok, except_pure_ok] at h
    obtain ⟨_, hk, _, hv, rfl⟩ := h
    exact hT.dict.2 ⟨ihk hk, ihv hv⟩
  | optional p base ih =>
    simp only [resolve, except_bind_ok, except_pure_ok] at h
    obtain ⟨_, hb, rfl⟩ := h
    exact hT.optionalOf (ih hb)
  | ref p name =>
    simp only [resolve, except_bind_ok, State.lookup_ok] at h
    obtain ⟨e, he, h⟩ := h
    split at h
    · next hk =>
      obtain ⟨s, hs⟩ := (hst.of_find? he).cls hk
      rw [except_pure_ok] at h
      rw [← h, hs]
      exact hT.struct s
    · exact absurd h except_throw_ok
  | unknown p kind => cases h
  | absent part => cases h

/-- A type that may be written has the property, and so has the one that stands for it. -/
theorem of_resolve? (hT : Hereditary T) (hst : Within T st) {t : Option Tree.TypeExpr} {r : Option Ty} {d : Prim}
    (h : t.mapM (resolve st) = .ok r) : T (r.getD (.prim d)) := by
  rcases option_mapM_ok.1 h with ⟨-, rfl⟩ | ⟨t, ty, -, rfl, hty⟩
  · exact hT.prim d
  · exact hT.of_resolve hst.scopes hty

theorem of_binaryRule (hT : Hereditary T) {op : BinaryOp} {t u v : Ty} (h : BinaryRule op t u v) (ht : T t) :
    T v := by
  cases h with
  | logic | order | equality => exact hT.prim _
  | coalesce => exact hT.base ht
  | add | arith => exact ht

theorem of_memberType (hT : Hereditary T) (hst : Within T st) {o : Expr} {K : Entity → Prop} {W : Ty → Prop}
    (htyped : Typed K W st.membersOf o) (ho : T o.typ) {op : AccessOp} {name : String} {p po : Pos} {t : Ty}
    (h : memberType st o op name p po = .ok t) : T t := by
  cases typed_member htyped h with
  | items _ ht => rwa [ht] at ho
  | member _ _ _ hm => exact hst.typ? hm
  | optionalMember _ _ hm => exact hT.optionalOf (hst.typ? hm)

theorem of_arrayType (hT : Hereditary T) {es : List Expr} (he : ∀ e ∈ es, T e.typ) {p : Pos} {t : Ty}
    (h : arrayType p es = .ok t) : T t := by
  cases es with
  | nil =>
    cases h
    exact hT.array.2 (hT.prim _)
  | cons e es =>
    simp only [arrayType, except_bind_ok, except_pure_ok] at h
    obtain ⟨_, -, rfl⟩ := h
    exact hT.array.2 (he e List.mem_cons_self)

theorem of_dictType (hT : Hereditary T) {es : List (Expr × Expr)} (he : ∀ e ∈ es, T e.1.typ ∧ T e.2.typ)
    {p : Pos} {t : Ty} (h : dictType p es = .ok t) : T t := by
  cases es with
  | nil =>
    cases h
    exact hT.dict.2 ⟨hT.prim _, hT.prim _⟩
  | cons e es =>
    simp only [dictType, except_bind_ok, except_pure_ok] at h
    obtain ⟨_, -, rfl⟩ := h
    exact hT.dict.2 (he e List.mem_cons_self)

section Expressions

variable {N : Tree.TypeExpr → Prop}

mutual

/-- All types in an expression have the property if those of its empty optionals have it. -/
theorem of_infer (hT : Hereditary T) (hst : Within T st)
    (hN : ∀ {b r}, N b → resolve st b = .ok r → T (.optional r)) (t : Tree.Expr)
    (ht : ∀ b ∈ t.emptyOptionals, N b) {e : Expr} (h : infer st t = .ok e) : e.TypesIn T := by
  cases t with
  | num p text =>
    rcases number_ok h with ⟨n, rfl⟩ | ⟨x, rfl⟩
    · exact typesIn_of_inner_nil rfl (hT.prim _)
    · exact typesIn_of_inner_nil rfl (hT.prim _)
  | str p value =>
    cases h
    exact typesIn_of_inner_nil rfl (hT.prim _)
  | bool p value =>
    cases h
    exact typesIn_of_inner_nil rfl (hT.prim _)
  | var p name =>
    obtain ⟨x, hx, rfl⟩ := nameValue_ok hst.scopes h
    exact typesIn_of_inner_nil rfl hx.typ
  | paren p inner => exact of_infer hT hst hN inner ht h
  | binary p op left right =>
    obtain ⟨htl, htr⟩ := List.forall_mem_append.1 ht
    simp only [infer, except_bind_ok, except_pure_ok] at h
    obtain ⟨l, hl, r, hr, t, hrule, rfl⟩ := h
    have hl := of_infer hT hst hN left htl hl
    exact typesIn_binary hl (of_infer hT hst hN right htr hr)
      (hT.of_binaryRule (binaryRule_of_binaryType hrule) hl.typ)
  | unary p op operand =>
    simp only [infer, except_bind_ok, except_pure_ok] at h
    obtain ⟨o, ho, _, -, rfl⟩ := h
    have ho := of_infer hT hst hN operand ht ho
    exact typesIn_unary ho ho.typ
  | call p callee args =>
    cases args with
    | none => exact absurd h infer_call_none
    | some as =>
      obtain ⟨htf, hta⟩ := List.forall_mem_append.1 ht
      obtain ⟨f, es, hf, has, hres⟩ := infer_call_ok h
      have hf : f.TypesIn T := by
        rcases hf with ⟨name, x, hx, rfl⟩ | hf
        · exact typesIn_of_inner_nil rfl (hst.scopes.of_find? hx).typ
        · exact of_infer hT hst hN callee htf hf
      have ha := of_inferAll hT hst hN as hta has
      rcases hres with ⟨c, rfl, -, -, rfl⟩ | ⟨ps, r, htyp, -, rfl⟩
      · exact typesIn_construct ha hf.typ
      · have hfun := hf.typ
        rw [htyp] at hfun
        exact typesIn_call hf ha (hT.function.1 hfun).2
  | member p object op name =>
    simp only [infer, except_bind_ok, Check.part_ok, except_pure_ok] at h
    obtain ⟨o, ho, _, rfl, _, rfl, t, hmember, rfl⟩ := h
    have htyped := typed_of_infer (K := fun _ => True) (W := fun _ => True)
      (fun _ _ => ⟨fun _ _ => trivial, fun _ _ => trivial⟩) (fun _ _ _ => trivial) object ho
    have ho := of_infer hT hst hN object ht ho
    exact typesIn_member ho (hT.of_memberType hst htyped ho.typ hmember)
  | array p items =>
    simp only [infer, except_bind_ok, except_pure_ok] at h
    obtain ⟨es, hes, t, hty, rfl⟩ := h
    have hes := of_inferAll hT hst hN items ht hes
    exact typesIn_array hes (hT.of_arrayType (fun e he => (hes e he).typ) hty)
  | tuple p items =>
    simp only [infer, except_bind_ok, except_pure_ok] at h
    obtain ⟨es, hes, rfl⟩ := h
    have hes := of_inferAll hT hst hN items ht hes
    exact typesIn_tuple hes (hT.tuple (List.forall_mem_map.2 fun e he => (hes e he).typ))
  | dict p entries =>
    simp only [infer, except_bind_ok, except_pure_ok] at h
    obtain ⟨es, hes, t, hty, rfl⟩ := h
    have hes := of_inferEntries hT hst hN entries ht hes
    exact typesIn_dict hes (hT.of_dictType (fun e he => ⟨(hes e he).1.typ, (hes e he).2.typ⟩) hty)
  | emptyArray p element =>
    simp only [infer, except_bind_ok, except_pure_ok] at h
    obtain ⟨t, hty, rfl⟩ := h
    exact typesIn_of_inner_nil rfl (hT.array.2 (hT.of_resolve hst.scopes hty))
  | emptyOptional p base =>
    simp only [infer, except_bind_ok, except_pure_ok] at h
    obtain ⟨t, hty, rfl⟩ := h
    exact typesIn_of_inner_nil rfl (hN (ht base (List.mem_singleton_self base)) hty)
  | unknown p kind => cases h
  | absent part => cases h

theorem of_inferAll (hT : Hereditary T) (hst : Within T st)
    (hN : ∀ {b r}, N b → resolve st b = .ok r → T (.optional r)) (ts : List Tree.Expr)
    (ht : ∀ b ∈ Tree.emptyOptionalsOfAll ts, N b) {es : List Expr} (h : inferAll st ts = .ok es) :
    ∀ e ∈ es, e.TypesIn T := by
  cases ts with
  | nil =>
    cases h
    exact List.forall_mem_nil _
  | cons t ts =>
    obtain ⟨htt, htts⟩ := List.forall_mem_append.1 ht
    simp only [inferAll, except_bind_ok, except_pure_ok] at h
    obtain ⟨d, hd, ds, hds, rfl⟩ := h
    exact List.forall_mem_cons.2 ⟨of_infer hT hst hN t htt hd, of_inferAll hT hst hN ts htts hds⟩

theorem of_inferEntries (hT : Hereditary T) (hst : Within T st)
    (hN : ∀ {b r}, N b → resolve st b = .ok r → T (.optional r)) (ts : List Tree.Entry)
    (ht : ∀ b ∈ Tree.emptyOptionalsOfEntries ts, N b) {es : List (Expr × Expr)}
    (h : inferEntries st ts = .ok es) : ∀ e ∈ es, e.1.TypesIn T ∧ e.2.TypesIn T := by
  cases ts with
  | nil =>
    cases h
    exact List.forall_mem_nil _
  | cons t ts =>
    obtain ⟨p, key, value⟩ := t
    obtain ⟨htk, htr⟩ := List.forall_mem_append.1 ht
    obtain ⟨htv, htts⟩ := List.forall_mem_append.1 htr
    simp only [inferEntries, except_bind_ok, except_pure_ok] at h
    obtain ⟨k, hk, v, hv, ds, hds, rfl⟩ := h
    exact List.forall_mem_cons.2 ⟨⟨of_infer hT hst hN key htk hk, of_infer hT hst hN value htv hv⟩,
      of_inferEntries hT hst hN ts htts hds⟩

end

theorem of_infer? (hT : Hereditary T) (hst : Within T st)
    (hN : ∀ {b r}, N b → resolve st b = .ok r → T (.optional r)) {t : Option Tree.Expr}
    (ht : ∀ b ∈ Tree.emptyOptionalsOfAll t.toList, N b) {r : Option Expr} (h : t.mapM (infer st) = .ok r) :
    ∀ e ∈ r, e.TypesIn T := by
  rcases option_mapM_ok.1 h with ⟨-, rfl⟩ | ⟨t, e, rfl, rfl, he⟩
  · simp
  · rintro _ ⟨⟩
    exact hT.of_infer hst hN t (List.forall_mem_append.1 ht).1 he

end Expressions

/-! ### Declarations -/

section Declarations

variable {st' : State}

theorem of_params (hT : Hereditary T) (hst : Within T st) {ps : List Tree.Param} {qs : List Entity}
    (h : Check.params ps st = .ok qs st') : ∀ q ∈ qs, Suits T q ∧ q.kind = .parameter := by
  induction ps generalizing st qs with
  | nil =>
    obtain ⟨rfl, rfl⟩ := pure_ok.1 h
    exact List.forall_mem_nil _
  | cons p ps ih =>
    simp only [Check.params, bind_ok, Check.type?_ok, Check.lift_ok, Check.part_ok, Check.fresh_ok,
      Check.declare_ok, pure_ok] at h
    obtain ⟨r, _, ⟨ht, rfl⟩, name, _, ⟨-, rfl⟩, _, _, ⟨rfl, rfl⟩, _, _, ⟨-, rfl⟩, qs, _, hqs, rfl,
      rfl⟩ := h
    have hq : Suits T ⟨st.next, .parameter, name, r.getD .any⟩ := .of_kind (hT.of_resolve? hst ht) (by simp)
    exact List.forall_mem_cons.2 ⟨⟨hq, rfl⟩, ih (hst.add hq) hqs⟩

theorem of_slotType (hT : Hereditary T) {declared : Option Ty} {init : Option Expr} {p : Pos} {t : Ty}
    (hd : ∀ u ∈ declared, T u) (hi : ∀ e ∈ init, T e.typ) (h : Check.slotType declared init p = .ok t) :
    T t := by
  cases declared with
  | none =>
    cases init with
    | none =>
      cases h
      exact hT.prim _
    | some e =>
      cases h
      exact hi e rfl
  | some u =>
    cases init with
    | none =>
      cases h
      exact hd _ rfl
    | some e =>
      simp only [Check.slotType, except_bind_ok, except_pure_ok] at h
      obtain ⟨_, -, rfl⟩ := h
      exact hd _ rfl

theorem of_elementTypes (hT : Hereditary T) {t : Ty} (ht : T t) {p : Pos} {ts : List Ty}
    (h : Check.elementTypes t p = .ok ts) : ∀ u ∈ ts, T u := by
  unfold Check.elementTypes at h
  split at h
  · cases h
    exact List.forall_mem_singleton.2 (hT.array.1 ht)
  · cases h
    obtain ⟨hk, hv⟩ := hT.dict.1 ht
    exact List.forall_mem_cons.2 ⟨hk, List.forall_mem_singleton.2 hv⟩
  · cases h

theorem of_fields (hT : Hereditary T) (hst : Within T st) {id : Nat} {ts : List Tree.Stmt} {u : Unit}
    (h : Check.fields id ts st = .ok u st') : Within T st' := by
  obtain ⟨fs, rfl, hfs⟩ := Check.fields_ok h
  refine hst.addFields id fun f hf => ?_
  rcases hfs f hf with hany | ⟨before, t, ht⟩
  · rw [hany]
    exact hT.prim _
  · exact hT.of_resolve hst.scopes.addFields ht

theorem suits_functionEntity (hT : Hereditary T) {id : Nat} {isMethod : Bool} {name : String} {qs : List Entity}
    {r : Ty} (hq : ∀ q ∈ qs, T q.typ) (hr : T r) : Suits T (functionEntity id isMethod name qs r) where
  typ := hT.function.2 ⟨List.forall_mem_map.2 hq, hr⟩
  cls h := by cases h

theorem suits_classEntity (hT : Hereditary T) (id : Nat) (name : String) : Suits T (classEntity id name) where
  typ := hT.struct _
  cls _ := ⟨_, rfl⟩

end Declarations

end Hereditary

/-! ### Whole programs -/

/-- The types behind the empty optionals of a task. -/
def Task.emptyOptionals : Task → List Tree.TypeExpr
  | .stmt t => t.emptyOptionals
  | .block ts => Tree.emptyOptionalsOfBlock ts
  | .clauses cs => Tree.emptyOptionalsOfClauses cs
  | .methods _ ts => Tree.emptyOptionalsOfBlock ts

section Programs

variable {T : Ty → Prop} {N : Tree.TypeExpr → Prop}

/-- All types in an answer have the property. -/
def Answer.BuiltOf (T : Ty → Prop) : Answer → Prop
  | .stmt s => Core.BuiltOf T (.stmt s)
  | .block ss => ∀ s ∈ ss, Core.BuiltOf T (.stmt s)
  | .clauses cs => ∀ c ∈ cs, c.test.TypesIn T ∧ ∀ s ∈ c.body, Core.BuiltOf T (.stmt s)
  | .methods fs _ => ∀ f ∈ fs, Core.BuiltOf T (.function f)

theorem builtOf_clauses {cs : List Check.Clause} {rest : Else} (hc : (Answer.clauses cs).BuiltOf T)
    (hr : BuiltOf T (.rest rest)) : BuiltOf T (.rest (Check.clauses cs rest)) := by
  induction cs with
  | nil => exact hr
  | cons c cs ih =>
    obtain ⟨ht, hb⟩ := hc c List.mem_cons_self
    exact .elseIf ht hb (ih fun d hd => hc d (List.mem_cons_of_mem _ hd))

/-- Whatever has only types with the property before a run has only such types after it, and so has the
answer. -/
theorem Accepts.hereditary (hT : Hereditary T)
    (hN : ∀ {st b r}, Within T st → N b → resolve st b = .ok r → T (.optional r))
    {task : Task} {st st' : State} {ans : Answer} (h : Accepts task st ans st')
    (ht : ∀ b ∈ task.emptyOptionals, N b) (hst : Within T st) : ans.BuiltOf T ∧ Within T st' := by
  induction h with
  | @varDecl p t name init st declared value ty _ hd hv hs =>
    have hvalue := hT.of_infer? hst (hN hst) ht hv
    have hty : T ty := by
      refine hT.of_slotType ?_ (fun e he => (hvalue e he).typ) hs
      rintro u ⟨⟩
      exact hT.of_resolve? (d := .any) hst hd
    exact ⟨.declare ⟨hty, rfl⟩ hvalue, hst.add (.of_kind hty (by simp))⟩
  | @collection p name value st e _ hv =>
    have he := hT.of_infer hst (hN hst) value ht hv
    refine ⟨.declare ⟨he.typ, rfl⟩ ?_, hst.add (.of_kind he.typ (by simp))⟩
    rintro _ ⟨⟩
    exact he
  | @function p name ps returns body st r qs ss st₀ st₁ _ hr hq _ ih =>
    have hres : T (r.getD .void) := hT.of_resolve? hst hr
    have hann : Within T ((st.add (functionEntity st.next false name [] (r.getD .void))).enterFunction name
        (r.getD .void)) :=
      (hst.add (hT.suits_functionEntity (List.forall_mem_nil _) hres)).enter
    have hqs := hT.of_params hann hq
    have hf : Suits T (functionEntity st.next false name qs (r.getD .void)) :=
      hT.suits_functionEntity (fun q hq => (hqs q hq).1.typ) hres
    obtain ⟨hbody, hafter⟩ := ih ht ((hst.add hf).enter.addAll fun q hq => (hqs q hq).1)
    refine ⟨.function rfl (.body hf.typ (fun q hq => ?_) hbody), hafter.backTo (hst.add hf)⟩
    exact .of_kind (hqs q hq).1.typ (hqs q hq).2 rfl
  | @classDecl p name body st st₁ fs left st₂ _ hfields _ ih =>
    have hc := hT.suits_classEntity st.next name
    obtain ⟨hmethods, hafter⟩ := ih ht (hT.of_fields ((hst.add hc).enterClass hc) hfields)
    exact ⟨.classDecl ⟨hc.typ, rfl⟩ (hafter.fields st.next) hmethods, hafter.backTo (hst.add hc)⟩
  | @ifChain p cond body elseIfs st test b cs st₁ st₂ hc _ _ _ ihb ihc =>
    obtain ⟨htc, ht⟩ := List.forall_mem_append.1 ht
    obtain ⟨htb, htcs⟩ := List.forall_mem_append.1 ht
    obtain ⟨hbody, hafter⟩ := ihb htb hst.enter
    obtain ⟨hclauses, hend⟩ := ihc htcs (hafter.backTo hst)
    exact ⟨.ifElse (hT.of_infer hst (hN hst) cond htc hc) hbody (builtOf_clauses hclauses .none), hend⟩
  | @ifElse p cond body elseIfs elsePart st test b cs rest st₁ st₂ st₃ hc _ _ _ _ ihb ihc ihe =>
    obtain ⟨htc, ht⟩ := List.forall_mem_append.1 ht
    obtain ⟨htb, ht⟩ := List.forall_mem_append.1 ht
    obtain ⟨htcs, hte⟩ := List.forall_mem_append.1 ht
    obtain ⟨hbody, hafter⟩ := ihb htb hst.enter
    obtain ⟨hclauses, hnext⟩ := ihc htcs (hafter.backTo hst)
    obtain ⟨helse, hend⟩ := ihe hte hnext.enter
    exact ⟨.ifElse (hT.of_infer hst (hN hst) cond htc hc) hbody (builtOf_clauses hclauses (.block helse)),
      hend.backTo hnext⟩
  | @whileLoop p cond body st test b st₁ hc _ _ ih =>
    obtain ⟨htc, htb⟩ := List.forall_mem_append.1 ht
    obtain ⟨hbody, hafter⟩ := ih htb hst.enter
    exact ⟨.whileLoop (hT.of_infer hst (hN hst) cond htc hc) hbody, hafter.backTo hst⟩
  | @rangeLoop p name low op high body st lo hi op' b st₁ hl _ hh _ _ ho ih =>
    obtain ⟨htl, ht⟩ := List.forall_mem_append.1 ht
    obtain ⟨hth, htb⟩ := List.forall_mem_append.1 ht
    have hlow := hT.of_infer hst (hN hst) low htl hl
    obtain ⟨hbody, hafter⟩ := ih htb (Within.add hst.enter (.of_kind hlow.typ (by simp)))
    have hhigh := hT.of_infer hst (hN hst) high hth hh
    exact ⟨.rangeLoop ⟨hlow.typ, rfl⟩ hlow hhigh (rangeOp_ok ho) hbody, hafter.backTo hst⟩
  | @eachLoop p names coll body st c ts is b st₀ st₁ hc hts hlen hi _ ih =>
    obtain ⟨htc, htb⟩ := List.forall_mem_append.1 ht
    have hcoll := hT.of_infer hst (hN hst) coll htc hc
    obtain ⟨htypes, hkinds⟩ := iterators_typ hi
    rw [List.map_snd_zip (Nat.le_of_eq hlen.symm)] at htypes
    have hall := hT.of_elementTypes hcoll.typ hts
    have his : ∀ i ∈ is, T i.typ := fun i hmem => hall _ (htypes ▸ List.mem_map_of_mem hmem)
    obtain ⟨hbody, hafter⟩ := ih htb (Within.addAll hst.enter fun i hmem =>
      .of_kind (his i hmem) (by simp [hkinds i hmem]))
    refine ⟨?_, hafter.backTo hst⟩
    cases is with
    | nil =>
      rw [List.map_nil] at htypes
      exact absurd htypes.symm (elementTypes_ne_nil hts)
    | cons i is => exact .eachLoop (fun j hj => .of_kind (his j hj) (hkinds j hj) rfl) hcoll hbody
  | retNone => exact ⟨.ret (by simp), hst⟩
  | @ret p value st f e _ _ he _ =>
    refine ⟨.ret ?_, hst⟩
    rintro _ ⟨⟩
    exact hT.of_infer hst (hN hst) value (List.forall_mem_append.1 ht).1 he
  | brk => exact ⟨.brk, hst⟩
  | print he => exact ⟨.print (hT.of_inferAll hst (hN hst) _ ht he), hst⟩
  | assign hs htarget _ _ =>
    obtain ⟨htt, hts⟩ := List.forall_mem_append.1 ht
    exact ⟨.assign (hT.of_infer hst (hN hst) _ htt htarget) (hT.of_infer hst (hN hst) _ hts hs), hst⟩
  | addAssign hs htarget _ _ _ =>
    obtain ⟨htt, hts⟩ := List.forall_mem_append.1 ht
    exact ⟨.addAssign (hT.of_infer hst (hN hst) _ htt htarget) (hT.of_infer hst (hN hst) _ hts hs), hst⟩
  | increment htarget _ _ => exact ⟨.increment (hT.of_infer hst (hN hst) _ ht htarget), hst⟩
  | decrement htarget _ _ => exact ⟨.decrement (hT.of_infer hst (hN hst) _ ht htarget), hst⟩
  | call he => exact ⟨.call (hT.of_infer hst (hN hst) _ ht he), hst⟩
  | nil => exact ⟨List.forall_mem_nil _, hst⟩
  | cons _ _ ihs ihss =>
    obtain ⟨hts, htss⟩ := List.forall_mem_append.1 ht
    obtain ⟨hhead, hafter⟩ := ihs hts hst
    obtain ⟨htail, hend⟩ := ihss htss hafter
    exact ⟨List.forall_mem_cons.2 ⟨hhead, htail⟩, hend⟩
  | noClause => exact ⟨List.forall_mem_nil _, hst⟩
  | clause hc _ _ _ ihb ihc =>
    obtain ⟨htc, ht⟩ := List.forall_mem_append.1 ht
    obtain ⟨htb, htcs⟩ := List.forall_mem_append.1 ht
    obtain ⟨hbody, hafter⟩ := ihb htb hst.enter
    obtain ⟨hclauses, hend⟩ := ihc htcs (hafter.backTo hst)
    exact ⟨List.forall_mem_cons.2 ⟨⟨hT.of_infer hst (hN hst) _ htc hc, hbody⟩, hclauses⟩, hend⟩
  | noMethod => exact ⟨List.forall_mem_nil _, hst⟩
  | field _ ih => exact ih (List.forall_mem_append.1 ht).2 hst
  | @method cls p name ps returns body rest st r qs ss fs left st₀ st₁ st₂ hr _ hq _ _ ihb ihm =>
    obtain ⟨htb, htr⟩ := List.forall_mem_append.1 ht
    have hres : T (r.getD .void) := hT.of_resolve? hst hr
    have hskip : Within T (st.skip.enterFunction name (r.getD .void)) := hst.skip.enter
    have hqs := hT.of_params hskip hq
    have hf : Suits T (functionEntity st.next true name qs (r.getD .void)) :=
      hT.suits_functionEntity (fun q hq => (hqs q hq).1.typ) hres
    have hin := (hskip.addAll fun q hq => (hqs q hq).1).addMethod cls.id hf.typ
    obtain ⟨hbody, hafter⟩ := ihb htb hin
    obtain ⟨hmethods, hend⟩ := ihm htr (hafter.backTo hst)
    refine ⟨List.forall_mem_cons.2 ⟨.body hf.typ (fun q hq => ?_) hbody, hmethods⟩, hend⟩
    exact .of_kind (hqs q hq).1.typ (hqs q hq).2 rfl
  | leftOut _ _ _ ihs ihm =>
    obtain ⟨hts, htr⟩ := List.forall_mem_append.1 ht
    obtain ⟨-, hafter⟩ := ihs hts hst
    exact ihm htr (hafter.leaveOut _ _)

/-- A hereditary property that the empty optionals of a tree have holds of all types in its program and of
all members of its classes. -/
theorem Hereditary.of_analyze (hT : Hereditary T)
    (hN : ∀ {st b r}, Within T st → N b → resolve st b = .ok r → T (.optional r)) {tree : Tree.Program}
    (ht : ∀ b ∈ Tree.emptyOptionalsOfBlock tree, N b) {p : Program} {st : State}
    (h : analyze tree = (.ok p, st)) : (∀ t ∈ p.types, T t) ∧ Within T st := by
  obtain ⟨hbuilt, hwithin⟩ := (accepts_of_analyze h).hereditary hT hN ht (.initial hT)
  exact ⟨Program.forall_types hbuilt, hwithin⟩

end Programs

end Snack.Typing
