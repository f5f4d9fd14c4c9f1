import Snack.Proofs.Typing.Accepts
import Snack.Proofs.Typing.Assignable

/-! Expressions that the analysis accepts obey the rules, as far as the entities in scope do. -/

namespace Snack

namespace Typing

open Snack.Core

/-! ### Written types -/

theorem known_optionalOf {t : Ty} (h : t.Known) : (optionalOf t).Known := by
  cases t <;> first | exact h | exact .optional h

theorem written_optionalOf {t : Ty} (h : t.Written) : (optionalOf t).Written := by
  cases h with
  | optional h => exact .optional h
  | prim p => exact .optional (.prim p)
  | array h => exact .optional (.array h)
  | dict hk hv => exact .optional (.dict hk hv)
  | struct s => exact .optional (.struct s)

theorem written_of_resolve {st : State} (hst : Knows st Proper) {t : Tree.TypeExpr} {ty : Ty}
    (h : resolve st t = .ok ty) : ty.Written := by
  induction t generalizing ty with
  | named p name =>
    unfold resolve at h
    split at h
    · cases h
      exact .prim _
    · cases h
  | array p base ih =>
    simp only [resolve, except_bind_ok, except_pure_ok] at h
    obtain ⟨_, hb, rfl⟩ := h
    exact .array (ih hb)
  | dict p key value ihk ihv =>
    simp only [resolve, except_bind_ok, except_pure_ok] at h
    obtain ⟨_, hk, _, hv, rfl⟩ := h
    exact .dict (ihk hk) (ihv hv)
  | optional p base ih =>
    simp only [resolve, except_bind_ok, except_pure_ok] at h
    obtain ⟨_, hb, rfl⟩ := h
    exact written_optionalOf (ih hb)
  | ref p name =>
    simp only [resolve, except_bind_ok, State.lookup_ok] at h
    obtain ⟨e, he, h⟩ := h
    split at h
    · next hk =>
      rw [except_pure_ok] at h
      rw [← h, (hst.of_find? he).eq_of_classDef hk]
      exact .struct _
    · exact absurd h except_throw_ok
  | unknown p kind => cases h
  | absent part => cases h

/-! ### Single nodes -/

section Nodes

variable {st : State} {K : Entity → Prop} {W : Ty → Prop} {M : Nat → Members}

theorem number_ok {text : String} {p : Pos} {e : Expr} (h : number text p = .ok e) :
    (∃ n, e = .int n) ∨ ∃ x, e = .float x := by
  unfold number at h
  split at h
  · split at h <;> cases h
    exact .inr ⟨_, rfl⟩
  · split at h
    · cases h
    · split at h
      · split at h <;> cases h
        exact .inl ⟨_, rfl⟩
      · cases h

theorem typed_number {text : String} {p : Pos} {e : Expr} (h : number text p = .ok e) :
    Typed K W M e := by
  rcases number_ok h with ⟨n, rfl⟩ | ⟨x, rfl⟩
  · exact .int n
  · exact .float x

/-- A name stands for an entity in scope or for the class that the scope lies in. -/
theorem nameValue_ok (hst : Knows st K) {name : String} {p : Pos} {e : Expr}
    (h : nameValue st name p = .ok e) : ∃ x, K x ∧ e = .ref x := by
  unfold nameValue at h
  split at h
  · next cls hcls =>
    cases h
    split at hcls
    · exact ⟨cls, (hst st.scope List.mem_cons_self).2 cls hcls, rfl⟩
    · cases hcls
  · simp only [except_bind_ok, State.lookup_ok] at h
    obtain ⟨x, hx, h⟩ := h
    split at h
    · exact absurd h except_throw_ok
    · exact ⟨x, hst.of_find? hx, (except_pure_ok.1 h).symm⟩

theorem typed_nameValue (hst : Knows st K) {name : String} {p : Pos} {e : Expr}
    (h : nameValue st name p = .ok e) : Typed K W M e := by
  obtain ⟨x, hx, rfl⟩ := nameValue_ok hst h
  exact .ref hx

theorem binaryRule_of_binaryType {op : BinaryOp} {l r : Expr} {p pl pr : Pos} {t : Ty}
    (h : binaryType op l r p pl pr = .ok t) : BinaryRule op l.typ r.typ t := by
  have hbool {e : Expr} {q : Pos} {u : Unit} (he : requireBoolean e q = .ok u) : e.typ = .bool :=
    Ty.eq_of_equiv (Check.require_ok.1 he)
  have hsame {u : Unit} (he : requireSame l r p = .ok u) : l.typ = r.typ :=
    Ty.eq_of_equiv (Check.require_ok.1 he)
  cases op with
  | and | or =>
    simp only [binaryType, except_bind_ok, except_pure_ok] at h
    obtain ⟨_, hl, _, hr, rfl⟩ := h
    rw [hbool hl, hbool hr]
    exact .logic (by simp)
  | coalesce =>
    simp only [binaryType] at h
    split at h
    · next base hbase =>
      simp only [requireAssignable, except_bind_ok, Check.require_ok, except_pure_ok] at h
      obtain ⟨_, ha, rfl⟩ := h
      rw [hbase]
      exact .coalesce ha
    · cases h
  | lt | le | gt | ge =>
    simp only [binaryType, except_bind_ok, except_pure_ok] at h
    obtain ⟨_, hn, _, hs, rfl⟩ := h
    rw [← hsame hs]
    exact .order (by simp) (Check.require_ok.1 hn)
  | eq | ne =>
    simp only [binaryType, except_bind_ok, except_pure_ok] at h
    obtain ⟨_, hs, rfl⟩ := h
    rw [← hsame hs]
    exact .equality (by simp)
  | add =>
    simp only [binaryType, except_bind_ok, except_pure_ok] at h
    obtain ⟨_, hn, _, hs, rfl⟩ := h
    rw [← hsame hs]
    exact .add (Check.require_ok.1 hn)
  | sub | mul | div | rem | pow =>
    simp only [binaryType, except_bind_ok, except_pure_ok] at h
    obtain ⟨_, hn, _, hs, rfl⟩ := h
    rw [← hsame hs]
    exact .arith (by simp) (Check.require_ok.1 hn)
  | other text => cases h

theorem unaryRule_of_requireOperand {op : UnaryOp} {e : Expr} {p po : Pos} {u : Unit}
    (h : requireOperand op e p po = .ok u) : UnaryRule op e.typ := by
  cases op with
  | neg => exact .neg (Check.require_ok.1 h)
  | not =>
    rw [Ty.eq_of_equiv (Check.require_ok.1 h)]
    exact .not
  | print => cases h
  | other text => cases h

theorem typed_member {o : Expr} {op : AccessOp} {name : String} {p po : Pos} {t : Ty}
    (ho : Typed K W st.membersOf o) (h : memberType st o op name p po = .ok t) :
    Typed K W st.membersOf (.member o op name t) := by
  unfold memberType at h
  split at h
  · next k v hd =>
    simp only [except_bind_ok, Check.require_ok, except_pure_ok] at h
    obtain ⟨_, hn, rfl⟩ := h
    rw [beq_iff_eq.1 hn]
    exact .items ho hd
  · by_cases hop : op = .ifPresent
    · subst hop
      simp only [if_pos] at h
      split at h
      · next s ht =>
        obtain ⟨_, ⟨⟩, h⟩ := except_bind_ok.1 h
        split at h
        · exact absurd h except_throw_ok
        · next t' hm =>
          obtain rfl := except_pure_ok.1 h
          exact .optionalMember ho ht hm
      · obtain ⟨_, h, -⟩ := except_bind_ok.1 h
        exact absurd h except_throw_ok
    · simp only [if_neg hop] at h
      split at h
      · next s ht =>
        obtain ⟨_, ⟨⟩, h⟩ := except_bind_ok.1 h
        split at h
        · exact absurd h except_throw_ok
        · next t' hm =>
          obtain rfl := except_pure_ok.1 h
          exact .member ho hop ht hm
      · obtain ⟨_, h, -⟩ := except_bind_ok.1 h
        exact absurd h except_throw_ok

theorem typed_array {es : List Expr} {p : Pos} {t : Ty} (he : ∀ e ∈ es, Typed K W M e)
    (h : arrayType p es = .ok t) : Typed K W M (.array es t) := by
  cases es with
  | nil =>
    cases h
    exact .array he (by simp) fun _ => rfl
  | cons d ds =>
    simp only [arrayType, except_bind_ok, Check.require_ok, except_pure_ok, List.all_eq_true] at h
    obtain ⟨_, hall, rfl⟩ := h
    refine .array he (fun e hmem => ?_) (by simp)
    rcases List.mem_cons.1 hmem with rfl | hmem
    · rfl
    · exact Ty.eq_of_equiv (hall e hmem)

theorem typed_dict {es : List (Expr × Expr)} {p : Pos} {t : Ty} (hk : ∀ e ∈ es, Typed K W M e.1)
    (hv : ∀ e ∈ es, Typed K W M e.2) (h : dictType p es = .ok t) : Typed K W M (.dict es t) := by
  cases es with
  | nil =>
    cases h
    exact .dict hk hv (by simp) fun _ => ⟨rfl, rfl⟩
  | cons d ds =>
    simp only [dictType, except_bind_ok, Check.require_ok, except_pure_ok, List.all_eq_true,
      Bool.and_eq_true] at h
    obtain ⟨_, hall, rfl⟩ := h
    refine .dict hk hv (fun e hmem => ?_) (by simp)
    rcases List.mem_cons.1 hmem with rfl | hmem
    · exact ⟨rfl, rfl⟩
    · exact ⟨Ty.eq_of_equiv (hall e hmem).1, Ty.eq_of_equiv (hall e hmem).2⟩

/-- What the callee of a call tells about it. -/
theorem calleeOf_ok {f : Expr} {n : Nat} {p : Pos} {callee : Callee}
    (h : calleeOf st f n p = .ok callee) :
    (∃ c, callee = .constructor c ∧ f = .ref c ∧ c.kind = .classDef ∧
      n = (st.membersOf c.id).fields.length) ∨
    ∃ ps r, callee = .function f r ∧ f.typ = .function ps r ∧ (n = ps.length ∨ Variadic f) := by
  unfold calleeOf at h
  split at h
  · next id name typ =>
    simp only [except_bind_ok, Check.require_ok, except_pure_ok, beq_iff_eq] at h
    obtain ⟨_, hn, rfl⟩ := h
    exact .inl ⟨_, rfl, rfl, rfl, hn⟩
  · next id name ps r =>
    rw [except_pure_ok] at h
    exact .inr ⟨ps, r, h.symm, rfl, .inr .mk⟩
  · split at h
    · next ps r ht =>
      simp only [except_bind_ok, Check.require_ok, except_pure_ok, beq_iff_eq] at h
      obtain ⟨_, hn, rfl⟩ := h
      exact .inr ⟨ps, r, rfl, ht, .inl hn⟩
    · cases h

end Nodes

/-! ### Whole expressions -/

theorem length_inferAll {st : State} {ts : List Tree.Expr} {es : List Expr}
    (h : inferAll st ts = .ok es) : es.length = ts.length := by
  induction ts generalizing es with
  | nil =>
    cases h
    rfl
  | cons t ts ih =>
    simp only [inferAll, except_bind_ok, except_pure_ok] at h
    obtain ⟨_, -, ds, hds, rfl⟩ := h
    simp [ih hds]

/-- What is called is a name or a value. -/
def Calls (st : State) (callee : Tree.Expr) (f : Expr) : Prop :=
  (∃ name x, st.find? name = some x ∧ f = .ref x) ∨ infer st callee = .ok f

theorem infer_call_none {st : State} {p : Pos} {callee : Tree.Expr} {e : Expr} :
    ¬ infer st (.call p callee none) = .ok e := by
  intro h
  simp only [infer] at h
  split at h
  · obtain ⟨_, -, h⟩ := except_bind_ok.1 h
    exact except_throw_ok h
  · obtain ⟨_, -, h⟩ := except_bind_ok.1 h
    exact except_throw_ok h

/-- What a call is made of: a plain name is looked up, any other callee is a value. -/
theorem infer_call_steps {st : State} {p : Pos} {callee : Tree.Expr} {as : List Tree.Expr} {e : Expr}
    (h : infer st (.call p callee (some as)) = .ok e) :
    ∃ f c es, ((∃ name q x, calleeName? callee = some (name, q) ∧ st.find? name = some x ∧ f = .ref x) ∨
        calleeName? callee = none ∧ infer st callee = .ok f) ∧
      calleeOf st f as.length p = .ok c ∧ inferAll st as = .ok es ∧ c.applied es = e := by
  simp only [infer] at h
  split at h
  · next name q hname =>
    obtain ⟨_, hf, h⟩ := except_bind_ok.1 h
    obtain ⟨x, hx, rfl⟩ := except_map_ok.1 hf
    obtain ⟨c, hc, h⟩ := except_bind_ok.1 h
    obtain ⟨es, hes, h⟩ := except_bind_ok.1 h
    exact ⟨_, c, es, .inl ⟨name, q, x, hname, State.lookup_ok.1 hx, rfl⟩, hc, hes, except_pure_ok.1 h⟩
  · next hname =>
    obtain ⟨f, hf, h⟩ := except_bind_ok.1 h
    obtain ⟨c, hc, h⟩ := except_bind_ok.1 h
    obtain ⟨es, hes, h⟩ := except_bind_ok.1 h
    exact ⟨f, c, es, .inr ⟨hname, hf⟩, hc, hes, except_pure_ok.1 h⟩

/-- A call that is accepted makes an object of a class or calls a function. -/
theorem infer_call_ok {st : State} {p : Pos} {callee : Tree.Expr} {as : List Tree.Expr} {e : Expr}
    (h : infer st (.call p callee (some as)) = .ok e) :
    ∃ f es, Calls st callee f ∧ inferAll st as = .ok es ∧
      ((∃ c, f = .ref c ∧ c.kind = .classDef ∧ as.length = (st.membersOf c.id).fields.length ∧
          e = .construct c es) ∨
        ∃ ps r, f.typ = .function ps r ∧ (as.length = ps.length ∨ Variadic f) ∧ e = .call f es r) := by
  obtain ⟨f, c, es, hf, hc, hes, rfl⟩ := infer_call_steps h
  have hf : Calls st callee f := by
    rcases hf with ⟨name, _, x, -, hx, rfl⟩ | ⟨-, hf⟩
    · exact .inl ⟨name, x, hx, rfl⟩
    · exact .inr hf
  rcases calleeOf_ok hc with ⟨c, rfl, rfl, hk, hn⟩ | ⟨ps, r, rfl, ht, hn⟩
  · exact ⟨_, es, hf, hes, .inl ⟨c, rfl, hk, hn, rfl⟩⟩
  · exact ⟨f, es, hf, hes, .inr ⟨ps, r, ht, hn, rfl⟩⟩

section Expressions

variable {st : State} {K : Entity → Prop} {W : Ty → Prop}

mutual

theorem typed_of_infer (hst : Knows st K)
    (hW : ∀ t ty, resolve st t = .ok ty → W ty) (t : Tree.Expr) {e : Expr}
    (h : infer st t = .ok e) : Typed K W st.membersOf e := by
  cases t with
  | num p text => exact typed_number h
  | str p value =>
    cases h
    exact .str value
  | bool p value =>
    cases h
    exact .bool value
  | var p name => exact typed_nameValue hst h
  | paren p inner => exact typed_of_infer hst hW inner h
  | binary p op left right =>
    simp only [infer, except_bind_ok, except_pure_ok] at h
    obtain ⟨l, hl, r, hr, t, ht, rfl⟩ := h
    exact .binary (typed_of_infer hst hW left hl) (typed_of_infer hst hW right hr)
      (binaryRule_of_binaryType ht)
  | unary p op operand =>
    simp only [infer, except_bind_ok, except_pure_ok] at h
    obtain ⟨o, ho, _, hr, rfl⟩ := h
    exact .unary (typed_of_infer hst hW operand ho) (unaryRule_of_requireOperand hr)
  | call p callee args =>
    cases args with
    | none => exact absurd h infer_call_none
    | some as =>
      obtain ⟨f, es, hf, has, hres⟩ := infer_call_ok h
      have hft : Typed K W st.membersOf f := by
        rcases hf with ⟨name, x, hx, rfl⟩ | hf
        · exact .ref (hst.of_find? hx)
        · exact typed_of_infer hst hW callee hf
      have ha := typed_of_inferAll hst hW as has
      rcases hres with ⟨c, rfl, hk, hn, rfl⟩ | ⟨ps, r, ht, hn, rfl⟩
      · cases hft with
        | ref hc => exact .construct hc hk (by rw [length_inferAll has, hn]) ha
      · exact .call hft ht (by rwa [length_inferAll has]) ha
  | member p object op name =>
    simp only [infer, except_bind_ok, Check.part_ok, except_pure_ok] at h
    obtain ⟨o, ho, _, rfl, _, rfl, t, ht, rfl⟩ := h
    exact typed_member (typed_of_infer hst hW object ho) ht
  | array p items =>
    simp only [infer, except_bind_ok, except_pure_ok] at h
    obtain ⟨es, hes, t, ht, rfl⟩ := h
    exact typed_array (typed_of_inferAll hst hW items hes) ht
  | tuple p items =>
    simp only [infer, except_bind_ok, except_pure_ok] at h
    obtain ⟨es, hes, rfl⟩ := h
    exact .tuple (typed_of_inferAll hst hW items hes)
  | dict p entries =>
    simp only [infer, except_bind_ok, except_pure_ok] at h
    obtain ⟨es, hes, t, ht, rfl⟩ := h
    have he := typed_of_inferEntries hst hW entries hes
    exact typed_dict (fun e hmem => (he e hmem).1) (fun e hmem => (he e hmem).2) ht
  | emptyArray p element =>
    simp only [infer, except_bind_ok, except_pure_ok] at h
    obtain ⟨t, ht, rfl⟩ := h
    exact .emptyArray (hW _ _ ht)
  | emptyOptional p base =>
    simp only [infer, except_bind_ok, except_pure_ok] at h
    obtain ⟨t, ht, rfl⟩ := h
    exact .emptyOptional (hW _ _ ht)
  | unknown p kind => cases h
  | absent part => cases h

theorem typed_of_inferAll (hst : Knows st K)
    (hW : ∀ t ty, resolve st t = .ok ty → W ty) (ts : List Tree.Expr) {es : List Expr}
    (h : inferAll st ts = .ok es) : ∀ e ∈ es, Typed K W st.membersOf e := by
  cases ts with
  | nil =>
    cases h
    simp
  | cons t ts =>
    simp only [inferAll, except_bind_ok, except_pure_ok] at h
    obtain ⟨d, hd, ds, hds, rfl⟩ := h
    intro e he
    rcases List.mem_cons.1 he with rfl | he
    · exact typed_of_infer hst hW t hd
    · exact typed_of_inferAll hst hW ts hds e he

theorem typed_of_inferEntries (hst : Knows st K)
    (hW : ∀ t ty, resolve st t = .ok ty → W ty) (ts : List Tree.Entry)
    {es : List (Expr × Expr)} (h : inferEntries st ts = .ok es) :
    ∀ e ∈ es, Typed K W st.membersOf e.1 ∧ Typed K W st.membersOf e.2 := by
  cases ts with
  | nil =>
    cases h
    simp
  | cons t ts =>
    obtain ⟨p, key, value⟩ := t
    simp only [inferEntries, except_bind_ok, except_pure_ok] at h
    obtain ⟨k, hk, v, hv, ds, hds, rfl⟩ := h
    intro e he
    rcases List.mem_cons.1 he with rfl | he
    · exact ⟨typed_of_infer hst hW key hk, typed_of_infer hst hW value hv⟩
    · exact typed_of_inferEntries hst hW ts hds e he

end

end Expressions

/-! ### What the rules say of an expression -/

theorem BinaryRule.known {op : BinaryOp} {t u v : Ty} (h : BinaryRule op t u v) (ht : t.Known) :
    v.Known := by
  cases h with
  | logic | order | equality => exact .prim _
  | coalesce =>
    cases ht with
    | optional h => exact h
  | add | arith => exact ht

namespace Typed

variable {K : Entity → Prop} {W : Ty → Prop} {M : Nat → Members} {e : Expr}

/-- The rules hold with more entities, and with members of which the old ones are a part. -/
theorem mono {K' : Entity → Prop} {M' : Nat → Members} (h : Typed K W M e) (hK : ∀ x, K x → K' x)
    (hf : ∀ x, K x → (M' x.id).fields = (M x.id).fields)
    (hm : ∀ k name t, (M k).typ? name = some t → (M' k).typ? name = some t) : Typed K' W M' e := by
  induction h with
  | int n => exact .int n
  | float x => exact .float x
  | str s => exact .str s
  | bool b => exact .bool b
  | ref h => exact .ref (hK _ h)
  | binary _ _ h ihl ihr => exact .binary ihl ihr h
  | unary _ h ih => exact .unary ih h
  | call _ ht hn _ ihf iha => exact .call ihf ht hn iha
  | construct hc hk hn _ iha => exact .construct (hK _ hc) hk (by rw [hn, hf _ hc]) iha
  | items _ ht ih => exact .items ih ht
  | member _ hop ht h ih => exact .member ih hop ht (hm _ _ _ h)
  | optionalMember _ ht h ih => exact .optionalMember ih ht (hm _ _ _ h)
  | array _ ht hnil ih => exact .array ih ht hnil
  | tuple _ ih => exact .tuple ih
  | dict _ _ ht hnil ihk ihv => exact .dict ihk ihv ht hnil
  | emptyArray h => exact .emptyArray h
  | emptyOptional h => exact .emptyOptional h

theorem known (h : Typed Proper Ty.Written M e)
    (hM : ∀ k name t, (M k).typ? name = some t → t.Known) : e.typ.Known := by
  induction h with
  | int | float | str | bool => exact .prim _
  | ref h => exact h.known
  | binary _ _ h ihl _ => exact h.known ihl
  | unary _ _ ih => exact ih
  | call _ ht _ _ ihf _ =>
    rw [ht] at ihf
    cases ihf with
    | function _ hr => exact hr
  | construct hc => exact hc.known
  | items _ ht ih =>
    rw [ht] at ih
    exact ih
  | member _ _ _ h _ => exact hM _ _ _ h
  | optionalMember _ _ h _ => exact known_optionalOf (hM _ _ _ h)
  | @array es t _ ht hnil ih =>
    cases es with
    | nil =>
      rw [hnil rfl]
      exact .array (.prim _)
    | cons d ds =>
      rw [← ht d List.mem_cons_self]
      exact .array (ih d List.mem_cons_self)
  | tuple _ ih =>
    refine .tuple fun t ht => ?_
    obtain ⟨e, he, rfl⟩ := List.mem_map.1 ht
    exact ih e he
  | @dict es k v _ _ ht hnil ihk ihv =>
    cases es with
    | nil =>
      obtain ⟨rfl, rfl⟩ := hnil rfl
      exact .dict (.prim _) (.prim _)
    | cons d ds =>
      obtain ⟨rfl, rfl⟩ := ht d List.mem_cons_self
      exact .dict (ihk d List.mem_cons_self) (ihv d List.mem_cons_self)
  | emptyArray h => exact .array h.known
  | emptyOptional h => exact .optional h.known

end Typed

end Typing

end Snack
