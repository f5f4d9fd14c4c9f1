import Snack.Proofs.Core.Direct
import Snack.Proofs.Typing.Infer
import Snack.Proofs.Typing.Nodes

/-! Classes that stand as values. A class does so for the object at hand, which only `self` names, and it is
then the class that the scope lies in. So around such a value is a method of that class, and between the two
are functions only. -/

namespace Snack.Typing

open Snack.Core

section Expressions

variable {st : State} {R : Entity → Prop}

/-- What is called as a function is no class. -/
theorem not_classDef_of_calleeOf {x : Entity} {n : Nat} {p : Pos} {f : Expr} {r : Ty}
    (h : calleeOf st (.ref x) n p = .ok (.function f r)) : x.kind ≠ .classDef := by
  rintro hk
  obtain ⟨id, kind, name, typ⟩ := x
  obtain rfl : kind = .classDef := hk
  simp only [calleeOf, except_bind_ok, except_pure_ok] at h
  obtain ⟨_, -, h⟩ := h
  cases h

mutual

/-- An entity that stands as a value in an expression is one by its name, or it is called and no class. -/
theorem refsIn_of_infer (hvalue : ∀ {name p x}, nameValue st name p = .ok (.ref x) → R x)
    (hcallee : ∀ {name x}, st.find? name = some x → x.kind ≠ .classDef → R x) (t : Tree.Expr) {e : Expr}
    (h : infer st t = .ok e) : e.RefsIn R := by
  cases t with
  | num p text =>
    rcases number_ok h with ⟨n, rfl⟩ | ⟨x, rfl⟩
    · exact refsIn_of_direct (by rintro _ ⟨⟩) (List.forall_mem_nil _)
    · exact refsIn_of_direct (by rintro _ ⟨⟩) (List.forall_mem_nil _)
  | str p value =>
    cases h
    exact refsIn_of_direct (by rintro _ ⟨⟩) (List.forall_mem_nil _)
  | bool p value =>
    cases h
    exact refsIn_of_direct (by rintro _ ⟨⟩) (List.forall_mem_nil _)
  | var p name =>
    obtain ⟨x, -, rfl⟩ := nameValue_ok (K := fun _ => True) (fun _ _ => ⟨fun _ _ => trivial, fun _ _ => trivial⟩) h
    exact refsIn_ref.2 (hvalue h)
  | paren p inner => exact refsIn_of_infer hvalue hcallee inner h
  | binary p op left right =>
    simp only [infer, except_bind_ok, except_pure_ok] at h
    obtain ⟨l, hl, r, hr, t, -, rfl⟩ := h
    exact refsIn_of_direct (by rintro _ ⟨⟩) (List.forall_mem_cons.2 ⟨refsIn_of_infer hvalue hcallee left hl,
      List.forall_mem_singleton.2 (refsIn_of_infer hvalue hcallee right hr)⟩)
  | unary p op operand =>
    simp only [infer, except_bind_ok, except_pure_ok] at h
    obtain ⟨o, ho, _, -, rfl⟩ := h
    exact refsIn_of_direct (by rintro _ ⟨⟩)
      (List.forall_mem_singleton.2 (refsIn_of_infer hvalue hcallee operand ho))
  | call p callee args =>
    cases args with
    | none => exact absurd h infer_call_none
    | some as =>
      obtain ⟨f, c, es, hf, hc, has, rfl⟩ := infer_call_steps h
      have ha := refsIn_of_inferAll hvalue hcallee as has
      rcases calleeOf_ok hc with ⟨c, rfl, rfl, -⟩ | ⟨ps, r, rfl, -⟩
      · exact refsIn_of_direct (by rintro _ ⟨⟩) ha
      · have hf : f.RefsIn R := by
          rcases hf with ⟨name, q, x, -, hx, rfl⟩ | ⟨-, hf⟩
          · exact refsIn_ref.2 (hcallee hx (not_classDef_of_calleeOf hc))
          · exact refsIn_of_infer hvalue hcallee callee hf
        exact refsIn_of_direct (by rintro _ ⟨⟩) (List.forall_mem_cons.2 ⟨hf, ha⟩)
  | member p object op name =>
    simp only [infer, except_bind_ok, except_pure_ok] at h
    obtain ⟨o, ho, _, -, _, -, _, -, rfl⟩ := h
    exact refsIn_of_direct (by rintro _ ⟨⟩)
      (List.forall_mem_singleton.2 (refsIn_of_infer hvalue hcallee object ho))
  | array p items =>
    simp only [infer, except_bind_ok, except_pure_ok] at h
    obtain ⟨es, hes, _, -, rfl⟩ := h
    exact refsIn_of_direct (by rintro _ ⟨⟩) (refsIn_of_inferAll hvalue hcallee items hes)
  | tuple p items =>
    simp only [infer, except_bind_ok, except_pure_ok] at h
    obtain ⟨es, hes, rfl⟩ := h
    exact refsIn_of_direct (by rintro _ ⟨⟩) (refsIn_of_inferAll hvalue hcallee items hes)
  | dict p entries =>
    simp only [infer, except_bind_ok, except_pure_ok] at h
    obtain ⟨es, hes, _, -, rfl⟩ := h
    obtain ⟨hk, hv⟩ := refsIn_of_inferEntries hvalue hcallee entries hes
    exact refsIn_of_direct (by rintro _ ⟨⟩)
      (List.forall_mem_append.2 ⟨List.forall_mem_map.2 hk, List.forall_mem_map.2 hv⟩)
  | emptyArray p element =>
    simp only [infer, except_bind_ok, except_pure_ok] at h
    obtain ⟨_, -, rfl⟩ := h
    exact refsIn_of_direct (by rintro _ ⟨⟩) (List.forall_mem_nil _)
  | emptyOptional p base =>
    simp only [infer, except_bind_ok, except_pure_ok] at h
    obtain ⟨_, -, rfl⟩ := h
    exact refsIn_of_direct (by rintro _ ⟨⟩) (List.forall_mem_nil _)
  | unknown p kind => cases h
  | absent part => cases h

theorem refsIn_of_inferAll (hvalue : ∀ {name p x}, nameValue st name p = .ok (.ref x) → R x)
    (hcallee : ∀ {name x}, st.find? name = some x → x.kind ≠ .classDef → R x) (ts : List Tree.Expr)
    {es : List Expr} (h : inferAll st ts = .ok es) : ∀ e ∈ es, e.RefsIn R := by
  cases ts with
  | nil =>
    cases h
    exact List.forall_mem_nil _
  | cons t ts =>
    simp only [inferAll, except_bind_ok, except_pure_ok] at h
    obtain ⟨d, hd, ds, hds, rfl⟩ := h
    exact List.forall_mem_cons.2
      ⟨refsIn_of_infer hvalue hcallee t hd, refsIn_of_inferAll hvalue hcallee ts hds⟩

theorem refsIn_of_inferEntries (hvalue : ∀ {name p x}, nameValue st name p = .ok (.ref x) → R x)
    (hcallee : ∀ {name x}, st.find? name = some x → x.kind ≠ .classDef → R x) (ts : List Tree.Entry)
    {es : List (Expr × Expr)} (h : inferEntries st ts = .ok es) :
    (∀ e ∈ es, e.1.RefsIn R) ∧ ∀ e ∈ es, e.2.RefsIn R := by
  cases ts with
  | nil =>
    cases h
    exact ⟨List.forall_mem_nil _, List.forall_mem_nil _⟩
  | cons t ts =>
    obtain ⟨p, key, value⟩ := t
    simp only [inferEntries, except_bind_ok, except_pure_ok] at h
    obtain ⟨k, hk, v, hv, ds, hds, rfl⟩ := h
    obtain ⟨hks, hvs⟩ := refsIn_of_inferEntries hvalue hcallee ts hds
    exact ⟨List.forall_mem_cons.2 ⟨refsIn_of_infer hvalue hcallee key hk, hks⟩,
      List.forall_mem_cons.2 ⟨refsIn_of_infer hvalue hcallee value hv, hvs⟩⟩

end

/-- A class among the values is the one at hand. -/
def AtHand (k : Option Entity) (x : Entity) : Prop := x.kind = .classDef → k = some x

theorem atHand_of_nameValue {name : String} {p : Pos} {x : Entity} (h : nameValue st name p = .ok (.ref x)) :
    AtHand st.scope.cls x := by
  intro hk
  unfold nameValue at h
  split at h
  · next cls hcls =>
    cases h
    split at hcls
    · exact hcls
    · cases hcls
  · simp only [except_bind_ok] at h
    obtain ⟨y, -, h⟩ := h
    split at h
    · exact absurd h except_throw_ok
    · next hy =>
      cases except_pure_ok.1 h
      exact absurd hk hy

theorem atHand_of_infer {t : Tree.Expr} {e : Expr} (h : infer st t = .ok e) : e.RefsIn (AtHand st.scope.cls) :=
  refsIn_of_infer atHand_of_nameValue (fun _ hx hk => absurd hk hx) t h

theorem atHand_of_inferAll {ts : List Tree.Expr} {es : List Expr} (h : inferAll st ts = .ok es) :
    ∀ e ∈ es, e.RefsIn (AtHand st.scope.cls) :=
  refsIn_of_inferAll atHand_of_nameValue (fun _ hx hk => absurd hk hx) ts h

/-- All expressions of a statement itself are read where it stands. -/
theorem atHand_of_accepts {t : Tree.Stmt} {s : Stmt} {st' : State} (h : Accepts (.stmt t) st (.stmt s) st') :
    ∀ e ∈ exprsOf (.stmt s), e.RefsIn (AtHand st.scope.cls) := by
  cases h with
  | varDecl _ _ hv _ =>
    rcases option_mapM_ok.1 hv with ⟨-, rfl⟩ | ⟨t, e, -, rfl, he⟩
    · exact List.forall_mem_nil _
    · exact List.forall_mem_singleton.2 (atHand_of_infer he)
  | collection _ hv => exact List.forall_mem_singleton.2 (atHand_of_infer hv)
  | ifChain ht _ _ _ => exact List.forall_mem_singleton.2 (atHand_of_infer ht)
  | ifElse ht _ _ _ _ => exact List.forall_mem_singleton.2 (atHand_of_infer ht)
  | whileLoop ht _ _ => exact List.forall_mem_singleton.2 (atHand_of_infer ht)
  | rangeLoop hl _ hh _ _ _ =>
    exact List.forall_mem_cons.2 ⟨atHand_of_infer hl, List.forall_mem_singleton.2 (atHand_of_infer hh)⟩
  | eachLoop hc _ _ _ _ => exact List.forall_mem_singleton.2 (atHand_of_infer hc)
  | ret _ _ he _ => exact List.forall_mem_singleton.2 (atHand_of_infer he)
  | print he => exact atHand_of_inferAll he
  | assign hs ht _ _ =>
    exact List.forall_mem_cons.2 ⟨atHand_of_infer ht, List.forall_mem_singleton.2 (atHand_of_infer hs)⟩
  | addAssign hs ht _ _ _ =>
    exact List.forall_mem_cons.2 ⟨atHand_of_infer ht, List.forall_mem_singleton.2 (atHand_of_infer hs)⟩
  | increment ht _ _ => exact List.forall_mem_singleton.2 (atHand_of_infer ht)
  | decrement ht _ _ => exact List.forall_mem_singleton.2 (atHand_of_infer ht)
  | call he => exact List.forall_mem_singleton.2 (atHand_of_infer he)
  | _ => exact List.forall_mem_nil _

end Expressions

/-! ### The bodies around -/

/-- The innermost method around is one of the class. -/
def Hosted (fs : List Frame) (c : Entity) : Prop :=
  ∃ inner g rest, fs = inner ++ ⟨some c, g⟩ :: rest ∧ ∀ f ∈ inner, f.cls = none

/-- The innermost method around is one of the class at hand, if one is. -/
def Hosts (fs : List Frame) (k : Option Entity) : Prop := ∀ c, k = some c → Hosted fs c

theorem surrounds_hosts : Surrounds Hosts where
  function f h c hc := by
    obtain ⟨inner, g, rest, rfl, hinner⟩ := h c hc
    exact ⟨⟨none, f⟩ :: inner, g, rest, rfl, List.forall_mem_cons.2 ⟨rfl, hinner⟩⟩
  method fs c f d hd := by
    cases hd
    exact ⟨[], f, fs, rfl, List.forall_mem_nil _⟩

/-- Around a class that stands as a value lies a method of it, and only functions lie between. -/
theorem hosted_of_analyze {tree : Tree.Program} {p : Program} {st : State} (h : analyze tree = (.ok p, st)) :
    ∀ x ∈ p.nodes, ∀ e ∈ exprsOf x.node, e.RefsIn fun c => c.kind = .classDef → Hosted x.frames c := by
  have hhosted {fs : List Frame} {st : State} {e : Expr} (hfs : Hosts fs st.scope.cls)
      (he : e.RefsIn (AtHand st.scope.cls)) : e.RefsIn fun c => c.kind = .classDef → Hosted fs c :=
    fun c hc hk => hfs c (he c hc hk)
  exact forall_nodes_of_analyze (T := fun _ => True) surrounds_hosts (by rintro _ ⟨⟩) (fun _ _ _ _ => trivial)
    (fun hfs _ hs e he => hhosted hfs (atHand_of_accepts hs e he))
    (fun hfs hc => List.forall_mem_singleton.2 (hhosted hfs (atHand_of_infer hc))) (fun _ _ => trivial) h

end Snack.Typing
