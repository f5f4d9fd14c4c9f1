import Snack.Proofs.Compile.Indented
import Snack.Proofs.Script.Slots
import Snack.Proofs.Simplify.Nodes
import Snack.Proofs.Simplify.Types
import Snack.Proofs.Typing.Nodes

/-! What a program assigns to. The analysis refuses names with a fixed value, but it looks at no members: each
target is a variable, a parameter or a field, or else a member behind `?.`, the pairs of a dictionary, or a
method. -/

namespace Snack.Typing

open Snack.Core

/-! ### Targets that are accepted -/

/-- A member, or a name without a fixed value. -/
def Settable : Expr → Prop
  | .ref e => e.kind = .var true ∨ e.kind = .parameter ∨ ∃ tag, e.kind = .other tag
  | .member .. => True
  | _ => False

/-- Names stay names and members stay members. -/
theorem settable_of_infer {st : State} {place : Tree.Expr} {t : Expr} {p : Pos} (hplace : place.isPlace = true)
    (h : infer st place = .ok t) (hp : Check.requirePlace t p = .ok ()) : Settable t := by
  cases place with
  | var q name =>
    obtain ⟨x, -, rfl⟩ := nameValue_ok (K := fun _ => True) (fun _ _ => ⟨fun _ _ => trivial, fun _ _ => trivial⟩) h
    obtain ⟨id, kind, name, typ⟩ := x
    cases kind with
    | var mutable =>
      cases mutable with
      | true => exact .inl rfl
      | false => cases hp
    | parameter => exact .inr (.inl rfl)
    | other tag => exact .inr (.inr ⟨tag, rfl⟩)
    | _ => cases hp
  | member q o op name =>
    simp only [infer, except_bind_ok, except_pure_ok] at h
    obtain ⟨_, -, _, -, _, -, _, -, rfl⟩ := h
    trivial
  | _ => cases hplace

theorem settable_of_accepts {t : Tree.Stmt} {st st' : State} {s : Stmt} (ht : t.AssignsPlaces)
    (h : Accepts (.stmt t) st (.stmt s) st') : ∀ e, targetOf (.stmt s) = some e → Settable e := by
  intro e he
  cases h with
  | assign _ hplace hp _ =>
    cases he
    exact settable_of_infer (ht _ List.mem_cons_self) hplace hp
  | addAssign _ hplace hp _ _ =>
    cases he
    exact settable_of_infer (ht _ List.mem_cons_self) hplace hp
  | increment hplace hp _ =>
    cases he
    exact settable_of_infer (ht _ List.mem_cons_self) hplace hp
  | decrement hplace hp _ =>
    cases he
    exact settable_of_infer (ht _ List.mem_cons_self) hplace hp
  | _ => cases he

end Snack.Typing

namespace Snack.Tree

theorem Stmt.AssignsPlaces.inside {t : Stmt} (h : t.AssignsPlaces) : ∀ u ∈ t.inside, u.AssignsPlaces := by
  cases t with
  | function | classDecl | whileLoop | rangeLoop | eachLoop => exact forall_targetsOfBlock.1 h
  | ifChain p test body elseIfs elsePart =>
    cases elsePart with
    | none =>
      obtain ⟨hbody, hclauses⟩ := List.forall_mem_append.1 h
      exact List.forall_mem_append.2 ⟨forall_targetsOfBlock.1 hbody, forall_targetsOfClauses.1 hclauses⟩
    | some rest =>
      obtain ⟨hbody, hbehind⟩ := List.forall_mem_append.1 h
      obtain ⟨hclauses, hrest⟩ := List.forall_mem_append.1 hbehind
      exact List.forall_mem_append.2 ⟨forall_targetsOfBlock.1 hbody, List.forall_mem_append.2
        ⟨forall_targetsOfClauses.1 hclauses, forall_targetsOfBlock.1 hrest⟩⟩
  | _ => exact List.forall_mem_nil _

end Snack.Tree

namespace Snack.Compile

open Snack.Core Snack.Typing

/-- What obeys the rules of types and is a name or a member is a slot or no slot. -/
theorem slot_or_noSlot {M : Nat → Members} {e : Expr} (ht : Typed Proper Ty.Written M e) (hs : Spelled e)
    (he : Settable e) : Slot M e ∨ NoSlot M e := by
  cases ht with
  | ref hx =>
    cases hx with
    | var =>
      rcases he with he | he | ⟨tag, he⟩ <;> cases he
      exact .inl .var
    | parameter => exact .inl .parameter
    | function | classDef => rcases he with he | he | ⟨tag, he⟩ <;> cases he
    | standard hx =>
      have hlib := isLibrary_standard hx
      rcases he with he | he | ⟨tag, he⟩ <;> rw [he] at hlib <;> cases hlib
  | items _ ho => exact .inr (.items ho)
  | @member o op s name t _ hop ho hm =>
    cases hs with
    | member hops =>
      obtain rfl : op = .direct := by simpa [hop] using hops
      cases hf : (M s.id).field? name with
      | some f => exact .inl (.field ho hf)
      | none =>
        rw [Members.typ?, hf] at hm
        exact .inr (.method ho hf hm)
  | optionalMember _ ho hm => exact .inr (.optional ho hm)
  | _ => cases he

theorem assignsPlaces_of_read {source : String} {tree : Tree.Program} (h : read source = .ok tree) :
    ∀ s ∈ tree, s.AssignsPlaces := by
  obtain ⟨tokens, hscan, hrun⟩ := read_ok.1 h
  obtain ⟨-, -, -, -, -, hsound⟩ := Parser.read_of_run hscan hrun
  exact fun s hs => (hsound s hs).places

/-- The targets of an accepted program obey the rules of types and are names and members. -/
theorem targets_of_analyze {source : String} {tree : Tree.Program} {p : Program} {st : State}
    (hread : read source = .ok tree) (h : Typing.analyze tree = (.ok p, st)) {t : Expr} (ht : t ∈ p.targets) :
    Typed Proper Ty.Written st.membersOf t ∧ (Slot st.membersOf t ∨ NoSlot st.membersOf t) := by
  obtain ⟨x, hx, hxt⟩ := List.mem_filterMap.1 ht
  have hspelled : p.Spelled := (written_of_analyze hread (congrArg Prod.fst h) ⟨false, .byEntity⟩).2
  obtain ⟨r, hnode⟩ := wellTyped_of_analyze h x hx
  have hword : SpelledNode x.node := forall_nodes_built hspelled x hx
  have hsettable : ∀ e, targetOf x.node = some e → Settable e :=
    forall_nodes_of_analyze (C := fun _ _ => True) (Q := fun x => ∀ e, targetOf x.node = some e → Settable e)
      ⟨fun _ _ => trivial, fun _ _ _ => trivial⟩ trivial (fun _ => Tree.Stmt.AssignsPlaces.inside)
      (fun _ ht h => settable_of_accepts ht h) (fun _ _ _ h => by cases h) (assignsPlaces_of_read hread) h x hx
  have htyped := wellTyped_target hnode hxt
  exact ⟨htyped, slot_or_noSlot htyped (hword.target hxt) (hsettable t hxt)⟩

/-- Each target of an accepted program, simplified or not, comes from one of the program as analysed. -/
theorem targets_stem {p q : Program} (hq : q ∈ [p, Simplify.program p]) {t : Expr} (ht : t ∈ q.targets) :
    ∃ f, KeepsSlots f ∧ ∃ u ∈ p.targets, t = f u := by
  simp only [List.mem_cons, List.not_mem_nil, or_false] at hq
  rcases hq with rfl | rfl
  · exact ⟨id, keepsSlots_id, t, ht, rfl⟩
  · obtain ⟨y, hy, hyt⟩ := List.mem_filterMap.1 ht
    obtain ⟨x, hx, hstems⟩ := Simplify.stemNodes_program p y hy
    rw [hstems.target] at hyt
    obtain ⟨u, hu, rfl⟩ := Option.map_eq_some_iff.1 hyt
    exact ⟨_, Simplify.keepsSlots_expr, u, List.mem_filterMap.2 ⟨x, hx, hu⟩, rfl⟩

/-- An accepted program, simplified or not, assigns to variables, parameters and fields, and the text of these
can stand before an assignment. All else that it assigns to is a member behind `?.`, the pairs of a dictionary
or a method. -/
theorem targets_are_slots_but_for_members {source : String} {tree : Tree.Program} {p : Program} {st : State}
    (hread : read source = .ok tree) (h : Typing.analyze tree = (.ok p, st)) {q : Program}
    (hq : q ∈ [p, Simplify.program p]) {t : Expr} (ht : t ∈ q.targets) :
    (Slot st.membersOf t ↔ ¬NoSlot st.membersOf t) ∧ (Slot st.membersOf t → Script.isTarget t = true) := by
  obtain ⟨f, hf, u, hu, rfl⟩ := targets_stem hq ht
  obtain ⟨htyped, hslot⟩ := targets_of_analyze hread h hu
  rcases hslot with hslot | hno
  · have hkept := hf.slot htyped hslot
    exact ⟨iff_of_true hkept hkept.not_noSlot, fun _ => Script.isTarget_of_slot hf htyped hslot⟩
  · have hnone := fun hs : Slot st.membersOf (f u) => hs.not_noSlot (hf.noSlot htyped hno)
    exact ⟨iff_of_false hnone (not_not_intro (hf.noSlot htyped hno)), fun hs => absurd hs hnone⟩

/-! ### A field and the pairs of a dictionary -/

def setterSource : String := "🫙 P: 🍳 x ;\n🥘 f(P p): p.x = 🥗 ;"

def setterTokens : List Token :=
  [⟨.keyword, "🫙", ⟨1, 1⟩⟩, ⟨.ident, "P", ⟨1, 3⟩⟩, ⟨.op, ":", ⟨1, 4⟩⟩, ⟨.keyword, "🍳", ⟨1, 6⟩⟩,
    ⟨.ident, "x", ⟨1, 8⟩⟩, ⟨.op, ";", ⟨1, 10⟩⟩, ⟨.keyword, "🥘", ⟨2, 1⟩⟩, ⟨.ident, "f", ⟨2, 3⟩⟩,
    ⟨.op, "(", ⟨2, 4⟩⟩, ⟨.ident, "P", ⟨2, 5⟩⟩, ⟨.ident, "p", ⟨2, 7⟩⟩, ⟨.op, ")", ⟨2, 8⟩⟩, ⟨.op, ":", ⟨2, 9⟩⟩,
    ⟨.ident, "p", ⟨2, 11⟩⟩, ⟨.op, ".", ⟨2, 12⟩⟩, ⟨.ident, "x", ⟨2, 13⟩⟩, ⟨.op, "=", ⟨2, 15⟩⟩,
    ⟨.keyword, "🥗", ⟨2, 17⟩⟩, ⟨.op, ";", ⟨2, 19⟩⟩, .endAt ⟨2, 20⟩]

def setterTree : Tree.Program :=
  [.classDecl ⟨1, 1⟩ "P" [.varDecl ⟨1, 6⟩ none "x" none],
    .function ⟨2, 1⟩ "f" (some [⟨⟨2, 5⟩, some (.ref ⟨2, 5⟩ "P"), some "p"⟩]) none
      [.assign ⟨2, 11⟩ (.member ⟨2, 11⟩ (.var ⟨2, 11⟩ "p") (some .direct) (some "x")) (.bool ⟨2, 17⟩ true)]]

def setterTarget : Expr :=
  .member (.ref ⟨16, .parameter, "p", .struct ⟨14, "P"⟩⟩) .direct "x" .any

def setterProgram : Program :=
  ⟨[.classDecl ⟨14, .classDef, "P", .struct ⟨14, "P"⟩⟩ [⟨"x", .any⟩] [] ⟨1, 1⟩,
    .function (.mk ⟨15, .function false, "f", .function [.struct ⟨14, "P"⟩] .void⟩
      [⟨16, .parameter, "p", .struct ⟨14, "P"⟩⟩] [.assign setterTarget (.bool true) ⟨2, 11⟩] ⟨2, 1⟩) ⟨2, 1⟩]⟩

/-- A field of a parameter is a slot. -/
theorem targets_are_slots_but_for_members_field :
    let st := (Typing.analyze setterTree).2
    setterTarget ∈ (Simplify.program setterProgram).targets ∧
      (Slot st.membersOf setterTarget ↔ ¬NoSlot st.membersOf setterTarget) ∧
      (Slot st.membersOf setterTarget → Script.isTarget setterTarget = true) := by
  have hscan : Token.scan setterSource = .ok setterTokens := rfl
  have hrun : Parser.run setterTokens = .ok setterTree := by cbv
  have htarget : setterTarget ∈ (Simplify.program setterProgram).targets := List.mem_cons_self
  exact ⟨htarget, targets_are_slots_but_for_members (read_ok.2 ⟨_, hscan, hrun⟩) (p := setterProgram) rfl
    (List.mem_cons_of_mem _ (List.mem_singleton_self _)) htarget⟩

def pairsSource : String := "🥡 d = \x7b\"a\": 🥗\x7d\nd.items = d"

def pairsTokens : List Token :=
  [⟨.keyword, "🥡", ⟨1, 1⟩⟩, ⟨.ident, "d", ⟨1, 3⟩⟩, ⟨.op, "=", ⟨1, 5⟩⟩, ⟨.op, "\x7b", ⟨1, 7⟩⟩,
    ⟨.string, "a", ⟨1, 8⟩⟩, ⟨.op, ":", ⟨1, 11⟩⟩, ⟨.keyword, "🥗", ⟨1, 13⟩⟩, ⟨.op, "\x7d", ⟨1, 14⟩⟩,
    ⟨.ident, "d", ⟨2, 1⟩⟩, ⟨.op, ".", ⟨2, 2⟩⟩, ⟨.ident, "items", ⟨2, 3⟩⟩, ⟨.op, "=", ⟨2, 9⟩⟩,
    ⟨.ident, "d", ⟨2, 11⟩⟩, .endAt ⟨2, 12⟩]

def pairsTree : Tree.Program :=
  [.collection ⟨1, 1⟩ "d" (.dict ⟨1, 7⟩ [.mk ⟨1, 8⟩ (.str ⟨1, 8⟩ "a") (.bool ⟨1, 13⟩ true)]),
    .assign ⟨2, 1⟩ (.member ⟨2, 1⟩ (.var ⟨2, 1⟩ "d") (some .direct) (some "items")) (.var ⟨2, 11⟩ "d")]

def pairsEntity : Entity := ⟨14, .var true, "d", .dict .string .bool⟩

def pairsTarget : Expr := .member (.ref pairsEntity) .direct "items" (.dict .string .bool)

def pairsProgram : Program :=
  ⟨[.declare pairsEntity (some (.dict [(.str "a", .bool true)] (.dict .string .bool))) ⟨1, 1⟩,
    .assign pairsTarget (.ref pairsEntity) ⟨2, 1⟩]⟩

/-- The pairs of a dictionary are assigned to, and the script assigns to a call. -/
theorem pairs_assigned_to :
    read pairsSource = .ok pairsTree ∧ (Typing.analyze pairsTree).1 = .ok pairsProgram ∧
      pairsTarget ∈ pairsProgram.targets ∧ NoSlot (Typing.analyze pairsTree).2.membersOf pairsTarget ∧
      Script.isTarget pairsTarget = false ∧
      Script.generate .byEntity pairsProgram =
        .ok "let d_1 = \x7b\"a\": true\x7d;\nObject.entries(d_1) = d_1;" := by
  have hscan : Token.scan pairsSource = .ok pairsTokens := rfl
  have hrun : Parser.run pairsTokens = .ok pairsTree := by cbv
  exact ⟨read_ok.2 ⟨_, hscan, hrun⟩, rfl, List.mem_cons_self, .items rfl, rfl, rfl⟩

end Snack.Compile
