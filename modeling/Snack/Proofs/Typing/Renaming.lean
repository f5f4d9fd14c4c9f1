import Mathlib.Logic.Equiv.Basic
import Snack.Proofs.Core.Renamed
import Snack.Typing.Scope

/-! What is known while a program is analysed, under other names. What is found by a name is found by the
other name, and a fault stays in its class. -/

namespace Snack.Typing

open Snack.Core

/-! ### Renamings -/

/-- The names that the language gives a meaning to. -/
def fixedNames : List String := "self" :: "items" :: standardLibrary.map (·.name)

/-- An exchange of names for others that keeps different names apart and those of the language as they
are. -/
structure Renaming where
  map : String → String
  injective : Function.Injective map
  fixed : ∀ name ∈ fixedNames, map name = name

instance : CoeFun Renaming fun _ => String → String := ⟨Renaming.map⟩

namespace Renaming

variable (ρ : Renaming)

theorem beq (a b : String) : (ρ a == ρ b) = (a == b) := by
  rw [Bool.eq_iff_iff, beq_iff_eq, beq_iff_eq]
  exact ρ.injective.eq_iff

theorem beq_fixed (a : String) {b : String} (hb : b ∈ fixedNames) : (ρ a == b) = (a == b) := by
  have h := ρ.beq a b
  rwa [ρ.fixed b hb] at h

/-- Two names in each other's place. -/
def exchange (a b : String) (ha : a ∉ fixedNames) (hb : b ∉ fixedNames) : Renaming where
  map := Equiv.swap a b
  injective := (Equiv.swap a b).injective
  fixed _ h := Equiv.swap_apply_of_ne_of_ne (ne_of_mem_of_not_mem h ha) (ne_of_mem_of_not_mem h hb)

end Renaming

/-! ### What is known -/

def Callable.rename (ρ : String → String) (f : Callable) : Callable := ⟨ρ f.name, f.result.rename ρ⟩

def Scope.rename (ρ : String → String) (s : Scope) : Scope :=
  ⟨s.locals.map fun x => (ρ x.1, x.2.rename ρ), s.inLoop, s.function.map (·.rename ρ), s.cls.map (·.rename ρ)⟩

def Members.rename (ρ : String → String) (m : Members) : Members :=
  ⟨m.fields.map (·.rename ρ), m.table.map fun x => (ρ x.1, x.2.rename ρ), m.methods.map (·.rename ρ)⟩

def State.rename (ρ : String → String) (st : State) : State where
  scope := st.scope.rename ρ
  outer := st.outer.map (·.rename ρ)
  members := st.members.map fun x => (x.1, x.2.rename ρ)
  next := st.next
  dropped := st.dropped.map fun x => (x.1, ρ x.2)

/-- Looking up a key among others that are told apart in the same way. -/
theorem lookup_map {κ κ' α β : Type} [BEq κ] [BEq κ'] {f : κ → κ'} (hf : ∀ a b, (f a == f b) = (a == b))
    (g : α → β) (k : κ) (xs : List (κ × α)) :
    (xs.map fun x => (f x.1, g x.2)).lookup (f k) = (xs.lookup k).map g := by
  induction xs with
  | nil => rfl
  | cons x xs ih =>
    rw [List.map_cons, List.lookup_cons, List.lookup_cons, hf]
    cases k == x.1 with
    | true => rfl
    | false => exact ih

section Known

variable (ρ : Renaming) (st : State)

theorem locals_rename (s : Scope) (name : String) :
    (s.rename ρ).locals.lookup (ρ name) = (s.locals.lookup name).map (·.rename ρ) :=
  lookup_map ρ.beq _ name s.locals

theorem find?_rename (name : String) : (st.rename ρ).find? (ρ name) = (st.find? name).map (·.rename ρ) := by
  show ((st.scope :: st.outer).map (Scope.rename ρ)).findSome? _ = _
  rw [List.findSome?_map, State.find?, List.map_findSome?]
  congr 1
  funext s
  exact locals_rename ρ s name

theorem isLocal_rename (name : String) : (st.rename ρ).isLocal (ρ name) = st.isLocal name := by
  show ((st.scope.rename ρ).locals.lookup (ρ name)).isSome = _
  rw [locals_rename, Option.isSome_map]
  rfl

theorem membersOf_rename (id : Nat) : (st.rename ρ).membersOf id = (st.membersOf id).rename ρ := by
  have hlookup := lookup_map (fun _ _ => rfl) (Members.rename ρ) id st.members
  show ((st.rename ρ).members.lookup id).getD ⟨[], [], []⟩ = ((st.members.lookup id).getD ⟨[], [], []⟩).rename ρ
  rw [show (st.rename ρ).members.lookup id = _ from hlookup]
  cases st.members.lookup id <;> rfl

theorem field?_rename (m : Members) (name : String) :
    (m.rename ρ).field? (ρ name) = (m.field? name).map (·.rename ρ) := by
  rw [Members.field?, Members.rename, List.find?_map]
  congr 2
  funext f
  exact ρ.beq f.name name

theorem method?_rename (m : Members) (name : String) :
    (m.rename ρ).method? (ρ name) = (m.method? name).map (·.rename ρ) :=
  lookup_map ρ.beq _ name m.table

theorem has_rename (m : Members) (name : String) : (m.rename ρ).has (ρ name) = m.has name := by
  rw [Members.has, field?_rename, method?_rename, Option.isSome_map, Option.isSome_map]
  rfl

theorem typ?_rename (m : Members) (name : String) :
    (m.rename ρ).typ? (ρ name) = (m.typ? name).map (·.rename ρ) := by
  rw [Members.typ?, Members.typ?, field?_rename, method?_rename]
  cases m.field? name with
  | some f => rfl
  | none => cases m.method? name <;> rfl

/-! ### Changes of what is known -/

theorem bind_rename (name : String) (e : Entity) :
    (st.rename ρ).bind (ρ name) (e.rename ρ) = (st.bind name e).rename ρ := rfl

theorem settle_rename (name : String) (e : Entity) :
    (st.rename ρ).settle (ρ name) (e.rename ρ) = (st.settle name e).rename ρ := by
  obtain ⟨scope, outer, members, next, dropped⟩ := st
  cases outer with
  | nil => rfl
  | cons s rest =>
    have hlocals : (s.rename ρ).locals.map (fun x => if x.1 == ρ name then (x.1, e.rename ρ) else x) =
        (s.locals.map fun x => if x.1 == name then (x.1, e) else x).map fun x => (ρ x.1, x.2.rename ρ) := by
      rw [Scope.rename, List.map_map, List.map_map]
      congr 1
      funext x
      simp only [Function.comp_apply, ρ.beq]
      split <;> rfl
    exact congrArg (fun locals => State.mk (scope.rename ρ) (⟨locals, _, _, _⟩ :: _) _ _ _) hlocals

theorem enter_rename (inLoop : Option Bool) (function : Option Callable) (cls : Option Entity) :
    (st.rename ρ).enter inLoop (function.map (·.rename ρ)) (cls.map (·.rename ρ)) =
      (st.enter inLoop function cls).rename ρ := by
  cases function <;> cases cls <;> rfl

theorem exit?_rename : (st.rename ρ).exit? = st.exit?.map (·.rename ρ) := by
  obtain ⟨scope, outer, members, next, dropped⟩ := st
  cases outer <;> rfl

theorem setMembers_rename (id : Nat) (m : Members) :
    (st.rename ρ).setMembers id (m.rename ρ) = (st.setMembers id m).rename ρ := by
  have hothers : (st.rename ρ).members.filter (fun x => x.1 != id) =
      (st.members.filter fun x => x.1 != id).map fun x => (x.1, x.2.rename ρ) := List.filter_map
  exact congrArg (fun ms => State.mk _ _ ((id, m.rename ρ) :: ms) _ _) hothers

theorem addField_rename (id : Nat) (f : Field) :
    (st.rename ρ).addField id (f.rename ρ) = (st.addField id f).rename ρ := by
  rw [State.addField, State.addField, ← setMembers_rename, membersOf_rename]
  simp [Members.rename]

theorem put_rename (table : List (String × Ty)) (e : String × Ty) :
    Table.put (table.map fun x => (ρ x.1, x.2.rename ρ)) (ρ e.1, e.2.rename ρ) =
      (Table.put table e).map fun x => (ρ x.1, x.2.rename ρ) := by
  have hany : (table.map fun x => (ρ x.1, x.2.rename ρ)).any (·.1 == ρ e.1) = table.any (·.1 == e.1) := by
    rw [List.any_map]
    congr 1
    funext x
    exact ρ.beq x.1 e.1
  unfold Table.put
  rw [hany]
  split
  · rw [List.map_map, List.map_map]
    congr 1
    funext x
    simp only [Function.comp_apply, ρ.beq]
    split <;> rfl
  · rw [List.map_append, List.map_singleton]

theorem addMethod_rename (id : Nat) (e : Entity) :
    (st.rename ρ).addMethod id (e.rename ρ) = (st.addMethod id e).rename ρ := by
  rw [State.addMethod, State.addMethod, ← setMembers_rename, membersOf_rename]
  simp only [Members.rename, List.map_append, List.map_singleton]
  congr 2
  exact put_rename ρ _ (e.name, e.typ)

/-- The names of the standard library stay. -/
theorem initial_rename : State.initial.rename ρ = .initial := by
  have htypes : ∀ e ∈ standardLibrary, e.typ.rename ρ = e.typ := by
    simp [standardLibrary, Ty.rename, Ty.renameAll]
  have hlocals : (standardLibrary.map fun e => (e.name, e)).map (fun x => (ρ x.1, x.2.rename ρ)) =
      standardLibrary.map fun e => (e.name, e) := by
    rw [List.map_map]
    refine List.map_congr_left fun e he => ?_
    have hname : ρ e.name = e.name :=
      ρ.fixed _ (List.mem_cons_of_mem _ (List.mem_cons_of_mem _ (List.mem_map_of_mem he)))
    simp only [Function.comp_apply, Entity.rename, hname, htypes e he]
  exact congrArg (fun locals => State.mk ⟨locals, _, _, _⟩ _ _ _ _) hlocals

end Known

/-! ### Faults -/

def Cause.rename (ρ : String → String) : Cause → Cause
  | .alreadyDeclared name => .alreadyDeclared (ρ name)
  | .notDeclared name => .notDeclared (ρ name)
  | .notBoolean t => .notBoolean (t.rename ρ)
  | .notIterable t => .notIterable (t.rename ρ)
  | .classAsValue name => .classAsValue (ρ name)
  | .differentTypes a b => .differentTypes (a.rename ρ) (b.rename ρ)
  | .notAssignable source target => .notAssignable (source.rename ρ) (target.rename ρ)
  | .fixedTarget name => .fixedTarget (ρ name)
  | .iteratorTarget name => .iteratorTarget (ρ name)
  | cause => cause

/-- A fault stays in its class, whatever the names in it are. -/
theorem Cause.category_rename (ρ : String → String) (c : Cause) : (c.rename ρ).category = c.category := by
  cases c with
  | notAssignable source target =>
    cases source with
    | function ps r =>
      cases target with
      | function qs s => simp only [rename, Ty.rename, category, Ty.length_renameAll]
      | _ => rfl
    | _ => rfl
  | _ => rfl

def Error.rename (ρ : String → String) (e : Error) : Error := ⟨e.cause.rename ρ, e.pos⟩

end Snack.Typing
