import Snack.Proofs.Compile.Outcome
import Snack.Proofs.Typing.Hereditary

/-! Optionals of optionals. A written type and an optional access give an optional of an optional as the
optional itself, but an empty optional does not: behind it an optional type counts as any other. Proved: a
type in an accepted program has at most two optionals directly inside each other, and it has two only if
some empty optional of the source is written with an optional type. -/

namespace Snack

/-! ### How deep optionals go -/

namespace Ty

mutual

/-- A type and all that it is made of, at any depth. -/
def parts : Ty → List Ty
  | array t => array t :: t.parts
  | dict k v => dict k v :: (k.parts ++ v.parts)
  | tuple ts => tuple ts :: partsOfAll ts
  | optional t => optional t :: t.parts
  | function ps r => function ps r :: (partsOfAll ps ++ r.parts)
  | prim p => [prim p]
  | struct s => [struct s]
  | other n => [other n]

def partsOfAll : List Ty → List Ty
  | [] => []
  | t :: ts => t.parts ++ partsOfAll ts

end

/-- The number of optionals that stand directly inside each other at the top of a type. -/
def optionalDepth : Ty → Nat
  | optional t => t.optionalDepth + 1
  | _ => 0

/-- Nowhere in the type do more than `n` optionals stand directly inside each other. -/
def Shallow (n : Nat) (t : Ty) : Prop := ∀ u ∈ t.parts, u.optionalDepth ≤ n

section Shallow

variable {m n : Nat} {t : Ty} {ts : List Ty}

theorem mem_parts (t : Ty) : t ∈ t.parts := by
  cases t <;> simp [parts]

theorem forall_partsOfAll : (∀ u ∈ partsOfAll ts, u.optionalDepth ≤ n) ↔ ∀ t ∈ ts, t.Shallow n := by
  induction ts with
  | nil => simp [partsOfAll]
  | cons t ts ih => rw [partsOfAll, List.forall_mem_append, List.forall_mem_cons, ih, Shallow]

theorem Shallow.mono (h : t.Shallow m) (hmn : m ≤ n) : t.Shallow n := fun u hu => Nat.le_trans (h u hu) hmn

theorem shallow_optional : (optional t).Shallow n ↔ t.optionalDepth + 1 ≤ n ∧ t.Shallow n := by
  rw [Shallow, parts, List.forall_mem_cons, optionalDepth, Shallow]

theorem Shallow.ne_of_lt (h : t.Shallow n) {u v : Ty} (hu : u ∈ t.parts) (hv : n < v.optionalDepth) : u ≠ v := by
  rintro rfl
  exact Nat.not_lt.2 (h u hu) hv

end Shallow

end Ty

/-! ### Types in programs -/

namespace Typing

open Snack.Core

/-- A type that is made optional gets no deeper: an optional stays as it is. -/
theorem shallow_optionalOf {n : Nat} {t : Ty} (hn : 1 ≤ n) (h : t.Shallow n) : (optionalOf t).Shallow n := by
  cases t with
  | optional t => exact h
  | _ => exact Ty.shallow_optional.2 ⟨hn, h⟩

theorem hereditary_shallow {n : Nat} (hn : 1 ≤ n) : Hereditary (Ty.Shallow n) where
  prim p := List.forall_mem_singleton.2 (Nat.zero_le n)
  struct s := List.forall_mem_singleton.2 (Nat.zero_le n)
  array := by simp [Ty.Shallow, Ty.parts, Ty.optionalDepth]
  dict := by simp [Ty.Shallow, Ty.parts, Ty.optionalDepth, or_imp, forall_and]
  tuple h := List.forall_mem_cons.2 ⟨Nat.zero_le n, Ty.forall_partsOfAll.2 h⟩
  function := by
    intro ps r
    rw [← Ty.forall_partsOfAll]
    simp [Ty.Shallow, Ty.parts, Ty.optionalDepth, or_imp, forall_and]
  base h := (Ty.shallow_optional.1 h).2
  optionalOf := shallow_optionalOf hn

/-- A written type is an optional only if it is written as one. -/
theorem optionalDepth_of_resolve {st : State} {T : Ty → Prop} (hst : Within T st) {t : Tree.TypeExpr} {r : Ty}
    (ht : t.isOptional = false) (h : resolve st t = .ok r) : r.optionalDepth = 0 := by
  cases t with
  | named p name =>
    unfold resolve at h
    split at h <;> cases h
    rfl
  | array p base =>
    simp only [resolve, except_bind_ok, except_pure_ok] at h
    obtain ⟨_, -, rfl⟩ := h
    rfl
  | dict p key value =>
    simp only [resolve, except_bind_ok, except_pure_ok] at h
    obtain ⟨_, -, _, -, rfl⟩ := h
    rfl
  | optional p base => cases ht
  | ref p name =>
    simp only [resolve, except_bind_ok, State.lookup_ok] at h
    obtain ⟨e, he, h⟩ := h
    split at h
    · next hk =>
      obtain ⟨s, hs⟩ := (hst.scopes.of_find? he).cls hk
      rw [except_pure_ok] at h
      rw [← h, hs]
      rfl
    · exact absurd h except_throw_ok
  | unknown p kind => cases h
  | absent part => cases h

/-- The type is part of one that occurs in the program or that a member of a class has, in the class or in the table
of its type. -/
inductive Occurs (p : Program) (st : State) (u : Ty) : Prop where
  | program {t : Ty} (h : t ∈ p.types) (hu : u ∈ t.parts) : Occurs p st u
  | field {k : Nat} {f : Field} (h : f ∈ (st.membersOf k).fields) (hu : u ∈ f.typ.parts) : Occurs p st u
  | method {k : Nat} {m : Entity} (h : m ∈ (st.membersOf k).methods) (hu : u ∈ m.typ.parts) : Occurs p st u
  | table {k : Nat} {m : String × Ty} (h : m ∈ (st.membersOf k).table) (hu : u ∈ m.2.parts) : Occurs p st u

theorem Occurs.exists_shallow {p : Program} {st : State} {n : Nat} (hp : ∀ t ∈ p.types, t.Shallow n)
    (hst : Within (Ty.Shallow n) st) {u : Ty} (h : Occurs p st u) : ∃ t : Ty, t.Shallow n ∧ u ∈ t.parts := by
  cases h with
  | program h hu => exact ⟨_, hp _ h, hu⟩
  | field h hu => exact ⟨_, hst.fields _ _ h, hu⟩
  | method h hu => exact ⟨_, hst.methods _ _ h, hu⟩
  | table h hu => exact ⟨_, hst.table _ _ h, hu⟩

/-- In an accepted program no type, of whatever it may be and at whatever depth, has three optionals directly
inside each other. None has two if no empty optional is written with an optional type. -/
theorem optionals_nest_in_empty_optionals_only {tree : Tree.Program} {p : Program} {st : State}
    (h : analyze tree = (.ok p, st)) :
    (∀ u, Occurs p st u → ∀ v, u ≠ .optional (.optional (.optional v))) ∧
    ((∀ b ∈ Tree.emptyOptionalsOfBlock tree, b.isOptional = false) →
      ∀ u, Occurs p st u → ∀ v, u ≠ .optional (.optional v)) := by
  have hflat := hereditary_shallow (Nat.le_refl 1)
  constructor
  · -- behind an empty optional stands a written type, which has no optional of an optional
    have hwritten {st : State} {b : Tree.TypeExpr} {r : Ty} (hst : Within (Ty.Shallow 2) st) (_ : True)
        (hr : resolve st b = .ok r) : (Ty.optional r).Shallow 2 := by
      have hr := hflat.of_resolve hst.scopes hr
      exact Ty.shallow_optional.2 ⟨Nat.succ_le_succ (hr r r.mem_parts), hr.mono (by decide)⟩
    obtain ⟨hp, hst⟩ := (hereditary_shallow (by decide)).of_analyze hwritten (fun _ _ => trivial) h
    intro u hu v
    obtain ⟨t, ht, hmem⟩ := hu.exists_shallow hp hst
    exact ht.ne_of_lt hmem (Nat.le_add_left 3 _)
  · intro hplain
    have hwritten {st : State} {b : Tree.TypeExpr} {r : Ty} (hst : Within (Ty.Shallow 1) st)
        (hb : b.isOptional = false) (hr : resolve st b = .ok r) : (Ty.optional r).Shallow 1 :=
      Ty.shallow_optional.2
        ⟨Nat.le_of_eq (congrArg (· + 1) (optionalDepth_of_resolve hst hb hr)), hflat.of_resolve hst.scopes hr⟩
    obtain ⟨hp, hst⟩ := hflat.of_analyze hwritten hplain h
    intro u hu v
    obtain ⟨t, ht, hmem⟩ := hu.exists_shallow hp hst
    exact ht.ne_of_lt hmem (Nat.le_add_left 2 _)

/-- A program that prints an empty optional of the written type. -/
def printed (t : Tree.TypeExpr) : Tree.Program := [.print ⟨1, 1⟩ [.emptyOptional ⟨1, 3⟩ t]]

/-- Optionals in an array in an optional do not stand directly inside each other. -/
theorem optionals_nest_in_empty_optionals_only_array :
    analyze (printed (.array ⟨1, 5⟩ (.optional ⟨1, 6⟩ (.named ⟨1, 6⟩ "🥚")))) =
        (.ok ⟨[.print [.emptyOptional (.optional (.array (.optional .int)))] ⟨1, 1⟩]⟩, .initial) ∧
      ∀ u, Occurs ⟨[.print [.emptyOptional (.optional (.array (.optional .int)))] ⟨1, 1⟩]⟩ .initial u →
        ∀ v, u ≠ .optional (.optional v) :=
  have h : analyze (printed (.array ⟨1, 5⟩ (.optional ⟨1, 6⟩ (.named ⟨1, 6⟩ "🥚")))) =
      (.ok ⟨[.print [.emptyOptional (.optional (.array (.optional .int)))] ⟨1, 1⟩]⟩, .initial) := rfl
  ⟨h, (optionals_nest_in_empty_optionals_only h).2 (by decide)⟩

/-- An empty optional of an optional has an optional of an optional for its type. -/
theorem optional_of_optional_accepted :
    Compile.read "🍽 🫥 🥚?" = .ok (printed (.optional ⟨1, 5⟩ (.named ⟨1, 5⟩ "🥚"))) ∧
      (analyze (printed (.optional ⟨1, 5⟩ (.named ⟨1, 5⟩ "🥚")))).1 =
        .ok ⟨[.print [.emptyOptional (.optional (.optional .int))] ⟨1, 1⟩]⟩ := by
  have hscan : Token.scan "🍽 🫥 🥚?" = .ok [⟨.keyword, "🍽", ⟨1, 1⟩⟩, ⟨.keyword, "🫥", ⟨1, 3⟩⟩,
      ⟨.type, "🥚", ⟨1, 5⟩⟩, ⟨.op, "?", ⟨1, 6⟩⟩, .endAt ⟨1, 7⟩] := rfl
  have hrun : Parser.run [⟨.keyword, "🍽", ⟨1, 1⟩⟩, ⟨.keyword, "🫥", ⟨1, 3⟩⟩, ⟨.type, "🥚", ⟨1, 5⟩⟩,
      ⟨.op, "?", ⟨1, 6⟩⟩, .endAt ⟨1, 7⟩] = .ok (printed (.optional ⟨1, 5⟩ (.named ⟨1, 5⟩ "🥚"))) := by cbv
  refine ⟨?_, rfl⟩
  rw [Compile.read, hscan]
  dsimp only
  rw [hrun]
  rfl

end Typing

end Snack
