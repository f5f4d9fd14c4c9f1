import Snack.Proofs.Typing.Accepts

/-! The members of a class. A field is added only if no field has its name, and a method only if no method has,
so the names of either stay distinct however the classes of a program lie in each other. At every moment the
table of methods that the type of a class has lists what the class itself lists. -/

namespace Snack.Typing

open Snack.Core

theorem nodup_snoc {names : List String} {name : String} (h : names.Nodup) (hn : name ∉ names) :
    (names ++ [name]).Nodup := by
  refine List.nodup_append.2 ⟨h, List.pairwise_singleton _ _, ?_⟩
  rintro a ha b hb rfl
  exact hn (List.mem_singleton.1 hb ▸ ha)

theorem Members.notMem_of_field? {m : Members} {name : String} (h : m.field? name = none) :
    name ∉ m.fields.map (·.name) := by
  intro hmem
  obtain ⟨f, hf, rfl⟩ := List.mem_map.1 hmem
  have hne := List.find?_eq_none.1 h f hf
  simp at hne

/-- A class and its type list the same methods, in one order. -/
def Members.Tabled (m : Members) : Prop := m.table = m.methods.map fun e => (e.name, e.typ)

theorem Members.Tabled.notMem {m : Members} {name : String} (hm : m.Tabled) (h : m.method? name = none) :
    name ∉ m.methods.map (·.name) := by
  rw [method?, hm, Table.lookup_eq_none, List.map_map] at h
  exact h

/-- A method that is new in the table is put behind those that stand there. -/
theorem Members.Tabled.put {m : Members} {e : Entity} (hm : m.Tabled) (h : m.method? e.name = none) :
    Tabled { m with table := Table.put m.table (e.name, e.typ), methods := m.methods ++ [e] } := by
  show Table.put m.table (e.name, e.typ) = (m.methods ++ [e]).map fun e => (e.name, e.typ)
  have hnew : m.table.lookup (e.name, e.typ).1 = none := h
  rw [Table.put_new hnew, hm, List.map_append, List.map_singleton]

/-- In each class no two fields have one name, and no two methods, and its methods are those of its type. -/
structure DistinctMembers (st : State) : Prop where
  fields : ∀ k, ((st.membersOf k).fields.map (·.name)).Nodup
  methods : ∀ k, ((st.membersOf k).methods.map (·.name)).Nodup
  tabled : ∀ k, (st.membersOf k).Tabled

namespace DistinctMembers

variable {st st' : State}

theorem of_members (h : DistinctMembers st) (hm : st'.members = st.members) : DistinctMembers st' where
  fields k := by
    rw [State.membersOf_congr hm]
    exact h.fields k
  methods k := by
    rw [State.membersOf_congr hm]
    exact h.methods k
  tabled k := by
    rw [State.membersOf_congr hm]
    exact h.tabled k

theorem addField {id : Nat} {f : Field} (h : DistinctMembers st) (hf : (st.membersOf id).field? f.name = none) :
    DistinctMembers (st.addField id f) where
  fields k := by
    rw [State.membersOf_addField]
    split
    · rw [List.map_append]
      exact nodup_snoc (h.fields id) (Members.notMem_of_field? hf)
    · exact h.fields k
  methods k := by
    rw [State.membersOf_addField]
    split
    · exact h.methods id
    · exact h.methods k
  tabled k := by
    rw [State.membersOf_addField]
    split
    · exact h.tabled id
    · exact h.tabled k

theorem addMethod {id : Nat} {e : Entity} (h : DistinctMembers st)
    (he : (st.membersOf id).method? e.name = none) : DistinctMembers (st.addMethod id e) where
  fields k := by
    rw [State.membersOf_addMethod]
    split
    · exact h.fields id
    · exact h.fields k
  methods k := by
    rw [State.membersOf_addMethod]
    split
    · rw [List.map_append]
      exact nodup_snoc (h.methods id) ((h.tabled id).notMem he)
    · exact h.methods k
  tabled k := by
    rw [State.membersOf_addMethod]
    split
    · exact (h.tabled id).put he
    · exact h.tabled k

theorem initial : DistinctMembers .initial where
  fields _ := List.nodup_nil
  methods _ := List.nodup_nil
  tabled _ := rfl

theorem of_fields {id : Nat} {ts : List Tree.Stmt} {u : Unit} (hst : DistinctMembers st)
    (h : Check.fields id ts st = .ok u st') : DistinctMembers st' := by
  induction ts generalizing st with
  | nil =>
    obtain ⟨-, rfl⟩ := pure_ok.1 h
    exact hst
  | cons t ts ih =>
    cases t with
    | varDecl p t name init =>
      simp only [Check.fields, Check.field, bind_ok, Check.lift_ok, Check.ask_ok, Check.type?_ok, modify_ok,
        Check.require_ok] at h
      obtain ⟨_, _, ⟨_, _, ⟨-, rfl⟩, _, _, ⟨hnone, rfl⟩, r, _, ⟨-, rfl⟩, rfl⟩, h⟩ := h
      exact ih (hst.addField (Option.isNone_iff_eq_none.1 hnone)) h
    | absent part => exact absurd h throw_ok
    | _ => exact ih hst h

end DistinctMembers

/-- No run gives a class two members of one name. -/
theorem Accepts.distinctMembers {task : Task} {ans : Answer} {st st' : State} (h : Accepts task st ans st')
    (hst : DistinctMembers st) : DistinctMembers st' := by
  induction h with
  | varDecl | collection => exact hst.of_members rfl
  | function _ _ _ _ ih => exact (ih (hst.of_members (State.addAll_members _ _))).of_members rfl
  | @classDecl p name body st st₁ fs left st₂ _ hf _ ih =>
    have hempty : DistinctMembers ((st.add (classEntity st.next name)).enterClass (classEntity st.next name)) :=
      hst.of_members rfl
    exact (ih (hempty.of_fields hf)).of_members rfl
  | ifChain _ _ _ _ ihb ihc => exact ihc ((ihb (hst.of_members rfl)).of_members rfl)
  | ifElse _ _ _ _ _ ihb ihc ihe =>
    have hclauses := ihc ((ihb (hst.of_members rfl)).of_members rfl)
    exact (ihe (hclauses.of_members rfl)).of_members rfl
  | whileLoop _ _ _ ih => exact (ih (hst.of_members rfl)).of_members rfl
  | rangeLoop _ _ _ _ _ _ ih => exact (ih (hst.of_members rfl)).of_members rfl
  | eachLoop _ _ _ _ _ ih => exact (ih (hst.of_members (State.addAll_members _ _))).of_members rfl
  | cons _ _ ihs ihss => exact ihss (ihs hst)
  | clause _ _ _ _ ihb ihc => exact ihc ((ihb (hst.of_members rfl)).of_members rfl)
  | field _ ih => exact ih hst
  | @method cls p name ps returns body rest st r qs ss fs left st₀ st₁ st₂ _ hn _ _ _ ihb ihm =>
    have hbefore : DistinctMembers ((st.skip.enterFunction name (r.getD .void)).addAll qs) :=
      hst.of_members (State.addAll_members _ _)
    refine ihm ((ihb (hbefore.addMethod ?_)).of_members rfl)
    rw [State.membersOf_congr (State.addAll_members _ _)]
    exact (Members.has_eq_false.1 hn).2
  | leftOut _ _ _ ihs ihm => exact ihm ((ihs hst).of_members rfl)
  | _ => exact hst

end Snack.Typing
