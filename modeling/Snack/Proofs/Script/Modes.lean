import Mathlib.Data.List.Basic
import Snack.Proofs.Script.Identifiers

/-! Two ways to tell names apart. Where every two entities that get identifiers have different names, the
table of identifiers by name is the one by entity with other keys, row for row, and the scripts are the
same. This holds for a program that cannot be written out as well, up to the place where it fails. -/

namespace Snack.Script

open Snack.Core

/-! ### Tables with other keys -/

/-- The row of an entity, to be found by its name. -/
def Binding.byName (b : Binding) : Binding := ⟨.name b.name, b.name, b.text⟩

def State.byName (st : State) : State := ⟨st.names.map Binding.byName, st.lines⟩

/-- What is left behind by a writer, whether it comes to an end or fails. -/
def endOf {α : Type} : EStateM.Result Error State α → State
  | .ok _ st => st
  | .error _ st => st

/-- The same end with rows that are found by their names. -/
def endByName {α : Type} : EStateM.Result Error State α → EStateM.Result Error State α
  | .ok a st => .ok a st.byName
  | .error e st => .error e st.byName

/-- A row for the entity, if there is one, has its name. -/
def Suits (table : List Binding) (e : Entity) : Prop := ∀ b ∈ table, b.key = .entity e.id → b.name = e.name

section Tables

variable {table names : List Binding} {e : Entity}

/-- Where no name comes twice a row is the only one of its name. -/
theorem find?_byName {b : Binding} (hdistinct : (names.map (·.name)).Nodup) (hb : b ∈ names) :
    ((names.map Binding.byName).find? fun c => c.key = .name b.name) = some b.byName := by
  induction names with
  | nil => cases hb
  | cons c names ih =>
    rw [List.map_cons, List.nodup_cons] at hdistinct
    rw [List.map_cons]
    rcases List.mem_cons.1 hb with rfl | hb
    · exact List.find?_cons_of_pos (by simp [Binding.byName])
    · have hne : c.name ≠ b.name := by
        intro hname
        exact hdistinct.1 (hname ▸ List.mem_map_of_mem hb)
      rw [List.find?_cons_of_neg (by simp [Binding.byName, hne])]
      exact ih hdistinct.2 hb

/-- An entity gets the same text from both tables. -/
theorem mangle_byName (hdistinct : (table.map (·.name)).Nodup) (he : Suits table e)
    (hrows : (mangle names (.entity e.id) e.name).2 <+: table) :
    mangle (names.map Binding.byName) (.name e.name) e.name =
      ((mangle names (.entity e.id) e.name).1, (mangle names (.entity e.id) e.name).2.map Binding.byName) := by
  have hrest : ((mangle names (.entity e.id) e.name).2.map (·.name)).Nodup :=
    hdistinct.sublist (hrows.sublist.map _)
  rcases mangle_cases names (.entity e.id) e.name with ⟨b, hb, hkey, hm⟩ | ⟨-, text, htext, hm⟩
  · rw [hm] at hrows hrest ⊢
    have hname : b.name = e.name := he b (hrows.subset hb) hkey
    rw [mangle, ← hname, find?_byName hrest hb]
    rfl
  · -- a new row is the first of its name
    rw [hm] at hrest ⊢
    have hnew : e.name ∉ names.map (·.name) := by
      rw [List.map_append, List.nodup_append] at hrest
      intro hmem
      exact hrest.2.2 _ hmem _ List.mem_cons_self rfl
    have hfind : ((names.map Binding.byName).find? fun c => c.key = .name e.name) = none := by
      rw [List.find?_eq_none]
      intro c hc hkey
      obtain ⟨b, hb, rfl⟩ := List.mem_map.1 hc
      have hname : b.name = e.name := by simpa [Binding.byName] using hkey
      exact hnew (hname ▸ List.mem_map_of_mem hb)
    rw [mangle, hfind, htext]
    simp [Binding.byName]

end Tables

/-- No key has two rows. -/
theorem nodup_keys_give {m : Mangling} (es : List Entity) : ((give m [] es).map (·.key)).Nodup := by
  induction es using List.reverseRecOn with
  | nil => exact List.nodup_nil
  | append_singleton es e ih =>
    rw [give_snoc]
    rcases mangle_cases (give m [] es) (m.key e) e.name with ⟨b, -, -, hm⟩ | ⟨hnew, text, -, hm⟩
    · rw [hm]
      exact ih
    · rw [hm, List.map_append, List.nodup_append]
      refine ⟨ih, List.pairwise_singleton _ _, ?_⟩
      intro k hk k' hk'
      obtain ⟨b, hb, rfl⟩ := List.mem_map.1 hk
      rw [List.mem_singleton.1 hk']
      exact hnew b hb

/-! ### Writers side by side -/

/-- Two writers that name these entities, the one by entity and the other by name. As long as the rows of
the first stay within a table that suits the entities, the second one ends in the same way. -/
structure Twins (table : List Binding) (es : List Entity) {α : Type} (x y : Emit α) : Prop where
  /-- Rows are made for these entities only, also on the way to a failure. -/
  rows : ∀ st, ∃ ds, ds ⊆ es ∧ (endOf (x st)).names = give .byEntity st.names ds
  same : (∀ e ∈ es, Suits table e) → ∀ st, (endOf (x st)).names <+: table →
    y st.byName = endByName (x st)

section Writers

variable {table : List Binding} {α β : Type} {es ds : List Entity} {x y : Emit α}

theorem Twins.grows (h : Twins table es x y) (st : State) : st.names <+: (endOf (x st)).names := by
  obtain ⟨ds, -, hrows⟩ := h.rows st
  rw [hrows]
  exact prefix_give st.names ds

/-- A writer that names nothing and is the same on both sides. -/
theorem Twins.quiet (hrows : ∀ st, (endOf (x st)).names = st.names)
    (hsame : ∀ st, x st.byName = endByName (x st)) : Twins table es x x where
  rows st := ⟨[], List.nil_subset _, hrows st⟩
  same _ st _ := hsame st

theorem Twins.nameOf (hdistinct : (table.map (·.name)).Nodup) (e : Entity) :
    Twins table [e] (nameOf .byEntity e) (nameOf .byName e) where
  rows st := ⟨[e], List.Subset.refl _, rfl⟩
  same he st hrows := by
    have hmangle := mangle_byName hdistinct (he e List.mem_cons_self) hrows
    show EStateM.Result.ok (mangle (st.names.map Binding.byName) (.name e.name) e.name).1
      (⟨(mangle (st.names.map Binding.byName) (.name e.name) e.name).2, st.lines⟩ : State) = _
    rw [hmangle]
    rfl

theorem Twins.bind {f g : α → Emit β} (hx : Twins table es x y) (hf : ∀ a, Twins table ds (f a) (g a)) :
    Twins table (es ++ ds) (x >>= f) (y >>= g) where
  rows st := by
    obtain ⟨es', hes, hrows⟩ := hx.rows st
    show ∃ ds', ds' ⊆ es ++ ds ∧ (endOf (EStateM.bind x f st)).names = give .byEntity st.names ds'
    unfold EStateM.bind
    cases hxa : x st with
    | error e st₁ =>
      rw [hxa] at hrows
      exact ⟨es', List.Subset.trans hes (List.subset_append_left _ _), hrows⟩
    | ok a st₁ =>
      rw [hxa] at hrows
      obtain ⟨ds', hds, hrows'⟩ := (hf a).rows st₁
      refine ⟨es' ++ ds', List.append_subset_of_subset_of_subset ?_ ?_, ?_⟩
      · exact List.Subset.trans hes (List.subset_append_left _ _)
      · exact List.Subset.trans hds (List.subset_append_right _ _)
      rw [give_append, ← show st₁.names = _ from hrows]
      exact hrows'
  same he st := by
    obtain ⟨hes, hds⟩ := List.forall_mem_append.1 he
    have hsame := hx.same hes st
    show (endOf (EStateM.bind x f st)).names <+: table →
      EStateM.bind y g st.byName = endByName (EStateM.bind x f st)
    unfold EStateM.bind
    intro hrows
    cases hxa : x st with
    | error e st₁ =>
      rw [hxa] at hsame hrows
      rw [hsame hrows]
      rfl
    | ok a st₁ =>
      rw [hxa] at hsame hrows
      -- the rows of the first part are in front of those of the second
      rw [hsame (((hf a).grows st₁).trans hrows)]
      exact (hf a).same hds st₁ hrows

/-- A writer is the same under both manglings but for the names. -/
theorem Writes.twins {x : Mangling → Emit α} {d : Nat} (h : Writes d es x)
    (hdistinct : (table.map (·.name)).Nodup) : Twins table es (x .byEntity) (x .byName) := by
  induction h with
  | pure a => exact .quiet (fun _ => rfl) fun _ => rfl
  | throw e => exact .quiet (fun _ => rfl) fun _ => rfl
  | line d text => exact .quiet (fun _ => rfl) fun _ => rfl
  | nameOf e => exact .nameOf hdistinct e
  | bind _ _ ihx ihf => exact ihx.bind ihf

end Writers

/-! ### Programs -/

/-- An entity that gets an identifier when the program is written by entity, be it up to a failure. -/
structure Identified (p : Program) (e : Entity) : Prop where
  named : e ∈ p.named
  row : ∃ b ∈ (run .byEntity p).2.names, b.key = .entity e.id

section Programs

variable {p : Program}

theorem endOf_block (m : Mangling) (p : Program) :
    endOf (block m 0 p.statements ⟨[], #[]⟩) = (run m p).2 := by
  unfold run
  cases block m 0 p.statements ⟨[], #[]⟩ <;> rfl

theorem twins_program (table : List Binding) (hdistinct : (table.map (·.name)).Nodup) (p : Program) :
    Twins table p.named (block .byEntity 0 p.statements) (block .byName 0 p.statements) :=
  (writes_block 0 p.statements).twins hdistinct

/-- However the writing of a program ends, the rows are those of some of the entities it names. -/
theorem rows_run (p : Program) : ∃ ds, ds ⊆ p.named ∧ (run .byEntity p).2.names = give .byEntity [] ds := by
  obtain ⟨ds, hds, hrows⟩ := (twins_program [] List.nodup_nil p).rows ⟨[], #[]⟩
  exact ⟨ds, hds, endOf_block .byEntity p ▸ hrows⟩

theorem identified_of_row : ∀ b ∈ (run .byEntity p).2.names,
    ∃ e, Identified p e ∧ b.key = .entity e.id ∧ b.name = e.name := by
  obtain ⟨ds, hds, hrows⟩ := rows_run p
  intro b hb
  obtain ⟨e, he, hkey, hname⟩ := named_give ds b (hrows ▸ hb)
  exact ⟨e, ⟨hds he, b, hb, hkey⟩, hkey, hname⟩

theorem nodup_names_run (h : ∀ e d, Identified p e → Identified p d → e.name = d.name → e.id = d.id) :
    ((run .byEntity p).2.names.map (·.name)).Nodup := by
  obtain ⟨ds, -, hrows⟩ := rows_run p
  have hkeys : ((run .byEntity p).2.names.map (·.key)).Nodup := by
    rw [hrows]
    exact nodup_keys_give ds
  rw [List.Nodup, List.pairwise_map] at hkeys ⊢
  refine hkeys.imp_of_mem fun {b c} hb hc hkey hname => hkey ?_
  obtain ⟨e, he, hbkey, hbname⟩ := identified_of_row b hb
  obtain ⟨d, hd, hckey, hcname⟩ := identified_of_row c hc
  rw [hbkey, hckey, h e d he hd (by rw [← hbname, hname, hcname])]

/-- Among the entities that get identifiers, let different ones have different names (and each of them one
name). Then the program has the same script, or fails in the same way, whether names are told apart by entity
or by their spelling. -/
theorem generate_byName_eq (h : ∀ e d, Identified p e → Identified p d → (e.id = d.id ↔ e.name = d.name)) :
    generate .byEntity p = generate .byName p := by
  have hdistinct := nodup_names_run fun e d he hd => (h e d he hd).2
  have hsuits : ∀ e ∈ p.named, Suits (run .byEntity p).2.names e := by
    intro e he b hb hkey
    obtain ⟨d, hd, hbkey, hbname⟩ := identified_of_row b hb
    rw [hbname]
    exact (h d e hd ⟨he, b, hb, hkey⟩).1 (Key.entity.inj (hbkey.symm.trans hkey))
  have hsame : block .byName 0 p.statements ⟨[], #[]⟩ =
      endByName (block .byEntity 0 p.statements ⟨[], #[]⟩) :=
    (twins_program _ hdistinct p).same hsuits ⟨[], #[]⟩ (endOf_block .byEntity p ▸ List.prefix_refl _)
  unfold generate run
  rw [hsame]
  cases block .byEntity 0 p.statements ⟨[], #[]⟩ <;> rfl

end Programs

/-- A function, a class with a method and a loop, all with names of their own. -/
def counters : Program :=
  let f : Entity := ⟨20, .function false, "f", .function [.int] .int⟩
  let n : Entity := ⟨21, .parameter, "n", .int⟩
  let c : Entity := ⟨22, .classDef, "f_1", .struct ⟨22, "f_1"⟩⟩
  let m : Entity := ⟨23, .function true, "f", .function [.int] .int⟩
  let k : Entity := ⟨24, .parameter, "k", .int⟩
  let i : Entity := ⟨25, .var false, "i", .int⟩
  ⟨[.function (.mk f [n] [.ret (some (.ref n)) .start] .start) .start,
    .classDecl c [⟨"n", .int⟩] [.mk m [k] [.ret (some (.call (.ref f) [.ref k] .int)) .start] .start] .start,
    .eachLoop [i] (.array [] (.array .int))
      [.print [.construct c [.ref i], .call (.ref f) [.ref i] .int] .start] .start]⟩

def countersText : String :=
  "function f_1(n_2) \x7b\n  return n_2;\n\x7d\nclass f_1_3 \x7b\n  constructor(n) \x7b\n    this.n = n;\n  \x7d\n" ++
    "  f(k_4) \x7b\n    return f_1(k_4);\n  \x7d\n\x7d\nfor (const i_5 of []) \x7b\n" ++
    "  console.log(new f_1_3(i_5), f_1(i_5));\n\x7d"

theorem generate_byName_eq_counters :
    (∀ e ∈ counters.named, ∀ d ∈ counters.named, (e.id = d.id ↔ e.name = d.name)) ∧
    generate .byEntity counters = .ok countersText ∧
    generate .byEntity counters = generate .byName counters :=
  have h : ∀ e ∈ counters.named, ∀ d ∈ counters.named, (e.id = d.id ↔ e.name = d.name) := by decide
  ⟨h, by decide +kernel, generate_byName_eq fun e d he hd => h e he.named d hd.named⟩

end Snack.Script
