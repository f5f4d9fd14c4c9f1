import Snack.Proofs.Core.Blocks
import Snack.Proofs.Typing.Closed

/-! What an accepted program declares. Every entity is declared at one place, and no two of one name are
declared in the same block, since each is refused where its name is local already. -/

namespace Snack.Typing

open Snack.Core

/-! ### Declarations of answers -/

def blocksOfClauses (cs : List Check.Clause) : List (List Entity) :=
  cs.flatMap fun c => blocksIn c.body ++ [bindsOf c.body]

/-- The blocks in an answer. -/
def Answer.blocks : Answer → List (List Entity)
  | .stmt s => s.blocks
  | .block ss => blocksIn ss
  | .clauses cs => blocksOfClauses cs
  | .methods fs _ => blocksOfFunctions fs

theorem blocks_clauses (cs : List Check.Clause) (rest : Else) :
    (Check.clauses cs rest).blocks = blocksOfClauses cs ++ rest.blocks := by
  induction cs with
  | nil => rfl
  | cons c cs ih =>
    simp only [Check.clauses, List.foldr_cons] at ih ⊢
    simp [Else.blocks, blocksOfClauses, ih]

/-! ### Names in scope -/

section Scopes

variable {st st' st₁ : State} {name : String}

/-- What is not local behind a run is not local before it, and the run does not declare it. -/
theorem isLocal_of_grows {es : List Entity} (hg : Grows st st' (State.names es))
    (h : st'.isLocal name = false) : st.isLocal name = false ∧ ∀ e ∈ es, name ≠ e.name := by
  unfold State.isLocal at h ⊢
  rw [hg.scope] at h
  simp only [List.lookup_append, Option.isSome_or, Bool.or_eq_false_iff] at h
  refine ⟨h.2, ?_⟩
  rintro e he rfl
  have hnone := List.lookup_eq_none_iff.1 (Option.isSome_eq_false_iff.1 h.1 |> Option.isNone_iff_eq_none.1)
  have hmem : (e.name, e) ∈ State.names es := List.mem_reverse.2 (List.mem_map.2 ⟨e, he, rfl⟩)
  simpa using hnone _ hmem

/-- Entities of different names, none of which is local yet. -/
structure Apart (st : State) (es : List Entity) : Prop where
  names : (es.map (·.name)).Nodup
  new : ∀ e ∈ es, st.isLocal e.name = false

theorem Apart.nil : Apart st [] := ⟨.nil, by simp⟩

theorem Apart.one {e : Entity} (h : st.isLocal e.name = false) : Apart st [e] :=
  ⟨List.pairwise_singleton _ _, List.forall_mem_singleton.2 h⟩

/-- A second run declares nothing that the first one did. -/
theorem Apart.append {es ds : List Entity} (he : Apart st es) (hg : Grows st st₁ (State.names es))
    (hd : Apart st₁ ds) : Apart st (es ++ ds) where
  names := by
    rw [List.map_append, List.nodup_append]
    refine ⟨he.names, hd.names, ?_⟩
    rintro _ hx _ hy rfl
    obtain ⟨e, hmem, rfl⟩ := List.mem_map.1 hx
    obtain ⟨d, hdmem, hname⟩ := List.mem_map.1 hy
    exact (isLocal_of_grows hg (hd.new d hdmem)).2 e hmem hname
  new := List.forall_mem_append.2 ⟨he.new, fun d hmem => (isLocal_of_grows hg (hd.new d hmem)).1⟩

end Scopes

/-! ### Runs -/

/-- A run declares in its scope under names that are not local yet, and no block in its answer has two of one
name. -/
structure Declares (st : State) (ans : Answer) : Prop where
  binds : Apart st ans.binds
  blocks : ∀ b ∈ ans.blocks, (b.map (·.name)).Nodup

theorem Declares.nothing {st : State} {ans : Answer} (hb : ans.binds = []) (hbs : ans.blocks = []) :
    Declares st ans :=
  ⟨hb ▸ .nil, by simp [hbs]⟩

/-- The blocks of a body and the body itself. -/
theorem Declares.body {st : State} {ss : List Stmt} (h : Declares st (.block ss)) :
    ∀ b ∈ blocksIn ss ++ [bindsOf ss], (b.map (·.name)).Nodup :=
  List.forall_mem_append.2 ⟨h.blocks, List.forall_mem_singleton.2 h.binds.names⟩

theorem Accepts.declares {task : Task} {st st' : State} {ans : Answer} (h : Accepts task st ans st') :
    Declares st ans := by
  induction h with
  | varDecl hn | collection hn => exact ⟨.one hn, List.forall_mem_nil _⟩
  | function hn _ _ _ ih => exact ⟨.one hn, ih.body⟩
  | classDecl hn _ _ ih =>
    have hempty : (([] : List Entity).map (·.name)).Nodup := .nil
    exact ⟨.one hn, List.forall_mem_cons.2
      ⟨hempty, List.forall_mem_append.2 ⟨ih.blocks, List.forall_mem_singleton.2 hempty⟩⟩⟩
  | ifChain _ _ _ _ ihb ihc =>
    refine ⟨.nil, ?_⟩
    simp only [Answer.blocks, Stmt.blocks, blocks_clauses, Else.blocks, List.append_nil]
    rw [List.append_cons]
    exact List.forall_mem_append.2 ⟨ihb.body, ihc.blocks⟩
  | @ifElse p cond body elseIfs elsePart st test b cs rest st₁ st₂ st₃ _ _ _ _ _ ihb ihc ihe =>
    refine ⟨.nil, ?_⟩
    simp only [Answer.blocks, Stmt.blocks, blocks_clauses]
    rw [List.append_cons]
    refine List.forall_mem_append.2 ⟨ihb.body, List.forall_mem_append.2 ⟨ihc.blocks, ?_⟩⟩
    cases rest with
    | nil => exact List.forall_mem_nil _
    | cons s ss => exact ihe.body
  | whileLoop _ _ _ ih => exact ⟨.nil, ih.body⟩
  | rangeLoop _ _ _ _ _ _ ih => exact ⟨.nil, ih.body⟩
  | eachLoop _ _ _ _ _ ih => exact ⟨.nil, ih.body⟩
  | cons hs _ ihs ihss =>
    exact ⟨ihs.binds.append hs.grows ihss.binds, List.forall_mem_append.2 ⟨ihs.blocks, ihss.blocks⟩⟩
  | clause _ _ _ _ ihb ihc => exact ⟨.nil, List.forall_mem_append.2 ⟨ihb.body, ihc.blocks⟩⟩
  | field _ ih => exact ih
  | method _ _ _ _ _ ihb ihm =>
    exact ⟨⟨ihm.binds.names, ihm.binds.new⟩, List.forall_mem_append.2 ⟨ihb.body, ihm.blocks⟩⟩
  | leftOut _ hs _ ihs ihm =>
    exact ⟨ihs.binds.append hs.grows ⟨ihm.binds.names, ihm.binds.new⟩, ihm.blocks⟩
  | _ => exact .nothing rfl rfl

/-- An accepted program declares every entity once, and no two of one name in a block. -/
theorem declares_of_analyze {tree : Tree.Program} {p : Program} {st : State} (h : analyze tree = (.ok p, st)) :
    p.DeclaresOnce ∧ ∀ b ∈ p.blocks, (b.map (·.name)).Nodup := by
  obtain ⟨hs, hhides⟩ := hides_of_analyze h
  exact ⟨List.pairwise_map.2 (List.pairwise_append.1 hhides.fresh.distinct).1, (accepts_of_analyze h).declares.body⟩

end Snack.Typing
