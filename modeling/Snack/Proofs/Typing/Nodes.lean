import Snack.Proofs.Core.Nodes
import Snack.Proofs.Tree.Formed
import Snack.Proofs.Typing.Sound

/-! What holds of each statement that is accepted, wherever it stands. It may be told from the statement of the
tree, from what is known there, and from the class at hand together with the bodies around it. -/

namespace Snack.Tree

/-- The statements directly in a statement. -/
def Stmt.inside : Stmt → List Stmt
  | .function _ _ _ _ body | .classDecl _ _ body | .whileLoop _ _ body | .rangeLoop _ _ _ _ _ body
  | .eachLoop _ _ _ body => body
  | .ifChain _ _ body elseIfs none => body ++ elseIfs.flatMap ElseIf.body
  | .ifChain _ _ body elseIfs (some elsePart) => body ++ (elseIfs.flatMap ElseIf.body ++ elsePart)
  | _ => []

end Snack.Tree

namespace Snack.Typing

open Snack.Core

/-- A relation between the bodies around a place and the class at hand there: a function takes over the class
at hand, and in a method it is the class of the method. -/
structure Surrounds (C : List Frame → Option Entity → Prop) : Prop where
  function : ∀ {fs k} f, C fs k → C (⟨none, f⟩ :: fs) k
  method : ∀ fs c f, C (⟨some c, f⟩ :: fs) (some c)

section Nodes

variable {T : Tree.Stmt → Prop} {C : List Frame → Option Entity → Prop} {Q : Placed → Prop}

/-- All statements to analyse have the property. -/
def Task.All (T : Tree.Stmt → Prop) : Task → Prop
  | .stmt t => T t
  | .block ts | .methods _ ts => ∀ t ∈ ts, T t
  | .clauses cs => ∀ t ∈ cs.flatMap Tree.ElseIf.body, T t

/-- The class at hand suits the bodies around the task. -/
def Task.Suits (C : List Frame → Option Entity → Prop) (fs : List Frame) (st : State) : Task → Prop
  | .stmt _ | .block _ | .clauses _ => C fs st.scope.cls
  | .methods cls _ => st.scope.cls = some cls

/-- All nodes of an answer have the property, given the task and the bodies around it. -/
def Answer.All (Q : Placed → Prop) (fs : List Frame) : Task → Answer → Prop
  | _, .stmt s => ∀ x ∈ s.nodes fs, Q x
  | _, .block ss => ∀ x ∈ nodesOfBlock fs ss, Q x
  | _, .clauses cs => ∀ e : Else, (∀ x ∈ e.nodes fs, Q x) → ∀ x ∈ (Check.clauses cs e).nodes fs, Q x
  | .methods cls _, .methods gs _ => ∀ x ∈ nodesOfFunctions (some cls) fs gs, Q x
  | _, .methods _ _ => True

theorem Accepts.cls {task : Task} {ans : Answer} {st st' : State} (h : Accepts task st ans st') :
    st'.scope.cls = st.scope.cls := by
  rw [h.grows.scope]

theorem Accepts.cls_at_hand {task : Task} {ans : Answer} {st st' : State} (h : Accepts task st ans st')
    {fs : List Frame} (hst : C fs st.scope.cls) : C fs st'.scope.cls := h.cls ▸ hst

theorem cls_addAll (st : State) (es : List Entity) : (st.addAll es).scope.cls = st.scope.cls := by
  rw [st.addAll_scope]

/-- A property that every statement has where it is accepted, and every later branch, holds at any depth. The
induction carries the bodies around the task along with the state. -/
theorem Accepts.forall_nodes (hC : Surrounds C) (hT : ∀ t, T t → ∀ u ∈ t.inside, T u)
    (hstmt : ∀ {fs st t s st'}, C fs st.scope.cls → T t → Accepts (.stmt t) st (.stmt s) st' → Q ⟨fs, .stmt s⟩)
    (hclause : ∀ {fs st cond test b e p}, C fs st.scope.cls → infer st cond = .ok test →
      Q ⟨fs, .rest (.elseIf test b e p)⟩)
    {task : Task} {ans : Answer} {st st' : State} (h : Accepts task st ans st') {fs : List Frame}
    (ht : task.All T) (hs : task.Suits C fs st) : ans.All Q fs task := by
  induction h generalizing fs with
  | varDecl hn hd hv hty => exact List.forall_mem_singleton.2 (hstmt hs ht (.varDecl hn hd hv hty))
  | collection hn hv => exact List.forall_mem_singleton.2 (hstmt hs ht (.collection hn hv))
  | @function p name ps returns body st r qs ss st₀ st₁ hn hr hq hb ih =>
    refine List.forall_mem_cons.2 ⟨hstmt hs ht (.function hn hr hq hb), ih (hT _ ht) ?_⟩
    rw [Task.Suits, cls_addAll]
    exact hC.function _ hs
  | @classDecl p name body st st₁ gs left st₂ hn hf hm ih =>
    refine List.forall_mem_cons.2 ⟨hstmt hs ht (.classDecl hn hf hm), ih (hT _ ht) ?_⟩
    obtain ⟨new, rfl, -⟩ := Check.fields_ok hf
    rw [Task.Suits, State.addFields_eq]
    rfl
  | ifChain hc hbool hb hcs ihb ihc =>
    obtain ⟨htb, htc⟩ := List.forall_mem_append.1 (hT _ ht)
    refine List.forall_mem_cons.2
      ⟨hstmt hs ht (.ifChain hc hbool hb hcs), List.forall_mem_append.2 ⟨ihb htb hs, ?_⟩⟩
    exact ihc htc hs .none (List.forall_mem_nil _)
  | ifElse hc hbool hb hcs he ihb ihc ihe =>
    obtain ⟨htb, htr⟩ := List.forall_mem_append.1 (hT _ ht)
    obtain ⟨htc, hte⟩ := List.forall_mem_append.1 htr
    refine List.forall_mem_cons.2
      ⟨hstmt hs ht (.ifElse hc hbool hb hcs he), List.forall_mem_append.2 ⟨ihb htb hs, ?_⟩⟩
    exact ihc htc hs (.block _) (ihe hte (hcs.cls_at_hand hs))
  | whileLoop hc hbool hb ih =>
    exact List.forall_mem_cons.2 ⟨hstmt hs ht (.whileLoop hc hbool hb), ih (hT _ ht) hs⟩
  | rangeLoop hl hln hh hhn hb ho ih =>
    exact List.forall_mem_cons.2 ⟨hstmt hs ht (.rangeLoop hl hln hh hhn hb ho), ih (hT _ ht) hs⟩
  | eachLoop hc hts hlen hi hb ih =>
    refine List.forall_mem_cons.2 ⟨hstmt hs ht (.eachLoop hc hts hlen hi hb), ih (hT _ ht) ?_⟩
    rw [Task.Suits, cls_addAll]
    exact hs
  | retNone hf hv => exact List.forall_mem_singleton.2 (hstmt hs ht (.retNone hf hv))
  | ret hf hv he ha => exact List.forall_mem_singleton.2 (hstmt hs ht (.ret hf hv he ha))
  | brk hl => exact List.forall_mem_singleton.2 (hstmt hs ht (.brk hl))
  | print he => exact List.forall_mem_singleton.2 (hstmt hs ht (.print he))
  | assign hv hp hplace ha => exact List.forall_mem_singleton.2 (hstmt hs ht (.assign hv hp hplace ha))
  | addAssign hv hp hplace hn ha =>
    exact List.forall_mem_singleton.2 (hstmt hs ht (.addAssign hv hp hplace hn ha))
  | increment hp hplace hn => exact List.forall_mem_singleton.2 (hstmt hs ht (.increment hp hplace hn))
  | decrement hp hplace hn => exact List.forall_mem_singleton.2 (hstmt hs ht (.decrement hp hplace hn))
  | call he => exact List.forall_mem_singleton.2 (hstmt hs ht (.call he))
  | nil => exact List.forall_mem_nil _
  | cons hfirst _ ihs ihss =>
    obtain ⟨hts, htss⟩ := List.forall_mem_cons.1 ht
    exact List.forall_mem_append.2 ⟨ihs hts hs, ihss htss (hfirst.cls_at_hand hs)⟩
  | noClause => exact fun e he => he
  | clause hc _ _ _ ihb ihc =>
    obtain ⟨htb, htc⟩ := List.forall_mem_append.1 ht
    exact fun e he => List.forall_mem_cons.2
      ⟨hclause hs hc, List.forall_mem_append.2 ⟨ihb htb hs, ihc htc hs e he⟩⟩
  | noMethod => exact List.forall_mem_nil _
  | field _ ih => exact ih (List.forall_mem_cons.1 ht).2 hs
  | @method cls p name ps returns body rest st r qs ss gs left st₀ st₁ st₂ hr hn hq hb hm ihb ihm =>
    obtain ⟨hthead, htrest⟩ := List.forall_mem_cons.1 ht
    refine List.forall_mem_append.2 ⟨ihb (hT _ hthead) ?_, ihm htrest hs⟩
    have hcls : ((st.skip.enterFunction name (r.getD .void)).addAll qs).scope.cls = some cls :=
      (cls_addAll _ _).trans hs
    show C _ ((st.skip.enterFunction name (r.getD .void)).addAll qs).scope.cls
    rw [hcls]
    exact hC.method fs cls _
  | leftOut _ hleft _ _ ihm => exact ihm (List.forall_mem_cons.1 ht).2 (hleft.cls.trans hs)

/-- In a program that is accepted the property holds of all nodes. -/
theorem forall_nodes_of_analyze (hC : Surrounds C) (hstart : C [] none) (hT : ∀ t, T t → ∀ u ∈ t.inside, T u)
    (hstmt : ∀ {fs st t s st'}, C fs st.scope.cls → T t → Accepts (.stmt t) st (.stmt s) st' → Q ⟨fs, .stmt s⟩)
    (hclause : ∀ {fs st cond test b e p}, C fs st.scope.cls → infer st cond = .ok test →
      Q ⟨fs, .rest (.elseIf test b e p)⟩)
    {tree : Tree.Program} (htree : ∀ t ∈ tree, T t) {p : Program} {st : State}
    (h : analyze tree = (.ok p, st)) : ∀ x ∈ p.nodes, Q x :=
  (accepts_of_analyze h).forall_nodes hC hT hstmt hclause htree hstart

end Nodes

/-- Each of them obeys the rules. -/
theorem wellTyped_of_analyze {tree : Tree.Program} {p : Program} {st : State} (h : analyze tree = (.ok p, st)) :
    ∀ x ∈ p.nodes, ∃ r, WellTyped st.membersOf r x.node := by
  obtain ⟨-, hwell⟩ := (accepts_of_analyze h).sound .initial trivial
  exact forall_nodes_block (fun _ => wellTyped_subnodes) p.statements
    (fun s hs => ⟨_, hwell (.refl _ st) s hs⟩) []

end Snack.Typing
