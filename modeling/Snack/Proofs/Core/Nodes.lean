import Snack.Proofs.Core.Writable

/-! The statements of a program at any depth, each with the functions and methods that it lies in. What is
known of a whole program is known of each of them. -/

namespace Snack.Core

open Snack.Typing (Node Members Typed Proper WellTyped)

/-- A body that statements lie in: the function, and the class if it is a method. -/
structure Frame where
  cls : Option Entity
  function : Entity

/-- A node of a program with the bodies around it, innermost first. -/
structure Placed where
  frames : List Frame
  node : Node

mutual

/-- A statement and all that stand in it. -/
def Stmt.nodes (fs : List Frame) : Stmt → List Placed
  | .function f p => ⟨fs, .stmt (.function f p)⟩ :: f.nodes none fs
  | .classDecl c fields methods p =>
    ⟨fs, .stmt (.classDecl c fields methods p)⟩ :: nodesOfFunctions (some c) fs methods
  | .ifElse test body rest p =>
    ⟨fs, .stmt (.ifElse test body rest p)⟩ :: (nodesOfBlock fs body ++ rest.nodes fs)
  | .whileLoop test body p => ⟨fs, .stmt (.whileLoop test body p)⟩ :: nodesOfBlock fs body
  | .rangeLoop i low op high body p =>
    ⟨fs, .stmt (.rangeLoop i low op high body p)⟩ :: nodesOfBlock fs body
  | .eachLoop is c body p => ⟨fs, .stmt (.eachLoop is c body p)⟩ :: nodesOfBlock fs body
  | .declare v init p => [⟨fs, .stmt (.declare v init p)⟩]
  | .assign target source p => [⟨fs, .stmt (.assign target source p)⟩]
  | .addAssign target source p => [⟨fs, .stmt (.addAssign target source p)⟩]
  | .increment target p => [⟨fs, .stmt (.increment target p)⟩]
  | .decrement target p => [⟨fs, .stmt (.decrement target p)⟩]
  | .ret value p => [⟨fs, .stmt (.ret value p)⟩]
  | .brk p => [⟨fs, .stmt (.brk p)⟩]
  | .print es p => [⟨fs, .stmt (.print es p)⟩]
  | .call e p => [⟨fs, .stmt (.call e p)⟩]
  | .other tag p => [⟨fs, .stmt (.other tag p)⟩]

def nodesOfBlock (fs : List Frame) : List Stmt → List Placed
  | [] => []
  | s :: ss => s.nodes fs ++ nodesOfBlock fs ss

def Else.nodes (fs : List Frame) : Else → List Placed
  | .none => []
  | .block body => nodesOfBlock fs body
  | .elseIf test body rest p =>
    ⟨fs, .rest (.elseIf test body rest p)⟩ :: (nodesOfBlock fs body ++ rest.nodes fs)

def Function.nodes (cls : Option Entity) (fs : List Frame) : Function → List Placed
  | .mk e _ body _ => nodesOfBlock (⟨cls, e⟩ :: fs) body

def nodesOfFunctions (cls : Option Entity) (fs : List Frame) : List Function → List Placed
  | [] => []
  | f :: rest => f.nodes cls fs ++ nodesOfFunctions cls fs rest

end

def Program.nodes (p : Program) : List Placed := nodesOfBlock [] p.statements

section Blocks

variable {fs : List Frame}

theorem nodesOfBlock_append (ss ts : List Stmt) :
    nodesOfBlock fs (ss ++ ts) = nodesOfBlock fs ss ++ nodesOfBlock fs ts := by
  induction ss with
  | nil => rfl
  | cons s ss ih => simp [nodesOfBlock, ih]

theorem nodesOfBlock_one (s : Stmt) : nodesOfBlock fs [s] = s.nodes fs := by
  simp [nodesOfBlock]

end Blocks

/-! ### What is known of all nodes -/

/-- The nodes directly in a node. -/
def subnodes : Node → List Node
  | .stmt (.function f _) => [.function f]
  | .stmt (.classDecl _ _ methods _) => methods.map .function
  | .stmt (.ifElse _ body rest _) | .rest (.elseIf _ body rest _) => .rest rest :: body.map .stmt
  | .stmt (.whileLoop _ body _) | .stmt (.rangeLoop _ _ _ _ body _) | .stmt (.eachLoop _ _ body _)
  | .rest (.block body) | .function (.mk _ _ body _) => body.map .stmt
  | _ => []

section Subnodes

variable {R : Node → Prop}

mutual

/-- What passes from a node to those in it holds at any depth. -/
theorem Stmt.forall_nodes (hR : ∀ n, R n → ∀ m ∈ subnodes n, R m) (s : Stmt) (h : R (.stmt s))
    (fs : List Frame) : ∀ x ∈ s.nodes fs, R x.node := by
  have hsub := hR _ h
  cases s with
  | function f p =>
    exact List.forall_mem_cons.2 ⟨h, Function.forall_nodes hR f (List.forall_mem_singleton.1 hsub) none fs⟩
  | classDecl c fields methods p =>
    exact List.forall_mem_cons.2
      ⟨h, forall_nodes_functions hR methods (List.forall_mem_map.1 hsub) (some c) fs⟩
  | ifElse t b e p =>
    obtain ⟨he, hb⟩ := List.forall_mem_cons.1 hsub
    exact List.forall_mem_cons.2 ⟨h, List.forall_mem_append.2
      ⟨forall_nodes_block hR b (List.forall_mem_map.1 hb) fs, Else.forall_nodes hR e he fs⟩⟩
  | whileLoop t b p =>
    exact List.forall_mem_cons.2 ⟨h, forall_nodes_block hR b (List.forall_mem_map.1 hsub) fs⟩
  | rangeLoop i low op high b p =>
    exact List.forall_mem_cons.2 ⟨h, forall_nodes_block hR b (List.forall_mem_map.1 hsub) fs⟩
  | eachLoop is c b p =>
    exact List.forall_mem_cons.2 ⟨h, forall_nodes_block hR b (List.forall_mem_map.1 hsub) fs⟩
  | _ => exact List.forall_mem_singleton.2 h

theorem forall_nodes_block (hR : ∀ n, R n → ∀ m ∈ subnodes n, R m) (ss : List Stmt)
    (h : ∀ s ∈ ss, R (.stmt s)) (fs : List Frame) : ∀ x ∈ nodesOfBlock fs ss, R x.node := by
  cases ss with
  | nil => exact List.forall_mem_nil _
  | cons s ss =>
    obtain ⟨hs, hss⟩ := List.forall_mem_cons.1 h
    exact List.forall_mem_append.2 ⟨Stmt.forall_nodes hR s hs fs, forall_nodes_block hR ss hss fs⟩

theorem Else.forall_nodes (hR : ∀ n, R n → ∀ m ∈ subnodes n, R m) (e : Else) (h : R (.rest e))
    (fs : List Frame) : ∀ x ∈ e.nodes fs, R x.node := by
  have hsub := hR _ h
  cases e with
  | none => exact List.forall_mem_nil _
  | block b => exact forall_nodes_block hR b (List.forall_mem_map.1 hsub) fs
  | elseIf t b e p =>
    obtain ⟨he, hb⟩ := List.forall_mem_cons.1 hsub
    exact List.forall_mem_cons.2 ⟨h, List.forall_mem_append.2
      ⟨forall_nodes_block hR b (List.forall_mem_map.1 hb) fs, Else.forall_nodes hR e he fs⟩⟩

theorem Function.forall_nodes (hR : ∀ n, R n → ∀ m ∈ subnodes n, R m) (f : Function) (h : R (.function f))
    (cls : Option Entity) (fs : List Frame) : ∀ x ∈ f.nodes cls fs, R x.node := by
  have hsub := hR _ h
  cases f with
  | mk e ps b p => exact forall_nodes_block hR b (List.forall_mem_map.1 hsub) _

theorem forall_nodes_functions (hR : ∀ n, R n → ∀ m ∈ subnodes n, R m) (gs : List Function)
    (h : ∀ g ∈ gs, R (.function g)) (cls : Option Entity) (fs : List Frame) :
    ∀ x ∈ nodesOfFunctions cls fs gs, R x.node := by
  cases gs with
  | nil => exact List.forall_mem_nil _
  | cons g gs =>
    obtain ⟨hg, hgs⟩ := List.forall_mem_cons.1 h
    exact List.forall_mem_append.2
      ⟨Function.forall_nodes hR g hg cls fs, forall_nodes_functions hR gs hgs cls fs⟩

end

end Subnodes

theorem Built.subnodes {P : Expr → Prop} {O : Entity → Prop} {F : Field → Prop} {n : Node} (h : Built P O F n) :
    ∀ m ∈ subnodes n, Built P O F m := by
  cases h with
  | function _ hf => exact List.forall_mem_singleton.2 hf
  | classDecl _ _ hm => exact List.forall_mem_map.2 hm
  | ifElse _ hb he => exact List.forall_mem_cons.2 ⟨he, List.forall_mem_map.2 hb⟩
  | whileLoop _ hb => exact List.forall_mem_map.2 hb
  | rangeLoop _ _ _ _ hb => exact List.forall_mem_map.2 hb
  | eachLoop _ _ hb => exact List.forall_mem_map.2 hb
  | block hb => exact List.forall_mem_map.2 hb
  | elseIf _ hb he => exact List.forall_mem_cons.2 ⟨he, List.forall_mem_map.2 hb⟩
  | body _ _ hb => exact List.forall_mem_map.2 hb
  | _ => exact List.forall_mem_nil _

/-- What a program is built of its nodes are built of. -/
theorem forall_nodes_built {P : Expr → Prop} {O : Entity → Prop} {F : Field → Prop} {p : Program}
    (h : ∀ s ∈ p.statements, Built P O F (.stmt s)) : ∀ x ∈ p.nodes, Built P O F x.node :=
  forall_nodes_block (fun _ => Built.subnodes) p.statements h []

theorem wellTyped_subnodes {M : Nat → Members} {n : Node} (h : ∃ r, WellTyped M r n) :
    ∀ m ∈ subnodes n, ∃ r, WellTyped M r m := by
  obtain ⟨r, h⟩ := h
  cases h with
  | function _ hf => exact List.forall_mem_singleton.2 ⟨_, hf⟩
  | classDecl _ _ _ _ _ _ hm => exact List.forall_mem_map.2 fun f hf => ⟨_, hm f hf⟩
  | ifElse _ _ hb he => exact List.forall_mem_cons.2 ⟨⟨_, he⟩, List.forall_mem_map.2 fun s hs => ⟨_, hb s hs⟩⟩
  | whileLoop _ _ hb => exact List.forall_mem_map.2 fun s hs => ⟨_, hb s hs⟩
  | rangeLoop _ _ _ _ _ _ _ _ hb => exact List.forall_mem_map.2 fun s hs => ⟨_, hb s hs⟩
  | eachElement _ _ _ _ hb => exact List.forall_mem_map.2 fun s hs => ⟨_, hb s hs⟩
  | eachEntry _ _ _ _ _ _ hb => exact List.forall_mem_map.2 fun s hs => ⟨_, hb s hs⟩
  | block hb => exact List.forall_mem_map.2 fun s hs => ⟨_, hb s hs⟩
  | elseIf _ _ hb he => exact List.forall_mem_cons.2 ⟨⟨_, he⟩, List.forall_mem_map.2 fun s hs => ⟨_, hb s hs⟩⟩
  | body _ _ _ _ hb => exact List.forall_mem_map.2 fun s hs => ⟨_, hb s hs⟩
  | _ => exact List.forall_mem_nil _

/-! ### The parts of a node -/

/-- What is assigned to. -/
def targetOf : Node → Option Expr
  | .stmt (.assign target _ _) | .stmt (.addAssign target _ _) | .stmt (.increment target _)
  | .stmt (.decrement target _) => some target
  | _ => none

/-- The expressions of a node itself, without those of the blocks in it. -/
def exprsOf : Node → List Expr
  | .stmt (.declare _ init _) => init.toList
  | .stmt (.assign target source _) | .stmt (.addAssign target source _) => [target, source]
  | .stmt (.increment target _) | .stmt (.decrement target _) => [target]
  | .stmt (.ifElse test _ _ _) | .stmt (.whileLoop test _ _) | .rest (.elseIf test _ _ _) => [test]
  | .stmt (.rangeLoop _ low _ high _ _) => [low, high]
  | .stmt (.eachLoop _ collection _ _) => [collection]
  | .stmt (.ret value _) => value.toList
  | .stmt (.print es _) => es
  | .stmt (.call e _) => [e]
  | _ => []

theorem Built.target {P : Expr → Prop} {O : Entity → Prop} {F : Field → Prop} {n : Node} (h : Built P O F n)
    {e : Expr} (he : targetOf n = some e) : P e := by
  cases h with
  | assign ht _ => exact Option.some.inj he ▸ ht
  | addAssign ht _ => exact Option.some.inj he ▸ ht
  | increment ht => exact Option.some.inj he ▸ ht
  | decrement ht => exact Option.some.inj he ▸ ht
  | _ => cases he

theorem wellTyped_target {M : Nat → Members} {r : Option Ty} {n : Node} (h : WellTyped M r n)
    {e : Expr} (he : targetOf n = some e) : Typed Proper Ty.Written M e := by
  cases h with
  | assign ht _ _ => exact Option.some.inj he ▸ ht
  | addAssign ht _ _ _ => exact Option.some.inj he ▸ ht
  | increment ht _ => exact Option.some.inj he ▸ ht
  | decrement ht _ => exact Option.some.inj he ▸ ht
  | _ => cases he

/-- All that a program assigns to. -/
def Program.targets (p : Program) : List Expr := p.nodes.filterMap (targetOf ·.node)

end Snack.Core
