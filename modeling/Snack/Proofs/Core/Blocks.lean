import Snack.Proofs.Core.Entities
import Snack.Proofs.Script.Identifiers

/-! The blocks of a program and what the statements of each declare. A reader who sees nothing but where
blocks open and close and what is declared in between finds the same blocks. -/

namespace Snack.Core

/-- What the statements of a block declare in it. -/
def bindsOf (ss : List Stmt) : List Entity := ss.flatMap Stmt.binds

mutual

/-- The blocks in a statement in the order in which they end, each as what is declared in it. The body of a
class and that of its constructor declare nothing; an else without statements is no block. -/
def Stmt.blocks : Stmt → List (List Entity)
  | .function f _ => f.blocks
  | .classDecl _ _ methods _ => [] :: blocksOfFunctions methods ++ [[]]
  | .ifElse _ body rest _ => blocksIn body ++ bindsOf body :: rest.blocks
  | .whileLoop _ body _ | .rangeLoop _ _ _ _ body _ | .eachLoop _ _ body _ =>
    blocksIn body ++ [bindsOf body]
  | _ => []

def blocksIn : List Stmt → List (List Entity)
  | [] => []
  | s :: ss => s.blocks ++ blocksIn ss

def Else.blocks : Else → List (List Entity)
  | .none | .block [] => []
  | .block body => blocksIn body ++ [bindsOf body]
  | .elseIf _ body rest _ => blocksIn body ++ bindsOf body :: rest.blocks

def Function.blocks : Function → List (List Entity)
  | .mk _ _ body _ => blocksIn body ++ [bindsOf body]

def blocksOfFunctions : List Function → List (List Entity)
  | [] => []
  | f :: fs => f.blocks ++ blocksOfFunctions fs

end

/-- The blocks of a program. The last one is the program itself. -/
def Program.blocks (p : Program) : List (List Entity) := blocksIn p.statements ++ [bindsOf p.statements]

/-! ### Blocks and declarations -/

/-- The blocks declare some of the entities that are declared, and some of those that are named, both in
their order. -/
def Within (bs : List (List Entity)) (declared named : List Entity) : Prop :=
  ∀ b ∈ bs, b.Sublist declared ∧ b.Sublist named

namespace Within

variable {bs cs : List (List Entity)} {ds ds' ns ns' : List Entity} {b : List Entity}

theorem nil : Within [] ds ns := List.forall_mem_nil _

theorem mono (h : Within bs ds ns) (hd : ds.Sublist ds') (hn : ns.Sublist ns') : Within bs ds' ns' :=
  fun b hb => ⟨(h b hb).1.trans hd, (h b hb).2.trans hn⟩

/-- Beside the blocks an expression may be named. -/
theorem behind (h : Within bs ds ns) (es : List Entity) : Within bs ds (es ++ ns) :=
  h.mono (.refl _) (List.sublist_append_right _ _)

theorem append (h : Within bs ds ns) (h' : Within cs ds' ns') : Within (bs ++ cs) (ds ++ ds') (ns ++ ns') :=
  List.forall_mem_append.2 ⟨h.mono (List.sublist_append_left _ _) (List.sublist_append_left _ _),
    h'.mono (List.sublist_append_right _ _) (List.sublist_append_right _ _)⟩

end Within

theorem Stmt.binds_sublist (s : Stmt) : s.binds.Sublist s.declared ∧ s.binds.Sublist s.named := by
  cases s with
  | declare v init p => exact ⟨.refl _, List.singleton_sublist.2 List.mem_cons_self⟩
  | function f p =>
    obtain ⟨e, ps, b, q⟩ := f
    exact ⟨List.singleton_sublist.2 List.mem_cons_self, List.singleton_sublist.2 List.mem_cons_self⟩
  | classDecl c fields methods p =>
    exact ⟨List.singleton_sublist.2 List.mem_cons_self, List.singleton_sublist.2 List.mem_cons_self⟩
  | _ => exact ⟨List.nil_sublist _, List.nil_sublist _⟩

theorem bindsOf_sublist (ss : List Stmt) :
    (bindsOf ss).Sublist (declaredInBlock ss) ∧ (bindsOf ss).Sublist (namedInBlock ss) := by
  induction ss with
  | nil => exact ⟨.refl _, .refl _⟩
  | cons s ss ih => exact ⟨s.binds_sublist.1.append ih.1, s.binds_sublist.2.append ih.2⟩

mutual

theorem Stmt.within (s : Stmt) : Within s.blocks s.declared s.named := by
  cases s with
  | function f p => exact f.within.mono (.refl _) (List.sublist_cons_self _ _)
  | classDecl c fields methods p =>
    have hmethods := (within_functions methods).mono (List.sublist_cons_self c _) (List.sublist_cons_self c _)
    have hempty := And.intro (List.nil_sublist (c :: declaredInFunctions methods))
      (List.nil_sublist (c :: namedInFunctions methods))
    exact List.forall_mem_cons.2 ⟨hempty, List.forall_mem_append.2 ⟨hmethods, List.forall_mem_singleton.2 hempty⟩⟩
  | ifElse t body rest p =>
    rw [Stmt.blocks, List.append_cons]
    exact ((within_block body).append rest.within).behind _
  | whileLoop t body p => exact (within_block body).behind _
  | rangeLoop i low op high body p =>
    exact ((within_block body).behind _).mono (List.sublist_cons_self _ _) (.refl _)
  | eachLoop is c body p => exact ((within_block body).behind _).mono (List.sublist_append_right _ _) (.refl _)
  | _ => exact .nil

theorem within_block (ss : List Stmt) :
    Within (blocksIn ss ++ [bindsOf ss]) (declaredInBlock ss) (namedInBlock ss) := by
  refine List.forall_mem_append.2 ⟨?_, List.forall_mem_singleton.2 (bindsOf_sublist ss)⟩
  cases ss with
  | nil => exact Within.nil
  | cons s ss =>
    have hrest : Within (blocksIn ss) (declaredInBlock ss) (namedInBlock ss) :=
      fun b hb => within_block ss b (List.mem_append_left _ hb)
    exact s.within.append hrest

theorem Else.within (e : Else) : Within e.blocks e.declared e.named := by
  cases e with
  | none => exact .nil
  | block body =>
    cases body with
    | nil => exact .nil
    | cons s ss => exact within_block (s :: ss)
  | elseIf t body rest p =>
    rw [Else.blocks, List.append_cons]
    exact ((within_block body).append rest.within).behind _

theorem Function.within (f : Function) : Within f.blocks f.declared f.named := by
  cases f with
  | mk e params body p =>
    have hsub := (List.sublist_append_right params (declaredInBlock body)).trans (List.sublist_cons_self e _)
    exact ((within_block body).behind _).mono hsub (.refl _)

theorem within_functions (fs : List Function) :
    Within (blocksOfFunctions fs) (declaredInFunctions fs) (namedInFunctions fs) := by
  cases fs with
  | nil => exact .nil
  | cons f fs => exact f.within.append (within_functions fs)

end

theorem Program.within (p : Program) : Within p.blocks p.declared p.named := within_block p.statements

/-! ### Reading blocks off -/

/-- What a reader notes. -/
inductive Mark (α : Type) where
  | opens
  | closes
  | declares (a : α)
  deriving DecidableEq

/-- The blocks that are read off, given what has been declared in those that are open, the innermost
first. -/
def collect {α : Type} : List (List α) → List (Mark α) → List (List α)
  | stack, [] => stack
  | stack, .opens :: ms => collect ([] :: stack) ms
  | frame :: stack, .closes :: ms => frame :: collect stack ms
  | frame :: stack, .declares a :: ms => collect ((frame ++ [a]) :: stack) ms
  | [], .closes :: ms | [], .declares _ :: ms => collect [] ms

section Marks

variable {α β : Type} (f : Entity → α)

/-- The marks of a block between braces. -/
def braced (ms : List (Mark α)) : List (Mark α) := .opens :: ms ++ [.closes]

mutual

/-- The marks of a statement, where `f` tells what is read for an entity. -/
def Stmt.marks : Stmt → List (Mark α)
  | .declare v _ _ => [.declares (f v)]
  | .function g _ => .declares (f g.entity) :: g.marks
  | .classDecl c _ methods _ => .declares (f c) :: braced (braced [] ++ marksOfFunctions methods)
  | .ifElse _ body rest _ => braced (marksIn body) ++ rest.marks
  | .whileLoop _ body _ | .rangeLoop _ _ _ _ body _ | .eachLoop _ _ body _ => braced (marksIn body)
  | _ => []

def marksIn : List Stmt → List (Mark α)
  | [] => []
  | s :: ss => s.marks ++ marksIn ss

def Else.marks : Else → List (Mark α)
  | .none | .block [] => []
  | .block body => braced (marksIn body)
  | .elseIf _ body rest _ => braced (marksIn body) ++ rest.marks

def Function.marks : Function → List (Mark α)
  | .mk _ _ body _ => braced (marksIn body)

def marksOfFunctions : List Function → List (Mark α)
  | [] => []
  | g :: gs => g.marks ++ marksOfFunctions gs

end

/-- Behind these marks the blocks have been read off, and the declarations are noted in the block that is
open. -/
def Reads (ms : List (Mark α)) (binds : List α) (blocks : List (List α)) : Prop :=
  ∀ frame stack rest, collect (frame :: stack) (ms ++ rest) = blocks ++ collect ((frame ++ binds) :: stack) rest

variable {f} {ms ns : List (Mark α)} {bs ds : List α} {ks ls : List (List α)}

theorem Reads.nil : Reads ([] : List (Mark α)) [] [] := by
  intro frame stack rest
  rw [List.nil_append, List.nil_append, List.append_nil]

theorem Reads.append (h : Reads ms bs ks) (h' : Reads ns ds ls) : Reads (ms ++ ns) (bs ++ ds) (ks ++ ls) := by
  intro frame stack rest
  rw [List.append_assoc, h, h', List.append_assoc, List.append_assoc]

theorem Reads.declares (a : α) : Reads [.declares a] [a] [] := fun _ _ _ => rfl

theorem Reads.braced (h : Reads ms bs ks) : Reads (braced ms) [] (ks ++ [bs]) := by
  intro frame stack rest
  have hinner := h [] (frame :: stack) (.closes :: rest)
  rw [List.nil_append] at hinner
  have hlist : Core.braced ms ++ rest = .opens :: (ms ++ .closes :: rest) := by
    simp [Core.braced]
  rw [hlist, collect, hinner, List.append_nil, List.append_assoc]
  rfl

mutual

theorem Stmt.reads (s : Stmt) : Reads (s.marks f) (s.binds.map f) (s.blocks.map (·.map f)) := by
  cases s with
  | declare v init p => exact .declares (f v)
  | function g p => exact (Reads.declares (f g.entity)).append g.reads
  | classDecl c fields methods p =>
    have hmethods := reads_functions methods
    have hbody := Reads.braced ((Reads.braced .nil).append hmethods)
    have hclass := (Reads.declares (f c)).append hbody
    simpa [Stmt.marks, Stmt.binds, Stmt.blocks] using hclass
  | ifElse t body rest p =>
    have hif := (reads_block body).braced.append rest.reads
    simpa [Stmt.marks, Stmt.binds, Stmt.blocks] using hif
  | whileLoop t body p =>
    simpa [Stmt.marks, Stmt.binds, Stmt.blocks] using (reads_block body).braced
  | rangeLoop i low op high body p =>
    simpa [Stmt.marks, Stmt.binds, Stmt.blocks] using (reads_block body).braced
  | eachLoop is c body p =>
    simpa [Stmt.marks, Stmt.binds, Stmt.blocks] using (reads_block body).braced
  | _ => exact .nil

theorem reads_block (ss : List Stmt) :
    Reads (marksIn f ss) ((bindsOf ss).map f) ((blocksIn ss).map (·.map f)) := by
  cases ss with
  | nil => exact .nil
  | cons s ss =>
    have hcons := s.reads.append (reads_block ss)
    rw [← List.map_append, ← List.map_append] at hcons
    exact hcons

theorem Else.reads (e : Else) : Reads (e.marks f) [] (e.blocks.map (·.map f)) := by
  cases e with
  | none => exact .nil
  | block body =>
    cases body with
    | nil => exact .nil
    | cons s ss => simpa [Else.marks, Else.blocks] using (reads_block (s :: ss)).braced
  | elseIf t body rest p =>
    have helse := (reads_block body).braced.append rest.reads
    simpa [Else.marks, Else.blocks] using helse

theorem Function.reads (g : Function) : Reads (g.marks f) [] (g.blocks.map (·.map f)) := by
  cases g with
  | mk e params body p => simpa [Function.marks, Function.blocks] using (reads_block body).braced

theorem reads_functions (gs : List Function) :
    Reads (marksOfFunctions f gs) [] ((blocksOfFunctions gs).map (·.map f)) := by
  cases gs with
  | nil => exact .nil
  | cons g gs =>
    have hcons := g.reads.append (reads_functions gs)
    rw [← List.map_append] at hcons
    exact hcons

end

/-- From the marks of a program its blocks are read off. -/
theorem Program.collect_marks (p : Program) :
    collect [[]] (marksIn f p.statements) = p.blocks.map (·.map f) := by
  have hreads := reads_block (f := f) p.statements [] [] []
  rw [List.append_nil, List.nil_append] at hreads
  rw [hreads, Program.blocks, List.map_append]
  rfl

end Marks

end Snack.Core
