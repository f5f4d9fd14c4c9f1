import Snack.Parser.Stmt
import Snack.Proofs.Script.Names
import Snack.Proofs.Simplify.Sites
import Snack.Proofs.Simplify.Writable
import Snack.Proofs.Typing.Closed

/-! Scripts of accepted programs. All that such a program uses is declared around the use, and so the names
in its script are names of declarations, with one exception: what a statement declares that is left out of
a class can be used by the methods of the class behind it, and then the script has a name that it does not
declare. -/

namespace Snack.Script

open Snack.Core Snack.Typing

/-- A program that uses what is there has a script with names of what it declares and of what is hidden. -/
theorem names_of_scoped {p : Program} {hidden : List Hidden}
    (hs : p.Scoped (hiddenIn hidden) standardLibrary) (hw : p.Writable) (m : Mangling) :
    (run m p).1 = .ok () ∧
      ∀ b ∈ (run m p).2.names, ∃ e ∈ p.declared ++ hidden.map (·.entity), m.key e = b.key := by
  -- what is from the library has no name in the script
  have hall : ∀ e ∈ p.entities, isLibrary e.kind = true ∨ e ∈ p.declared ++ hidden.map (·.entity) := by
    refine entities_of_scopedBlock ?_ ?_ p.statements hs ?_
    · exact fun c i e he => .inr (List.mem_append_right _ (mem_of_mem_hiddenIn he))
    · exact fun e he => .inl (isLibrary_standard he)
    · exact fun e he => .inr (List.mem_append_left _ he)
  refine run_of_writable (U := fun k => ∃ e ∈ p.declared ++ hidden.map (·.entity),
    m.key e = k) hw fun e he hlib => ?_
  rcases hall e he with h | h
  · rw [hlib] at h
    cases h
  · exact ⟨e, h, rfl⟩

/-! ### Accepted programs -/

/-- In an accepted program and in its simplified form every use of an entity lies in the reach of its
declaration. That is in the program, or it is one of those that the tree has in the body of a class, which are left
out of it, and the use lies in a method of that class behind it. A script of either has names of such declarations
only. -/
theorem run_closed {tree : Tree.Program} {program : Program} {st : Typing.State}
    (h : analyze tree = (.ok program, st)) :
    ∃ hidden : List Hidden, hidden.map Hidden.place = leftOutOfBlock standardLibrary.length tree ∧
      ∀ p ∈ [program, Simplify.program program], p.Scoped (hiddenIn hidden) standardLibrary ∧
        ∀ m, (run m p).1 = .ok () ∧
          ∀ b ∈ (run m p).2.names, ∃ e ∈ p.declared ++ hidden.map (·.entity), m.key e = b.key := by
  obtain ⟨hw, hw'⟩ := Simplify.writable_of_analyze h
  obtain ⟨hidden, hhides⟩ := hides_of_analyze h
  have hscoped : program.Scoped (hiddenIn hidden) standardLibrary :=
    hhides.uses (fun _ hmem => reaches_hiddenIn hmem) .start
  have hscoped' := Simplify.scoped_program hscoped
  refine ⟨hidden, hhides.places, ?_⟩
  simp only [List.forall_mem_cons, List.not_mem_nil, false_implies, implies_true, and_true]
  exact ⟨⟨hscoped, names_of_scoped hscoped hw⟩, hscoped', names_of_scoped hscoped' hw'⟩

/-! ### A name that is not declared -/

/-- A class with a collection, which is left out, and a method that prints it. -/
def boxSource : String := "🫙 Box: 🥡 xs = [🥗] 🥘 show: 🍽 xs ; ;"

def boxTokens : List Token :=
  [⟨.keyword, "🫙", ⟨1, 1⟩⟩, ⟨.ident, "Box", ⟨1, 3⟩⟩, ⟨.op, ":", ⟨1, 6⟩⟩, ⟨.keyword, "🥡", ⟨1, 8⟩⟩,
   ⟨.ident, "xs", ⟨1, 10⟩⟩, ⟨.op, "=", ⟨1, 13⟩⟩, ⟨.op, "[", ⟨1, 15⟩⟩, ⟨.keyword, "🥗", ⟨1, 16⟩⟩, ⟨.op, "]", ⟨1, 17⟩⟩,
   ⟨.keyword, "🥘", ⟨1, 19⟩⟩, ⟨.ident, "show", ⟨1, 21⟩⟩, ⟨.op, ":", ⟨1, 25⟩⟩, ⟨.keyword, "🍽", ⟨1, 27⟩⟩,
   ⟨.ident, "xs", ⟨1, 29⟩⟩, ⟨.op, ";", ⟨1, 32⟩⟩, ⟨.op, ";", ⟨1, 34⟩⟩, ⟨.eof, "", ⟨1, 35⟩⟩]

def boxTree : Tree.Program :=
  [.classDecl ⟨1, 1⟩ "Box"
     [.collection ⟨1, 8⟩ "xs" (.array ⟨1, 15⟩ [.bool ⟨1, 16⟩ true]),
      .function ⟨1, 19⟩ "show" none none [.print ⟨1, 27⟩ [.var ⟨1, 29⟩ "xs"]]]]

def box : Entity := ⟨14, .classDef, "Box", .struct ⟨14, "Box"⟩⟩

def boxed : Entity := ⟨15, .var true, "xs", .array .bool⟩

def boxProgram : Program where
  statements :=
    [.classDecl box []
       [.mk ⟨16, .function true, "show", .function [] .void⟩ [] [.print [.ref boxed] ⟨1, 27⟩] ⟨1, 19⟩] ⟨1, 1⟩]

theorem run_closed_box :
    (analyze boxTree).1 = .ok boxProgram ∧
    ∃ hidden : List Hidden, hidden.map Hidden.place = [⟨box, 0, 15, .var true, "xs"⟩] ∧
      ∀ p ∈ [boxProgram, Simplify.program boxProgram], p.Scoped (hiddenIn hidden) standardLibrary ∧
        ∀ m, (run m p).1 = .ok () ∧
          ∀ b ∈ (run m p).2.names, ∃ e ∈ p.declared ++ hidden.map (·.entity), m.key e = b.key :=
  have h : (analyze boxTree).1 = .ok boxProgram := by rfl
  ⟨h, run_closed (Prod.ext h rfl)⟩

/-- The source is accepted, but the program uses what nothing in it declares, and so does its script. -/
theorem box_open :
    Token.scan boxSource = .ok boxTokens ∧ Parser.run boxTokens = .ok boxTree ∧
    (analyze boxTree).1 = .ok boxProgram ∧
    ¬ boxProgram.Scoped (fun _ _ => []) standardLibrary ∧
    ∃ b ∈ (run .byEntity boxProgram).2.names, ∀ e ∈ boxProgram.declared,
      Mangling.byEntity.key e ≠ b.key := by
  refine ⟨by rfl, by rfl, by rfl, ?_, ⟨.entity 15, "xs", "xs_2"⟩, ?_, ?_⟩
  · simp [Program.Scoped, Scoped, boxProgram, sitesOfBlock, Stmt.sites, sitesOfMethods, Function.sites,
      Expr.Uses, Expr.entities, standardLibrary, box, boxed]
  · decide +kernel
  · decide +kernel

end Snack.Script
