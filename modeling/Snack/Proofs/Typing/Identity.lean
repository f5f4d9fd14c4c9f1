import Snack.Proofs.Typing.Closed

/-! An entity is the same wherever it occurs: every use of it in a program that is accepted has the kind,
name and type it has where it is declared. -/

namespace Snack.Typing

open Snack.Core

/-- Every statement obeys the rules with the members that classes have in the end, and the entities in it
have the types that they have in the end: one number stands for one entity throughout. -/
theorem analyze_wellTyped {tree : Tree.Program} {program : Program} {st : State}
    (h : analyze tree = (.ok program, st)) :
    (∀ s ∈ program.statements, WellTyped st.membersOf none (.stmt s)) ∧
    ∀ d ∈ standardLibrary ++ program.entities, ∀ e ∈ standardLibrary ++ program.entities,
      d.id = e.id → d = e := by
  refine ⟨((accepts_of_analyze h).sound Sound.initial trivial).2 (.refl _ st), ?_⟩
  obtain ⟨hs, hhides⟩ := hides_of_analyze h
  have hfresh := fresh_standardLibrary.append hhides.fresh (Nat.zero_le _) (Nat.le_add_right _ _)
  -- what occurs is known at the start, declared, or left out of a class
  have hmem : ∀ e ∈ standardLibrary ++ program.entities,
      e ∈ standardLibrary ++ (program.declared ++ hs.map (·.entity)) := by
    refine List.forall_mem_append.2 ⟨fun e he => List.mem_append_left _ he, ?_⟩
    refine entities_of_scopedBlock (fun _ _ x hx => ?_) (fun x hx => List.mem_append_left _ hx) _
      (hhides.uses (fun _ hmem => reaches_hiddenIn hmem) .start) fun x hx => ?_
    · exact List.mem_append_right _ (List.mem_append_right _ (mem_of_mem_hiddenIn hx))
    · exact List.mem_append_right _ (List.mem_append_left _ hx)
  intro d hd e he hid
  exact hfresh.eq_of_id (hmem d hd) (hmem e he) hid

/-- A class with a field and a method, and a call of the method of a new object. -/
def lampTree : Tree.Program :=
  [.classDecl ⟨1, 1⟩ "Lamp"
     [.varDecl ⟨2, 3⟩ (some (.named ⟨2, 3⟩ "bool")) "on" none,
      .function ⟨3, 3⟩ "flipped" none (some (.named ⟨3, 14⟩ "bool"))
        [.ret ⟨4, 5⟩ (some (.unary ⟨4, 8⟩ .not (.member ⟨4, 9⟩ (.var ⟨4, 9⟩ "self") (some .direct) (some "on"))))]],
   .print ⟨5, 1⟩
     [.call ⟨5, 4⟩
       (.member ⟨5, 4⟩ (.call ⟨5, 4⟩ (.var ⟨5, 4⟩ "Lamp") (some [.var ⟨5, 9⟩ "TRUE"])) (some .direct)
         (some "flipped"))
       (some [])]]

def lamp : Entity := ⟨14, .classDef, "Lamp", .struct ⟨14, "Lamp"⟩⟩

def lampProgram : Program where
  statements :=
    [.classDecl lamp [⟨"on", .bool⟩]
       [.mk ⟨15, .function true, "flipped", .function [] .bool⟩ []
         [.ret (some (.unary .not (.member (.ref lamp) .direct "on" .bool) .bool)) ⟨4, 5⟩] ⟨3, 3⟩] ⟨1, 1⟩,
     .print
       [.call (.member (.construct lamp [.ref ⟨12, .constant, "TRUE", .bool⟩]) .direct "flipped"
         (.function [] .bool)) [] .bool] ⟨5, 1⟩]

theorem analyze_wellTyped_lamp :
    (analyze lampTree).1 = .ok lampProgram ∧
    (∀ s ∈ lampProgram.statements, WellTyped (analyze lampTree).2.membersOf none (.stmt s)) ∧
    ∀ d ∈ standardLibrary ++ lampProgram.entities, ∀ e ∈ standardLibrary ++ lampProgram.entities,
      d.id = e.id → d = e :=
  have h : (analyze lampTree).1 = .ok lampProgram := by rfl
  ⟨h, analyze_wellTyped (Prod.ext h rfl)⟩

end Snack.Typing
