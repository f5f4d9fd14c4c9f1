import Snack.Proofs.Compile.Outcome
import Snack.Proofs.Simplify.Nodes
import Snack.Proofs.Simplify.Refs
import Snack.Proofs.Typing.Receivers

/-! Where the script speaks of the object at hand. It writes `this` for a class that stands as a value, and the
innermost body around decides what that is. Each one stands in a method of the class, but where a function
lies between the two `this` is not the object of the method. -/

namespace Snack.Compile

open Snack.Core Snack.Typing

/-- The class whose object `this` is in the innermost of some bodies. A function that is no method has none. -/
def receiverIn : List Frame → Option Entity
  | [] => none
  | f :: _ => f.cls

theorem receiverIn_append {inner rest : List Frame} {c g : Entity} (h : ∀ f ∈ inner, f.cls = none) :
    receiverIn (inner ++ ⟨some c, g⟩ :: rest) = some c ↔ inner = [] := by
  cases inner with
  | nil => simp [receiverIn]
  | cons f fs => simp [receiverIn, (List.forall_mem_cons.1 h).1]

theorem expr_classDef {c : Entity} (hk : c.kind = .classDef) (m : Script.Mangling) (d : Nat) (s : Script.State) :
    Script.expr m d (.ref c) s = .ok "this" s := by
  obtain ⟨id, kind, name, typ⟩ := c
  obtain rfl : kind = .classDef := hk
  rfl

/-- Each class that stands as a value in an accepted program, simplified or not, is written `this` and lies in
a method of the class with nothing but functions between, and `this` is right exactly if there are none. -/
theorem receivers_lie_in_methods {tree : Tree.Program} {p : Program} {st : State}
    (h : Typing.analyze tree = (.ok p, st)) {q : Program} (hq : q ∈ [p, Simplify.program p]) {x : Placed}
    (hx : x ∈ q.nodes) {e : Expr} (he : e ∈ exprsOf x.node) {c : Entity} (hc : .ref c ∈ e.parts)
    (hk : c.kind = .classDef) :
    (∀ m d s, Script.expr m d (.ref c) s = .ok "this" s) ∧
      ∃ inner g rest, x.frames = inner ++ ⟨some c, g⟩ :: rest ∧ (∀ f ∈ inner, f.cls = none) ∧
        (receiverIn x.frames = some c ↔ inner = []) := by
  have hhosted : e.RefsIn fun c => c.kind = .classDef → Hosted x.frames c := by
    simp only [List.mem_cons, List.not_mem_nil, or_false] at hq
    rcases hq with rfl | rfl
    · exact hosted_of_analyze h x hx e he
    · obtain ⟨y, hy, hstems⟩ := Simplify.stemNodes_program p x hx
      rw [hstems.exprs] at he
      obtain ⟨d, hd, rfl⟩ := List.mem_map.1 he
      rw [hstems.frames]
      exact Simplify.refsIn_expr d (hosted_of_analyze h y hy d hd)
  obtain ⟨inner, g, rest, hframes, hinner⟩ := hhosted c hc hk
  refine ⟨expr_classDef hk, inner, g, rest, hframes, hinner, ?_⟩
  rw [hframes]
  exact receiverIn_append hinner

/-! ### A method with a function in it -/

def printerSource : String := "🫙 C: 🥘 m: 🍽 self 🥘 g: 🍽 self ; g() ; ;"

def printerTokens : List Token :=
  [⟨.keyword, "🫙", ⟨1, 1⟩⟩, ⟨.ident, "C", ⟨1, 3⟩⟩, ⟨.op, ":", ⟨1, 4⟩⟩, ⟨.keyword, "🥘", ⟨1, 6⟩⟩,
    ⟨.ident, "m", ⟨1, 8⟩⟩, ⟨.op, ":", ⟨1, 9⟩⟩, ⟨.keyword, "🍽", ⟨1, 11⟩⟩, ⟨.ident, "self", ⟨1, 13⟩⟩,
    ⟨.keyword, "🥘", ⟨1, 18⟩⟩, ⟨.ident, "g", ⟨1, 20⟩⟩, ⟨.op, ":", ⟨1, 21⟩⟩, ⟨.keyword, "🍽", ⟨1, 23⟩⟩,
    ⟨.ident, "self", ⟨1, 25⟩⟩, ⟨.op, ";", ⟨1, 30⟩⟩, ⟨.ident, "g", ⟨1, 32⟩⟩, ⟨.op, "(", ⟨1, 33⟩⟩,
    ⟨.op, ")", ⟨1, 34⟩⟩, ⟨.op, ";", ⟨1, 36⟩⟩, ⟨.op, ";", ⟨1, 38⟩⟩, .endAt ⟨1, 39⟩]

def printerTree : Tree.Program :=
  [.classDecl ⟨1, 1⟩ "C" [.function ⟨1, 6⟩ "m" none none
    [.print ⟨1, 11⟩ [.var ⟨1, 13⟩ "self"],
      .function ⟨1, 18⟩ "g" none none [.print ⟨1, 23⟩ [.var ⟨1, 25⟩ "self"]],
      .call ⟨1, 32⟩ (.var ⟨1, 32⟩ "g") (some [])]]]

def printerClass : Entity := ⟨14, .classDef, "C", .struct ⟨14, "C"⟩⟩

def printerMethod : Entity := ⟨15, .function true, "m", .function [] .void⟩

def printerFunction : Entity := ⟨16, .function false, "g", .function [] .void⟩

def printerProgram : Program :=
  ⟨[.classDecl printerClass [] [.mk printerMethod []
    [.print [.ref printerClass] ⟨1, 11⟩,
      .function (.mk printerFunction [] [.print [.ref printerClass] ⟨1, 23⟩] ⟨1, 18⟩) ⟨1, 18⟩,
      .call (.call (.ref printerFunction) [] .void) ⟨1, 32⟩] ⟨1, 6⟩] ⟨1, 1⟩]⟩

/-- What the method prints. -/
def printedInMethod : Placed :=
  ⟨[⟨some printerClass, printerMethod⟩], .stmt (.print [.ref printerClass] ⟨1, 11⟩)⟩

/-- What the function in it prints. -/
def printedInFunction : Placed :=
  ⟨[⟨none, printerFunction⟩, ⟨some printerClass, printerMethod⟩], .stmt (.print [.ref printerClass] ⟨1, 23⟩)⟩

/-- In the method itself `this` is its object. -/
theorem receivers_lie_in_methods_direct :
    printedInMethod ∈ (Simplify.program printerProgram).nodes ∧
      (∀ m d s, Script.expr m d (.ref printerClass) s = .ok "this" s) ∧
      ∃ inner g rest, printedInMethod.frames = inner ++ ⟨some printerClass, g⟩ :: rest ∧
        (∀ f ∈ inner, f.cls = none) ∧ (receiverIn printedInMethod.frames = some printerClass ↔ inner = []) := by
  have hanalyze : Typing.analyze printerTree = (.ok printerProgram, (Typing.analyze printerTree).2) := rfl
  have hnode : printedInMethod ∈ (Simplify.program printerProgram).nodes :=
    List.mem_cons_of_mem _ List.mem_cons_self
  exact ⟨hnode, receivers_lie_in_methods hanalyze (List.mem_cons_of_mem _ (List.mem_singleton_self _)) hnode
    List.mem_cons_self List.mem_cons_self rfl⟩

/-- In a function in the method the script writes `this` also, which is not its object there. -/
theorem receiver_in_function :
    read printerSource = .ok printerTree ∧ (Typing.analyze printerTree).1 = .ok printerProgram ∧
      printedInFunction ∈ printerProgram.nodes ∧ .ref printerClass ∈ exprsOf printedInFunction.node ∧
      receiverIn printedInFunction.frames = none ∧
      Script.generate .byEntity printerProgram =
        .ok ("class C_1 \x7b\n  constructor() \x7b\n  \x7d\n  m() \x7b\n    console.log(this);\n" ++
          "    function g_2() \x7b\n      console.log(this);\n    \x7d\n    g_2();\n  \x7d\n\x7d") := by
  have hscan : Token.scan printerSource = .ok printerTokens := rfl
  have hrun : Parser.run printerTokens = .ok printerTree := by cbv
  exact ⟨read_ok.2 ⟨_, hscan, hrun⟩, rfl, .tail _ (.tail _ (.tail _ (.head _))), List.mem_cons_self, rfl,
    rfl⟩

end Snack.Compile
