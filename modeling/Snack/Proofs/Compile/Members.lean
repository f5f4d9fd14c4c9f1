import Snack.Proofs.Compile.Indented
import Snack.Proofs.Script.Members
import Snack.Proofs.Simplify.Nodes
import Snack.Proofs.Typing.Members
import Snack.Proofs.Typing.Nodes

/-! The members of the classes of a script. The methods of a class have names of their own, but the constructor
that the script adds is one more member. Its name is that of a method if one is called `constructor`. -/

namespace Snack.Compile

open Snack.Core Snack.Typing

/-- A class of an accepted program has fields of distinct names and methods of distinct names. -/
theorem distinct_of_analyze {tree : Tree.Program} {p : Program} {st : State}
    (h : Typing.analyze tree = (.ok p, st)) {fs : List Frame} {c : Entity} {fields : List Field}
    {ms : List Function} {pos : Pos} (hx : (⟨fs, .stmt (.classDecl c fields ms pos)⟩ : Placed) ∈ p.nodes) :
    (fields.map (·.name)).Nodup ∧ (ms.map (·.entity.name)).Nodup := by
  have hdistinct : DistinctMembers st := (accepts_of_analyze h).distinctMembers .initial
  obtain ⟨r, hwell⟩ := wellTyped_of_analyze h _ hx
  cases hwell with
  | classDecl _ _ hf _ hms _ _ =>
    have hnames : ms.map (·.entity.name) = (st.membersOf c.id).methods.map (·.name) := by
      rw [← hms, List.map_map]
      rfl
    exact ⟨hf ▸ hdistinct.fields c.id, hnames ▸ hdistinct.methods c.id⟩

/-- Simplification keeps the names of methods. -/
theorem names_functions (ms : List Function) :
    (Simplify.functions ms).map (·.entity.name) = ms.map (·.entity.name) := by
  rw [Simplify.functions_eq_map, List.map_map]
  refine List.map_congr_left fun f _ => ?_
  cases f
  rfl

/-- Each class of an accepted program, simplified or not, is written out at any depth. The member names in its
text are distinct exactly if none of its methods is called `constructor`, and the parameters of the constructor
always are. -/
theorem member_names_distinct_unless_constructor {source : String} {tree : Tree.Program} {p : Program}
    {st : State} (hread : read source = .ok tree) (h : Typing.analyze tree = (.ok p, st)) {q : Program}
    (hq : q ∈ [p, Simplify.program p]) {fs : List Frame} {c : Entity} {fields : List Field} {ms : List Function}
    {pos : Pos} (hx : (⟨fs, .stmt (.classDecl c fields ms pos)⟩ : Placed) ∈ q.nodes) (m : Script.Mangling)
    (d : Nat) (s : Script.State) :
    ∃ s' new k ks, Script.stmt m d (.classDecl c fields ms pos) s = .ok () s' ∧
      s'.lines.toList = s.lines.toList ++ new ∧ Script.headsIn d new = k :: ks ∧
      Script.memberName k = "constructor" ∧ (Script.parametersOf k).Nodup ∧
      (((k :: ks).map Script.memberName).Nodup ↔ ∀ f ∈ ms, f.entity.name ≠ "constructor") := by
  have hwritten : q.Writable ∧ q.Spelled ∧ (fields.map (·.name)).Nodup ∧ (ms.map (·.entity.name)).Nodup := by
    simp only [List.mem_cons, List.not_mem_nil, or_false] at hq
    rcases hq with rfl | rfl
    · obtain ⟨hwritable, hspelled⟩ := written_of_analyze hread (congrArg Prod.fst h) ⟨false, .byEntity⟩
      exact ⟨hwritable, hspelled, distinct_of_analyze h hx⟩
    · obtain ⟨hwritable, hspelled⟩ := written_of_analyze hread (congrArg Prod.fst h) ⟨true, .byEntity⟩
      obtain ⟨⟨gs, n⟩, hy, hstems⟩ := Simplify.stemNodes_program p _ hx
      obtain ⟨ms', hn, rfl⟩ := hstems.cls c fields ms pos rfl
      obtain rfl : n = _ := hn
      obtain ⟨hfields, hmethods⟩ := distinct_of_analyze h hy
      exact ⟨hwritable, hspelled, hfields, (names_functions ms').symm ▸ hmethods⟩
  obtain ⟨hwritable, hspelled, hfields, hmethods⟩ := hwritten
  have hemits := Script.emits_node (U := fun _ => True) (m := m) (forall_nodes_built hwritable _ hx)
    (fun _ _ _ => trivial) d s
  cases hrun : Script.stmt m d (.classDecl c fields ms pos) s with
  | error e s' =>
    rw [hrun] at hemits
    exact hemits.elim
  | ok u s' =>
    cases forall_nodes_built hspelled _ hx with
    | classDecl _ hwf hwm =>
      have hwords : ∀ f ∈ ms, Token.Word f.entity.name := by
        intro f hf
        cases hwm f hf with
        | body hw => exact hw
      obtain ⟨new, hlines, k, ks, hheads, hname, hparams, hnames⟩ :=
        Script.heads_classDecl (d := d) (m := m) (c := c) pos hwf hwords s u s' hrun
      refine ⟨s', new, k, ks, rfl, hlines, hheads, hname, hparams ▸ hfields.filter _, ?_⟩
      rw [List.map_cons, hname, hnames, List.nodup_cons, and_iff_left hmethods]
      simp

/-! ### A class with one method -/

def memberTokens (name : String) (col : Nat) : List Token :=
  [⟨.keyword, "🫙", ⟨1, 1⟩⟩, ⟨.ident, "P", ⟨1, 3⟩⟩, ⟨.op, ":", ⟨1, 4⟩⟩, ⟨.keyword, "🍳", ⟨1, 6⟩⟩,
    ⟨.ident, "x", ⟨1, 8⟩⟩, ⟨.keyword, "🥘", ⟨1, 10⟩⟩, ⟨.ident, name, ⟨1, 12⟩⟩, ⟨.op, ":", ⟨1, col⟩⟩,
    ⟨.keyword, "🍽", ⟨2, 1⟩⟩, ⟨.keyword, "🥗", ⟨2, 3⟩⟩, ⟨.op, ";", ⟨2, 5⟩⟩, ⟨.op, ";", ⟨2, 7⟩⟩, .endAt ⟨2, 8⟩]

def memberTree (name : String) : Tree.Program :=
  [.classDecl ⟨1, 1⟩ "P" [.varDecl ⟨1, 6⟩ none "x" none,
    .function ⟨1, 10⟩ name none none [.print ⟨2, 1⟩ [.bool ⟨2, 3⟩ true]]]]

def memberMethod (name : String) : Function :=
  .mk ⟨15, .function true, name, .function [] .void⟩ [] [.print [.bool true] ⟨2, 1⟩] ⟨1, 10⟩

def memberClass (name : String) : Stmt :=
  .classDecl ⟨14, .classDef, "P", .struct ⟨14, "P"⟩⟩ [⟨"x", .any⟩] [memberMethod name] ⟨1, 1⟩

/-- A method of another name is no second constructor. -/
theorem member_names_distinct_unless_constructor_plain :
    read "🫙 P: 🍳 x 🥘 f:\n🍽 🥗 ; ;" = .ok (memberTree "f") ∧
      ∃ s' new k ks, Script.stmt .byEntity 0 (memberClass "f") ⟨[], #[]⟩ = .ok () s' ∧
        s'.lines.toList = [] ++ new ∧ Script.headsIn 0 new = k :: ks ∧ Script.memberName k = "constructor" ∧
        (Script.parametersOf k).Nodup ∧
        (((k :: ks).map Script.memberName).Nodup ↔ ∀ f ∈ [memberMethod "f"], f.entity.name ≠ "constructor") := by
  have hscan : Token.scan "🫙 P: 🍳 x 🥘 f:\n🍽 🥗 ; ;" = .ok (memberTokens "f" 13) := rfl
  have hrun : Parser.run (memberTokens "f" 13) = .ok (memberTree "f") := by cbv
  have hread := read_ok.2 ⟨_, hscan, hrun⟩
  have hanalyze :
      Typing.analyze (memberTree "f") = (.ok ⟨[memberClass "f"]⟩, (Typing.analyze (memberTree "f")).2) := rfl
  exact ⟨hread, member_names_distinct_unless_constructor hread hanalyze List.mem_cons_self List.mem_cons_self
    .byEntity 0 ⟨[], #[]⟩⟩

/-- A method that is called `constructor` gives its class two members of that name. -/
theorem constructor_written_twice :
    read "🫙 P: 🍳 x 🥘 constructor:\n🍽 🥗 ; ;" = .ok (memberTree "constructor") ∧
      (Typing.analyze (memberTree "constructor")).1 = .ok ⟨[memberClass "constructor"]⟩ ∧
      Script.generate .byEntity ⟨[memberClass "constructor"]⟩ =
        .ok ("class P_1 \x7b\n  constructor(x) \x7b\n    this.x = x;\n  \x7d\n" ++
          "  constructor() \x7b\n    console.log(true);\n  \x7d\n\x7d") ∧
      (Script.headsIn 0 (Script.run .byEntity ⟨[memberClass "constructor"]⟩).2.lines.toList).map
        Script.memberName = ["constructor", "constructor"] := by
  have hscan : Token.scan "🫙 P: 🍳 x 🥘 constructor:\n🍽 🥗 ; ;" = .ok (memberTokens "constructor" 23) := rfl
  have hrun : Parser.run (memberTokens "constructor" 23) = .ok (memberTree "constructor") := by cbv
  exact ⟨read_ok.2 ⟨_, hscan, hrun⟩, rfl, rfl, rfl⟩

end Snack.Compile
