import Snack.Proofs.Compile.Outcome
import Snack.Proofs.Json.Keys

/-! Dumps are texts of the data format. Reading one gives what was dumped, with its fields in their order;
only floats that are not finite come back as their names. -/

namespace Snack.Compile

open Numeral (Decimal)

/-- What a phase has to dump. The optimizer passes the program on as it is if it is off. -/
inductive Shows (settings : Settings) (source : String) : Phase → Json → Prop where
  | parse {tree} (hread : read source = .ok tree) : Shows settings source .parse tree.toJson
  | analyze {tree p j} (hread : read source = .ok tree) (htyped : (Typing.analyze tree).1 = .ok p)
      (hdump : p.dump = .ok j) : Shows settings source .analyze j
  | optimize {tree p j} (hread : read source = .ok tree) (htyped : (Typing.analyze tree).1 = .ok p)
      (hdump : (if (settings.adjusted source).optimize then Simplify.program p else p).dump = .ok j) :
      Shows settings source .optimize j

variable {settings : Settings} {source : String} {phase : Phase} {j : Json}

theorem Shows.distinct (h : Shows settings source phase j) : j.Distinct := by
  cases h with
  | parse => exact Tree.Program.distinct _
  | analyze _ _ hdump => exact Core.Program.gives_dump _ _ hdump
  | optimize _ _ hdump => exact Core.Program.gives_dump _ _ hdump

theorem succeeds_dump_of_ok {p : Core.Program} (h : p.dump = .ok j) : Succeeds (dump p) (· = j.text) :=
  (succeeds_liftExcept h).bind fun _ hj => .pure (by rw [hj])

/-- The phases up to the analysis of a text that is read and typed. -/
theorem succeeds_typed {tree : Tree.Program} {p : Core.Program} (hread : read source = .ok tree)
    (htyped : (Typing.analyze tree).1 = .ok p) : p.Writable ∧ (Simplify.program p).Writable ∧
      Succeeds (parse source) (· = tree) ∧ Succeeds (analyze tree) (· = p) := by
  have hparse := parse_of_read source
  rw [hread] at hparse
  have hanalyze := analyze_of_formed hparse.1
  rw [htyped] at hanalyze
  exact ⟨hanalyze.1, hanalyze.2.1, hparse.2, hanalyze.2.2⟩

/-- The dump of a phase is the text of what it has to dump. -/
theorem Shows.succeeds (h : Shows settings source phase j) :
    Succeeds (run (some phase) settings source) (· = j.text) := by
  unfold run
  cases h with
  | parse hread =>
    have hparse := parse_of_read source
    rw [hread] at hparse
    refine hparse.2.bind fun t ht => ?_
    subst ht
    rw [if_pos rfl]
    exact .pure rfl
  | analyze hread htyped hdump =>
    obtain ⟨-, -, hparse, hanalyze⟩ := succeeds_typed hread htyped
    refine hparse.bind fun t ht => ?_
    subst ht
    rw [if_neg (by decide)]
    refine hanalyze.bind fun q hq => ?_
    subst hq
    rw [if_pos rfl]
    exact succeeds_dump_of_ok hdump
  | @optimize _ p _ hread htyped hdump =>
    obtain ⟨-, -, hparse, hanalyze⟩ := succeeds_typed hread htyped
    refine hparse.bind fun t ht => ?_
    subst ht
    rw [if_neg (by decide)]
    refine hanalyze.bind fun q hq => ?_
    subst hq
    rw [if_neg (by decide)]
    simp only [if_true]
    -- the settings that count are those that the source text has adjusted
    split
    · next hopt =>
      rw [if_pos hopt] at hdump
      refine (succeeds_simplify q).bind fun r hr => ?_
      subst hr
      exact succeeds_dump_of_ok hdump
    · next hopt =>
      rw [if_neg hopt] at hdump
      exact succeeds_dump_of_ok hdump

/-- A phase that a source text gets to has something to dump. -/
theorem exists_shows (settings : Settings) (h : verdict (some phase) source = .ok ()) :
    ∃ j, Shows settings source phase j := by
  unfold verdict at h
  cases hread : read source with
  | error e =>
    rw [hread] at h
    cases h
  | ok tree =>
    rw [hread] at h
    by_cases hphase : phase = .parse
    · subst hphase
      exact ⟨_, .parse hread⟩
    · dsimp only at h
      rw [if_neg (by simpa using hphase)] at h
      cases htyped : (Typing.analyze tree).1 with
      | error e =>
        rw [htyped] at h
        cases h
      | ok p =>
        obtain ⟨hp, hs, -⟩ := succeeds_typed hread htyped
        cases phase with
        | parse => exact absurd rfl hphase
        | analyze =>
          obtain ⟨j, hj⟩ := hp.dumps
          exact ⟨j, .analyze hread htyped hj⟩
        | optimize =>
          have hwritable : (if (settings.adjusted source).optimize then Simplify.program p else p).Writable := by
            split
            · exact hs
            · exact hp
          obtain ⟨j, hj⟩ := hwritable.dumps
          exact ⟨j, .optimize hread htyped hj⟩

theorem Succeeds.exists_of_eq {α : Type} {x : Run α} {a : α} (h : Succeeds x (· = a)) (log : List Event) :
    ∃ log', x log = .ok a log' := by
  have hrun := h log
  obtain ⟨b, log', hx⟩ := h.exists log
  rw [hx] at hrun
  exact ⟨log', hx.trans (by rw [show b = a from hrun])⟩

/-- A value of distinct keys is read back from its text as it was, if its floats are finite. However a
compilation is set, a phase that the source text gets to has something to dump. Its dump is a text of the
data format, from which it is read back, and floats that are not finite are read back as their names. -/
theorem dumps_read_back :
    (∀ j : Json, j.Plain → Json.IsText j.text.toList ∧ Json.read j.text = some j) ∧
    ∀ settings source phase, verdict (some phase) source = .ok () →
      ∃ j, Shows settings source phase j ∧
        (∀ log, ∃ log', run (some phase) settings source log = .ok j.text log') ∧
        Json.IsText j.text.toList ∧ Json.read j.text = some j.asRead ∧ j.asRead.Plain := by
  constructor
  · intro j hj
    have hread := Json.read_text hj.distinct
    exact ⟨Json.isText_of_read hread, hread.trans (by rw [hj.asRead_eq])⟩
  · intro settings source phase h
    obtain ⟨j, hj⟩ := exists_shows settings h
    have hread := Json.read_text hj.distinct
    exact ⟨j, hj, hj.succeeds.exists_of_eq, Json.isText_of_read hread, hread, hj.distinct.plain_asRead⟩

/-- A number too large for a float, printed. -/
def overflowTree : Tree.Program := [.print ⟨1, 1⟩ [.num ⟨1, 3⟩ "1e9999"]]

def overflowProgram : Core.Program := ⟨[.print [.float (Decimal.toFloat ⟨1, 9999⟩)] ⟨1, 1⟩]⟩

/-- What is dumped of the program if a float is dumped that way. -/
def overflowDump (value : Json) : Json :=
  Core.node "Program" [("statements", .arr [Core.node "PrintStatement"
    [("expressions", .arr [Core.node "FloatLiteral" [("value", value)]]), ("loc", Core.dumpPos ⟨1, 1⟩)]])]

theorem read_overflow : read "🍽 1e9999" = .ok overflowTree := by
  have hscan : Token.scan "🍽 1e9999" =
    .ok [⟨.keyword, "🍽", ⟨1, 1⟩⟩, ⟨.number, "1e9999", ⟨1, 3⟩⟩, .endAt ⟨1, 9⟩] := rfl
  exact read_ok.2 ⟨_, hscan, rfl⟩

theorem typed_overflow : (Typing.analyze overflowTree).1 = .ok overflowProgram := rfl

/-- Strings with a quote, a line break and a control character, and a number too large for a float. -/
theorem dumps_read_back_overflow :
    let j : Json := .obj [("a\"b", .arr [.null, .int (-3), .str "\n\x01", .arr []]), ("c", .obj [])]
    (j.Plain ∧ Json.read j.text = some j) ∧ verdict (some .analyze) "🍽 1e9999" = .ok () ∧
      ∃ dump, Shows ⟨true, .byEntity⟩ "🍽 1e9999" .analyze dump ∧
        Json.read dump.text = some (overflowDump (.str "Infinity")) := by
  intro j
  have hplain : j.Plain := by
    have hitems : ∀ i ∈ [Json.null, .int (-3), .str "\n\x01", .arr []], i.Plain := by
      simp [Json.Plain.null, Json.Plain.int, Json.Plain.str, Json.Plain.arr]
    refine .obj (by simp) ?_
    simp [Json.Plain.arr hitems, Json.Plain.obj]
  have hverdict : verdict (some .analyze) "🍽 1e9999" = .ok () := by
    unfold verdict
    rw [read_overflow]
    show ((Typing.analyze overflowTree).1.map fun _ => ()).mapError Failure.typing = _
    rw [typed_overflow]
    rfl
  obtain ⟨dump, hshows, -, -, hdump, -⟩ := dumps_read_back.2 ⟨true, .byEntity⟩ "🍽 1e9999" .analyze hverdict
  refine ⟨⟨hplain, (dumps_read_back.1 j hplain).2⟩, hverdict, dump, hshows, ?_⟩
  cases hshows with
  | analyze hread htyped hj =>
    obtain rfl := Except.ok.inj (read_overflow.symm.trans hread)
    obtain rfl := Except.ok.inj (typed_overflow.symm.trans htyped)
    have hdump' : overflowProgram.dump = .ok (overflowDump (.float (Decimal.toFloat ⟨1, 9999⟩))) := rfl
    obtain rfl := Except.ok.inj (hdump'.symm.trans hj)
    have hinf : Json.ofFloat (Decimal.toFloat ⟨1, 9999⟩) = .str "Infinity" := rfl
    rw [hdump, ← hinf]
    rfl

end Snack.Compile
