import Snack.Compile.Basic
import Snack.Proofs.Parser.Spans
import Snack.Proofs.Script.Names
import Snack.Proofs.Simplify.Writable
import Snack.Proofs.Typing.Reports

/-! How a compilation ends. Whether it fails and how is decided when the source text has been read and
analysed, and every failure is one that is told of the text. What comes behind the analysis, simplifying
and writing out, always succeeds. -/

namespace Snack

/-- A failure that is told of a source text: it cannot be read, it is no program, or it breaks a rule. -/
def Failure.IsReport : Failure → Prop
  | .token _ => True
  | .parse e => e.cause ≠ .exhausted
  | .typing e => e.cause.IsReport
  | .dump _ | .script _ => False

namespace Compile

/-- The tree of a source text. -/
def read (source : String) : Except Failure Tree.Program :=
  match Token.scan source with
  | .error e => .error (.token e)
  | .ok tokens => (Parser.run tokens).mapError .parse

theorem read_ok {source : String} {tree : Tree.Program} :
    read source = .ok tree ↔ ∃ tokens, Token.scan source = .ok tokens ∧ Parser.run tokens = .ok tree := by
  unfold read
  cases Token.scan source with
  | error e => simp
  | ok tokens => cases hr : Parser.run tokens <;> simp [hr, Except.mapError]

/-- What the source text decides: it is read and, unless the compilation ends before that, analysed. -/
def verdict (stopAt : Option Phase) (source : String) : Except Failure Unit :=
  match read source with
  | .error e => .error e
  | .ok tree =>
    if stopAt = some .parse then .ok ()
    else ((Typing.analyze tree).1.map fun _ => ()).mapError .typing

/-! ### Runs -/

/-- Whatever was logged before, the run gives a value with the property. -/
def Succeeds {α : Type} (x : Run α) (Q : α → Prop) : Prop :=
  ∀ log, Leaves (fun a _ => Q a) (fun _ => False) (x log)

/-- Whatever was logged before, the run fails with `e`. -/
def Fails {α : Type} (x : Run α) (e : Failure) : Prop :=
  ∀ log, Leaves (fun _ _ => False) (· = e) (x log)

section Runs

variable {ε α β : Type} {x : Run α} {f : α → Run β} {Q : α → Prop} {R : β → Prop} {e : Failure}

theorem Succeeds.pure {a : α} (h : Q a) : Succeeds (pure a) Q := fun _ => h

theorem Succeeds.bind (hx : Succeeds x Q) (hf : ∀ a, Q a → Succeeds (f a) R) : Succeeds (x >>= f) R :=
  fun log => leaves_bind (hx log) fun a log₁ ha => hf a ha log₁

theorem Succeeds.ite {c : Prop} [Decidable c] {y : Run α} (hx : Succeeds x Q) (hy : Succeeds y Q) :
    Succeeds (if c then x else y) Q := by
  split
  · exact hx
  · exact hy

/-- A run that fails behind another one. -/
theorem Succeeds.fails (hx : Succeeds x Q) (hf : ∀ a, Q a → Fails (f a) e) : Fails (x >>= f) e :=
  fun log => leaves_bind (leaves_imp (hx log) (fun _ _ h => h) fun _ h => h.elim) fun a log₁ ha =>
    hf a ha log₁

theorem Fails.bind (hx : Fails x e) : Fails (x >>= f) e :=
  fun log => leaves_bind (hx log) fun _ _ h => h.elim

theorem succeeds_note (events : List Event) : Succeeds (note events) fun _ => True := fun _ => trivial

theorem succeeds_liftExcept {failure : ε → Failure} {r : Except ε α} {a : α} (h : r = .ok a) :
    Succeeds (liftExcept failure r) (· = a) := by
  subst h
  exact .pure rfl

theorem fails_liftExcept {failure : ε → Failure} {r : Except ε α} {d : ε} (h : r = .error d) :
    Fails (liftExcept failure r) (failure d) := by
  subst h
  exact fun _ => rfl

theorem Succeeds.exists (h : Succeeds x Q) (log : List Event) : ∃ a log', x log = .ok a log' := by
  have hrun := h log
  cases hx : x log with
  | ok a log' => exact ⟨a, log', rfl⟩
  | error e log' =>
    rw [hx] at hrun
    exact hrun.elim

theorem Fails.exists (h : Fails x e) (log : List Event) : ∃ log', x log = .error e log' := by
  have hrun := h log
  cases hx : x log with
  | ok a log' =>
    rw [hx] at hrun
    exact hrun.elim
  | error d log' =>
    rw [hx] at hrun
    exact ⟨log', by rw [show d = e from hrun]⟩

end Runs

/-! ### Phases -/

/-- Reading gives a formed tree or a report. -/
theorem parse_of_read (source : String) :
    match read source with
    | .ok tree => (∀ t ∈ tree, t.Formed) ∧ Succeeds (parse source) (· = tree)
    | .error e => e.IsReport ∧ Fails (parse source) e := by
  unfold read parse
  cases hs : Token.scan source with
  | error e => exact ⟨trivial, (fails_liftExcept rfl).bind⟩
  | ok tokens =>
    dsimp only
    cases hp : Parser.run tokens with
    | ok tree =>
      obtain ⟨-, -, -, -, -, hsound⟩ := Parser.read_of_run hs hp
      refine ⟨(Tree.sound_block hsound).2.1, (succeeds_liftExcept rfl).bind fun ts hts => ?_⟩
      subst hts
      exact (succeeds_note _).bind fun _ _ => succeeds_liftExcept hp
    | error e =>
      refine ⟨Parser.cause_of_run hs hp, (succeeds_liftExcept rfl).fails fun ts hts => ?_⟩
      subst hts
      exact (succeeds_note _).fails fun _ _ => fails_liftExcept hp

/-- Analysing a formed tree gives a program that can be written out, or a report. -/
theorem analyze_of_formed {tree : Tree.Program} (h : ∀ t ∈ tree, t.Formed) :
    match (Typing.analyze tree).1 with
    | .ok p => p.Writable ∧ (Simplify.program p).Writable ∧ Succeeds (analyze tree) (· = p)
    | .error e => e.cause.IsReport ∧ Fails (analyze tree) (.typing e) := by
  have hreports := Typing.reports_analyze h
  cases ha : Typing.analyze tree with
  | mk result st =>
    rw [ha] at hreports
    unfold analyze
    rw [ha]
    cases result with
    | error e => exact ⟨hreports e rfl, (succeeds_note _).fails fun _ _ => (fails_liftExcept rfl).bind⟩
    | ok p =>
      obtain ⟨hp, hs⟩ := Simplify.writable_of_analyze ha
      refine ⟨hp, hs, (succeeds_note _).bind fun _ _ => (succeeds_liftExcept rfl).bind fun q hq => ?_⟩
      exact (succeeds_note _).bind fun _ _ => .pure hq

theorem succeeds_simplify (p : Core.Program) : Succeeds (simplify p) (· = Simplify.program p) :=
  (succeeds_note _).bind fun _ _ => (succeeds_note _).bind fun _ _ => .pure rfl

theorem succeeds_dump {p : Core.Program} (h : p.Writable) : Succeeds (dump p) fun _ => True := by
  obtain ⟨json, hjson⟩ := h.dumps
  exact (succeeds_liftExcept hjson).bind fun _ _ => .pure trivial

theorem succeeds_generate {p : Core.Program} (h : p.Writable) (m : Script.Mangling) :
    Succeeds (generate m p) fun _ => True := by
  have hrun : (Script.run m p).1 = .ok () :=
    (Script.run_of_writable (U := fun _ => True) h fun _ _ _ => trivial).1
  exact (succeeds_note _).bind fun _ _ => (succeeds_liftExcept hrun).bind fun _ _ =>
    (succeeds_note _).bind fun _ _ => .pure trivial

/-- Behind the analysis nothing fails. -/
theorem succeeds_end {p : Core.Program}
    (hp : p.Writable) (stopAt : Option Phase) (m : Script.Mangling) :
    Succeeds (if stopAt = some .optimize then dump p else generate m p) fun _ => True :=
  .ite (succeeds_dump hp) (succeeds_generate hp m)

/-! ### Compilations -/

/-- A compilation ends as the source text decides, and a failure is a report. -/
theorem run_of_verdict (stopAt : Option Phase) (settings : Settings) (source : String) :
    match verdict stopAt source with
    | .ok _ => Succeeds (run stopAt settings source) fun _ => True
    | .error e => e.IsReport ∧ Fails (run stopAt settings source) e := by
  have hparse := parse_of_read source
  unfold verdict run
  cases hr : read source with
  | error e =>
    rw [hr] at hparse
    exact ⟨hparse.1, hparse.2.bind⟩
  | ok tree =>
    rw [hr] at hparse
    obtain ⟨hformed, hparse⟩ := hparse
    by_cases hstop : stopAt = some .parse
    · simp only [hstop, if_pos]
      exact hparse.bind fun _ _ => .pure trivial
    · have hanalyze := analyze_of_formed hformed
      simp only [hstop, if_false]
      cases ha : (Typing.analyze tree).1 with
      | error e =>
        rw [ha] at hanalyze
        refine ⟨hanalyze.1, hparse.fails fun t ht => ?_⟩
        subst ht
        exact hanalyze.2.bind
      | ok p =>
        rw [ha] at hanalyze
        obtain ⟨hp, hs, hrun⟩ := hanalyze
        refine hparse.bind fun t ht => ?_
        subst ht
        refine hrun.bind fun q hq => ?_
        subst hq
        refine .ite (succeeds_dump hp) ?_
        split
        · refine (succeeds_simplify q).bind fun r hr => ?_
          subst hr
          exact succeeds_end hs _ _
        · exact succeeds_end hp _ _

/-- However it is set and wherever it stops, a compilation gives a text or a report on the source text, and
which of the two the source text alone decides. -/
theorem gives_text_or_report (settings : Settings) (source : String) :
    (∀ stopAt log, match verdict stopAt source with
      | .ok _ => ∃ text log', run stopAt settings source log = .ok text log'
      | .error e => e.IsReport ∧ ∃ log', run stopAt settings source log = .error e log') ∧
    match verdict none source with
    | .ok _ => ∃ text, compile settings source = .ok text
    | .error e => e.IsReport ∧ compile settings source = .error e := by
  constructor
  · intro stopAt log
    have hrun := run_of_verdict stopAt settings source
    cases hv : verdict stopAt source with
    | ok _ =>
      rw [hv] at hrun
      exact hrun.exists log
    | error e =>
      rw [hv] at hrun
      exact ⟨hrun.1, hrun.2.exists log⟩
  · have hrun := run_of_verdict none settings source
    unfold compile
    cases hv : verdict none source with
    | ok _ =>
      rw [hv] at hrun
      obtain ⟨text, log, htext⟩ := hrun.exists []
      rw [htext]
      exact ⟨text, rfl⟩
    | error e =>
      rw [hv] at hrun
      obtain ⟨log, herror⟩ := hrun.2.exists []
      rw [herror]
      exact ⟨hrun.1, rfl⟩

end Compile

end Snack
