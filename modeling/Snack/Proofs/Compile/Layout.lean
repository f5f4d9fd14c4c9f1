import Snack.Proofs.Compile.Outcome
import Snack.Proofs.Core.Layout
import Snack.Proofs.Parser.Layout
import Snack.Proofs.Typing.Layout

/-! The layout of a source text has no part in its script. Where tokens stand is looked at in one place
only, behind a return, and where a comment stands only for the pragmas. Apart from that the places of
tokens end up in failures, and there in nothing but the place that is told. -/

namespace Snack

/-- A failure without the place where it shows. -/
def Failure.bare : Failure → Failure
  | .token e => .token ⟨e.cause, .unknown⟩
  | .parse e => .parse ⟨e.cause, .unknown⟩
  | .typing e => .typing ⟨e.cause, .unknown⟩
  | .dump e => .dump e
  | .script e => .script e

/-! ### Pragmas -/

/-- Pragmas change the settings by being there, in any order and any number. -/
theorem Pragma.foldl_apply (ps : List Pragma) (s : Settings) :
    ps.foldl apply s =
      ⟨s.optimize && !decide (noOptimize ∈ ps), if mangleByName ∈ ps then .byName else s.mangling⟩ := by
  induction ps generalizing s with
  | nil => simp
  | cons p ps ih =>
    rw [List.foldl_cons, ih]
    cases p <;> simp [apply]

theorem Settings.adjusted_congr {s₁ s₂ : String}
    (h : ∀ p, p ∈ Pragma.ofSource s₁ ↔ p ∈ Pragma.ofSource s₂) (s : Settings) :
    s.adjusted s₁ = s.adjusted s₂ := by
  simp only [adjusted, Pragma.foldl_apply, h]

namespace Compile

/-! ### A compilation without its log -/

/-- Whatever was logged before, the run ends with this result. -/
def Gives {α : Type} (x : Run α) (r : Except Failure α) : Prop :=
  ∀ log, Leaves (fun a _ => r = .ok a) (fun e => r = .error e) (x log)

section Results

variable {ε α β : Type} {x : Run α} {f : α → Run β} {r : Except Failure α} {g : α → Except Failure β}

theorem Gives.pure {a : α} : Gives (pure a) (.ok a) := fun _ => rfl

theorem Gives.bind (hx : Gives x r) (hf : ∀ a, Gives (f a) (g a)) : Gives (x >>= f) (r >>= g) := by
  intro log
  refine leaves_bind (Q := fun a _ => r = .ok a) ?_ fun a log₁ ha => ?_
  · refine leaves_imp (hx log) (fun _ _ h => h) fun e he => ?_
    rw [he]
    rfl
  · rw [ha]
    exact hf a log₁

/-- What is logged does not show in the result. -/
theorem Gives.note {events : List Event} (h : Gives x r) : Gives (note events >>= fun _ => x) r :=
  fun log => h (log ++ events)

theorem Gives.of_eq {r' : Except Failure α} (h : Gives x r) (hr : r = r') : Gives x r' := hr ▸ h

theorem gives_liftExcept (failure : ε → Failure) (r : Except ε α) :
    Gives (liftExcept failure r) (r.mapError failure) := by
  cases r with
  | ok a => exact .pure
  | error e => exact fun _ => rfl

end Results

theorem gives_parse (source : String) : Gives (parse source) (read source) := by
  refine .of_eq ((gives_liftExcept .token _).bind fun tokens => .note (gives_liftExcept .parse _)) ?_
  unfold read
  cases Token.scan source <;> rfl

theorem gives_analyze (tree : Tree.Program) :
    Gives (analyze tree) ((Typing.analyze tree).1.mapError .typing) := by
  unfold analyze
  cases Typing.analyze tree with
  | mk result st =>
    refine .note (.of_eq ((gives_liftExcept .typing result).bind fun p => .note .pure) ?_)
    cases result <;> rfl

theorem gives_simplify (p : Core.Program) : Gives (simplify p) (.ok (Simplify.program p)) :=
  .note (.note .pure)

theorem gives_generate (m : Script.Mangling) (p : Core.Program) :
    Gives (generate m p) ((Script.generate m p).mapError .script) := by
  unfold generate Script.generate
  cases Script.run m p with
  | mk result st =>
    refine .note (.of_eq ((gives_liftExcept .script result).bind fun _ => .note .pure) ?_)
    cases result <;> rfl

/-- The script of a typed program. -/
def script (settings : Settings) (p : Core.Program) : Except Failure String :=
  (Script.generate settings.mangling (if settings.optimize then Simplify.program p else p)).mapError .script

theorem gives_run (settings : Settings) (source : String) :
    Gives (run none settings source) (do
      let tree ← read source
      let program ← (Typing.analyze tree).1.mapError .typing
      script (settings.adjusted source) program) := by
  refine (gives_parse source).bind fun tree => (gives_analyze tree).bind fun p => ?_
  unfold script
  cases (settings.adjusted source).optimize with
  | true => exact (gives_simplify p).bind fun q => gives_generate _ q
  | false => exact gives_generate _ p

/-- A source text is read, analysed and written out. -/
theorem compile_eq (settings : Settings) (source : String) :
    compile settings source = (do
      let tree ← read source
      let program ← (Typing.analyze tree).1.mapError .typing
      script (settings.adjusted source) program) := by
  have hrun := gives_run settings source []
  unfold compile
  cases h : run none settings source [] with
  | ok text log =>
    rw [h] at hrun
    exact hrun.symm
  | error e log =>
    rw [h] at hrun
    exact hrun.symm

/-! ### Two layouts -/

theorem script_congr {p q : Core.Program} (h : p.bare = q.bare) (settings : Settings) :
    script settings p = script settings q := by
  have hsimplified : (Simplify.program p).bare = (Simplify.program q).bare := by
    rw [← Simplify.program_bare, h, Simplify.program_bare]
  unfold script
  split
  · rw [Script.generate_congr hsimplified]
  · rw [Script.generate_congr h]

/-- Two source texts of the same tokens and pragmas that agree, for every return, on whether the next token
is on its line have the same script, or fail in the same phase for the same cause at places of their own. -/
theorem same_script_of_alike {s₁ s₂ : String} {ts us : List Token}
    (h₁ : Token.scan s₁ = .ok ts) (h₂ : Token.scan s₂ = .ok us)
    (hlexemes : ts.map Token.lexeme = us.map Token.lexeme)
    (hreturns : Token.returnsInline ts = Token.returnsInline us)
    (hpragmas : ∀ p, p ∈ Pragma.ofSource s₁ ↔ p ∈ Pragma.ofSource s₂) (settings : Settings) :
    (compile settings s₁).mapError Failure.bare = (compile settings s₂).mapError Failure.bare := by
  have hread₁ : read s₁ = (Parser.run ts).mapError .parse := by rw [read, h₁]
  have hread₂ : read s₂ = (Parser.run us).mapError .parse := by rw [read, h₂]
  rw [compile_eq, compile_eq, hread₁, hread₂, Settings.adjusted_congr hpragmas]
  rcases (Parser.same_run ⟨hlexemes, hreturns⟩).cases with ⟨a, b, ha, hb, hab⟩ | ⟨e, d, he, hd, hed⟩
  · rw [ha, hb]
    show Except.mapError _ ((Typing.analyze a).1.mapError Failure.typing >>= _) =
      Except.mapError _ ((Typing.analyze b).1.mapError Failure.typing >>= _)
    rcases (Typing.same_analyze hab).cases with ⟨p, q, hp, hq, hpq⟩ | ⟨e, d, he, hd, hed⟩
    · rw [hp, hq]
      exact congrArg _ (script_congr hpq _)
    · rw [he, hd]
      exact congrArg (fun c => Except.error (Failure.typing ⟨c, .unknown⟩)) hed
  · rw [he, hd]
    exact congrArg (fun c => Except.error (Failure.parse ⟨c, .unknown⟩)) hed

/-- A function on a line of its own. -/
def oneLine : String := "🍦 pragma no-optimize\n🥘 f -> 🥚: 🫗 1 ;"

/-- The same function on several lines, with its pragma told twice. -/
def severalLines : String :=
  "🍦pragma no-optimize\n\n🍦 pragma no-optimize\n🥘 f\n  -> 🥚:\n  🫗 1\n;"

def oneLineTokens : List Token :=
  [⟨.keyword, "🥘", ⟨2, 1⟩⟩, ⟨.ident, "f", ⟨2, 3⟩⟩, ⟨.op, "->", ⟨2, 5⟩⟩, ⟨.type, "🥚", ⟨2, 8⟩⟩,
    ⟨.op, ":", ⟨2, 9⟩⟩, ⟨.keyword, "🫗", ⟨2, 11⟩⟩, ⟨.number, "1", ⟨2, 13⟩⟩, ⟨.op, ";", ⟨2, 15⟩⟩,
    .endAt ⟨2, 16⟩]

def severalLinesTokens : List Token :=
  [⟨.keyword, "🥘", ⟨4, 1⟩⟩, ⟨.ident, "f", ⟨4, 3⟩⟩, ⟨.op, "->", ⟨5, 3⟩⟩, ⟨.type, "🥚", ⟨5, 6⟩⟩,
    ⟨.op, ":", ⟨5, 7⟩⟩, ⟨.keyword, "🫗", ⟨6, 3⟩⟩, ⟨.number, "1", ⟨6, 5⟩⟩, ⟨.op, ";", ⟨7, 1⟩⟩,
    .endAt ⟨7, 2⟩]

theorem same_script_of_alike_severalLines :
    Token.scan oneLine = .ok oneLineTokens ∧ Token.scan severalLines = .ok severalLinesTokens ∧
      oneLineTokens ≠ severalLinesTokens ∧ Pragma.ofSource oneLine ≠ Pragma.ofSource severalLines ∧
      (compile ⟨true, .byEntity⟩ oneLine).mapError Failure.bare =
        (compile ⟨true, .byEntity⟩ severalLines).mapError Failure.bare := by
  have hone : Token.scan oneLine = .ok oneLineTokens := rfl
  have hseveral : Token.scan severalLines = .ok severalLinesTokens := rfl
  have hpragma : Pragma.ofSource oneLine = [.noOptimize] := rfl
  have hpragmas : Pragma.ofSource severalLines = [.noOptimize, .noOptimize] := rfl
  have hsame (p : Pragma) : p ∈ Pragma.ofSource oneLine ↔ p ∈ Pragma.ofSource severalLines := by
    rw [hpragma, hpragmas]
    simp
  refine ⟨hone, hseveral, by decide, ?_, same_script_of_alike hone hseveral rfl rfl hsame _⟩
  rw [hpragma, hpragmas]
  decide

end Compile

end Snack
