import Snack.Command.Options
import Mathlib.Data.List.Perm.Basic

/-! The arguments of the command line, taken apart into groups: an option with its value, an option alone, or the
name of the input. Groups that set different things can be put in any order. Every list of arguments is a
sequence of groups, up to its end or to a word that ends the run. -/

namespace Snack.Command

/-! ### Groups -/

/-- An option may have a short and a long form. -/
inductive Form where
  | short
  | long

/-- Arguments that belong together. -/
inductive Group where
  | stopAt (name : String)
  | noOptimize
  | mangleByName
  | verbose (form : Form)
  | output (form : Form) (file : String)
  | input (file : String)

namespace Group

def words : Group → List String
  | stopAt name => ["--stop-at", name]
  | noOptimize => ["--no-optimize"]
  | mangleByName => ["--mangle-by-name"]
  | verbose .short => ["-v"]
  | verbose .long => ["--verbose"]
  | output .short file => ["-o", file]
  | output .long file => ["--output", file]
  | input file => [file]

def input? : Group → Option String
  | input file => some file
  | _ => none

/-- The phase that a group asks for, by its name. -/
def phase? : Group → Option String
  | stopAt name => some name
  | _ => none

/-- What is known with one more group. -/
def apply (p : Draft) : Group → Draft
  | stopAt name => { p with stopAt := some name }
  | noOptimize => { p with optimize := false }
  | mangleByName => { p with mangling := .byName }
  | verbose _ => { p with verbose := true }
  | output _ file => { p with output := some file }
  | input file => { p with input := some file }

theorem words_ne_nil (g : Group) : g.words ≠ [] := by
  cases g with
  | verbose form => cases form <;> simp [words]
  | output form file => cases form <;> simp [words]
  | _ => simp [words]

/-- Groups of one kind, of which the later one counts. -/
inductive Rivals : Group → Group → Prop where
  | stopAt {m n} : Rivals (stopAt m) (stopAt n)
  | output {f g a b} : Rivals (output f a) (output g b)
  | input {a b} : Rivals (input a) (input b)

theorem apply_comm {x y : Group} (h : x = y ∨ ¬ Rivals x y) (p : Draft) :
    apply (apply p x) y = apply (apply p y) x := by
  rcases h with rfl | h
  · rfl
  · cases x <;> cases y <;> first | rfl | exact absurd (by constructor) h

end Group

/-- The groups that ask for these options, in one order. -/
def Options.groups (o : Options) (verbose output : Form) : List Group :=
  (o.stopAt.map fun phase => Group.stopAt phase.name).toList ++
    (if o.optimize then [] else [.noOptimize]) ++
    (if o.mangling = .byName then [.mangleByName] else []) ++
    (if o.verbose then [.verbose verbose] else []) ++
    (o.output.map (Group.output output)).toList ++ (o.input.map Group.input).toList

/-! ### Reading groups -/

/-- The words that are options of their own. -/
def flags : List String :=
  ["--help", "-h", "--stop-at", "-o", "--output", "--no-optimize", "--mangle-by-name", "-v", "--verbose"]

/-- A word that is taken for an option. -/
abbrev dashed (arg : String) : Prop := arg.toList.head? = some '-'

theorem dashed_of_mem_flags {arg : String} (h : arg ∈ flags) : dashed arg := by
  have hall : ∀ a ∈ flags, dashed a := by decide
  exact hall arg h

namespace Draft

variable {p q : Draft} {arg : String} {args : List String} {g : Group} {gs : List Group}

theorem read_of_notMem_flags (h : arg ∉ flags) :
    p.read (arg :: args) = p.positional arg >>= (Draft.read · args) := by
  simp only [flags, List.mem_cons, List.not_mem_nil, or_false, not_or] at h
  obtain ⟨_, _, hstop, hout, houtput, _, _, _, _⟩ := h
  rw [Draft.read] <;> try assumption
  · cases p.positional arg <;> rfl
  · exact fun h _ => hstop h
  · exact fun _ _ h _ => hstop h
  · exact fun h _ => hout h
  · exact fun h _ => houtput h
  · exact fun _ _ h _ => hout h
  · exact fun _ _ h _ => houtput h

/-- A group can be read if it does not name a second input, nor an input that looks like an option. -/
def Takes (p : Draft) (g : Group) : Prop := ∀ file ∈ g.input?, p.input = none ∧ ¬ dashed file

theorem Takes.read (h : p.Takes g) (args : List String) : p.read (g.words ++ args) = (g.apply p).read args := by
  cases g with
  | verbose form => cases form <;> rfl
  | output form file => cases form <;> rfl
  | input file =>
    obtain ⟨hnone, hdash⟩ := h file rfl
    have hflag : file ∉ flags := fun hmem => hdash (dashed_of_mem_flags hmem)
    have hpos : p.positional file = .ok { p with input := some file } := by
      rw [positional, if_neg hdash, if_neg (by simp [hnone])]
    show p.read (file :: args) = _
    rw [read_of_notMem_flags hflag, hpos]
    rfl
  | _ => rfl

/-- Groups that are read one after another, and what is known then. -/
inductive Taken : Draft → List Group → Draft → Prop where
  | nil {p : Draft} : Taken p [] p
  | cons {p q : Draft} {g : Group} {gs : List Group} (h : p.Takes g) (hs : Taken (g.apply p) gs q) :
      Taken p (g :: gs) q

theorem Taken.read (h : Taken p gs q) (args : List String) :
    p.read (gs.flatMap Group.words ++ args) = q.read args := by
  induction h with
  | nil => rfl
  | cons h _ ih => rw [List.flatMap_cons, List.append_assoc, h.read, ih]

theorem Taken.eq_foldl (h : Taken p gs q) : q = gs.foldl Group.apply p := by
  induction h with
  | nil => rfl
  | cons _ _ ih => rw [ih, List.foldl_cons]

theorem input_apply (g : Group) (p : Draft) : (g.apply p).input = g.input?.or p.input := by
  cases g <;> rfl

/-- Groups can be read if they name one input at most. -/
theorem taken_of_inputs (h : (p.input.toList ++ gs.filterMap Group.input?).length ≤ 1)
    (hdash : ∀ file ∈ gs.filterMap Group.input?, ¬ dashed file) : Taken p gs (gs.foldl Group.apply p) := by
  induction gs generalizing p with
  | nil => exact .nil
  | cons g gs ih =>
    cases hg : g.input? with
    | none =>
      have hsame : (g.apply p).input = p.input := by rw [input_apply, hg, Option.none_or]
      rw [List.filterMap_cons_none hg] at h hdash
      exact .cons (by simp [Takes, hg]) (ih (hsame ▸ h) hdash)
    | some file =>
      rw [List.filterMap_cons_some hg] at h hdash
      obtain ⟨hfile, hrest⟩ := List.forall_mem_cons.1 hdash
      have hnone : p.input = none := by
        cases hp : p.input with
        | none => rfl
        | some other => simp [hp] at h
      have hone : (g.apply p).input = some file := by rw [input_apply, hg, Option.some_or]
      refine .cons ?_ (ih ?_ hrest)
      · rintro other hother
        obtain rfl : file = other := Option.some.inj (hg.symm.trans hother)
        exact ⟨hnone, hfile⟩
      · simpa [hnone, hone] using h

/-! ### What ends a run -/

/-- The words that end the reading of arguments, each with its reason. -/
inductive Halts (p : Draft) : List String → Stop → Prop where
  | help {flag : String} {args : List String} (h : flag ∈ ["--help", "-h"]) : Halts p (flag :: args) .help
  | missing {flag : String} (h : flag ∈ ["--stop-at", "-o", "--output"]) : Halts p [flag] (.missingArgument flag)
  | unknown {arg : String} {args : List String} (hflag : arg ∉ flags) (hdash : dashed arg) :
      Halts p (arg :: args) (.unknownFlag arg)
  | unexpected {arg : String} {args : List String} (hdash : ¬ dashed arg) (hinput : p.input.isSome = true) :
      Halts p (arg :: args) (.unexpectedArgument arg)

theorem Halts.read {stop : Stop} (h : p.Halts args stop) : p.read args = .error stop := by
  cases h with
  | help h =>
    simp only [List.mem_cons, List.not_mem_nil, or_false] at h
    rcases h with rfl | rfl <;> rfl
  | missing h =>
    simp only [List.mem_cons, List.not_mem_nil, or_false] at h
    rcases h with rfl | rfl | rfl <;> rfl
  | unknown hflag hdash =>
    rw [read_of_notMem_flags hflag, positional, if_pos hdash]
    rfl
  | unexpected hdash hinput =>
    have hflag : _ ∉ flags := fun hmem => hdash (dashed_of_mem_flags hmem)
    rw [read_of_notMem_flags hflag, positional, if_neg hdash, if_pos hinput]
    rfl

/-- Arguments begin with a group that can be read or with a word that ends the run. -/
theorem takes_or_halts (p : Draft) (arg : String) (args : List String) :
    (∃ g rest, p.Takes g ∧ arg :: args = g.words ++ rest) ∨ ∃ stop, p.Halts (arg :: args) stop := by
  by_cases hflag : arg ∈ flags
  · have halone {g : Group} (hg : g.input? = none) (hw : g.words = [arg]) :
        ∃ g rest, p.Takes g ∧ arg :: args = g.words ++ rest := ⟨g, args, by simp [Takes, hg], by rw [hw]; rfl⟩
    -- an option with a value is a group unless the value is missing
    have hvalued {g : String → Group} (hg : ∀ value, (g value).input? = none)
        (hw : ∀ value, (g value).words = [arg, value]) (harg : arg ∈ ["--stop-at", "-o", "--output"]) :
        (∃ g rest, p.Takes g ∧ arg :: args = g.words ++ rest) ∨ ∃ stop, p.Halts (arg :: args) stop := by
      cases args with
      | nil => exact .inr ⟨_, .missing harg⟩
      | cons value args => exact .inl ⟨g value, args, by simp [Takes, hg], by rw [hw]; rfl⟩
    simp only [flags, List.mem_cons, List.not_mem_nil, or_false] at hflag
    rcases hflag with rfl | rfl | rfl | rfl | rfl | rfl | rfl | rfl | rfl
    · exact .inr ⟨_, .help (by simp)⟩
    · exact .inr ⟨_, .help (by simp)⟩
    · exact hvalued (g := .stopAt) (fun _ => rfl) (fun _ => rfl) (by simp)
    · exact hvalued (g := .output .short) (fun _ => rfl) (fun _ => rfl) (by simp)
    · exact hvalued (g := .output .long) (fun _ => rfl) (fun _ => rfl) (by simp)
    · exact .inl (halone (g := .noOptimize) rfl rfl)
    · exact .inl (halone (g := .mangleByName) rfl rfl)
    · exact .inl (halone (g := .verbose .short) rfl rfl)
    · exact .inl (halone (g := .verbose .long) rfl rfl)
  · by_cases hdash : dashed arg
    · exact .inr ⟨_, .unknown hflag hdash⟩
    · cases hp : p.input with
      | none =>
        refine .inl ⟨.input arg, args, ?_, rfl⟩
        rintro file ⟨⟩
        exact ⟨hp, hdash⟩
      | some file => exact .inr ⟨_, .unexpected hdash (by simp [hp])⟩

/-- All arguments are groups up to a word that ends the run, if there is one. -/
theorem exists_taken (p : Draft) (args : List String) :
    ∃ gs q rest, args = gs.flatMap Group.words ++ rest ∧ Taken p gs q ∧
      (rest = [] ∨ ∃ stop, q.Halts rest stop) := by
  induction hn : args.length using Nat.strongRecOn generalizing p args with
  | ind n ih =>
    cases args with
    | nil => exact ⟨[], p, [], rfl, .nil, .inl rfl⟩
    | cons arg args =>
      rcases takes_or_halts p arg args with ⟨g, rest, hg, heq⟩ | hstop
      · have hshorter : rest.length < n := by
          have hlength := congrArg List.length heq
          have hpos := List.length_pos_of_ne_nil g.words_ne_nil
          rw [List.length_append] at hlength
          omega
        obtain ⟨gs, q, tail, hrest, htaken, hend⟩ := ih _ hshorter (g.apply p) rest rfl
        refine ⟨g :: gs, q, tail, ?_, .cons hg htaken, hend⟩
        rw [heq, hrest, List.flatMap_cons, List.append_assoc]
      · exact ⟨[], p, arg :: args, rfl, .nil, .inr hstop⟩

/-- Of several phases the last one counts. -/
theorem stopAt_foldl (gs : List Group) (p : Draft) :
    (gs.foldl Group.apply p).stopAt = (gs.filterMap Group.phase?).getLast?.or p.stopAt := by
  induction gs generalizing p with
  | nil => rfl
  | cons g gs ih =>
    rw [List.foldl_cons, ih]
    cases g with
    | stopAt name =>
      rw [List.filterMap_cons_some (f := Group.phase?) (b := name) rfl, List.getLast?_cons]
      cases (gs.filterMap Group.phase?).getLast? <;> rfl
    | _ => rfl

end Draft

/-! ### Any order -/

section Order

variable {o : Options} {v w : Form}

/-- The groups of some options set each thing once. -/
theorem eq_or_not_rivals {x y : Group} (hx : x ∈ o.groups v w) (hy : y ∈ o.groups v w) :
    x = y ∨ ¬ Group.Rivals x y := by
  refine or_iff_not_imp_right.2 fun h => ?_
  cases not_not.1 h <;> simp [Options.groups] at hx hy <;> grind

theorem inputs_of_groups (o : Options) (v w : Form) :
    (o.groups v w).filterMap Group.input? = o.input.toList := by
  obtain ⟨stopAt, optimize, mangling, verbose, input, output⟩ := o
  cases stopAt <;> cases optimize <;> cases mangling <;> cases verbose <;> cases input <;> cases output <;> rfl

theorem foldl_groups (o : Options) (v w : Form) : (o.groups v w).foldl Group.apply .initial =
    ⟨o.stopAt.map Phase.name, o.optimize, o.mangling, o.verbose, o.input, o.output⟩ := by
  obtain ⟨stopAt, optimize, mangling, verbose, input, output⟩ := o
  cases stopAt <;> cases optimize <;> cases mangling <;> cases verbose <;> cases input <;> cases output <;> rfl

end Order

theorem ofName?_eq_some {name : String} {phase : Phase} : Phase.ofName? name = some phase ↔ phase.name = name := by
  constructor
  · intro h
    simpa using List.find?_some h
  · rintro rfl
    cases phase <;> rfl

/-- The phase is looked at when all arguments are known. -/
theorem Draft.finish_eq_ok {p : Draft} {o : Options} : p.finish = .ok o ↔
    p = ⟨o.stopAt.map Phase.name, o.optimize, o.mangling, o.verbose, o.input, o.output⟩ := by
  obtain ⟨stopAt, optimize, mangling, verbose, input, output⟩ := p
  unfold Draft.finish
  cases stopAt with
  | none => cases o with | mk phase => cases phase <;> simp
  | some name =>
    dsimp only
    split
    · next phase hphase =>
      have hname := ofName?_eq_some.1 hphase
      cases o with
      | mk phase' =>
        cases phase' with
        | none => simp
        | some phase' =>
          have hsame : phase = phase' ↔ name = phase'.name := by
            rw [← hname]
            cases phase <;> cases phase' <;> decide
          simp [hsame]
    · next hphase =>
      cases o with
      | mk phase' =>
        cases phase' with
        | none => simp
        | some phase' =>
          have hne : name ≠ phase'.name := by
            rintro rfl
            simp [ofName?_eq_some.2 rfl] at hphase
          simp [hne]

theorem Draft.finish_eq_error {p : Draft} {stop : Stop} (h : p.finish = .error stop) : stop.code = 2 := by
  unfold Draft.finish at h
  split at h
  · cases h
  · split at h
    · cases h
    · cases h
      rfl

theorem Draft.Halts.code {p : Draft} {args : List String} {stop : Stop} (h : p.Halts args stop) :
    (stop.code = 0 ∧ ∃ flag ∈ ["--help", "-h"], args.head? = some flag) ∨ stop.code = 2 := by
  cases h with
  | help h => exact .inl ⟨rfl, _, h, rfl⟩
  | _ => exact .inr rfl

theorem ofArgs_of_taken {gs : List Group} {q : Draft} (h : Draft.initial.Taken gs q) :
    Options.ofArgs (gs.flatMap Group.words) = q.finish := by
  have hread := h.read []
  rw [List.append_nil] at hread
  rw [Options.ofArgs, hread]
  rfl

/-- The groups of some options can be given in any order and in either form: the options are what they ask for.
Any arguments at all are groups, up to their end or up to a word that ends the run. They give options with the
phase that was asked for last, or the run ends: with code 0 at a call for help, and with code 2 otherwise. -/
theorem options_in_any_order :
    (∀ (o : Options) (v w : Form) (gs : List Group), (∀ file ∈ o.input, ¬ dashed file) →
      gs.Perm (o.groups v w) → Options.ofArgs (gs.flatMap Group.words) = .ok o) ∧
    ∀ args, ∃ (gs : List Group) (rest : List String), args = gs.flatMap Group.words ++ rest ∧
      ((rest = [] ∧ ∃ o, Options.ofArgs args = .ok o ∧
          o.stopAt.map Phase.name = (gs.filterMap Group.phase?).getLast?) ∨
        ∃ stop, Options.ofArgs args = .error stop ∧
          ((stop.code = 0 ∧ ∃ flag ∈ ["--help", "-h"], rest.head? = some flag) ∨ stop.code = 2)) := by
  constructor
  · intro o v w gs hinput hperm
    have hinputs : (gs.filterMap Group.input?).Perm o.input.toList :=
      inputs_of_groups o v w ▸ hperm.filterMap Group.input?
    have hone : (Draft.initial.input.toList ++ gs.filterMap Group.input?).length ≤ 1 := by
      show (gs.filterMap Group.input?).length ≤ 1
      rw [hinputs.length_eq]
      cases o.input <;> simp
    have htaken := Draft.taken_of_inputs hone fun file hfile =>
      hinput file (Option.mem_toList.1 (hinputs.mem_iff.1 hfile))
    rw [ofArgs_of_taken htaken, Draft.finish_eq_ok, ← foldl_groups o v w]
    refine hperm.foldl_eq' (fun x hx y hy p => ?_) _
    exact Group.apply_comm (eq_or_not_rivals (hperm.mem_iff.1 hx) (hperm.mem_iff.1 hy)) p
  · intro args
    obtain ⟨gs, q, rest, rfl, htaken, hend⟩ := Draft.exists_taken .initial args
    refine ⟨gs, rest, rfl, ?_⟩
    rcases hend with rfl | ⟨stop, hstop⟩
    · rw [List.append_nil, ofArgs_of_taken htaken]
      cases hfinish : q.finish with
      | ok o =>
        refine .inl ⟨rfl, o, rfl, ?_⟩
        have hphase := Draft.stopAt_foldl gs .initial
        rw [← htaken.eq_foldl, Draft.finish_eq_ok.1 hfinish] at hphase
        simpa [Draft.initial] using hphase
      | error stop => exact .inr ⟨stop, rfl, .inr (Draft.finish_eq_error hfinish)⟩
    · refine .inr ⟨stop, ?_, hstop.code⟩
      rw [Options.ofArgs, htaken.read, hstop.read]

/-- Options with an output that is called like an option. -/
def helpfulOptions : Options := ⟨some .parse, true, .byEntity, true, some "in.snack", some "--help"⟩

theorem options_in_any_order_reversed :
    (∀ file ∈ helpfulOptions.input, ¬ dashed file) ∧
      Options.ofArgs ["in.snack", "--output", "--help", "-v", "--stop-at", "parse"] = .ok helpfulOptions := by
  have hinput : ∀ file ∈ helpfulOptions.input, ¬ dashed file := by
    rintro file ⟨⟩
    decide
  exact ⟨hinput, options_in_any_order.1 helpfulOptions .short .long _ hinput
    (List.reverse_perm (helpfulOptions.groups .short .long))⟩

end Snack.Command
