import Snack.Command.Basic
import Snack.Proofs.Command.Files
import Snack.Proofs.Steps

/-! What a run leaves in the files. A run that fails leaves them all as they were, unless it is the write that
fails: the file for the output is open by then. A run that succeeds puts its text, with a line feed, where it was
told to, and changes nothing else; only a text that is empty is not put anywhere, and that is never the dump of a
phase. -/

namespace Snack

/-! ### Dumps -/

theorem Json.text_obj_ne_empty (fields : List (String × Json)) : (Json.obj fields).text ≠ "" := by
  intro h
  have hchars : (Json.obj fields).render 0 [] = [] := by simpa [Json.text] using congrArg String.toList h
  cases fields <;> simp [Json.render] at hchars

namespace Compile

theorem dump_ne_empty {program : Core.Program} {log log' : List Event} {text : String}
    (h : dump program log = .ok text log') : text ≠ "" := by
  obtain ⟨j, log₁, hj, htext⟩ := bind_ok.1 h
  obtain ⟨rfl, -⟩ := pure_ok.1 htext
  cases hdump : program.dump with
  | error e =>
    rw [hdump] at hj
    exact absurd hj throw_ok
  | ok k =>
    rw [hdump] at hj
    obtain ⟨rfl, -⟩ := pure_ok.1 hj
    obtain ⟨statements, -, hk⟩ := except_bind_ok.1 hdump
    obtain rfl := except_pure_ok.1 hk
    exact Json.text_obj_ne_empty _

/-- Only a script can be empty. -/
theorem stopAt_of_empty {stopAt : Option Phase} {settings : Settings} {source : String} {log log' : List Event}
    (h : run stopAt settings source log = .ok "" log') : stopAt = none := by
  obtain ⟨tree, log₁, -, h⟩ := bind_ok.1 h
  split at h
  · exact absurd (pure_ok.1 h).1 (Json.text_obj_ne_empty _)
  · next hparse =>
    obtain ⟨analyzed, log₂, -, h⟩ := bind_ok.1 h
    split at h
    · exact absurd rfl (dump_ne_empty h)
    · next hanalyze =>
      have hlast {mangling : Script.Mangling} {program : Core.Program} {log₃ : List Event}
          (h : (if stopAt = some .optimize then dump program else generate mangling program) log₃ = .ok "" log') :
          stopAt = none := by
        split at h
        · exact absurd rfl (dump_ne_empty h)
        · next hoptimize =>
          cases stopAt with
          | none => rfl
          | some phase => cases phase <;> contradiction
      dsimp only at h
      split at h
      · obtain ⟨program, log₃, -, h⟩ := bind_ok.1 h
        exact hlast h
      · obtain ⟨program, log₃, -, h⟩ := bind_ok.1 h
        exact hlast h

end Compile

namespace Command

/-! ### What is produced -/

/-- What a run comes to before anything is written: a failure, or the text of its source. -/
inductive Produced (o : Options) (bytes : Except OpenError ByteArray) : Except Outcome (String × String) → Prop where
  | failure {outcome} (h : outcome.code ≠ 0) : Produced o bytes (.error outcome)
  | text {s text log} (hs : source o bytes = .ok s)
      (hp : (pipeline o.stopAt o.settings s [.read s.length]).1 = ⟨0, text, ""⟩)
      (hempty : text = "" → o.stopAt = none) : Produced o bytes (.ok (text, log))

theorem code_of_source {o : Options} {bytes : Except OpenError ByteArray} {outcome : Outcome}
    (h : source o bytes = .error outcome) : outcome.code ≠ 0 := by
  unfold source at h
  split at h
  · cases h
    simp [Outcome.fail]
  · split at h
    · cases h
      simp [Outcome.fail]
    · split at h
      · cases h
        simp [Outcome.fail]
      · cases h

theorem produced (o : Options) (bytes : Except OpenError ByteArray) : Produced o bytes (produce o bytes) := by
  unfold produce
  cases hs : source o bytes with
  | error outcome => exact .failure (code_of_source hs)
  | ok s =>
    cases hrun : Compile.run o.stopAt o.settings s [.read s.length] with
    | error e events =>
      have hp : pipeline o.stopAt o.settings s [.read s.length] = (.fail 1 e.message, events) := by
        rw [pipeline, hrun]
      dsimp only
      rw [hp]
      exact .failure (by simp [Outcome.fail])
    | ok text events =>
      have hp : pipeline o.stopAt o.settings s [.read s.length] = (⟨0, text, ""⟩, events) := by
        rw [pipeline, hrun]
      dsimp only
      rw [hp]
      refine .text hs (congrArg Prod.fst hp) ?_
      rintro rfl
      exact Compile.stopAt_of_empty hrun

/-! ### How a run ends -/

section Runs

variable {σ : Type} {sys : System (StateM σ)} {args : List String} {d d' : σ} {outcome : Outcome}

/-- A run that comes to a text with what it has read. -/
structure Yields (sys : System (StateM σ)) (args : List String) (d : σ) (o : Options) (text log : String) (d₀ : σ) :
    Prop where
  options : Options.ofArgs args = .ok o
  text : ∃ bytes, (content sys o).run d = (bytes, d₀) ∧ produce o bytes = .ok (text, log)

/-- The ends of a run, by what is done to files. -/
inductive Ends (sys : System (StateM σ)) (args : List String) (d : σ) : Outcome → σ → Prop where
  /-- The arguments say so. -/
  | stop {stop} (h : Options.ofArgs args = .error stop) : Ends sys args d stop.outcome d
  /-- There is no text. -/
  | failure {o bytes d₀ outcome} (ho : Options.ofArgs args = .ok o) (hc : (content sys o).run d = (bytes, d₀))
      (hp : produce o bytes = .error outcome) : Ends sys args d outcome d₀
  /-- The text goes to no file. -/
  | elsewhere {o text log d₀ stdout} (hy : Yields sys args d o text log d₀)
      (hd : ∀ name, delivery o text ≠ .file name) : Ends sys args d ⟨0, stdout, log⟩ d₀
  /-- The file cannot be opened. -/
  | refused {o text log d₀ name d₁} (hy : Yields sys args d o text log d₀) (hd : delivery o text = .file name)
      (hc : (sys.create name).run d₀ = (none, d₁)) : Ends sys args d (unwritten name log) d₁
  /-- The file is opened, but not all of the text can be written. -/
  | brokenOff {o text log d₀ name f d₁ d₂} (hy : Yields sys args d o text log d₀) (hd : delivery o text = .file name)
      (hc : (sys.create name).run d₀ = (some f, d₁)) (hw : (sys.write f (text ++ "\n").toUTF8).run d₁ = (false, d₂)) :
      Ends sys args d (unwritten name log) d₂
  | written {o text log d₀ name f d₁ d₂} (hy : Yields sys args d o text log d₀) (hd : delivery o text = .file name)
      (hc : (sys.create name).run d₀ = (some f, d₁)) (hw : (sys.write f (text ++ "\n").toUTF8).run d₁ = (true, d₂)) :
      Ends sys args d ⟨0, "", log⟩ d₂

theorem run_then {α β : Type} {x : StateM σ α} {g : α → StateM σ β} {a : α} (h : x.run d = (a, d')) :
    (x >>= g).run d = (g a).run d' := by
  have hrun : (x >>= g).run d = (g (x.run d).1).run (x.run d).2 := rfl
  rw [hrun, h]

theorem run_of_yields {o : Options} {text log : String} {d₀ : σ} (h : Yields sys args d o text log d₀) :
    (runOn sys args).run d = (deliver sys o text log).run d₀ := by
  obtain ⟨ho, bytes, hc, hp⟩ := h
  unfold runOn
  rw [ho]
  dsimp only
  rw [run_then hc, hp]

theorem ends_deliver {o : Options} {text log : String} {d₀ : σ} (hy : Yields sys args d o text log d₀)
    (h : (deliver sys o text log).run d₀ = (outcome, d')) : Ends sys args d outcome d' := by
  unfold deliver at h
  split at h
  · next hd =>
    cases h
    exact .elsewhere hy (by simp [hd])
  · next hd =>
    cases h
    exact .elsewhere hy (by simp [hd])
  · next name hd =>
    cases hc : (sys.create name).run d₀ with
    | mk file d₁ =>
      rw [run_then hc] at h
      cases file with
      | none =>
        cases h
        exact .refused hy hd hc
      | some f =>
        cases hw : (sys.write f (text ++ "\n").toUTF8).run d₁ with
        | mk all d₂ =>
          dsimp only at h
          rw [run_then hw] at h
          cases all with
          | false =>
            cases h
            exact .brokenOff hy hd hc hw
          | true =>
            cases h
            exact .written hy hd hc hw

theorem ends_run (h : (runOn sys args).run d = (outcome, d')) : Ends sys args d outcome d' := by
  unfold runOn at h
  cases ho : Options.ofArgs args with
  | error stop =>
    rw [ho] at h
    cases h
    exact .stop ho
  | ok o =>
    rw [ho] at h
    cases hc : (content sys o).run d with
    | mk bytes d₀ =>
      dsimp only at h
      rw [run_then hc] at h
      cases hp : produce o bytes with
      | error failure =>
        rw [hp] at h
        cases h
        exact .failure ho hc hp
      | ok x =>
        rw [hp] at h
        exact ends_deliver ⟨ho, bytes, hc, hp⟩ h

/-- The run opens the file for its output, but not all of the text can be written to it. -/
inductive BreaksOff (sys : System (StateM σ)) (args : List String) (d : σ) : sys.File → Prop where
  | mk {o text log d₀ name f d₁ d₂} (hy : Yields sys args d o text log d₀) (hd : delivery o text = .file name)
      (hc : (sys.create name).run d₀ = (some f, d₁)) (hw : (sys.write f (text ++ "\n").toUTF8).run d₁ = (false, d₂)) :
      BreaksOff sys args d f

theorem code_of_breaksOff {f : sys.File} (h : BreaksOff sys args d f) : ((runOn sys args).run d).1.code = 1 := by
  obtain ⟨hy, hd, hc, hw⟩ := h
  rw [run_of_yields hy]
  unfold deliver
  rw [hd]
  dsimp only
  rw [run_then hc]
  dsimp only
  rw [run_then hw]
  rfl

end Runs

/-! ### What is left in the files -/

theorem delivery_file {o : Options} {text name : String} (h : delivery o text = .file name) :
    o.output = some name ∧ text ≠ "" := by
  unfold delivery at h
  split at h
  · cases h
  · next ht =>
    split at h
    · next hf =>
      cases h
      exact ⟨hf, fun he => ht (by simp [he])⟩
    · cases h

theorem delivery_elsewhere {o : Options} {text name : String} (h : ∀ name, delivery o text ≠ .file name)
    (hf : o.output = some name) : text = "" := by
  refine Decidable.byContradiction fun ht => h name ?_
  simp [delivery, hf, ht]

section Lawful

variable {σ : Type} {sys : System (StateM σ)} {files : Files sys} {args : List String} {d d' : σ}

theorem Files.Lawful.holds_content (hfiles : files.Lawful) {o : Options} {bytes : Except OpenError ByteArray}
    (h : (content sys o).run d = (bytes, d')) : files.holds d' = files.holds d := by
  have hd : ((content sys o).run d).2 = d' := by rw [h]
  rw [← hd]
  unfold content
  split
  · exact hfiles.stdin d
  · exact hfiles.read _ d

/-- A file that is opened and written to holds what was written, and all others are as they were. -/
theorem Files.Lawful.holds_written (hfiles : files.Lawful) {name : String} {f : sys.File} {bytes : ByteArray}
    {d₀ d₁ : σ} (hc : (sys.create name).run d₀ = (some f, d₁)) (hw : (sys.write f bytes).run d₁ = (true, d')) :
    files.named d' name = some f ∧ files.holds d' f = some bytes ∧ ((sys.read name).run d').1 = .ok bytes := by
  obtain ⟨hnamed, hempty⟩ := hfiles.created hc
  have hholds : files.holds d' f = some bytes := by
    rw [hfiles.written hempty hw, ByteArray.empty_append]
  have hname : files.named d' name = some f := by
    have hsame := hfiles.renames f bytes d₁
    rw [hw] at hsame
    rw [← hnamed]
    exact congrFun hsame name
  exact ⟨hname, hholds, hfiles.reads hname hholds⟩

theorem Files.Lawful.holds_others (hfiles : files.Lawful) {name : String} {f g : sys.File} {bytes : ByteArray}
    {all : Bool} {d₀ d₁ : σ} (hc : (sys.create name).run d₀ = (some f, d₁))
    (hw : (sys.write f bytes).run d₁ = (all, d')) (hg : g ≠ f) : files.holds d' g = files.holds d₀ g := by
  have halone : files.holds ((sys.write f bytes).run d₁).2 g = files.holds d₁ g := hfiles.writtenAlone hg
  rw [hw] at halone
  exact halone.trans (hfiles.createdAlone hc hg)

/-- What a run comes to by its options. -/
theorem Yields.produced {o : Options} {text log : String} {d₀ : σ} (h : Yields sys args d o text log d₀) :
    ∃ bytes s, (content sys o).run d = (bytes, d₀) ∧ source o bytes = .ok s ∧
      (pipeline o.stopAt o.settings s [.read s.length]).1 = ⟨0, text, ""⟩ ∧ (text = "" → o.stopAt = none) := by
  obtain ⟨ho, bytes, hc, hp⟩ := h
  have hproduced := Command.produced o bytes
  rw [hp] at hproduced
  cases hproduced with
  | text hs hp hempty => exact ⟨bytes, _, hc, hs, hp, hempty⟩

/-- On any system whose files obey the laws: a run that does not end with zero leaves all files as they were,
unless it breaks off in the file for its output, which it has opened by then, and no run that breaks off ends with
zero. A run with an output file that ends with zero has produced a text: unless it is empty, that file then holds it
with a line feed behind it, and all other files are as they were. An empty text, which can only be a script, changes
no file. -/
theorem run_output (hfiles : files.Lawful) {outcome : Outcome} (h : (runOn sys args).run d = (outcome, d')) :
    (outcome.code ≠ 0 → files.holds d' = files.holds d ∨
      ∃ f, BreaksOff sys args d f ∧ ∀ g, g ≠ f → files.holds d' g = files.holds d g) ∧
    (∀ f, BreaksOff sys args d f → outcome.code = 1) ∧
    ∀ o file, Options.ofArgs args = .ok o → o.output = some file → outcome.code = 0 →
      ∃ bytes d₀ s text, (content sys o).run d = (bytes, d₀) ∧ source o bytes = .ok s ∧
        (pipeline o.stopAt o.settings s [.read s.length]).1 = ⟨0, text, ""⟩ ∧
        (text ≠ "" → ∃ f, files.named d' file = some f ∧ files.holds d' f = some (text ++ "\n").toUTF8 ∧
          ((sys.read file).run d').1 = .ok (text ++ "\n").toUTF8 ∧
          ∀ g, g ≠ f → files.holds d' g = files.holds d g) ∧
        (text = "" → o.stopAt = none ∧ files.holds d' = files.holds d) := by
  refine ⟨?_, fun f hf => by rw [← code_of_breaksOff hf, h], ?_⟩
  · intro hcode
    cases ends_run h with
    | stop => exact .inl rfl
    | failure _ hc => exact .inl (hfiles.holds_content hc)
    | elsewhere | written => exact absurd rfl hcode
    | refused hy _ hc =>
      obtain ⟨bytes, s, hcontent, -⟩ := hy.produced
      exact .inl ((hfiles.refused hc).trans (hfiles.holds_content hcontent))
    | brokenOff hy hd hc hw =>
      obtain ⟨bytes, s, hcontent, -⟩ := hy.produced
      refine .inr ⟨_, .mk hy hd hc hw, fun g hg => ?_⟩
      rw [hfiles.holds_others hc hw hg, hfiles.holds_content hcontent]
  · intro o file ho hfile hcode
    cases ends_run h with
    | stop hstop =>
      rw [ho] at hstop
      cases hstop
    | @failure o' bytes _ outcome ho' hc hp =>
      have hproduced := produced o' bytes
      rw [hp] at hproduced
      cases hproduced with
      | failure hne => exact absurd hcode hne
    | refused | brokenOff => cases hcode
    | elsewhere hy hd =>
      obtain rfl : _ = o := Except.ok.inj (hy.options.symm.trans ho)
      obtain ⟨bytes, s, hcontent, hs, hp, hempty⟩ := hy.produced
      have ht := delivery_elsewhere hd hfile
      exact ⟨bytes, _, s, _, hcontent, hs, hp, fun hne => absurd ht hne,
        fun he => ⟨hempty he, hfiles.holds_content hcontent⟩⟩
    | written hy hd hc hw =>
      obtain rfl : _ = o := Except.ok.inj (hy.options.symm.trans ho)
      obtain ⟨bytes, s, hcontent, hs, hp, -⟩ := hy.produced
      obtain ⟨hname, ht⟩ := delivery_file hd
      obtain rfl := Option.some.inj (hname.symm.trans hfile)
      refine ⟨bytes, _, s, _, hcontent, hs, hp, fun _ => ?_, fun he => absurd he ht⟩
      obtain ⟨hnamed, hholds, hread⟩ := hfiles.holds_written hc hw
      refine ⟨_, hnamed, hholds, hread, fun g hg => ?_⟩
      rw [hfiles.holds_others hc hw hg, hfiles.holds_content hcontent]

end Lawful

/-- A source text that prints a value. -/
def printSource : String := "🍽 🥗"

/-- A directory with another file in it. -/
def otherDisk : Disk := ⟨[(["notes.txt"], .file "keep\n".toUTF8)]⟩

/-- The directory after the run. -/
def printedDisk : Disk :=
  ⟨[(["out.js"], .file "console.log(true);\n".toUTF8), (["notes.txt"], .file "keep\n".toUTF8)]⟩

def toFile : Options := ⟨none, true, .byEntity, false, none, some "out.js"⟩

theorem run_output_print :
    (Disk.files printSource.toUTF8 none).Lawful ∧ Options.ofArgs ["-o", "out.js"] = .ok toFile ∧
      run ["-o", "out.js"] printSource.toUTF8 otherDisk = (⟨0, "", ""⟩, printedDisk) ∧
      ∃ bytes d₀ s text, (content (Disk.system printSource.toUTF8 none) toFile).run otherDisk = (bytes, d₀) ∧
        source toFile bytes = .ok s ∧
        (pipeline toFile.stopAt toFile.settings s [.read s.length]).1 = ⟨0, text, ""⟩ ∧
        (text ≠ "" → ∃ f, printedDisk.fileNamed "out.js" = some f ∧
          printedDisk.bytesAt f = some (text ++ "\n").toUTF8 ∧
          printedDisk.read "out.js" = .ok (text ++ "\n").toUTF8 ∧
          ∀ g, g ≠ f → printedDisk.bytesAt g = otherDisk.bytesAt g) ∧
        (text = "" → toFile.stopAt = none ∧ printedDisk.bytesAt = otherDisk.bytesAt) :=
  have hlawful := Disk.lawful_files printSource.toUTF8 none
  have hrun : run ["-o", "out.js"] printSource.toUTF8 otherDisk = (⟨0, "", ""⟩, printedDisk) := rfl
  ⟨hlawful, rfl, hrun, (run_output hlawful hrun).2.2 toFile "out.js" rfl rfl rfl⟩

/-! ### A script without a line, and a disk without room -/

/-- A source text of one comment. -/
def commentSource : String := "🍦 nothing"

/-- An output file from an earlier run. -/
def staleDisk : Disk := ⟨[(["out.js"], .file "stale\n".toUTF8)]⟩

def emptiedDisk : Disk := ⟨[(["out.js"], .file .empty)]⟩

/-- An empty script leaves the file as it was, although the run ends with zero. Where no byte can be written, the run
does not end with zero, but the file is empty. -/
theorem output_left_or_lost :
    run ["-o", "out.js"] commentSource.toUTF8 staleDisk = (⟨0, "", ""⟩, staleDisk) ∧
      (pipeline none ⟨true, .byEntity⟩ commentSource [.read commentSource.length]).1 = ⟨0, "", ""⟩ ∧
      staleDisk.read "out.js" ≠ .ok ("" ++ "\n").toUTF8 ∧
      (runOn (Disk.system printSource.toUTF8 (some 0)) ["-o", "out.js"]).run staleDisk =
        (unwritten "out.js" "", emptiedDisk) ∧
      staleDisk.read "out.js" = .ok "stale\n".toUTF8 ∧ emptiedDisk.read "out.js" = .ok .empty := by
  have hyields : Yields (Disk.system printSource.toUTF8 (some 0)) ["-o", "out.js"] staleDisk toFile
      "console.log(true);" "" staleDisk := ⟨rfl, _, rfl, rfl⟩
  have hstale : staleDisk.read "out.js" = .ok "stale\n".toUTF8 := rfl
  refine ⟨rfl, rfl, ?_, (run_of_yields hyields).trans rfl, hstale, rfl⟩
  rw [hstale]
  intro h
  exact absurd (Except.ok.inj h) (by decide)

end Command

end Snack
