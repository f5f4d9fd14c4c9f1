import Mathlib.Data.List.Nodup
import Snack.Proofs.Script.Indented

/-! The blocks that are read off a script are those of the program it was written from, with an identifier
for every entity that is declared in them. -/

namespace Snack.Script

open Snack.Core

section Scripts

variable {m : Mangling} {es : List Entity} {d e : Entity} {p : Program} {text : String}

theorem exists_row (he : e ∈ es) :
    ∃ b, ((give m [] es).find? fun b => b.key = m.key e) = some b ∧
      mangle (give m [] es) (m.key e) e.name = (b.text, give m [] es) := by
  have hkey : m.key e ∈ (give m [] es).map (·.key) := by
    rw [keys_give, List.mem_eraseDups]
    exact List.mem_map_of_mem he
  obtain ⟨b, hb, hbe⟩ := List.mem_map.1 hkey
  have hsome : ((give m [] es).find? fun b => b.key = m.key e).isSome = true :=
    List.find?_isSome.2 ⟨b, hb, by simpa using hbe⟩
  obtain ⟨b, hb⟩ := Option.isSome_iff_exists.1 hsome
  exact ⟨b, hb, by rw [mangle, hb]⟩

/-- Two entities share an identifier if they share the key. -/
theorem ident_eq_iff (hd : d ∈ es) (he : e ∈ es) :
    ident m (give m [] es) d = ident m (give m [] es) e ↔ m.key d = m.key e := by
  obtain ⟨b, hb, hdb⟩ := exists_row (m := m) hd
  obtain ⟨c, hc, hec⟩ := exists_row (m := m) he
  rw [ident, ident, hdb, hec]
  constructor
  · intro htext
    have hinj := List.inj_on_of_nodup_map (nodup_of_numbered (numbered_give (m := m) es))
    have hrow := hinj (List.mem_of_find?_eq_some hb) (List.mem_of_find?_eq_some hc) htext
    have hbkey : b.key = m.key d := by simpa using List.find?_some hb
    have hckey : c.key = m.key e := by simpa using List.find?_some hc
    rw [← hbkey, ← hckey, hrow]
  · intro hkey
    rw [hkey, hc] at hb
    cases hb
    rfl

theorem exists_run (h : generate m p = .ok text) :
    ∃ st, block m 0 p.statements ⟨[], #[]⟩ = .ok () st ∧ st.text = text := by
  unfold generate run at h
  cases hblock : block m 0 p.statements ⟨[], #[]⟩ with
  | ok u st =>
    rw [hblock] at h
    exact ⟨st, rfl, Except.ok.inj h⟩
  | error e st =>
    rw [hblock] at h
    cases h

theorem marks_lines {ls : List String} (h : ∀ l ∈ ls, Inline l) :
    ((String.intercalate "\n" ls).toList.splitOn '\n').flatMap marksOf =
      ls.flatMap fun l => marksOf l.toList := by
  cases ls with
  | nil => rfl
  | cons l ls =>
    have hsep : ∀ cs ∈ (l :: ls).map String.toList, '\n' ∉ cs :=
      List.forall_mem_map.2 fun l hl hmem => h l hl _ hmem rfl
    have hsplit := List.splitOn_intercalate '\n' hsep (by simp)
    rw [String.toList_intercalate, show "\n".toList = ['\n'] from rfl, hsplit, List.flatMap_map]

/-- The blocks of a script are those of its program. -/
theorem blocks_eq (hp : p.Spelled) (h : generate m p = .ok text) :
    blocks text = p.blocks.map (·.map (ident m (give m [] p.named))) := by
  obtain ⟨st, hblock, rfl⟩ := exists_run h
  have hnames : st.names = give m [] p.named := (names_block m 0 p.statements _ _ _ hblock).1
  obtain ⟨hlaid, hmarks⟩ := lays_run hp hblock
  rw [blocks, State.text, marks_lines hlaid.inline, hmarks, Program.collect_marks, hnames]

example : blocks "let x_1 = true;\nif (x_1) \x7b\n  let y_2 = 1;\n\x7d else \x7b\n  let y_3 = 2;\n\x7d" =
    [["y_2"], ["y_3"], ["x_1"]] := by decide

/-- A script declares nothing twice in a block if and only if no block of its program declares two entities
that share a key. -/
theorem nodup_blocks_iff (hp : p.Spelled) (h : generate m p = .ok text) :
    (∀ b ∈ blocks text, b.Nodup) ↔ ∀ b ∈ p.blocks, (b.map m.key).Nodup := by
  rw [blocks_eq hp h, List.forall_mem_map]
  refine forall₂_congr fun b hb => ?_
  have hmem := (p.within b hb).2.subset
  rw [List.Nodup, List.pairwise_map, List.Nodup, List.pairwise_map]
  exact List.Pairwise.iff_of_mem fun hd he => not_congr (ident_eq_iff (hmem hd) (hmem he))

end Scripts

end Snack.Script
