import Snack.Proofs.Text.After
import Snack.Proofs.Token.Scan
import Snack.Proofs.Typing.Assignable
import Snack.Typing.Error

/-! The names of types in messages. A name is read from the left: a bracket opens what its counterpart closes,
a word is a primitive type or a class, question marks belong to what is in front of them, and an arrow takes
all that follows as a result. So the result of a function may be optional and a function may not, and all
other types can be told apart by their names. -/

namespace Snack.Ty

open Token (isLetter isWordChar Word)

/-! ### Types that can be told apart -/

/-- A word that begins with a letter. -/
structure Identifier (s : String) : Prop where
  head : ∃ c, s.toList.head? = some c ∧ isLetter c = true
  word : Word s

/-- Classes whose names tell them from each other and from the primitive types. -/
structure Distinct (classes : List StructRef) : Prop where
  identifier : ∀ s ∈ classes, Identifier s.name
  ne_prim : ∀ s ∈ classes, ∀ p : Prim, s.name ≠ p.name
  eq_of_name : ∀ s ∈ classes, ∀ t ∈ classes, s.name = t.name → s = t

/-- Types of all kinds over some classes, but no optional functions. -/
inductive Legible (classes : List StructRef) : Ty → Prop where
  | prim (p : Prim) : Legible classes (.prim p)
  | array {t : Ty} (h : Legible classes t) : Legible classes (.array t)
  | dict {k v : Ty} (hk : Legible classes k) (hv : Legible classes v) : Legible classes (.dict k v)
  | tuple {ts : List Ty} (h : ∀ t ∈ ts, Legible classes t) : Legible classes (.tuple ts)
  | optional {t : Ty} (h : Legible classes t) (hf : ∀ ps r, t ≠ .function ps r) : Legible classes (.optional t)
  | function {ps : List Ty} {r : Ty} (hp : ∀ p ∈ ps, Legible classes p) (hr : Legible classes r) :
      Legible classes (.function ps r)
  | struct {s : StructRef} (h : s ∈ classes) : Legible classes (.struct s)

variable {classes : List StructRef}

theorem Legible.known {t : Ty} (h : t.Legible classes) : t.Known := by
  induction h with
  | prim p => exact .prim p
  | array _ ih => exact .array ih
  | dict _ _ ihk ihv => exact .dict ihk ihv
  | tuple _ ih => exact .tuple ih
  | optional _ _ ih => exact .optional ih
  | function _ _ ihp ihr => exact .function ihp ihr
  | struct _ => exact .struct _

/-! ### Names in front of a text -/

mutual

/-- The name of a type, in front of what follows it. -/
def spell : Ty → List Char → List Char
  | prim p, rest => p.name.toList ++ rest
  | array t, rest => '[' :: spell t (']' :: rest)
  | dict k v, rest => '\x7b' :: spell k (':' :: ' ' :: spell v ('\x7d' :: rest))
  | tuple ts, rest => '(' :: spellAll ts (')' :: rest)
  | optional t, rest => spell t ('?' :: rest)
  | function ps r, rest => '(' :: spellAll ps (')' :: '-' :: '>' :: spell r rest)
  | struct s, rest => s.name.toList ++ rest
  | other n, rest => n.toList ++ rest

def spellAll : List Ty → List Char → List Char
  | [], rest => rest
  | [t], rest => spell t rest
  | t :: u :: ts, rest => spell t (',' :: ' ' :: spellAll (u :: ts) rest)

end

mutual

theorem spell_eq (t : Ty) (rest : List Char) : t.spell rest = t.name.toList ++ rest := by
  cases t with
  | array t => simp [spell, name, spell_eq t]
  | dict k v => simp [spell, name, spell_eq k, spell_eq v]
  | tuple ts => simp [spell, name, spellAll_eq ts]
  | optional t => simp [spell, name, spell_eq t]
  | function ps r => simp [spell, name, spellAll_eq ps, spell_eq r]
  | prim | struct | other => rfl

theorem spellAll_eq (ts : List Ty) (rest : List Char) :
    spellAll ts rest = (String.intercalate ", " (names ts)).toList ++ rest := by
  rcases ts with _ | ⟨t, _ | ⟨u, ts⟩⟩
  · rfl
  · simp [spellAll, names, spell_eq t]
  · simp [spellAll, names, spell_eq t, spellAll_eq (u :: ts), String.toList_intercalate]

end

/-! ### Reading names -/

/-- The type that is a word of its own. -/
def word? (classes : List StructRef) (w : String) : Option Ty :=
  match Prim.all.find? (·.name = w) with
  | some p => some (.prim p)
  | none => (classes.find? (·.name = w)).map .struct

/-- A type with the question marks behind it. -/
def marked : Ty → List Char → Ty × List Char
  | t, '?' :: cs => marked (.optional t) cs
  | t, cs => (t, cs)

mutual

/-- The type whose name begins a text, and what follows it. Types nest at most `n` deep. -/
def read (classes : List StructRef) : (n : Nat) → List Char → Option (Ty × List Char)
  | 0, _ => none
  | n + 1, cs =>
    match cs with
    | '[' :: cs => do
      let (t, cs) ← read classes n cs
      let cs ← Text.after? [']'] cs
      return marked (.array t) cs
    | '\x7b' :: cs => do
      let (k, cs) ← read classes n cs
      let cs ← Text.after? [':', ' '] cs
      let (v, cs) ← read classes n cs
      let cs ← Text.after? ['\x7d'] cs
      return marked (.dict k v) cs
    | '(' :: cs => do
      let (ts, cs) ← readAll classes n cs
      match Text.after? ['-', '>'] cs with
      | some cs => do
        let (r, cs) ← read classes n cs
        return (.function ts r, cs)
      | none => return marked (.tuple ts) cs
    | cs => do
      let t ← word? classes (.ofList (cs.takeWhile isWordChar))
      return marked t (cs.dropWhile isWordChar)

/-- The types up to a closing parenthesis. -/
def readAll (classes : List StructRef) : (n : Nat) → List Char → Option (List Ty × List Char)
  | 0, _ => none
  | n + 1, cs =>
    match cs with
    | ')' :: cs => some ([], cs)
    | cs => do
      let (t, cs) ← read classes n cs
      match Text.after? [',', ' '] cs with
      | some cs => do
        let (ts, cs) ← readAll classes n cs
        return (t :: ts, cs)
      | none =>
        let cs ← Text.after? [')'] cs
        return ([t], cs)

end

theorem word?_prim (p : Prim) : word? classes p.name = some (.prim p) := by
  cases p <;> rfl

theorem word?_struct (h : Distinct classes) {s : StructRef} (hs : s ∈ classes) :
    word? classes s.name = some (.struct s) := by
  have hprim : Prim.all.find? (·.name = s.name) = none := by
    rw [List.find?_eq_none]
    intro p _ hp
    exact h.ne_prim s hs p (of_decide_eq_true hp).symm
  obtain ⟨t, ht⟩ : ∃ t, classes.find? (·.name = s.name) = some t :=
    Option.isSome_iff_exists.1 (List.find?_isSome.2 ⟨s, hs, decide_eq_true rfl⟩)
  have hname : t.name = s.name := by simpa using List.find?_some ht
  rw [word?, hprim, ht, h.eq_of_name t (List.mem_of_find?_eq_some ht) s hs hname]
  rfl

theorem identifier_prim (p : Prim) : Identifier p.name := by
  cases p <;> exact ⟨⟨_, rfl, rfl⟩, List.all_eq_true.1 (by rfl)⟩

/-- What can follow the name of a type so that it ends there or goes on with question marks only. A question
mark behind a function would belong to its result. -/
structure Follows (t : Ty) (rest : List Char) : Prop where
  word : ∀ c, rest.head? = some c → isWordChar c = false
  arrow : rest.head? ≠ some '-'
  mark : (∃ ps r, t = .function ps r) → rest.head? ≠ some '?'

theorem marked_eq {t : Ty} {rest : List Char} (h : rest.head? ≠ some '?') : marked t rest = (t, rest) := by
  unfold marked
  split
  · exact absurd rfl h
  · rfl

theorem follows_mark {t : Ty} (rest : List Char) (hf : ∀ ps r, t ≠ .function ps r) :
    Follows t ('?' :: rest) where
  word := by rintro _ ⟨⟩; rfl
  arrow := by rintro ⟨⟩
  mark := fun ⟨ps, r, ht⟩ => absurd ht (hf ps r)

/-- A closing mark or a separator ends every name. -/
theorem follows_cons (t : Ty) {c : Char} {rest : List Char} (hw : isWordChar c = false) (ha : c ≠ '-')
    (hm : c ≠ '?') : Follows t (c :: rest) where
  word := by rintro _ ⟨⟩; exact hw
  arrow h := ha (Option.some.inj h)
  mark _ h := hm (Option.some.inj h)

theorem takeWhile_word {w : String} {rest : List Char} (hw : Word w)
    (hr : ∀ c, rest.head? = some c → isWordChar c = false) :
    (w.toList ++ rest).takeWhile isWordChar = w.toList ∧
      (w.toList ++ rest).dropWhile isWordChar = rest := by
  rw [List.takeWhile_append_of_pos hw, List.dropWhile_append_of_pos hw]
  cases rest with
  | nil => simp
  | cons c rest => simp [hr c rfl]

/-- The name of a type that is a word is read as that type. -/
theorem read_word {w : String} {t : Ty} {n : Nat} {rest : List Char} (hw : Identifier w)
    (ht : word? classes w = some t) (hr : ∀ c, rest.head? = some c → isWordChar c = false) :
    read classes (n + 1) (w.toList ++ rest) = some (marked t rest) := by
  obtain ⟨htake, hdrop⟩ := takeWhile_word hw.word hr
  obtain ⟨c, hc, hletter⟩ := hw.head
  obtain ⟨cs, hcs⟩ : ∃ cs, w.toList = c :: cs := List.head?_eq_some_iff.1 hc
  -- a letter opens no bracket
  have hopen {d : Char} (hd : isLetter d = false) (ds : List Char) : w.toList ++ rest ≠ d :: ds := by
    rw [hcs]
    rintro ⟨⟩
    rw [hd] at hletter
    cases hletter
  rw [read, htake, hdrop, String.ofList_toList, ht]
  · rfl
  · exact hopen rfl
  · exact hopen rfl
  · exact hopen rfl

/-- No name begins with a closing parenthesis. -/
theorem Legible.head_spell (hd : Distinct classes) {t : Ty} (h : t.Legible classes) (rest : List Char) :
    (t.spell rest).head? ≠ some ')' := by
  have hident {w : String} (hw : Identifier w) (rest : List Char) : (w.toList ++ rest).head? ≠ some ')' := by
    obtain ⟨c, hc, hletter⟩ := hw.head
    rw [List.head?_append, hc]
    rintro ⟨⟩
    cases hletter
  induction h generalizing rest with
  | prim p => exact hident (identifier_prim p) rest
  | struct hs => exact hident (hd.identifier _ hs) rest
  | optional _ _ ih => exact ih _
  | array | dict | tuple | function => rintro ⟨⟩

theorem readAll_spellAll (hd : Distinct classes) {ts : List Ty} (hts : ∀ t ∈ ts, t.Legible classes)
    (ih : ∀ t ∈ ts, ∀ n rest, sizeOf t ≤ n → Follows t rest →
      read classes n (t.spell rest) = some (marked t rest)) {n : Nat} (hn : sizeOf ts ≤ n) (rest : List Char) :
    readAll classes n (spellAll ts (')' :: rest)) = some (ts, rest) := by
  induction ts generalizing n with
  | nil =>
    obtain ⟨n, rfl⟩ : ∃ m, n = m + 1 := ⟨n - 1, by simp at hn; omega⟩
    rfl
  | cons t ts ihts =>
    obtain ⟨n, rfl⟩ : ∃ m, n = m + 1 := ⟨n - 1, by simp at hn; omega⟩
    simp only [List.cons.sizeOf_spec] at hn
    obtain ⟨ht, hts⟩ := List.forall_mem_cons.1 hts
    obtain ⟨iht, ih⟩ := List.forall_mem_cons.1 ih
    have hopen (r : List Char) (cs : List Char) (h : t.spell r = ')' :: cs) : False :=
      ht.head_spell hd r (by rw [h]; rfl)
    cases ts with
    | nil =>
      have hread := iht n (')' :: rest) (by omega) (follows_cons t rfl (by decide) (by decide))
      rw [marked_eq (by rintro ⟨⟩)] at hread
      rw [spellAll, readAll, hread]
      · rfl
      · exact hopen _
    | cons u us =>
      have hread := iht n (',' :: ' ' :: spellAll (u :: us) (')' :: rest)) (by omega)
        (follows_cons t rfl (by decide) (by decide))
      rw [marked_eq (by rintro ⟨⟩)] at hread
      rw [spellAll, readAll, hread]
      · show (readAll classes n (spellAll (u :: us) (')' :: rest)) >>= _) = _
        rw [ihts hts ih (by omega)]
        rfl
      · exact hopen _

/-- A name is read as the type that it is the name of, with the question marks behind it. -/
theorem Legible.read_spell (hd : Distinct classes) {t : Ty} (h : t.Legible classes) {n : Nat} {rest : List Char}
    (hn : sizeOf t ≤ n) (hr : Follows t rest) : read classes n (t.spell rest) = some (marked t rest) := by
  induction h generalizing n rest with
  | prim p =>
    obtain ⟨n, rfl⟩ : ∃ m, n = m + 1 := ⟨n - 1, by simp at hn; omega⟩
    exact read_word (identifier_prim p) (word?_prim p) hr.word
  | struct hs =>
    obtain ⟨n, rfl⟩ : ∃ m, n = m + 1 := ⟨n - 1, by simp at hn; omega⟩
    exact read_word (hd.identifier _ hs) (word?_struct hd hs) hr.word
  | optional h hf ih =>
    simp only [optional.sizeOf_spec] at hn
    rw [spell, ih (by omega) (follows_mark rest hf)]
    rfl
  | @array t h ih =>
    simp only [array.sizeOf_spec] at hn
    obtain ⟨n, rfl⟩ : ∃ m, n = m + 1 := ⟨n - 1, by omega⟩
    rw [spell, read, ih (by omega) (follows_cons _ rfl (by decide) (by decide)), marked_eq (by rintro ⟨⟩)]
    rfl
  | @dict k v hk hv ihk ihv =>
    simp only [dict.sizeOf_spec] at hn
    obtain ⟨n, rfl⟩ : ∃ m, n = m + 1 := ⟨n - 1, by omega⟩
    rw [spell, read, ihk (by omega) (follows_cons _ rfl (by decide) (by decide)), marked_eq (by rintro ⟨⟩)]
    show (read classes n (v.spell ('\x7d' :: rest)) >>= _) = _
    rw [ihv (by omega) (follows_cons _ rfl (by decide) (by decide)), marked_eq (by rintro ⟨⟩)]
    rfl
  | @tuple ts hts ih =>
    simp only [tuple.sizeOf_spec] at hn
    obtain ⟨n, rfl⟩ : ∃ m, n = m + 1 := ⟨n - 1, by omega⟩
    have hall := readAll_spellAll hd hts (fun t ht n rest => ih t ht) (n := n) (by omega) rest
    have harrow : Text.after? ['-', '>'] rest = none := by
      cases rest with
      | nil => rfl
      | cons c cs => exact Text.after?_cons_of_ne (fun hc => hr.arrow (by rw [hc]; rfl)) _ _
    rw [spell, read, hall]
    simp [harrow]
  | @function ps r hps _ ihp ihr =>
    simp only [function.sizeOf_spec] at hn
    obtain ⟨n, rfl⟩ : ∃ m, n = m + 1 := ⟨n - 1, by omega⟩
    have hmark := hr.mark ⟨_, _, rfl⟩
    have hall := readAll_spellAll hd hps (fun t ht n rest => ihp t ht) (n := n) (by omega)
    rw [spell, read, hall]
    show (read classes n (r.spell rest) >>= _) = _
    rw [ihr (by omega) ⟨hr.word, hr.arrow, fun _ => hmark⟩, marked_eq hmark, marked_eq hmark]
    rfl

/-! ### Types by their names -/

/-- What ends every name. -/
def Ends (rest : List Char) : Prop :=
  ∀ c, rest.head? = some c → isWordChar c = false ∧ c ≠ '-' ∧ c ≠ '?'

theorem Ends.follows {rest : List Char} (h : Ends rest) (t : Ty) : Follows t rest where
  word c hc := (h c hc).1
  arrow hc := (h _ hc).2.1 rfl
  mark _ hc := (h _ hc).2.2 rfl

theorem ends_nil : Ends [] := by rintro _ ⟨⟩

/-- A name at the head of a text says which type it is the name of and where it ends. -/
theorem Legible.eq_of_name_append (hd : Distinct classes) {a b : Ty} (ha : a.Legible classes)
    (hb : b.Legible classes) {r s : List Char} (hr : Ends r) (hs : Ends s)
    (h : a.name.toList ++ r = b.name.toList ++ s) : a = b ∧ r = s := by
  have hread {t : Ty} {rest : List Char} (ht : t.Legible classes) (he : Ends rest)
      (hn : sizeOf t ≤ sizeOf a + sizeOf b) :
      read classes (sizeOf a + sizeOf b) (t.name.toList ++ rest) = some (t, rest) := by
    rw [← spell_eq, ht.read_spell hd hn (he.follows t), marked_eq fun hc => (he _ hc).2.2 rfl]
  have hsame := (hread ha hr (Nat.le_add_right _ _)).symm.trans
    (h ▸ hread hb hs (Nat.le_add_left _ _))
  exact Prod.mk.inj (Option.some.inj hsame)

theorem Legible.eq_of_name (hd : Distinct classes) {a b : Ty} (ha : a.Legible classes)
    (hb : b.Legible classes) (h : a.name = b.name) : a = b :=
  (ha.eq_of_name_append hd hb ends_nil ends_nil (by rw [h])).1

/-- Two types have one name exactly if they are the same. -/
theorem same_name_iff_equiv (hd : Distinct classes) {a b : Ty} (ha : a.Legible classes)
    (hb : b.Legible classes) : a.name = b.name ↔ a.equiv b = true := by
  constructor
  · intro h
    obtain rfl := ha.eq_of_name hd hb h
    exact ha.known.equiv_self
  · intro h
    rw [eq_of_equiv h]

/-- A function that may give back a box, and perhaps a tuple. -/
theorem same_name_iff_equiv_box :
    let box : StructRef := ⟨7, "Box"⟩
    let f : Ty := .function [.int] (.optional (.struct box))
    let t : Ty := .optional (.tuple [.int, .dict .string (.struct box)])
    Distinct [box] ∧ f.Legible [box] ∧ t.Legible [box] ∧ (f.name = t.name ↔ f.equiv t = true) := by
  intro box f t
  have hname : Identifier "Box" := ⟨⟨'B', rfl, rfl⟩, List.all_eq_true.1 (by rfl)⟩
  have hd : Distinct [box] := by
    refine ⟨List.forall_mem_singleton.2 hname, List.forall_mem_singleton.2 fun p => ?_,
      List.forall_mem_singleton.2 (List.forall_mem_singleton.2 fun _ => rfl)⟩
    cases p <;> decide
  have hbox : Legible [box] (.struct box) := .struct (List.mem_singleton.2 rfl)
  have hf : f.Legible [box] :=
    .function (List.forall_mem_singleton.2 (.prim .int)) (.optional hbox (by rintro _ _ ⟨⟩))
  have ht : t.Legible [box] := .optional (.tuple (List.forall_mem_cons.2 ⟨.prim .int,
    List.forall_mem_singleton.2 (.dict (.prim .string) hbox)⟩)) (by rintro _ _ ⟨⟩)
  exact ⟨hd, hf, ht, same_name_iff_equiv hd hf ht⟩

/-- An optional function has the name of a function with an optional result. -/
example : (Ty.optional (.function [.int] .int)).name = (Ty.function [.int] (.optional .int)).name := rfl

end Snack.Ty

namespace Snack.Typing.Cause

open Ty

/-- A message about two types says which ones they are. -/
theorem message_of_types_iff {classes : List StructRef} (hd : Distinct classes) {a b c d : Ty}
    (ha : a.Legible classes) (hb : b.Legible classes) (hc : c.Legible classes) (he : d.Legible classes) :
    ((notAssignable a b).message = (notAssignable c d).message ↔ a.equiv c = true ∧ b.equiv d = true) ∧
    ((differentTypes a b).message = (differentTypes c d).message ↔ a.equiv c = true ∧ b.equiv d = true) := by
  -- both messages are two names with a text between them that ends the first one
  have hpair (before between : String) (hends : ∀ t : Ty, Ends (between.toList ++ t.name.toList))
      (h : before ++ a.name ++ between ++ b.name = before ++ c.name ++ between ++ d.name) :
      a.equiv c = true ∧ b.equiv d = true := by
    have htext : a.name.toList ++ (between.toList ++ b.name.toList) =
        c.name.toList ++ (between.toList ++ d.name.toList) := by
      have := congrArg String.toList h
      simpa [List.append_assoc] using this
    obtain ⟨rfl, hrest⟩ := ha.eq_of_name_append hd hc (hends b) (hends d) htext
    have hname : b.name = d.name := String.toList_inj.1 (List.append_cancel_left hrest)
    obtain rfl := hb.eq_of_name hd he hname
    exact ⟨ha.known.equiv_self, hb.known.equiv_self⟩
  have hback (h : a.equiv c = true ∧ b.equiv d = true) : a = c ∧ b = d := ⟨eq_of_equiv h.1, eq_of_equiv h.2⟩
  refine ⟨⟨hpair "Cannot assign a " " to a " fun t => ?_, fun h => ?_⟩,
    ⟨hpair "Operands do not have the same type: " ", " fun t => ?_, fun h => ?_⟩⟩
  · rintro _ ⟨⟩; decide
  · rw [(hback h).1, (hback h).2]
  · rintro _ ⟨⟩; decide
  · rw [(hback h).1, (hback h).2]

end Snack.Typing.Cause
