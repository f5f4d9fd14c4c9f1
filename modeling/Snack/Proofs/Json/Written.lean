import Snack.Json.Render
import Snack.Proofs.Json.Numeral

/-! What is written is read back. Every string, with all its quotes, backslashes and control characters, comes
back as it was, and so do integers, lists, and objects of distinct keys in the order of their fields. -/

namespace Snack.Json

open Numeral (isDigit inNumber Digits)

/-! ### Strings -/

theorem codeUnit?_hexDigit : ∀ n < 32, codeUnit? '0' '0' (hexDigit (n / 16)) (hexDigit (n % 16)) = some n := by
  decide

/-- One character comes back from the way it is written. -/
theorem stringTail_escape (c : Char) (cs : List Char) :
    stringTail (escape c ++ cs) = (stringTail cs).map (Prod.map (c :: ·) id) := by
  unfold escape
  split
  · rfl
  · rfl
  · rfl
  · rfl
  · rfl
  · rfl
  · rfl
  · next hquote hslash _ _ _ _ _ =>
    split
    · next hc =>
      have hunit := codeUnit?_hexDigit c.toNat hc
      have hhigh : isHigh c.toNat = false := by simp [isHigh]; omega
      have hlow : isLow c.toNat = false := by simp [isLow]; omega
      simp [stringTail, hunit, hhigh, hlow]
    · next hc =>
      rw [List.singleton_append, stringTail, if_neg (not_or.2 ⟨hc, hslash⟩)]
      · exact hquote
      · exact fun _ _ _ _ _ h => absurd h hslash
      · exact fun _ _ h => absurd h hslash

theorem stringTail_flatMap (s rest : List Char) :
    stringTail (s.flatMap escape ++ '"' :: rest) = some (s, rest) := by
  induction s with
  | nil => rfl
  | cons c s ih =>
    rw [List.flatMap_cons, List.append_assoc, stringTail_escape, ih]
    rfl

theorem string?_quoted (s : String) (rest : List Char) : string? (quoted s ++ rest) = some (s, rest) := by
  have hcons : quoted s ++ rest = '"' :: (s.toList.flatMap escape ++ '"' :: rest) := by simp [quoted]
  rw [hcons, string?, stringTail_flatMap]
  simp

/-! ### Values to be written -/

/-- The keys of every object are distinct. -/
inductive Distinct : Json → Prop where
  | null : Distinct null
  | bool (b) : Distinct (bool b)
  | int (n) : Distinct (int n)
  | float (x) : Distinct (float x)
  | str (s) : Distinct (str s)
  | arr {items} (h : ∀ j ∈ items, Distinct j) : Distinct (arr items)
  | obj {fields} (hk : (fields.map Prod.fst).Nodup) (h : ∀ f ∈ fields, Distinct f.2) : Distinct (obj fields)

/-- A value whose objects have distinct keys and whose floats are finite. -/
inductive Plain : Json → Prop where
  | null : Plain null
  | bool (b) : Plain (bool b)
  | int (n) : Plain (int n)
  | float {x} (h : Shortest.IsFinite x) : Plain (float x)
  | str (s) : Plain (str s)
  | arr {items} (h : ∀ j ∈ items, Plain j) : Plain (arr items)
  | obj {fields} (hk : (fields.map Prod.fst).Nodup) (h : ∀ f ∈ fields, Plain f.2) : Plain (obj fields)

theorem Plain.distinct {j : Json} (h : Plain j) : Distinct j := by
  induction h with
  | null => exact .null
  | bool b => exact .bool b
  | int n => exact .int n
  | float => exact .float _
  | str s => exact .str s
  | arr _ ih => exact .arr ih
  | obj hk _ ih => exact .obj hk ih

/-- A float as it is read back: as its name if it is not finite. -/
def ofFloat (x : Float) : Json :=
  match Number.unpack x with
  | .notANumber => str "NaN"
  | .infinity .positive => str "Infinity"
  | .infinity .negative => str "-Infinity"
  | _ => float x

mutual

/-- A value as it is read back. -/
def asRead : Json → Json
  | float x => ofFloat x
  | arr items => arr (itemsAsRead items)
  | obj fields => obj (fieldsAsRead fields)
  | j => j

def itemsAsRead : List Json → List Json
  | [] => []
  | j :: items => j.asRead :: itemsAsRead items

def fieldsAsRead : List (String × Json) → List (String × Json)
  | [] => []
  | (key, j) :: fields => (key, j.asRead) :: fieldsAsRead fields

end

theorem itemsAsRead_eq_map (items : List Json) : itemsAsRead items = items.map asRead := by
  induction items with
  | nil => rfl
  | cons j items ih => rw [itemsAsRead, ih, List.map_cons]

theorem fieldsAsRead_eq_map (fields : List (String × Json)) :
    fieldsAsRead fields = fields.map (Prod.map id asRead) := by
  induction fields with
  | nil => rfl
  | cons f fields ih =>
    obtain ⟨key, j⟩ := f
    rw [fieldsAsRead, ih, List.map_cons]
    rfl

/-- A finite value is read back as it was. -/
theorem Plain.asRead_eq {j : Json} (h : Plain j) : j.asRead = j := by
  induction h with
  | null | bool | int | str => rfl
  | float h =>
    cases h with
    | zero h => simp only [asRead, ofFloat, h]
    | finite h => simp only [asRead, ofFloat, h]
  | arr _ ih => rw [asRead, itemsAsRead_eq_map, List.map_congr_left ih, List.map_id']
  | obj _ _ ih =>
    have hfields : ∀ f ∈ _, Prod.map id asRead f = f := fun f hf => Prod.ext rfl (ih f hf)
    rw [asRead, fieldsAsRead_eq_map, List.map_congr_left hfields, List.map_id']

/-- Only finite floats are read back as floats. -/
theorem Distinct.plain_asRead {j : Json} (h : Distinct j) : Plain j.asRead := by
  induction h with
  | null => exact .null
  | bool b => exact .bool b
  | int n => exact .int n
  | float x =>
    rcases hx : Number.unpack x with s | _ | s | ⟨s, m, e, hm⟩
    · cases s <;> simp only [asRead, ofFloat, hx] <;> exact .str _
    · simp only [asRead, ofFloat, hx]
      exact .str _
    · simp only [asRead, ofFloat, hx]
      exact .float (.zero hx)
    · simp only [asRead, ofFloat, hx]
      exact .float (.finite hx)
  | str s => exact .str s
  | arr _ ih =>
    rw [asRead, itemsAsRead_eq_map]
    exact .arr (List.forall_mem_map.2 ih)
  | obj hk _ ih =>
    rw [asRead, fieldsAsRead_eq_map]
    refine .obj ?_ (List.forall_mem_map.2 ih)
    rw [List.map_map]
    exact hk

/-! ### Lists and objects -/

/-- Nothing here makes a number in front of it longer. -/
def Ends (rest : List Char) : Prop := ∀ c ∈ rest.head?, inNumber c = false

/-- The reader gives `a` for what is written of at most `n` characters. -/
def Returns {α : Type} (item : List Char → Option (α × List Char)) (n : Nat) (write : List Char → List Char)
    (a : α) : Prop :=
  ∀ rest, Ends rest → (write rest).length ≤ n → item (write rest) = some (a, rest)

/-- What is written starts neither with white space nor with the mark that closes a list. -/
def Starts (close : Char) (write : List Char → List Char) : Prop :=
  ∀ rest, ∃ c cs, write rest = c :: cs ∧ isSpace c = false ∧ c ≠ close

theorem skip_newLine (depth : Nat) (cs : List Char) : skip (newLine depth cs) = skip cs := by
  have hspaces : ∀ c ∈ List.replicate (2 * depth) ' ', isSpace c = true := by
    intro c hc
    rw [List.eq_of_mem_replicate hc]
    rfl
  rw [skip, newLine, List.dropWhile_cons_of_pos rfl, List.dropWhile_append_of_pos hspaces, skip]

theorem length_newLine (depth : Nat) (cs : List Char) : (newLine depth cs).length = cs.length + 2 * depth + 1 := by
  rw [newLine, List.length_cons, List.length_append, List.length_replicate]
  omega

theorem skip_cons {c : Char} (h : isSpace c = false) (cs : List Char) : skip (c :: cs) = c :: cs :=
  List.dropWhile_cons_of_neg (by simp [h])

section

variable {α β : Type} {item : List Char → Option (β × List Char)} {form : List Char → Prop} {close : Char}
variable {write : α → List Char → List Char} {g : α → β} {n : Nat}

/-- The items after the first one, each behind a comma and on a line of its own. -/
def following (write : α → List Char → List Char) (depth : Nat) (as : List α) (rest : List Char) : List Char :=
  as.foldr (fun a text => ',' :: newLine depth (write a text)) rest

theorem ends_following (write : α → List Char → List Char) (depth depth' : Nat) (as : List α) (rest : List Char) :
    Ends (following write depth as (newLine depth' rest)) := by
  cases as <;> rintro c ⟨⟩ <;> rfl

theorem skip_write {a : α} (h : Starts close (write a)) (rest : List Char) :
    skip (write a rest) = write a rest ∧ Text.after? [close] (write a rest) = none := by
  obtain ⟨c, cs, hcons, hspace, hclose⟩ := h rest
  rw [hcons]
  exact ⟨skip_cons hspace cs, Text.after?_cons_of_ne hclose [] cs⟩

theorem length_le_of_returns (htakes : Takes item form) {a : α} (h : Returns item n (write a) (g a))
    {rest : List Char} (hr : Ends rest) (hlen : (write a rest).length ≤ n) :
    rest.length ≤ (write a rest).length := by
  obtain ⟨v, -, hv⟩ := htakes _ _ _ (h rest hr hlen)
  rw [hv, List.length_append]
  omega

theorem after?_mark_cons (c : Char) (cs : List Char) : Text.after? [c] (c :: cs) = some cs :=
  Text.after?_eq_some.2 rfl

theorem series_following {as : List α} (htakes : Takes item form)
    (has : ∀ a ∈ as, Returns item n (write a) (g a) ∧ Starts close (write a)) (hcomma : close ≠ ',')
    (hspace : isSpace close = false) (depth depth' : Nat) (rest : List Char) {m : Nat} (hn : m ≤ n)
    (hm : (following write depth as (newLine depth' (close :: rest))).length ≤ m) :
    series item close m (following write depth as (newLine depth' (close :: rest))) = some (as.map g, rest) := by
  -- `m` goes down with each item that is read, while the items are all read with `n`
  induction as generalizing m with
  | nil =>
    obtain ⟨m, rfl⟩ : ∃ k, m = k + 1 := Nat.exists_eq_add_one_of_ne_zero (by rintro rfl; cases hm)
    rw [following, List.foldr_nil, series, skip_newLine, skip_cons hspace, after?_mark_cons]
    rfl
  | cons a as ih =>
    obtain ⟨m, rfl⟩ : ∃ k, m = k + 1 := Nat.exists_eq_add_one_of_ne_zero (by rintro rfl; cases hm)
    obtain ⟨⟨hitem, hstarts⟩, has⟩ := List.forall_mem_cons.1 has
    have hends := ends_following write depth depth' as (close :: rest)
    change (newLine depth (write a (following write depth as (newLine depth' (close :: rest))))).length + 1 ≤
      m + 1 at hm
    change series item close (m + 1)
      (',' :: newLine depth (write a (following write depth as (newLine depth' (close :: rest))))) = _
    generalize hacc : following write depth as (newLine depth' (close :: rest)) = acc at *
    rw [length_newLine] at hm
    have hlen := length_le_of_returns htakes hitem hends (by omega)
    have hseries : series item close m acc = some (as.map g, rest) := ih has (by omega) (by omega)
    rw [series, skip_cons rfl, Text.after?_cons_of_ne hcomma.symm]
    simp only [after?_mark_cons, skip_newLine, (skip_write hstarts acc).1, hitem acc hends (by omega), hseries,
      Option.bind_eq_bind, Option.bind_some]
    rfl

/-- A list of items, each on a line of its own, is read. -/
theorem listed_following {a : α} {as : List α} (htakes : Takes item form)
    (has : ∀ b ∈ a :: as, Returns item n (write b) (g b) ∧ Starts close (write b)) (hcomma : close ≠ ',')
    (hspace : isSpace close = false) (depth depth' : Nat) (rest : List Char)
    (hn : (newLine depth (write a (following write depth as (newLine depth' (close :: rest))))).length ≤ n) :
    listed item close n (newLine depth (write a (following write depth as (newLine depth' (close :: rest))))) =
      some ((a :: as).map g, rest) := by
  obtain ⟨⟨hitem, hstarts⟩, has⟩ := List.forall_mem_cons.1 has
  have hends := ends_following write depth depth' as (close :: rest)
  rw [length_newLine] at hn
  have hlen := length_le_of_returns htakes hitem hends (by omega)
  have hseries := series_following htakes has hcomma hspace depth depth' rest (Nat.le_refl n) (by omega)
  obtain ⟨hskip, hopen⟩ := skip_write hstarts (following write depth as (newLine depth' (close :: rest)))
  rw [listed, skip_newLine, hskip, hopen]
  simp only [hitem _ hends (by omega), hseries, Option.bind_eq_bind, Option.bind_some]
  rfl

end

theorem renderItems_eq (depth : Nat) (items : List Json) (rest : List Char) :
    renderItems depth items rest = following (render depth) depth items rest := by
  induction items with
  | nil => rfl
  | cons j items ih => rw [renderItems, ih, following, following, List.foldr_cons]

/-- A name with its value, in front of what follows it. -/
def renderField (depth : Nat) (f : String × Json) (rest : List Char) : List Char :=
  quoted f.1 ++ ':' :: ' ' :: render depth f.2 rest

theorem renderFields_eq (depth : Nat) (fields : List (String × Json)) (rest : List Char) :
    renderFields depth fields rest = following (renderField depth) depth fields rest := by
  induction fields with
  | nil => rfl
  | cons f fields ih =>
    obtain ⟨key, j⟩ := f
    rw [renderFields, ih, following, following, List.foldr_cons]
    rfl

theorem render_arr_cons (depth : Nat) (j : Json) (items : List Json) (rest : List Char) :
    render depth (arr (j :: items)) rest = '[' :: newLine (depth + 1) (render (depth + 1) j
      (following (render (depth + 1)) (depth + 1) items (newLine depth (']' :: rest)))) := by
  rw [render, renderItems_eq]

theorem render_obj_cons (depth : Nat) (f : String × Json) (fields : List (String × Json)) (rest : List Char) :
    render depth (obj (f :: fields)) rest = '\x7b' :: newLine (depth + 1) (renderField (depth + 1) f
      (following (renderField (depth + 1)) (depth + 1) fields (newLine depth ('\x7d' :: rest)))) := by
  rw [render, renderFields_eq, renderField]

/-! ### Values -/

theorem IsNumber.inNumber {cs : List Char} (h : IsNumber cs) : ∀ c ∈ cs, inNumber c = true := by
  cases h with
  | pos h => exact h.spelling.inNumber
  | neg h => exact List.forall_mem_cons.2 ⟨rfl, h.spelling.inNumber⟩

/-- A number starts with a digit or a minus sign. -/
theorem IsNumber.head {cs : List Char} (h : IsNumber cs) :
    ∃ c ds, cs = c :: ds ∧ (c = '-' ∨ isDigit c = true) := by
  cases h with
  | pos h =>
    obtain ⟨hw, -, -⟩ := h
    obtain ⟨d, ds, rfl⟩ := List.exists_cons_of_ne_nil hw.isDigits.ne_nil
    exact ⟨d, _, rfl, .inr (hw.isDigits.all d List.mem_cons_self)⟩
  | neg h => exact ⟨'-', _, rfl, .inl rfl⟩

/-- No other value starts like a number. -/
theorem ne_of_number {c : Char} (h : c = '-' ∨ isDigit c = true) :
    ∀ d ∈ ['[', '\x7b', 'n', 't', 'f', '"', ']'], c ≠ d := by
  have hmarks : ∀ d ∈ ['[', '\x7b', 'n', 't', 'f', '"', ']'], d ≠ '-' ∧ isDigit d = false := by simp [isDigit]
  rintro d hd rfl
  rcases h with rfl | h
  · exact (hmarks '-' hd).1 rfl
  · exact absurd ((hmarks c hd).2.symm.trans h) (by decide)

theorem value_atom {c : Char} (hopen : c ≠ '[') (hopen' : c ≠ '\x7b') (cs : List Char) (n : Nat) :
    value (n + 1) (c :: cs) = atom? (c :: cs) := by
  rw [value]
  · rintro cs ⟨⟩
    exact hopen rfl
  · rintro cs ⟨⟩
    exact hopen' rfl

/-- A number is read up to where it ends. -/
theorem value_number {cs rest : List Char} {j : Json} (h : IsNumber cs) (hj : numeral? cs = some j) (hr : Ends rest)
    (n : Nat) : value (n + 1) (cs ++ rest) = some (j, rest) := by
  have hnumber : number? (cs ++ rest) = some (j, rest) := by
    have hrest : rest.takeWhile inNumber = [] ∧ rest.dropWhile inNumber = rest := by
      cases rest with
      | nil => exact ⟨rfl, rfl⟩
      | cons c rest => simp [hr c rfl]
    rw [number?, List.takeWhile_append_of_pos h.inNumber, List.dropWhile_append_of_pos h.inNumber, hrest.1,
      hrest.2, List.append_nil, hj]
    rfl
  obtain ⟨c, ds, rfl, hc⟩ := h.head
  have hne := ne_of_number hc
  have hstring : string? (c :: (ds ++ rest)) = none := by
    rw [string?]
    rintro cs ⟨⟩
    exact hne '"' (by simp) rfl
  rw [List.cons_append] at hnumber ⊢
  rw [value_atom (hne '[' (by simp)) (hne '\x7b' (by simp)), atom?, Text.after?_cons_of_ne (hne 'n' (by simp)),
    Text.after?_cons_of_ne (hne 't' (by simp)), Text.after?_cons_of_ne (hne 'f' (by simp)), hstring, hnumber]
  rfl

theorem value_quoted (s : String) (rest : List Char) (n : Nat) :
    value (n + 1) (quoted s ++ rest) = some (str s, rest) := by
  have hatom : value (n + 1) (quoted s ++ rest) =
      ((string? (quoted s ++ rest)).map (Prod.map str id) <|> number? (quoted s ++ rest)) :=
    value_atom (by decide) (by decide) _ n
  rw [hatom, string?_quoted]
  rfl

/-- A float is read up to where it ends, and as its name if it is not finite. -/
theorem value_float {rest : List Char} (x : Float) (hr : Ends rest) (n : Nat) :
    value (n + 1) (floatText x ++ rest) = some (ofFloat x, rest) := by
  rcases hx : Number.unpack x with s | _ | s | ⟨s, m, e, hm⟩
  · cases s <;> simp only [floatText, ofFloat, Shortest.text, hx] <;> exact value_quoted _ rest n
  · simp only [floatText, ofFloat, Shortest.text, hx]
    exact value_quoted _ rest n
  · have hnumber := numeral?_float (.zero hx)
    simp only [floatText, ofFloat, hx]
    exact value_number hnumber.1 hnumber.2 hr n
  · have hnumber := numeral?_float (.finite hx)
    simp only [floatText, ofFloat, hx]
    exact value_number hnumber.1 hnumber.2 hr n

theorem starts_number {cs : List Char} (h : IsNumber cs) : Starts ']' (cs ++ ·) := by
  intro rest
  obtain ⟨c, ds, rfl, hc⟩ := h.head
  refine ⟨c, ds ++ rest, rfl, ?_, ne_of_number hc ']' (by simp)⟩
  rcases hc with rfl | hc
  · rfl
  · rw [Bool.eq_false_iff]
    intro hspace
    simp only [isSpace, Bool.or_eq_true, beq_iff_eq] at hspace
    rcases hspace with ((rfl | rfl) | rfl) | rfl <;> exact absurd hc (by decide)

theorem starts_render (depth : Nat) (j : Json) : Starts ']' (render depth j) := by
  have hquoted (s : String) : Starts ']' (quoted s ++ ·) := fun rest => ⟨'"', _, rfl, rfl, by decide⟩
  cases j with
  | null => exact fun rest => ⟨'n', _, rfl, rfl, by decide⟩
  | bool b => cases b <;> exact fun rest => ⟨_, _, rfl, rfl, by decide⟩
  | int n => exact starts_number (numeral?_int n).1
  | float x =>
    show Starts ']' (floatText x ++ ·)
    unfold floatText
    split
    · next h => exact starts_number (numeral?_float (.zero h)).1
    · next h => exact starts_number (numeral?_float (.finite h)).1
    · exact hquoted _
  | str s => exact hquoted s
  | arr items => cases items <;> exact fun rest => ⟨'[', _, rfl, rfl, by decide⟩
  | obj fields =>
    cases fields with
    | nil => exact fun rest => ⟨'\x7b', _, rfl, rfl, by decide⟩
    | cons f fields => exact fun rest => ⟨'\x7b', _, rfl, rfl, by decide⟩

theorem starts_renderField (depth : Nat) (f : String × Json) : Starts '\x7d' (renderField depth f) := by
  intro rest
  exact ⟨'"', _, rfl, rfl, by decide⟩

theorem returns_field {n depth : Nat} {f : String × Json} (h : Returns (value n) n (render depth f.2) f.2.asRead) :
    Returns (field (value n)) n (renderField depth f) (Prod.map id asRead f) := by
  intro rest hr hlen
  obtain ⟨c, cs, hcons, hspace, -⟩ := starts_render depth f.2 rest
  have hskip : skip (' ' :: render depth f.2 rest) = render depth f.2 rest := by
    rw [hcons]
    exact skip_cons hspace cs
  have hvalue := h rest hr (by simp [renderField] at hlen; omega)
  rw [field, renderField, string?_quoted]
  simp only [Option.bind_eq_bind, Option.bind_some, skip_cons (c := ':') rfl, after?_mark_cons, hskip, hvalue]
  rfl

/-- Nothing is read of an empty text, but none is written. -/
theorem returns_of_succ {j : Json}
    (h : ∀ n depth rest, Ends rest → (render depth j rest).length ≤ n + 1 →
      value (n + 1) (render depth j rest) = some (j.asRead, rest)) (n depth : Nat) :
    Returns (value n) n (render depth j) j.asRead := by
  intro rest hr hlen
  cases n with
  | zero =>
    obtain ⟨c, cs, hcons, -⟩ := starts_render depth j rest
    rw [hcons] at hlen
    cases hlen
  | succ n => exact h n depth rest hr hlen

/-- What is written of a value is read. -/
theorem value_render {j : Json} (h : Distinct j) (n depth : Nat) (rest : List Char) (hr : Ends rest)
    (hlen : (render depth j rest).length ≤ n + 1) :
    value (n + 1) (render depth j rest) = some (j.asRead, rest) := by
  induction h generalizing n depth rest with
  | null => rfl
  | bool b => cases b <;> rfl
  | int k => exact value_number (numeral?_int k).1 (numeral?_int k).2 hr n
  | float x => exact value_float x hr n
  | str s => exact value_quoted s rest n
  | @arr items h ih =>
    cases items with
    | nil => rfl
    | cons j items =>
      have hitems : ∀ i ∈ j :: items, Returns (value n) n (render (depth + 1) i) i.asRead ∧
          Starts ']' (render (depth + 1) i) := fun i hi =>
        ⟨returns_of_succ (fun n depth rest hr hlen => ih i hi n depth rest hr hlen) n _, starts_render _ i⟩
      rw [render_arr_cons] at hlen ⊢
      rw [value, listed_following (takes_value n) hitems (by decide) rfl _ _ _ (Nat.le_of_succ_le_succ hlen),
        asRead, itemsAsRead_eq_map]
      rfl
  | @obj fields hk h ih =>
    cases fields with
    | nil => rfl
    | cons f fields =>
      have hfields : ∀ g ∈ f :: fields,
          Returns (field (value n)) n (renderField (depth + 1) g) (Prod.map id asRead g) ∧
            Starts '\x7d' (renderField (depth + 1) g) := fun g hg =>
        ⟨returns_field (returns_of_succ (fun n depth rest hr hlen => ih g hg n depth rest hr hlen) n _),
          starts_renderField _ g⟩
      have hkeys : (([] ++ (f :: fields).map (Prod.map id asRead)).map Prod.fst).Nodup := by
        rw [List.nil_append, List.map_map]
        exact hk
      -- the reader puts the fields into an object one by one, where an earlier key would be overwritten
      rw [render_obj_cons] at hlen ⊢
      rw [value, listed_following (takes_field (takes_value n)) hfields (by decide) rfl _ _ _
        (Nat.le_of_succ_le_succ hlen), asRead, fieldsAsRead_eq_map]
      exact congrArg (fun fs => some (obj fs, rest)) (Table.foldl_put hkeys)

/-- The text of a value of distinct keys is read, as the value itself but for the floats that are not finite. -/
theorem read_text {j : Json} (h : Distinct j) : read j.text = some j.asRead := by
  have hstart : skip (render 0 j []) = render 0 j [] := (skip_write (starts_render 0 j) []).1
  have hvalue := value_render h (render 0 j []).length 0 [] (by simp [Ends]) (Nat.le_succ _)
  rw [read, text, String.toList_ofList, String.length_ofList, hstart, hvalue]
  rfl

end Snack.Json
