import Snack.Proofs.Script.Brackets

/-! The lines of a script, each of them indented by two blanks for every block that is open around it. A line
that begins with a closing brace is indented like the line that opened its block. Where blocks open and close
and what is declared in them can be read off the lines. -/

namespace Snack.Script

open Snack.Core
open Token (Word)

/-! ### Lines -/

/-- The blanks at the head of a line. -/
def indentation (l : String) : Nat := (l.toList.takeWhile (· == ' ')).length

/-- Whether a line begins with the end of a block. -/
def closesBlock (l : String) : Bool := (l.toList.dropWhile (· == ' ')).head? == some '\x7d'

/-- A reader with `n` blocks open and nothing else. -/
def within (n : Nat) : Reader := ⟨.code, List.replicate n '\x7d'⟩

/-- A line that finds `a` blocks open and leaves `b` open. -/
structure LineIn (a : Nat) (l : String) (b : Nat) : Prop where
  inline : Inline l
  reads : (within a).readAll l.toList = some (within b)
  indented : indentation l + (if closesBlock l then 2 else 0) = 2 * a

/-- Lines of this kind one after another. -/
inductive Laid : Nat → List String → Nat → Prop where
  | nil {n} : Laid n [] n
  | cons {a b c l ls} (h : LineIn a l b) (hs : Laid b ls c) : Laid a (l :: ls) c

section Lines

variable {a b c d : Nat} {l text : String} {ls ks : List String} {ms : List (Mark String)}

theorem Laid.append (h : Laid a ls b) (hs : Laid b ks c) : Laid a (ls ++ ks) c := by
  induction h with
  | nil => exact hs
  | cons hl _ ih => exact .cons hl (ih hs)

theorem Laid.inline (h : Laid a ls b) : ∀ l ∈ ls, Inline l := by
  induction h with
  | nil => simp
  | cons hl _ ih => exact List.forall_mem_cons.2 ⟨hl.inline, ih⟩

/-- The text of whole lines, with the line feed behind the last one. -/
def upTo (ls : List String) : List Char := ls.flatMap fun l => l.toList ++ ['\n']

theorem LineIn.reads_feed (h : LineIn a l b) : (within a).readAll (l.toList ++ ['\n']) = some (within b) := by
  rw [Reader.readAll_append, h.reads]
  rfl

/-- Lines that are laid are read to their end. -/
theorem Laid.reads_text (h : Laid a ls b) :
    (within a).readAll (String.intercalate "\n" ls).toList = some (within b) := by
  induction h with
  | nil => rfl
  | @cons a b c l ls hl hs ih =>
    cases hs with
    | nil => simpa using hl.reads
    | @cons _ _ _ k ks hk hks =>
      have htext : (String.intercalate "\n" (l :: k :: ks)).toList =
          (l.toList ++ ['\n']) ++ (String.intercalate "\n" (k :: ks)).toList := by
        simp [String.toList_intercalate]
      rw [htext, Reader.readAll_append, hl.reads_feed]
      exact ih

theorem Laid.split (h : Laid a (ls ++ l :: ks) c) :
    ∃ n b, (within a).readAll (upTo ls) = some (within n) ∧ LineIn n l b := by
  induction ls generalizing a with
  | nil =>
    cases h with
    | cons hl _ => exact ⟨a, _, rfl, hl⟩
  | cons k ls ih =>
    cases h with
    | @cons _ b _ _ _ hk hs =>
      obtain ⟨n, b', hreads, hl⟩ := ih hs
      refine ⟨n, b', ?_, hl⟩
      rw [upTo, List.flatMap_cons, Reader.readAll_append, hk.reads_feed]
      exact hreads

/-- Lines that close all that they open and are indented as they should be. -/
structure LaidOut (lines : List String) : Prop where
  inline : ∀ l ∈ lines, Inline l
  balanced : Balanced (String.intercalate "\n" lines)
  /-- What is open before a line are blocks, and the line is indented by two blanks for each of them, but not
  for the one that it begins with the end of. -/
  indented : ∀ before l after, lines = before ++ l :: after → ∃ n,
    Reader.start.readAll (upTo before) = some ⟨.code, List.replicate n '\x7d'⟩ ∧
      indentation l + (if closesBlock l then 2 else 0) = 2 * n

theorem Laid.laidOut (h : Laid 0 ls 0) : LaidOut ls where
  inline := h.inline
  balanced := h.reads_text
  indented := by
    rintro before l after rfl
    obtain ⟨n, b, hreads, hl⟩ := h.split
    exact ⟨n, hreads, hl.indented⟩

theorem takeWhile_indent {x : Char} (hx : text.toList.head? = some x) (hblank : x ≠ ' ') :
    indentation (indent d text) = 2 * d ∧ closesBlock (indent d text) = (x == '\x7d') := by
  obtain ⟨xs, htext⟩ : ∃ xs, text.toList = x :: xs := List.head?_eq_some_iff.1 hx
  have hall : ∀ y ∈ List.replicate (2 * d) ' ', (y == ' ') = true := by simp
  unfold indentation closesBlock indent
  rw [String.toList_append, String.toList_ofList, htext, List.takeWhile_append_of_pos hall,
    List.dropWhile_append_of_pos hall]
  simp [hblank]

theorem leads_indent {ds es : List Char} (h : Leads ds text es) : Leads ds (indent d text) es := by
  have hblanks : Leads ds (.ofList (List.replicate (2 * d) ' ')) ds := by
    refine leads_of_kind (q := (· == ' ')) (by decide) fun c hc => ?_
    rw [String.toList_ofList] at hc
    rw [List.eq_of_mem_replicate hc]
    rfl
  exact hblanks.append h

/-- A line that begins with no closing brace. -/
theorem lineIn_phrase {k : Nat} (h : Phrase [] text (List.replicate k '\x7d') ms) :
    LineIn d (indent d text) (d + k) := by
  obtain ⟨x, xs, htext, hx⟩ := h.cons
  have hhead : text.toList.head? = some x := by rw [htext, List.head?_cons]
  have hbrace : x ≠ '\x7d' := fun h' => h.head_ne (h' ▸ hhead)
  obtain ⟨hindent, hcloses⟩ := takeWhile_indent (d := d) hhead hx
  refine ⟨(leads_indent h.toLeads).inline, ?_, by simp [hindent, hcloses, hbrace]⟩
  rw [within, within, Nat.add_comm, ← List.replicate_append_replicate]
  exact (leads_indent h.toLeads).reads _

/-- A line that begins with the end of a block. -/
theorem lineIn_closing {k : Nat} (h : Phrase ['\x7d'] text (List.replicate k '\x7d') [.closes]) :
    LineIn (d + 1) (indent d text) (d + k) := by
  have hhead : text.toList.head? = some '\x7d' := by
    by_contra hne
    have htells := h.head []
    rw [List.append_nil, headMarks, if_neg hne] at htells
    cases hdecl : declared? text.toList <;> simp [hdecl] at htells
  obtain ⟨hindent, hcloses⟩ := takeWhile_indent (d := d) hhead (by decide)
  refine ⟨(leads_indent h.toLeads).inline, ?_, ?_⟩
  · have hreads := (leads_indent (d := d) h.toLeads).reads (List.replicate d '\x7d')
    rw [List.replicate_append_replicate, Nat.add_comm k] at hreads
    exact hreads
  · simp [hindent, hcloses]
    omega

end Lines

/-! ### Writers -/

/-- All names that were given out are identifiers. -/
def Clean (st : State) : Prop := ∀ b ∈ st.names, IsIdentifier b.text

/-- The identifier that an entity has in a table. -/
def ident (m : Mangling) (table : List Binding) (e : Entity) : String := (mangle table (m.key e) e.name).1

/-- The writer lays lines that find `a` blocks open and leave `b` open, and its value has the property. With
the identifiers that entities have from then on, the lines tell `ms`. -/
def Lays {α : Type} (m : Mangling) (a : Nat) (x : Emit α) (b : Nat) (ms : (Entity → String) → List (Mark String))
    (Q : α → Prop) : Prop :=
  ∀ st v st', Clean st → x st = .ok v st' → Clean st' ∧ st.names <+: st'.names ∧ Q v ∧
    ∃ new, st'.lines.toList = st.lines.toList ++ new ∧ Laid a new b ∧
      ∀ table, st'.names <+: table → new.flatMap (fun l => marksOf l.toList) = ms (ident m table)

/-- The writer lays no lines, and its value has the property. -/
abbrev Yields {α : Type} (m : Mangling) (n : Nat) (x : Emit α) (Q : α → Prop) : Prop :=
  Lays m n x n (fun _ => []) Q

/-- Any value will do. -/
def Anything {α : Type} (_ : α) : Prop := True

section Writers

variable {m : Mangling} {a b c d n : Nat} {α β : Type} {x : Emit α} {f : α → Emit β} {Q : α → Prop}
  {R : β → Prop} {text : String} {e : Entity} {ms ns : (Entity → String) → List (Mark String)}

theorem Yields.of_lines_eq (h : ∀ st v st', Clean st → x st = .ok v st' →
    Clean st' ∧ st.names <+: st'.names ∧ Q v ∧ st'.lines = st.lines) : Yields m n x Q := by
  intro st v st' hclean hv
  obtain ⟨hclean', hnames, hQ, hlines⟩ := h st v st' hclean hv
  exact ⟨hclean', hnames, hQ, [], by rw [hlines, List.append_nil], .nil, fun _ _ => rfl⟩

theorem Lays.pure {v : α} (h : Q v) : Yields m n (pure v) Q := by
  refine .of_lines_eq fun st u st' hclean hu => ?_
  obtain ⟨rfl, rfl⟩ := pure_ok.1 hu
  exact ⟨hclean, List.prefix_refl _, h, rfl⟩

theorem Lays.throw (e : Error) : Lays m a (throw e : Emit α) b ms Q :=
  fun _ _ _ _ h => absurd h throw_ok

theorem Lays.bind (hx : Lays m a x b ms Q) (hf : ∀ v, Q v → Lays m b (f v) c ns R) :
    Lays m a (x >>= f) c (fun g => ms g ++ ns g) R := by
  intro st w st' hclean h
  obtain ⟨v, st₁, hv, hw⟩ := bind_ok.1 h
  obtain ⟨hclean₁, hnames, hQ, new, hlines, hlaid, hmarks⟩ := hx st v st₁ hclean hv
  obtain ⟨hclean', hnames', hR, new', hlines', hlaid', hmarks'⟩ := hf v hQ st₁ w st' hclean₁ hw
  refine ⟨hclean', hnames.trans hnames', hR, new ++ new', ?_, hlaid.append hlaid', fun table htable => ?_⟩
  · rw [hlines', hlines, List.append_assoc]
  · rw [List.flatMap_append, hmarks table (hnames'.trans htable), hmarks' table htable]

/-- What is written first has no lines. -/
theorem Lays.next (hx : Yields m a x Q) (hf : ∀ v, Q v → Lays m a (f v) b ns R) : Lays m a (x >>= f) b ns R :=
  hx.bind hf

theorem Lays.imp {Q' : α → Prop} (h : Lays m a x b ms Q) (hQ : ∀ v, Q v → Q' v) : Lays m a x b ms Q' := by
  intro st v st' hclean hv
  obtain ⟨hclean', hnames, hv, hlines⟩ := h st v st' hclean hv
  exact ⟨hclean', hnames, hQ v hv, hlines⟩

/-- A word with a number behind it. -/
theorem isIdentifier_numbered {name : String} (h : Word name) (n : Nat) :
    IsIdentifier (name ++ "_" ++ toString n) := by
  refine ⟨?_, by simp⟩
  rw [Word, String.toList_append, String.toList_append, Nat.toString_eq_repr, Nat.toList_repr]
  refine List.forall_mem_append.2
    ⟨List.forall_mem_append.2 ⟨h, List.forall_mem_singleton.2 (by decide)⟩, fun c hc => ?_⟩
  have hdigit : Token.isDigit c = true := Nat.isDigit_of_mem_toDigits (by decide) (by decide) hc
  rw [Token.isWordChar, hdigit, Bool.or_true]

theorem nameOf_ok {st st' : State} (h : Word e.name) (hclean : Clean st) (hst : nameOf m e st = .ok text st') :
    Clean st' ∧ st.names <+: st'.names ∧ IsIdentifier text ∧ st'.lines = st.lines := by
  unfold nameOf mangle at hst
  cases hfind : st.names.find? fun b => b.key = m.key e with
  | some b =>
    rw [hfind] at hst
    cases hst
    exact ⟨hclean, List.prefix_refl _, hclean b (List.mem_of_find?_eq_some hfind), rfl⟩
  | none =>
    rw [hfind] at hst
    cases hst
    have hnew := isIdentifier_numbered h (st.names.length + 1)
    exact ⟨List.forall_mem_append.2 ⟨hclean, List.forall_mem_singleton.2 hnew⟩, List.prefix_append _ _, hnew, rfl⟩

theorem yields_nameOf (h : Word e.name) : Yields m n (nameOf m e) IsIdentifier :=
  .of_lines_eq fun _ _ _ hclean hst => nameOf_ok h hclean hst

/-- What is told about the identifier of an entity is the same in all tables to come. -/
theorem Lays.named {f : String → Emit β} (ns : String → (Entity → String) → List (Mark String))
    (h : Word e.name) (hf : ∀ text, IsIdentifier text → Lays m a (f text) b (ns text) R) :
    Lays m a (nameOf m e >>= f) b (fun g => ns (g e) g) R := by
  intro st w st' hclean hw
  obtain ⟨text, st₁, hst, hw⟩ := bind_ok.1 hw
  obtain ⟨hclean₁, hnames, hident, hlines⟩ := nameOf_ok h hclean hst
  obtain ⟨hclean', hnames', hR, new, hnew, hlaid, hmarks⟩ := hf text hident st₁ w st' hclean₁ hw
  refine ⟨hclean', hnames.trans hnames', hR, new, by rw [hnew, hlines], hlaid, fun table htable => ?_⟩
  have hkept : ident m table e = text := by
    have hagain := (names_nameOf m e st text st₁ hst).2 table (hnames'.trans htable)
    exact (EStateM.Result.ok.inj hagain).1
  rw [hmarks table htable]
  exact hkept ▸ rfl

theorem yields_namesOf {es : List Entity} (h : ∀ e ∈ es, Word e.name) :
    Yields m n (namesOf m es) (∀ t ∈ ·, IsIdentifier t) := by
  induction es with
  | nil => exact .pure (by simp)
  | cons e es ih =>
    obtain ⟨he, hes⟩ := List.forall_mem_cons.1 h
    exact (yields_nameOf he).next fun t ht => (ih hes).next fun ts hts => .pure (List.forall_mem_cons.2 ⟨ht, hts⟩)

end Writers

/-! ### Expressions -/

section Expressions

variable {m : Mangling} {d n : Nat} {text : String}

theorem IsIdentifier.nested (h : IsIdentifier text) : Nested text := ⟨leads_word h.word, h.tells⟩

theorem yields_builtin (name : String) : Yields m n (builtin name) Nested := by
  unfold builtin
  split
  case h_12 => exact .throw _
  all_goals exact .pure ⟨⟨by decide, fun _ => rfl⟩, by decide, fun _ => rfl⟩

theorem yields_constant (name : String) : Yields m n (constant name) Nested := by
  unfold constant
  split
  case h_4 => exact .throw _
  all_goals exact .pure ⟨⟨by decide, fun _ => rfl⟩, by decide, fun _ => rfl⟩

theorem yields_name {e : Entity} (h : Word e.name) : Yields m n (nameOf m e) Nested :=
  (yields_nameOf h).imp fun _ => IsIdentifier.nested

theorem yields_entity {e : Entity} (h : Nameable e) : Yields m n (entity m e) Nested := by
  unfold entity
  split
  · exact yields_name h.word
  · exact yields_name h.word
  · exact yields_name h.word
  · next hk => exact absurd hk h.value
  · exact .pure ⟨⟨by decide, fun _ => rfl⟩, by decide, fun _ => rfl⟩
  · exact yields_builtin _
  · exact yields_constant _
  · exact .throw _

theorem yields_exprs {es : List Expr} (h : ∀ e ∈ es, Yields m n (expr m d e) Nested) :
    Yields m n (exprs m d es) (∀ t ∈ ·, Nested t) := by
  induction es with
  | nil => exact .pure (by simp)
  | cons e es ih =>
    obtain ⟨he, hes⟩ := List.forall_mem_cons.1 h
    exact he.next fun t ht => (ih hes).next fun ts hts => .pure (List.forall_mem_cons.2 ⟨ht, hts⟩)

theorem yields_entries {es : List (Expr × Expr)} (hk : ∀ e ∈ es, Yields m n (expr m d e.1) Nested)
    (hv : ∀ e ∈ es, Yields m n (expr m d e.2) Nested) :
    Yields m n (entries m d es) (∀ t ∈ ·, Nested t) := by
  induction es with
  | nil => exact .pure (by simp)
  | cons e es ih =>
    obtain ⟨hke, hkes⟩ := List.forall_mem_cons.1 hk
    obtain ⟨hve, hves⟩ := List.forall_mem_cons.1 hv
    refine hke.next fun k hk => hve.next fun v hv => (ih hkes hves).next fun ts hts => .pure ?_
    have hkey : Nested (if isPlainKey e.1 then k else "[" ++ k ++ "]") := by
      split
      · exact hk
      · exact nested_bracketed hk.within
    exact List.forall_mem_cons.2 ⟨(hkey.append (leads_plain (by decide))).append hv.within, hts⟩

theorem leads_separated {ds : List Char} {texts : List String} (h : ∀ t ∈ texts, Nested t) :
    Leads ds (commaSeparated texts) ds :=
  leads_commaSeparated fun t ht => (h t ht).within

theorem leads_binaryOp {ds : List Char} {op : BinaryOp} (h : ∀ text, op ≠ .other text) :
    Leads ds (binaryOp op) ds := by
  cases op with
  | other text => exact absurd rfl (h text)
  | _ => exact leads_plain (by decide)

/-- An expression has no lines of its own, and its text closes what it opens. -/
theorem yields_expr {e : Expr} (h : Spelled e) : Yields m n (expr m d e) Nested := by
  induction h with
  | int n => exact .pure (nested_intLiteral n)
  | float x => exact .pure (nested_floatLiteral x)
  | str s => exact .pure (nested_stringLiteral s)
  | bool b =>
    refine .pure ?_
    cases b <;> exact ⟨⟨by decide, fun _ => rfl⟩, by decide, fun _ => rfl⟩
  | ref h => exact yields_entity h
  | binary hop _ _ ihl ihr =>
    refine ihl.next fun l hl => ihr.next fun r hr => .pure ?_
    have hopen : Phrase [] "(" [')'] [] := ⟨leads_parenthesis, by decide, fun _ => rfl⟩
    have hleft := (hopen.append hl.within).append (b := " ") (leads_plain (by decide))
    have hoperator := (hleft.append (leads_binaryOp hop)).append (b := " ") (leads_plain (by decide))
    exact (hoperator.append hr.within).append leads_closed
  | @unary op e t hop _ ih =>
    simp only [List.mem_cons, List.not_mem_nil, or_false] at hop
    have hopen : Phrase [] ("(" ++ op.text) [')'] [] := by
      rcases hop with rfl | rfl <;> exact ⟨⟨by decide, fun _ => rfl⟩, by decide, fun _ => rfl⟩
    rcases hop with rfl | rfl <;>
      exact ih.next fun o ho => .pure ((hopen.append ho.within).append leads_closed)
  | @call f args t _ _ ihf iha =>
    refine (yields_exprs iha).next fun as has => ?_
    split
    · split
      · exact .pure ((has _ List.mem_cons_self).append (leads_plain (by decide)))
      · exact .throw _
    · refine ihf.next fun g hg => .pure ?_
      exact ((hg.append leads_parenthesis).append (leads_separated has)).append leads_closed
  | construct hc _ iha =>
    refine (yields_exprs iha).next fun as has => (yields_name hc.word).next fun c hc => .pure ?_
    have hnew : Nested "new " := ⟨leads_plain (by decide), by decide, fun _ => rfl⟩
    exact (((hnew.append hc.within).append leads_parenthesis).append (leads_separated has)).append leads_closed
  | @member o op field t hop hn _ ih =>
    refine ih.next fun o ho => ?_
    split
    · have hopen : Phrase [] "Object.entries(" [')'] [] := ⟨⟨by decide, fun _ => rfl⟩, by decide, fun _ => rfl⟩
      exact .pure ((hopen.append ho.within).append leads_closed)
    · have hop : Leads [] op.text [] := by
        simp only [List.mem_cons, List.not_mem_nil, or_false] at hop
        rcases hop with rfl | rfl <;> exact leads_plain (by decide)
      exact .pure ((ho.append hop).append (leads_word hn))
  | array _ ih | tuple _ ih =>
    exact (yields_exprs ih).next fun ts hts => .pure (nested_bracketed (leads_separated hts))
  | dict _ _ ihk ihv =>
    refine (yields_entries ihk ihv).next fun ts hts => .pure ?_
    have hopen : Phrase [] "\x7b" ['\x7d'] [] := ⟨⟨by decide, fun _ => rfl⟩, by decide, fun _ => rfl⟩
    have hclose : Leads ['\x7d'] "\x7d" [] := ⟨by decide, fun _ => rfl⟩
    exact (hopen.append (leads_separated hts)).append hclose
  | emptyArray | emptyOptional => exact .pure ⟨⟨by decide, fun _ => rfl⟩, by decide, fun _ => rfl⟩

end Expressions

/-! ### Statements -/

section Statements

variable {m : Mangling} {a b d : Nat} {text : String} {ms : List (Mark String)} {c : Char}
  {ns ks : (Entity → String) → List (Mark String)}

theorem lays_line (h : LineIn a (indent d text) b) (ht : Tells text ms) (he : Ends c text) :
    Lays m a (line d text) b (fun _ => ms ++ if c = '\x7b' then [.opens] else []) Anything := by
  intro st u st' hclean hst
  obtain rfl := modify_ok.1 hst
  refine ⟨hclean, List.prefix_refl _, trivial, [indent d text], Array.toList_push, .cons h .nil, fun _ _ => ?_⟩
  rw [List.flatMap_singleton, ht.marksOf_indent he]

theorem lays_statement (h : Phrase [] text [] ms) (he : Ends ';' text) :
    Lays m d (line d text) d (fun _ => ms) Anything := by
  have hlays := lays_line (m := m) (lineIn_phrase (d := d) (k := 0) h) h.toTells he
  rwa [if_neg (by decide), List.append_nil] at hlays

theorem lays_opening (h : Phrase [] text ['\x7d'] ms) (he : Ends '\x7b' text) :
    Lays m d (line d text) (d + 1) (fun _ => ms ++ [.opens]) Anything :=
  lays_line (lineIn_phrase (k := 1) h) h.toTells he

theorem lays_brace : Lays m (d + 1) (line d "\x7d") d (fun _ => [.closes]) Anything := by
  have hbrace : Phrase ['\x7d'] "\x7d" [] [.closes] := ⟨⟨by decide, fun _ => rfl⟩, by decide, fun _ => rfl⟩
  exact lays_line (c := '\x7d') (lineIn_closing (k := 0) hbrace) hbrace.toTells (by decide)

/-- A line that ends a block and opens another one. -/
theorem lays_turn (h : Phrase ['\x7d'] text ['\x7d'] [.closes]) (he : Ends '\x7b' text) :
    Lays m (d + 1) (line d text) (d + 1) (fun _ => [.closes] ++ [.opens]) Anything :=
  lays_line (lineIn_closing (k := 1) h) h.toTells he

theorem lays_block {ss : List Stmt} (h : ∀ s ∈ ss, Lays m d (stmt m d s) d s.marks Anything) :
    Lays m d (block m d ss) d (marksIn · ss) Anything := by
  induction ss with
  | nil => exact .pure trivial
  | cons s ss ih =>
    obtain ⟨hs, hss⟩ := List.forall_mem_cons.1 h
    exact hs.bind fun _ _ => ih hss

/-- The head of a block, the block, and what begins with its end. -/
theorem lays_branch {w x y : Emit Unit} (hw : Lays m a w (d + 1) (fun _ => ms ++ [.opens]) Anything)
    (hx : Lays m (d + 1) x (d + 1) ns Anything) (hy : Lays m (d + 1) y d (fun g => .closes :: ks g) Anything) :
    Lays m a (w >>= fun _ => x >>= fun _ => y) d (fun g => ms ++ braced (ns g) ++ ks g) Anything := by
  have hlays := hw.bind fun _ _ => hx.bind fun _ _ => hy
  simpa [braced] using hlays

theorem lays_braced {w x : Emit Unit} (hw : Lays m a w (d + 1) (fun _ => ms ++ [.opens]) Anything)
    (hx : Lays m (d + 1) x (d + 1) ns Anything) :
    Lays m a (w >>= fun _ => x >>= fun _ => line d "\x7d") d (fun g => ms ++ braced (ns g)) Anything := by
  have hlays := lays_branch hw hx lays_brace
  simpa using hlays

/-- The end of the head of a block. -/
theorem leads_head : Leads [')'] ") \x7b" ['\x7d'] := ⟨by decide, fun _ => rfl⟩

theorem lays_fields {fields : List Field} (h : ∀ f ∈ fields, Word f.name) :
    Lays m d (fields.forM fun f => line d ("this." ++ f.name ++ " = " ++ f.name ++ ";")) d (fun _ => [])
      Anything := by
  induction fields with
  | nil => exact .pure trivial
  | cons f fs ih =>
    obtain ⟨hf, hfs⟩ := List.forall_mem_cons.1 h
    have hthis : Nested "this." := ⟨leads_plain (by decide), by decide, fun _ => rfl⟩
    have hleft := (hthis.append (leads_word hf)).append (b := " = ") (leads_plain (by decide))
    have hline := (hleft.append (leads_word hf)).append (b := ";") (leads_plain (by decide))
    exact (lays_statement hline (.append (by decide))).next fun _ _ => ih hfs

theorem lays_constructor {fields : List Field} (h : ∀ f ∈ fields, Word f.name) :
    Lays m d (constructor d fields) d (fun _ => braced []) Anything := by
  have hnames : ∀ t ∈ fields.map (·.name), Leads [')'] t [')'] :=
    List.forall_mem_map.2 fun f hf => leads_word (h f hf)
  have hopen : Phrase [] "constructor(" [')'] [] := ⟨⟨by decide, fun _ => rfl⟩, by decide, fun _ => rfl⟩
  have hhead := (hopen.append (leads_commaSeparated hnames)).append leads_head
  exact lays_braced (lays_opening hhead (.append (by decide))) (lays_fields h)

theorem lays_rangeHead {i : Entity} {low high : Expr} (op : RangeOp) (hi : Word i.name) (hl : Spelled low)
    (hh : Spelled high) : Lays m d (rangeHead m d i low op high) (d + 1) (fun _ => [] ++ [.opens]) Anything := by
  refine (yields_nameOf hi).next fun n hn => (yields_expr hl).next fun lo hlo => (yields_expr hh).next
    fun hi hhi => lays_opening ?_ (.append (by decide))
  have hn : Leads [')'] n [')'] := leads_word hn.word
  have hfor : Phrase [] "for (let " [')'] [] := ⟨⟨by decide, fun _ => rfl⟩, by decide, fun _ => rfl⟩
  have hop : Leads [')'] (if op = .through then "<=" else "<") [')'] := by
    split <;> exact leads_plain (by decide)
  have hstart := ((hfor.append hn).append (b := " = ") (leads_plain (by decide))).append hlo.within
  have htest := ((hstart.append (b := "; ") (leads_plain (by decide))).append hn).append (b := " ")
    (leads_plain (by decide))
  have hbound := ((htest.append hop).append (b := " ") (leads_plain (by decide))).append hhi.within
  have hstep := (hbound.append (b := "; ") (leads_plain (by decide))).append hn
  exact hstep.append ⟨by decide, fun _ => rfl⟩

theorem lays_eachHead {is : List Entity} {c : Expr} (hi : ∀ i ∈ is, Word i.name) (hc : Spelled c) :
    Lays m d (eachHead m d is c) (d + 1) (fun _ => [] ++ [.opens]) Anything := by
  refine (yields_expr hc).next fun c' hc' => ?_
  split
  · refine (yields_namesOf hi).next fun ts hts => lays_opening ?_ (.append (by decide))
    have hpairs : Leads [')'] (if isItems c then c' else "Object.entries(" ++ c' ++ ")") [')'] := by
      split
      · exact hc'.within
      · have hopen : Leads [')'] "Object.entries(" [')', ')'] := ⟨by decide, fun _ => rfl⟩
        exact (hopen.append hc'.within).append leads_closed
    have hopen : Phrase [] "for (const [" [']', ')'] [] := ⟨⟨by decide, fun _ => rfl⟩, by decide, fun _ => rfl⟩
    have hof : Leads [']', ')'] "] of " [')'] := ⟨by decide, fun _ => rfl⟩
    have hnames := hopen.append (leads_commaSeparated fun t ht => leads_word (hts t ht).word)
    exact ((hnames.append hof).append hpairs).append leads_head
  · next i rest _ =>
    refine (yields_nameOf (hi i List.mem_cons_self)).next fun n hn =>
      lays_opening ?_ (.append (by decide))
    have hopen : Phrase [] "for (const " [')'] [] := ⟨⟨by decide, fun _ => rfl⟩, by decide, fun _ => rfl⟩
    have hof := (hopen.append (leads_word hn.word)).append (b := " of ") (leads_plain (by decide))
    exact (hof.append hc'.within).append leads_head
  · exact .throw _

/-- What a node is written as is indented by its depth and tells its blocks. -/
def LaysNode (m : Mangling) : Typing.Node → Prop
  | .stmt s => ∀ d, Lays m d (stmt m d s) d s.marks Anything
  | .rest e => ∀ d, Lays m (d + 1) (elsePart m d e) d (fun g => .closes :: e.marks g) Anything
  | .function f => ∀ d keyword name ms, Phrase [] (keyword ++ name ++ "(") [')'] ms →
      Lays m d (function m d keyword name f) d (fun g => ms ++ f.marks g) Anything

theorem lays_inner {b : List Stmt} (h : ∀ s ∈ b, LaysNode m (.stmt s)) :
    Lays m (d + 1) (block m (d + 1) b) (d + 1) (marksIn · b) Anything :=
  lays_block fun s hs => h s hs (d + 1)

theorem phrase_method {name : String} (h : Word name) : Phrase [] ("" ++ name ++ "(") [')'] [] := by
  rw [String.empty_append]
  exact ⟨(leads_word h).append leads_parenthesis, tells_method h⟩

theorem lays_methods {fs : List Function} (hw : ∀ f ∈ fs, Word f.entity.name)
    (h : ∀ f ∈ fs, LaysNode m (.function f)) :
    Lays m d (methods m d fs) d (marksOfFunctions · fs) Anything := by
  induction fs with
  | nil => exact .pure trivial
  | cons f fs ih =>
    obtain ⟨hf, hfs⟩ := List.forall_mem_cons.1 h
    obtain ⟨hwf, hwfs⟩ := List.forall_mem_cons.1 hw
    exact (hf d _ _ [] (phrase_method hwf)).bind fun _ _ => ih hwfs hfs

/-- A declaration up to a character behind the name that belongs to no word. -/
theorem phrase_declaration {keyword name stop : String} {es cs : List Char}
    (hk : keyword.toList ∈ declarators ∧ keyword.toList.all isPlain = true) (hn : IsIdentifier name)
    (hs : stop.toList = c :: cs) (hc : Token.isWordChar c = false) (hl : Leads [] stop es) :
    Phrase [] (keyword ++ name ++ stop) es [.declares name] :=
  ⟨((leads_plain hk.2).append (leads_word hn.word)).append hl, tells_declaration hk.1 hn.word hs hc⟩

/-- One case for each kind of statement: a line in its place, or a head, a block one level deeper, and the end
of it. -/
theorem lays_node {n : Typing.Node} (h : SpelledNode n) : LaysNode m n := by
  induction h with
  | @declare v init p hv hi =>
    intro d
    cases init with
    | none =>
      refine .named (fun n _ => [.declares n]) hv.proper fun n hn => ?_
      exact lays_statement (phrase_declaration (by decide) hn rfl (by decide) (leads_plain (by decide)))
        (.append (by decide))
    | some e =>
      refine .named (fun n _ => [.declares n]) hv.proper fun n hn =>
        (yields_expr (hi e rfl)).next fun t ht => ?_
      have hname : Phrase [] ("let " ++ n ++ " = ") [] [.declares n] :=
        phrase_declaration (by decide) hn rfl (by decide) (leads_plain (by decide))
      exact lays_statement ((hname.append ht.within).append (leads_plain (by decide))) (.append (by decide))
  | @function f p _ hf ih =>
    have hw : Word f.entity.name := by
      cases hf with
      | body hw => exact hw
    refine fun d => .named (fun n g => .declares n :: f.marks g) hw fun n hn => ih d _ _ [.declares n] ?_
    exact phrase_declaration (by decide) hn rfl (by decide) leads_parenthesis
  | @classDecl c fields methods p hc hf hm ih =>
    have hw : ∀ f ∈ methods, Word f.entity.name := by
      intro f hf
      cases hm f hf with
      | body hw => exact hw
    refine fun d => .named (fun n g => .declares n :: braced (braced [] ++ marksOfFunctions g methods))
      hc.proper fun n hn => ?_
    have hhead : Phrase [] ("class " ++ n ++ " \x7b") ['\x7d'] [.declares n] :=
      phrase_declaration (by decide) hn rfl (by decide) ⟨by decide, fun _ => rfl⟩
    have hbody := (lays_constructor (m := m) (d := d + 1) hf).bind fun _ _ => lays_methods hw ih
    have hlays := lays_braced (lays_opening hhead (.append (by decide))) hbody
    rwa [bind_assoc] at hlays
  | assign ht hs | addAssign ht hs =>
    refine fun d => (yields_expr ht).next fun t ht => (yields_expr hs).next fun s hs => ?_
    exact lays_statement (((ht.append (leads_plain (by decide))).append hs.within).append (leads_plain (by decide)))
      (.append (by decide))
  | increment ht | decrement ht =>
    exact fun d => (yields_expr ht).next fun t ht =>
      lays_statement (ht.append (leads_plain (by decide))) (.append (by decide))
  | @ifElse t b e p ht _ _ ihb ihe =>
    refine fun d => (yields_expr ht).next fun t ht => ?_
    have hif : Phrase [] "if (" [')'] [] := ⟨⟨by decide, fun _ => rfl⟩, by decide, fun _ => rfl⟩
    have hhead := (hif.append ht.within).append leads_head
    exact lays_branch (lays_opening hhead (.append (by decide))) (lays_inner ihb) (ihe d)
  | whileLoop ht _ ih =>
    refine fun d => (yields_expr ht).next fun t ht => ?_
    have hwhile : Phrase [] "while (" [')'] [] := ⟨⟨by decide, fun _ => rfl⟩, by decide, fun _ => rfl⟩
    have hhead := (hwhile.append ht.within).append leads_head
    exact lays_braced (lays_opening hhead (.append (by decide))) (lays_inner ih)
  | rangeLoop hi hl hh _ _ ih =>
    exact fun d => lays_braced (lays_rangeHead _ hi.proper hl hh) (lays_inner ih)
  | eachLoop hi hc _ ih =>
    exact fun d => lays_braced (lays_eachHead (fun i hmem => (hi i hmem).proper) hc) (lays_inner ih)
  | @ret value p hv =>
    intro d
    cases value with
    | none => exact lays_statement ⟨leads_plain (by decide), by decide, fun _ => rfl⟩ (by decide)
    | some e =>
      refine (yields_expr (hv e rfl)).next fun t ht => ?_
      have hreturn : Nested "return " := ⟨leads_plain (by decide), by decide, fun _ => rfl⟩
      exact lays_statement ((hreturn.append ht.within).append (leads_plain (by decide))) (.append (by decide))
  | brk => exact fun d => lays_statement ⟨leads_plain (by decide), by decide, fun _ => rfl⟩ (by decide)
  | print he =>
    refine fun d => (yields_exprs fun e hmem => yields_expr (he e hmem)).next fun ts hts => ?_
    have hopen : Phrase [] "console.log(" [')'] [] := ⟨⟨by decide, fun _ => rfl⟩, by decide, fun _ => rfl⟩
    exact lays_statement ((hopen.append (leads_separated hts)).append ⟨by decide, fun _ => rfl⟩)
      (.append (by decide))
  | call he =>
    refine fun d => (yields_expr he).next fun t ht => ?_
    split
    · exact .pure trivial
    · exact lays_statement (ht.append (leads_plain (by decide))) (.append (by decide))
  | none => exact fun d => lays_brace
  | @block b _ ih =>
    intro d
    cases b with
    | nil => exact lays_brace
    | cons s ss =>
      have hturn : Phrase ['\x7d'] "\x7d else \x7b" ['\x7d'] [.closes] :=
        ⟨⟨by decide, fun _ => rfl⟩, by decide, fun _ => rfl⟩
      exact lays_braced (lays_turn hturn (by decide)) (lays_inner ih)
  | @elseIf t b e p ht _ _ ihb ihe =>
    refine fun d => (yields_expr ht).next fun t ht => ?_
    have hturn : Phrase ['\x7d'] "\x7d else if (" [')'] [.closes] :=
      ⟨⟨by decide, fun _ => rfl⟩, by decide, fun _ => rfl⟩
    have hhead := (hturn.append ht.within).append leads_head
    exact lays_branch (lays_turn hhead (.append (by decide))) (lays_inner ihb) (ihe d)
  | body _ hp _ ih =>
    refine fun d keyword name ms hname => (yields_namesOf fun q hq => (hp q hq).proper).next fun ps hps => ?_
    have hparams := hname.append (leads_commaSeparated fun t ht => leads_word (hps t ht).word)
    exact lays_braced (lays_opening (hparams.append leads_head) (.append (by decide))) (lays_inner ih)

end Statements

/-! ### Whole scripts -/

theorem lays_run {m : Mangling} {p : Program} {st : State} (hp : p.Spelled)
    (h : block m 0 p.statements ⟨[], #[]⟩ = .ok () st) : Laid 0 st.lines.toList 0 ∧
      st.lines.toList.flatMap (fun l => marksOf l.toList) = marksIn (ident m st.names) p.statements := by
  have hlays : Lays m 0 (block m 0 p.statements) 0 (marksIn · p.statements) Anything :=
    lays_block fun s hs => lays_node (hp s hs) 0
  obtain ⟨-, -, -, new, hlines, hlaid, hmarks⟩ := hlays _ _ _ (by simp [Clean]) h
  have hlines : st.lines.toList = new := by simpa using hlines
  rw [hlines]
  exact ⟨hlaid, hmarks _ (List.prefix_refl _)⟩

/-- The lines of the script of a spelled program. -/
theorem laidOut_run {m : Mangling} {p : Program} {st : State} (hp : p.Spelled)
    (h : run m p = (.ok (), st)) : LaidOut st.lines.toList := by
  unfold run at h
  cases hblock : block m 0 p.statements ⟨[], #[]⟩ with
  | error e st' =>
    rw [hblock] at h
    cases h
  | ok u st' =>
    rw [hblock] at h
    cases h
    exact (lays_run hp hblock).1.laidOut

end Snack.Script
