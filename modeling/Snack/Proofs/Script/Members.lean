import Snack.Proofs.Script.Indented

/-! The members of a class, read off its text. A line of the class that is indented by one block more than the
class itself begins a member or ends one, since all that lies in a member is indented deeper. -/

namespace Snack.Script

open Snack.Core
open Token (Word isWordChar)

/-! ### The reader -/

/-- Of the lines of a class at a depth those that begin a member. -/
def headsIn (d : Nat) (ls : List String) : List String :=
  ls.filter fun l => indentation l == 2 * (d + 1) && !closesBlock l

/-- The word at the head of a line. -/
def memberName (l : String) : String := .ofList ((l.toList.dropWhile (· == ' ')).takeWhile isWordChar)

/-- The names between the first parentheses of a line. -/
def parametersOf (l : String) : List String :=
  let inside := ((l.toList.dropWhile (· != '(')).drop 1).takeWhile (· != ')')
  ((inside.splitOn ',').map fun cs => .ofList (cs.dropWhile (· == ' '))).filter (· != "")

/-! ### Lines that are added -/

/-- The writer adds lines with the property. -/
def Adds {α : Type} (x : Emit α) (P : List String → Prop) : Prop :=
  ∀ st v st', x st = .ok v st' → ∃ new, st'.lines.toList = st.lines.toList ++ new ∧ P new

/-- Lines that are indented at least by so many blocks. -/
def Deep (d : Nat) (ls : List String) : Prop := ∀ l ∈ ls, 2 * d ≤ indentation l

section Writers

variable {α β : Type} {m : Mangling} {d k : Nat} {x : Emit α} {f : α → Emit β} {P Q R : List String → Prop}
  {text : String}

theorem Adds.pure {v : α} (h : P []) : Adds (pure v) P := by
  intro st u st' hu
  obtain ⟨-, rfl⟩ := pure_ok.1 hu
  exact ⟨[], (List.append_nil _).symm, h⟩

theorem Adds.throw (e : Error) : Adds (throw e : Emit α) P := fun _ _ _ h => absurd h throw_ok

theorem Adds.bind (hx : Adds x P) (hf : ∀ v, Adds (f v) Q) (h : ∀ ls ks, P ls → Q ks → R (ls ++ ks)) :
    Adds (x >>= f) R := by
  intro st w st' hw
  obtain ⟨v, st₁, hv, hw⟩ := bind_ok.1 hw
  obtain ⟨new, hlines, hP⟩ := hx st v st₁ hv
  obtain ⟨new', hlines', hQ⟩ := hf v st₁ w st' hw
  refine ⟨new ++ new', ?_, h new new' hP hQ⟩
  rw [hlines', hlines, List.append_assoc]

theorem Adds.imp (hx : Adds x P) (h : ∀ ls, P ls → Q ls) : Adds x Q := by
  intro st v st' hv
  obtain ⟨new, hlines, hP⟩ := hx st v st' hv
  exact ⟨new, hlines, h new hP⟩

theorem adds_line (h : P [indent d text]) : Adds (line d text) P := by
  intro st u st' hst
  obtain rfl := modify_ok.1 hst
  exact ⟨[indent d text], Array.toList_push, h⟩

theorem adds_nameOf (e : Entity) (h : P []) : Adds (nameOf m e) P := by
  intro st text st' hst
  cases hst
  exact ⟨[], (List.append_nil _).symm, h⟩

/-! ### Depth -/

theorem deep_nil : Deep d [] := List.forall_mem_nil _

theorem Adds.deep (hx : Adds x (Deep d)) (hf : ∀ v, Adds (f v) (Deep d)) : Adds (x >>= f) (Deep d) :=
  hx.bind hf fun _ _ hls hks => List.forall_mem_append.2 ⟨hls, hks⟩

theorem le_indentation (text : String) : 2 * d ≤ indentation (indent d text) := by
  have hall : ∀ y ∈ List.replicate (2 * d) ' ', (y == ' ') = true := by simp
  rw [indentation, indent, String.toList_append, String.toList_ofList, List.takeWhile_append_of_pos hall,
    List.length_append, List.length_replicate]
  exact Nat.le_add_right _ _

theorem deep_line (text : String) : Adds (line d text) (Deep d) :=
  adds_line (List.forall_mem_singleton.2 (le_indentation text))

theorem deep_nameOf (e : Entity) : Adds (nameOf m e) (Deep d) := adds_nameOf e deep_nil

/-- What is written at a depth or deeper. -/
theorem Writes.deep {es : List Entity} {w : Mangling → Emit α} (h : Writes d es w) (m : Mangling) :
    Adds (w m) (Deep d) := by
  induction h with
  | pure a => exact .pure deep_nil
  | throw e => exact .throw e
  | line hk text =>
    have hle := Nat.le_trans (Nat.mul_le_mul_left 2 hk) (le_indentation text)
    exact adds_line (List.forall_mem_singleton.2 hle)
  | nameOf e => exact deep_nameOf e
  | bind _ _ ihx ihf => exact ihx.deep ihf

theorem deep_block (d : Nat) (ss : List Stmt) : Adds (block m d ss) (Deep d) := (writes_block d ss).deep m

theorem adds_builtin (name : String) (h : P []) : Adds (builtin name) P := by
  unfold builtin
  split
  case h_12 => exact .throw _
  all_goals exact .pure h

theorem adds_constant (name : String) (h : P []) : Adds (constant name) P := by
  unfold constant
  split
  case h_4 => exact .throw _
  all_goals exact .pure h

theorem adds_entity (e : Entity) (h : P []) : Adds (entity m e) P := by
  unfold entity
  split
  · exact adds_nameOf e h
  · exact adds_nameOf e h
  · exact adds_nameOf e h
  · exact .pure h
  · exact .pure h
  · exact adds_builtin _ h
  · exact adds_constant _ h
  · exact .throw _

end Writers

/-! ### Heads of members -/

section Heads

variable {m : Mangling} {d : Nat} {text : String} {x : Char}

theorem headsIn_append (ls ks : List String) : headsIn d (ls ++ ks) = headsIn d ls ++ headsIn d ks :=
  List.filter_append ls ks

theorem headsIn_deep {ls : List String} (h : Deep (d + 2) ls) : headsIn d ls = [] := by
  refine List.filter_eq_nil_iff.2 fun l hl => ?_
  have hne : indentation l ≠ 2 * (d + 1) := by
    have hle := h l hl
    omega
  simp [hne]

/-- A line of the class itself. -/
theorem headsIn_outer (hx : text.toList.head? = some x) (hblank : x ≠ ' ') : headsIn d [indent d text] = [] := by
  obtain ⟨hindent, -⟩ := takeWhile_indent (d := d) hx hblank
  have hne : 2 * d ≠ 2 * (d + 1) := by omega
  simp [headsIn, hindent, hne]

/-- The end of a member. -/
theorem headsIn_brace : headsIn d [indent (d + 1) "\x7d"] = [] := by
  have hcloses : closesBlock (indent (d + 1) "\x7d") = true :=
    (takeWhile_indent (x := '\x7d') rfl (by decide)).2
  simp [headsIn, hcloses]

theorem headsIn_head (hx : text.toList.head? = some x) (hblank : x ≠ ' ') (hbrace : x ≠ '\x7d') :
    headsIn d [indent (d + 1) text] = [indent (d + 1) text] := by
  obtain ⟨hindent, hcloses⟩ := takeWhile_indent (d := d + 1) hx hblank
  simp [headsIn, hindent, hcloses, hbrace]

theorem toList_indent (d : Nat) (text : String) :
    (indent d text).toList = List.replicate (2 * d) ' ' ++ text.toList := by
  rw [indent, String.toList_append, String.toList_ofList]

/-- A word and a parenthesis begin a member of that name. -/
theorem head_of_word {name : String} (h : Word name) (rest : String) :
    ∃ x, (name ++ "(" ++ rest).toList.head? = some x ∧ x ≠ ' ' ∧ x ≠ '\x7d' := by
  cases hname : name.toList with
  | nil => exact ⟨'(', by simp [String.toList_append, hname], by decide, by decide⟩
  | cons c cs =>
    have hc : isWordChar c = true := h c (hname ▸ List.mem_cons_self)
    refine ⟨c, by simp [String.toList_append, hname], ?_, ?_⟩
    · rintro rfl
      exact absurd hc (by decide)
    · rintro rfl
      exact absurd hc (by decide)

theorem memberName_indent {name rest : String} (h : Word name) :
    memberName (indent d (name ++ "(" ++ rest)) = name := by
  have hall : ∀ y ∈ List.replicate (2 * d) ' ', (y == ' ') = true := by simp
  have hparen : isWordChar '(' = false := by decide
  have hdrop : (name.toList ++ '(' :: rest.toList).dropWhile (· == ' ') = name.toList ++ '(' :: rest.toList := by
    obtain ⟨x, hx, hblank, -⟩ := head_of_word h rest
    have hx : (name.toList ++ '(' :: rest.toList).head? = some x := by simpa [String.toList_append] using hx
    obtain ⟨xs, heq⟩ := List.head?_eq_some_iff.1 hx
    rw [heq, List.dropWhile_cons_of_neg (by simpa using hblank)]
  have htext : (name ++ "(" ++ rest).toList = name.toList ++ '(' :: rest.toList := by simp [String.toList_append]
  rw [memberName, toList_indent, List.dropWhile_append_of_pos hall, htext, hdrop,
    List.takeWhile_append_of_pos h, List.takeWhile_cons_of_neg (by simp [hparen]), List.append_nil,
    String.ofList_toList]

/-! ### Whole classes -/

/-- The writer adds lines of which these begin a member. -/
def Heads (d : Nat) {α : Type} (x : Emit α) (P : List String → Prop) : Prop := Adds x fun new => P (headsIn d new)

/-- The writer begins no member. -/
abbrev Headless (d : Nat) {α : Type} (x : Emit α) : Prop := Heads d x (· = [])

variable {α β : Type} {w : Emit α} {f : α → Emit β} {P Q R : List String → Prop}

theorem Heads.bind (hw : Heads d w P) (hf : ∀ v, Heads d (f v) Q) (h : ∀ ls ks, P ls → Q ks → R (ls ++ ks)) :
    Heads d (w >>= f) R :=
  Adds.bind hw hf fun ls ks hls hks => headsIn_append (d := d) ls ks ▸ h _ _ hls hks

theorem Heads.before (hw : Headless d w) (hf : ∀ v, Heads d (f v) P) : Heads d (w >>= f) P :=
  hw.bind hf fun ls ks hls hks => by rwa [hls, List.nil_append]

theorem Heads.after (hw : Heads d w P) (hf : ∀ v, Headless d (f v)) : Heads d (w >>= f) P :=
  hw.bind hf fun ls ks hls hks => by rwa [hks, List.append_nil]

theorem Adds.headless (h : Adds w (Deep (d + 2))) : Headless d w := h.imp fun _ => headsIn_deep

theorem headless_brace : Headless d (line (d + 1) "\x7d") := adds_line headsIn_brace

/-- A method is one member. -/
theorem heads_function {name : String} (h : Word name) (f : Function) :
    Heads d (function m (d + 1) "" name f) fun ls => ∃ l, ls = [l] ∧ memberName l = name := by
  obtain ⟨e, ps, b, p⟩ := f
  refine ((writes_namesOf ps).deep m).headless.before fun texts => ?_
  refine Heads.after (adds_line ?_) fun _ => (deep_block _ b).headless.before fun _ => headless_brace
  have htext : "" ++ name ++ "(" ++ commaSeparated texts ++ ") \x7b" =
      name ++ "(" ++ (commaSeparated texts ++ ") \x7b") := by simp [String.append_assoc]
  obtain ⟨x, hx, hblank, hbrace⟩ := head_of_word h (commaSeparated texts ++ ") \x7b")
  rw [htext]
  exact ⟨_, headsIn_head hx hblank hbrace, memberName_indent h⟩

theorem heads_methods {ms : List Function} (h : ∀ f ∈ ms, Word f.entity.name) :
    Heads d (methods m (d + 1) ms) fun ls => ls.map memberName = ms.map (·.entity.name) := by
  induction ms with
  | nil => exact .pure rfl
  | cons f fs ih =>
    obtain ⟨hf, hfs⟩ := List.forall_mem_cons.1 h
    refine (heads_function hf f).bind (fun _ => ih hfs) ?_
    rintro _ ks ⟨l, rfl, hl⟩ hks
    simp [hl, hks]

/-- The line that begins the constructor. -/
def constructorHead (d : Nat) (fields : List Field) : String :=
  indent (d + 1) ("constructor(" ++ commaSeparated (fields.map (·.name)) ++ ") \x7b")

theorem heads_constructor (fields : List Field) :
    Heads d (constructor (d + 1) fields) (· = [constructorHead d fields]) := by
  have hstores :
      Headless d (fields.forM fun f => line (d + 1 + 1) ("this." ++ f.name ++ " = " ++ f.name ++ ";")) := by
    induction fields with
    | nil => exact .pure rfl
    | cons f fs ih => exact (deep_line _).headless.before fun _ => ih
  refine Heads.after (adds_line ?_) fun _ => hstores.before fun _ => headless_brace
  exact headsIn_head (x := 'c') (by simp [String.toList_append]) (by decide) (by decide)

/-! ### Parameters -/

theorem dropWhile_word {name : String} (h : Word name) : name.toList.dropWhile (· == ' ') = name.toList := by
  cases hname : name.toList with
  | nil => rfl
  | cons c cs =>
    have hc : isWordChar c = true := h c (hname ▸ List.mem_cons_self)
    refine List.dropWhile_cons_of_neg fun hblank => ?_
    rw [beq_iff_eq.1 hblank] at hc
    exact absurd hc (by decide)

/-- The texts between commas, with a blank before all but the first. -/
def pieces : List String → List (List Char)
  | [] => [[]]
  | name :: names => name.toList :: names.map fun n => ' ' :: n.toList

theorem toList_commaSeparated (names : List String) :
    (commaSeparated names).toList = [','].intercalate (pieces names) := by
  rw [commaSeparated, String.toList_intercalate]
  induction names with
  | nil => rfl
  | cons name names ih =>
    cases names with
    | nil => rfl
    | cons n ns =>
      have hsep : ", ".toList = [',', ' '] := rfl
      rw [List.map_cons, List.map_cons, List.intercalate_cons_cons, hsep]
      rw [hsep, List.map_cons] at ih
      rw [ih, pieces, pieces, List.map_cons]
      cases ns <;> simp [List.intercalate_cons_cons]

theorem comma_notMem_pieces {names : List String} (h : ∀ n ∈ names, Word n) : ∀ cs ∈ pieces names, ',' ∉ cs := by
  have hword {n : String} (hn : Word n) : ',' ∉ n.toList := fun hmem => absurd (hn _ hmem) (by decide)
  cases names with
  | nil => exact List.forall_mem_singleton.2 (by simp)
  | cons n ns =>
    obtain ⟨hn, hns⟩ := List.forall_mem_cons.1 h
    refine List.forall_mem_cons.2 ⟨hword hn, List.forall_mem_map.2 fun k hk hmem => ?_⟩
    rcases List.mem_cons.1 hmem with hblank | hmem
    · exact absurd hblank (by decide)
    · exact hword (hns k hk) hmem

/-- Taking the blanks away again leaves the names, but for the one piece that there is without any. -/
theorem filter_pieces {names : List String} (h : ∀ n ∈ names, Word n) :
    ((pieces names).map fun cs => String.ofList (cs.dropWhile (· == ' '))).filter (· != "") =
      names.filter (· != "") := by
  cases names with
  | nil => rfl
  | cons n ns =>
    obtain ⟨hn, hns⟩ := List.forall_mem_cons.1 h
    have hrest : (ns.map fun k => ' ' :: k.toList).map (fun cs => .ofList (cs.dropWhile (· == ' '))) = ns := by
      rw [List.map_map]
      refine (List.map_congr_left fun k hk => ?_).trans (List.map_id ns)
      show String.ofList ((' ' :: k.toList).dropWhile (· == ' ')) = k
      rw [List.dropWhile_cons_of_pos rfl, dropWhile_word (hns k hk), String.ofList_toList]
    rw [pieces, List.map_cons, hrest, dropWhile_word hn, String.ofList_toList]

/-- What holds of the characters of some texts and of a comma and a blank holds of the texts joined. -/
theorem forall_commaSeparated {p : Char → Prop} (hsep : ∀ c ∈ ", ".toList, p c) {texts : List String}
    (h : ∀ t ∈ texts, ∀ c ∈ t.toList, p c) : ∀ c ∈ (commaSeparated texts).toList, p c := by
  rw [commaSeparated, String.toList_intercalate]
  induction texts with
  | nil => exact List.forall_mem_nil _
  | cons t ts ih =>
    obtain ⟨ht, hts⟩ := List.forall_mem_cons.1 h
    cases ts with
    | nil => simpa using ht
    | cons u us =>
      rw [List.map_cons, List.map_cons, List.intercalate_cons_cons]
      exact List.forall_mem_append.2 ⟨List.forall_mem_append.2 ⟨ht, hsep⟩, ih hts⟩

theorem parametersOf_constructorHead {fields : List Field} (h : ∀ f ∈ fields, Word f.name) :
    parametersOf (constructorHead d fields) = (fields.map (·.name)).filter (· != "") := by
  have hnames : ∀ n ∈ fields.map (·.name), Word n := List.forall_mem_map.2 h
  have hbefore : ∀ c ∈ List.replicate (2 * (d + 1)) ' ' ++ "constructor".toList, (c != '(') = true := by
    refine List.forall_mem_append.2 ⟨fun c hc => ?_, List.all_eq_true.1 (by rfl)⟩
    rw [List.eq_of_mem_replicate hc]
    rfl
  have hinside : ∀ c ∈ (commaSeparated (fields.map (·.name))).toList, (c != ')') = true := by
    refine forall_commaSeparated (List.all_eq_true.1 (by rfl)) fun n hn c hc => ?_
    refine bne_iff_ne.2 ?_
    rintro rfl
    exact absurd (hnames n hn _ hc) (by decide)
  have htext : (constructorHead d fields).toList = (List.replicate (2 * (d + 1)) ' ' ++ "constructor".toList) ++
      '(' :: ((commaSeparated (fields.map (·.name))).toList ++ ')' :: [' ', '\x7b']) := by
    simp [constructorHead, toList_indent, String.toList_append]
  rw [parametersOf, htext, List.dropWhile_append_of_pos hbefore, List.dropWhile_cons_of_neg (by decide),
    List.drop_one, List.tail_cons, List.takeWhile_append_of_pos hinside, List.takeWhile_cons_of_neg (by decide),
    List.append_nil, toList_commaSeparated]
  rw [List.splitOn_intercalate ',' (comma_notMem_pieces hnames) ?_]
  · exact filter_pieces hnames
  · cases fields <;> simp [pieces]

/-- A class begins with its constructor, which takes the fields, and then has its methods. -/
theorem heads_classDecl {c : Entity} {fields : List Field} {ms : List Function} (p : Pos)
    (hf : ∀ f ∈ fields, Word f.name) (hm : ∀ f ∈ ms, Word f.entity.name) :
    Heads d (stmt m d (.classDecl c fields ms p)) fun ls => ∃ k ks, ls = k :: ks ∧
      memberName k = "constructor" ∧ parametersOf k = (fields.map (·.name)).filter (· != "") ∧
      ks.map memberName = ms.map (·.entity.name) := by
  have hbrace : Headless d (line d "\x7d") := adds_line (headsIn_outer (x := '\x7d') rfl (by decide))
  refine (deep_nameOf c).headless.before fun name => ?_
  have hclass : Headless d (line d ("class " ++ name ++ " \x7b")) :=
    adds_line (headsIn_outer (x := 'c') (by simp [String.toList_append]) (by decide))
  refine hclass.before fun _ => ?_
  refine (heads_constructor fields).bind (fun _ => (heads_methods hm).after fun _ => hbrace) ?_
  rintro _ ks rfl hks
  have hname : constructorHead d fields =
      indent (d + 1) ("constructor" ++ "(" ++ (commaSeparated (fields.map (·.name)) ++ ") \x7b")) := by
    simp [constructorHead, String.append_assoc]
  have hword : Word "constructor" := List.all_eq_true.1 (by rfl)
  exact ⟨_, ks, rfl, hname ▸ memberName_indent hword, parametersOf_constructorHead hf, hks⟩

end Heads

end Snack.Script
