import Mathlib.Data.List.Induction
import Snack.Proofs.Steps
import Snack.Script.Emit

/-! The identifiers of a script. The entities that a program names are numbered in the order in which they
first come up. Proved: no two of them share an identifier whatever their names are, no identifier is a name
that the script uses for itself, and every use of an entity has the identifier that it was given first. -/

namespace Snack.Core

/-! ### What a script names -/

/-- Kinds of entities that have an identifier where they stand as a value. -/
def EntityKind.isNamed : EntityKind → Bool
  | .var _ | .parameter => true
  | .function isMethod => !isMethod
  | _ => false

mutual

/-- The entities that the script of an expression names, in the order of writing. Arguments are written
before what they are given to. -/
def Expr.named : Expr → List Entity
  | .ref e => if e.kind.isNamed then [e] else []
  | .binary _ left right _ => left.named ++ right.named
  | .unary _ operand _ => operand.named
  | .call callee args _ => namedInAll args ++ callee.named
  | .construct c args => namedInAll args ++ [c]
  | .member object _ _ _ => object.named
  | .array es _ | .tuple es _ => namedInAll es
  | .dict es _ => namedInEntries es
  | .int _ | .float _ | .str _ | .bool _ | .emptyArray _ | .emptyOptional _ | .other _ _ => []

def namedInAll : List Expr → List Entity
  | [] => []
  | e :: es => e.named ++ namedInAll es

def namedInEntries : List (Expr × Expr) → List Entity
  | [] => []
  | (k, v) :: es => k.named ++ (v.named ++ namedInEntries es)

end

/-- The iterators that the head of a loop names: a pair, else the first one. -/
def namedIterators (is : List Entity) : List Entity := if is.length = 2 then is else is.take 1

mutual

/-- The entities that the script of a statement names. A method is called by its plain name. -/
def Stmt.named : Stmt → List Entity
  | .declare v init _ => v :: init.elim [] Expr.named
  | .function f _ => f.entity :: f.named
  | .classDecl c _ methods _ => c :: namedInFunctions methods
  | .assign target source _ | .addAssign target source _ => target.named ++ source.named
  | .increment target _ | .decrement target _ => target.named
  | .ifElse test body rest _ => test.named ++ (namedInBlock body ++ rest.named)
  | .whileLoop test body _ => test.named ++ namedInBlock body
  | .rangeLoop i low _ high body _ => i :: (low.named ++ high.named) ++ namedInBlock body
  | .eachLoop is collection body _ => collection.named ++ namedIterators is ++ namedInBlock body
  | .ret value _ => value.elim [] Expr.named
  | .print es _ => namedInAll es
  | .call e _ => e.named
  | .brk _ | .other _ _ => []

def namedInBlock : List Stmt → List Entity
  | [] => []
  | s :: ss => s.named ++ namedInBlock ss

def Else.named : Else → List Entity
  | .none => []
  | .block body => namedInBlock body
  | .elseIf test body rest _ => test.named ++ (namedInBlock body ++ rest.named)

def Function.named : Function → List Entity
  | .mk _ params body _ => params ++ namedInBlock body

def namedInFunctions : List Function → List Entity
  | [] => []
  | f :: fs => f.named ++ namedInFunctions fs

end

def Program.named (p : Program) : List Entity := namedInBlock p.statements

end Snack.Core

namespace Snack.Script

open Snack.Core

/-! ### Giving out names -/

/-- The names given out after some entities have come up. -/
def give (m : Mangling) (names : List Binding) (es : List Entity) : List Binding :=
  es.foldl (fun names e => (mangle names (m.key e) e.name).2) names

section Tables

variable {m : Mangling} {names : List Binding} {k : Key} {name : String}

/-- A key that has a name keeps it. Otherwise there is a new row with the next number. -/
theorem mangle_cases (names : List Binding) (k : Key) (name : String) :
    (∃ b ∈ names, b.key = k ∧ mangle names k name = (b.text, names)) ∨
    (∀ b ∈ names, b.key ≠ k) ∧ ∃ text, text = name ++ "_" ++ toString (names.length + 1) ∧
      mangle names k name = (text, names ++ [⟨k, name, text⟩]) := by
  unfold mangle
  cases hfind : names.find? fun b => b.key = k with
  | some b =>
    have hkey : b.key = k := by simpa using List.find?_some hfind
    exact .inl ⟨b, List.mem_of_find?_eq_some hfind, hkey, rfl⟩
  | none =>
    have hnone : ∀ b ∈ names, b.key ≠ k := by simpa using hfind
    exact .inr ⟨hnone, _, rfl, rfl⟩

theorem prefix_mangle : names <+: (mangle names k name).2 := by
  rcases mangle_cases names k name with ⟨b, -, -, h⟩ | ⟨-, text, -, h⟩
  · simp [h]
  · simp [h]

/-- Afterwards the key has a row. -/
theorem find?_mangle (names : List Binding) (k : Key) (name : String) :
    ∃ b, ((mangle names k name).2.find? fun b => b.key = k) = some b ∧ b.text = (mangle names k name).1 := by
  unfold mangle
  cases hfind : names.find? fun b => b.key = k with
  | some b => exact ⟨b, hfind, rfl⟩
  | none => exact ⟨⟨k, name, _⟩, by simp [hfind], rfl⟩

/-- A table that goes on from where a name was given out has that name. -/
theorem mangle_of_prefix {table : List Binding} (h : (mangle names k name).2 <+: table) :
    mangle table k name = ((mangle names k name).1, table) := by
  obtain ⟨b, hfind, htext⟩ := find?_mangle names k name
  rw [← htext, mangle, h.find?_eq_some hfind]

theorem give_append (names : List Binding) (es ds : List Entity) :
    give m names (es ++ ds) = give m (give m names es) ds := List.foldl_append

theorem prefix_give (names : List Binding) (es : List Entity) : names <+: give m names es := by
  induction es generalizing names with
  | nil => exact List.prefix_refl _
  | cons e es ih => exact prefix_mangle.trans (ih _)

end Tables

/-! ### Writers that name entities -/

/-- A writer under every mangling at once that names these entities in their order and has all its lines at
this depth or deeper. Nothing but the names depends on the mangling. -/
inductive Writes (d : Nat) : {α : Type} → List Entity → (Mangling → Emit α) → Prop where
  | pure {α : Type} (a : α) : Writes d [] fun _ => pure a
  | throw {α : Type} {es : List Entity} (e : Error) : Writes d es fun _ => (throw e : Emit α)
  | line {k : Nat} (h : d ≤ k) (text : String) : Writes d [] fun _ => line k text
  | nameOf (e : Entity) : Writes d [e] fun m => nameOf m e
  | bind {α β : Type} {es ds : List Entity} {x : Mangling → Emit α} {f : Mangling → α → Emit β}
      (hx : Writes d es x) (hf : ∀ a, Writes d ds fun m => f m a) : Writes d (es ++ ds) fun m => x m >>= f m

section Writers

variable {d : Nat}

/-- What follows names nothing. -/
theorem Writes.last {α β : Type} {es : List Entity} {x : Mangling → Emit α} {f : Mangling → α → Emit β}
    (hx : Writes d es x) (hf : ∀ a, Writes d [] fun m => f m a) : Writes d es fun m => x m >>= f m := by
  have h := hx.bind hf
  rwa [List.append_nil] at h

theorem Writes.outer {α : Type} {es : List Entity} {x : Mangling → Emit α} (h : Writes (d + 1) es x) :
    Writes d es x := by
  induction h with
  | pure a => exact .pure a
  | throw e => exact .throw e
  | line hk text => exact .line (Nat.le_of_succ_le hk) text
  | nameOf e => exact .nameOf e
  | bind _ _ ihx ihf => exact ihx.bind ihf

theorem writes_line (text : String) : Writes d [] fun _ => line d text := .line (Nat.le_refl d) text

theorem writes_namesOf (es : List Entity) : Writes d es fun m => namesOf m es := by
  induction es with
  | nil => exact .pure _
  | cons e es ih => exact (Writes.nameOf e).bind fun _ => ih.last fun _ => .pure _

theorem writes_builtin (name : String) : Writes d [] fun _ => builtin name := by
  unfold builtin
  split
  case h_12 => exact .throw _
  all_goals exact .pure _

theorem writes_constant (name : String) : Writes d [] fun _ => constant name := by
  unfold constant
  split
  case h_4 => exact .throw _
  all_goals exact .pure _

theorem writes_entity (e : Entity) :
    Writes d (if e.kind.isNamed then [e] else []) fun m => entity m e := by
  unfold entity
  cases e.kind with
  | var mutable => exact .nameOf e
  | parameter => exact .nameOf e
  | function isMethod =>
    cases isMethod with
    | true => exact .pure _
    | false => exact .nameOf e
  | classDef => exact .pure _
  | builtin variadic => exact writes_builtin _
  | constant => exact writes_constant _
  | other tag => exact .throw _

theorem writes_constructor (d : Nat) (fields : List Field) : Writes d [] fun _ => constructor d fields := by
  refine (writes_line _).last fun _ => Writes.last (Writes.outer ?_) fun _ => writes_line _
  induction fields with
  | nil => exact .pure _
  | cons f fs ih => exact (writes_line _).last fun _ => ih

end Writers

/-! ### Scripts -/

mutual

theorem writes_expr (d : Nat) (e : Expr) : Writes d e.named fun m => expr m d e := by
  cases e with
  | ref e => exact writes_entity e
  | binary op l r t => exact (writes_expr d l).bind fun _ => (writes_expr d r).last fun _ => .pure _
  | unary op e t =>
    cases op with
    | print => exact (writes_expr d e).last fun _ => (writes_line _).last fun _ => .pure _
    | _ => exact (writes_expr d e).last fun _ => .pure _
  | call f args t =>
    refine (writes_exprs d args).bind fun as => ?_
    split
    · next hlen =>
      -- a length is taken of the first argument, and its function is not written
      have hnamed : f.named = [] := by
        unfold isLen at hlen
        split at hlen
        · rfl
        · cases hlen
      rw [hnamed]
      cases as with
      | nil => exact .throw _
      | cons a as => exact .pure _
    · exact (writes_expr d f).last fun _ => .pure _
  | construct c args => exact (writes_exprs d args).bind fun _ => (Writes.nameOf c).last fun _ => .pure _
  | member o op field t =>
    refine (writes_expr d o).last fun _ => ?_
    split <;> exact .pure _
  | array es t => exact (writes_exprs d es).last fun _ => .pure _
  | tuple es t => exact (writes_exprs d es).last fun _ => .pure _
  | dict es t => exact (writes_entries d es).last fun _ => .pure _
  | other tag t => exact .throw _
  | _ => exact .pure _

theorem writes_exprs (d : Nat) (es : List Expr) : Writes d (namedInAll es) fun m => exprs m d es := by
  cases es with
  | nil => exact .pure _
  | cons e es => exact (writes_expr d e).bind fun _ => (writes_exprs d es).last fun _ => .pure _

theorem writes_entries (d : Nat) (es : List (Expr × Expr)) :
    Writes d (namedInEntries es) fun m => entries m d es := by
  cases es with
  | nil => exact .pure _
  | cons e es =>
    obtain ⟨k, v⟩ := e
    exact (writes_expr d k).bind fun _ => (writes_expr d v).bind fun _ =>
      (writes_entries d es).last fun _ => .pure _

end

theorem writes_rangeHead (d : Nat) (i : Entity) (low : Expr) (op : RangeOp) (high : Expr) :
    Writes d (i :: (low.named ++ high.named)) fun m => rangeHead m d i low op high :=
  (Writes.nameOf i).bind fun _ => (writes_expr d low).bind fun _ =>
    (writes_expr d high).last fun _ => writes_line _

theorem writes_eachHead (d : Nat) (is : List Entity) (collection : Expr) :
    Writes d (collection.named ++ namedIterators is) fun m => eachHead m d is collection := by
  refine (writes_expr d collection).bind fun _ => ?_
  cases is with
  | nil => exact .throw _
  | cons i is =>
    cases is with
    | nil => exact (Writes.nameOf i).last fun _ => writes_line _
    | cons j is =>
      cases is with
      | nil => exact (writes_namesOf [i, j]).last fun _ => writes_line _
      | cons k is => exact (Writes.nameOf i).last fun _ => writes_line _

mutual

theorem writes_stmt (d : Nat) (s : Stmt) : Writes d s.named fun m => stmt m d s := by
  cases s with
  | declare v init p =>
    cases init with
    | none => exact (Writes.nameOf v).last fun _ => writes_line _
    | some e => exact (Writes.nameOf v).bind fun _ => (writes_expr d e).last fun _ => writes_line _
  | function f p => exact (Writes.nameOf f.entity).bind fun _ => writes_function d _ _ f
  | classDecl c fields ms p =>
    exact (Writes.nameOf c).bind fun _ => (writes_line _).bind fun _ =>
      (writes_constructor (d + 1) fields).outer.bind fun _ => (writes_methods (d + 1) ms).outer.last fun _ => writes_line _
  | assign t s p => exact (writes_expr d t).bind fun _ => (writes_expr d s).last fun _ => writes_line _
  | addAssign t s p => exact (writes_expr d t).bind fun _ => (writes_expr d s).last fun _ => writes_line _
  | increment t p => exact (writes_expr d t).last fun _ => writes_line _
  | decrement t p => exact (writes_expr d t).last fun _ => writes_line _
  | ifElse t b e p =>
    exact (writes_expr d t).bind fun _ => (writes_line _).bind fun _ => (writes_block (d + 1) b).outer.bind fun _ =>
      writes_elsePart d e
  | whileLoop t b p =>
    exact (writes_expr d t).bind fun _ => (writes_line _).bind fun _ =>
      (writes_block (d + 1) b).outer.last fun _ => writes_line _
  | rangeLoop i lo op hi b p =>
    exact (writes_rangeHead d i lo op hi).bind fun _ => (writes_block (d + 1) b).outer.last fun _ => writes_line _
  | eachLoop is c b p =>
    exact (writes_eachHead d is c).bind fun _ => (writes_block (d + 1) b).outer.last fun _ => writes_line _
  | ret value p =>
    cases value with
    | none => exact writes_line _
    | some e => exact (writes_expr d e).last fun _ => writes_line _
  | brk p => exact writes_line _
  | print es p => exact (writes_exprs d es).last fun _ => writes_line _
  | call e p =>
    refine (writes_expr d e).last fun _ => ?_
    split
    · exact .pure _
    · exact writes_line _
  | other tag p => exact .throw _

theorem writes_block (d : Nat) (ss : List Stmt) : Writes d (namedInBlock ss) fun m => block m d ss := by
  cases ss with
  | nil => exact .pure _
  | cons s ss => exact (writes_stmt d s).bind fun _ => writes_block d ss

theorem writes_elsePart (d : Nat) (e : Else) : Writes d e.named fun m => elsePart m d e := by
  cases e with
  | none => exact writes_line _
  | block b =>
    cases b with
    | nil => exact writes_line _
    | cons s ss =>
      exact (writes_line _).bind fun _ => (writes_block (d + 1) (s :: ss)).outer.last fun _ => writes_line _
  | elseIf t b e p =>
    exact (writes_expr d t).bind fun _ => (writes_line _).bind fun _ => (writes_block (d + 1) b).outer.bind fun _ =>
      writes_elsePart d e

theorem writes_function (d : Nat) (keyword name : String) (f : Function) :
    Writes d f.named fun m => function m d keyword name f := by
  cases f with
  | mk e ps b p =>
    exact (writes_namesOf ps).bind fun _ => (writes_line _).bind fun _ =>
      (writes_block (d + 1) b).outer.last fun _ => writes_line _

theorem writes_methods (d : Nat) (fs : List Function) :
    Writes d (namedInFunctions fs) fun m => methods m d fs := by
  cases fs with
  | nil => exact .pure _
  | cons f fs => exact (writes_function d _ _ f).bind fun _ => writes_methods d fs

end

/-! ### Names given out beforehand -/

/-- A writer that names these entities in their order. Were all of its names given out before, in any table
that has them, it would write the same and name nothing new. -/
def Names (m : Mangling) (es : List Entity) {α : Type} (x : Emit α) : Prop :=
  ∀ st a st', x st = .ok a st' → st'.names = give m st.names es ∧
    ∀ table, st'.names <+: table → x ⟨table, st.lines⟩ = .ok a ⟨table, st'.lines⟩

section Again

variable {m : Mangling} {α β : Type} {es ds : List Entity} {d : Nat}

theorem Names.pure (a : α) : Names m [] (pure a) := by
  intro st a' st' h
  obtain ⟨rfl, rfl⟩ := pure_ok.1 h
  exact ⟨rfl, fun table _ => rfl⟩

theorem Names.throw (e : Error) : Names m es (throw e : Emit α) := by
  intro st a st' h
  exact absurd h throw_ok

theorem Names.bind {x : Emit α} {f : α → Emit β} (hx : Names m es x) (hf : ∀ a, Names m ds (f a)) :
    Names m (es ++ ds) (x >>= f) := by
  intro st b st' h
  obtain ⟨a, st₁, hxa, hfa⟩ := bind_ok.1 h
  obtain ⟨hnames, hagain⟩ := hx st a st₁ hxa
  obtain ⟨hnames', hagain'⟩ := hf a st₁ b st' hfa
  refine ⟨by rw [hnames', hnames, give_append], fun table htable => ?_⟩
  -- what the first part has named is still in front after the second
  have hmid : st₁.names <+: table := (hnames' ▸ prefix_give st₁.names ds).trans htable
  exact bind_ok.2 ⟨a, ⟨table, st₁.lines⟩, hagain table hmid, hagain' table htable⟩

theorem names_line (text : String) : Names m [] (line d text) := by
  intro st u st' h
  obtain rfl := modify_ok.1 h
  exact ⟨rfl, fun table _ => rfl⟩

theorem names_nameOf (m : Mangling) (e : Entity) : Names m [e] (nameOf m e) := by
  intro st text st' h
  have h : EStateM.Result.ok (mangle st.names (m.key e) e.name).1
      (⟨(mangle st.names (m.key e) e.name).2, st.lines⟩ : State) = .ok text st' := h
  cases h
  refine ⟨rfl, fun table htable => ?_⟩
  have hrow := mangle_of_prefix htable
  simp only [nameOf, hrow]

theorem Writes.names {x : Mangling → Emit α} (h : Writes d es x) (m : Mangling) : Names m es (x m) := by
  induction h with
  | pure a => exact .pure a
  | throw e => exact .throw e
  | line _ text => exact names_line text
  | nameOf e => exact names_nameOf m e
  | bind _ _ ihx ihf => exact ihx.bind ihf

theorem names_block (m : Mangling) (d : Nat) (ss : List Stmt) : Names m (namedInBlock ss) (block m d ss) :=
  (writes_block d ss).names m

end Again

/-! ### Identifiers -/

/-- Each row has its place as number. -/
def Numbered (names : List Binding) : Prop :=
  ∀ i b, names[i]? = some b → b.text = b.name ++ "_" ++ toString (i + 1)

theorem numbered_mangle {names : List Binding} (h : Numbered names) (k : Key) (name : String) :
    Numbered (mangle names k name).2 := by
  rcases mangle_cases names k name with ⟨b, -, -, hm⟩ | ⟨-, text, htext, hm⟩
  · rw [hm]
    exact h
  · rw [hm]
    intro i b hb
    rcases Nat.lt_trichotomy i names.length with hi | rfl | hi
    · exact h i b (by rwa [List.getElem?_append_left hi] at hb)
    · obtain rfl : ⟨k, name, text⟩ = b := by simpa using hb
      exact htext
    · rw [List.getElem?_eq_none (by simpa using Nat.succ_le_of_lt hi)] at hb
      cases hb

section Rows

variable {m : Mangling}

theorem give_snoc (names : List Binding) (es : List Entity) (e : Entity) :
    give m names (es ++ [e]) = (mangle (give m names es) (m.key e) e.name).2 := give_append names es [e]

theorem numbered_give (es : List Entity) : Numbered (give m [] es) := by
  induction es using List.reverseRecOn with
  | nil =>
    intro i b hb
    cases hb
  | append_singleton es e ih =>
    rw [give_snoc]
    exact numbered_mangle ih _ _

theorem eraseDups_snoc (ks : List Key) (k : Key) :
    (ks ++ [k]).eraseDups = if k ∈ ks then ks.eraseDups else ks.eraseDups ++ [k] := by
  rw [List.eraseDups_append]
  by_cases h : k ∈ ks <;> simp [List.removeAll, List.filter, h, List.eraseDups_cons]

/-- There is one row for each key, in the order in which the keys come up. -/
theorem keys_give (es : List Entity) : (give m [] es).map (·.key) = (es.map m.key).eraseDups := by
  induction es using List.reverseRecOn with
  | nil => rfl
  | append_singleton es e ih =>
    have hmem : m.key e ∈ es.map m.key ↔ ∃ b ∈ give m [] es, b.key = m.key e := by
      rw [← List.mem_eraseDups, ← ih, List.mem_map]
    rw [give_snoc, List.map_append, List.map_singleton, eraseDups_snoc, ← ih]
    rcases mangle_cases (give m [] es) (m.key e) e.name with ⟨b, hb, hkey, hm⟩ | ⟨hnew, text, -, hm⟩
    · rw [hm, if_pos (hmem.2 ⟨b, hb, hkey⟩)]
    · have hnone : ¬ ∃ b ∈ give m [] es, b.key = m.key e := by
        rintro ⟨b, hb, hkey⟩
        exact hnew b hb hkey
      rw [hm, if_neg (hmem.not.2 hnone), List.map_append, List.map_singleton]

theorem named_give (es : List Entity) :
    ∀ b ∈ give m [] es, ∃ e ∈ es, b.key = m.key e ∧ b.name = e.name := by
  induction es using List.reverseRecOn with
  | nil => simp [give]
  | append_singleton es e ih =>
    rw [give_snoc]
    intro b hb
    have hb : b ∈ give m [] es ∨ b.key = m.key e ∧ b.name = e.name := by
      rcases mangle_cases (give m [] es) (m.key e) e.name with ⟨_, -, -, hm⟩ | ⟨-, text, -, hm⟩
      · rw [hm] at hb
        exact .inl hb
      · rw [hm, List.mem_append, List.mem_singleton] at hb
        exact hb.imp_right fun h => by rw [h]; exact ⟨rfl, rfl⟩
    rcases hb with hb | hb
    · obtain ⟨d, hd, h⟩ := ih b hb
      exact ⟨d, List.mem_append_left _ hd, h⟩
    · exact ⟨e, List.mem_append_right _ List.mem_cons_self, hb⟩

end Rows

theorem eq_of_append_underscore {as bs cs ds : List Char} (ha : '_' ∉ as) (hb : '_' ∉ bs)
    (h : as ++ '_' :: cs = bs ++ '_' :: ds) : as = bs := by
  induction as generalizing bs with
  | nil =>
    cases bs with
    | nil => rfl
    | cons b bs => simp_all
  | cons a as ih =>
    cases bs with
    | nil => simp_all
    | cons b bs =>
      simp only [List.cons_append, List.cons.injEq] at h
      simp only [List.mem_cons, not_or] at ha hb
      rw [h.1, ih ha.2 hb.2 h.2]

/-- What is behind the last underscore tells identifiers apart, whatever stands before it. -/
theorem number_of_identifier {a b : String} {i j : Nat}
    (h : a ++ "_" ++ toString i = b ++ "_" ++ toString j) : i = j := by
  have hlists : a.toList ++ '_' :: Nat.toDigits 10 i = b.toList ++ '_' :: Nat.toDigits 10 j := by
    have h := congrArg String.toList h
    simpa [Nat.toString_eq_ofList_toDigits] using h
  have hdigits : (Nat.toDigits 10 i).reverse = (Nat.toDigits 10 j).reverse := by
    -- from the right the first underscore comes after the digits
    have hrev := congrArg List.reverse hlists
    simp only [List.reverse_append, List.reverse_cons, List.append_assoc, List.singleton_append] at hrev
    exact eq_of_append_underscore (by simp [Nat.underscore_not_in_toDigits])
      (by simp [Nat.underscore_not_in_toDigits]) hrev
  rw [← Nat.ofDigitChars_ten_toDigits (n := i), List.reverse_inj.1 hdigits, Nat.ofDigitChars_ten_toDigits]

theorem nodup_of_numbered {names : List Binding} (h : Numbered names) : (names.map (·.text)).Nodup := by
  rw [List.Nodup, List.pairwise_map, List.pairwise_iff_getElem]
  intro i j hi hj hlt heq
  rw [h i _ (List.getElem?_eq_getElem hi), h j _ (List.getElem?_eq_getElem hj)] at heq
  have hij := number_of_identifier heq
  omega

/-- The names that a script has without being given any. -/
def ownNames : List String :=
  ["console", "Math", "String", "Number", "Object", "undefined", "NaN", "Infinity", "this", "true", "false",
   "constructor", "s"]

theorem not_mem_ownNames {names : List Binding} (h : Numbered names) : ∀ b ∈ names, b.text ∉ ownNames := by
  intro b hb hown
  obtain ⟨i, hi⟩ := List.mem_iff_getElem?.1 hb
  have hscore : '_' ∈ b.text.toList := by simp [h i b hi]
  have hplain : ∀ n ∈ ownNames, '_' ∉ n.toList := by decide
  exact hplain _ hown hscore

/-- The rows of a table are the identifiers of what a program names. -/
structure Identifies (names : List Binding) (p : Program) : Prop where
  /-- One row for every entity that is named and for nothing else, in the order in which they come up. -/
  keys : names.map (·.key) = (p.named.map Mangling.byEntity.key).eraseDups
  own : ∀ b ∈ names, ∃ e ∈ p.named, b.key = .entity e.id ∧ b.name = e.name
  /-- The numbers are those from one to the number of rows. -/
  numbered : ∀ i b, names[i]? = some b → b.text = b.name ++ "_" ++ toString (i + 1)
  distinct : (names.map (·.text)).Nodup
  free : ∀ b ∈ names, b.text ∉ ownNames

/-- A script has one identifier for every entity that its program names: written with these identifiers given
out beforehand, the program has the same script and takes no other. -/
theorem generate_identifies {p : Program} {text : String} (h : generate .byEntity p = .ok text) :
    ∃ st, st.text = text ∧ run .byEntity p = (.ok (), st) ∧ Identifies st.names p ∧
      block .byEntity 0 p.statements ⟨st.names, #[]⟩ = .ok () st := by
  unfold generate at h
  split at h
  · next st hrun =>
    cases h
    refine ⟨st, rfl, hrun, ?_⟩
    unfold run at hrun
    split at hrun
    · next st' hblock =>
      cases hrun
      obtain ⟨hnames, hagain⟩ := names_block .byEntity 0 p.statements _ _ _ hblock
      have hnumbered : Numbered st.names := hnames ▸ numbered_give _
      refine ⟨⟨?_, ?_, hnumbered, nodup_of_numbered hnumbered, not_mem_ownNames hnumbered⟩, ?_⟩
      · rw [hnames]
        exact keys_give _
      · rw [hnames]
        exact named_give _
      · exact hagain st.names (List.prefix_refl _)
    · cases hrun
  · cases h

/-- A name that looks like an identifier, and a variable that hides another. -/
def shadowProgram : Program :=
  let x : Entity := ⟨20, .var true, "x", .bool⟩
  let y : Entity := ⟨21, .var true, "x_1", .bool⟩
  let z : Entity := ⟨22, .var true, "x", .bool⟩
  ⟨[.declare x (some (.bool true)) .start, .declare y (some (.ref x)) .start,
    .whileLoop (.ref x) [.declare z (some (.ref y)) .start, .assign (.ref z) (.ref y) .start] .start,
    .print [.ref y, .ref x] .start]⟩

def shadowText : String :=
  "let x_1 = true;\nlet x_1_2 = x_1;\nwhile (x_1) \x7b\n  let x_3 = x_1_2;\n  x_3 = x_1_2;\n\x7d\n" ++
    "console.log(x_1_2, x_1);"

theorem generate_identifies_shadow :
    generate .byEntity shadowProgram = .ok shadowText ∧
    ∃ st, st.text = shadowText ∧ run .byEntity shadowProgram = (.ok (), st) ∧
      Identifies st.names shadowProgram ∧
      block .byEntity 0 shadowProgram.statements ⟨st.names, #[]⟩ = .ok () st :=
  have h : generate .byEntity shadowProgram = .ok shadowText := by rfl
  ⟨h, generate_identifies h⟩

end Snack.Script
