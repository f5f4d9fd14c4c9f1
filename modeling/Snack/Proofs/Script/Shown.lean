import Snack.Proofs.Core.Shown

/-! A dump shows all of a program that its script depends on, as long as names are told apart by their
spelling: programs that are shown alike are written alike. What a dump leaves out is which entity a name
stands for, the types of classes and of the library, and whether an operator that nobody knows is meant. -/

namespace Snack.Script

open Snack.Core
open Snack.Typing (Node Proper)

/-! ### Entities and types -/

section Shown

variable {e e' : Entity} {j : Json}

/-- The type that a node shows behind its name. -/
def shownType : Json → Json
  | .obj [_, _, (_, t)] => t
  | _ => .null

theorem isDict_of_dumpTy {t : Ty} (h : dumpTy t = .ok j) : isDict t = (shownTag j == "DictType") := by
  cases t with
  | prim p =>
    cases h
    rfl
  | other tag => cases h
  | _ =>
    simp only [dumpTy, except_bind_ok, except_pure_ok] at h
    grind [node, shownTag, isDict]

/-- A class or a library entity, whose type is not shown, is no dictionary. -/
theorem isDict_of_dumpEntity (hp : Proper e) (h : dumpEntity e = .ok j) :
    isDict e.typ = (shownTag (shownType j) == "DictType") := by
  cases hp with
  | var ht | parameter ht =>
    simp only [dumpEntity, except_bind_ok, except_pure_ok] at h
    obtain ⟨jt, hjt, rfl⟩ := h
    exact isDict_of_dumpTy hjt
  | function =>
    simp only [dumpEntity, except_bind_ok, except_pure_ok] at h
    obtain ⟨jt, hjt, rfl⟩ := h
    exact isDict_of_dumpTy hjt
  | classDef =>
    cases h
    rfl
  | standard hmem =>
    simp only [Typing.standardLibrary, List.mem_cons, List.not_mem_nil, or_false] at hmem
    rcases hmem with rfl | rfl | rfl | rfl | rfl | rfl | rfl | rfl | rfl | rfl | rfl | rfl | rfl | rfl <;>
    · cases h
      rfl

theorem isDict_of_shown {t t' : Ty} (h : dumpTy t = .ok j) (h' : dumpTy t' = .ok j) :
    isDict t = isDict t' := by
  rw [isDict_of_dumpTy h, isDict_of_dumpTy h']

theorem isDict_of_shownEntity (hp : Proper e) (hp' : Proper e') (h : dumpEntity e = .ok j)
    (h' : dumpEntity e' = .ok j) : isDict e.typ = isDict e'.typ := by
  rw [isDict_of_dumpEntity hp h, isDict_of_dumpEntity hp' h']

theorem isLen_of_dumpEntity (h : dumpEntity e = .ok j) :
    isLen (.ref e) = (shownTag j == "BuiltInFunction" && shownName j == "len") := by
  obtain ⟨htag, hname, hk⟩ := shown_of_dumpEntity h
  rw [htag, hname]
  obtain ⟨id, kind, name, typ⟩ := e
  cases kind with
  | other tag => exact absurd rfl (hk tag)
  | _ => rfl

theorem nameOf_byName (h : e.name = e'.name) : nameOf .byName e = nameOf .byName e' := by
  funext st
  simp only [nameOf, Mangling.key, h]

/-- Entities that are shown alike are written alike, whatever they are. -/
theorem nameOf_of_shown (h : dumpEntity e = .ok j) (h' : dumpEntity e' = .ok j) :
    nameOf .byName e = nameOf .byName e' :=
  nameOf_byName ((shown_of_dumpEntity h).2.1.symm.trans (shown_of_dumpEntity h').2.1)

theorem namesOf_of_shown {es es' : List Entity} (h : List.Forall₂ (ShownAlike dumpEntity) es es') :
    namesOf .byName es = namesOf .byName es' := by
  induction h with
  | nil => rfl
  | cons he _ ih =>
    obtain ⟨j, h, h'⟩ := he
    rw [namesOf, namesOf, nameOf_of_shown h h', ih]

/-- An entity as a value, by its type and name in a dump. -/
def shownValue (tag name : String) : Emit String :=
  if tag = "Class" then pure "this"
  else if tag = "BuiltInFunction" then builtin name
  else if tag = "Constant" then constant name
  else nameOf .byName ⟨0, .parameter, name, .any⟩

theorem entity_of_dumpEntity (hm : e.kind ≠ .function true) (h : dumpEntity e = .ok j) :
    entity .byName e = shownValue (shownTag j) (shownName j) := by
  obtain ⟨htag, hname, hk⟩ := shown_of_dumpEntity h
  rw [htag, hname]
  obtain ⟨id, kind, name, typ⟩ := e
  cases kind with
  | var | parameter => exact nameOf_byName rfl
  | function isMethod =>
    cases isMethod with
    | true => exact absurd rfl hm
    | false => exact nameOf_byName rfl
  | other tag => exact absurd rfl (hk tag)
  | _ => rfl

end Shown

/-! ### Expressions -/

/-- Expressions that are written alike, and alike in all that is asked of an expression where it stands. -/
structure WrittenAlike (e e' : Expr) : Prop where
  text : ∀ d, expr .byName d e = expr .byName d e'
  dict : isDict e.typ = isDict e'.typ
  len : isLen e = isLen e'
  key : isPlainKey e = isPlainKey e'
  items : isItems e = isItems e'

theorem WrittenAlike.refl (e : Expr) : WrittenAlike e e := ⟨fun _ => rfl, rfl, rfl, rfl, rfl⟩

/-- An expression whose dump tells how it is written. -/
def Told (e : Expr) : Prop :=
  ∀ ⦃e' : Expr⦄ ⦃j : Json⦄, Clear e' → dumpExpr e = .ok j → dumpExpr e' = .ok j → WrittenAlike e e'

theorem Told.of_tag {e : Expr} (h : ∀ ⦃e' : Expr⦄ ⦃j : Json⦄, e.tag = e'.tag → Clear e' →
    dumpExpr e = .ok j → dumpExpr e' = .ok j → WrittenAlike e e') : Told e :=
  fun _ _ h' hj hj' => h (tag_of_shownAlike hj hj') h' hj hj'

theorem exprs_of_shown {es es' : List Expr} {js : List Json} (h : ∀ e ∈ es, Told e) (h' : ∀ e ∈ es', Clear e)
    (hj : dumpExprs es = .ok js) (hj' : dumpExprs es' = .ok js) (d : Nat) :
    exprs .byName d es = exprs .byName d es' := by
  rw [dumpExprs_eq_mapM] at hj hj'
  have hes := forall₂_of_mapM hj hj'
  clear hj hj'
  induction hes with
  | nil => rfl
  | cons he _ ih =>
    obtain ⟨j, hj, hj'⟩ := he
    obtain ⟨he, hes⟩ := List.forall_mem_cons.1 h
    obtain ⟨he', hes'⟩ := List.forall_mem_cons.1 h'
    rw [exprs, exprs, (he he' hj hj').text d, ih hes hes']

theorem entries_of_shown {es es' : List (Expr × Expr)} {js : List Json} (hk : ∀ e ∈ es, Told e.1)
    (hv : ∀ e ∈ es, Told e.2) (hk' : ∀ e ∈ es', Clear e.1) (hv' : ∀ e ∈ es', Clear e.2)
    (hj : dumpEntries es = .ok js) (hj' : dumpEntries es' = .ok js) (d : Nat) :
    entries .byName d es = entries .byName d es' := by
  rw [dumpEntries_eq_mapM] at hj hj'
  have hes := forall₂_of_mapM hj hj'
  clear hj hj'
  induction hes with
  | nil => rfl
  | @cons a b _ _ he _ ih =>
    obtain ⟨j, hj, hj'⟩ := he
    simp only [dumpEntry, except_bind_ok, except_pure_ok] at hj hj'
    obtain ⟨jk, hjk, jv, hjv, rfl⟩ := hj
    obtain ⟨_, hjk', _, hjv', heq⟩ := hj'
    obtain ⟨rfl, rfl⟩ := by simpa using heq
    obtain ⟨hk, hks⟩ := List.forall_mem_cons.1 hk
    obtain ⟨hv, hvs⟩ := List.forall_mem_cons.1 hv
    obtain ⟨hk', hks'⟩ := List.forall_mem_cons.1 hk'
    obtain ⟨hv', hvs'⟩ := List.forall_mem_cons.1 hv'
    have hkey := hk hk' hjk hjk'
    have hvalue := hv hv' hjv hjv'
    rw [entries, entries, hkey.text d, hvalue.text d, hkey.key, ih hks hvs hks' hvs']

/-- A known operator is told by its text. -/
theorem binaryOp_of_text {op op' : BinaryOp} (h : ∀ text, op ≠ .other text) (h' : ∀ text, op' ≠ .other text)
    (htext : op.text = op'.text) : binaryOp op = binaryOp op' := by
  have hop : ∀ o : BinaryOp, (∀ text, o ≠ .other text) → BinaryOp.ofText o.text = o := by
    intro o ho
    cases o with
    | other text => exact absurd rfl (ho text)
    | _ => rfl
  rw [← hop op h, ← hop op' h', htext]

theorem expr_unary {op : UnaryOp} (hop : op ∈ [.neg, .not]) (d : Nat) (e : Expr) (t : Ty) :
    expr .byName d (.unary op e t) = do return "(" ++ op.text ++ (← expr .byName d e) ++ ")" := by
  rw [expr]
  rintro rfl
  simp at hop

namespace Told

variable {e l r : Expr} {es : List Expr} {t : Ty}

theorem ref {e : Entity} (hp : Proper e) (hm : e.kind ≠ .function true) : Told (.ref e) := by
  refine .of_tag fun e' j htag h' hj hj' => ?_
  cases h' with
  | ref hp' hm' =>
    refine ⟨fun _ => ?_, isDict_of_shownEntity hp hp' hj hj', ?_, rfl, rfl⟩
    · exact (entity_of_dumpEntity hm hj).trans (entity_of_dumpEntity hm' hj').symm
    · exact (isLen_of_dumpEntity hj).trans (isLen_of_dumpEntity hj').symm
  | _ => simp [Expr.tag] at htag

theorem binary {op : BinaryOp} (hop : ∀ text, op ≠ .other text) (hl : Told l) (hr : Told r) :
    Told (.binary op l r t) := by
  refine .of_tag fun e' j htag h' hj hj' => ?_
  cases h' with
  | binary hop' hl' hr' =>
    simp only [dumpExpr, except_bind_ok, except_pure_ok] at hj hj'
    obtain ⟨jl, hjl, jr, hjr, jt, hjt, rfl⟩ := hj
    obtain ⟨_, hjl', _, hjr', _, hjt', heq⟩ := hj'
    obtain ⟨htext, rfl, rfl, rfl⟩ := by simpa [node] using heq
    refine ⟨fun d => ?_, isDict_of_shown hjt hjt', rfl, rfl, rfl⟩
    rw [expr, expr, (hl hl' hjl hjl').text d, (hr hr' hjr hjr').text d, binaryOp_of_text hop hop' htext.symm]
  | _ => simp [Expr.tag] at htag

theorem unary {op : UnaryOp} (hop : op ∈ [.neg, .not]) (he : Told e) : Told (.unary op e t) := by
  refine .of_tag fun e' j htag h' hj hj' => ?_
  cases h' with
  | unary hop' he' =>
    simp only [dumpExpr, except_bind_ok, except_pure_ok] at hj hj'
    obtain ⟨je, hje, jt, hjt, rfl⟩ := hj
    obtain ⟨_, hje', _, hjt', heq⟩ := hj'
    obtain ⟨htext, rfl, rfl⟩ := by simpa [node] using heq
    refine ⟨fun d => ?_, isDict_of_shown hjt hjt', rfl, rfl, rfl⟩
    rw [expr_unary hop, expr_unary hop', (he he' hje hje').text d, htext]
  | _ => simp [Expr.tag] at htag

theorem call (hf : Told e) (ha : ∀ a ∈ es, Told a) : Told (.call e es t) := by
  refine .of_tag fun e' j htag h' hj hj' => ?_
  cases h' with
  | call hf' ha' =>
    simp only [dumpExpr, except_bind_ok, except_pure_ok] at hj hj'
    obtain ⟨jf, hjf, js, hjs, jt, hjt, rfl⟩ := hj
    obtain ⟨_, hjf', _, hjs', _, hjt', heq⟩ := hj'
    obtain ⟨rfl, rfl, rfl⟩ := by simpa [node] using heq
    have hcallee := hf hf' hjf hjf'
    refine ⟨fun d => ?_, isDict_of_shown hjt hjt', rfl, rfl, rfl⟩
    rw [expr, expr, exprs_of_shown ha ha' hjs hjs' d, hcallee.len, hcallee.text d]
  | _ => simp [Expr.tag] at htag

theorem construct {c : Entity} (hc : Proper c) (ha : ∀ a ∈ es, Told a) : Told (.construct c es) := by
  refine .of_tag fun e' j htag h' hj hj' => ?_
  cases h' with
  | construct hc' ha' =>
    simp only [dumpExpr, except_bind_ok, except_pure_ok] at hj hj'
    obtain ⟨jc, hjc, js, hjs, rfl⟩ := hj
    obtain ⟨_, hjc', _, hjs', heq⟩ := hj'
    obtain ⟨rfl, rfl⟩ := by simpa [node] using heq
    refine ⟨fun d => ?_, isDict_of_shownEntity hc hc' hjc hjc', rfl, rfl, rfl⟩
    rw [expr, expr, exprs_of_shown ha ha' hjs hjs' d, nameOf_of_shown hjc hjc']
  | _ => simp [Expr.tag] at htag

theorem member {op : AccessOp} {field : String} (ho : Told e) : Told (.member e op field t) := by
  refine .of_tag fun e' j htag h' hj hj' => ?_
  cases h' with
  | member ho' =>
    simp only [dumpExpr, except_bind_ok, except_pure_ok] at hj hj'
    obtain ⟨jo, hjo, jt, hjt, rfl⟩ := hj
    obtain ⟨_, hjo', _, hjt', heq⟩ := hj'
    obtain ⟨rfl, htext, rfl, rfl⟩ := by simpa [node] using heq
    have hobject := ho ho' hjo hjo'
    refine ⟨fun d => ?_, isDict_of_shown hjt hjt', rfl, rfl, rfl⟩
    rw [expr, expr, hobject.text d, hobject.dict, htext]
  | _ => simp [Expr.tag] at htag

theorem dict {es : List (Expr × Expr)} (hk : ∀ e ∈ es, Told e.1) (hv : ∀ e ∈ es, Told e.2) :
    Told (.dict es t) := by
  refine .of_tag fun e' j htag h' hj hj' => ?_
  cases h' with
  | dict hk' hv' =>
    simp only [dumpExpr, except_bind_ok, except_pure_ok] at hj hj'
    obtain ⟨js, hjs, jt, hjt, rfl⟩ := hj
    obtain ⟨_, hjs', _, hjt', heq⟩ := hj'
    obtain ⟨rfl, rfl⟩ := by simpa [node] using heq
    refine ⟨fun d => ?_, isDict_of_shown hjt hjt', rfl, rfl, rfl⟩
    rw [expr, expr, entries_of_shown hk hv hk' hv' hjs hjs' d]
  | _ => simp [Expr.tag] at htag

end Told

theorem told {e : Expr} (h : Clear e) : Told e := by
  induction h with
  | int | float | str | bool =>
    refine .of_tag fun e' j htag h' hj hj' => ?_
    -- of what starts with another type nothing is left
    cases h' <;> simp [Expr.tag] at htag
    cases hj
    cases hj'
    exact .refl _
  | ref hp hm => exact .ref hp hm
  | binary hop _ _ ihl ihr => exact .binary hop ihl ihr
  | unary hop _ ih => exact .unary hop ih
  | call _ _ ihf iha => exact .call ihf iha
  | construct hc _ iha => exact .construct hc iha
  | member _ ih => exact .member ih
  | array _ ih | tuple _ ih =>
    refine .of_tag fun e' j htag h' hj hj' => ?_
    cases h' <;> simp [Expr.tag] at htag
    next he' =>
      simp only [dumpExpr, except_bind_ok, except_pure_ok] at hj hj'
      obtain ⟨js, hjs, jt, hjt, rfl⟩ := hj
      obtain ⟨_, hjs', _, hjt', heq⟩ := hj'
      obtain ⟨rfl, rfl⟩ := by simpa [node] using heq
      refine ⟨fun d => ?_, isDict_of_shown hjt hjt', rfl, rfl, rfl⟩
      rw [expr, expr, exprs_of_shown ih he' hjs hjs' d]
  | dict _ _ ihk ihv => exact .dict ihk ihv
  | emptyArray | emptyOptional =>
    refine .of_tag fun e' j htag h' hj hj' => ?_
    cases h' <;> simp [Expr.tag] at htag
    simp only [dumpExpr, except_bind_ok, except_pure_ok] at hj hj'
    obtain ⟨jt, hjt, rfl⟩ := hj
    obtain ⟨_, hjt', heq⟩ := hj'
    obtain rfl := by simpa [node] using heq
    exact ⟨fun _ => rfl, isDict_of_shown hjt hjt', rfl, rfl, rfl⟩

/-! ### Statements -/

/-- Nodes with clear expressions. -/
abbrev ClearNode : Node → Prop := Built Clear Proper (·.typ.Known)

/-- A node whose dump tells how it is written. A function is written behind a keyword and a name. -/
def ToldNode : Node → Prop
  | .stmt s => ∀ ⦃s' : Stmt⦄ ⦃j : Json⦄, ClearNode (.stmt s') → dumpStmt s = .ok j → dumpStmt s' = .ok j →
      ∀ d, stmt .byName d s = stmt .byName d s'
  | .rest e => ∀ ⦃e' : Else⦄ ⦃j : Json⦄, ClearNode (.rest e') → dumpElse e = .ok j → dumpElse e' = .ok j →
      ∀ d, elsePart .byName d e = elsePart .byName d e'
  | .function f => ∀ ⦃f' : Function⦄ ⦃j : Json⦄, ClearNode (.function f') → dumpFunction f = .ok j →
      dumpFunction f' = .ok j →
      ∀ d keyword name, function .byName d keyword name f = function .byName d keyword name f'

theorem name_of_dumpFunction {f : Function} {j : Json} (h : dumpFunction f = .ok j) :
    f.entity.name = shownName j := by
  obtain ⟨e, ps, b, p⟩ := f
  simp only [dumpFunction, except_bind_ok, except_pure_ok] at h
  obtain ⟨_, _, _, _, _, _, rfl⟩ := h
  rfl

theorem block_of_shown {ss ss' : List Stmt} {js : List Json} (h : ∀ s ∈ ss, ToldNode (.stmt s))
    (h' : ∀ s ∈ ss', ClearNode (.stmt s)) (hj : dumpStmts ss = .ok js) (hj' : dumpStmts ss' = .ok js)
    (d : Nat) : block .byName d ss = block .byName d ss' := by
  rw [dumpStmts_eq_mapM] at hj hj'
  have hss := forall₂_of_mapM hj hj'
  clear hj hj'
  induction hss with
  | nil => rfl
  | cons hs _ ih =>
    obtain ⟨j, hj, hj'⟩ := hs
    obtain ⟨hs, hss⟩ := List.forall_mem_cons.1 h
    obtain ⟨hs', hss'⟩ := List.forall_mem_cons.1 h'
    rw [block, block, hs hs' hj hj' d, ih hss hss']

theorem methods_of_shown {fs fs' : List Function} {js : List Json} (h : ∀ f ∈ fs, ToldNode (.function f))
    (h' : ∀ f ∈ fs', ClearNode (.function f)) (hj : dumpFunctions fs = .ok js)
    (hj' : dumpFunctions fs' = .ok js) (d : Nat) : methods .byName d fs = methods .byName d fs' := by
  rw [dumpFunctions_eq_mapM] at hj hj'
  have hfs := forall₂_of_mapM hj hj'
  clear hj hj'
  induction hfs with
  | nil => rfl
  | cons hf _ ih =>
    obtain ⟨j, hj, hj'⟩ := hf
    obtain ⟨hf, hfs⟩ := List.forall_mem_cons.1 h
    obtain ⟨hf', hfs'⟩ := List.forall_mem_cons.1 h'
    rw [methods, methods, name_of_dumpFunction hj, name_of_dumpFunction hj', hf hf' hj hj', ih hfs hfs']

theorem ToldNode.of_tag {s : Stmt} (h : ∀ ⦃s' : Stmt⦄ ⦃j : Json⦄, s.tag = s'.tag →
    ClearNode (.stmt s') → dumpStmt s = .ok j → dumpStmt s' = .ok j →
    ∀ d, stmt .byName d s = stmt .byName d s') : ToldNode (.stmt s) :=
  fun _ _ h' hj hj' => h ((tag_of_dumpStmt hj).trans (tag_of_dumpStmt hj').symm) h' hj hj'

theorem ToldNode.rest_of_tag {e : Else} (h : ∀ ⦃e' : Else⦄ ⦃j : Json⦄, e.tag = e'.tag →
    ClearNode (.rest e') → dumpElse e = .ok j → dumpElse e' = .ok j →
    ∀ d, elsePart .byName d e = elsePart .byName d e') : ToldNode (.rest e) :=
  fun _ _ h' hj hj' => h ((tag_of_dumpElse hj).trans (tag_of_dumpElse hj').symm) h' hj hj'

/-- Both are missing, or both are there and written alike. -/
theorem expr?_of_shown {o o' : Option Expr} {j : Json} (h : ∀ e ∈ o, Clear e) (h' : ∀ e ∈ o', Clear e)
    (hj : dumpExpr? o = .ok j) (hj' : dumpExpr? o' = .ok j) :
    (o = none ∧ o' = none) ∨ ∃ e e', o = some e ∧ o' = some e' ∧ WrittenAlike e e' := by
  have hnull : ∀ e, dumpExpr e ≠ .ok .null := by
    intro e he
    have htag := tag_of_dumpExpr he
    cases e with
    | other tag t => cases he
    | _ => simp [Expr.tag, shownTag, entityTags] at htag
  cases o with
  | none =>
    cases hj
    cases o' with
    | none => exact .inl ⟨rfl, rfl⟩
    | some e' => exact absurd hj' (hnull e')
  | some e =>
    cases o' with
    | none =>
      cases hj'
      exact absurd hj (hnull e)
    | some e' => exact .inr ⟨e, e', rfl, rfl, told (h e rfl) (h' e' rfl) hj hj'⟩

theorem constructor_of_shown {fs fs' : List Field} {js : List Json} (hj : dumpFields fs = .ok js)
    (hj' : dumpFields fs' = .ok js) (d : Nat) : constructor d fs = constructor d fs' := by
  rw [dumpFields_eq_mapM] at hj hj'
  have hfs := forall₂_of_mapM hj hj'
  have hnames : fs.map (·.name) = fs'.map (·.name) := by
    clear hj hj'
    induction hfs with
    | nil => rfl
    | cons hf _ ih =>
      obtain ⟨j, hj, hj'⟩ := hf
      simp only [dumpField, except_bind_ok, except_pure_ok] at hj hj'
      obtain ⟨jt, -, rfl⟩ := hj
      obtain ⟨_, -, heq⟩ := hj'
      obtain ⟨hname, -⟩ := by simpa using heq
      simp [hname, ih]
  have hstores : ∀ fs : List Field,
      (fs.forM fun f => line (d + 1) ("this." ++ f.name ++ " = " ++ f.name ++ ";")) =
      (fs.map (·.name)).forM fun name => line (d + 1) ("this." ++ name ++ " = " ++ name ++ ";") := by
    intro fs
    induction fs with
    | nil => rfl
    | cons f fs ih => rw [List.map_cons, List.forM, List.forM, ih]
  rw [constructor, constructor, hstores, hstores, hnames]

theorem eachHead_of_shown {is is' : List Entity} {js : List Json} {c c' : Expr}
    (hj : dumpEntities is = .ok js) (hj' : dumpEntities is' = .ok js) (hc : WrittenAlike c c') (d : Nat) :
    eachHead .byName d is c = eachHead .byName d is' c' := by
  rw [dumpEntities_eq_mapM] at hj hj'
  have his := forall₂_of_mapM hj hj'
  have hnames := namesOf_of_shown his
  clear hj hj'
  unfold eachHead
  rw [hc.text d, hc.items]
  -- two iterators are a case of their own
  cases his with
  | nil => rfl
  | cons h his =>
    obtain ⟨j, hj, hj'⟩ := h
    have hname := nameOf_of_shown hj hj'
    cases his with
    | nil => simp only [hname]
    | cons _ his =>
      cases his with
      | nil => simp only [hnames]
      | cons => simp only [hname]

theorem rangeOp_of_text {op op' : RangeOp} (h : op ∈ [.through, .below]) (h' : op' ∈ [.through, .below])
    (htext : op.text = op'.text) : op = op' := by
  have hop : ∀ o ∈ [RangeOp.through, .below], RangeOp.ofText o.text = o := by
    simp [RangeOp.text, RangeOp.ofText]
  rw [← hop op h, ← hop op' h', htext]

namespace ToldNode

variable {e t : Expr} {o : Option Expr} {b : List Stmt} {rest : Else} {p : Pos}

theorem declare {v : Entity} (hi : ∀ e ∈ o, Clear e) : ToldNode (.stmt (.declare v o p)) := by
  refine .of_tag fun s' j htag h' hj hj' d => ?_
  cases h' with
  | declare hv' hi' =>
    simp only [dumpStmt, except_bind_ok, except_pure_ok] at hj hj'
    obtain ⟨jv, hjv, ji, hji, rfl⟩ := hj
    obtain ⟨_, hjv', _, hji', heq⟩ := hj'
    obtain ⟨rfl, rfl, -⟩ := by simpa [node] using heq
    rcases expr?_of_shown hi hi' hji hji' with ⟨rfl, rfl⟩ | ⟨e, e', rfl, rfl, he⟩
    · rw [stmt, stmt, nameOf_of_shown hjv hjv']
    · rw [stmt, stmt, nameOf_of_shown hjv hjv', he.text d]
  | _ => simp [Stmt.tag] at htag

theorem function {f : Function} (hf : ToldNode (.function f)) : ToldNode (.stmt (.function f p)) := by
  refine .of_tag fun s' j htag h' hj hj' d => ?_
  cases h' with
  | @function f' p' _ hf' =>
    simp only [dumpStmt, except_bind_ok, except_pure_ok] at hj hj'
    obtain ⟨jf, hjf, rfl⟩ := hj
    obtain ⟨_, hjf', heq⟩ := hj'
    obtain ⟨rfl, -⟩ := by simpa [node] using heq
    have hname : f.entity.name = f'.entity.name := by
      rw [name_of_dumpFunction hjf, name_of_dumpFunction hjf']
    simp only [stmt, nameOf_byName hname, hf hf' hjf hjf' d]
  | _ => simp [Stmt.tag] at htag

theorem classDecl {c : Entity} {fields : List Field} {ms : List Function}
    (hm : ∀ f ∈ ms, ToldNode (.function f)) : ToldNode (.stmt (.classDecl c fields ms p)) := by
  refine .of_tag fun s' j htag h' hj hj' d => ?_
  cases h' with
  | classDecl _ _ hm' =>
    simp only [dumpStmt, except_bind_ok, except_pure_ok] at hj hj'
    obtain ⟨jfs, hjfs, jms, hjms, rfl⟩ := hj
    obtain ⟨_, hjfs', _, hjms', heq⟩ := hj'
    obtain ⟨hname, rfl, rfl, -⟩ := by simpa [node] using heq
    have hms := methods_of_shown hm hm' hjms hjms' (d + 1)
    rw [stmt, stmt, nameOf_byName hname.symm, constructor_of_shown hjfs hjfs', hms]
  | _ => simp [Stmt.tag] at htag

theorem ifElse (ht : Clear t) (hb : ∀ s ∈ b, ToldNode (.stmt s)) (he : ToldNode (.rest rest)) :
    ToldNode (.stmt (.ifElse t b rest p)) := by
  refine .of_tag fun s' j htag h' hj hj' d => ?_
  cases h' with
  | ifElse ht' hb' he' =>
    simp only [dumpStmt, except_bind_ok, except_pure_ok] at hj hj'
    obtain ⟨jt, hjt, jb, hjb, je, hje, rfl⟩ := hj
    obtain ⟨_, hjt', _, hjb', _, hje', heq⟩ := hj'
    obtain ⟨rfl, rfl, rfl, -⟩ := by simpa [node] using heq
    have hblock := block_of_shown hb hb' hjb hjb' (d + 1)
    rw [stmt, stmt, (told ht ht' hjt hjt').text d, hblock, he he' hje hje' d]
  | _ => simp [Stmt.tag] at htag

theorem whileLoop (ht : Clear t) (hb : ∀ s ∈ b, ToldNode (.stmt s)) :
    ToldNode (.stmt (.whileLoop t b p)) := by
  refine .of_tag fun s' j htag h' hj hj' d => ?_
  cases h' with
  | whileLoop ht' hb' =>
    simp only [dumpStmt, except_bind_ok, except_pure_ok] at hj hj'
    obtain ⟨jt, hjt, jb, hjb, rfl⟩ := hj
    obtain ⟨_, hjt', _, hjb', heq⟩ := hj'
    obtain ⟨rfl, rfl, -⟩ := by simpa [node] using heq
    have hblock := block_of_shown hb hb' hjb hjb' (d + 1)
    rw [stmt, stmt, (told ht ht' hjt hjt').text d, hblock]
  | _ => simp [Stmt.tag] at htag

theorem rangeLoop {i : Entity} {op : RangeOp} (hl : Clear t) (hop : op ∈ [.through, .below]) (hh : Clear e)
    (hb : ∀ s ∈ b, ToldNode (.stmt s)) : ToldNode (.stmt (.rangeLoop i t op e b p)) := by
  refine .of_tag fun s' j htag h' hj hj' d => ?_
  cases h' with
  | rangeLoop _ hl' hh' hop' hb' =>
    simp only [dumpStmt, except_bind_ok, except_pure_ok] at hj hj'
    obtain ⟨ji, hji, jl, hjl, jh, hjh, jb, hjb, rfl⟩ := hj
    obtain ⟨_, hji', _, hjl', _, hjh', _, hjb', heq⟩ := hj'
    obtain ⟨rfl, rfl, htext, rfl, rfl, -⟩ := by simpa [node] using heq
    have hblock := block_of_shown hb hb' hjb hjb' (d + 1)
    rw [stmt, stmt, rangeHead, rangeHead, nameOf_of_shown hji hji', (told hl hl' hjl hjl').text d,
      (told hh hh' hjh hjh').text d, rangeOp_of_text hop hop' htext.symm, hblock]
  | _ => simp [Stmt.tag] at htag

theorem eachLoop {is : List Entity} (hc : Clear e) (hb : ∀ s ∈ b, ToldNode (.stmt s)) :
    ToldNode (.stmt (.eachLoop is e b p)) := by
  refine .of_tag fun s' j htag h' hj hj' d => ?_
  cases h' with
  | eachLoop _ hc' hb' =>
    simp only [dumpStmt, except_bind_ok, except_pure_ok] at hj hj'
    obtain ⟨ji, hji, jc, hjc, jb, hjb, rfl⟩ := hj
    obtain ⟨_, hji', _, hjc', _, hjb', heq⟩ := hj'
    obtain ⟨rfl, rfl, rfl, -⟩ := by simpa [node] using heq
    have hblock := block_of_shown hb hb' hjb hjb' (d + 1)
    rw [stmt, stmt, eachHead_of_shown hji hji' (told hc hc' hjc hjc') d, hblock]
  | _ => simp [Stmt.tag] at htag

theorem ret (hv : ∀ e ∈ o, Clear e) : ToldNode (.stmt (.ret o p)) := by
  refine .of_tag fun s' j htag h' hj hj' d => ?_
  cases h' with
  | ret hv' =>
    simp only [dumpStmt, except_bind_ok, except_pure_ok] at hj hj'
    obtain ⟨jv, hjv, rfl⟩ := hj
    obtain ⟨_, hjv', heq⟩ := hj'
    obtain ⟨rfl, -⟩ := by simpa [node] using heq
    rcases expr?_of_shown hv hv' hjv hjv' with ⟨rfl, rfl⟩ | ⟨e, e', rfl, rfl, he⟩
    · rfl
    · rw [stmt, stmt, he.text d]
  | _ => simp [Stmt.tag] at htag

theorem brk : ToldNode (.stmt (.brk p)) := by
  refine .of_tag fun s' j htag h' hj hj' d => ?_
  cases h' with
  | brk => rfl
  | _ => simp [Stmt.tag] at htag

theorem print {es : List Expr} (he : ∀ e ∈ es, Clear e) : ToldNode (.stmt (.print es p)) := by
  refine .of_tag fun s' j htag h' hj hj' d => ?_
  cases h' with
  | print he' =>
    simp only [dumpStmt, except_bind_ok, except_pure_ok] at hj hj'
    obtain ⟨js, hjs, rfl⟩ := hj
    obtain ⟨_, hjs', heq⟩ := hj'
    obtain ⟨rfl, -⟩ := by simpa [node] using heq
    rw [stmt, stmt, exprs_of_shown (fun e hmem => told (he e hmem)) he' hjs hjs' d]
  | _ => simp [Stmt.tag] at htag

theorem call (he : Clear e) : ToldNode (.stmt (.call e p)) := by
  refine .of_tag fun s' j htag h' hj hj' d => ?_
  cases h' with
  | call he' =>
    simp only [dumpStmt, except_bind_ok, except_pure_ok] at hj hj'
    obtain ⟨je, hje, rfl⟩ := hj
    obtain ⟨_, hje', heq⟩ := hj'
    obtain ⟨rfl, -⟩ := by simpa [node] using heq
    rw [stmt, stmt, (told he he' hje hje').text d]
  | _ => simp [Stmt.tag] at htag

theorem none : ToldNode (.rest .none) := by
  refine .rest_of_tag fun e' j htag h' hj hj' d => ?_
  cases h' with
  | none => rfl
  | _ => simp [Else.tag] at htag

theorem block (hb : ∀ s ∈ b, ToldNode (.stmt s)) : ToldNode (.rest (.block b)) := by
  refine .rest_of_tag fun e' j htag h' hj hj' d => ?_
  cases h' with
  | block hb' =>
    simp only [dumpElse, except_bind_ok, except_pure_ok] at hj hj'
    obtain ⟨js, hjs, rfl⟩ := hj
    obtain ⟨_, hjs', heq⟩ := hj'
    cases heq
    have hblock := block_of_shown hb hb' hjs hjs' (d + 1)
    rw [dumpStmts_eq_mapM] at hjs hjs'
    -- an empty block is not written
    cases forall₂_of_mapM hjs hjs' with
    | nil => rfl
    | cons => simp only [elsePart, hblock]
  | _ => simp [Else.tag] at htag

theorem elseIf (ht : Clear t) (hb : ∀ s ∈ b, ToldNode (.stmt s)) (he : ToldNode (.rest rest)) :
    ToldNode (.rest (.elseIf t b rest p)) := by
  refine .rest_of_tag fun e' j htag h' hj hj' d => ?_
  cases h' with
  | elseIf ht' hb' he' =>
    simp only [dumpElse, except_bind_ok, except_pure_ok] at hj hj'
    obtain ⟨jt, hjt, jb, hjb, je, hje, rfl⟩ := hj
    obtain ⟨_, hjt', _, hjb', _, hje', heq⟩ := hj'
    obtain ⟨rfl, rfl, rfl, -⟩ := by simpa [node] using heq
    have hblock := block_of_shown hb hb' hjb hjb' (d + 1)
    rw [elsePart, elsePart, (told ht ht' hjt hjt').text d, hblock, he he' hje hje' d]
  | _ => simp [Else.tag] at htag

theorem body {f : Entity} {ps : List Entity} (hb : ∀ s ∈ b, ToldNode (.stmt s)) :
    ToldNode (.function (.mk f ps b p)) := by
  intro f' j h' hj hj' d keyword name
  cases h' with
  | body _ _ hb' =>
    simp only [dumpFunction, except_bind_ok, except_pure_ok] at hj hj'
    obtain ⟨jps, hjps, jt, -, jb, hjb, rfl⟩ := hj
    obtain ⟨_, hjps', _, -, _, hjb', heq⟩ := hj'
    obtain ⟨-, rfl, -, -, rfl, -⟩ := by simpa [node] using heq
    have hblock := block_of_shown hb hb' hjb hjb' (d + 1)
    rw [dumpEntities_eq_mapM] at hjps hjps'
    rw [Script.function, Script.function, namesOf_of_shown (forall₂_of_mapM hjps hjps'), hblock]

end ToldNode

/-- Statements that are shown alike are written alike. -/
theorem toldNode {n : Node} (h : ClearNode n) : ToldNode n := by
  induction h with
  | declare _ hi => exact .declare hi
  | function _ _ ih => exact .function ih
  | classDecl _ _ _ ih => exact .classDecl ih
  | assign ht hs | addAssign ht hs =>
    refine .of_tag fun s' j htag h' hj hj' d => ?_
    cases h' <;> simp [Stmt.tag] at htag
    next ht' hs' =>
      simp only [dumpStmt, except_bind_ok, except_pure_ok] at hj hj'
      obtain ⟨jt, hjt, js, hjs, rfl⟩ := hj
      obtain ⟨_, hjt', _, hjs', heq⟩ := hj'
      obtain ⟨rfl, rfl, -⟩ := by simpa [node] using heq
      rw [stmt, stmt, (told ht ht' hjt hjt').text d, (told hs hs' hjs hjs').text d]
  | increment ht | decrement ht =>
    refine .of_tag fun s' j htag h' hj hj' d => ?_
    cases h' <;> simp [Stmt.tag] at htag
    next ht' =>
      simp only [dumpStmt, except_bind_ok, except_pure_ok] at hj hj'
      obtain ⟨jt, hjt, rfl⟩ := hj
      obtain ⟨_, hjt', heq⟩ := hj'
      obtain ⟨rfl, -⟩ := by simpa [node] using heq
      rw [stmt, stmt, (told ht ht' hjt hjt').text d]
  | ifElse ht _ _ ihb ihe => exact .ifElse ht ihb ihe
  | whileLoop ht _ ih => exact .whileLoop ht ih
  | rangeLoop _ hl hh hop _ ih => exact .rangeLoop hl hop hh ih
  | eachLoop _ hc _ ih => exact .eachLoop hc ih
  | ret hv => exact .ret hv
  | brk => exact .brk
  | print he => exact .print he
  | call he => exact .call he
  | none => exact .none
  | block _ ih => exact .block ih
  | elseIf ht _ _ ihb ihe => exact .elseIf ht ihb ihe
  | body _ _ _ ih => exact .body ih

/-- Programs that are shown alike are written alike. -/
theorem generate_of_shown {p p' : Program} {j : Json} (h : ∀ s ∈ p.statements, ClearNode (.stmt s))
    (h' : ∀ s ∈ p'.statements, ClearNode (.stmt s)) (hj : p.dump = .ok j) (hj' : p'.dump = .ok j) :
    generate .byName p = generate .byName p' := by
  simp only [Program.dump, except_bind_ok, except_pure_ok] at hj hj'
  obtain ⟨js, hjs, rfl⟩ := hj
  obtain ⟨_, hjs', heq⟩ := hj'
  obtain rfl := by simpa [node] using heq
  have hblock := block_of_shown (fun s hs => toldNode (h s hs)) h' hjs hjs' 0
  rw [generate, generate, run, run, hblock]

/-- Programs that can be written out, in known words. -/
theorem clear_of_spelled {p : Program} (hw : p.Writable) (hs : p.Spelled) :
    ∀ s ∈ p.statements, ClearNode (.stmt s) :=
  fun s hmem => (hw s hmem).and (hs s hmem) fun _ hw hs => .of_spelled hs hw

end Snack.Script
