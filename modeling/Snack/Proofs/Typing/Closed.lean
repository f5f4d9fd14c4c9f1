import Snack.Proofs.Core.Sites
import Snack.Proofs.Typing.Resolution

/-! Where the entities of an accepted program are declared. A statement of a class that is neither a field
nor a method is analysed and left out, but what it declares can be used by the methods behind it, so a
program may use entities that none of its statements declares. -/

namespace Snack.Typing

open Snack.Core

/-! ### Statements left out -/

/-- The place of a declaration that is left out of a class: the class, and how many of its methods stand before the
declaration. What is declared there has a number, a kind and a name. -/
structure Place where
  cls : Entity
  before : Nat
  id : Nat
  kind : EntityKind
  name : String

/-- What a statement of a class declares that is neither a field nor a method. -/
def extra? (cls : Entity) (before n : Nat) : Tree.Stmt → Option Place
  | .collection _ name _ => some ⟨cls, before, n, .var true, name⟩
  | .classDecl _ name _ => some ⟨cls, before, n, .classDef, name⟩
  | _ => none

mutual

/-- The declarations that are left out of the classes in a statement whose first declaration has the number `n`.
Nothing inside of what is left out is part of the program. -/
def leftOut (n : Nat) : Tree.Stmt → List Place
  | .function _ _ ps _ body => leftOutOfBlock (n + 1 + (ps.getD []).length) body
  | .classDecl _ name body => leftOutOfClass (classEntity n name) 0 (n + 1) body
  | .ifChain _ _ body clauses none =>
    leftOutOfBlock n body ++ leftOutOfClauses (n + Tree.declaresInBlock body) clauses
  | .ifChain _ _ body clauses (some elsePart) =>
    leftOutOfBlock n body ++ (leftOutOfClauses (n + Tree.declaresInBlock body) clauses ++
      leftOutOfBlock (n + Tree.declaresInBlock body + Tree.declaresInClauses clauses) elsePart)
  | .whileLoop _ _ body => leftOutOfBlock n body
  | .rangeLoop _ _ _ _ _ body => leftOutOfBlock (n + 1) body
  | .eachLoop _ names _ body => leftOutOfBlock (n + (names.getD []).length) body
  | _ => []

def leftOutOfBlock (n : Nat) : List Tree.Stmt → List Place
  | [] => []
  | t :: ts => leftOut n t ++ leftOutOfBlock (n + t.declares) ts

def leftOutOfClauses (n : Nat) : List Tree.ElseIf → List Place
  | [] => []
  | .mk _ _ body :: cs => leftOutOfBlock n body ++ leftOutOfClauses (n + Tree.declaresInBlock body) cs

def leftOutOfClass (cls : Entity) (before n : Nat) : List Tree.Stmt → List Place
  | [] => []
  | .varDecl .. :: ts => leftOutOfClass cls before n ts
  | .function p name ps returns body :: ts =>
    leftOutOfBlock (n + 1 + (ps.getD []).length) body ++
      leftOutOfClass cls (before + 1) (n + (Tree.Stmt.function p name ps returns body).declares) ts
  | t :: ts => (extra? cls before n t).toList ++ leftOutOfClass cls before (n + t.declares) ts

end

theorem leftOutOfClass_extra {t : Tree.Stmt} (hk : isMember t = false) (cls : Entity) (before n : Nat)
    (ts : List Tree.Stmt) : leftOutOfClass cls before n (t :: ts) =
      (extra? cls before n t).toList ++ leftOutOfClass cls before (n + t.declares) ts := by
  cases t with
  | varDecl | function => cases hk
  | _ => rfl

/-- An entity that is declared in the body of a class and left out with its statement. -/
structure Hidden where
  cls : Entity
  before : Nat
  entity : Entity

def Hidden.place (h : Hidden) : Place := ⟨h.cls, h.before, h.entity.id, h.entity.kind, h.entity.name⟩

/-- What is left out of a class in front of one of its methods. -/
def hiddenIn (hs : List Hidden) (id i : Nat) : List Entity :=
  (hs.filter fun h => h.cls.id == id && decide (h.before ≤ i)).map (·.entity)

/-- What is hidden reaches the methods behind it. -/
def Hidden.Reaches (left : Nat → Nat → List Entity) (h : Hidden) : Prop :=
  ∀ i, h.before ≤ i → h.entity ∈ left h.cls.id i

theorem reaches_hiddenIn {hs : List Hidden} {h : Hidden} (hmem : h ∈ hs) : h.Reaches (hiddenIn hs) :=
  fun i hi => List.mem_map.2 ⟨h, List.mem_filter.2 ⟨hmem, by simp [hi]⟩, rfl⟩

theorem mem_of_mem_hiddenIn {hs : List Hidden} {id i : Nat} {e : Entity} (he : e ∈ hiddenIn hs id i) :
    e ∈ hs.map (·.entity) := by
  obtain ⟨h, hh, rfl⟩ := List.mem_map.1 he
  exact List.mem_map_of_mem (List.mem_filter.1 hh).1

/-- A statement that is left out declares what its place says, with a number of its own. -/
theorem binds_of_leftOut {env : Env} {n : Nat} {t : Tree.Stmt} {s : Stmt}
    (h : Lexical env n (.stmt t) (.stmt s)) (hk : isMember t = false) (cls : Entity) (before : Nat) :
    ∃ hs : List Hidden, s.binds = hs.map (·.entity) ∧ (∀ h ∈ hs, h.cls = cls ∧ h.before = before) ∧
      hs.map Hidden.place = (extra? cls before n t).toList ∧ Fresh n (n + t.declares) (hs.map (·.entity)) := by
  cases h with
  | varDecl | function => cases hk
  | collection => exact ⟨[⟨cls, before, _⟩], rfl, by simp, rfl, .one (by simp [Tree.Stmt.declares])⟩
  | classDecl hc =>
    subst hc
    refine ⟨[⟨cls, before, _⟩], rfl, by simp, rfl, .one ⟨Nat.le_refl n, ?_⟩⟩
    show n < _
    rw [Tree.Stmt.declares]
    omega
  | _ => exact ⟨[], rfl, by simp, rfl, .nil⟩

/-! ### Environments -/

/-- All that a name can mean is in the list. -/
structure Env.Within (env : Env) (scope : List Entity) : Prop where
  reach : ∀ x ∈ env.reach, x.2 ∈ scope
  cls : ∀ c, env.cls = some c → c ∈ scope

namespace Env.Within

variable {env : Env} {scope : List Entity}

theorem start : Env.start.Within standardLibrary where
  reach := by simp [Env.reach, Env.start, tagged]
  cls _ h := by cases h

theorem find? (h : env.Within scope) {name : String} {e : Entity} (he : env.find? name = some e) : e ∈ scope := by
  rw [Env.find?_eq] at he
  exact h.reach _ (Table.mem_of_lookup he)

theorem region (h : env.Within scope) : env.region.Within scope := ⟨h.reach, h.cls⟩

theorem mono {scope' : List Entity} (h : env.Within scope) (hsub : scope ⊆ scope') : env.Within scope' where
  reach x hx := hsub (h.reach x hx)
  cls c hc := hsub (h.cls c hc)

/-- Declarations of what is in the list already. -/
theorem declared {es : List Entity} (h : env.Within scope) (hes : es ⊆ scope) :
    (env.declareAll es).Within scope := by
  rw [Env.declareAll_eq]
  refine ⟨fun x hx => ?_, h.cls⟩
  simp only [Env.reach, tagged, List.flatMap_cons, List.map_append, List.append_assoc, List.mem_append] at hx
  rcases hx with hx | hx
  · obtain ⟨e, he, rfl⟩ := List.mem_map.1 hx
    exact hes (List.mem_reverse.1 he)
  · exact h.reach x (by simpa [Env.reach, tagged] using hx)

theorem declareAll (h : env.Within scope) (es : List Entity) : (env.declareAll es).Within (es ++ scope) :=
  (h.mono (List.subset_append_right _ _)).declared (List.subset_append_left _ _)

theorem declare (h : env.Within scope) (e : Entity) : (env.declare e).Within (e :: scope) := h.declareAll [e]

theorem classRegion (h : env.Within scope) {c : Entity} (hc : c ∈ scope) : (env.classRegion c).Within scope where
  reach := h.reach
  cls _ he := Option.some.inj he ▸ hc

end Env.Within

section Refers

variable {env : Env} {scope : List Entity}

mutual

/-- An expression uses what its names mean. -/
theorem Refers.uses (henv : env.Within scope) {t : Tree.Expr} {e : Expr} : Refers env t e → e.Uses scope
  | .int | .float | .str | .bool | .emptyArray _ | .emptyOptional _ => List.forall_mem_nil _
  | .self hc => List.forall_mem_singleton.2 (henv.cls _ hc)
  | .var _ he => List.forall_mem_singleton.2 (henv.find? he)
  | .paren h => h.uses henv
  | .unary h | .member h => by exact h.uses henv
  | .binary hl hr => List.forall_mem_append.2 ⟨hl.uses henv, hr.uses henv⟩
  | .call hf hs => List.forall_mem_append.2 ⟨hf.uses henv, hs.uses henv⟩
  | .construct hf _ hs => List.forall_mem_cons.2 ⟨List.forall_mem_singleton.1 (hf.uses henv), hs.uses henv⟩
  | .array hs | .tuple hs => by exact hs.uses henv
  | .dict hs => by exact hs.uses henv

theorem RefersCallee.uses (henv : env.Within scope) {t : Tree.Expr} {e : Expr} : RefersCallee env t e → e.Uses scope
  | .name _ he => List.forall_mem_singleton.2 (henv.find? he)
  | .value _ h => h.uses henv

theorem RefersAll.uses (henv : env.Within scope) {ts : List Tree.Expr} {es : List Expr} :
    RefersAll env ts es → ∀ x ∈ entitiesOfAll es, x ∈ scope
  | .nil => List.forall_mem_nil _
  | .cons h hs => List.forall_mem_append.2 ⟨h.uses henv, hs.uses henv⟩

theorem RefersEntries.uses (henv : env.Within scope) {ts : List Tree.Entry} {es : List (Expr × Expr)} :
    RefersEntries env ts es → ∀ x ∈ entitiesOfEntries es, x ∈ scope
  | .nil => List.forall_mem_nil _
  | .cons hk hv hs =>
    List.forall_mem_append.2 ⟨List.forall_mem_append.2 ⟨hk.uses henv, hv.uses henv⟩, hs.uses henv⟩

end

theorem RefersIfAny.uses (henv : env.Within scope) {t : Option Tree.Expr} {e : Option Expr}
    (h : RefersIfAny env t e) : ∀ x ∈ entitiesOfAll e.toList, x ∈ scope := by
  cases h with
  | none => exact List.forall_mem_nil _
  | some h => simpa [entitiesOfAll, Expr.Uses] using h.uses henv

theorem LexicalParams.length_eq {n : Nat} {ps : List Tree.Param} {qs : List Entity}
    (h : LexicalParams env n ps qs) : qs.length = ps.length := by
  induction h with
  | nil => rfl
  | cons _ _ ih => rw [List.length_cons, List.length_cons, ih]

theorem LexicalParams.fresh {n : Nat} {ps : List Tree.Param} {qs : List Entity} (h : LexicalParams env n ps qs) :
    Fresh n (n + qs.length) qs := by
  induction h with
  | nil => exact .nil
  | cons _ _ ih => exact .cons rfl (by simpa [Nat.add_right_comm, Nat.add_assoc] using ih) (by simp)

end Refers

/-! ### Scopes of a program -/

/-- The declarations that are left out in a task. A class has `k` methods before those of the task. -/
def Task.leftOut (k n : Nat) : Task → List Place
  | .stmt t => Typing.leftOut n t
  | .block ts => leftOutOfBlock n ts
  | .clauses cs => leftOutOfClauses n cs
  | .methods cls ts => leftOutOfClass cls k n ts

def declaredInClauses (cs : List Check.Clause) : List Entity := cs.flatMap fun c => declaredInBlock c.body

/-- The entities that are declared in an answer, at any depth. Those of statements left out of a class are
not counted. -/
def Answer.declared : Answer → List Entity
  | .stmt s => s.declared
  | .block ss => declaredInBlock ss
  | .clauses cs => declaredInClauses cs
  | .methods fs _ => declaredInFunctions fs

theorem declared_clauses (cs : List Check.Clause) (rest : Else) :
    (Check.clauses cs rest).declared = declaredInClauses cs ++ rest.declared := by
  induction cs with
  | nil => rfl
  | cons c cs ih =>
    simp only [Check.clauses, List.foldr_cons] at ih ⊢
    simp only [Else.declared, declaredInClauses, List.flatMap_cons, ih, List.append_assoc]

def sitesOfClauses (left : Nat → Nat → List Entity) (scope : List Entity) (cs : List Check.Clause) : List Site :=
  cs.flatMap fun c => ⟨.test, c.test, scope⟩ :: sitesOfBlock left scope c.body

/-- The parts of an answer use what is there. -/
def Task.Scoped (k : Nat) (left : Nat → Nat → List Entity) (scope : List Entity) : Task → Answer → Prop
  | _, .stmt s => Core.Scoped (s.sites left scope)
  | _, .block ss => Core.Scoped (sitesOfBlock left scope ss)
  | _, .clauses cs => Core.Scoped (sitesOfClauses left scope cs)
  | .methods cls _, .methods fs _ => Core.Scoped (sitesOfMethods left cls scope k fs)
  | _, .methods _ _ => True

/-- What names can mean in a task is there. In a class that is what the methods that are still to come reach. -/
def Task.Sees (k : Nat) (left : Nat → Nat → List Entity) (scope : List Entity) (env : Env) : Task → Prop
  | .methods cls _ => ∀ i, k ≤ i → env.Within (left cls.id i ++ cls :: scope)
  | _ => env.Within scope

theorem sites_clauses (left : Nat → Nat → List Entity) (scope : List Entity) (cs : List Check.Clause) (rest : Else) :
    (Check.clauses cs rest).sites left scope = sitesOfClauses left scope cs ++ rest.sites left scope := by
  induction cs with
  | nil => rfl
  | cons c cs ih =>
    rw [show Check.clauses (c :: cs) rest = .elseIf c.test c.body (Check.clauses cs rest) c.loc from rfl,
      Else.sites, ih]
    simp [sitesOfClauses]

/-- `hs` are what is left out of classes in a task. They and what the answer declares have numbers of their own,
and the answer uses nothing else but what is there. -/
structure Hides (k : Nat) (env : Env) (n : Nat) (task : Task) (ans : Answer) (hs : List Hidden) : Prop where
  places : hs.map Hidden.place = task.leftOut k n
  fresh : Fresh n (n + task.declares) (ans.declared ++ hs.map (·.entity))
  uses : ∀ {left : Nat → Nat → List Entity} {scope : List Entity}, (∀ h ∈ hs, h.Reaches left) →
    task.Sees k left scope env → task.Scoped k left scope ans

namespace Hides

variable {env : Env} {n k : Nat} {p : Pos} {name : String} {body : List Tree.Stmt} {ss : List Stmt}
  {hs hs' : List Hidden}

theorem nothing {task : Task} {ans : Answer} (hn : task.leftOut k n = []) (hd : ans.declared = [])
    (h : ∀ {left : Nat → Nat → List Entity} {scope : List Entity}, task.Sees k left scope env →
      task.Scoped k left scope ans) : Hides k env n task ans [] :=
  ⟨hn.symm, by rw [hd]; exact .nil, fun _ => h⟩

theorem function {ps : Option (List Tree.Param)} {returns : Option Tree.TypeExpr} {f : Entity} {qs : List Entity}
    {r : Ty} (hf : f = functionEntity n false name qs r)
    (hq : LexicalParams (env.declare f).region (n + 1) (ps.getD []) qs)
    (h : Hides 0 ((env.declare f).region.declareAll qs) (n + 1 + qs.length) (.block body) (.block ss) hs) :
    Hides k env n (.stmt (.function p name ps returns body)) (.stmt (.function (.mk f qs ss p) p)) hs where
  places := by
    rw [h.places, hq.length_eq]
    rfl
  fresh := by
    have hall := Fresh.function (congrArg Entity.id hf) hq.fresh h.fresh
    rw [hq.length_eq] at hall
    exact hall
  uses hleft henv := h.uses hleft ((henv.declare _).region.declareAll _)

theorem classDecl {c : Entity} {fields : List Field} {ms : List Function} {out : List Stmt}
    (hc : c = classEntity n name)
    (h : Hides 0 ((env.declare c).classRegion c) (n + 1) (.methods c body) (.methods ms out) hs) :
    Hides k env n (.stmt (.classDecl p name body)) (.stmt (.classDecl c fields ms p)) hs where
  places := by
    rw [h.places, hc]
    rfl
  fresh := h.fresh.front (congrArg Entity.id hc)
  uses hleft henv := h.uses hleft fun _ _ =>
    ((henv.declare _).classRegion List.mem_cons_self).mono (List.subset_append_right _ _)

theorem ifChain {t : Tree.Expr} {elseIfs : List Tree.ElseIf} {e : Expr} {cs : List Check.Clause} (ht : Refers env t e)
    (hb : Hides 0 env.region n (.block body) (.block ss) hs)
    (hc : Hides 0 env (n + Tree.declaresInBlock body) (.clauses elseIfs) (.clauses cs) hs') :
    Hides k env n (.stmt (.ifChain p t body elseIfs none)) (.stmt (.ifElse e ss (Check.clauses cs .none) p))
      (hs ++ hs') where
  places := by simp [hb.places, hc.places, Task.leftOut, Typing.leftOut]
  fresh := by
    have hall := hb.fresh.join hc.fresh
    simpa [Answer.declared, Stmt.declared, Else.declared, declared_clauses, Task.declares,
      Tree.Stmt.declares] using hall
  uses hleft henv := by
    obtain ⟨hlb, hlc⟩ := List.forall_mem_append.1 hleft
    refine scoped_cons.2 ⟨ht.uses henv, scoped_append.2 ⟨hb.uses hlb henv.region, ?_⟩⟩
    rw [sites_clauses]
    exact scoped_append.2 ⟨hc.uses hlc henv, scoped_nil⟩

theorem ifElse {t : Tree.Expr} {elseIfs : List Tree.ElseIf} {elsePart : List Tree.Stmt} {e : Expr}
    {cs : List Check.Clause} {last : List Stmt} {hse : List Hidden} (ht : Refers env t e)
    (hb : Hides 0 env.region n (.block body) (.block ss) hs)
    (hc : Hides 0 env (n + Tree.declaresInBlock body) (.clauses elseIfs) (.clauses cs) hs')
    (he : Hides 0 env.region (n + Tree.declaresInBlock body + Tree.declaresInClauses elseIfs) (.block elsePart)
      (.block last) hse) :
    Hides k env n (.stmt (.ifChain p t body elseIfs (some elsePart)))
      (.stmt (.ifElse e ss (Check.clauses cs (.block last)) p)) (hs ++ (hs' ++ hse)) where
  places := by simp [hb.places, hc.places, he.places, Task.leftOut, Typing.leftOut]
  fresh := by
    have hall := hb.fresh.join (hc.fresh.join he.fresh)
    simpa [Answer.declared, Stmt.declared, Else.declared, declared_clauses, Task.declares, Tree.Stmt.declares,
      Nat.add_assoc] using hall
  uses hleft henv := by
    simp only [List.forall_mem_append] at hleft
    obtain ⟨hlb, hlc, hle⟩ := hleft
    refine scoped_cons.2 ⟨ht.uses henv, scoped_append.2 ⟨hb.uses hlb henv.region, ?_⟩⟩
    rw [sites_clauses]
    exact scoped_append.2 ⟨hc.uses hlc henv, he.uses hle henv.region⟩

theorem rangeLoop {low high : Tree.Expr} {op : Option RangeOp} {lo hi : Expr} {op' : RangeOp} {i : Entity}
    (hl : Refers env low lo) (hh : Refers env high hi) (hid : i.id = n)
    (h : Hides 0 (env.region.declare i) (n + 1) (.block body) (.block ss) hs) :
    Hides k env n (.stmt (.rangeLoop p (some name) low op high body)) (.stmt (.rangeLoop i lo op' hi ss p)) hs where
  places := h.places
  fresh := h.fresh.front hid
  uses hleft henv := scoped_cons.2 ⟨hl.uses henv, scoped_cons.2 ⟨hh.uses henv,
    h.uses hleft (henv.region.declare _)⟩⟩

theorem eachLoop {names : List String} {coll : Tree.Expr} {c : Expr} {is : List Entity} (hc : Refers env coll c)
    (hnames : is.map (·.name) = names) (hids : is.map (·.id) = List.range' n is.length)
    (h : Hides 0 (env.region.declareAll is) (n + is.length) (.block body) (.block ss) hs) :
    Hides k env n (.stmt (.eachLoop p (some names) coll body)) (.stmt (.eachLoop is c ss p)) hs where
  places := by
    rw [h.places, ← hnames]
    simp [Task.leftOut, Typing.leftOut]
  fresh := by
    have hall := (Fresh.of_ids hids).append h.fresh (Nat.le_add_right _ _) (Nat.le_add_right _ _)
    simpa [← hnames, Answer.declared, Stmt.declared, Task.declares, Tree.Stmt.declares, Nat.add_assoc] using hall
  uses hleft henv := scoped_cons.2 ⟨hc.uses henv, h.uses hleft (henv.region.declareAll _)⟩

theorem method {cls f : Entity} {ps : Option (List Tree.Param)} {returns : Option Tree.TypeExpr}
    {rest : List Tree.Stmt} {qs : List Entity} {r : Ty} {ms : List Function} {out : List Stmt}
    (hf : f = functionEntity n true name qs r) (hq : LexicalParams env.region (n + 1) (ps.getD []) qs)
    (hb : Hides 0 (env.region.declareAll qs) (n + 1 + qs.length) (.block body) (.block ss) hs)
    (hm : Hides (k + 1) env (n + (Tree.Stmt.function p name ps returns body).declares) (.methods cls rest)
      (.methods ms out) hs') :
    Hides k env n (.methods cls (.function p name ps returns body :: rest)) (.methods (.mk f qs ss p :: ms) out)
      (hs ++ hs') where
  places := by simp [hb.places, hm.places, hq.length_eq, Task.leftOut, leftOutOfClass]
  fresh := by
    have hall := Fresh.function (congrArg Entity.id hf) hq.fresh hb.fresh
    rw [hq.length_eq] at hall
    rw [List.map_append]
    exact Fresh.join hall hm.fresh
  uses hleft henv := by
    obtain ⟨hlb, hlm⟩ := List.forall_mem_append.1 hleft
    have hin := ((henv k (Nat.le_refl k)).region.mono (List.subset_cons_self f _)).declareAll qs
    exact scoped_append.2 ⟨hb.uses hlb hin, hm.uses hlm fun i hi => henv i (Nat.le_of_succ_le hi)⟩

theorem leftOut {cls : Entity} {t : Tree.Stmt} {rest : List Tree.Stmt} {s : Stmt} {ms : List Function}
    {out : List Stmt} (hk : isMember t = false) (hs : Lexical env n (.stmt t) (.stmt s))
    (hm : Hides k (env.declareAll s.binds) (n + t.declares) (.methods cls rest) (.methods ms out) hs') :
    ∃ hs, Hides k env n (.methods cls (t :: rest)) (.methods ms (s :: out)) (hs ++ hs') := by
  obtain ⟨hst, hbinds, hplace, hplaces, hfresh⟩ := binds_of_leftOut hs hk cls k
  refine ⟨hst, ?_, ?_, fun hleft henv => ?_⟩
  · rw [List.map_append, hplaces, hm.places]
    exact (leftOutOfClass_extra hk cls k n rest).symm
  · rw [List.map_append, Task.declares, declaresInClass_leftOut rest hk]
    have hhead : Fresh n (n + t.declares) ([] ++ hst.map (·.entity)) := hfresh
    exact hhead.join hm.fresh
  · obtain ⟨hlt, hlm⟩ := List.forall_mem_append.1 hleft
    refine hm.uses hlm fun i hi => (henv i hi).declared ?_
    -- the methods behind the statement reach what it declares
    intro x hx
    rw [hbinds] at hx
    obtain ⟨h, hh, rfl⟩ := List.mem_map.1 hx
    obtain ⟨rfl, rfl⟩ := hplace h hh
    exact List.mem_append_left _ (hlt h hh i hi)

end Hides

theorem Lexical.hides {env : Env} {n : Nat} {task : Task} {ans : Answer} (h : Lexical env n task ans) (k : Nat) :
    ∃ hs, Hides k env n task ans hs := by
  induction h generalizing k with
  | varDecl _ hv => exact ⟨[], rfl, .one (by simp [Task.declares, Tree.Stmt.declares]), fun _ henv =>
      scoped_values.2 (hv.uses henv)⟩
  | collection he => exact ⟨[], rfl, .one (by simp [Task.declares, Tree.Stmt.declares]), fun _ henv =>
      scoped_cons.2 ⟨he.uses henv, scoped_nil⟩⟩
  | function _ hf hq _ ih => exact (ih 0).imp fun _ ih => .function hf hq ih
  | classDecl hc _ _ ih => exact (ih 0).imp fun _ ih => .classDecl hc ih
  | ifChain ht _ _ ihb ihc =>
    obtain ⟨hsb, ihb⟩ := ihb 0
    obtain ⟨hsc, ihc⟩ := ihc 0
    exact ⟨hsb ++ hsc, .ifChain ht ihb ihc⟩
  | ifElse ht _ _ _ ihb ihc ihe =>
    obtain ⟨hsb, ihb⟩ := ihb 0
    obtain ⟨hsc, ihc⟩ := ihc 0
    obtain ⟨hse, ihe⟩ := ihe 0
    exact ⟨hsb ++ (hsc ++ hse), .ifElse ht ihb ihc ihe⟩
  | whileLoop ht _ ih =>
    obtain ⟨hs, ih⟩ := ih 0
    exact ⟨hs, ih.places, ih.fresh, fun hleft henv =>
      scoped_cons.2 ⟨ht.uses henv, ih.uses hleft henv.region⟩⟩
  | rangeLoop hl hh hi _ ih => exact (ih 0).imp fun _ ih => .rangeLoop hl hh (congrArg Entity.id hi) ih
  | eachLoop ht hnames hids _ _ ih => exact (ih 0).imp fun _ ih => .eachLoop ht hnames hids ih
  | ret hv => exact ⟨[], .nothing rfl rfl fun henv => scoped_values.2 (hv.uses henv)⟩
  | print hs => exact ⟨[], .nothing rfl rfl fun henv => scoped_values.2 (hs.uses henv)⟩
  | assign ht hv | addAssign ht hv =>
    exact ⟨[], .nothing rfl rfl fun henv => scoped_cons.2 ⟨ht.uses henv, scoped_cons.2 ⟨hv.uses henv, scoped_nil⟩⟩⟩
  | increment ht | decrement ht | call ht =>
    exact ⟨[], .nothing rfl rfl fun henv => scoped_cons.2 ⟨ht.uses henv, scoped_nil⟩⟩
  | brk | nil | noClause | noMethod => exact ⟨[], .nothing rfl rfl fun _ => scoped_nil⟩
  | cons _ _ ihs ihss =>
    obtain ⟨hsh, ihs⟩ := ihs 0
    obtain ⟨hst, ihss⟩ := ihss 0
    refine ⟨hsh ++ hst, by simp [ihs.places, ihss.places, Task.leftOut, leftOutOfBlock], ?_, fun hleft henv => ?_⟩
    · rw [List.map_append]
      exact ihs.fresh.join ihss.fresh
    obtain ⟨hlh, hlt⟩ := List.forall_mem_append.1 hleft
    exact scoped_append.2 ⟨ihs.uses hlh henv, ihss.uses hlt (henv.declareAll _)⟩
  | clause ht _ _ ihb ihc =>
    obtain ⟨hsb, ihb⟩ := ihb 0
    obtain ⟨hsc, ihc⟩ := ihc 0
    refine ⟨hsb ++ hsc, by simp [ihb.places, ihc.places, Task.leftOut, leftOutOfClauses], ?_, fun hleft henv => ?_⟩
    · rw [List.map_append]
      exact ihb.fresh.join ihc.fresh
    obtain ⟨hlb, hlc⟩ := List.forall_mem_append.1 hleft
    exact scoped_append.2 ⟨scoped_cons.2 ⟨ht.uses henv, ihb.uses hlb henv.region⟩, ihc.uses hlc henv⟩
  | field _ ih =>
    obtain ⟨hs, ih⟩ := ih k
    exact ⟨hs, ih.places, ih.fresh, ih.uses⟩
  | method _ hf hq _ _ ihb ihm =>
    obtain ⟨hsb, ihb⟩ := ihb 0
    obtain ⟨hsm, ihm⟩ := ihm (k + 1)
    exact ⟨hsb ++ hsm, .method hf hq ihb ihm⟩
  | leftOut hk hs _ _ ihm =>
    obtain ⟨hsm, ihm⟩ := ihm k
    obtain ⟨hst, h⟩ := Hides.leftOut hk hs ihm
    exact ⟨hst ++ hsm, h⟩

/-- What is known at the start has numbers of its own. -/
theorem fresh_standardLibrary : Fresh 0 State.initial.next standardLibrary :=
  ⟨by decide, by simp [standardLibrary]⟩

theorem hides_of_analyze {tree : Tree.Program} {program : Program} {st : State}
    (h : analyze tree = (.ok program, st)) :
    ∃ hs, Hides 0 .start standardLibrary.length (.block tree) (.block program.statements) hs :=
  ((accepts_of_analyze h).lexical (fun _ _ => rfl) trivial .start).hides 0

end Snack.Typing
