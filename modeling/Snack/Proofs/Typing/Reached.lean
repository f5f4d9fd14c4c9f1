import Snack.Proofs.Typing.Course
import Snack.Proofs.Typing.Sound

/-! The statements that an analysis reaches. Before each of them everything in sight is sound, also before one
that is turned down later and in a class whose other members leave it out. -/

namespace Snack.Typing

open Snack.Core

namespace Course

variable {α β : Type} {st : State}

/-- Everything is sound where a statement or a member comes next. -/
def SoundAhead (x : Course α) (st : State) : Prop := ∀ m ∈ x.passed st, m.event = .step ∨ Sound m.state

theorem Unmarked.soundAhead {x : Course α} (h : Unmarked x) (st : State) : SoundAhead x st :=
  fun m hm => .inl (h st m hm)

theorem SoundAhead.bind {x : Course α} {f : α → Course β} (hx : SoundAhead x st)
    (hf : ∀ a st₁, x.run st = .ok a st₁ → SoundAhead (f a) st₁) : SoundAhead (x >>= f) st := by
  intro m hm
  rcases mem_passed_bind hm with hm | ⟨a, st₁, hr, hm⟩
  · exact hx m hm
  · exact hf a st₁ hr m hm

/-- A step, and what follows it. -/
theorem SoundAhead.next {y : Check α} {f : α → Course β} (hf : ∀ a st₁, y st = .ok a st₁ → SoundAhead (f a) st₁) :
    SoundAhead (step y >>= f) st :=
  ((Unmarked.step y).soundAhead st).bind hf

theorem SoundAhead.last {x : Course α} {f : α → Course β} (hx : SoundAhead x st) (hf : ∀ a, Unmarked (f a)) :
    SoundAhead (x >>= f) st :=
  hx.bind fun a st₁ _ => (hf a).soundAhead st₁

theorem SoundAhead.mark {e : Event} {f : Unit → Course β} (hst : Sound st) (hf : SoundAhead (f ()) st) :
    SoundAhead (mark e >>= f) st := by
  refine SoundAhead.bind (fun m hm => .inr ?_) fun _ st₁ hr => ?_
  · rw [List.mem_singleton.1 hm]
    exact hst
  · obtain ⟨-, rfl⟩ := pure_ok.1 hr
    exact hf

theorem unmarked_leave (a : α) : Unmarked (step Check.leave >>= fun _ => pure a) :=
  (Unmarked.step _).bind fun _ => .pure a

theorem SoundAhead.within {l : Option Bool} {f : Option Callable} {c : Option Entity} {x : Course α}
    (hx : SoundAhead x (st.enter l f c)) : SoundAhead (within l f c x) st := by
  refine SoundAhead.next fun _ st₁ henter => SoundAhead.last ?_ unmarked_leave
  obtain rfl := modify_ok.1 henter
  exact hx

/-! ### Bodies -/

section Bodies

variable {body : Course (List Stmt)} {p : Pos}

theorem soundAhead_inBlock (hst : Sound st) (hb : ∀ st, Sound st → SoundAhead body st) :
    SoundAhead (inBlock body) st :=
  .within (hb _ (hst.enter (by simp)))

theorem soundAhead_inLoop (hst : Sound st) (hb : ∀ st, Sound st → SoundAhead body st) :
    SoundAhead (inLoop body) st :=
  .within (hb _ (hst.enter (by simp)))

theorem soundAhead_function {name : String} {ps : List Tree.Param} {returns : Option Tree.TypeExpr}
    (hst : Sound st) (hb : ∀ st, Sound st → SoundAhead body st) :
    SoundAhead (function none p name ps returns body) st := by
  refine .next fun r st₁ hresult => ?_
  obtain ⟨hr, rfl⟩ := Check.type?_ok.1 hresult
  refine .next fun id st₁ hfresh => ?_
  obtain ⟨rfl, rfl⟩ := Check.fresh_ok.1 hfresh
  refine .next fun _ st₁ hdeclare => .within ?_
  obtain ⟨hn, rfl⟩ := Check.declare_ok.1 hdeclare
  refine ((unmarked_params ps).soundAhead _).bind fun qs st₁ hq => ?_
  rw [run_params] at hq
  refine .next fun _ st₂ hsettle => ?_
  obtain rfl := modify_ok.1 hsettle
  obtain ⟨-, -, -, hin⟩ := hst.inFunction hr hq
  obtain ⟨rfl, -⟩ := Check.params_ok hq
  -- the body sees the function with its parameters, as if it had been declared so from the start
  have hn : st.isLocal name = false := hn
  have hset := State.settle_announced (d := functionEntity st.next false name [] (r.getD .void))
    (f := functionEntity st.next false name qs (r.getD .void)) (l := some false)
    (c := some ⟨name, r.getD .void⟩) (k := none) qs hn rfl
  refine (hb _ ?_).last fun _ => .pure _
  rw [State.enterFunction, ← hset] at hin
  exact hin

theorem soundAhead_method {cls : Entity} {name : String} {ps : List Tree.Param} {returns : Option Tree.TypeExpr}
    (hst : Sound st) (hid : cls.id < st.next) (hb : ∀ st, Sound st → SoundAhead body st) :
    SoundAhead (function (some cls) p name ps returns body) st := by
  refine .next fun r st₁ hresult => ?_
  obtain ⟨hr, rfl⟩ := Check.type?_ok.1 hresult
  refine .next fun id st₁ hfresh => ?_
  obtain ⟨rfl, rfl⟩ := Check.fresh_ok.1 hfresh
  refine .next fun _ st₁ hask => .within ?_
  have hask : Check.announce (some cls) (functionEntity st.next true name [] (r.getD .void)) p st.skip =
      .ok _ st₁ := hask
  simp only [Check.announce, Check.ask_ok] at hask
  obtain ⟨-, rfl⟩ := hask
  refine ((unmarked_params ps).soundAhead _).bind fun qs st₁ hq => ?_
  rw [run_params] at hq
  refine .next fun _ st₂ hsettle => ?_
  obtain rfl := modify_ok.1 hsettle
  obtain ⟨-, -, -, hin⟩ := hst.inMethod hid hr hq
  obtain ⟨rfl, -⟩ := Check.params_ok hq
  exact (hb _ hin).last fun _ => .pure _

theorem soundAhead_classDecl {name : String} {ts : List Tree.Stmt} {methods : Entity → Course (List Function)}
    (hst : Sound st)
    (hms : ∀ cls st, Sound st → cls.id < st.next → SoundAhead (methods cls) st) :
    SoundAhead (classDecl p name ts methods) st := by
  refine .next fun id st₁ hfresh => ?_
  obtain ⟨rfl, rfl⟩ := Check.fresh_ok.1 hfresh
  refine .next fun _ st₁ hdeclare => SoundAhead.last (.within ?_) fun _ => (Unmarked.step _).bind fun _ => .pure _
  obtain ⟨-, rfl⟩ := Check.declare_ok.1 hdeclare
  refine ((unmarked_fields _ ts).soundAhead _).bind fun _ st₁ hf => ?_
  rw [run_fields] at hf
  refine hms _ st₁ (hst.inClass hf) ?_
  obtain ⟨fs, rfl, -⟩ := Check.fields_ok hf
  rw [State.addFields_next]
  exact Nat.lt_succ_self _

theorem soundAhead_rangeLoop {name : Option String} {low high : Tree.Expr} {op : Option RangeOp} (hst : Sound st)
    (hb : ∀ st, Sound st → SoundAhead body st) : SoundAhead (rangeLoop p name low op high body) st := by
  refine .next fun lo st₁ hlow => .next fun hi st₂ hhigh => .next fun n st₃ hname => ?_
  obtain ⟨hlo, -, rfl⟩ := Check.bound_ok.1 hlow
  obtain ⟨-, -, rfl⟩ := Check.bound_ok.1 hhigh
  obtain ⟨-, rfl⟩ := Check.lift_ok.1 hname
  refine .next fun id st₁ hfresh => SoundAhead.last (.within ?_) fun _ => (Unmarked.step _).bind fun _ => .pure _
  obtain ⟨rfl, rfl⟩ := Check.fresh_ok.1 hfresh
  refine .next fun _ st₁ hdeclare => hb _ ?_
  obtain ⟨-, rfl⟩ := Check.declare_ok.1 hdeclare
  exact (hst.enter (by simp)).add (.var (hst.known_of_infer hlo)) rfl

theorem soundAhead_eachLoop {names : Option (List String)} {coll : Tree.Expr} (hst : Sound st)
    (hb : ∀ st, Sound st → SoundAhead body st) : SoundAhead (eachLoop p names coll body) st := by
  refine .next fun c st₁ hcoll => .next fun ts st₂ htypes => ?_
  refine .next fun ns st₃ hnames => .next fun _ st₄ hcount => ?_
  obtain ⟨hc, rfl⟩ := Check.expr_ok.1 hcoll
  obtain ⟨ht, rfl⟩ := Check.lift_ok.1 htypes
  obtain ⟨-, rfl⟩ := Check.lift_ok.1 hnames
  obtain ⟨hlen, rfl⟩ := Check.lift_ok.1 hcount
  refine .within ?_
  refine ((unmarked_iterators p _).soundAhead _).bind fun is st₁ hi => ?_
  rw [run_iterators] at hi
  obtain ⟨-, -, hin⟩ := hst.inEachLoop hc ht (beq_iff_eq.1 (Check.require_ok.1 hlen)) hi
  obtain ⟨rfl, -⟩ := Check.iterators_ok hi
  exact (hb _ hin).last fun _ => .pure _

end Bodies

/-! ### After a part -/

theorem sound_after_block {ts : List Tree.Stmt} {b : List Stmt} {st₁ : State} (hst : Sound st)
    (h : (inBlock (block ts)).run st = .ok b st₁) : Sound st₁ := by
  have h : Check.inBlock (block ts).run st = .ok b st₁ := h
  rw [run_block] at h
  obtain ⟨st₂, ha, rfl⟩ := inScope (accepts_block ts) h
  exact (ha.sound (hst.enter (by simp)) trivial).1.backTo hst ha.keeps.next

theorem sound_after_clauses {cs : List Tree.ElseIf} {ds : List Check.Clause} {st₁ : State} (hst : Sound st)
    (h : (elseIfClauses cs).run st = .ok ds st₁) : Sound st₁ :=
  ((accepts_clauses cs (run_clauses cs ▸ h)).sound hst trivial).1

/-- A method is analysed as if it were the only one. -/
theorem sound_after_method {cls : Entity} {p : Pos} {name : String} {ps : Option (List Tree.Param)}
    {returns : Option Tree.TypeExpr} {body : List Tree.Stmt} {f : Function} {st₁ : State} (hst : Sound st)
    (hid : cls.id < st.next)
    (h : Check.function (some cls) p name (ps.getD []) returns (Check.block body) st = .ok f st₁) :
    Sound st₁ ∧ st.next ≤ st₁.next := by
  have hone : Check.methods cls [.function p name ps returns body] st = .ok [f] st₁ := by
    rw [Check.methods, bind_of_ok h]
    rfl
  obtain ⟨left, ha⟩ := accepts_methods cls _ hone
  exact ⟨(ha.sound hst hid).1, ha.keeps.next⟩

/-! ### Statements -/

mutual

theorem soundAhead_stmt (t : Tree.Stmt) (st : State) (hst : Sound st) : SoundAhead (stmt t) st := by
  cases t with
  | varDecl p t name init =>
    exact .next fun _ _ _ => .next fun _ _ _ => .next fun _ _ _ => .next fun _ _ _ => .next fun _ _ _ =>
      .next fun _ _ _ => (Unmarked.pure _).soundAhead _
  | collection p name value =>
    exact .next fun _ _ _ => .next fun _ _ _ => .next fun _ _ _ => .next fun _ _ _ =>
      (Unmarked.pure _).soundAhead _
  | function p name ps returns body =>
    rw [stmt]
    exact (soundAhead_function hst (soundAhead_block body)).last fun _ => .pure _
  | classDecl p name body =>
    rw [stmt]
    exact soundAhead_classDecl hst fun cls => soundAhead_methods cls body
  | ifChain p cond body elseIfs elsePart =>
    cases elsePart with
    | none =>
      rw [stmt]
      refine .next fun t st₁ ht => ?_
      obtain ⟨-, -, rfl⟩ := Check.test_ok.1 ht
      refine (soundAhead_inBlock hst (soundAhead_block body)).bind fun b st₁ hb => ?_
      have hs₁ : Sound st₁ := sound_after_block hst hb
      exact (soundAhead_clauses elseIfs st₁ hs₁).last fun _ => .pure _
    | some elsePart =>
      rw [stmt]
      refine .next fun t st₁ ht => ?_
      obtain ⟨-, -, rfl⟩ := Check.test_ok.1 ht
      refine (soundAhead_inBlock hst (soundAhead_block body)).bind fun b st₁ hb => ?_
      have hs₁ : Sound st₁ := sound_after_block hst hb
      refine (soundAhead_clauses elseIfs st₁ hs₁).bind fun cs st₂ hcs => ?_
      have hs₂ : Sound st₂ := sound_after_clauses hs₁ hcs
      exact (soundAhead_inBlock hs₂ (soundAhead_block elsePart)).last fun _ => .pure _
  | whileLoop p cond body =>
    rw [stmt]
    refine .next fun t st₁ ht => ?_
    obtain ⟨-, -, rfl⟩ := Check.test_ok.1 ht
    exact (soundAhead_inLoop hst (soundAhead_block body)).last fun _ => .pure _
  | rangeLoop p name low op high body =>
    rw [stmt]
    exact soundAhead_rangeLoop hst (soundAhead_block body)
  | eachLoop p names coll body =>
    rw [stmt]
    exact soundAhead_eachLoop hst (soundAhead_block body)
  | _ =>
    rw [stmt_single rfl]
    exact (Unmarked.step _).soundAhead st

theorem soundAhead_block (ts : List Tree.Stmt) (st : State) (hst : Sound st) : SoundAhead (block ts) st := by
  cases ts with
  | nil => exact (Unmarked.pure _).soundAhead st
  | cons t ts =>
    rw [block]
    refine .mark hst ((soundAhead_stmt t st hst).bind fun s st₁ hs => ?_)
    rw [run_stmt] at hs
    have hs₁ : Sound st₁ := ((accepts_stmt t hs).sound hst trivial).1
    exact (soundAhead_block ts st₁ hs₁).last fun _ => .pure _

theorem soundAhead_clauses (cs : List Tree.ElseIf) (st : State) (hst : Sound st) :
    SoundAhead (elseIfClauses cs) st := by
  cases cs with
  | nil => exact (Unmarked.pure _).soundAhead st
  | cons c cs =>
    obtain ⟨p, cond, body⟩ := c
    rw [elseIfClauses]
    refine .next fun t st₁ ht => ?_
    obtain ⟨-, -, rfl⟩ := Check.test_ok.1 ht
    refine (soundAhead_inBlock hst (soundAhead_block body)).bind fun b st₁ hb => ?_
    have hs₁ : Sound st₁ := sound_after_block hst hb
    exact (soundAhead_clauses cs st₁ hs₁).last fun _ => .pure _

theorem soundAhead_methods (cls : Entity) (ts : List Tree.Stmt) (st : State) (hst : Sound st)
    (hid : cls.id < st.next) : SoundAhead (methods cls ts) st := by
  cases ts with
  | nil => exact (Unmarked.pure _).soundAhead st
  | cons t ts =>
    cases hk : isMember t with
    | false =>
      rw [methods_leftOut hk]
      -- a statement that is left out still changes what comes after it
      refine .mark hst (.mark hst ((soundAhead_stmt t st hst).bind fun s st₁ hs => ?_))
      rw [run_stmt] at hs
      have ha := accepts_stmt t hs
      refine .next fun _ st₂ hdrop => ?_
      obtain rfl := modify_ok.1 hdrop
      exact soundAhead_methods cls ts _ ((ha.sound hst trivial).1.leaveOut _ _)
        (Nat.lt_of_lt_of_le hid ha.keeps.next)
    | true =>
      cases t with
      | varDecl p t name init => exact soundAhead_methods cls ts st hst hid
      | function p name ps returns body =>
        rw [methods]
        refine .mark hst ((soundAhead_method hst hid (soundAhead_block body)).bind fun f st₁ hf => ?_)
        rw [run_function, run_block] at hf
        obtain ⟨hs₁, hle⟩ := sound_after_method hst hid hf
        exact (soundAhead_methods cls ts st₁ hs₁ (Nat.lt_of_lt_of_le hid hle)).last fun _ => .pure _
      | _ => cases hk

end

end Course

/-- Everything is sound where a statement comes next. -/
theorem sound_of_reached {tree : Tree.Program} {m : Moment} {t : Tree.Stmt} (hm : m ∈ history tree)
    (he : m.event = .stmt t) : Sound m.state := by
  have hstep : m.event ≠ .step := by simp [he]
  rcases List.mem_append.1 hm with hm | hm
  · exact (Course.soundAhead_block tree .initial .initial m hm).resolve_left hstep
  · rw [List.mem_singleton.1 hm] at hstep
    exact absurd rfl hstep

end Snack.Typing
