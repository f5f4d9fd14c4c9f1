import Snack.Proofs.Core.Jumps
import Snack.Proofs.Typing.Sound

/-! All jumps of an accepted program have something to jump out of: the scope that a statement is analysed in
knows the loop and the function around it. -/

namespace Snack.Typing

open Snack.Core

/-- Where the next statement stands. -/
def State.place (st : State) : Place := ⟨st.scope.inLoop, st.result⟩

section Places

variable (st : State)

theorem State.place_enterLoop : st.enterLoop.place = st.place.loop := by
  cases h : st.scope.function <;> simp [place, result, enterLoop, enter, Place.loop, h]

theorem State.place_enterBlock : st.enterBlock.place = st.place := by
  cases h : st.scope.function <;> simp [place, result, enterBlock, enter, h]

theorem State.place_add (e : Entity) : (st.add e).place = st.place := rfl

theorem State.place_addAll (es : List Entity) : (st.addAll es).place = st.place := by
  rw [place, State.result_addAll, State.addAll_scope]
  rfl

theorem State.place_addMethod (id : Nat) (f : Entity) : (st.addMethod id f).place = st.place := rfl

end Places

theorem Accepts.place_eq {task : Task} {st st' : State} {ans : Answer} (h : Accepts task st ans st') :
    st'.place = st.place := by
  rw [State.place, h.result_eq, h.grows.scope]
  rfl

def Answer.Jumps (pl : Place) : Answer → Prop
  | .stmt s => s.Jumps pl
  | .block ss => jumpsInBlock pl ss
  | .clauses cs => ∀ c ∈ cs, jumpsInBlock pl c.body
  | .methods fs _ => jumpsInFunctions fs

theorem jumps_clauses {pl : Place} {cs : List Check.Clause} {rest : Else}
    (hc : (Answer.clauses cs).Jumps pl) (hr : rest.Jumps pl) : (Check.clauses cs rest).Jumps pl := by
  induction cs with
  | nil => exact hr
  | cons c cs ih =>
    obtain ⟨hb, hcs⟩ := List.forall_mem_cons.1 hc
    exact ⟨hb, ih hcs⟩

theorem Accepts.jumps {task : Task} {st st' : State} {ans : Answer} (h : Accepts task st ans st') :
    ans.Jumps st.place := by
  induction h with
  | brk hl => exact hl
  | @retNone p st f hf hv =>
    refine ⟨f.result, by simp [State.place, State.result, hf], ?_⟩
    simp [Ty.eq_of_equiv hv]
  | @ret p value st f e hf hv =>
    refine ⟨f.result, by simp [State.place, State.result, hf], ?_⟩
    have hne : f.result ≠ .void := by
      intro heq
      rw [heq] at hv
      cases hv
    simp [hne]
  | function _ _ _ _ ih =>
    rw [State.place_addAll] at ih
    exact ih
  | classDecl _ _ _ ih => exact ih
  | ifChain _ _ _ _ ihb ihc =>
    rw [State.place_enterBlock] at ihb
    exact ⟨ihb, jumps_clauses ihc trivial⟩
  | ifElse _ _ _ hc _ ihb ihc ihe =>
    rw [State.place_enterBlock] at ihb ihe
    rw [hc.place_eq] at ihe
    exact ⟨ihb, jumps_clauses ihc ihe⟩
  | whileLoop _ _ _ ih =>
    rw [State.place_enterLoop] at ih
    exact ih
  | rangeLoop _ _ _ _ _ _ ih =>
    rw [State.place_add, State.place_enterLoop] at ih
    exact ih
  | eachLoop _ _ _ _ _ ih =>
    rw [State.place_addAll, State.place_enterLoop] at ih
    exact ih
  | nil => trivial
  | cons hs _ ihs ihss =>
    rw [hs.place_eq] at ihss
    exact ⟨ihs, ihss⟩
  | noClause => simp [Answer.Jumps]
  | clause _ _ _ _ ihb ihc =>
    rw [State.place_enterBlock] at ihb
    exact List.forall_mem_cons.2 ⟨ihb, ihc⟩
  | noMethod => trivial
  | field _ ih => exact ih
  | method _ _ _ _ _ ihb ihm =>
    -- a loop around the class is none of the method's
    rw [State.place_addMethod, State.place_addAll] at ihb
    exact ⟨ihb, ihm⟩
  | leftOut _ _ _ _ ihm => exact ihm
  | varDecl | collection | print | assign | addAssign | increment | decrement | call => trivial

theorem jumps_of_analyze {tree : Tree.Program} {p : Program} {st : State} (h : analyze tree = (.ok p, st)) :
    p.Jumps :=
  (accepts_of_analyze h).jumps

end Snack.Typing
