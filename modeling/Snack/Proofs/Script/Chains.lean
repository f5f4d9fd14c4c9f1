import Snack.Proofs.Script.Members
import Snack.Proofs.Typing.Rules
import Snack.Typing.Stmt

/-! Chains of if statements, from the statement itself along its alternates to the last one, and the lines that
they are written as: above every block one line at the depth of the statement, and a brace below the last block. -/

namespace Snack.Core

open Typing.Check (Clause)

/-! ### Arms -/

/-- The if statements that the alternates lead through. -/
def Else.arms : Else → List Clause
  | .elseIf t b e p => ⟨t, b, p⟩ :: e.arms
  | .none | .block _ => []

/-- The alternate after which there is no other. -/
def Else.last : Else → Option (List Stmt)
  | .none => Option.none
  | .block b => some b
  | .elseIf _ _ e _ => e.last

/-- An if statement and those that its alternates lead through. -/
def Stmt.arms : Stmt → List Clause
  | .ifElse t b e p => ⟨t, b, p⟩ :: e.arms
  | _ => []

def Stmt.last : Stmt → Option (List Stmt)
  | .ifElse _ _ e _ => e.last
  | _ => none

end Snack.Core

namespace Snack.Script

open Snack.Core Snack.Typing
open Check (Clause)

/-! ### Expressions that print nothing -/

/-- The writer adds no line. -/
abbrev Silent {α : Type} (x : Emit α) : Prop := Adds x (· = [])

section Silence

variable {α β : Type} {m : Mangling} {d : Nat} {x : Emit α} {f : α → Emit β}

theorem Adds.silent (hx : Silent x) (hf : ∀ v, Silent (f v)) : Silent (x >>= f) :=
  hx.bind hf fun ls ks hls hks => by rw [hls, hks, List.append_nil]

theorem silent_exprs {es : List Expr} (h : ∀ e ∈ es, Silent (expr m d e)) : Silent (exprs m d es) := by
  induction es with
  | nil => exact .pure rfl
  | cons e es ih =>
    obtain ⟨he, hes⟩ := List.forall_mem_cons.1 h
    exact he.silent fun _ => (ih hes).silent fun _ => .pure rfl

theorem silent_entries {es : List (Expr × Expr)} (hk : ∀ e ∈ es, Silent (expr m d e.1))
    (hv : ∀ e ∈ es, Silent (expr m d e.2)) : Silent (entries m d es) := by
  induction es with
  | nil => exact .pure rfl
  | cons e es ih =>
    obtain ⟨hke, hkes⟩ := List.forall_mem_cons.1 hk
    obtain ⟨hve, hves⟩ := List.forall_mem_cons.1 hv
    exact hke.silent fun _ => hve.silent fun _ => (ih hkes hves).silent fun _ => .pure rfl

/-- No rule allows to print in the middle of an expression. -/
theorem silent_expr {K : Entity → Prop} {W : Ty → Prop} {M : Nat → Members} {e : Expr} (h : Typed K W M e) :
    Silent (expr m d e) := by
  induction h with
  | int | float | str | bool | emptyArray | emptyOptional => exact .pure rfl
  | ref => exact adds_entity _ rfl
  | binary _ _ _ ihl ihr => exact ihl.silent fun _ => ihr.silent fun _ => .pure rfl
  | @unary op e _ h ih =>
    -- only this operator would add a line
    have hop : op ≠ .print := by
      rintro rfl
      cases h
    cases op with
    | print => exact absurd rfl hop
    | _ => exact ih.silent fun _ => .pure rfl
  | call _ _ _ _ ihf iha =>
    refine (silent_exprs iha).silent fun as => ?_
    split
    · split
      · exact .pure rfl
      · exact .throw _
    · exact ihf.silent fun _ => .pure rfl
  | construct _ _ _ _ iha =>
    exact (silent_exprs iha).silent fun _ => Adds.silent (adds_nameOf _ rfl) fun _ => .pure rfl
  | items _ _ ih | member _ _ _ _ ih | optionalMember _ _ _ ih =>
    refine ih.silent fun _ => ?_
    split <;> exact .pure rfl
  | array _ _ _ ih => exact (silent_exprs ih).silent fun _ => .pure rfl
  | tuple _ ih => exact (silent_exprs ih).silent fun _ => .pure rfl
  | dict _ _ _ _ ihk ihv => exact (silent_entries ihk ihv).silent fun _ => .pure rfl

end Silence

/-! ### Lines of a chain -/

def ifHead (text : String) : String := "if (" ++ text ++ ") \x7b"

def elseIfHead (text : String) : String := "\x7d else if (" ++ text ++ ") \x7b"

def elseHead : String := "\x7d else \x7b"

/-- The lines above the blocks of the arms, by the texts of their tests. -/
def armHeads : List String → List String
  | [] => []
  | text :: texts => ifHead text :: texts.map elseIfHead

/-- The last alternate as a block, unless it is empty. -/
def lastBlock (last : Option (List Stmt)) : List (List Stmt) := last.toList.filter fun b => !b.isEmpty

/-- The line above it. -/
def lastHead (last : Option (List Stmt)) : List String := (lastBlock last).map fun _ => elseHead

section Chains

variable (m : Mangling) (d : Nat)

/-- An arm of a chain: how the line above its block is written, and the block. -/
def armPart (head : String → String) (c : Clause) : Emit String × List Stmt := (head <$> expr m d c.test, c.body)

/-- The parts of a chain behind the first arm. -/
def laterParts (arms : List Clause) (last : Option (List Stmt)) : List (Emit String × List Stmt) :=
  arms.map (armPart m d elseIfHead) ++ (lastBlock last).map fun b => (pure elseHead, b)

def chainParts : List Clause → Option (List Stmt) → List (Emit String × List Stmt)
  | [], _ => []
  | c :: arms, last => armPart m d ifHead c :: laterParts m d arms last

/-- `Chain m d parts σ heads ls σ'`: the parts are written one after the other, each in the state that those before
it left. The line above a block has the text that is written there, the block is written deeper, and a brace comes
after the last one. -/
inductive Chain : List (Emit String × List Stmt) → Script.State → List String → List String → Script.State →
    Prop where
  | close {σ σ'} (h : line d "\x7d" σ = .ok () σ') : Chain [] σ [] [indent d "\x7d"] σ'
  | block {head b parts σ σ₁ σ₂ σ₃ σ' text heads ls rest} (ht : head σ = .ok text σ₁)
      (hl : line d text σ₁ = .ok () σ₂) (hb : block m (d + 1) b σ₂ = .ok () σ₃)
      (hls : σ₃.lines.toList = σ₂.lines.toList ++ ls) (h : Chain parts σ₃ heads rest σ') :
      Chain ((head, b) :: parts) σ (text :: heads) (indent d text :: (ls ++ rest)) σ'

/-- All that is written is a chain of these parts, and the texts of its lines have the property. -/
def WritesChain (parts : List (Emit String × List Stmt)) (Q : List String → Prop) (x : Emit Unit) : Prop :=
  ∀ σ u σ', x σ = .ok u σ' → ∃ new heads, σ'.lines.toList = σ.lines.toList ++ new ∧ Q heads ∧
    Chain m d parts σ heads new σ'

variable {m d}

/-- Between the lines of a chain everything is deeper. -/
theorem Chain.filter_indentation {parts : List (Emit String × List Stmt)} {σ σ' : Script.State}
    {heads ls : List String} (h : Chain m d parts σ heads ls σ')
    (hheads : ∀ t ∈ heads, ∃ x, t.toList.head? = some x ∧ x ≠ ' ') :
    ls.filter (fun l => indentation l == 2 * d) = (heads ++ ["\x7d"]).map (indent d) := by
  induction h with
  | close =>
    have hindent : indentation (indent d "\x7d") = 2 * d := (takeWhile_indent (x := '\x7d') rfl (by decide)).1
    simp [hindent]
  | @block head b parts σ σ₁ σ₂ σ₃ σ' text heads ls rest _ _ hb hls _ ih =>
    obtain ⟨⟨x, hx, hblank⟩, hheads⟩ := List.forall_mem_cons.1 hheads
    obtain ⟨hindent, -⟩ := takeWhile_indent (d := d) hx hblank
    obtain ⟨new, hnew, hdeep⟩ := deep_block (d + 1) b σ₂ () σ₃ hb
    obtain rfl : ls = new := List.append_cancel_left (hls.symm.trans hnew)
    have hnone : ls.filter (fun l => indentation l == 2 * d) = [] := by
      refine List.filter_eq_nil_iff.2 fun l hl => ?_
      have hle := hdeep l hl
      have hne : indentation l ≠ 2 * d := by omega
      simpa using hne
    rw [List.filter_cons_of_pos (by simp [hindent]), List.filter_append, hnone, List.nil_append, ih hheads]
    rfl

theorem Chain.length_eq {parts : List (Emit String × List Stmt)} {σ σ' : Script.State} {heads ls : List String}
    (h : Chain m d parts σ heads ls σ') : heads.length = parts.length := by
  induction h with
  | close => rfl
  | block _ _ _ _ _ ih => exact congrArg (· + 1) ih

/-- Every arm has a text of its own. -/
theorem Chain.length_texts {c : Clause} {arms : List Clause} {last : Option (List Stmt)} {σ σ' : Script.State}
    {texts ls : List String}
    (h : Chain m d (chainParts m d (c :: arms) last) σ (armHeads texts ++ lastHead last) ls σ') :
    texts.length = (c :: arms).length := by
  have hlength : (armHeads texts).length = texts.length := by
    cases texts <;> simp [armHeads]
  have hall := h.length_eq
  simp only [List.length_append, hlength, lastHead, chainParts, laterParts, List.length_cons, List.length_map] at hall
  rw [List.length_cons]
  omega

theorem head_of_armHeads {texts : List String} {last : Option (List Stmt)} :
    ∀ t ∈ armHeads texts ++ lastHead last, ∃ x, t.toList.head? = some x ∧ x ≠ ' ' := by
  have hlast : ∀ t ∈ lastHead last, ∃ x, t.toList.head? = some x ∧ x ≠ ' ' :=
    List.forall_mem_map.2 fun _ _ => ⟨'\x7d', rfl, by decide⟩
  refine List.forall_mem_append.2 ⟨?_, hlast⟩
  cases texts with
  | nil => exact List.forall_mem_nil _
  | cons text texts =>
    refine List.forall_mem_cons.2 ⟨⟨'i', by simp [ifHead, String.toList_append], by decide⟩, ?_⟩
    exact List.forall_mem_map.2 fun _ _ => ⟨'\x7d', by simp [elseIfHead, String.toList_append], by decide⟩

/-- A line, a block and whatever follows it. -/
theorem writesChain_block {head : Emit String} {b : List Stmt} {rest : Emit Unit}
    {parts : List (Emit String × List Stmt)} {Q : List String → Prop} (hs : Silent head)
    (hrest : WritesChain m d parts Q rest) :
    WritesChain m d ((head, b) :: parts) (fun heads => ∃ σ text σ₁ more, head σ = .ok text σ₁ ∧
      heads = text :: more ∧ Q more) (do
      line d (← head)
      block m (d + 1) b
      rest) := by
  intro σ u σ' h
  obtain ⟨text, σ₁, ht, h⟩ := bind_ok.1 h
  obtain ⟨_, σ₂, hline, h⟩ := bind_ok.1 h
  obtain ⟨_, σ₃, hb, h⟩ := bind_ok.1 h
  obtain ⟨_, hlines₁, rfl⟩ := hs σ text σ₁ ht
  obtain ⟨_, hlines₂, rfl⟩ := adds_line (P := (· = [indent d text])) rfl σ₁ _ σ₂ hline
  obtain ⟨ls, hlines₃, -⟩ := deep_block (d + 1) b σ₂ () σ₃ hb
  obtain ⟨more, heads, hlines, hQ, hchain⟩ := hrest σ₃ u σ' h
  refine ⟨_, _, ?_, ⟨σ, text, σ₁, heads, ht, rfl, hQ⟩, .block ht hline hb hlines₃ hchain⟩
  rw [hlines, hlines₃, hlines₂, hlines₁]
  simp

theorem WritesChain.imp {parts : List (Emit String × List Stmt)} {Q R : List String → Prop} {x : Emit Unit}
    (h : WritesChain m d parts Q x) (hQR : ∀ heads, Q heads → R heads) : WritesChain m d parts R x := by
  intro σ u σ' hx
  obtain ⟨new, heads, hlines, hQ, hchain⟩ := h σ u σ' hx
  exact ⟨new, heads, hlines, hQR heads hQ, hchain⟩

theorem writesChain_close : WritesChain m d [] (· = []) (line d "\x7d") := by
  intro σ u σ' h
  obtain ⟨_, hlines, rfl⟩ := adds_line (P := (· = [indent d "\x7d"])) rfl σ u σ' h
  exact ⟨_, [], hlines, rfl, .close h⟩

/-- One arm: a line with its test, its block and whatever follows it. -/
theorem writesChain_arm (head : String → String) {c : Clause} {rest : Emit Unit}
    {parts : List (Emit String × List Stmt)} {Q : List String → Prop} (hs : Silent (expr m d c.test))
    (hrest : WritesChain m d parts Q rest) :
    WritesChain m d (armPart m d head c :: parts) (fun heads => ∃ text more, heads = head text :: more ∧ Q more)
      (do
        line d (head (← expr m d c.test))
        block m (d + 1) c.body
        rest) := by
  have hhead : Silent (head <$> expr m d c.test) := by
    rw [map_eq_pure_bind]
    exact hs.silent fun _ => .pure rfl
  have hblock := writesChain_block (b := c.body) hhead hrest
  rw [bind_map_left] at hblock
  refine hblock.imp ?_
  rintro _ ⟨σ, text, σ₁, more, ht, rfl, hQ⟩
  rw [map_eq_pure_bind] at ht
  obtain ⟨t, _, _, ht⟩ := bind_ok.1 ht
  obtain ⟨rfl, -⟩ := pure_ok.1 ht
  exact ⟨t, more, rfl, hQ⟩

/-- The arms after the first one are written in order. -/
theorem writesChain_elsePart (e : Else) (hs : ∀ c ∈ e.arms, Silent (expr m d c.test)) :
    WritesChain m d (laterParts m d e.arms e.last) (fun heads => ∃ texts : List String,
      heads = texts.map elseIfHead ++ lastHead e.last) (elsePart m d e) := by
  cases e with
  | none => exact writesChain_close.imp fun _ h => ⟨[], h⟩
  | block b =>
    cases b with
    -- an empty block is written like none at all
    | nil => exact writesChain_close.imp fun _ h => ⟨[], h⟩
    | cons s ss =>
      have hhead : Silent (pure elseHead : Emit String) := .pure rfl
      refine (writesChain_block hhead writesChain_close).imp ?_
      rintro _ ⟨σ, text, σ₁, _, ht, rfl, rfl⟩
      obtain ⟨rfl, -⟩ := pure_ok.1 ht
      exact ⟨[], rfl⟩
  | elseIf t b e p =>
    obtain ⟨hs, hrest⟩ := List.forall_mem_cons.1 hs
    refine (writesChain_arm elseIfHead (c := ⟨t, b, p⟩) hs (writesChain_elsePart e hrest)).imp ?_
    rintro _ ⟨text, _, rfl, texts, rfl⟩
    exact ⟨text :: texts, rfl⟩

/-- So is the whole chain. -/
theorem writesChain_ifElse {t : Expr} {b : List Stmt} {e : Else} {p : Pos}
    (hs : ∀ c ∈ (Stmt.ifElse t b e p).arms, Silent (expr m d c.test)) :
    WritesChain m d (chainParts m d (Stmt.ifElse t b e p).arms e.last) (fun heads => ∃ texts : List String,
      heads = armHeads texts ++ lastHead e.last) (stmt m d (.ifElse t b e p)) := by
  obtain ⟨hs, hrest⟩ := List.forall_mem_cons.1 hs
  refine (writesChain_arm ifHead (c := ⟨t, b, p⟩) hs (writesChain_elsePart e hrest)).imp ?_
  rintro _ ⟨text, _, rfl, texts, rfl⟩
  exact ⟨text :: texts, rfl⟩

end Chains

end Snack.Script
