import Snack.Proofs.Steps
import Snack.Typing.Stmt

/-! What the steps of the analysis do to what is known: entities are added under their own names, scopes
are opened and closed again, and the members of classes only grow. -/

namespace Snack.Typing

open Snack.Core

namespace State

/-! ### New entities -/

/-- Declares an entity that has the next number. -/
def add (st : State) (e : Entity) : State := { st.bind e.name e with next := st.next + 1 }

def addAll (st : State) (es : List Entity) : State := es.foldl add st

/-- Takes a number without declaring anything. -/
def skip (st : State) : State := { st with next := st.next + 1 }

/-- What is known after a scope is closed: names and scopes are those of `before`. -/
def backTo (st before : State) : State := { st with scope := before.scope, outer := before.outer }

@[simp] theorem add_next (st : State) (e : Entity) : (st.add e).next = st.next + 1 := rfl

@[simp] theorem addAll_nil (st : State) : st.addAll [] = st := rfl

@[simp] theorem addAll_cons (st : State) (e : Entity) (es : List Entity) :
    st.addAll (e :: es) = (st.add e).addAll es := rfl

@[simp] theorem addAll_outer (st : State) (es : List Entity) : (st.addAll es).outer = st.outer := by
  induction es generalizing st with
  | nil => rfl
  | cons e es ih => exact ih (st.add e)

@[simp] theorem addAll_members (st : State) (es : List Entity) :
    (st.addAll es).members = st.members := by
  induction es generalizing st with
  | nil => rfl
  | cons e es ih => exact ih (st.add e)

@[simp] theorem addAll_next (st : State) (es : List Entity) :
    (st.addAll es).next = st.next + es.length := by
  induction es generalizing st with
  | nil => rfl
  | cons e es ih =>
    rw [addAll_cons, ih, List.length_cons, add_next]
    omega

theorem le_addAll_next {st : State} {es : List Entity} {n : Nat} (h : n ≤ st.next) :
    n ≤ (st.addAll es).next := by
  rw [addAll_next]
  omega

/-- The names that entities are declared under, the last one first. -/
def names (es : List Entity) : List (String × Entity) := (es.map fun e => (e.name, e)).reverse

theorem addAll_scope (st : State) (es : List Entity) :
    (st.addAll es).scope = { st.scope with locals := names es ++ st.scope.locals } := by
  induction es generalizing st with
  | nil => rfl
  | cons e es ih =>
    rw [addAll_cons, ih]
    simp [names, add, bind]

theorem names_append (es ds : List Entity) : names (es ++ ds) = names ds ++ names es := by
  simp [names]

theorem mem_names {es : List Entity} {n : String} {e : Entity} (h : (n, e) ∈ names es) :
    e ∈ es ∧ n = e.name := by
  simp only [names, List.mem_reverse, List.mem_map, Prod.mk.injEq] at h
  obtain ⟨d, hd, rfl, rfl⟩ := h
  exact ⟨hd, rfl⟩

/-! ### Scopes -/

theorem exit?_eq_some {st st' : State} : st.exit? = some st' ↔
    ∃ s rest, st.outer = s :: rest ∧ st' = { st with scope := s, outer := rest } := by
  unfold exit?
  cases h : st.outer with
  | nil => simp
  | cons s rest =>
    constructor
    · rintro ⟨⟩
      exact ⟨s, rest, rfl, rfl⟩
    · rintro ⟨_, _, ⟨⟩, rfl⟩
      rfl

/-- Looking a name up finds what some open scope has under it. -/
theorem find?_mem {st : State} {name : String} {e : Entity} (h : st.find? name = some e) :
    ∃ s ∈ st.scope :: st.outer, (name, e) ∈ s.locals := by
  obtain ⟨s, hs, he⟩ := List.exists_of_findSome?_eq_some h
  obtain ⟨before, after, hl, -⟩ := List.lookup_eq_some_iff.1 he
  exact ⟨s, hs, by simp [hl]⟩

/-- Closing a scope that was opened in `before` gives back its scopes. -/
theorem exit?_backTo {st before : State} (h : st.outer = before.scope :: before.outer) :
    st.exit? = some (st.backTo before) :=
  exit?_eq_some.2 ⟨_, _, h, rfl⟩

theorem lookup_ok {st : State} {name : String} {p : Pos} {e : Entity} :
    st.lookup name p = .ok e ↔ st.find? name = some e := by
  unfold lookup
  split <;> simp_all

theorem settle_addAll (st : State) (qs : List Entity) (name : String) (e : Entity) :
    (st.addAll qs).settle name e = (st.settle name e).addAll qs := by
  induction qs generalizing st with
  | nil => rfl
  | cons q qs ih =>
    have hq : (st.add q).settle name e = (st.settle name e).add q := by
      obtain ⟨scope, outer, members, next, dropped⟩ := st
      cases outer <;> rfl
    rw [addAll_cons, ih, addAll_cons, hq]

/-- Giving a function its final type, once its parameters are there, is as if it had it from the start. -/
theorem settle_announced {st : State} {f d : Entity} {l : Option Bool} {c : Option Callable}
    {k : Option Entity} (qs : List Entity) (hn : st.isLocal f.name = false) (hd : d.name = f.name) :
    (((st.add d).enter l c k).addAll qs).settle f.name f = ((st.add f).enter l c k).addAll qs := by
  have hnone : st.scope.locals.lookup f.name = none := by simpa [isLocal] using hn
  have hrest : st.scope.locals.map
    (fun x => if x.1 = f.name then (x.1, f) else (x.1, x.2)) = st.scope.locals := by
    refine (List.map_congr_left fun entry he => ?_).trans (List.map_id _)
    have hne := List.lookup_eq_none_iff.1 hnone entry he
    rw [if_neg (by rintro heq; simp [heq] at hne)]
    rfl
  have hsettle : ((st.add d).enter l c k).settle f.name f = (st.add f).enter l c k := by
    simp [settle, enter, add, bind, hd, hrest]
  rw [settle_addAll, hsettle]

theorem isLocal_add {st : State} {e : Entity} {name : String} :
    (st.add e).isLocal name = false ↔ name ≠ e.name ∧ st.isLocal name = false := by
  have hlocals : (st.add e).scope.locals = (e.name, e) :: st.scope.locals := rfl
  unfold isLocal
  rw [hlocals, List.lookup_cons]
  by_cases h : name = e.name
  · simp [h]
  · have hb : (name == e.name) = false := by simpa using h
    simp [hb, h]

/-! ### Members -/

theorem membersOf_setMembers (st : State) (id k : Nat) (m : Members) :
    (st.setMembers id m).membersOf k = if k = id then m else st.membersOf k := by
  unfold membersOf setMembers
  by_cases hk : k = id
  · simp [hk]
  · have hb : (k == id) = false := by simpa using hk
    simp only [List.lookup_cons, hb, if_neg hk]
    congr 1
    induction st.members with
    | nil => rfl
    | cons entry rest ih =>
      obtain ⟨i, x⟩ := entry
      by_cases hi : i = id
      · subst hi
        simpa [List.lookup_cons, hb] using ih
      · by_cases hki : k = i <;> simp_all [List.lookup_cons]

theorem membersOf_addField (st : State) (id k : Nat) (f : Field) :
    (st.addField id f).membersOf k =
      if k = id then { st.membersOf id with fields := (st.membersOf id).fields ++ [f] }
      else st.membersOf k := membersOf_setMembers st id k _

theorem membersOf_addMethod (st : State) (id k : Nat) (e : Entity) :
    (st.addMethod id e).membersOf k =
      if k = id then
        { st.membersOf id with
          table := Table.put (st.membersOf id).table (e.name, e.typ), methods := (st.membersOf id).methods ++ [e] }
      else st.membersOf k := membersOf_setMembers st id k _

def addFields (st : State) (id : Nat) (fs : List Field) : State := fs.foldl (·.addField id ·) st

/-- Fields change nothing but the members of their class. -/
theorem addFields_eq (st : State) (id : Nat) (fs : List Field) :
    st.addFields id fs = { st with members := (st.addFields id fs).members } := by
  induction fs generalizing st with
  | nil => rfl
  | cons f fs ih => exact ih (st.addField id f)

@[simp] theorem addFields_next (st : State) (id : Nat) (fs : List Field) :
    (st.addFields id fs).next = st.next := by
  rw [addFields_eq]

theorem membersOf_addFields (st : State) (id k : Nat) (fs : List Field) :
    (st.addFields id fs).membersOf k =
      if k = id then { st.membersOf id with fields := (st.membersOf id).fields ++ fs }
      else st.membersOf k := by
  induction fs generalizing st with
  | nil => by_cases hk : k = id <;> simp [addFields, hk]
  | cons f fs ih =>
    rw [show st.addFields id (f :: fs) = (st.addField id f).addFields id fs from rfl, ih]
    by_cases hk : k = id <;> simp [hk, membersOf_addField]

theorem membersOf_congr {st st' : State} (h : st'.members = st.members) (k : Nat) :
    st'.membersOf k = st.membersOf k := by
  unfold membersOf
  rw [h]

end State

/-! ### Growth -/

theorem Members.has_eq_false {m : Members} {name : String} :
    m.has name = false ↔ m.field? name = none ∧ m.method? name = none := by
  simp [has]

/-- What was known of classes stays true: no class that has a number by now gets another field, what is found in
its table is found there later, and it gets the `new` methods behind those it has. -/
structure Keeps (st st' : State) (new : Nat → List Entity) : Prop where
  next : st.next ≤ st'.next
  fields : ∀ k < st.next, (st'.membersOf k).fields = (st.membersOf k).fields
  table : ∀ k < st.next, ∀ {name t}, (st.membersOf k).method? name = some t → (st'.membersOf k).method? name = some t
  methods : ∀ k < st.next, (st'.membersOf k).methods = (st.membersOf k).methods ++ new k

namespace Keeps

variable {st st₀ st₁ st' before : State} {new new' : Nat → List Entity}

theorem of_members (hn : st.next ≤ st'.next) (h : st'.members = st.members) :
    Keeps st st' fun _ => [] where
  next := hn
  fields k _ := by rw [State.membersOf_congr h]
  table k _ := by
    intro _ _ ht
    rwa [State.membersOf_congr h]
  methods k _ := by rw [State.membersOf_congr h, List.append_nil]

theorem refl (st : State) : Keeps st st fun _ => [] := of_members (Nat.le_refl _) rfl

theorem trans (h : Keeps st st₁ new) (h' : Keeps st₁ st' new') :
    Keeps st st' fun k => new k ++ new' k where
  next := Nat.le_trans h.next h'.next
  fields k hk := (h'.fields k (Nat.lt_of_lt_of_le hk h.next)).trans (h.fields k hk)
  table k hk := fun ht => h'.table k (Nat.lt_of_lt_of_le hk h.next) (h.table k hk ht)
  methods k hk := by
    rw [h'.methods k (Nat.lt_of_lt_of_le hk h.next), h.methods k hk, List.append_assoc]

theorem congr (h : Keeps st st' new) (heq : ∀ k, new k = new' k) : Keeps st st' new' where
  next := h.next
  fields := h.fields
  table := h.table
  methods k hk := by rw [h.methods k hk, heq]

/-- A run inside of a scope, which is opened before it and closed after it. -/
theorem inner (h : Keeps st₀ st₁ new) (hn : st.next ≤ st₀.next) (hm : st₀.members = st.members) :
    Keeps st (st₁.backTo before) new where
  next := Nat.le_trans hn h.next
  fields k hk := by
    rw [← State.membersOf_congr hm]
    exact h.fields k (Nat.lt_of_lt_of_le hk hn)
  table k hk := by
    rw [← State.membersOf_congr hm]
    exact h.table k (Nat.lt_of_lt_of_le hk hn)
  methods k hk := by
    rw [← State.membersOf_congr hm]
    exact h.methods k (Nat.lt_of_lt_of_le hk hn)

theorem ofScope {l : Option Bool} {f : Option Callable} {c : Option Entity}
    (h : Keeps (st.enter l f c) st₁ new) : Keeps st (st₁.backTo st) new :=
  h.inner (Nat.le_refl _) rfl

theorem add (st : State) (e : Entity) : Keeps st (st.add e) fun _ => [] :=
  of_members (Nat.le_succ _) rfl

/-- Closing a scope changes nothing of what comes later. -/
theorem closed (h : Keeps (st.backTo before) st' new) : Keeps st st' new :=
  ⟨h.next, h.fields, h.table, h.methods⟩

/-- Fields of a class that was not there before. -/
theorem addFields {id : Nat} (fs : List Field) (hn : st.next ≤ st₀.next)
    (hm : st₀.members = st.members) (hid : st.next ≤ id) :
    Keeps st (st₀.addFields id fs) fun _ => [] where
  next := by rwa [State.addFields_eq]
  fields k hk := by rw [State.membersOf_addFields, if_neg (by omega), State.membersOf_congr hm]
  table k hk := by
    intro _ _ ht
    rwa [State.membersOf_addFields, if_neg (by omega), State.membersOf_congr hm]
  methods k hk := by
    rw [State.membersOf_addFields, if_neg (by omega), State.membersOf_congr hm, List.append_nil]

/-- A method that is new in the table of its class. -/
theorem addMethod {id : Nat} {e : Entity} (he : (st.membersOf id).method? e.name = none) :
    Keeps st (st.addMethod id e) fun k => if k = id then [e] else [] where
  next := Nat.le_refl _
  fields k _ := by
    rw [State.membersOf_addMethod]
    split
    · next h => rw [h]
    · rfl
  table k _ := by
    intro name t ht
    rw [State.membersOf_addMethod]
    split
    · next h =>
      subst h
      exact Table.lookup_put he ht
    · exact ht
  methods k _ := by
    rw [State.membersOf_addMethod]
    split
    · next h => rw [h]
    · rw [List.append_nil]

/-- The type that a member has is not changed by what comes later. -/
theorem typ? (h : Keeps st st' new) {k : Nat} (hk : k < st.next) {name : String} {t : Ty}
    (ht : (st.membersOf k).typ? name = some t) : (st'.membersOf k).typ? name = some t := by
  unfold Members.typ? Members.field? at ht ⊢
  rw [h.fields k hk]
  split at ht
  · exact ht
  · exact h.table k hk ht

end Keeps

/-- The innermost scope gets new names and nothing else about scopes changes. -/
structure Grows (st st' : State) (new : List (String × Entity)) : Prop where
  scope : st'.scope = { st.scope with locals := new ++ st.scope.locals }
  outer : st'.outer = st.outer

namespace Grows

theorem refl (st : State) : Grows st st [] := ⟨rfl, rfl⟩

theorem trans {st st₁ st' : State} {xs ys : List (String × Entity)} (h : Grows st st₁ xs)
    (h' : Grows st₁ st' ys) : Grows st st' (ys ++ xs) where
  scope := by rw [h'.scope, h.scope, List.append_assoc]
  outer := h'.outer.trans h.outer

theorem add (st : State) (e : Entity) : Grows st (st.add e) [(e.name, e)] := ⟨rfl, rfl⟩

theorem addAll (st : State) (es : List Entity) : Grows st (st.addAll es) (State.names es) :=
  ⟨st.addAll_scope es, st.addAll_outer es⟩

theorem backTo (st before : State) : Grows before (st.backTo before) [] := ⟨rfl, rfl⟩

end Grows

/-! ### Classes to come -/

/-- No class has members before it has its number. -/
def Unnumbered (st : State) : Prop := ∀ k, st.next ≤ k → st.membersOf k = ⟨[], [], []⟩

namespace Unnumbered

variable {st st' before : State}

theorem of_members (h : Unnumbered st) (hm : st'.members = st.members) (hn : st.next ≤ st'.next) :
    Unnumbered st' := by
  intro k hk
  rw [State.membersOf_congr hm]
  exact h k (Nat.le_trans hn hk)

theorem add (h : Unnumbered st) (e : Entity) : Unnumbered (st.add e) := h.of_members rfl (Nat.le_succ _)

theorem addAll (h : Unnumbered st) (es : List Entity) : Unnumbered (st.addAll es) :=
  h.of_members (State.addAll_members _ _) (State.le_addAll_next (Nat.le_refl _))

theorem enter (h : Unnumbered st) (l : Option Bool) (f : Option Callable) (c : Option Entity) :
    Unnumbered (st.enter l f c) := h.of_members rfl (Nat.le_refl _)

theorem backTo (h : Unnumbered st) : Unnumbered (st.backTo before) := h.of_members rfl (Nat.le_refl _)

theorem addMethod {id : Nat} {e : Entity} (h : Unnumbered st) (hid : id < st.next) :
    Unnumbered (st.addMethod id e) := by
  intro k hk
  have hk : st.next ≤ k := hk
  rw [State.membersOf_addMethod, if_neg (by omega)]
  exact h k hk

theorem addFields {id : Nat} {fs : List Field} (h : Unnumbered st) (hid : id < st.next) :
    Unnumbered (st.addFields id fs) := by
  intro k hk
  rw [State.addFields_next] at hk
  rw [State.membersOf_addFields, if_neg (by omega)]
  exact h k hk

end Unnumbered

/-! ### Entities in scope -/

/-- Every entity that can be named in an open scope has the property. -/
def Knows (st : State) (P : Entity → Prop) : Prop :=
  ∀ s ∈ st.scope :: st.outer, (∀ x ∈ s.locals, P x.2) ∧ ∀ c, s.cls = some c → P c

namespace Knows

variable {st st' : State} {P Q : Entity → Prop}

theorem imp (h : Knows st P) (hPQ : ∀ e, P e → Q e) : Knows st Q := fun s hs =>
  ⟨fun x hx => hPQ _ ((h s hs).1 x hx), fun c hc => hPQ c ((h s hs).2 c hc)⟩

theorem of_scopes (h : Knows st P) (hs : st'.scope = st.scope) (ho : st'.outer = st.outer) :
    Knows st' P := by
  intro s hmem
  rw [hs, ho] at hmem
  exact h s hmem

theorem of_grows {es : List Entity} (h : Knows st P) (hg : Grows st st' (State.names es))
    (he : ∀ e ∈ es, P e) : Knows st' P := by
  intro s hs
  rw [hg.scope, hg.outer] at hs
  rcases List.mem_cons.1 hs with rfl | hs
  · have hscope := h st.scope List.mem_cons_self
    refine ⟨fun x hx => ?_, hscope.2⟩
    rcases List.mem_append.1 hx with hx | hx
    · exact he x.2 (State.mem_names hx).1
    · exact hscope.1 x hx
  · exact h s (List.mem_cons_of_mem _ hs)

theorem add {e : Entity} (h : Knows st P) (he : P e) : Knows (st.add e) P := by
  have hgrows : Grows st (st.add e) (State.names [e]) := .add st e
  exact h.of_grows hgrows (by simpa using he)

theorem addAll {es : List Entity} (h : Knows st P) (he : ∀ e ∈ es, P e) : Knows (st.addAll es) P :=
  h.of_grows (.addAll st es) he

theorem enter {l : Option Bool} {f : Option Callable} {c : Option Entity} (h : Knows st P)
    (hc : ∀ cls, c = some cls → P cls) : Knows (st.enter l f c) P := by
  intro s hs
  rcases List.mem_cons.1 hs with rfl | hs
  · refine ⟨by simp [State.enter], fun cls hcls => ?_⟩
    cases c with
    | none => exact (h st.scope List.mem_cons_self).2 cls hcls
    | some c => exact hc cls hcls
  · exact h s hs

theorem backTo {before : State} (h : Knows before P) : Knows (st.backTo before) P := h.of_scopes rfl rfl

theorem addFields {id : Nat} {fs : List Field} (h : Knows st P) : Knows (st.addFields id fs) P := by
  rw [State.addFields_eq]
  exact h.of_scopes rfl rfl

theorem of_find? {name : String} {e : Entity} (h : Knows st P) (he : st.find? name = some e) : P e := by
  obtain ⟨s, hs, hx⟩ := State.find?_mem he
  exact (h s hs).1 _ hx

/-- At the start the library is known. -/
theorem initial (h : ∀ e ∈ standardLibrary, P e) : Knows .initial P := by
  intro s hs
  obtain rfl : s = State.initial.scope := by simpa [State.initial] using hs
  refine ⟨fun x hx => ?_, by simp [State.initial]⟩
  obtain ⟨e, he, rfl⟩ := List.mem_map.1 hx
  exact h e he

end Knows

/-! ### New numbers -/

/-- Entities with numbers of their own, from `n` on and below `m`. -/
structure Fresh (n m : Nat) (es : List Entity) : Prop where
  range : ∀ e ∈ es, n ≤ e.id ∧ e.id < m
  distinct : es.Pairwise fun d e => d.id ≠ e.id

namespace Fresh

variable {n m k : Nat} {es ds : List Entity} {e : Entity}

theorem nil : Fresh n m [] := ⟨by simp, .nil⟩

theorem one (h : n ≤ e.id ∧ e.id < m) : Fresh n m [e] := ⟨by simpa using h, List.pairwise_singleton _ _⟩

theorem append (hd : Fresh n m ds) (he : Fresh m k es) (hnm : n ≤ m) (hmk : m ≤ k) :
    Fresh n k (ds ++ es) where
  range e hmem := by
    rcases List.mem_append.1 hmem with hmem | hmem
    · have := hd.range e hmem
      omega
    · have := he.range e hmem
      omega
  distinct := by
    refine List.pairwise_append.2 ⟨hd.distinct, he.distinct, fun d hdm e hem => ?_⟩
    have := hd.range d hdm
    have := he.range e hem
    omega

theorem cons (hid : e.id = n) (h : Fresh (n + 1) m es) (hm : n + 1 ≤ m) : Fresh n m (e :: es) :=
  append (.one ⟨Nat.le_of_eq hid.symm, by omega⟩) h (Nat.le_succ n) hm

theorem perm (h : Fresh n m ds) (hp : ds.Perm es) : Fresh n m es where
  range e he := h.range e (hp.mem_iff.2 he)
  distinct := (hp.pairwise_iff Ne.symm).1 h.distinct

theorem of_ids (h : es.map (·.id) = List.range' n es.length) : Fresh n (n + es.length) es where
  range e he := by
    have hid : e.id ∈ es.map (·.id) := List.mem_map_of_mem he
    rw [h, List.mem_range'_1] at hid
    exact hid
  distinct := List.pairwise_map.1 (h ▸ List.nodup_range')

/-- An entity in front of those that its statement holds. -/
theorem front {a : Nat} {hs : List Entity} (hid : e.id = n) (h : Fresh (n + 1) (n + 1 + a) (ds ++ hs)) :
    Fresh n (n + (1 + a)) (e :: ds ++ hs) := by
  rw [← Nat.add_assoc]
  exact .cons hid h (Nat.le_add_right _ _)

/-- Two parts, each with entities of two sorts. -/
theorem join {a b : Nat} {hs gs : List Entity} (h : Fresh n (n + a) (ds ++ hs))
    (h' : Fresh (n + a) (n + a + b) (es ++ gs)) : Fresh n (n + (a + b)) (ds ++ es ++ (hs ++ gs)) := by
  have hall := h.append h' (Nat.le_add_right _ _) (Nat.le_add_right _ _)
  rw [Nat.add_assoc] at hall
  refine hall.perm ?_
  rw [List.append_assoc, List.append_assoc]
  exact (List.perm_append_comm_assoc hs es gs).append_left ds

/-- A function, its parameters, and what is declared in its body. -/
theorem function {a b : Nat} {qs hs : List Entity} (hid : e.id = n) (hq : Fresh (n + 1) (n + 1 + a) qs)
    (hb : Fresh (n + 1 + a) (n + 1 + a + b) (ds ++ hs)) : Fresh n (n + (1 + a + b)) (e :: (qs ++ ds) ++ hs) := by
  have hall := hq.append hb (Nat.le_add_right _ _) (Nat.le_add_right _ _)
  rw [← List.append_assoc] at hall
  rw [show n + (1 + a + b) = n + 1 + a + b by omega]
  exact .cons hid hall (by omega)

/-- Among new entities the number tells which one it is. -/
theorem eq_of_id (h : Fresh n m es) {d : Entity} (hd : d ∈ es) (he : e ∈ es) (hid : d.id = e.id) :
    d = e := by
  have hdistinct := h.distinct
  induction es with
  | nil => cases hd
  | cons x xs ih =>
    have hx := List.pairwise_cons.1 hdistinct
    rcases List.mem_cons.1 hd with rfl | hdx <;> rcases List.mem_cons.1 he with rfl | hex
    · rfl
    · exact absurd hid (hx.1 e hex)
    · exact absurd hid.symm (hx.1 d hdx)
    · exact ih ⟨fun y hy => h.range y (List.mem_cons_of_mem _ hy), hx.2⟩ hdx hex hx.2

end Fresh

end Snack.Typing
