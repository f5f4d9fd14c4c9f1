/-! Tables of entries by name, in the order in which the names came. -/

namespace Snack.Table

variable {α : Type} {table : List (String × α)} {e : String × α}

/-- Puts an entry into a table, in the place of the one that its name has or else as the last. -/
def put (table : List (String × α)) (e : String × α) : List (String × α) :=
  if table.any (·.1 == e.1) then table.map fun f => if f.1 == e.1 then e else f else table ++ [e]

theorem lookup_eq_none {name : String} : table.lookup name = none ↔ name ∉ table.map Prod.fst := by
  rw [List.lookup_eq_none_iff]
  constructor
  · rintro h hmem
    obtain ⟨f, hf, rfl⟩ := List.mem_map.1 hmem
    simpa using h f hf
  · intro h f hf
    rw [bne_iff_ne]
    rintro rfl
    exact h (List.mem_map_of_mem hf)

theorem mem_of_lookup {name : String} {a : α} (h : table.lookup name = some a) : (name, a) ∈ table := by
  obtain ⟨before, after, rfl, -⟩ := List.lookup_eq_some_iff.1 h
  simp

/-- A name that is new comes last. -/
theorem put_new (h : table.lookup e.1 = none) : put table e = table ++ [e] := by
  have hnone : (table.any (·.1 == e.1)) = false := by
    rw [List.any_eq_false]
    intro f hf heq
    exact lookup_eq_none.1 h (List.mem_map.2 ⟨f, hf, by simpa using heq⟩)
  simp [put, hnone]

theorem mem_put {f : String × α} (h : f ∈ put table e) : f ∈ table ∨ f = e := by
  unfold put at h
  split at h
  · obtain ⟨g, hg, rfl⟩ := List.mem_map.1 h
    split
    · exact .inr rfl
    · exact .inl hg
  · simpa using h

/-- A new entry hides none that is there. -/
theorem lookup_put {name : String} {a : α} (h : table.lookup e.1 = none) (ha : table.lookup name = some a) :
    (put table e).lookup name = some a := by
  rw [put_new h, List.lookup_append, ha]
  rfl

/-- Entries of distinct names are kept in their order. -/
theorem foldl_put {es : List (String × α)} (h : ((table ++ es).map Prod.fst).Nodup) :
    es.foldl put table = table ++ es := by
  induction es generalizing table with
  | nil => simp
  | cons f es ih =>
    have hnew : table.lookup f.1 = none := by
      rw [List.map_append, List.nodup_append] at h
      exact lookup_eq_none.2 fun hmem => h.2.2 f.1 hmem f.1 (by simp) rfl
    rw [List.foldl_cons, put_new hnew, ih (by simpa using h)]
    simp

end Snack.Table
