import Snack.Command.Disk

/-! The laws of a system's files, and that a disk has them. To open a file for writing empties it, to write to it
adds to what it holds, and neither changes any other file. -/

namespace Snack.Command

/-- The files of a system in each of its states: what each of them holds, and which one a name leads to. -/
structure Files {σ : Type} (sys : System (StateM σ)) where
  holds (d : σ) (file : sys.File) : Option ByteArray
  named (d : σ) (name : String) : Option sys.File

/-- What the operations of a system may do to its files. Nothing is said of what a write that fails leaves in
its own file. -/
structure Files.Lawful {σ : Type} {sys : System (StateM σ)} (files : Files sys) : Prop where
  /-- The input is no file. -/
  stdin : ∀ d, files.holds (sys.stdin.run d).2 = files.holds d
  /-- Reading changes no file. -/
  read : ∀ name d, files.holds ((sys.read name).run d).2 = files.holds d
  /-- What is read is what the file holds that the name leads to. -/
  reads : ∀ {name d f bytes}, files.named d name = some f → files.holds d f = some bytes →
    ((sys.read name).run d).1 = .ok bytes
  /-- A file that cannot be opened stays as it was, and so do all others. -/
  refused : ∀ {name d d'}, (sys.create name).run d = (none, d') → files.holds d' = files.holds d
  /-- A file that is opened is empty. -/
  created : ∀ {name d d' f}, (sys.create name).run d = (some f, d') →
    files.named d' name = some f ∧ files.holds d' f = some .empty
  /-- To open a file changes no other one. -/
  createdAlone : ∀ {name d d' f g}, (sys.create name).run d = (some f, d') → g ≠ f →
    files.holds d' g = files.holds d g
  /-- What is written comes behind what the file holds. -/
  written : ∀ {f bytes d d' before}, files.holds d f = some before → (sys.write f bytes).run d = (true, d') →
    files.holds d' f = some (before ++ bytes)
  /-- A write changes no other file, even if it fails. -/
  writtenAlone : ∀ {f g bytes d}, g ≠ f → files.holds ((sys.write f bytes).run d).2 g = files.holds d g
  /-- Names lead where they did before the write. -/
  renames : ∀ f bytes d, files.named ((sys.write f bytes).run d).2 = files.named d

/-! ### Disks -/

namespace Disk

variable {room : Option Nat} {d d' : Disk} {name : String} {path other : Path} {bytes : ByteArray}

/-- Leaving out the entries at one path changes nothing at another. -/
theorem lookup_filter_ne (h : path ≠ other) (entries : List (Path × Entry)) :
    (entries.filter fun e => e.1 ≠ other).lookup path = entries.lookup path := by
  induction entries with
  | nil => rfl
  | cons e es ih =>
    obtain ⟨p, entry⟩ := e
    by_cases hp : p = other
    · subst hp
      have hb : (path == p) = false := by simpa using h
      simpa [List.lookup_cons, hb] using ih
    · by_cases hq : path = p <;> simp_all [List.lookup_cons]

/-- A file is put at its path, and the rest stays. -/
theorem find?_put (h : path ≠ []) (other : Path) :
    (d.put path bytes).find? other = if other = path then some (.file bytes) else d.find? other := by
  by_cases hp : other = path
  · subst hp
    simp [find?, put, h]
  · have hb : (other == path) = false := by simpa using hp
    by_cases h0 : other = []
    · simp [find?, h0, h.symm]
    · simp only [find?, put, h0, hp, if_false, List.lookup_cons, hb]
      exact lookup_filter_ne hp d.entries

/-- What the file at a path holds. -/
def bytesAt (d : Disk) (path : Path) : Option ByteArray :=
  match d.find? path with
  | some (.file bytes) => some bytes
  | _ => none

theorem bytesAt_put (h : path ≠ []) (other : Path) :
    (d.put path bytes).bytesAt other = if other = path then some bytes else d.bytesAt other := by
  unfold bytesAt
  rw [find?_put h]
  by_cases hp : other = path <;> simp [hp]

/-- A name leads to a file if that can be read. -/
def fileNamed (d : Disk) (name : String) : Option Path :=
  match d.read name with
  | .ok _ => some (Path.ofName name)
  | .error _ => none

theorem read_ok_iff : d.read name = .ok bytes ↔
    name ≠ "" ∧ d.blocked (Path.ofName name) = false ∧ namesDirectory name = false ∧
      d.find? (Path.ofName name) = some (.file bytes) := by
  unfold read
  by_cases hn : name = ""
  · simp [hn]
  · cases hb : d.blocked (Path.ofName name) with
    | true => simp [hn, hb]
    | false =>
      cases hf : d.find? (Path.ofName name) with
      | none => simp [hn, hb, hf]
      | some entry =>
        cases entry with
        | directory => simp [hn, hb, hf]
        | file b => cases namesDirectory name <;> simp [hn, hb, hf]

theorem fileNamed_eq_some :
    d.fileNamed name = some path ↔ Path.ofName name = path ∧ ∃ bytes, d.read name = .ok bytes := by
  unfold fileNamed
  cases d.read name <;> simp

/-- A path is blocked by files on the way to it only. -/
theorem blocked_congr (h : ∀ n < path.length, d'.isFile (path.take n) = d.isFile (path.take n)) :
    d'.blocked path = d.blocked path := by
  rw [blocked, blocked, Bool.eq_iff_iff]
  simp only [List.any_eq_true, List.mem_range]
  constructor
  · rintro ⟨n, hn, hf⟩
    exact ⟨n, hn, (h n hn).symm.trans hf⟩
  · rintro ⟨n, hn, hf⟩
    exact ⟨n, hn, (h n hn).trans hf⟩

theorem ne_nil_of_file {before : ByteArray} (h : d.find? path = some (.file before)) : path ≠ [] := by
  rintro rfl
  cases h

theorem create_none (h : d.create name = (none, d')) : d' = d := by
  unfold create at h
  dsimp only at h
  split at h
  · exact (congrArg Prod.snd h).symm
  · cases h

/-- What is opened is a file by its name, and nothing on the way to it is in the way. -/
theorem create_some (h : d.create name = (some path, d')) :
    path ≠ [] ∧ d' = d.put path .empty ∧ Path.ofName name = path ∧ name ≠ "" ∧ namesDirectory name = false ∧
      d.blocked path = false := by
  unfold create at h
  dsimp only at h
  split at h
  · cases h
  · next hok =>
    cases h
    simp only [Bool.or_eq_true, decide_eq_true_eq, not_or, Bool.not_eq_true, Bool.not_eq_eq_eq_not,
      Bool.not_true] at hok
    obtain ⟨⟨⟨⟨hname, hdir⟩, hblocked⟩, hnot⟩, -⟩ := hok
    refine ⟨?_, rfl, rfl, hname, hdir, hblocked⟩
    intro hnil
    rw [hnil] at hnot
    cases hnot

/-- A file that is opened can be read, and is empty. -/
theorem read_create (h : d.create name = (some path, d')) : d'.read name = .ok .empty := by
  obtain ⟨hne, rfl, rfl, hname, hdir, hblocked⟩ := create_some h
  refine read_ok_iff.2 ⟨hname, ?_, hdir, by rw [find?_put hne, if_pos rfl]⟩
  rw [← hblocked]
  refine blocked_congr fun n hn => ?_
  have hother : (Path.ofName name).take n ≠ Path.ofName name := by
    intro heq
    have hlength := congrArg List.length heq
    simp at hlength
    omega
  simp [isFile, find?_put hne, hother]

/-- A write puts something in the place of a file, or does nothing. -/
theorem write_cases (room : Option Nat) (d : Disk) (path : Path) (bytes : ByteArray) :
    d.write room path bytes = (false, d) ∨ ∃ before after, d.find? path = some (.file before) ∧
      (d.write room path bytes).2 = d.put path after ∧
        ((d.write room path bytes).1 = true → after = before ++ bytes) := by
  unfold write
  split
  · next before hfile =>
    right
    dsimp only
    split
    · exact ⟨before, _, hfile, rfl, fun _ => rfl⟩
    · exact ⟨before, _, hfile, rfl, fun h => by cases h⟩
  · exact .inl rfl

/-- To put a file in the place of another makes no other name lead anywhere. -/
theorem fileNamed_put {before : ByteArray} (h : d.find? path = some (.file before)) :
    (d.put path bytes).fileNamed = d.fileNamed := by
  have hne := ne_nil_of_file h
  have hfile : ∀ p, (d.put path bytes).isFile p = d.isFile p := by
    intro p
    by_cases hp : p = path <;> simp [isFile, find?_put hne, hp, h]
  have hread : ∀ name, (∃ b, (d.put path bytes).read name = .ok b) ↔ ∃ b, d.read name = .ok b := by
    intro name
    have hblocked : (d.put path bytes).blocked (Path.ofName name) = d.blocked (Path.ofName name) :=
      blocked_congr fun n _ => hfile ((Path.ofName name).take n)
    simp only [read_ok_iff, hblocked, find?_put hne]
    by_cases hp : Path.ofName name = path <;> simp [hp, h]
  funext name
  refine Option.ext fun p => ?_
  rw [fileNamed_eq_some, fileNamed_eq_some, hread]

theorem read_of_fileNamed (hnamed : d.fileNamed name = some path) (hholds : d.bytesAt path = some bytes) :
    d.read name = .ok bytes := by
  obtain ⟨rfl, b, hread⟩ := fileNamed_eq_some.1 hnamed
  have hfile : d.bytesAt (Path.ofName name) = some b := by simp [bytesAt, (read_ok_iff.1 hread).2.2.2]
  rw [hread, Option.some.inj (hfile.symm.trans hholds)]

theorem holds_created (h : d.create name = (some path, d')) :
    d'.fileNamed name = some path ∧ d'.bytesAt path = some .empty := by
  have hread := read_create h
  obtain ⟨hne, hput, hpath, -⟩ := create_some h
  refine ⟨fileNamed_eq_some.2 ⟨hpath, _, hread⟩, ?_⟩
  rw [hput, bytesAt_put hne, if_pos rfl]

theorem created_alone (h : d.create name = (some path, d')) (hother : other ≠ path) :
    d'.bytesAt other = d.bytesAt other := by
  obtain ⟨hne, rfl, -⟩ := create_some h
  rw [bytesAt_put hne, if_neg hother]

theorem holds_written {before : ByteArray} (hholds : d.bytesAt path = some before)
    (h : d.write room path bytes = (true, d')) : d'.bytesAt path = some (before ++ bytes) := by
  rcases write_cases room d path bytes with hfail | ⟨old, after, hfile, hput, hall⟩
  · cases hfail.symm.trans h
  · have hold : d.bytesAt path = some old := by simp [bytesAt, hfile]
    rw [h] at hput hall
    rw [show d' = d.put path after from hput, bytesAt_put (ne_nil_of_file hfile), if_pos rfl, hall rfl,
      Option.some.inj (hold.symm.trans hholds)]

theorem written_alone (hother : other ≠ path) : (d.write room path bytes).2.bytesAt other = d.bytesAt other := by
  rcases write_cases room d path bytes with hfail | ⟨old, after, hfile, hput, -⟩
  · rw [hfail]
  · rw [hput, bytesAt_put (ne_nil_of_file hfile), if_neg hother]

theorem fileNamed_write (room : Option Nat) (path : Path) (bytes : ByteArray) (d : Disk) :
    (d.write room path bytes).2.fileNamed = d.fileNamed := by
  rcases write_cases room d path bytes with hfail | ⟨old, after, hfile, hput, -⟩
  · rw [hfail]
  · rw [hput, fileNamed_put hfile]

def files (stdin : ByteArray) (room : Option Nat) : Files (system stdin room) where
  holds := bytesAt
  named := fileNamed

theorem lawful_files (stdin : ByteArray) (room : Option Nat) : (files stdin room).Lawful where
  stdin _ := rfl
  read _ _ := rfl
  reads := read_of_fileNamed
  refused h := congrArg bytesAt (create_none h)
  created := holds_created
  createdAlone := created_alone
  written := holds_written
  writtenAlone := written_alone
  renames := fileNamed_write room

end Disk

end Snack.Command
