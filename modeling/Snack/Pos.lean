/-! Places in a text and things that are known to stand at one. Lines and columns count code
points from one. A line that is not positive stands for a place that nobody knows. -/

namespace Snack

structure Pos where
  line : Int
  col : Int
  deriving DecidableEq, Inhabited

namespace Pos

/-- The first character of a text. -/
def start : Pos := ⟨1, 1⟩

def unknown : Pos := ⟨0, 0⟩

/-- The place behind a character. A line feed opens the next line. -/
def after (p : Pos) (c : Char) : Pos :=
  if c = '\n' then ⟨p.line + 1, 1⟩ else ⟨p.line, p.col + 1⟩

/-- The place behind a run of characters. -/
def afterAll (p : Pos) (cs : List Char) : Pos := cs.foldl after p

/-- A message led by its place, when the place is known. -/
def label (p : Pos) (message : String) : String :=
  if 0 < p.line then toString p.line ++ ":" ++ toString p.col ++ ": " ++ message else message

@[simp] theorem afterAll_nil (p : Pos) : p.afterAll [] = p := rfl

@[simp] theorem afterAll_cons (p : Pos) (c : Char) (cs : List Char) :
    p.afterAll (c :: cs) = (p.after c).afterAll cs := rfl

theorem afterAll_append (p : Pos) (xs ys : List Char) :
    p.afterAll (xs ++ ys) = (p.afterAll xs).afterAll ys := by
  simp [afterAll]

end Pos

/-- A cause of failure and where it shows. -/
structure Located (α : Type) where
  cause : α
  pos : Pos
  deriving DecidableEq

end Snack
