import PatternSearch.Pattern.Lexeme

/-!
# Reading a pattern

Lexemes are read from left to right, each into what has been read before it (`Reading.read`). A
`Reading` holds the innermost group that is open, as far as it has got, and the groups around it,
which wait for it to close. A lexeme that does not fit ends the reading at its own place, so the
first fault from the left is the one reported; only a group that is never closed shows at the end of
the pattern (`Reading.finish`).

A reading that ends early says at which fault, or else it says no more than that the pattern cannot
be read on. Then what is left over tells the fault (`Reading.Stop.rejection`).
-/

namespace PatternSearch

/-- What has been read of a choice: the branches that are complete, and the terms of the one that is
not, the latest first in both. -/
structure Level where
  branches : List Branch := []
  terms : List Term := []
deriving DecidableEq, Repr

namespace Level

/-- One more term in the branch that is being read. -/
def push (level : Level) (t : Term) : Level :=
  { level with terms := t :: level.terms }

/-- The branch that is being read. -/
def branch (level : Level) : Branch :=
  .ofList level.terms.reverse

/-- The branch that is being read is complete, and another one begins. -/
def bar (level : Level) : Level :=
  { branches := level.branch :: level.branches, terms := [] }

/-- The choice as far as it has been read. -/
def choice (level : Level) : Choice :=
  .ofList level.branches.reverse level.branch

/-- Applies a quantifier to the last term of the branch that is being read. -/
def quantify? (level : Level) (q : Quantifier) : Option Level :=
  match level.terms with
  | [] => none
  | t :: rest => some { level with terms := .quantified q t :: rest }

end Level

/-- A group that has been opened and not closed: the place of its parenthesis, its number, and what
had been read around it. -/
structure OpenGroup where
  position : Nat
  index : Nat
  outer : Level
deriving DecidableEq, Repr

/-- What has been read of a pattern: the number of groups opened, the choice that is being read, and
the groups that it stands in, the innermost first. -/
structure Reading where
  groups : Nat := 0
  level : Level := {}
  enclosing : List OpenGroup := []
deriving DecidableEq, Repr

namespace Reading

/-- Why a reading ends early. -/
inductive Stop where
  /-- A fault is seen at `position`. -/
  | seen (fault : Fault) (position : Nat)
  /-- What stands at `position` cannot be read there and is left over, with all that comes after. -/
  | leftover (position : Nat)
  /-- More characters would be needed to go on. -/
  | incomplete
deriving DecidableEq, Repr

/-- The rejection of a pattern of `length` characters, the reading of whose body has ended early. The
body stands at `start`. -/
def Stop.rejection (start : Nat) (body : List Char) (length : Nat) : Stop → Rejection
  | seen fault position => ⟨fault, position⟩
  | leftover position => ⟨.leftover (body.drop (position - start)), position⟩
  | incomplete => ⟨.unexpectedEnd, length⟩

/-- Whether a group has been both opened and closed. -/
def isClosed (r : Reading) (group : Nat) : Bool :=
  group < r.groups && r.enclosing.all (·.index != group)

/-- One more term. -/
def push (r : Reading) (t : Term) : Reading :=
  { r with level := r.level.push t }

/-- Opens the next group, whose parenthesis stands at `position`. -/
def openGroup (r : Reading) (position : Nat) : Reading where
  groups := r.groups + 1
  level := {}
  enclosing := ⟨position, r.groups, r.level⟩ :: r.enclosing

/-- Closes the innermost open group. -/
def closeGroup? (r : Reading) : Option Reading :=
  match r.enclosing with
  | [] => none
  | g :: rest =>
    some { r with level := g.outer.push (.group g.index r.level.choice), enclosing := rest }

/-- Reads one lexeme. -/
def read (r : Reading) (l : Lexeme) : Except Stop Reading :=
  match l.token with
  | .single m => .ok (r.push (.atom m))
  | .backreference number =>
    if r.isClosed (number - 1) then .ok (r.push (.atom (.backref (number - 1))))
    else .error (.seen (.invalidBackreference number) l.position)
  | .openGroup => .ok (r.openGroup l.position)
  | .closeGroup =>
    match r.closeGroup? with
    | some r => .ok r
    | none => .error (.leftover l.position)
  | .bar => .ok { r with level := r.level.bar }
  | .quantifier q =>
    match r.level.quantify? q with
    | some level => .ok { r with level }
    | none => .error (.leftover l.position)
  | .invalid fault => .error (.seen fault l.position)

/-- The whole choice, once every group is closed. -/
def finish (r : Reading) : Except Stop Choice :=
  match r.enclosing with
  | [] => .ok r.level.choice
  | g :: _ => .error (.seen .unclosedGroup g.position)

end Reading

/-- Reads the body of a pattern between its anchors. -/
def Pattern.readBody (anchor : Anchor) (body : List Char) : Except Reading.Stop Pattern := do
  let r ← (Lexeme.scan anchor.width body).foldlM Reading.read {}
  let body ← r.finish
  return { anchor, body, groupCount := r.groups }

/-- Reads a pattern, or finds the first fault in it. -/
def Pattern.parse (source : String) : Except Rejection Pattern :=
  let (anchor, body) := Anchor.strip source.toList
  (readBody anchor body).mapError (·.rejection anchor.width body source.toList.length)

end PatternSearch
