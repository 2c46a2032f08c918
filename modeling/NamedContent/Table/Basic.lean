import NamedContent.Table.Forest

/-! A multimap from names to entries, searched by what their interests match.

Every name that an interest could have and match a target lies on the target's
path, which ends with the implicit digest component if that is known. So a
search follows one path, and the deepest entry on it has the longest name.
Equal entries are kept apart, and those of one name stay in the order they came. -/

set_option autoImplicit false

namespace NamedContent

/-- The entries of the root name and the forest of all others, with the number
of entries and of names that have any. -/
structure Table (V : Type) where
  rootEntries : List (Entry V)
  forest : Forest V
  size : Nat
  nameCount : Nat
  deriving DecidableEq, Repr

namespace Table

variable {V σ : Type}

def empty : Table V := ⟨[], .nil, 0, 0⟩

def isEmpty (table : Table V) : Bool := table.size == 0

/-- All entries, those of the root last. -/
def toList (table : Table V) : List (Entry V) := table.forest.toList ++ table.rootEntries

def entriesAt (table : Table V) : List Component → List (Entry V)
  | [] => table.rootEntries
  | label :: path => table.forest.entriesAt label path

def along (table : Table V) (path : List Component) : List (List (Entry V)) :=
  table.rootEntries :: table.forest.along path

/-- Replaces the entries of one name without counting. -/
def setEntries (table : Table V) (path : List Component) (entries : List (Entry V)) : Table V :=
  match path with
  | [] => { table with rootEntries := entries }
  | label :: path => { table with forest := table.forest.setEntries entries label path }

def add (table : Table V) (entry : Entry V) : Table V :=
  let path := entry.name.components
  let held := table.entriesAt path
  let grown := table.setEntries path (held ++ [entry])
  { grown with
    size := table.size + 1
    nameCount := table.nameCount + if held.isEmpty then 1 else 0 }

def addName (table : Table V) (name : Name) (value : V) : Table V := table.add (.bare name value)

def addInterest (table : Table V) (interest : Interest) (value : V) : Table V :=
  table.add (.interest interest value)

/-- The matching entry with the longest name, of those the one added first. -/
def match? (table : Table V) (target : Target) : Option (Entry V) :=
  (table.along target.path).reverse.findSome? (·.find? (·.matchesTarget target))

/-- Every matching entry, shorter names first. -/
def allMatches (table : Table V) (target : Target) : List (Entry V) :=
  (table.along target.path).flatMap (·.filter (·.matchesTarget target))

def nameMatches (table : Table V) (name : Name) : List (Entry V) :=
  (table.along name.components).flatten

/-- Takes entries of one name out; `select` parts them into those to take and
those to keep. -/
def extract (table : Table V) (path : List Component)
    (select : List (Entry V) → List (Entry V) × List (Entry V)) : List (Entry V) × Table V :=
  let held := table.entriesAt path
  let (removed, kept) := select held
  let rest := table.setEntries path kept
  (removed, { rest with
    size := table.size - removed.length
    nameCount := table.nameCount - if held.isEmpty || !kept.isEmpty then 0 else 1 })

def selectFirst (test : Entry V → Bool) (entries : List (Entry V)) : List (Entry V) × List (Entry V) :=
  ((entries.find? test).toList, entries.eraseP test)

def removeMatch (table : Table V) (target : Target) : Option (Entry V) × Table V :=
  let depths := (table.along target.path).zipIdx.filter fun (entries, _) => entries.any (·.matchesTarget target)
  match depths.getLast? with
  | none => (none, table)
  | some (_, depth) =>
    let (removed, table) := table.extract (target.path.take depth) (selectFirst (·.matchesTarget target))
    (removed.head?, table)

def removeMatches (table : Table V) (target : Target) : List (Entry V) × Table V :=
  let depths := (table.along target.path).zipIdx.filter fun (entries, _) => entries.any (·.matchesTarget target)
  depths.foldl
    (fun (removed, table) (_, depth) =>
      let (more, table) := table.extract (target.path.take depth) (·.partition (·.matchesTarget target))
      (removed ++ more, table))
    ([], table)

/-- Takes out the first entry of either kind under exactly a name with a value. -/
def removeName [DecidableEq V] (table : Table V) (name : Name) (value : V) : Option (Entry V) × Table V :=
  let (removed, table) := table.extract name.components (selectFirst (·.value == value))
  (removed.head?, table)

def removeInterest [DecidableEq V] (table : Table V) (interest : Interest) (value : V) :
    Option (Entry V) × Table V :=
  let (removed, table) := table.extract interest.name.components
    (selectFirst fun entry => entry.interest? == some interest && entry.value == value)
  (removed.head?, table)

/-- Keeps the entries that pass a test which carries a state. It sees all names
below a name, in ascending order, before the name itself. Answers the number of
entries taken out. -/
def retain (keep : Entry V → σ → Bool × σ) (table : Table V) (state : σ) : Nat × σ × Table V :=
  let (forest, sweep) := table.forest.retain keep ⟨state, 0, 0⟩
  let (rootEntries, sweep) := sweep.entries keep table.rootEntries
  (sweep.removed, sweep.state,
    ⟨rootEntries, forest, table.size - sweep.removed, table.nameCount - sweep.emptied⟩)

def filter (test : Entry V → Bool) (table : Table V) : Table V :=
  (table.retain (fun entry state => (test entry, state)) ()).2.2

def clear (table : Table V) : Nat × Table V := (table.size, empty)

@[simp] theorem toList_clear (table : Table V) : table.clear.2.toList = [] := rfl

@[simp] theorem entriesAt_empty (path : List Component) : (empty : Table V).entriesAt path = [] := by
  cases path <;> rfl

@[simp] theorem entriesAt_clear (table : Table V) (path : List Component) : table.clear.2.entriesAt path = [] :=
  entriesAt_empty path

end Table

end NamedContent
