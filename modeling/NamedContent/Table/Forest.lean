import NamedContent.Table.Entry

/-! Ordered forests of entries, labelled by components.

A tree stands for the name spelled by the labels from its root and holds the
entries of exactly that name, in the order they came. Siblings ascend by label
and no tree is bare, that is without entries and without trees below it: each
operation prunes what it leaves bare. A forest is its first tree, taken apart,
and the trees beside it. -/

set_option autoImplicit false

namespace NamedContent

inductive Forest (V : Type) where
  | nil
  | tree (label : Component) (entries : List (Entry V)) (below beside : Forest V)
  deriving DecidableEq, Repr

namespace Forest

variable {V σ : Type}

/-- A tree beside others, or only the others if it would be bare. -/
def plant (label : Component) (entries : List (Entry V)) (below beside : Forest V) : Forest V :=
  match entries, below with
  | [], .nil => beside
  | _, _ => .tree label entries below beside

def along : List Component → Forest V → List (List (Entry V))
  | _, .nil => []
  | [], .tree .. => []
  | label :: path, .tree other entries below beside =>
    if label = other then entries :: along path below else along (label :: path) beside

def entriesAt (label : Component) (path : List Component) : Forest V → List (Entry V)
  | .nil => []
  | .tree other entries below beside =>
    if label = other then
      match path with
      | [] => entries
      | label :: path => below.entriesAt label path
    else beside.entriesAt label path

def sprout (entries : List (Entry V)) (label : Component) : List Component → Forest V → Forest V
  | [], beside => plant label entries .nil beside
  | next :: path, beside => plant label [] (sprout entries next path .nil) beside

/-- All entries: those of the names below a name before those of the name itself. -/
def toList : Forest V → List (Entry V)
  | .nil => []
  | .tree _ entries below beside => below.toList ++ entries ++ beside.toList

def setEntries (entries : List (Entry V)) (label : Component) (path : List Component) : Forest V → Forest V
  | .nil => sprout entries label path .nil
  | .tree other held below beside =>
    if label < other then sprout entries label path (.tree other held below beside)
    else if label = other then
      match path with
      | [] => plant other entries below beside
      | next :: path => plant other held (below.setEntries entries next path) beside
    else .tree other held below (beside.setEntries entries label path)

/-- What a sweep through a forest has come to: the state of its test, how many
entries it took out, and how many names lost their last entry. -/
structure Sweep (σ : Type) where
  state : σ
  removed : Nat
  emptied : Nat

def filterState {α : Type} (keep : α → σ → Bool × σ) : List α → σ → List α × σ
  | [], state => ([], state)
  | first :: rest, state =>
    let (kept, state) := keep first state
    let (others, state) := filterState keep rest state
    (if kept then first :: others else others, state)

def Sweep.entries (keep : Entry V → σ → Bool × σ) (held : List (Entry V)) (sweep : Sweep σ) :
    List (Entry V) × Sweep σ :=
  let (kept, state) := filterState keep held sweep.state
  let emptied := if held.isEmpty || !kept.isEmpty then 0 else 1
  (kept, ⟨state, sweep.removed + (held.length - kept.length), sweep.emptied + emptied⟩)

/-- Sweeps through a forest: all names below a name, in ascending order, before
the name itself. -/
def retain (keep : Entry V → σ → Bool × σ) : Forest V → Sweep σ → Forest V × Sweep σ
  | .nil, sweep => (.nil, sweep)
  | .tree label held below beside, sweep =>
    let (below, sweep) := below.retain keep sweep
    let (held, sweep) := sweep.entries keep held
    let (beside, sweep) := beside.retain keep sweep
    (plant label held below beside, sweep)

end Forest

end NamedContent
