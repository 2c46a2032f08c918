import NamedContent.Content.Target
import NamedContent.Interest.Exclude
import NamedContent.Interest.Origin

/-! Interests: descriptions of the content asked for.

An interest matches content at or under its name. One that spells out the
implicit digest component of an object matches that object alone. -/

set_option autoImplicit false

namespace NamedContent

inductive Selector where
  | next
  | last
  deriving DecidableEq, Repr

structure Interest where
  name : Name
  selector : Option Selector
  exclude : Option Exclude
  /-- The fewest components that may follow the name; the digest does not count. -/
  minSuffix : Option Nat
  maxSuffix : Option Nat
  publisher : Option Publisher
  scope : Option UInt8
  origin : Option Origin
  deriving DecidableEq, Repr

namespace Interest

def ofName (name : Name) : Interest :=
  { name := name, selector := none, exclude := none, minSuffix := none, maxSuffix := none,
    publisher := none, scope := none, origin := none }

/-- The children of the first `count` components of a name that come after the
name's own component there. Without such a component nothing is skipped. -/
def after (selector : Selector) (reference : Name) (count : Nat) : Interest :=
  { ofName (reference.take count) with
    selector := some selector
    exclude := (reference.component? count).map Exclude.upTo }

def next (reference : Name) (count : Nat) : Interest := after .next reference count

def last (reference : Name) (count : Nat) : Interest := after .last reference count

def withSelector (interest : Interest) (selector : Selector) : Interest :=
  { interest with selector := some selector }

/-- An exclude that skips nothing counts as none. -/
def withExclude (interest : Interest) (exclude : Exclude) : Interest :=
  { interest with exclude := if exclude.isEmpty then none else some exclude }

def withSuffix (interest : Interest) (least most : Option Nat) : Interest :=
  { interest with minSuffix := least, maxSuffix := most }

def withPublisher (interest : Interest) (publisher : Publisher) : Interest :=
  { interest with publisher := some publisher }

def withScope (interest : Interest) (scope : UInt8) : Interest := { interest with scope := some scope }

def withOrigin (interest : Interest) (origin : Origin) : Interest := { interest with origin := some origin }

def answerOrigin (interest : Interest) : Origin := interest.origin.getD .standard

def reference? (interest : Interest) : Option Component :=
  match interest.selector, interest.exclude with
  | some _, some exclude => exclude.through
  | _, _ => none

def acceptsGenerated (interest : Interest) : Bool := interest.answerOrigin.contains .generated

def matchesPublisher (interest : Interest) (target : Target) : Bool :=
  match interest.publisher with
  | some publisher => target.publisher == some publisher
  | none => true

/-- Whether the interest spells out the target's name and its digest. -/
def namesDigest (interest : Interest) (target : Target) : Bool :=
  match target.digest with
  | some digest =>
    interest.name.length == target.name.length + 1
      && interest.name.equalsUpTo target.name (interest.name.length - 1)
      && interest.name.last? == some ⟨digest.toList⟩
  | none => false

/-- Whether the component right after the interest's name is skipped. -/
def excludes (interest : Interest) (target : Name) : Bool :=
  match interest.exclude, target.component? interest.name.length with
  | some exclude, some component => exclude.contains component
  | _, _ => false

def fitsSuffix (interest : Interest) (target : Name) : Bool :=
  let suffix := target.length - interest.name.length
  interest.minSuffix.all (· ≤ suffix) && interest.maxSuffix.all (suffix ≤ ·)

/-- Whether a target satisfies the interest on its own. The selector takes no
part, it ranks the targets that do. -/
def matchesTarget (interest : Interest) (target : Target) : Bool :=
  if interest.namesDigest target then interest.matchesPublisher target
  else
    interest.name.isPrefixOf target.name
      && !interest.excludes target.name
      && interest.fitsSuffix target.name
      && interest.matchesPublisher target

def matchesObject (interest : Interest) (object : ContentObject) : Bool :=
  interest.matchesTarget object.target

end Interest

end NamedContent
