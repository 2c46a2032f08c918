import NamedContent.Flow.Basic

/-! Which buffered object answers an interest, and which pending interest takes
an object. -/

set_option autoImplicit false

namespace NamedContent

structure Candidate where
  interest : Interest
  pending : Pending
  deriving DecidableEq, Repr

namespace Candidate

/-- The component after which a next interest continues. -/
def position? (candidate : Candidate) : Option Component :=
  match candidate.interest.selector with
  | some .next => candidate.interest.reference?
  | _ => none

/-- Whether one position comes before another; no position comes before any. -/
def positionBefore : Option Component → Option Component → Bool
  | none, some _ => true
  | some first, some second => first < second
  | _, none => false

/-- Whether the second candidate is at least as good as the first: the longer
name, then the position further along, then the earlier registration. -/
def yieldsTo (first second : Candidate) : Bool :=
  let shorter := first.interest.name.length < second.interest.name.length
  let sameLength := first.interest.name.length = second.interest.name.length
  let behind := positionBefore first.position? second.position?
  let samePosition := first.position? = second.position?
  shorter || (sameLength && (behind || (samePosition && second.pending.seq ≤ first.pending.seq)))

def best? (candidates : List Candidate) : Option Candidate :=
  candidates.foldl
    (fun best candidate =>
      match best with
      | none => some candidate
      | some held => if held.yieldsTo candidate then some candidate else some held)
    none

end Candidate

def Entry.candidate? : Entry Pending → Option Candidate
  | .interest asked pending => some ⟨asked, pending⟩
  | .bare _ _ => none

namespace Flow

variable {τ : Type}

/-- Whether the segment order lets an interest have the object of a name. A next
interest on a segmented stream does not skip past a segment that has not been
delivered yet. -/
def inOrder (flow : Flow τ) (interest : Interest) (name : Name) : Bool :=
  if flow.config.strictSegmentOrder && interest.selector == some .next
      && name.length == interest.name.length + 1 then
    match interest.reference?.bind Component.segment?, name.segment? with
    | some reference, some segment =>
      let floor := match flow.lowWater? interest.name with
        | some delivered => max reference delivered
        | none => reference
      segment ≤ Word.add floor 1
    | _, _ => true
  else true

def mayHave (flow : Flow τ) (interest : Interest) (object : ContentObject) : Bool :=
  interest.matchesObject object && flow.inOrder interest object.name

/-- The buffered object that answers an interest: under its name the last one it
may have if it asks for the last, else the first. An interest that spells out the
digest of an object comes after it in the order of names, so that object is
looked up by the interest's parent. -/
def bestBuffered? (flow : Flow τ) (interest : Interest) : Option ContentObject :=
  let held := flow.buffer.under interest.name
  let ranked := match interest.selector with
    | some .last => held.reverse.find? (flow.mayHave interest)
    | _ => held.find? (flow.mayHave interest)
  match ranked with
  | some object => some object
  | none =>
    match interest.name.parent?.bind flow.buffer.find? with
    | some object => if interest.matchesObject object then some object else none
    | none => none

/-- The pending interests that may have an object, shorter names first. -/
def waiting (flow : Flow τ) (object : ContentObject) : List Candidate :=
  ((flow.pending.allMatches object.target).filterMap Entry.candidate?).filter fun candidate =>
    flow.inOrder candidate.interest object.name

def bestPending? (flow : Flow τ) (object : ContentObject) : Option Candidate :=
  Candidate.best? (flow.waiting object)

end Flow

end NamedContent
