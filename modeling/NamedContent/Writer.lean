import NamedContent.Bytes.Chunks
import NamedContent.Controller.Basic

/-! Publishing content through a controller, cut into numbered segments. -/

set_option autoImplicit false

namespace NamedContent

/-- How content is cut and what every segment is signed with. -/
structure Writer where
  segmentSize : Nat
  publisher : Option Publisher
  freshness : Option Duration
  deriving DecidableEq, Repr

namespace Writer

def standard : Writer := ⟨4096, none, none⟩

/-- A size of zero counts as one. -/
def withSegmentSize (writer : Writer) (size : Nat) : Writer := { writer with segmentSize := max size 1 }

def segment (writer : Writer) (stream : Name) (number : UInt64) (content : List UInt8) : ContentObject :=
  let (object, hasher) := ContentObject.withHasher (stream.segment number) writer.publisher content .new
  match writer.freshness with
  | some freshness => (object.withFreshness freshness hasher).1
  | none => object

/-- The contents of the segments; empty content has one, empty segment. -/
def cut (writer : Writer) (content : List UInt8) : List (List UInt8) :=
  if content.isEmpty then [[]] else chunks writer.segmentSize content

variable {τ : Type} [Transport τ]

/-- Puts segments in turn from a number on, up to the first failure. Answers the
number after the last. Between two segments the clock stands still unless a put
waits. That makes no difference to a flow that nobody has asked anything, where
a put comes to the same at any time. -/
def putSegments (writer : Writer) (stream : Name) (number : UInt64) :
    List (List UInt8) → Controller τ → Except Failure UInt64 × Controller τ
  | [], controller => (.ok number, controller)
  | chunk :: rest, controller =>
    match controller.put (writer.segment stream number chunk) with
    | (.error failure, controller) => (.error failure, controller)
    | (.ok _, controller) => writer.putSegments stream (number + 1) rest controller

/-- Publishes content as the segments of a stream, numbered from zero. Answers
how many there are. -/
def put (writer : Writer) (stream : Name) (content : List UInt8) (controller : Controller τ) :
    Except Failure UInt64 × Controller τ :=
  writer.putSegments stream 0 (writer.cut content) controller

/-- Publishes content under a version of a name, stamped with the controller's
time. Answers the version's name. -/
def putVersion (writer : Writer) (name : Name) (content : List UInt8) (controller : Controller τ) :
    Except Failure Name × Controller τ :=
  let versioned := name.version controller.now
  match writer.put versioned content controller with
  | (.error failure, controller) => (.error failure, controller)
  | (.ok _, controller) => (.ok versioned, controller)

end Writer

end NamedContent
