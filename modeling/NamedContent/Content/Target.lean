import NamedContent.Content.Object

/-! What an interest is matched against. -/

set_option autoImplicit false

namespace NamedContent

/-- A name and what is known about the content that carries it. -/
structure Target where
  name : Name
  publisher : Option Publisher
  digest : Option Digest
  deriving DecidableEq, Repr

namespace Target

def ofName (name : Name) : Target := ⟨name, none, none⟩

/-- The components of the name, then the implicit digest component if it is known. -/
def path (target : Target) : List Component :=
  match target.digest with
  | some digest => target.name.components ++ [⟨digest.toList⟩]
  | none => target.name.components

end Target

def ContentObject.target (object : ContentObject) : Target :=
  ⟨object.name, object.publisher, some object.digest⟩

end NamedContent
