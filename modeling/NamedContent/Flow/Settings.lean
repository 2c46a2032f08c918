import NamedContent.Flow.Config

/-! The stored form of a flow's settings.

Settings are stored by field name and may also be given as a sequence of values
in the order of the fields. A field left out, or beyond the end of a sequence,
has its standard value. An unknown field is passed over, but a value too many or
of the wrong kind makes the whole form unreadable. -/

set_option autoImplicit false

namespace NamedContent

/-- A stored value, as far as settings tell kinds apart. -/
inductive Setting where
  | null
  | bool (value : Bool)
  | number (value : Nat)
  | fields (entries : List (String × Setting))
  | sequence (values : List Setting)
  /-- Text and numbers that are negative or not whole. -/
  | other
  deriving Inhabited, Repr

namespace Setting

def field? (entries : List (String × Setting)) (label : String) : Option Setting :=
  (entries.find? (·.1 == label)).map (·.2)

/-- The fields of a record. The values of a sequence belong to the labels in
turn, so there may be fewer of them but not more. -/
def entries? (labels : List String) : Setting → Option (List (String × Setting))
  | .fields entries => some entries
  | .sequence values => if values.length ≤ labels.length then some (labels.zip values) else none
  | _ => none

def toBool? : Setting → Option Bool
  | .bool value => some value
  | _ => none

def toNumber? (bound : Nat) : Setting → Option Nat
  | .number value => if value < bound then some value else none
  | _ => none

def durationLabels : List String := ["secs", "nanos"]

/-- Seconds and nanoseconds, both present and nothing beside them. More
nanoseconds than a second has carry over. -/
def toDuration? (setting : Setting) : Option Duration :=
  match setting.entries? durationLabels with
  | some entries =>
    if entries.all (fun (label, _) => durationLabels.contains label) then
      match field? entries "secs", field? entries "nanos" with
      | some seconds, some nanos =>
        match seconds.toNumber? UInt64.size, nanos.toNumber? UInt32.size with
        | some seconds, some nanos => Duration.ofParts? seconds nanos
        | _, _ => none
      | _, _ => none
    else none
  | none => none

def toOptionalDuration? : Setting → Option (Option Duration)
  | .null => some none
  | setting => setting.toDuration?.map some

/-- The value of a field, or the standard one if the field is left out. -/
def read {α : Type} (entries : List (String × Setting)) (label : String) (decode : Setting → Option α)
    (standard : α) : Option α :=
  match field? entries label with
  | none => some standard
  | some setting => decode setting

def ofDuration (duration : Duration) : Setting :=
  .fields [("secs", .number duration.seconds.toNat), ("nanos", .number duration.nanos.val)]

end Setting

namespace FlowConfig

def labels : List String :=
  ["highwater", "put_wait", "drain_timeout", "interest_lifetime", "strict_segment_order", "strict_close"]

def ofSetting? (setting : Setting) : Option FlowConfig := do
  let entries ← setting.entries? labels
  let highwater ← Setting.read entries "highwater" (Setting.toNumber? UInt64.size) standard.highwater
  let putWait ← Setting.read entries "put_wait" Setting.toDuration? standard.putWait
  let drainTimeout ← Setting.read entries "drain_timeout" Setting.toDuration? standard.drainTimeout
  let interestLifetime ←
    Setting.read entries "interest_lifetime" Setting.toOptionalDuration? standard.interestLifetime
  let strictSegmentOrder ←
    Setting.read entries "strict_segment_order" Setting.toBool? standard.strictSegmentOrder
  let strictClose ← Setting.read entries "strict_close" Setting.toBool? standard.strictClose
  some { highwater, putWait, drainTimeout, interestLifetime, strictSegmentOrder, strictClose }

def toSetting (config : FlowConfig) : Setting :=
  .fields
    [("highwater", .number config.highwater),
     ("put_wait", .ofDuration config.putWait),
     ("drain_timeout", .ofDuration config.drainTimeout),
     ("interest_lifetime", (config.interestLifetime.map Setting.ofDuration).getD .null),
     ("strict_segment_order", .bool config.strictSegmentOrder),
     ("strict_close", .bool config.strictClose)]

end FlowConfig

end NamedContent
