import TORdex.Core.Json
import TORdex.Lib.Utf8

/-! What processors return. -/

namespace TORdex

/-- The errors of a processor. -/
inductive ProcessorError where
  | unsupportedContent (message : String)
  | processingFailed (message : String)
  | invalidInput (message : String)
  | notImplemented (message : String)
  deriving DecidableEq

/-- An artifact that a processor makes. -/
structure DerivedArtifact where
  kind : String
  data : List UInt8
  contentType : String
  metadata : HashMap String String

/-- An observation with its metadata and the artifacts made of it. -/
structure ProcessedObservation where
  id : String
  kind : String
  data : List UInt8
  contentType : String
  metadata : HashMap String String
  derived : List DerivedArtifact

namespace ProcessedObservation

/-- Without metadata and artifacts. -/
def new (id kind : String) (data : List UInt8) (contentType : String) : ProcessedObservation :=
  ⟨id, kind, data, contentType, ∅, []⟩

/-- Add an entry to the metadata. -/
def withMetadata (o : ProcessedObservation) (key value : String) : ProcessedObservation :=
  { o with metadata := o.metadata.insert key value }

end ProcessedObservation

/-! ## Texts as bytes -/

/-- `as_bytes().to_vec()` and `into_bytes()`. -/
def textBytes (s : String) : List UInt8 := Utf8.bytes s.toList

theorem textBytes_injective : Function.Injective textBytes :=
  fun _ _ same => String.toList_inj.1 (Utf8.bytes_injective same)

/-- `str::from_utf8`. -/
def fromUtf8 (data : List UInt8) : Option String := String.fromUTF8? data.toByteArray

theorem fromUtf8_textBytes (s : String) : fromUtf8 (textBytes s) = some s := by
  have encoded : (textBytes s).toByteArray = s.toByteArray := String.utf8Encode_toList
  rw [fromUtf8, encoded]
  exact dif_pos s.isValidUTF8

end TORdex
