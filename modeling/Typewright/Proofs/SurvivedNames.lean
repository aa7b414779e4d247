import Typewright.Proofs.GoRoot
import Typewright.Proofs.OneLineNames
import Typewright.Proofs.TypeSpellings
import Typewright.Proofs.WireFields
import Typewright.Proofs.WithoutReferences

/-!
# Names that generation survives

Python and C# find a name for every property; Go and TypeScript find none where a word of a name is empty.
-/

namespace Typewright

open RefM Naming

variable {v w : Value} {name : String} {es : Entries} {r : Request} {s s' : RefState} {α β : Type}
  {text : String}

namespace Naming

def Worded (name : String) : Prop :=
  [] ∉ Text.splitChars '_' name.toList

theorem nil_notMem_humpWords (cs : List Char) : [] ∉ humpWords cs := by
  fun_induction humpWords cs <;> simp_all

/-- The words that a name is cut into. -/
def fieldPieces (name : String) : List (List Char) :=
  if '_' ∈ name.toList then Text.splitChars '_' name.toList else humpWords name.toList

theorem fieldName_str (name : String) : fieldName (.str name) =
    (do return Text.join "" (← ((fieldPieces name).map String.ofList).mapM fieldWord)) := by
  have hmark : Text.contains name "_" = decide ('_' ∈ name.toList) := by
    rw [Bool.eq_iff_iff, Text.contains_iff, decide_eq_true_iff]
    exact List.singleton_infix_iff '_' name.toList
  show (do
    let words ← if Text.contains name "_" then pure (Text.split '_' name) else pure ((humpWords name.toList).map String.ofList)
    return Text.join "" (← words.mapM fieldWord)) = _
  rw [hmark]
  unfold fieldPieces
  by_cases h : '_' ∈ name.toList
  · rw [decide_eq_true h, if_pos h]
    rfl
  · rw [decide_eq_false h, if_neg h]
    rfl

end Naming

/-! ## Names that end a run -/

namespace Generate

def crate : Value :=
  .map [("type", "object"), ("properties", .map [("weight", .map [])])]

def parcel : Request where
  files := Reference.textFiles []
  file := some "parcel.json"
  schema := .map [("title", "Parcel"), ("properties", .map [("load__unit", crate)])]
  stamp := "now"

end Generate

end Typewright
