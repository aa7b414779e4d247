import Typewright.Generate
import Typewright.Proofs.Following

/-!
# Questions fail for the kind of a value

What is asked of a schema while types are generated fails only because a value is of the wrong kind, or lacks a part.
-/

namespace Typewright

namespace FailsWith

variable {α β : Type}

instance misuse (cause : Misuse) : FailsWith KindFault (.error (.misuse cause) : Except Fault α) :=
  ⟨by rintro e ⟨⟩; rfl⟩

instance missingKey (key : Scalar) : FailsWith KindFault (.error (.missingKey key) : Except Fault α) :=
  ⟨by rintro e ⟨⟩; rfl⟩

instance missingMember (kind : Kind) (member : String) :
    FailsWith KindFault (.error (.missingMember kind member) : Except Fault α) :=
  ⟨by rintro e ⟨⟩; rfl⟩

instance outOfRange (kind : Kind) : FailsWith KindFault (.error (.outOfRange kind) : Except Fault α) :=
  ⟨by rintro e ⟨⟩; rfl⟩

instance thrown {e : Fault} [h : FailsWith KindFault (.error e : Except Fault α)] :
    FailsWith KindFault (throw e : Except Fault α) :=
  h

end FailsWith

/-! ## Parts of values -/

namespace Value

instance (v : Value) (x : Scalar) : FailsWith KindFault (v.holds x) := by
  unfold holds
  repeat' split
  all_goals infer_instance

instance (v : Value) (name : String) : FailsWith KindFault (v.has name) := by
  unfold has
  infer_instance

instance (v : Value) (name : String) : FailsWith KindFault (v.part name) := by
  unfold part
  repeat' split
  all_goals infer_instance

instance (v : Value) (name : String) : FailsWith KindFault (v.part? name) := by
  unfold part?
  repeat' split
  all_goals infer_instance

instance (v : Value) (name : String) : FailsWith KindFault (v.field name) := by
  unfold field
  infer_instance

instance (v : Value) (name : String) : FailsWith KindFault (v.field? name) := by
  unfold field?
  infer_instance

instance (v : Value) (name : String) (default : Value) : FailsWith KindFault (v.fieldD name default) := by
  unfold fieldD
  infer_instance

instance (v : Value) : FailsWith KindFault v.entries := by
  unfold entries
  split <;> infer_instance

instance (v : Value) : FailsWith KindFault v.entriesBelow := by
  unfold entriesBelow
  split <;> infer_instance

instance (v : Value) : FailsWith KindFault v.valuesBelow := by
  unfold valuesBelow
  split <;> infer_instance

instance (v : Value) (name : String) : FailsWith KindFault (v.entriesAt name) := by
  unfold entriesAt
  infer_instance

instance (v : Value) : FailsWith KindFault v.items := by
  unfold items
  split <;> infer_instance

instance (v : Value) : FailsWith KindFault v.itemsWithin where
  fault e h := by
    unfold itemsWithin at h
    split at h
    · cases h
    · next hitems =>
      cases h
      exact FailsWith.fault e hitems

instance (pick : List Value → Option Value) (v : Value) (kind : Kind) :
    FailsWith KindFault (itemAt.pickFrom pick v kind) := by
  unfold itemAt.pickFrom
  refine FailsWith.of_step fun items => ?_
  split <;> infer_instance

instance (pick : List Value → Option Value) (v : Value) (index : Int) :
    FailsWith KindFault (v.itemAt pick index) := by
  unfold itemAt
  repeat' split
  all_goals infer_instance

instance (v : Value) : FailsWith KindFault v.last where
  fault e h := by
    unfold last at h
    split at h
    · cases h
    · next hitem =>
      cases h
      exact FailsWith.fault e hitem

instance (v : Value) (title : Scalar) : FailsWith KindFault (v.withTitle title) := by
  unfold withTitle
  split <;> infer_instance

end Value

/-! ## Texts -/

namespace Scalar

instance (s : Scalar) : FailsWith KindFault s.replaceable := by
  unfold replaceable
  split <;> infer_instance

instance (operation : String) (s : Scalar) : FailsWith KindFault (s.textFor operation) := by
  unfold textFor
  split <;> infer_instance

instance (s : Scalar) : FailsWith KindFault s.matchable := by
  unfold matchable
  split <;> infer_instance

instance (s : Scalar) (pat : String) : FailsWith KindFault (s.startsWith pat) := by
  unfold startsWith
  split <;> infer_instance

end Scalar

namespace Value

instance (v : Value) : FailsWith KindFault v.replaceable := by
  unfold replaceable
  split <;> infer_instance

instance (v : Value) : FailsWith KindFault v.withoutBlanks := by
  unfold withoutBlanks
  infer_instance

instance (operation : String) (v : Value) : FailsWith KindFault (v.textFor operation) := by
  unfold textFor
  split <;> infer_instance

instance (v : Value) : FailsWith KindFault v.matchable := by
  unfold matchable
  split <;> infer_instance

instance (v : Value) (pat : String) : FailsWith KindFault (v.startsWith pat) := by
  unfold startsWith
  split <;> infer_instance

instance (v : Value) : FailsWith KindFault v.title := by
  unfold title
  infer_instance

instance (v : Value) : FailsWith KindFault v.titleOrRoot := by
  unfold titleOrRoot
  infer_instance

end Value

/-! ## Names -/

namespace Naming

instance (name : String) : FailsWith KindFault (raisedWords name) := by
  have hword : ∀ word : List Char, FailsWith KindFault
      (match word with
        | [] => .error (.outOfRange .str)
        | word => .ok (Text.upperFirstChars word) : Except Fault (List Char)) := by
    intro word
    split <;> infer_instance
  unfold raisedWords
  infer_instance

instance (v : Value) : FailsWith KindFault (pascalOf v) := by
  unfold pascalOf
  infer_instance

instance (v : Value) : FailsWith KindFault (capitalWordsOf v) := by
  unfold capitalWordsOf
  infer_instance

instance (v : Value) : FailsWith KindFault (raisedWordsOf v) := by
  unfold raisedWordsOf
  infer_instance

instance (xs : List Value) (i : Int) : FailsWith KindFault (itemAtPlace xs i) := by
  unfold itemAtPlace
  dsimp only
  repeat' split
  all_goals infer_instance

instance (table value : Value) (i : Int) : FailsWith KindFault (besideValue table value i) := by
  unfold besideValue
  split <;> infer_instance

instance (title name : Value) : FailsWith KindFault (dropTitle title name) := by
  unfold dropTitle
  repeat' split
  all_goals infer_instance

instance (names value : Value) (i : Int) (title : Value) :
    FailsWith KindFault (memberName names value i title) := by
  unfold memberName
  infer_instance

instance (descriptions value : Value) (i : Int) :
    FailsWith KindFault (memberDescription descriptions value i) := by
  unfold memberDescription
  infer_instance

instance (typeName : String) (names value : Value) (i : Int) :
    FailsWith KindFault (constantName typeName names value i) := by
  unfold constantName
  infer_instance

instance (word : String) : FailsWith KindFault (fieldWord word) := by
  unfold fieldWord
  repeat' split
  all_goals infer_instance

instance (name : Value) : FailsWith KindFault (fieldName name) := by
  unfold fieldName
  infer_instance

end Naming

/-! ## References -/

namespace Reference

instance (ref : Value) : FailsWith KindFault (textOf ref) := by
  unfold textOf
  split <;> infer_instance

instance (schema : Value) : FailsWith KindFault (isFileRef schema) := by
  unfold isFileRef
  infer_instance

end Reference

end Typewright
