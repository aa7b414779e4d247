import Typewright.Reference.Resolve

/-!
# Walking over references

Goes over the references on the properties of a schema, on the items of its array properties and on its definitions,
also in the objects inside it.
-/

namespace Typewright.Reference

/-- What is done at references, with a value that is handed on from one to the next. -/
structure Visitor (σ : Type) where
  onProperty : σ → Value → RefM σ
  onItem : σ → Value → RefM σ
  /-- What is done at definitions, if they are gone over. -/
  onDefinition : Option (σ → Value → RefM σ) := none

/-- Goes over the references of properties in order. The objects inside are left to `next`. -/
def walkProperties {σ : Type} (visitor : Visitor σ) (owner : Value) (next : σ → Below owner → RefM σ)
    (s : σ) : List (Scalar × Below owner) → RefM σ
  | [] => return s
  | (_, ⟨property, below⟩) :: rest => do
    let s ←
      if ← property.has "$ref" then visitor.onProperty s (← property.field "$ref") else pure s
    let type := (← property.field? "type").getD .null
    let s ←
      if type.isStr "array" then
        match ← property.part? "items" with
        | none => pure s
        | some ⟨items, inside⟩ =>
          if items.isMapWith "$ref" then visitor.onItem s (← items.field "$ref")
          else if items.isMapWith "properties" then next s ⟨items, Nat.lt_trans inside below⟩
          else pure s
      else pure s
    let s ←
      if type.isStr "object" && property.isMapWith "properties" then next s ⟨property, below⟩
      else pure s
    walkProperties visitor owner next s rest

/-- Goes over the references of definitions in order. The definitions that are none are left to `next`. -/
def walkDefinitions {σ : Type} (onDefinition : σ → Value → RefM σ) (owner : Value)
    (next : σ → Below owner → RefM σ) (s : σ) : List (Below owner) → RefM σ
  | [] => return s
  | ⟨definition, below⟩ :: rest => do
    let s ←
      if ← definition.has "$ref" then onDefinition s (← definition.field "$ref")
      else if definition.isMap then next s ⟨definition, below⟩
      else pure s
    walkDefinitions onDefinition owner next s rest

def walk {σ : Type} (visitor : Visitor σ) (s : σ) (schema : Value) : RefM σ := do
  let s ←
    match ← schema.part? "properties" with
    | none => pure s
    | some ⟨properties, _⟩ =>
      walkProperties visitor properties (fun s ⟨inner, _⟩ => walk visitor s inner) s
        (← properties.entriesBelow)
  match visitor.onDefinition with
  | none => return s
  | some onDefinition =>
    match ← schema.part? "definitions" with
    | none => return s
    | some ⟨definitions, _⟩ =>
      walkDefinitions onDefinition definitions (fun s ⟨inner, _⟩ => walk visitor s inner) s
        (← definitions.valuesBelow)
termination_by schema.depth

end Typewright.Reference
