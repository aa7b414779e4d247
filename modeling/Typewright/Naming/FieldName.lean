import Typewright.Naming.Words

/-!
# Field names with acronyms

The exported name of a Go field: the words of the property name, each raised, with common acronyms in capitals.
-/

namespace Typewright.Naming

def acronyms : List (String × String) :=
  [("id", "ID"), ("url", "URL"), ("uri", "URI"), ("api", "API"), ("ui", "UI"), ("uid", "UID"),
    ("uuid", "UUID"), ("http", "HTTP"), ("https", "HTTPS"), ("html", "HTML"), ("css", "CSS"),
    ("json", "JSON"), ("xml", "XML"), ("yaml", "YAML"), ("sql", "SQL"), ("db", "DB"), ("ip", "IP"),
    ("tcp", "TCP"), ("udp", "UDP")]

def atEnd : List Char → Bool
  | [] => true
  | ['\n'] => true
  | _ => false

/-- The words of a name without underscores: a run of small letters and digits with the capital
before it, if any, or a run of capitals. A run of capitals reaches to the end of the name or leaves
its last capital to what follows. Other characters are left out. -/
def humpWords (s : List Char) : List (List Char) :=
  match s with
  | [] => []
  | c :: rest =>
    if isSmallOrDigit c then
      (c :: rest.takeWhile isSmallOrDigit) :: humpWords (rest.dropWhile isSmallOrDigit)
    else if isCapital c then
      if rest.head?.any isSmallOrDigit then
        (c :: rest.takeWhile isSmallOrDigit) :: humpWords (rest.dropWhile isSmallOrDigit)
      else
        let more := rest.takeWhile isCapital
        let after := rest.dropWhile isCapital
        if atEnd after then (c :: more) :: humpWords after
        else if more.isEmpty then humpWords rest
        else (c :: more.dropLast) :: humpWords (more.getLast?.toList ++ after)
    else humpWords rest
termination_by s.length
decreasing_by
  · have := (List.dropWhile_sublist (p := isSmallOrDigit) (l := rest)).length_le
    simp only [List.length_cons]
    omega
  · have := (List.dropWhile_sublist (p := isSmallOrDigit) (l := rest)).length_le
    simp only [List.length_cons]
    omega
  · have := (List.dropWhile_sublist (p := isCapital) (l := rest)).length_le
    simp only [List.length_cons]
    omega
  · simp
  · rename_i hmore
    have hsplit : (rest.takeWhile isCapital).length + (rest.dropWhile isCapital).length =
        rest.length := by
      rw [← List.length_append, List.takeWhile_append_dropWhile]
    have hpos : 0 < (rest.takeWhile isCapital).length := by
      cases h : rest.takeWhile isCapital with
      | nil => exact absurd (List.isEmpty_iff.mpr h) hmore
      | cons _ _ => simp
    have hlast : ((rest.takeWhile isCapital).getLast?.toList).length ≤ 1 := by
      cases (rest.takeWhile isCapital).getLast? <;> simp
    simp only [List.length_append, List.length_cons]
    omega
  · simp

def fieldWord (word : String) : Except Fault String :=
  match acronyms.find? (·.1 == Text.lower word) with
  | some (_, capitals) => .ok capitals
  | none => if word.isEmpty then .error (.outOfRange .str) else .ok (Text.upperFirst word)

def fieldName (name : Value) : Except Fault String := do
  let words ←
    if ← name.has "_" then
      pure (Text.split '_' (← name.textFor "split"))
    else
      pure ((humpWords (← name.matchable).toList).map String.ofList)
  return Text.join "" (← words.mapM fieldWord)

end Typewright.Naming
