import Typewright.Text.Quoted

/-!
# Arguments of the command line

Options and one path. A long option may be cut short as long as it is the only one with that
beginning, its value may follow an equals sign, and the value of a short option may follow it
directly. After `--` nothing is an option.
-/

namespace Typewright.Cli

inductive Switch where
  | help | version | language | output | mode | noCreate | noOverwrite | package | namespaceName
  | noPydantic | goPackage
deriving DecidableEq, Repr

def spellings : List (String × Switch) :=
  [("-h", .help), ("--help", .help), ("--version", .version), ("--language", .language),
    ("-l", .language), ("--output", .output), ("-o", .output), ("--mode", .mode),
    ("--no-create", .noCreate), ("--no-overwrite", .noOverwrite), ("--package", .package),
    ("--namespace", .namespaceName), ("--no-pydantic", .noPydantic), ("--go-package", .goPackage)]

namespace Switch

def ofSpelling? (spelling : String) : Option Switch :=
  (spellings.find? (·.1 == spelling)).map (·.2)

def name (s : Switch) : String :=
  Text.join "/" ((spellings.filter (·.2 == s)).map (·.1))

def hasValue : Switch → Bool
  | .help | .version | .noCreate | .noOverwrite | .noPydantic => false
  | _ => true

/-- The values that an option may have; any, if there are none. -/
def choices : Switch → List String
  | .language => ["go", "python", "typescript", "csharp", "dotnet", "proto", "protobuf"]
  | .mode => ["create", "append"]
  | _ => []

end Switch

inductive ArgumentFault where
  | ambiguous (argument : String) (matching : List String)
  | valueMissing (switch : Switch)
  | valueUnwanted (switch : Switch) (value : String)
  | notAChoice (switch : Switch) (value : String)
  | required (names : List String)
  | unrecognized (arguments : List String)
deriving DecidableEq, Repr

def ArgumentFault.message : ArgumentFault → String
  | .ambiguous argument matching =>
    "ambiguous option: " ++ argument ++ " could match " ++ Text.join ", " matching
  | .valueMissing s => "argument " ++ s.name ++ ": expected one argument"
  | .valueUnwanted s value =>
    "argument " ++ s.name ++ ": ignored explicit argument " ++ Text.quote value
  | .notAChoice s value =>
    "argument " ++ s.name ++ ": invalid choice: " ++ Text.quote value ++ " (choose from " ++
      Text.join ", " (s.choices.map Text.quote) ++ ")"
  | .required names => "the following arguments are required: " ++ Text.join ", " names
  | .unrecognized arguments => "unrecognized arguments: " ++ Text.join " " arguments

/-- An argument by its look: a plain one, the mark `--`, an option with the value that is written with
it, or an option that is not known. A value is `joined` if it follows a one-letter option directly. -/
inductive Item where
  | plain (text : String)
  | mark
  | switch (switch : Switch) (joined : Bool) (value : Option String)
  | unknown (text : String)
deriving DecidableEq, Repr

def splitEquals (s : String) : Option (String × String) :=
  let cs := s.toList
  if cs.contains '=' then
    some (String.ofList (cs.takeWhile (· != '=')),
      String.ofList ((cs.dropWhile (· != '=')).drop 1))
  else none

/-- Whether an argument looks like a negative number; a line may end after it. -/
def isNegativeNumber (s : String) : Bool :=
  match s.toList with
  | '-' :: digits =>
    let whole := digits.takeWhile Text.isDecimal
    match digits.dropWhile Text.isDecimal with
    | [] | ['\n'] => !whole.isEmpty
    | '.' :: fraction =>
      !(fraction.takeWhile Text.isDecimal).isEmpty &&
        [[], ['\n']].contains (fraction.dropWhile Text.isDecimal)
    | _ => false
  | _ => false

def candidates (argument : String) : List (String × Item) :=
  if Text.startsWith argument "--" then
    let (start, value) :=
      match splitEquals argument with
      | some (start, value) => (start, some value)
      | none => (argument, none)
    spellings.filterMap fun (spelling, s) =>
      if Text.startsWith spelling start then some (spelling, .switch s false value) else none
  else
    let letter := String.ofList (argument.toList.take 2)
    spellings.filterMap fun (spelling, s) =>
      if spelling = letter then some (spelling, .switch s true (some (Text.dropFirst 2 argument)))
      else if Text.startsWith spelling argument then some (spelling, .switch s false none)
      else none

def exactSwitch (argument : String) : Option Item :=
  match Switch.ofSpelling? argument with
  | some s => some (.switch s false none)
  | none => do
    let (spelling, value) ← splitEquals argument
    let s ← Switch.ofSpelling? spelling
    return .switch s false (some value)

def classify (argument : String) : Except ArgumentFault Item :=
  if !Text.startsWith argument "-" then .ok (.plain argument)
  else
    match exactSwitch argument with
    | some item => .ok item
    | none =>
      if argument = "-" then .ok (.plain argument)
      else
        match candidates argument with
        | [(_, item)] => .ok item
        | [] =>
          if isNegativeNumber argument || argument.contains ' ' then .ok (.plain argument)
          else .ok (.unknown argument)
        | several => .error (.ambiguous argument (several.map (·.1)))

def items : List String → Except ArgumentFault (List Item)
  | [] => return []
  | argument :: rest => do
    if argument = "--" then return .mark :: rest.map .plain
    let first ← classify argument
    return first :: (← items rest)

structure Settings where
  schemaFile : Option String := none
  language : Option String := none
  output : Option String := none
  mode : String := "create"
  noCreate : Bool := false
  noOverwrite : Bool := false
  package : String := "main"
  namespaceName : String := "SchemaTypes"
  noPydantic : Bool := false
  goPackage : Option String := none
deriving DecidableEq, Repr

inductive Stop where
  | help
  | version
  | fault (cause : ArgumentFault)
deriving DecidableEq, Repr

def Settings.take (s : Settings) (switch : Switch) (value : String) : Except Stop Settings :=
  if !switch.choices.isEmpty && !switch.choices.contains value then
    .error (.fault (.notAChoice switch value))
  else
    match switch with
    | .help => .error .help
    | .version => .error .version
    | .language => .ok { s with language := some value }
    | .output => .ok { s with output := some value }
    | .mode => .ok { s with mode := value }
    | .noCreate => .ok { s with noCreate := true }
    | .noOverwrite => .ok { s with noOverwrite := true }
    | .package => .ok { s with package := value }
    | .namespaceName => .ok { s with namespaceName := value }
    | .noPydantic => .ok { s with noPydantic := true }
    | .goPackage => .ok { s with goPackage := some value }

/-- The options that are written together in one argument, each with its value, and the arguments that are left. -/
def unfoldSwitch (switch : Switch) (joined : Bool) (value : Option (List Char)) (rest : List Item) :
    Except ArgumentFault (List (Switch × String) × List Item) :=
  match value with
  | none =>
    if !switch.hasValue then .ok ([(switch, "")], rest)
    else
      match rest with
      | .plain text :: rest => .ok ([(switch, text)], rest)
      | _ => .error (.valueMissing switch)
  | some value =>
    if switch.hasValue then .ok ([(switch, String.ofList value)], rest)
    else
      match value with
      | [] => .error (.valueUnwanted switch "")
      | c :: more =>
        if !joined || c == '-' then .error (.valueUnwanted switch (String.ofList value))
        else
          match Switch.ofSpelling? (String.ofList ['-', c]) with
          | none => .ok ([(switch, "")], rest)
          | some next => do
            let (others, rest) ←
              match more with
              | [] => unfoldSwitch next false none rest
              | '=' :: value => unfoldSwitch next false (some value) rest
              | more => unfoldSwitch next true (some more) rest
            return ((switch, "") :: others, rest)
termination_by (value.map (·.length + 1)).getD 0
decreasing_by
  all_goals simp

def Settings.takeAll (s : Settings) : List (Switch × String) → Except Stop Settings
  | [] => .ok s
  | (switch, value) :: rest => do (← s.take switch value).takeAll rest

/-- The path at the beginning of the arguments, a mark before or after it left out, and what is
left. -/
def leadingPath : List Item → Option (String × List Item)
  | .mark :: .plain text :: rest => some (text, rest)
  | .plain text :: .mark :: rest => some (text, rest)
  | .plain text :: rest => some (text, rest)
  | _ => none

def Item.text : Item → String
  | .plain text => text
  | .unknown text => text
  | _ => "--"

/-- Reads arguments. Those that have no use are collected. -/
def read (fuel : Nat) (s : Settings) (extras : List String) (rest : List Item) :
    Except Stop (Settings × List String) :=
  match fuel with
  | 0 => .ok (s, extras)
  | fuel + 1 =>
    match rest with
    | [] => .ok (s, extras)
    | .unknown text :: rest => read fuel s (extras ++ [text]) rest
    | .switch switch joined value :: rest =>
      match unfoldSwitch switch joined (value.map String.toList) rest with
      | .error e => .error (.fault e)
      | .ok (switches, rest) => do read fuel (← s.takeAll switches) extras rest
    | item :: more =>
      match s.schemaFile, leadingPath (item :: more) with
      | none, some (path, rest) => read fuel { s with schemaFile := some path } extras rest
      | _, _ => read fuel s (extras ++ [item.text]) more

def Settings.missing (s : Settings) : List String :=
  (if s.schemaFile.isNone then ["schema_file"] else []) ++
    (if s.language.isNone then [Switch.language.name] else []) ++
    (if s.output.isNone then [Switch.output.name] else [])

structure Arguments where
  schemaFile : String
  language : String
  output : String
  settings : Settings
deriving DecidableEq, Repr

def arguments (argv : List String) : Except Stop Arguments := do
  let items ← (items argv).mapError Stop.fault
  let (s, extras) ← read items.length {} [] items
  match s.schemaFile, s.language, s.output with
  | some schemaFile, some language, some output =>
    if extras.isEmpty then return ⟨schemaFile, language, output, s⟩
    throw (.fault (.unrecognized extras))
  | _, _, _ => throw (.fault (.required s.missing))

end Typewright.Cli
