/-! Options on a command line. A valued option stands as `--name value` or `--name=value`, a switch as
`--name` or by its letter; each at most once. Nothing else may stand among them, but a closing `--`. -/

namespace LinkPriority

/-- The options a command knows. -/
structure OptionNames where
  valued : List String
  /-- The switches, each with its letter. -/
  switches : List (String × Char)

/-- The options given: values under the names of their options, and switches by their names. -/
structure Options where
  values : List (String × String) := []
  switches : List String := []
deriving DecidableEq

namespace Options

def value? (o : Options) (name : String) : Option String := o.values.lookup name

def hasSwitch (o : Options) (name : String) : Bool := o.switches.contains name

/-- Adds a value, unless there is one already. -/
def addValue (o : Options) (name value : String) : Option Options :=
  if (o.value? name).isSome then none else some { o with values := (name, value) :: o.values }

/-- Adds a switch, unless it is set already. -/
def addSwitch (o : Options) (name : String) : Option Options :=
  if o.hasSwitch name then none else some { o with switches := name :: o.switches }

/-- Whether an argument can be the value of an option before it: it must not look like an option itself. -/
def canBeValue (argument : String) : Bool :=
  match argument.toList with
  | '-' :: _ :: _ => false
  | _ => true

/-- An argument taken apart: the name of an option with a value behind an equals sign if there is one, the
letter of a switch, or anything else. -/
inductive Shape where
  | long (name : String) (value : Option String)
  | letter (c : Char)
  | closing
  | other

def Shape.ofArgument (argument : String) : Shape :=
  match argument.toList with
  | ['-', '-'] => .closing
  | '-' :: '-' :: rest =>
    let name := String.ofList (rest.takeWhile (· != '='))
    match rest.dropWhile (· != '=') with
    | '=' :: value => .long name (some (String.ofList value))
    | _ => .long name none
  | ['-', c] => .letter c
  | _ => .other

/-- Reads arguments into options; nothing if they are not understood. -/
def parse (names : OptionNames) (o : Options) : List String → Option Options
  | [] => some o
  | argument :: rest =>
    match Shape.ofArgument argument with
    | .closing => if rest.isEmpty then some o else none
    | .long name (some value) =>
      if name ∈ names.valued then (o.addValue name value).bind fun o => parse names o rest else none
    | .long name none =>
      if name ∈ names.valued then
        match rest with
        | value :: rest =>
          if canBeValue value then (o.addValue name value).bind fun o => parse names o rest else none
        | [] => none
      else if name ∈ names.switches.map Prod.fst then (o.addSwitch name).bind fun o => parse names o rest
      else none
    | .letter c =>
      match names.switches.find? fun (_, letter) => letter = c with
      | some (name, _) => (o.addSwitch name).bind fun o => parse names o rest
      | none => none
    | .other => none

end Options

end LinkPriority
