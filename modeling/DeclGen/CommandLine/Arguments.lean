/-!
# Arguments

The words of a command line and what they ask for. Options may stand anywhere behind the name of
the command; those that every command has may also stand before it. Words behind `--` are inputs.

## Main definitions

* `Command`, `Request`: what is asked for
* `Draft`: the options read so far
* `Request.ofArguments`: reads a command line
-/

namespace DeclGen.CommandLine

/-- One of the two generators. -/
inductive Pipeline where
  | enumNames | cleanup
deriving DecidableEq, Repr, Inhabited

/-- What is done with the generated units. -/
inductive Action where
  /-- They are written to files in a directory. -/
  | write (directory : String)
  /-- They are printed. -/
  | print
  /-- They are counted. -/
  | check
deriving DecidableEq, Repr, Inhabited

structure Command where
  action : Action
  inputs : List String
  config : Option String
  only : Option Pipeline
  verbosity : Nat
  noColor : Bool
deriving DecidableEq, Repr, Inhabited

/-- What a command line asks for. -/
inductive Request where
  | run (command : Command)
  | version
  | help
  /-- It breaks the rules. -/
  | invalid
deriving DecidableEq, Repr, Inhabited

/-- Where a word stands: before the name of a command, or behind it. -/
inductive Place where
  | top | generate | check
deriving DecidableEq, Repr, Inhabited

inductive Switch where
  | verbose | noColor | print | help | version
deriving DecidableEq, Repr, Inhabited

inductive Setting where
  | output | config | only
deriving DecidableEq, Repr, Inhabited

inductive OptionKind where
  | switch (switch : Switch)
  | setting (setting : Setting)
deriving DecidableEq, Repr, Inhabited

/-- An option with its long and its short name. -/
structure OptionName where
  long : String
  short : Option Char
  kind : OptionKind
deriving DecidableEq, Repr, Inhabited

def Place.options (place : Place) : List OptionName :=
  let shared : List OptionName :=
    [⟨"verbose", some 'v', .switch .verbose⟩, ⟨"no-color", none, .switch .noColor⟩,
      ⟨"help", some 'h', .switch .help⟩]
  let reading : List OptionName :=
    [⟨"config", some 'c', .setting .config⟩, ⟨"only", none, .setting .only⟩]
  match place with
  | top => shared ++ [⟨"version", some 'V', .switch .version⟩]
  | generate =>
    shared ++ reading ++ [⟨"output", some 'o', .setting .output⟩, ⟨"stdout", none, .switch .print⟩]
  | check => shared ++ reading

def Place.short? (place : Place) (name : Char) : Option OptionKind :=
  (place.options.find? (·.short == some name)).map (·.kind)

def Place.long? (place : Place) (name : String) : Option OptionKind :=
  (place.options.find? (·.long == name)).map (·.kind)

/-- The options and inputs read so far. -/
structure Draft where
  verbosity : Nat := 0
  noColor : Bool := false
  print : Bool := false
  output : Option String := none
  config : Option String := none
  only : Option Pipeline := none
  inputs : List String := []
deriving DecidableEq, Repr, Inhabited

namespace Draft

/-- The draft with a switch turned on. Only `verbose` may be repeated. Two switches end the reading
with a request of their own. -/
def turnOn (d : Draft) : Switch → Except Request Draft
  | .verbose => .ok { d with verbosity := d.verbosity + 1 }
  | .noColor => if d.noColor then .error .invalid else .ok { d with noColor := true }
  | .print => if d.print then .error .invalid else .ok { d with print := true }
  | .help => .error .help
  | .version => .error .version

def pipeline? : String → Option Pipeline
  | "enum" => some .enumNames
  | "dispose" => some .cleanup
  | _ => none

/-- The draft with a value for an option that has none yet. Paths are not empty. -/
def set (d : Draft) (setting : Setting) (value : String) : Except Request Draft :=
  match setting, pipeline? value with
  | .output, _ =>
    if d.output.isSome || value.isEmpty then .error .invalid
    else .ok { d with output := some value }
  | .config, _ =>
    if d.config.isSome || value.isEmpty then .error .invalid
    else .ok { d with config := some value }
  | .only, none => .error .invalid
  | .only, some p => if d.only.isSome then .error .invalid else .ok { d with only := some p }

def addInputs (d : Draft) (paths : List String) : Except Request Draft :=
  if paths.any (·.isEmpty) then .error .invalid else .ok { d with inputs := d.inputs ++ paths }

end Draft

def isOperand (word : String) : Bool := word == "-" || word.toList.head? != some '-'

/-- The draft with a value for an option that takes the next word, which is used up then. -/
def Draft.setFromNext (d : Draft) (setting : Setting) (next : Option String) :
    Except Request (Draft × Bool) :=
  match next.filter isOperand with
  | some value => (d.set setting value).map (·, true)
  | none => .error .invalid

/-- Reads short options that are written together. A value may follow an option at once or behind
`=`. Tells whether the next word is used up. -/
def readShort (place : Place) (next : Option String) (d : Draft) :
    List Char → Except Request (Draft × Bool)
  | [] => .ok (d, false)
  | c :: cs =>
    match place.short? c with
    | none => .error .invalid
    | some (.switch switch) =>
      match d.turnOn switch with
      | .ok d' => readShort place next d' cs
      | .error stop => .error stop
    | some (.setting setting) =>
      match cs with
      | [] => d.setFromNext setting next
      | '=' :: value => (d.set setting (String.ofList value)).map (·, false)
      | value => (d.set setting (String.ofList value)).map (·, false)

/-- Reads a long option. Its value may follow behind `=`. Tells whether the next word is used up. -/
def readLong (place : Place) (next : Option String) (d : Draft) (text : List Char) :
    Except Request (Draft × Bool) :=
  let name := String.ofList (text.takeWhile (· != '='))
  let value := (text.dropWhile (· != '=')).tail?.map String.ofList
  match place.long? name, value with
  | none, _ => .error .invalid
  | some (.switch switch), none => (d.turnOn switch).map (·, false)
  | some (.switch _), some _ => .error .invalid
  | some (.setting setting), none => d.setFromNext setting next
  | some (.setting setting), some value => (d.set setting value).map (·, false)

/-- Reads a word that is an option. Tells whether the next word is used up. -/
def readOption (place : Place) (d : Draft) (word : String) (next : Option String) :
    Except Request (Draft × Bool) :=
  match word.toList with
  | '-' :: '-' :: text => readLong place next d text
  | _ :: cs => readShort place next d cs
  | [] => .error .invalid

def readBehind (place : Place) (d : Draft) : List String → Except Request Draft
  | [] => .ok d
  | word :: words =>
    if word == "--" then d.addInputs words
    else if isOperand word then
      match d.addInputs [word] with
      | .ok d' => readBehind place d' words
      | .error stop => .error stop
    else
      match readOption place d word words.head? with
      | .ok (d', isNextUsed) => readBehind place d' (if isNextUsed then words.drop 1 else words)
      | .error stop => .error stop
termination_by words => words.length
decreasing_by
  · simp
  · split
    · simp only [List.length_drop, List.length_cons]
      omega
    · exact Nat.lt_succ_self _

/-- The command that a draft asks for, where `before` was read before its name. -/
def Draft.command (before d : Draft) (action : Action) : Request :=
  if d.inputs.isEmpty then .invalid
  else
    .run
      { action
        inputs := d.inputs
        config := d.config
        only := d.only
        verbosity := if d.verbosity == 0 then before.verbosity else d.verbosity
        noColor := before.noColor || d.noColor }

def Draft.generateAction (d : Draft) : Action :=
  if d.print then .print else .write (d.output.getD "Generated")

/-- What the name of a command and the words behind it ask for. -/
def readCommand (before : Draft) (name : String) (words : List String) : Request :=
  match name with
  | "generate" =>
    match readBehind .generate {} words with
    | .ok d => before.command d d.generateAction
    | .error stop => stop
  | "check" =>
    match readBehind .check {} words with
    | .ok d => before.command d .check
    | .error stop => stop
  | "help" =>
    match words with
    | [] => .help
    | [topic] => if ["generate", "check", "help"].contains topic then .help else .invalid
    | _ => .invalid
  | _ => .invalid

/-- Reads a command line behind the options `before`. -/
def readTop (before : Draft) : List String → Request
  | [] => .invalid
  | word :: words =>
    if isOperand word then readCommand before word words
    else if word == "--" then .invalid
    else
      match readOption .top before word none with
      | .ok (d, _) => readTop d words
      | .error stop => stop

def Request.ofArguments (words : List String) : Request := readTop {} words

end DeclGen.CommandLine
