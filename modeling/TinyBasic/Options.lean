/-!
# Options — the command line

Options are read from left to right, and each one changes the settings so far. The first fault
met ends the reading. An option may take the argument behind it as its value, whatever that
argument looks like.
-/

namespace TinyBasic

/-- What is done with each line. -/
inductive Mode where
  /-- The line is run. -/
  | eval
  /-- Its tree is shown. -/
  | tree
  /-- Its tokens are shown. -/
  | tokens
  deriving DecidableEq, Repr

/-- The settings of the program. -/
structure Options where
  mode : Mode := .eval
  /-- Whether small letters outside quotes are made capitals. -/
  upcase : Bool := true
  /-- What is shown before each line is read. -/
  prompt : Option String := some "> "
  /-- The lines to run, in place of lines that are read. -/
  lines : List String := []
  /-- Whether help is asked for. -/
  help : Bool := false
  deriving DecidableEq, Repr

/-- Why arguments were refused. -/
inductive OptionError where
  | missingValue (option : String)
  | unknownOption (argument : String)
  | conflictingModes
  deriving DecidableEq, Repr

/-- The text of the error. -/
def OptionError.message : OptionError → String
  | missingValue option => "missing value for `" ++ option ++ "`"
  | unknownOption argument => "unknown option `" ++ argument ++ "`"
  | conflictingModes => "`--tree` and `--tokens` cannot be combined"

/-- One option with its value. -/
inductive Setting where
  | mode (m : Mode)
  | raw
  | quiet
  | help
  | line (text : String)
  | prompt (text : String)
  deriving DecidableEq, Repr

namespace Setting

/-- What follows `lead` in an argument that begins with it. -/
def valueAfter? (lead argument : String) : Option String :=
  if lead.toList.isPrefixOf argument.toList then
    some (String.ofList (argument.toList.drop lead.length))
  else
    none

/-- The setting that an argument gives, and how many of the arguments behind it belong to it. -/
def ofArg (argument : String) (rest : List String) : Except OptionError (Setting × Nat) :=
  if argument = "--tree" then .ok (mode .tree, 0)
  else if argument = "--tokens" then .ok (mode .tokens, 0)
  else if argument = "--raw" then .ok (raw, 0)
  else if argument = "-q" ∨ argument = "--quiet" then .ok (quiet, 0)
  else if argument = "-h" ∨ argument = "--help" then .ok (help, 0)
  else if argument = "-e" then
    match rest with
    | text :: _ => .ok (line text, 1)
    | [] => .error (.missingValue argument)
  else
    -- these two carry their values themselves, which may be empty
    match valueAfter? "--eval=" argument, valueAfter? "--prompt=" argument with
    | some text, _ => .ok (line text, 0)
    | none, some text => .ok (prompt text, 0)
    | none, none => .error (.unknownOption argument)

end Setting

namespace Options

/-- The options after one more setting. A mode may be set again, but not changed for another. -/
def apply (o : Options) : Setting → Except OptionError Options
  | .mode m => if o.mode = .eval ∨ o.mode = m then .ok { o with mode := m } else .error .conflictingModes
  | .raw => .ok { o with upcase := false }
  | .quiet => .ok { o with prompt := none }
  | .help => .ok { o with help := true }
  | .line text => .ok { o with lines := o.lines ++ [text] }
  | .prompt text => .ok { o with prompt := some text }

/-- The options after the settings that the arguments give. -/
def read (o : Options) (args : List String) : Except OptionError Options :=
  match args with
  | [] => .ok o
  | argument :: rest => do
      let (setting, n) ← Setting.ofArg argument rest
      (← o.apply setting).read (rest.drop n)
termination_by args.length
decreasing_by
  simp only [List.length_drop, List.length_cons]
  omega

/-- The options that the arguments of the program give. -/
def ofArgs (args : List String) : Except OptionError Options :=
  read {} args

end Options
end TinyBasic
