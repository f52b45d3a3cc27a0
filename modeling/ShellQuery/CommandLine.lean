/-!
# The arguments of the program

Options may stand anywhere between the command lines, until a double dash ends them. An option that
takes a value takes it from the same argument or from the next one, unless that begins with a dash.
Such an option counts only when the next option or command line turns up, or at the end: until then
it is *pending*, so of several faults the one is reported that turns up first in this order.
-/

namespace ShellQuery.CommandLine

/-- What the arguments ask for. -/
structure Options where
  lines : List String
  configFile : Option String
  format : Option String
  database : Option String
  readOnly : Bool
  quiet : Bool
  verbose : Bool
  veryVerbose : Bool
  deriving DecidableEq, Repr

/-- Nothing is asked for. -/
def Options.none : Options := ⟨[], .none, .none, .none, false, false, false, false⟩

/-- Why the arguments do not lead to a run. The last two are what some arguments ask for. -/
inductive Stop
  | unknownArgument
  | invalidValue
  | argumentConflict
  | tooManyValues
  | displayHelp
  | displayVersion
  deriving DecidableEq, Repr

/-- The options that take a value. -/
inductive Setting
  | configFile
  | format
  | database
  deriving DecidableEq, Repr

/-- The options that take none. -/
inductive Switch
  | readOnly
  | quiet
  | verbose
  | veryVerbose
  | help
  | version
  deriving DecidableEq, Repr

/-- An option. -/
inductive Name
  | setting (setting : Setting)
  | switch (switch : Switch)
  deriving DecidableEq, Repr

/-- The option with a long name. -/
def Name.ofLong? : String → Option Name
  | "config" => some (.setting .configFile)
  | "format" => some (.setting .format)
  | "database" => some (.setting .database)
  | "read-only" => some (.switch .readOnly)
  | "quiet" => some (.switch .quiet)
  | "verbose" => some (.switch .verbose)
  | "vv" => some (.switch .veryVerbose)
  | "help" => some (.switch .help)
  | "version" => some (.switch .version)
  | _ => none

/-- The option with a letter. -/
def Name.ofLetter? : Char → Option Name
  | 'c' => some (.setting .configFile)
  | 'q' => some (.switch .quiet)
  | 'v' => some (.switch .verbose)
  | 'h' => some (.switch .help)
  | 'V' => some (.switch .version)
  | _ => none

namespace Options

/-- Sets a value once. A file must have a name. -/
def set (setting : Setting) (value : String) (o : Options) : Except Stop Options :=
  match setting with
  | .configFile =>
    if o.configFile.isSome then .error .argumentConflict
    else if value = "" then .error .invalidValue
    else .ok { o with configFile := some value }
  | .format =>
    if o.format.isSome then .error .argumentConflict else .ok { o with format := some value }
  | .database =>
    if o.database.isSome then .error .argumentConflict else .ok { o with database := some value }

/-- Turns a switch on, once. -/
def turnOn (switch : Switch) (o : Options) : Except Stop Options :=
  let once (isOn : Bool) (next : Options) : Except Stop Options :=
    if isOn then .error .argumentConflict else .ok next
  match switch with
  | .readOnly => once o.readOnly { o with readOnly := true }
  | .quiet => once o.quiet { o with quiet := true }
  | .verbose => once o.verbose { o with verbose := true }
  | .veryVerbose => once o.veryVerbose { o with veryVerbose := true }
  | .help => .error .displayHelp
  | .version => .error .displayVersion

end Options

/-- What has been read: what counts already, and the option that is pending, with its value if that
has turned up. -/
structure Progress where
  options : Options
  pending : Option (Setting × Option String)

namespace Progress

/-- Lets the pending option count. -/
def commit (p : Progress) : Except Stop Options :=
  match p.pending with
  | none => .ok p.options
  | some (_, none) => .error .invalidValue
  | some (setting, some value) => p.options.set setting value

/-- Reads an option that takes a value; an attached value counts at once. -/
def give (setting : Setting) (attached : Option String) (p : Progress) : Except Stop Progress :=
  match p.commit with
  | .error stop => .error stop
  | .ok o =>
    match attached with
    | none => .ok ⟨o, some (setting, none)⟩
    | some value => (o.set setting value).map (⟨·, none⟩)

/-- Reads a switch. -/
def turnOn (switch : Switch) (p : Progress) : Except Stop Progress :=
  match p.commit with
  | .error stop => .error stop
  | .ok o => (o.turnOn switch).map (⟨·, none⟩)

/-- Reads an option with a long name, behind its dashes. -/
def long (s : List Char) (p : Progress) : Except Stop Progress :=
  let attached : Option String :=
    match s.dropWhile (· != '=') with
    | _ :: value => some (String.ofList value)
    | [] => none
  match Name.ofLong? (String.ofList (s.takeWhile (· != '='))) with
  | none => .error .unknownArgument
  | some (.setting setting) => p.give setting attached
  | some (.switch switch) => if attached.isSome then .error .tooManyValues else p.turnOn switch

/-- Reads options with letters, behind their dash. What follows a letter that takes a value is its
value, perhaps behind an equals sign. -/
def letters (p : Progress) : List Char → Except Stop Progress
  | [] => .ok p
  | c :: r =>
    match Name.ofLetter? c with
    | none => .error .unknownArgument
    | some (.switch switch) =>
      match p.turnOn switch with
      | .error stop => .error stop
      | .ok p => p.letters r
    | some (.setting setting) =>
      match r with
      | [] => p.give setting none
      | '=' :: value => p.give setting (some (String.ofList value))
      | value => p.give setting (some (String.ofList value))

/-- Reads an argument that is no option: the value of the pending option, or a command line. -/
def plain (word : String) (p : Progress) : Except Stop Progress :=
  match p.pending with
  | some (setting, none) => .ok { p with pending := some (setting, some word) }
  | _ => p.commit.map fun o => ⟨{ o with lines := o.lines ++ [word] }, none⟩

/-- Reads one argument. A dash alone is no option. -/
def step (argument : String) (p : Progress) : Except Stop Progress :=
  match argument.toList with
  | '-' :: '-' :: name => p.long name
  | '-' :: c :: more => p.letters (c :: more)
  | _ => p.plain argument

end Progress

/-- Reads the arguments that are left. -/
def readFrom (p : Progress) : List String → Except Stop Options
  | [] => p.commit
  | argument :: more =>
    if argument = "--" then p.commit.map fun o => { o with lines := o.lines ++ more }
    else
      match p.step argument with
      | .error stop => .error stop
      | .ok p => readFrom p more

/-- What the arguments of the program ask for. -/
def read (arguments : List String) : Except Stop Options :=
  readFrom ⟨.none, none⟩ arguments

end ShellQuery.CommandLine
