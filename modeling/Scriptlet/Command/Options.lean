import Scriptlet.Text.Digit
import Scriptlet.Text.Quoted

/-!
# Options of the command

The command takes flags, flags with a value, and one operand. Long flags
may be shortened as long as one flag remains; short ones may be written
together behind one dash; a value may be attached with an equals sign.
After `--` everything is an operand.

Arguments are first classified one by one and then consumed from left to
right. What nobody consumes is reported only at the end.
-/

namespace Scriptlet.Command

inductive Flag where
  | help
  | verbose
  | lexical
  | emit
  | dump
  | load
  deriving Repr, DecidableEq

namespace Flag

def spellings : Flag → List String
  | .help => ["-h", "--help"]
  | .verbose => ["-v"]
  | .lexical => ["--lexical-scope"]
  | .emit => ["--emit-ast"]
  | .dump => ["--dump-ast"]
  | .load => ["--ast"]

/-- The flag's name in messages. -/
def title (flag : Flag) : String := "/".intercalate flag.spellings

/-- The flags that name a file. Only one of them may be given. -/
def exclusive : List Flag := [.emit, .dump, .load]

def takesValue (flag : Flag) : Bool := exclusive.contains flag

/-- All flags, in the order in which they are listed in messages. -/
def all : List Flag := [.help, .verbose, .lexical, .emit, .dump, .load]

/-- All spellings, each with its flag. -/
def spelled : List (String × Flag) :=
  all.flatMap fun flag => flag.spellings.map fun text => (text, flag)

def ofSpelling? (text : String) : Option Flag := spelled.lookup text

def ofLetter? (c : Char) : Option Flag :=
  ofSpelling? (String.ofList ['-', c])

/-- The spellings that begin with a text. -/
def matching (start : String) : List (String × Flag) :=
  spelled.filter fun entry => start.isPrefixOf entry.1

end Flag

inductive OptionError where
  | ambiguous (argument : String) (spellings : List String)
  | ignoredValue (flag : Flag) (value : String)
  | missingValue (flag : Flag)
  | conflict (flag earlier : Flag)
  | unrecognized (arguments : List String)
  deriving Repr, DecidableEq

def OptionError.message : OptionError → String
  | .ambiguous argument spellings =>
    "ambiguous option: " ++ argument ++ " could match " ++
      ", ".intercalate spellings
  | .ignoredValue flag value =>
    s!"argument {flag.title}: ignored explicit argument {Text.quoted value}"
  | .missingValue flag => s!"argument {flag.title}: expected one argument"
  | .conflict flag earlier =>
    s!"argument {flag.title}: not allowed with argument {earlier.title}"
  | .unrecognized arguments =>
    "unrecognized arguments: " ++ " ".intercalate arguments

/-! ## Classification -/

/-- What an argument is, seen by itself. -/
inductive Item where
  | operand (text : String)
  /-- The argument `--`. -/
  | separator
  /-- A flag, with the value that an equals sign attaches to it. -/
  | flag (flag : Flag) (value : Option String)
  /-- A short flag with more text behind its letter. -/
  | cluster (flag : Flag) (rest : String)
  /-- A short flag with a value attached by an equals sign. -/
  | valued (flag : Flag) (value : String)
  /-- Something that looks like a flag and is none. -/
  | unknown (text : String)
  deriving Repr, DecidableEq

/-- Splits at the first equals sign, if there is one. -/
def splitValue (cs : List Char) : List Char × Option (List Char) :=
  match cs.dropWhile (· != '=') with
  | [] => (cs, none)
  | _ :: value => (cs.takeWhile (· != '='), some value)

def isDigit (c : Char) : Bool := (Text.digitValue? c).isSome

/-- Whether a text is a negative number: digits, or digits with a point
before the last ones. A line end may follow. -/
def isNegativeNumber : List Char → Bool
  | '-' :: cs =>
    let cs := if cs.getLast? == some '\n' then cs.dropLast else cs
    match cs.dropWhile isDigit with
    | [] => !cs.isEmpty
    | '.' :: places => !places.isEmpty && places.all isDigit
    | _ => false
  | _ => false

/-- Classifies an argument that is not `--` and stands before it. -/
def classify (argument : String) : Except OptionError Item :=
  match argument.toList with
  | '-' :: second :: rest =>
    match Flag.ofSpelling? argument with
    | some flag => .ok (.flag flag none)
    | none =>
      let (start, value?) := splitValue argument.toList
      let value? := value?.map String.ofList
      if second = '-' then
        match Flag.ofSpelling? (String.ofList start),
            Flag.matching (String.ofList start) with
        | some flag, _ => .ok (.flag flag value?)
        | none, [(_, flag)] => .ok (.flag flag value?)
        | none, [] => .ok (unmatched argument)
        | none, several =>
          .error (.ambiguous argument (several.map (·.1)))
      else
        match Flag.ofLetter? second, rest with
        | some flag, '=' :: value =>
          .ok (.valued flag (String.ofList value))
        | some flag, rest => .ok (.cluster flag (String.ofList rest))
        | none, _ => .ok (unmatched argument)
  | _ => .ok (.operand argument)
where
  /-- An argument with a dash that no flag matches. -/
  unmatched (argument : String) : Item :=
    if isNegativeNumber argument.toList || argument.toList.contains ' ' then
      .operand argument
    else .unknown argument

def classifyAll : List String → Except OptionError (List Item)
  | [] => .ok []
  | "--" :: rest => .ok (.separator :: rest.map .operand)
  | argument :: rest => do
    let item ← classify argument
    let items ← classifyAll rest
    return item :: items

/-! ## Consumption -/

structure Options where
  verbosity : Nat
  lexical : Bool
  emit : Option String
  dump : Option String
  load : Option String
  program : Option String
  deriving Repr, DecidableEq

namespace Options

def initial : Options := ⟨0, false, none, none, none, none⟩

def value? (options : Options) : Flag → Option String
  | .emit => options.emit
  | .dump => options.dump
  | .load => options.load
  | _ => none

def setValue (options : Options) (flag : Flag) (value : String) :
    Except OptionError Options :=
  match Flag.exclusive.find?
      fun other => other != flag && (options.value? other).isSome with
  | some earlier => .error (.conflict flag earlier)
  | none =>
    match flag with
    | .emit => .ok { options with emit := some value }
    | .dump => .ok { options with dump := some value }
    | .load => .ok { options with load := some value }
    | _ => .ok options

end Options

inductive Request where
  | help
  | proceed (options : Options)
  | refuse (error : OptionError)
  deriving Repr, DecidableEq

/-- The state of the consumption: the operand is looked for only once. -/
structure Progress where
  options : Options
  /-- Whether the operand has been looked for. -/
  settled : Bool
  /-- What nobody consumed. -/
  extras : List String
  deriving Repr, DecidableEq

namespace Progress

def addExtra (p : Progress) (text : String) : Progress :=
  { p with extras := p.extras ++ [text] }

/-- Takes a flag without a value in; nothing if it asks for help. -/
def apply (p : Progress) : Flag → Option Progress
  | .help => none
  | .verbose =>
    some { p with options.verbosity := p.options.verbosity + 1 }
  | .lexical => some { p with options.lexical := true }
  | _ => some p

def applyAll (p : Progress) : List Flag → Option Progress
  | [] => some p
  | flag :: rest =>
    match p.apply flag with
    | some p => p.applyAll rest
    | none => none

end Progress

/-- The flags written together behind one dash, and what is left over from
the first letter on that is no flag. A letter's flag takes no value, so an
equals sign or another dash is an error. -/
def spread (flag : Flag) : List Char →
    Except OptionError (List Flag × Option String)
  | [] => .ok ([flag], none)
  | c :: rest =>
    if c = '-' then .error (.ignoredValue flag (String.ofList (c :: rest)))
    else
      match Flag.ofLetter? c, rest with
      | none, _ => .ok ([flag], some (String.ofList ('-' :: c :: rest)))
      | some next, '=' :: value =>
        .error (.ignoredValue next (String.ofList value))
      | some next, rest => do
        let (flags, left) ← spread next rest
        return (flag :: flags, left)

def consume (p : Progress) : List Item → Request
  | [] =>
    if p.extras.isEmpty then .proceed p.options
    else .refuse (.unrecognized p.extras)
  | .unknown text :: rest => consume (p.addExtra text) rest
  | .operand text :: .separator :: rest =>
    if p.settled then
      consume ((p.addExtra text).addExtra "--") rest
    else
      consume
        { p with options.program := some text, settled := true } rest
  | .operand text :: rest =>
    if p.settled then consume (p.addExtra text) rest
    else
      consume
        { p with options.program := some text, settled := true } rest
  | .separator :: .operand text :: rest =>
    if p.settled then
      consume ((p.addExtra "--").addExtra text) rest
    else
      consume
        { p with options.program := some text, settled := true } rest
  | .separator :: rest =>
    if p.settled then consume (p.addExtra "--") rest
    else consume { p with settled := true } rest
  | .valued flag value :: _ => .refuse (.ignoredValue flag value)
  | .cluster flag letters :: rest =>
    match spread flag letters.toList with
    | .error e => .refuse e
    | .ok (flags, left) =>
      let p := match left with
        | some text => p.addExtra text
        | none => p
      match p.applyAll flags with
      | none => .help
      | some p => consume p rest
  | .flag flag value? :: rest =>
    if flag.takesValue then
      match value?, rest with
      | some value, rest =>
        match p.options.setValue flag value with
        | .error e => .refuse e
        | .ok options => consume { p with options } rest
      | none, .operand value :: rest =>
        match p.options.setValue flag value with
        | .error e => .refuse e
        | .ok options => consume { p with options } rest
      | none, _ => .refuse (.missingValue flag)
    else
      match value? with
      | some value => .refuse (.ignoredValue flag value)
      | none =>
        match p.apply flag with
        | none => .help
        | some p => consume p rest

def request (arguments : List String) : Request :=
  match classifyAll arguments with
  | .error e => .refuse e
  | .ok items => consume ⟨Options.initial, false, []⟩ items

inductive Task where
  /-- Save the tree of a program. -/
  | emit (path : String)
  /-- Print the outline of a program. -/
  | dump (path : String)
  /-- Run a saved tree. -/
  | load (path : String)
  | run (path : String)
  | interact
  deriving Repr, DecidableEq

def Task.path? : Task → Option String
  | .emit path => some path
  | .dump path => some path
  | .load path => some path
  | .run path => some path
  | .interact => none

def Task.readsInput : Task → Bool
  | .emit _ => false
  | .dump _ => false
  | _ => true

/-- The task that the options set. An empty file name counts as none. -/
def Options.task (options : Options) : Task :=
  match given options.emit, given options.dump, given options.load,
      given options.program with
  | some path, _, _, _ => .emit path
  | none, some path, _, _ => .dump path
  | none, none, some path, _ => .load path
  | none, none, none, some path => .run path
  | none, none, none, none => .interact
where
  given (value : Option String) : Option String :=
    value.filter (!·.isEmpty)

end Scriptlet.Command
