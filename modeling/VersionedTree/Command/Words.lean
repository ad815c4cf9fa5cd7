import VersionedTree.Command

/-!
# Reading a command line

The words of a command line name a command and its arguments. An argument is the value of a
switch, or it stands at its position among the words that are no switches. Two switches are
understood before and after the name of every command.

## Main definitions

* `VersionedTree.Words.Domain` — what a value must be.
* `VersionedTree.Words.Form` — the positions and switches of a command.
* `VersionedTree.Words.Scan` — the arguments read so far.
* `VersionedTree.Words.Misuse` — why words are no command.
* `VersionedTree.Invocation.ofWords` — the command that words name.

## Design

The text of an argument is kept until the next argument begins, and only then read as a value.
Hence a word that nothing expects is refused before a wrong value just in front of it.
-/

set_option autoImplicit false

namespace VersionedTree

namespace Words

/-- Why words are no command. -/
inductive Misuse where
  /-- The words ask for help. -/
  | helpWanted
  /-- There is no word. -/
  | nothingGiven
  /-- There are switches, but no command. -/
  | noCommand
  /-- The name of the command is none. -/
  | unknownCommand
  /-- Nothing expects the word. -/
  | unknownArgument
  /-- A position is left empty. -/
  | missingArgument
  /-- A value is not what it must be. -/
  | invalidValue
  /-- A switch lacks its value, or a file name is empty. -/
  | missingValue
  /-- A switch is given twice. -/
  | repeatedArgument
  /-- A switch without a value is given one. -/
  | unwantedValue
deriving DecidableEq, Repr

/-- The wording of a misuse. -/
def Misuse.message : Misuse → String
  | helpWanted => "Versioned multi-tenant file tree over SQLite and object storage"
  | nothingGiven => "a command is required"
  | noCommand => "a command is required"
  | unknownCommand => "there is no such command"
  | unknownArgument => "unexpected argument"
  | missingArgument => "an argument is missing"
  | invalidValue => "invalid value for an argument"
  | missingValue => "a value is required for an argument"
  | repeatedArgument => "an argument cannot be used twice"
  | unwantedValue => "unexpected value for an argument"

/-! ## Values -/

/-- What a value must be. -/
inductive Domain where
  | path
  | id
  /-- A number of thirty-two bits. -/
  | count
  /-- The name of a local file, which is not empty. -/
  | fileName
  | text
deriving DecidableEq, Repr

/-- A value that has been read. -/
inductive Value where
  | path (p : Path)
  | id (u : Uuid)
  | count (n : Nat)
  | text (s : String)
  /-- A switch that is given without a value. -/
  | present
deriving DecidableEq, Repr

/-- The number of decimal digits, with or without a sign. -/
def integer? (cs : List Char) : Option Int :=
  match cs with
  | '-' :: digits => (LogLevel.number? ('+' :: digits)).map fun n => -(n : Int)
  | cs => (LogLevel.number? cs).map Int.ofNat

/-- A number of thirty-two bits. -/
def count? (cs : List Char) : Option Nat :=
  match integer? cs with
  | some n => if 0 ≤ n ∧ n < 0x100000000 then some n.toNat else none
  | none => none

/-- Reads a value. -/
def Domain.read (d : Domain) (s : String) : Except Misuse Value :=
  match d with
  | path =>
    match Path.parse s with
    | .ok p => .ok (.path p)
    | .error _ => .error .invalidValue
  | id =>
    match Uuid.parse? s with
    | some u => .ok (.id u)
    | none => .error .invalidValue
  | count =>
    match count? s.toList with
    | some n => .ok (.count n)
    | none => .error .invalidValue
  | fileName => if s.toList.isEmpty then .error .missingValue else .ok (.text s)
  | text => .ok (.text s)

/-! ## Arguments -/

/-- The values of the arguments that are given, by their names. -/
abbrev Arguments := List (String × Value)

namespace Arguments

/-- The value of a name. -/
def get? (as : Arguments) (name : String) : Option Value :=
  (as.find? fun a => a.1 == name).map Prod.snd

/-- Is the argument given? -/
def has (as : Arguments) (name : String) : Bool := (as.get? name).isSome

/-- The path of a name. -/
def path? (as : Arguments) (name : String) : Option Path :=
  match as.get? name with
  | some (.path p) => some p
  | _ => none

/-- The identifier of a name. -/
def id? {subject : Subject} (as : Arguments) (name : String) : Option (Id subject) :=
  match as.get? name with
  | some (.id u) => some ⟨u⟩
  | _ => none

/-- The number of a name. -/
def count? (as : Arguments) (name : String) : Option Nat :=
  match as.get? name with
  | some (.count n) => some n
  | _ => none

/-- The text of a name. -/
def text? (as : Arguments) (name : String) : Option String :=
  match as.get? name with
  | some (.text s) => some s
  | _ => none

end Arguments

/-! ## Forms -/

/-- An argument that is known by its place. -/
structure Position where
  name : String
  domain : Domain
deriving DecidableEq, Repr

/-- An argument that is known by its name, or by one letter. -/
structure Switch where
  name : String
  letter : Option Char
  /-- What its value must be, if it has one. -/
  domain : Option Domain
deriving DecidableEq, Repr

/-- The switch that asks for help. -/
def helpSwitch : Switch := ⟨"help", some 'h', none⟩

/-- The switches that are understood everywhere. -/
def commonSwitches : List Switch :=
  [⟨"config-path", none, some .fileName⟩, ⟨"owner", none, some .id⟩, helpSwitch]

/-- The positions and switches of a command, and the command that arguments make. -/
structure Form where
  name : String
  positions : List Position
  switches : List Switch
  /-- The command of the arguments; none if a required one is missing. -/
  build : Arguments → Option Command

/-- Positions and switches in front of the name of the command. -/
def outerForm : Form := ⟨"", [], [], fun _ => none⟩

/-- All commands. -/
def forms : List Form := [
  ⟨"init", [], [⟨"log-level", none, some .text⟩],
    fun as => some (.init ((as.text? "log-level").getD Config.defaultLogLevel))⟩,
  ⟨"ls", [⟨"path", .path⟩], [],
    fun as => some (.list ((as.path? "path").getD .root))⟩,
  ⟨"mkdir", [⟨"path", .path⟩], [⟨"parents", some 'p', none⟩],
    fun as => (as.path? "path").map fun path => .makeDirectory path (as.has "parents")⟩,
  ⟨"put", [⟨"local", .fileName⟩, ⟨"path", .path⟩], [⟨"checksum", none, some .text⟩],
    fun as => do return .put (← as.text? "local") (← as.path? "path") (as.text? "checksum")⟩,
  ⟨"add-version", [⟨"local", .fileName⟩, ⟨"path", .path⟩], [⟨"checksum", none, some .text⟩],
    fun as => do
      return .addVersion (← as.text? "local") (← as.path? "path") (as.text? "checksum")⟩,
  ⟨"cat", [⟨"path", .path⟩],
    [⟨"version", none, some .id⟩, ⟨"output", some 'o', some .fileName⟩],
    fun as => (as.path? "path").map fun path =>
      .read path (as.id? "version") (as.text? "output")⟩,
  ⟨"versions", [⟨"path", .path⟩],
    [⟨"limit", none, some .count⟩, ⟨"after", none, some .id⟩],
    fun as => (as.path? "path").map fun path =>
      .versions path ((as.count? "limit").getD 20) (as.id? "after")⟩,
  ⟨"mv", [⟨"source", .path⟩, ⟨"destination", .path⟩], [],
    fun as => do return .move (← as.path? "source") (← as.path? "destination")⟩,
  ⟨"cp", [⟨"source", .path⟩, ⟨"destination", .path⟩], [⟨"newest", none, none⟩],
    fun as => do
      return .copy (← as.path? "source") (← as.path? "destination") (as.has "newest")⟩,
  ⟨"rm", [⟨"path", .path⟩], [⟨"recursive", some 'r', none⟩],
    fun as => (as.path? "path").map fun path => .remove path (as.has "recursive")⟩,
  ⟨"rm-version", [⟨"path", .path⟩, ⟨"version", .id⟩], [],
    fun as => do return .removeVersion (← as.path? "path") (← as.id? "version")⟩,
  ⟨"gc", [], [⟨"limit", none, some .count⟩],
    fun as => some (.sweep ((as.count? "limit").getD 1000))⟩]

/-- The form of the command of a name. -/
def formOf? (name : String) : Option Form := forms.find? fun f => f.name == name

/-- The word in place of a command that asks for help on one. -/
def helpWord : String := "help"

/-! ## Scans -/

/-- The arguments read so far. -/
structure Scan where
  /-- The arguments whose values are read. -/
  taken : Arguments
  /-- The argument whose value is still a text, or not there yet. -/
  pending : Option (String × Domain × Option String)
  /-- The further words are no switches. -/
  plain : Bool
  /-- The number of filled positions. -/
  position : Nat

namespace Scan

/-- The scan before the first word. -/
def start : Scan := ⟨[], none, false, 0⟩

/-- Adds an argument, which must be the first one of its name. -/
def take (s : Scan) (name : String) (value : Except Misuse Value) : Except Misuse Scan :=
  if s.taken.has name then .error .repeatedArgument
  else value.map fun v => { s with taken := (name, v) :: s.taken, pending := none }

/-- Reads the pending value, if there is one. -/
def settle (s : Scan) : Except Misuse Scan :=
  match s.pending with
  | none => .ok s
  | some (_, _, none) => .error .missingValue
  | some (name, domain, some text) => s.take name (domain.read text)

/-- Is the next word a value in any case? -/
def awaitsValue (s : Scan) : Bool :=
  match s.pending with
  | some (_, _, none) => !s.plain
  | _ => false

/-- Begins an argument with the text of its value, or without it. -/
def begin (s : Scan) (name : String) (domain : Domain) (text : Option String) :
    Except Misuse Scan :=
  s.settle.map fun s => { s with pending := some (name, domain, text) }

/-- Takes a switch without a value. -/
def takeFlag (s : Scan) (name : String) : Except Misuse Scan := do
  let s ← s.settle
  if name = helpSwitch.name then .error .helpWanted else s.take name (.ok .present)

/-- Takes a switch with a value. A value that is attached to it is read at once. -/
def takeOption (s : Scan) (name : String) (domain : Domain) (attached : Option String) :
    Except Misuse Scan := do
  let s ← s.begin name domain attached
  if attached.isSome then s.settle else .ok s

end Scan

namespace Form

/-- The switch of a name. -/
def long? (f : Form) (name : List Char) : Option Switch :=
  (commonSwitches ++ f.switches).find? fun s => s.name.toList == name

/-- The switch of a letter. -/
def short? (f : Form) (letter : Char) : Option Switch :=
  (commonSwitches ++ f.switches).find? fun s => s.letter == some letter

/-- A name, and the value that an equals sign attaches to it. -/
def splitAttached (cs : List Char) : List Char × Option String :=
  match cs.dropWhile (· != '=') with
  | _ :: value => (cs.takeWhile (· != '='), some (String.ofList value))
  | [] => (cs, none)

/-- Reads a switch by its name. -/
def readLong (f : Form) (s : Scan) (cs : List Char) : Except Misuse Scan :=
  let (name, attached) := splitAttached cs
  match f.long? name with
  | none => .error .unknownArgument
  | some switch =>
    match switch.domain with
    | some domain => s.takeOption switch.name domain attached
    | none => if attached.isSome then .error .unwantedValue else s.takeFlag switch.name

/-- The value that follows a letter in the same word. -/
def attachedTo : List Char → Option String
  | [] => none
  | '=' :: value => some (String.ofList value)
  | value => some (String.ofList value)

/-- Reads switches by their letters. -/
def readShort (f : Form) (s : Scan) : List Char → Except Misuse Scan
  | [] => .ok s
  | letter :: rest =>
    match f.short? letter with
    | none => .error .unknownArgument
    | some switch =>
      match switch.domain with
      | some domain => s.takeOption switch.name domain (attachedTo rest)
      | none =>
        match s.takeFlag switch.name with
        | .error e => .error e
        | .ok s => readShort f s rest

/-- The refusal of a word for which there is no position. In front of the name of a command it
stands where that name is expected. -/
def excess (f : Form) (s : Scan) (word : String) : Misuse :=
  if !f.name.toList.isEmpty then .unknownArgument
  else if s.plain && (word == helpWord || (formOf? word).isSome) then .unknownArgument
  else .unknownCommand

/-- Reads a word as the value of the next position. -/
def readPosition (f : Form) (s : Scan) (word : String) : Except Misuse Scan :=
  match f.positions[s.position]? with
  | none => .error (f.excess s word)
  | some p =>
    (s.begin p.name p.domain (some word)).map fun s => { s with position := s.position + 1 }

/-- Reads a word as the value that is awaited, or else as that of the next position. -/
def readValue (f : Form) (s : Scan) (word : String) : Except Misuse Scan :=
  match s.pending with
  | some (name, domain, none) => .ok { s with pending := some (name, domain, some word) }
  | _ => f.readPosition s word

/-- Reads one word. -/
def readWord (f : Form) (s : Scan) (word : String) : Except Misuse Scan :=
  if s.plain then f.readPosition s word
  else match word.toList with
    | ['-', '-'] => .ok { s with plain := true }
    | '-' :: '-' :: rest => f.readLong s rest
    | '-' :: letter :: rest => f.readShort s (letter :: rest)
    | _ => f.readValue s word

/-- The arguments that words give. -/
def read (f : Form) (words : List String) : Except Misuse Arguments := do
  let s ← words.foldlM f.readWord .start
  return (← s.settle).taken

end Form

end Words

open Words

namespace Invocation

/-- The invocation of a command. What its own arguments say about all commands comes before what
is said in front of it. -/
def ofArguments (command : Command) (outer inner : Arguments) : Invocation where
  stateDirectory := inner.text? "config-path" <|> outer.text? "config-path"
  owner := inner.id? "owner" <|> outer.id? "owner"
  command := command

/-- The invocation of a form, whose own words are read before a value that is still pending in
front of it. -/
def ofForm (f : Form) (s : Scan) (words : List String) : Except Misuse Invocation :=
  match f.read words with
  | .error e => .error e
  | .ok inner =>
    match f.build inner with
    | none => .error .missingArgument
    | some command => s.settle.map fun outer => ofArguments command outer.taken inner

/-- What follows the word that asks for help: nothing, or the name of a command. -/
def helpOn : List String → Misuse
  | [] => .helpWanted
  | [word] => if word = helpWord || (formOf? word).isSome then .helpWanted else .unknownCommand
  | _ => .unknownCommand

/-- The command that words name, after a scan of the words in front of them. -/
def ofWordsFrom (s : Scan) : List String → Except Misuse Invocation
  | [] =>
    match s.settle with
    | .error e => .error e
    | .ok s => .error (if s.taken.isEmpty then .nothingGiven else .noCommand)
  | word :: rest =>
    if !s.plain && !s.awaitsValue && word == helpWord then .error (helpOn rest)
    else match if s.plain || s.awaitsValue then none else formOf? word with
      | some f => ofForm f s rest
      | none =>
        match outerForm.readWord s word with
        | .error e => .error e
        | .ok s => ofWordsFrom s rest

/-- The command that words name. -/
def ofWords (words : List String) : Except Misuse Invocation := ofWordsFrom .start words

end Invocation

end VersionedTree
