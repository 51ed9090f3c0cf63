import JarRank.Files.Path
import JarRank.Number.Numeral
import JarRank.Text.Quoted

/-!
# Arguments

The arguments of a command line are told apart first, each by itself: operands,
switches and the separator `--`, behind which all are operands. Then they are
taken in order. A switch with a value has it behind itself in the same argument,
behind an equals sign or in the next argument; switches of one letter may share
an argument, and the name of a long one may be cut short where it stays unique.
A negative number is no switch, and neither is an argument with a blank that is
none either.

One operand is expected, the archive. The last value of a switch holds; a value
that reads as the separator is dropped, and the switch stands without one. What
cannot be used is collected and refused at the end.
-/
namespace JarRank.CommandLine

inductive Switch where
  | help
  | top
  | outputDir
  | verbose
  deriving DecidableEq, Repr

namespace Switch

def letter : Switch → Char
  | help => 'h'
  | top => 'n'
  | outputDir => 'o'
  | verbose => 'v'

def longName : Switch → String
  | help => "--help"
  | top => "--top"
  | outputDir => "--output-dir"
  | verbose => "--verbose"

def all : List Switch := [help, top, outputDir, verbose]

def hasValue : Switch → Bool
  | top | outputDir => true
  | help | verbose => false

def title (s : Switch) : String := "-" ++ String.singleton s.letter ++ "/" ++ s.longName

def ofLetter? (c : Char) : Option Switch := all.find? fun s => s.letter == c

/-- The switches whose long name begins with a text. -/
def withPrefix (name : String) : List Switch :=
  all.filter fun s => name.toList.isPrefixOf s.longName.toList

end Switch

inductive Refusal where
  | ambiguous (argument : String) (candidates : List Switch)
  | uselessValue (s : Switch) (value : String)
  | valueMissing (s : Switch)
  | notInteger (s : Switch) (value : String)
  | archiveMissing
  | unrecognized (arguments : List String)
  deriving DecidableEq, Repr

def Refusal.message : Refusal → String
  | ambiguous argument candidates =>
      "ambiguous option: " ++ argument ++ " could match " ++
        ", ".intercalate (candidates.map Switch.longName)
  | uselessValue s value =>
      "argument " ++ s.title ++ ": ignored explicit argument " ++ Quoted.text value
  | valueMissing s => "argument " ++ s.title ++ ": expected one argument"
  | notInteger s value => "argument " ++ s.title ++ ": invalid int value: " ++ Quoted.text value
  | archiveMissing => "the following arguments are required: archive"
  | unrecognized arguments => "unrecognized arguments: " ++ " ".intercalate arguments

/-- What an argument is taken for. -/
inductive Word where
  | operand (text : String)
  | separator
  /-- Something like a switch that is none. -/
  | unknown (text : String)
  /-- A switch by its letter, and what is attached to it; an equals sign between them is
  not part of that. -/
  | short (s : Switch) (attached : Option (List Char))
  /-- A switch by its long name, and what stands behind an equals sign. -/
  | long (s : Switch) (value : Option String)
  deriving DecidableEq, Repr

namespace Word

/-- Whether digits follow, of any script. -/
def isDigits (cs : List Char) : Bool := !cs.isEmpty && cs.all fun c => (Digit.value? c).isSome

/-- Whether the text behind a minus is a number, which one line feed may follow. -/
def isNumber (cs : List Char) : Bool :=
  let cs := if cs.getLast? = some '\n' then cs.dropLast else cs
  isDigits cs ||
    match cs.dropWhile fun c => (Digit.value? c).isSome with
    | '.' :: behind => isDigits behind
    | _ => false

/-- What an argument that begins with a minus and is no switch is taken for. -/
def ofOther (argument : String) (rest : List Char) : Word :=
  if isNumber rest || ' ' ∈ rest then operand argument else unknown argument

/-- What an argument is taken for if no separator stands before it. -/
def ofArgument (argument : String) : Except Refusal Word :=
  match argument.toList with
  | ['-', '-'] => .ok separator
  | '-' :: '-' :: rest =>
      let name := "--" ++ String.ofList (rest.takeWhile (· ≠ '='))
      let value :=
        match rest.dropWhile (· ≠ '=') with
        | '=' :: text => some (String.ofList text)
        | _ => none
      match Switch.withPrefix name with
      | [s] => .ok (long s value)
      | [] => .ok (ofOther argument ('-' :: rest))
      | candidates => .error (.ambiguous argument candidates)
  | '-' :: c :: rest =>
      match Switch.ofLetter? c, rest with
      | none, _ => .ok (ofOther argument (c :: rest))
      | some s, [] => .ok (short s none)
      | some s, '=' :: attached => .ok (short s (some attached))
      | some s, attached => .ok (short s (some attached))
  | _ => .ok (operand argument)

/-- What the arguments are taken for. -/
def ofArguments : List String → Except Refusal (List Word)
  | [] => .ok []
  | argument :: rest => do
      match ← ofArgument argument with
      | separator => return separator :: rest.map operand
      | word => return word :: (← ofArguments rest)

end Word

inductive Amount where
  /-- Nothing is said about it. -/
  | standard
  | number (n : Int)
  /-- The switch is there, but its value has been dropped. -/
  | blank
  deriving DecidableEq, Repr

structure Arguments where
  archive : String
  top : Amount := .standard
  outputDir : Option Files.Path := none
  verbose : Bool := false
  deriving DecidableEq, Repr

inductive Halt where
  | help
  | refused (refusal : Refusal)
  deriving DecidableEq, Repr

/-- What has been taken from the arguments so far. -/
structure Progress where
  archive : Option String := none
  top : Amount := .standard
  outputDir : Option Files.Path := none
  verbose : Bool := false
  /-- What cannot be used, the latest first. -/
  extras : List String := []

structure Cluster where
  /-- Those without a value, in order. -/
  flags : List Switch
  /-- One with a value, or whose value is the next argument. -/
  last : Option (Switch × Option String) := none

namespace Cluster

def single (s : Switch) : Cluster := if s.hasValue then ⟨[], some (s, none)⟩ else ⟨[s], none⟩

def push (s : Switch) (c : Cluster) : Cluster := { c with flags := s :: c.flags }

/-- The cluster of a switch and what is attached to it: its value, or further switches. -/
def ofAttached : (attached : List Char) → Switch → Except Refusal Cluster
  | [], s => if s.hasValue then .ok ⟨[], some (s, some "")⟩ else .error (.uselessValue s "")
  | c :: cs, s =>
      if s.hasValue then .ok ⟨[], some (s, some (String.ofList (c :: cs)))⟩
      else
        match Switch.ofLetter? c with
        | none => .error (.uselessValue s (String.ofList (c :: cs)))
        | some next => (if cs.isEmpty then .ok (single next) else ofAttached cs next).map (push s)

/-- The cluster of an argument that begins with a letter. -/
def ofShort (s : Switch) (attached : Option (List Char)) : Except Refusal Cluster :=
  match attached with
  | none => .ok (single s)
  | some cs => ofAttached cs s

/-- The switch in an argument that is a long name. -/
def ofLong (s : Switch) (value : Option String) : Except Refusal Cluster :=
  match value with
  | none => .ok (single s)
  | some value =>
      if s.hasValue then .ok ⟨[], some (s, some value)⟩ else .error (.uselessValue s value)

end Cluster

namespace Progress

/-- Takes switches without values. -/
def takeFlags : List Switch → Progress → Except Halt Progress
  | [], p => .ok p
  | .help :: _, _ => .error .help
  | .verbose :: ss, p => takeFlags ss { p with verbose := true }
  | _ :: ss, p => takeFlags ss p

/-- Takes a switch whose value has been dropped. What an earlier one set is forgotten. -/
def takeBlank (p : Progress) : Switch → Progress
  | .top => { p with top := .blank }
  | .outputDir => { p with outputDir := none }
  | _ => p

def takeValue (p : Progress) (s : Switch) (value : String) : Except Halt Progress :=
  if value = "--" then .ok (p.takeBlank s)
  else
    match s with
    | .top =>
        match Numeral.ofArgument? value with
        | some n => .ok { p with top := .number n }
        | none => .error (.refused (.notInteger s value))
    | .outputDir => .ok { p with outputDir := some (Files.Path.ofString value) }
    | _ => .ok p

/-- Puts aside what cannot be used. -/
def putAside (p : Progress) (text : String) : Progress := { p with extras := text :: p.extras }

/-- Takes an operand: the archive, or one too many. -/
def takeOperand (p : Progress) (text : String) : Progress :=
  match p.archive with
  | none => { p with archive := some text }
  | some _ => p.putAside text

/-- Takes the switches of one argument. The value of the last of them may be the next
argument; whether it is, comes with the result. -/
def takeCluster (p : Progress) (c : Except Refusal Cluster) (ws : List Word) :
    Except Halt (Progress × Bool) := do
  let c ← c.mapError .refused
  match c.last, ws with
  | some (s, none), .operand value :: _ => do
      let p ← takeFlags c.flags p
      return (← p.takeValue s value, true)
  | some (s, none), _ => .error (.refused (.valueMissing s))
  | some (s, some value), _ => do
      let p ← takeFlags c.flags p
      return (← p.takeValue s value, false)
  | none, _ => do return (← takeFlags c.flags p, false)

/-- Takes all arguments. A separator beside the archive is taken with it. `skips` says
whether the next argument has been taken as a value. -/
def takeAll : (skips : Bool) → List Word → Progress → Except Halt Progress
  | _, [], p => .ok p
  | true, _ :: ws, p => takeAll false ws p
  | false, .operand text :: ws, p =>
      takeAll (p.archive.isNone && ws.head? == some .separator) ws (p.takeOperand text)
  | false, .separator :: ws, p =>
      takeAll false ws (if p.archive.isNone && !ws.isEmpty then p else p.putAside "--")
  | false, .unknown text :: ws, p => takeAll false ws (p.putAside text)
  | false, .short s attached :: ws, p => do
      let (p, skips) ← p.takeCluster (Cluster.ofShort s attached) ws
      takeAll skips ws p
  | false, .long s value :: ws, p => do
      let (p, skips) ← p.takeCluster (Cluster.ofLong s value) ws
      takeAll skips ws p

/-- The arguments, if the archive is among them and nothing has been put aside. -/
def finish (p : Progress) : Except Refusal Arguments :=
  match p.archive with
  | none => .error .archiveMissing
  | some archive =>
      if p.extras.isEmpty then .ok ⟨archive, p.top, p.outputDir, p.verbose⟩
      else .error (.unrecognized p.extras.reverse)

end Progress

namespace Arguments

/-- What the arguments of a command line ask for. -/
def parse (arguments : List String) : Except Halt Arguments := do
  let ws ← (Word.ofArguments arguments).mapError .refused
  let p ← Progress.takeAll false ws {}
  p.finish.mapError .refused

end Arguments
end JarRank.CommandLine
