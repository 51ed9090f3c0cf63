import JarRank.Text.Digit

/-!
# Files of settings

A file of settings has a binding on each line: a name, an equals sign and a
value. `export` may stand before the name. A value in quotes may have escapes
and go over several lines; one without quotes ends before a blank and a number
sign, also where nothing stands before these, or with the line. A line that is
no binding is passed over, and a name without an equals sign is bound to
nothing. Names in braces behind a dollar sign stand for what they are bound to
further up, or in the environment. A byte order mark in front says nothing.
-/
namespace JarRank.Service.Dotenv

/-- Whether a character is blank; the four separators of ASCII are, too. -/
def isSpace (c : Char) : Bool := Digit.isBlank c || (0x1C ≤ c.toNat && c.toNat ≤ 0x1F)

/-- Whether a character is blank and does not end a line. -/
def isInline (c : Char) : Bool := isSpace c && c != '\n'

/-- The text without a byte order mark. -/
def withoutMark : List Char → List Char
  | '\uFEFF' :: cs => cs
  | cs => cs

/-- The text with line feeds alone as the ends of lines. -/
def unifyLines : List Char → List Char
  | '\r' :: '\n' :: cs => '\n' :: unifyLines cs
  | '\r' :: cs => '\n' :: unifyLines cs
  | c :: cs => c :: unifyLines cs
  | [] => []

/-- The text behind `export` and blanks, if it begins with them. -/
def skipExport (cs : List Char) : List Char :=
  let word := "export".toList
  let rest := cs.drop word.length
  if word.isPrefixOf cs ∧ rest.head?.any isInline then rest.dropWhile isInline else cs

/-- The character that an escape in double quotes stands for. -/
def doubleEscape? (c : Char) : Option Char :=
  if c = '\\' ∨ c = '\'' ∨ c = '"' then some c
  else if c = 'a' then some '\x07'
  else if c = 'b' then some '\x08'
  else if c = 'f' then some '\x0c'
  else if c = 'n' then some '\n'
  else if c = 'r' then some '\r'
  else if c = 't' then some '\t'
  else if c = 'v' then some '\x0b'
  else none

/-- The character that an escape in single quotes stands for. -/
def singleEscape? (c : Char) : Option Char := if c = '\\' ∨ c = '\'' then some c else none

/-- The value in quotes, up to the first quote that belongs to no escape, and what follows
it. A backslash makes an escape with any character behind it; one that stands for nothing
else stands for itself. `acc` is the value so far, in reverse. -/
def quoted (quote : Char) (escape? : Char → Option Char) :
    List Char → (acc : List Char) → Option (List Char × List Char)
  | [], _ => none
  | '\\' :: c :: cs, acc =>
      match escape? c with
      | some d => quoted quote escape? cs (d :: acc)
      | none => quoted quote escape? cs (c :: '\\' :: acc)
  | c :: cs, acc =>
      if c = quote then some (acc.reverse, cs) else quoted quote escape? cs (c :: acc)

/-- A line up to the first number sign behind a blank; `blank` says whether one stands
before the line. -/
def upToComment : (blank : Bool) → List Char → List Char
  | _, [] => []
  | blank, c :: cs => if blank ∧ c = '#' then [] else c :: upToComment (isSpace c) cs

/-- A value without quotes: its line without a comment, and without blanks at its end. -/
def plain (blank : Bool) (line : List Char) : List Char :=
  ((upToComment blank line).reverse.dropWhile isSpace).reverse

/-- The value behind an equals sign, and what follows it. -/
def value (cs : List Char) : Option (List Char × List Char) :=
  match cs.dropWhile isInline with
  | '\'' :: rest => quoted '\'' singleEscape? rest []
  | '"' :: rest => quoted '"' doubleEscape? rest []
  | rest =>
      some (plain (cs.head?.any isInline) (rest.takeWhile (· ≠ '\n')), rest.dropWhile (· ≠ '\n'))

/-- The name that begins here, and what follows it; a comment has none. -/
def key (cs : List Char) : Option (Option (List Char) × List Char) :=
  match cs with
  | '#' :: _ => some (none, cs)
  | '\'' :: rest =>
      let name := rest.takeWhile (· ≠ '\'')
      match rest.dropWhile (· ≠ '\'') with
      | _ :: behind => if name.isEmpty then none else some (some name, behind)
      | [] => none
  | _ =>
      let isName (c : Char) : Bool := c != '=' && c != '#' && !isSpace c
      let name := cs.takeWhile isName
      if name.isEmpty then none else some (some name, cs.dropWhile isName)

/-- The text behind the end of the line, which only a comment may stand before. -/
def endOfLine? (cs : List Char) : Option (List Char) :=
  match cs.dropWhile isInline with
  | [] => some []
  | '\n' :: rest => some rest
  | '#' :: rest => some ((rest.dropWhile (· ≠ '\n')).drop 1)
  | _ => none

/-- A name and what it is bound to, if it is. -/
abbrev Binding := String × Option String

/-- The binding that begins here, if there is one, and what follows its line. -/
def binding (cs : List Char) : Option Binding × List Char :=
  let nextLine (cs : List Char) := (cs.dropWhile (· ≠ '\n')).drop 1
  match key (skipExport cs) with
  | none => (none, nextLine (skipExport cs))
  | some (name, rest) =>
      let rest := rest.dropWhile isInline
      let (found, rest) :=
        match rest with
        | '=' :: rest =>
            match value rest with
            | some (v, rest) => (some (some (String.ofList v)), rest)
            | none => (none, rest)
        | rest => (some none, rest)
      match found, endOfLine? rest with
      | some v, some rest => (name.map fun name => (String.ofList name, v), rest)
      | _, _ => (none, nextLine rest)

/-- The bindings of a text, in order. -/
def bindings : (fuel : Nat) → List Char → List Binding
  | 0, _ => []
  | fuel + 1, cs =>
      match cs.dropWhile isSpace with
      | [] => []
      | cs =>
          match binding cs with
          | (some b, rest) => b :: bindings fuel rest
          | (none, rest) => bindings fuel rest

/-- A name in braces behind a dollar sign, with what stands for it where it is not bound,
and what follows. -/
def reference? (cs : List Char) : Option ((String × String) × List Char) :=
  match cs with
  | '$' :: '\x7b' :: cs =>
      let name := String.ofList (cs.takeWhile fun c => c ≠ '\x7d' && c ≠ ':')
      match cs.dropWhile fun c => c ≠ '\x7d' && c ≠ ':' with
      | '\x7d' :: rest => some ((name, ""), rest)
      | ':' :: '-' :: rest =>
          match rest.dropWhile (· ≠ '\x7d') with
          | _ :: behind => some ((name, String.ofList (rest.takeWhile (· ≠ '\x7d'))), behind)
          | [] => none
      | _ => none
  | _ => none

/-- The text with what its references stand for. -/
def interpolate (lookup : String → Option String) : (fuel : Nat) → List Char → List Char
  | 0, cs => cs
  | _ + 1, [] => []
  | fuel + 1, c :: cs =>
      match reference? (c :: cs) with
      | some ((name, default), rest) =>
          ((lookup name).getD default).toList ++ interpolate lookup fuel rest
      | none => c :: interpolate lookup fuel cs

/-- Binds a name, in place of what it is bound to. -/
def bind (b : Binding) : List Binding → List Binding
  | [] => [b]
  | c :: bs => if c.1 = b.1 then b :: bs else c :: bind b bs

/-- What the names of a text are bound to, in the order of their first bindings. -/
def parse (environment : List (String × String)) (text : String) : List Binding :=
  let cs := unifyLines (withoutMark text.toList)
  (bindings cs.length cs).foldl (fun bound (name, v) =>
    let lookup (other : String) : Option String :=
      match bound.lookup other with
      | some v => some (v.getD "")
      | none => environment.lookup other
    let v := v.map fun v => String.ofList (interpolate lookup v.length v.toList)
    bind (name, v) bound) []

end JarRank.Service.Dotenv
