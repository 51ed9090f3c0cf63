import JarRank.Text.Digit

/-!
# Integers as people write them

Two readings of a text as an integer, both with blanks around it. On a command
line digits of any script count, with single underscores between them. In a form
only ASCII digits count, zeros in front and a fraction of nothing but zeros are
dropped, and digits that are too many are told from a text that is no number.
-/
namespace JarRank.Numeral

/-- How many digits an integer may have where its text is read or written. -/
def maxDigits : Nat := 4300

/-- A sign in front of a text, as whether it is a minus, and the rest. -/
def splitSign : List Char → Bool × List Char
  | '-' :: cs => (true, cs)
  | '+' :: cs => (false, cs)
  | cs => (false, cs)

/-- The digits of a text with single underscores between them; `value` reads a digit. -/
def digits? (value : Char → Option Nat) : List Char → Option (List Nat)
  | [] => none
  | [c] => (value c).map ([·])
  | c :: '_' :: cs => do return (← value c) :: (← digits? value cs)
  | c :: cs => do return (← value c) :: (← digits? value cs)

def ofDigits (ds : List Nat) : Nat := ds.foldl (fun n d => n * 10 + d) 0

def signed (negative : Bool) (n : Nat) : Int := if negative then -n else n

/-- The integer that an argument on the command line spells. -/
def ofArgument? (s : String) : Option Int := do
  let (negative, cs) := splitSign (Digit.trim s.toList)
  let ds ← digits? Digit.value? cs
  if maxDigits < ds.length then none else return signed negative (ofDigits ds)

inductive Refusal where
  | unreadable
  | tooLong
  deriving DecidableEq, Repr

/-- A minus in front of a text, as whether there is one, and the rest. -/
def splitMinus : List Char → Bool × List Char
  | '-' :: cs => (true, cs)
  | cs => (false, cs)

/-- The integer that a bare text spells: digits behind at most a minus, of which
only a lone one may be a zero in front. Digits and minus that are too many together
are told before what follows them is looked at. -/
def ofBare (cs : List Char) : Except Refusal Int :=
  let (negative, body) := splitMinus cs
  let ds := (body.takeWhile fun c => (Digit.ascii? c).isSome).filterMap Digit.ascii?
  let rest := body.dropWhile fun c => (Digit.ascii? c).isSome
  match ds with
  | [] => .error .unreadable
  | 0 :: _ :: _ => .error .unreadable
  | ds =>
      if maxDigits < cs.length - rest.length then .error .tooLong
      else if rest.isEmpty then .ok (signed negative (ofDigits ds))
      else .error .unreadable

/-- Whether a number may begin with a character, once a plus is gone. -/
def opens (c : Char) : Bool := c = '-' || (Digit.ascii? c).isSome

/-- Whether a character may stand among leading zeros. -/
def isFiller (c : Char) : Bool := c = '0' || c = '_'

/-- The text behind its leading zeros, among which underscores may stand; the last
of them is kept where the end or a point follows. The zeros may also stand in front of
a minus. Nothing if the text does not begin as a number does. -/
def stripZeros : List Char → Option (List Char)
  | [] => none
  | '0' :: cs =>
      let zeros := '0' :: cs.takeWhile isFiller
      let last := zeros.drop (zeros.length - 1)
      match cs.dropWhile isFiller with
      | [] => some last
      | '.' :: rest => some (last ++ '.' :: rest)
      | c :: rest => if opens c then some (c :: rest) else none
  | c :: cs => if opens c then some (c :: cs) else none

/-- The text without its fraction, if that is a point with zeros behind it, one at
least, and nothing else. -/
def stripFraction (cs : List Char) : List Char :=
  match cs.dropWhile (· ≠ '.') with
  | '.' :: '0' :: zeros => if zeros.all (· = '0') then cs.takeWhile (· ≠ '.') else cs
  | _ => cs

/-- Whether two underscores stand side by side. -/
def hasDouble : List Char → Bool
  | '_' :: '_' :: _ => true
  | _ :: cs => hasDouble cs
  | [] => false

/-- The text without its underscores. It keeps them all, and so spells no integer, if
one stands at an end or two side by side. -/
def stripUnderscores (cs : List Char) : List Char :=
  if cs.head? = some '_' ∨ cs.getLast? = some '_' ∨ hasDouble cs then cs
  else cs.filter (· ≠ '_')

/-- The bare text within one that a person wrote. -/
def bare (cs : List Char) : Option (List Char) :=
  let unsigned :=
    match Digit.trim cs with
    | '+' :: '-' :: _ => none
    | '+' :: cs => some cs
    | cs => some cs
  (unsigned.bind stripZeros).map fun cs => stripUnderscores (stripFraction cs)

/-- The integer that a text in a form spells: the text is read as it stands, and as
the bare text within it only if that spells none. -/
def ofForm (s : String) : Except Refusal Int :=
  match ofBare s.toList with
  | .error .unreadable =>
      match bare s.toList with
      | some cs => ofBare cs
      | none => .error .unreadable
  | outcome => outcome

end JarRank.Numeral
