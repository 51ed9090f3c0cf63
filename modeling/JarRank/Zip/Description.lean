import JarRank.Text.Quoted
import JarRank.Zip.Directory

/-!
# Descriptions of members

How a member that is encrypted is described in the message about it: its path,
its compression method, its mode and attributes, and its sizes, each only where
it says something.
-/
namespace JarRank.Zip

/-- The names of compression methods, by number. -/
def methodNames : List (Nat × String) := [
  (0, "store"), (1, "shrink"), (2, "reduce"), (3, "reduce"), (4, "reduce"), (5, "reduce"),
  (6, "implode"), (7, "tokenize"), (8, "deflate"), (9, "deflate64"), (10, "implode"),
  (12, "bzip2"), (14, "lzma"), (18, "terse"), (19, "lz77"), (97, "wavpack"), (98, "ppmd")]

def methodName (method : Nat) : String := (methodNames.lookup method).getD (toString method)

/-- The letter of a kind of file. -/
def kindLetter (mode : Nat) : Char :=
  let kind := mode / 0x1000 % 16
  if kind = 8 then '-'
  else if kind = 4 then 'd'
  else if kind = 10 then 'l'
  else if kind = 6 then 'b'
  else if kind = 2 then 'c'
  else if kind = 1 then 'p'
  else if kind = 12 then 's'
  else '?'

/-- The letters of one class of permissions; `special` is the letter of the further
bit that the class has, in lower case. -/
def permissionLetters (bits : Nat) (isSpecial : Bool) (special : Char) : List Char :=
  let canExecute := bits % 2 == 1
  [if bits / 4 % 2 = 1 then 'r' else '-', if bits / 2 % 2 = 1 then 'w' else '-',
    if isSpecial then (if canExecute then special else special.toUpper)
    else if canExecute then 'x' else '-']

/-- The ten letters of a file mode. -/
def modeLetters (mode : Nat) : String :=
  String.ofList (kindLetter mode ::
    permissionLetters (mode / 64 % 8) (mode / 0x800 % 2 == 1) 's' ++
    permissionLetters (mode / 8 % 8) (mode / 0x400 % 2 == 1) 's' ++
    permissionLetters (mode % 8) (mode / 0x200 % 2 == 1) 't')

def Member.description (m : Member) : String :=
  let mode := m.attributes / 0x10000
  let low := m.attributes % 0x10000
  let part (isShown : Bool) (s : String) : String := if isShown then s else ""
  "<ZipInfo filename=" ++ Quoted.text m.path ++
    part (m.method != 0) (" compress_type=" ++ methodName m.method) ++
    part (mode != 0) (" filemode='" ++ modeLetters mode ++ "'") ++
    part (low != 0) (" external_attr=0x" ++ Hex.lower 1 low) ++
    part (!m.isDirectory || m.size != 0) (" file_size=" ++ toString m.size) ++
    part ((!m.isDirectory || m.packedSize != 0) && (m.method != 0 || m.size != m.packedSize))
      (" compress_size=" ++ toString m.packedSize) ++ ">"

end JarRank.Zip
