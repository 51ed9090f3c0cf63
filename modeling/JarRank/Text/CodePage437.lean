import JarRank.Bytes.Number

/-!
# Code page 437

The character set of member names in archives that do not declare UTF-8. The
lower half is ASCII, the upper half the table below; every byte has a character,
so that reading never fails.
-/
namespace JarRank.CodePage437

/-- The characters of the bytes from `80` to `FF`. -/
def upperHalf : Array Char := (
  "ÇüéâäàåçêëèïîìÄÅÉæÆôöòûùÿÖÜ¢£¥₧ƒ" ++
  "áíóúñÑªº¿⌐¬½¼¡«»░▒▓│┤╡╢╖╕╣║╗╝╜╛┐" ++
  "└┴┬├─┼╞╟╚╔╩╦╠═╬╧╨╤╥╙╘╒╓╫╪┘┌█▄▌▐▀" ++
  "αßΓπΣσµτΦΘΩδ∞φε∩≡±≥≤⌠⌡÷≈°∙·√ⁿ²■\u00a0").toList.toArray

def char (b : UInt8) : Char :=
  if b < 0x80 then Char.ofNat b.toNat else upperHalf.getD (b.toNat - 0x80) ' '

def decode (bs : Bytes) : String := String.ofList (bs.map char)

end JarRank.CodePage437
