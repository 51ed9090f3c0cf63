import JarRank.Bytes.Checksum

/-!
# The table of remainders

Taking in a byte by the table is eight steps of the division.
-/
namespace JarRank.Checksum

theorem remainders_getD {n : Nat} (h : n < 256) :
    remainders.getD n 0 = byteRemainder n.toUInt32 := by
  simp [remainders, Array.getD_eq_getD_getElem?, h]

theorem update_eq (c : UInt32) (b : UInt8) :
    update c b = byteRemainder ((c ^^^ b.toUInt32) &&& 0xFF) ^^^ (c >>> 8) := by
  have hlt : ((c ^^^ b.toUInt32) &&& 0xFF).toNat < 256 := by
    rw [UInt32.toNat_and]
    exact Nat.lt_succ_of_le Nat.and_le_right
  rw [update, remainders_getD hlt]
  simp

end JarRank.Checksum
