import JarRank.Proofs.ClassFile.Slots
import JarRank.Proofs.ClassFile.Walkers
import JarRank.Proofs.Text.Utf8

/-!
# How the code of a method is told

An attribute of a method is its code if the name that its index leads to is the one that is asked
for. What is kept of a name is the lossy reading of its bytes, which gives U+FFFD for everything
that is malformed. If the name that is asked for has no U+FFFD, the bytes of the constant are
therefore compared in effect: an attribute is the code exactly if they are the encoding of the name.
No other bytes are taken for it, and the encoding never fails to be.
-/
namespace JarRank.ClassFile

open Layout (word)
open Reader

namespace Item

/-- A constant in the slots of others stands behind the slots of those before it. -/
theorem exists_of_getElem?_slots {is : List Item} {m : Nat} {k : Constant}
    (h : (is.flatMap slots)[m]? = some (some k)) :
    ∃ (j : Nat) (i : Item), is[j]? = some i ∧ i.kept = k ∧ m = ((is.take j).map slotWidth).sum := by
  induction is generalizing m with
  | nil => simp at h
  | cons i is ih =>
      rw [List.flatMap_cons] at h
      by_cases hm : m < i.slots.length
      · rw [List.getElem?_append_left hm, slots] at h
        cases m with
        | zero => exact ⟨0, i, rfl, by simpa using h, rfl⟩
        | succ m =>
            -- The second slot of a wide constant is empty.
            rw [List.getElem?_cons_succ] at h
            split at h
            · cases m <;> simp at h
            · simp at h
      · rw [List.getElem?_append_right (Nat.not_lt.1 hm), length_slots] at h
        rw [length_slots] at hm
        obtain ⟨j, i', hj, hkept, hm'⟩ := ih h
        refine ⟨j + 1, i', hj, hkept, ?_⟩
        rw [List.take_succ_cons, List.map_cons, List.sum_cons, ← hm']
        omega

end Item

/-- A text constant with some bytes stands at an index of the table of some constants. -/
def TextAt (is : List Item) (n : Nat) (raw : Bytes) : Prop :=
  ∃ k, is[k]? = some (.utf8 raw) ∧ n = 1 + ((is.take k).map Item.slotWidth).sum

namespace Pool

/-- An index leads to the text that its bytes are read as. -/
theorem text_ofItems_iff {is : List Item} {n : Nat} {s : String} :
    (ofItems is).text n = .ok s ↔ ∃ raw, TextAt is n raw ∧ Utf8.decodeLossy raw = s := by
  rw [text_eq_ok_iff, HasText, Holds, Int.toNat_natCast]
  constructor
  · rintro ⟨hn, hslot⟩
    obtain ⟨m, rfl⟩ : ∃ m, n = m + 1 := ⟨n - 1, by omega⟩
    rw [ofItems, List.getElem?_toArray, List.getElem?_cons_succ] at hslot
    obtain ⟨j, i, hj, hkept, rfl⟩ := Item.exists_of_getElem?_slots hslot
    cases i with
    | utf8 raw => exact ⟨raw, ⟨j, hj, Nat.add_comm _ _⟩, Constant.utf8.inj hkept⟩
    | classRef | nameAndType | payload => cases hkept
  · rintro ⟨raw, ⟨k, hk, rfl⟩, rfl⟩
    exact ⟨by omega, getElem?_ofItems_take hk⟩

/-- A text constant is kept as the lossy reading of its bytes. -/
theorem readConstant_utf8 {raw : Bytes} (hlength : raw.length < 0x10000) (index : Nat) {c d : Cursor}
    (h : c.Passes (Item.utf8 raw).bytes d) :
    readConstant index c = (.ok (.utf8 (Utf8.decodeLossy raw)), d) :=
  (accepts_readConstant index c d _).2 ⟨_, ⟨.utf8 raw, ⟨hlength, rfl⟩, rfl⟩, h⟩

end Pool

namespace Section

variable {is : List Item} {name : String}

/-- Which attributes of a method are the code, with the constants of the table that their names are
looked up in. -/
structure TellsCode (p : Pool) (is : List Item) (name : String) : Prop where
  text_iff : ∀ n : Nat, p.text n = .ok name ↔ TextAt is n (Utf8.encode name)
  code : ∀ (c d : Cursor) (index : UInt16) (length : Nat), HeadedBy c d index length →
    TextAt is index.toNat (Utf8.encode name) → methodAttribute p name c = codeBody length d
  /-- An attribute with any other name is passed over. -/
  other : ∀ (c d : Cursor) (index : UInt16) (length : Nat) (raw : Bytes), HeadedBy c d index length →
    TextAt is index.toNat raw → raw ≠ Utf8.encode name →
    methodAttribute p name c = (advance length >>= fun _ => pure none) d
  nameless : ∀ (c d : Cursor) (index : UInt16) (length : Nat), HeadedBy c d index length →
    (∀ raw, ¬ TextAt is index.toNat raw) →
    ∃ e, p.TextFault index.toNat e ∧ methodAttribute p name c = (.error e, d)

/-- A name is compared by the bytes that encode it, in the constants and in the attributes. -/
structure ToldByEncoding (name : String) : Prop where
  /-- What is kept of a text is the name exactly if its bytes are the encoding of the name, and if
  they are the encoding of no text, a U+FFFD is kept. -/
  kept : ∀ (raw : Bytes) (index : Nat) (c d : Cursor), raw.length < 0x10000 →
    c.Passes (Item.utf8 raw).bytes d → ∃ text, Pool.readConstant index c = (.ok (.utf8 text), d) ∧
      (text = name ↔ raw = Utf8.encode name) ∧
      ((∀ s, raw ≠ Utf8.encode s) → Utf8.replacement ∈ text.toList)
  told : ∀ (c d : Cursor) (p : Pool), Pool.read c = (.ok p, d) →
    ∃ (declared : UInt16) (is : List Item), Layout.Declares declared.toNat is ∧ (∀ i ∈ is, i.Fits) ∧
      c.Passes (word declared ++ is.flatMap Item.bytes) d ∧ TellsCode p is name

theorem text_ofItems_eq_iff (h : Utf8.replacement ∉ name.toList) {n : Nat} :
    (Pool.ofItems is).text n = .ok name ↔ TextAt is n (Utf8.encode name) := by
  rw [Pool.text_ofItems_iff]
  simp [Utf8.decodeLossy_eq_iff h]

theorem tellsCode_ofItems (h : Utf8.replacement ∉ name.toList) :
    TellsCode (Pool.ofItems is) is name where
  text_iff _ := text_ofItems_eq_iff h
  code c d index length hhead hname := by
    rw [methodAttribute_of_headedBy hhead, (text_ofItems_eq_iff h).2 hname]
    exact congrFun (if_pos rfl) d
  other c d index length raw hhead hraw hne := by
    have htext : (Pool.ofItems is).text index.toNat = .ok (Utf8.decodeLossy raw) :=
      Pool.text_ofItems_iff.2 ⟨raw, hraw, rfl⟩
    have hother : Utf8.decodeLossy raw ≠ name := fun he => hne ((Utf8.decodeLossy_eq_iff h).1 he)
    rw [methodAttribute_of_headedBy hhead, htext]
    exact congrFun (if_neg hother) d
  nameless c d index length hhead hnone := by
    rw [methodAttribute_of_headedBy hhead]
    cases htext : (Pool.ofItems is).text index.toNat with
    | ok s =>
        obtain ⟨raw, hraw, _⟩ := Pool.text_ofItems_iff.1 htext
        exact (hnone raw hraw).elim
    | error e => exact ⟨e, Pool.text_eq_error_iff.1 htext, rfl⟩

theorem told_by_encoding (h : Utf8.replacement ∉ name.toList) : ToldByEncoding name where
  kept raw index c d hlength hp := by
    refine ⟨_, Pool.readConstant_utf8 hlength index hp, Utf8.decodeLossy_eq_iff h, ?_⟩
    intro hmalformed
    by_contra hmem
    exact hmalformed _ (Utf8.encode_decodeLossy hmem).symm
  told c d p hr := by
    obtain ⟨_, ⟨declared, is, hdeclares, hfits, rfl, rfl⟩, hp⟩ := Pool.accepts_read.sound hr
    exact ⟨declared, is, hdeclares, hfits, hp, tellsCode_ofItems h⟩

/-- Spelled with two bytes in the place of the second letter, which is one too many, the name is not
kept. -/
theorem told_by_encoding_overlong :
    Utf8.replacement ∉ "Code".toList ∧ ToldByEncoding "Code" ∧
      ∃ text, Pool.readConstant 1 (⟨0, [1, 0, 5, 0x43, 0xC1, 0xAF, 0x64, 0x65]⟩ : Cursor) =
        (.ok (.utf8 text), ⟨8, []⟩) ∧ text ≠ "Code" := by
  have htold : ToldByEncoding "Code" := told_by_encoding (by decide)
  obtain ⟨text, hread, hiff, _⟩ :=
    htold.kept [0x43, 0xC1, 0xAF, 0x64, 0x65] 1 ⟨0, _⟩ ⟨8, []⟩ (by decide) ⟨rfl, rfl⟩
  have hencode : Utf8.encode "Code" = [0x43, 0x6F, 0x64, 0x65] := by
    rw [Utf8.encode_eq]
    decide
  refine ⟨by decide, htold, text, hread, ?_⟩
  rw [ne_eq, hiff, hencode]
  decide

end Section
end JarRank.ClassFile
