import JarRank.Proofs.ClassFile.Rejection
import JarRank.Proofs.ClassFile.Slots

/-!
# Tags that are not assigned

A byte is taken for a tag only where a constant is due: behind the declared count and some
constants that are written in full, while the slots that these take leave one below the count.
If the byte announces no kind of constant, the fault names it, the index of the slot that is due
and the offset of the byte, and the cursor stands right behind it.

A fault of this kind is met nowhere else. Inside a constant no byte is looked at as a tag, and
where the declared count is used up the table is complete, whatever stands behind it.
-/
namespace JarRank.ClassFile

open Layout (word)
open Reader

theorem Reader.FailsShort.ne_unknownTag {α : Type} {r : Reader Cursor Fault α} (h : r.FailsShort)
    {c d : Cursor} {tag index : Nat} {offset : Int} :
    r c ≠ (.error (.unknownTag tag index offset), d) := by
  intro hr
  rcases h c d _ hr with ⟨_, _, _, _, he⟩
  cases he

namespace Pool

variable {c d : Cursor} {tag index : Nat} {offset : Int}

theorem u8_eq_ok_iff {n : Nat} :
    u8 c = (.ok n, d) ↔ ∃ b : UInt8, n = b.toNat ∧ c.Passes [b] d := by
  rw [u8, accepts_number 1 c d n]
  constructor
  · intro h
    rcases h with ⟨bs, ⟨hlen, rfl⟩, hp⟩
    rcases List.length_eq_one_iff.1 hlen with ⟨b, rfl⟩
    exact ⟨b, by simp [Bytes.bigEndian], hp⟩
  · intro h
    rcases h with ⟨b, rfl, hp⟩
    exact ⟨[b], ⟨rfl, by simp [Bytes.bigEndian]⟩, hp⟩

/-- A constant is at fault for its tag only if this is the next byte. -/
theorem readConstant_eq_unknownTag_iff {due : Nat} :
    readConstant due c = (.error (.unknownTag tag index offset), d) ↔
      ∃ stray : UInt8, (∀ k : Kind, k.tag ≠ stray.toNat) ∧ c.Passes [stray] d ∧
        tag = stray.toNat ∧ index = due ∧ offset = c.position := by
  have hread : readConstant due c = (u8 >>= fun t =>
      (Kind.ofTag? t).elim (Reader.fail (.unknownTag t due c.position)) readPayload) c := by
    rw [readConstant_eq]
    rfl
  rw [hread, bind_eq_error_iff]
  constructor
  · intro h
    rcases h with h | ⟨t, c', ht, h⟩
    · exact ((number_failsShort 1).ne_unknownTag h).elim
    · rcases u8_eq_ok_iff.1 ht with ⟨b, rfl, hp⟩
      cases hk : Kind.ofTag? b.toNat with
      | none =>
          rw [hk] at h
          cases h
          exact ⟨b, Kind.ofTag?_eq_none_iff.1 hk, hp, rfl, rfl, rfl⟩
      | some kind =>
          rw [hk] at h
          exact ((readPayload_failsShort kind).ne_unknownTag h).elim
  · intro h
    rcases h with ⟨stray, hstray, hp, rfl, rfl, rfl⟩
    refine .inr ⟨stray.toNat, d, u8_eq_ok_iff.2 ⟨stray, rfl, hp⟩, ?_⟩
    rw [Kind.ofTag?_eq_none_iff.2 hstray]
    rfl

/-- Behind a constant the slots are filled that are left without its own. -/
theorem fill_kept (i : Item) (left : Nat) (slots : Array (Option Constant)) :
    (fill left i.kept.kind.isWide (slots.push (some i.kept)) : Reader Cursor Fault Pool) =
      fill (left + 1 - i.slotWidth) false (slots ++ i.slots.toArray) := by
  rw [fill_behind, Item.kind_kept]
  rfl

/-- A constant that is due is read, and the next slots are filled behind it. -/
theorem fill_item {i : Item} (hi : i.Fits) {left : Nat} (hleft : 0 < left)
    (slots : Array (Option Constant)) (h : c.Passes i.bytes d) :
    fill left false slots c = fill (left - i.slotWidth) false (slots ++ i.slots.toArray) d := by
  obtain ⟨left, rfl⟩ : ∃ n, left = n + 1 := ⟨left - 1, by omega⟩
  have hread : readConstant slots.size c = (.ok i.kept, d) :=
    (accepts_readConstant slots.size c d i.kept).2 ⟨i.bytes, ⟨i, ⟨hi, rfl⟩, rfl⟩, h⟩
  rw [fill_succ]
  refine (bind_eq_of_ok hread).trans ?_
  rw [fill_kept]

/-- Constants all of which are due are read one after another. -/
theorem fill_items {is : List Item} (his : ∀ i ∈ is, i.Fits) {left : Nat}
    (hleft : (is.map Item.slotWidth).sum < left) (slots : Array (Option Constant))
    (h : c.Passes (is.flatMap Item.bytes) d) :
    fill left false slots c = fill (left - (is.map Item.slotWidth).sum) false
      (slots ++ (is.flatMap Item.slots).toArray) d := by
  induction is generalizing left slots c with
  | nil =>
      rw [List.flatMap_nil, Cursor.Passes.nil_iff] at h
      subst h
      simp
  | cons i is ih =>
      rcases List.forall_mem_cons.1 his with ⟨hi, his⟩
      rcases Cursor.Passes.append_iff.1 h with ⟨c', hp, hp'⟩
      rw [List.map_cons, List.sum_cons] at hleft ⊢
      rw [fill_item hi (by omega) slots hp, ih his (by omega) _ hp']
      simp [Nat.sub_sub]

/-- Filling slots stops at a tag that is not assigned only behind constants that leave a slot to
fill. -/
theorem exists_of_fill_eq_unknownTag {left : Nat} {slots : Array (Option Constant)}
    (h : fill left false slots c = (.error (.unknownTag tag index offset), d)) :
    ∃ (is : List Item) (stray : UInt8), (∀ i ∈ is, i.Fits) ∧ (∀ k : Kind, k.tag ≠ stray.toNat) ∧
      c.Passes (is.flatMap Item.bytes ++ [stray]) d ∧ (is.map Item.slotWidth).sum < left ∧
      tag = stray.toNat ∧ index = slots.size + (is.map Item.slotWidth).sum ∧
      offset = c.position + (is.flatMap Item.bytes).length := by
  -- A constant takes one slot or two, so that the number left may fall by more than one.
  induction left using Nat.strongRecOn generalizing slots c with
  | ind left ih =>
      cases left with
      | zero => cases h
      | succ left =>
          rw [fill_succ] at h
          rcases bind_eq_error_iff.1 h with h | ⟨k, c', hk, h⟩
          · rcases readConstant_eq_unknownTag_iff.1 h with ⟨stray, hstray, hp, rfl, rfl, rfl⟩
            exact ⟨[], stray, by simp, hstray, hp, Nat.succ_pos left, rfl, rfl, by simp⟩
          · rcases (accepts_readConstant slots.size).sound hk with ⟨_, ⟨i, ⟨hi, rfl⟩, rfl⟩, hp⟩
            have hwidth := i.slotWidth_pos
            rw [fill_kept] at h
            rcases ih (left + 1 - i.slotWidth) (by omega) h with
              ⟨is, stray, his, hstray, hp', hsum, rfl, rfl, rfl⟩
            refine ⟨i :: is, stray, List.forall_mem_cons.2 ⟨hi, his⟩, hstray, ?_, ?_, rfl, ?_, ?_⟩
            · rw [List.flatMap_cons, List.append_assoc]
              exact hp.trans hp'
            · rw [List.map_cons, List.sum_cons]
              omega
            · simp [Nat.add_assoc]
            · rw [hp.2, List.flatMap_cons, List.length_append]
              push_cast
              omega

/-- Filling slots stops at a tag that is not assigned exactly where constants stand in front of it
that leave a slot to fill. -/
theorem fill_eq_unknownTag_iff {left : Nat} {slots : Array (Option Constant)} :
    fill left false slots c = (.error (.unknownTag tag index offset), d) ↔
      ∃ (is : List Item) (stray : UInt8), (∀ i ∈ is, i.Fits) ∧ (∀ k : Kind, k.tag ≠ stray.toNat) ∧
        c.Passes (is.flatMap Item.bytes ++ [stray]) d ∧ (is.map Item.slotWidth).sum < left ∧
        tag = stray.toNat ∧ index = slots.size + (is.map Item.slotWidth).sum ∧
        offset = c.position + (is.flatMap Item.bytes).length := by
  constructor
  · exact exists_of_fill_eq_unknownTag
  · intro h
    rcases h with ⟨is, stray, his, hstray, hp, hsum, rfl, rfl, rfl⟩
    rcases Cursor.Passes.append_iff.1 hp with ⟨c', hp, hp'⟩
    obtain ⟨rest, hrest⟩ : ∃ n, left - (is.map Item.slotWidth).sum = n + 1 :=
      ⟨left - (is.map Item.slotWidth).sum - 1, by omega⟩
    rw [fill_items his hsum slots hp, hrest, fill_succ]
    refine bind_eq_error_iff.2 (.inl (readConstant_eq_unknownTag_iff.2 ?_))
    exact ⟨stray, hstray, hp', rfl, by simp, hp.2.symm⟩

/-- Where constants use up all slots that are left, nothing is looked at behind them. -/
theorem exists_fill_eq_ok {is : List Item} (his : ∀ i ∈ is, i.Fits) {left : Nat}
    (hleft : left ≤ (is.map Item.slotWidth).sum) (slots : Array (Option Constant))
    (h : c.Passes (is.flatMap Item.bytes) d) : ∃ p, (fill left false slots c).1 = .ok p := by
  induction is generalizing left slots c with
  | nil =>
      obtain rfl : left = 0 := Nat.le_zero.1 hleft
      exact ⟨⟨slots⟩, rfl⟩
  | cons i is ih =>
      rcases Nat.eq_zero_or_pos left with rfl | hpos
      · exact ⟨⟨slots⟩, rfl⟩
      · rcases List.forall_mem_cons.1 his with ⟨hi, his⟩
        rcases Cursor.Passes.append_iff.1 h with ⟨c', hp, hp'⟩
        rw [List.map_cons, List.sum_cons] at hleft
        rw [fill_item hi hpos slots hp]
        exact ih his (by omega) _ hp'

/-- Behind the declared count the slots are filled from the first one on. -/
theorem read_of_passes {declared : UInt16} (h : c.Passes (word declared) d) :
    Pool.read c = fill (declared.toNat - 1) false empty.slots d := by
  have hcount : u16 c = (.ok declared.toNat, d) :=
    (accepts_u16 c d declared.toNat).2 ⟨_, ⟨declared, rfl, rfl⟩, h⟩
  exact bind_eq_of_ok hcount

theorem read_eq_unknownTag_iff :
    Pool.read c = (.error (.unknownTag tag index offset), d) ↔
      ∃ (declared : UInt16) (is : List Item) (stray : UInt8), (∀ i ∈ is, i.Fits) ∧
        (∀ k : Kind, k.tag ≠ stray.toNat) ∧
        c.Passes (word declared ++ is.flatMap Item.bytes ++ [stray]) d ∧ tag = stray.toNat ∧
        index = 1 + (is.map Item.slotWidth).sum ∧ index < declared.toNat ∧
        offset = c.position + 2 + (is.flatMap Item.bytes).length := by
  have hsize : empty.slots.size = 1 := rfl
  constructor
  · intro h
    have hread : Pool.read c = (u16 >>= fun n => fill (n - 1) false empty.slots) c := rfl
    rw [hread] at h
    rcases bind_eq_error_iff.1 h with h | ⟨n, c', hn, h⟩
    · exact (u16_failsShort.ne_unknownTag h).elim
    · rcases accepts_u16.sound hn with ⟨_, ⟨declared, rfl, rfl⟩, hp⟩
      rcases fill_eq_unknownTag_iff.1 h with ⟨is, stray, his, hstray, hp', hsum, rfl, rfl, rfl⟩
      rw [hsize, hp.2, Layout.length_word]
      refine ⟨declared, is, stray, his, hstray, ?_, rfl, rfl, by omega, rfl⟩
      rw [List.append_assoc]
      exact hp.trans hp'
  · intro h
    rcases h with ⟨declared, is, stray, his, hstray, hp, rfl, rfl, hindex, rfl⟩
    rw [List.append_assoc] at hp
    rcases Cursor.Passes.append_iff.1 hp with ⟨c', hp, hp'⟩
    rw [read_of_passes hp, fill_eq_unknownTag_iff]
    refine ⟨is, stray, his, hstray, hp', by omega, rfl, rfl, ?_⟩
    rw [hp.2, Layout.length_word]
    rfl

/-- From any cursor, reading a table stops at a tag exactly where the bytes begin with a count and
constants that are written in full, with a byte behind them that is no tag, while the slots taken
leave one below the count; the fault names that byte, that slot and the offset, and nothing behind
the byte is passed. So the offset is never within a constant that is due, and behind constants that
use up the count there is none. -/
theorem unknownTag_reported (c : Cursor) :
    (∀ (tag index : Nat) (offset : Int) (d : Cursor),
      Pool.read c = (.error (.unknownTag tag index offset), d) ↔
        ∃ (declared : UInt16) (is : List Item) (stray : UInt8), (∀ i ∈ is, i.Fits) ∧
          (∀ k : Kind, k.tag ≠ stray.toNat) ∧
          c.Passes (word declared ++ is.flatMap Item.bytes ++ [stray]) d ∧ tag = stray.toNat ∧
          index = 1 + (is.map Item.slotWidth).sum ∧ index < declared.toNat ∧
          offset = c.position + 2 + (is.flatMap Item.bytes).length) ∧
      (∀ (declared : UInt16) (front : List Item) (i : Item) (d d' : Cursor),
        (∀ j ∈ front, j.Fits) → i.Fits → 1 + (front.map Item.slotWidth).sum < declared.toNat →
        c.Passes (word declared ++ front.flatMap Item.bytes) d → d.Passes i.bytes d' →
        ∀ (tag index : Nat) (offset : Int),
          (Pool.read c).1 = .error (.unknownTag tag index offset) → d'.position ≤ offset) ∧
      ∀ (declared : UInt16) (is : List Item) (d : Cursor), (∀ i ∈ is, i.Fits) →
        declared.toNat ≤ 1 + (is.map Item.slotWidth).sum →
        c.Passes (word declared ++ is.flatMap Item.bytes) d → ∃ p, (Pool.read c).1 = .ok p := by
  refine ⟨fun tag index offset d => read_eq_unknownTag_iff, ?_, ?_⟩
  · intro declared front i d d' hfront hi hdue hp hp' tag index offset h
    rcases Cursor.Passes.append_iff.1 hp with ⟨c', hcount, hp⟩
    rw [read_of_passes hcount, fill_items hfront (by omega) _ hp,
      fill_item hi (by omega) _ hp'] at h
    have hfault := fill_eq_unknownTag_iff.1 (Prod.ext h rfl)
    rcases hfault with ⟨is, _, _, _, _, _, _, _, hoffset⟩
    omega
  · intro declared is d his hused hp
    rcases Cursor.Passes.append_iff.1 hp with ⟨c', hcount, hp⟩
    rw [read_of_passes hcount]
    exact exists_fill_eq_ok his (by omega) _ hp

/-- The text of the only constant holds the same byte, which is passed over there. -/
theorem unknownTag_reported_behind_text :
    Pool.read (⟨0, [0, 3, 1, 0, 2, 2, 13, 2, 9]⟩ : Cursor) = (.error (.unknownTag 2 2 7), ⟨8, [9]⟩) :=
  ((unknownTag_reported ⟨0, [0, 3, 1, 0, 2, 2, 13, 2, 9]⟩).1 2 2 7 ⟨8, [9]⟩).2
    ⟨3, [.utf8 [2, 13]], 2, by simp [Item.Fits], Kind.ofTag?_eq_none_iff.1 rfl,
      ⟨by decide, by decide⟩, rfl, rfl, by decide, by decide⟩

end Pool
end JarRank.ClassFile
