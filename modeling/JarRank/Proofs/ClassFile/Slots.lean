import JarRank.Proofs.ClassFile.PoolGrammar
import JarRank.Proofs.ClassFile.Resolution
import Mathlib.Algebra.Ring.Nat

/-!
# The slots of a table that has been read

Slot zero is empty, and every other slot is empty exactly if there is a wide constant in
the slot before it. So the table has as many slots as are declared, and one at least; it
has one more if the slot in the last declared place holds a wide constant. Every constant
stands behind the slots that the constants before it take.

An index is looked up in these slots alone. It leads to a text or to a class exactly where
it is in the table and there is one; any other index fails with a fault that names it, or
names the index of the name if the class is there and its name is not.
-/
namespace JarRank.ClassFile

open Layout (word)

/-- A slot is filled by a constant that takes the next slot as well. -/
def IsWideSlot (slot : Option Constant) : Prop :=
  slot = some (.payload .long) ∨ slot = some (.payload .double)

/-- Of two slots in a row, the second is empty exactly if the first is wide. -/
def Adjoins (a b : Option Constant) : Prop := b = none ↔ IsWideSlot a

theorem not_isWideSlot_none : ¬ IsWideSlot none := by
  simp [IsWideSlot]

namespace Item

theorem isWideSlot_kept_iff (i : Item) : IsWideSlot (some i.kept) ↔ i.kind.isWide = true := by
  cases i with
  | payload q raw => cases q <;> simp [IsWideSlot, kept, kind, Kind.isWide, Payload.isWide]
  | utf8 | classRef | nameAndType => simp [IsWideSlot, kept, kind, Kind.isWide]

theorem adjoins_kept_of_not_wide {a : Option Constant} (h : ¬ IsWideSlot a) (i : Item) :
    Adjoins a (some i.kept) := by
  simp [Adjoins, h]

theorem isChain_slots (is : List Item) {a : Option Constant} (h : ¬ IsWideSlot a) :
    List.IsChain Adjoins (a :: is.flatMap slots) := by
  induction is generalizing a with
  | nil => simp
  | cons i is ih =>
      have hfirst := adjoins_kept_of_not_wide h i
      have hwide := i.isWideSlot_kept_iff
      cases hi : i.kind.isWide with
      | false =>
          rw [hi] at hwide
          have hrest := ih (a := some i.kept) (by simp [hwide])
          have hslots : i.slots = [some i.kept] := by simp [slots, hi]
          rw [List.flatMap_cons, hslots, List.singleton_append, List.isChain_cons_cons]
          exact ⟨hfirst, hrest⟩
      | true =>
          rw [hi] at hwide
          have hrest := ih (a := none) not_isWideSlot_none
          have hslots : i.slots = [some i.kept, none] := by simp [slots, hi]
          have hsecond : Adjoins (some i.kept) none := by simp [Adjoins, hwide]
          rw [List.flatMap_cons, hslots, List.cons_append, List.singleton_append,
            List.isChain_cons_cons, List.isChain_cons_cons]
          exact ⟨hfirst, hsecond, hrest⟩

theorem length_flatMap_slots (is : List Item) :
    (is.flatMap slots).length = (is.map slotWidth).sum := by
  simp [List.length_flatMap]

end Item

namespace Pool

/-- The table of some constants, slot zero included. -/
def ofItems (is : List Item) : Pool := ⟨(none :: is.flatMap Item.slots).toArray⟩

/-- A wide constant stands in a slot. -/
def HoldsWide (p : Pool) (i : Nat) : Prop := ∃ slot, p.slots[i]? = some slot ∧ IsWideSlot slot

/-- What the slots of a table hold, given the count that was declared and the constants that
were read, in their order. -/
structure Tabulates (p : Pool) (declared : Nat) (is : List Item) : Prop where
  first : p.slots[0]? = some none
  empty_iff : ∀ i, 1 ≤ i → i < p.size → (p.slots[i]? = some none ↔ p.HoldsWide (i - 1))
  size_of_wide : p.HoldsWide (declared - 1) → p.size = declared + 1
  size_of_not_wide : ¬ p.HoldsWide (declared - 1) → p.size = max 1 declared
  constant : ∀ (k : Nat) (i : Item), is[k]? = some i →
    p.slots[1 + ((is.take k).map Item.slotWidth).sum]? = some (some i.kept)

/-- What looking up an index gives, for every integer. -/
structure LooksUp (p : Pool) : Prop where
  text_iff : ∀ (i : Int) (s : String), p.text i = .ok s ↔
    1 ≤ i ∧ i < p.size ∧ p.slots[i.toNat]? = some (some (.utf8 s))
  text_fault : ∀ i : Int, (∀ s, p.text i ≠ .ok s) →
    ∃ found, p.Lacks i .utf8 found ∧ p.text i = .error (.badReference i .utf8 found)
  className_iff : ∀ (i : Int) (s : String), p.className i = .ok s ↔
    ∃ n : Nat, (1 ≤ i ∧ i < p.size ∧ p.slots[i.toNat]? = some (some (.classRef n))) ∧
      p.text n = .ok s
  className_fault : ∀ i : Int, (∀ s, p.className i ≠ .ok s) →
    (∃ found, p.Lacks i .classRef found ∧
      p.className i = .error (.badReference i .classRef found)) ∨
    ∃ (n : Nat) (found : Finding), p.slots[i.toNat]? = some (some (.classRef n)) ∧
      p.Lacks n .utf8 found ∧ p.className i = .error (.badReference n .utf8 found)

variable {p : Pool}

theorem size_ofItems (is : List Item) : (ofItems is).size = 1 + (is.flatMap Item.slots).length := by
  simp [size, ofItems, Nat.add_comm]

/-- A slot is in the place that the number of slots in front of it tells. -/
theorem getElem?_mk_append (front : List (Option Constant)) (slot : Option Constant)
    (back : List (Option Constant)) :
    (mk (front ++ slot :: back).toArray).slots[front.length]? = some slot := by
  rw [List.getElem?_toArray, List.getElem?_append_right (Nat.le_refl _), Nat.sub_self]
  exact List.getElem?_cons_zero

/-- A constant stands behind the slots of those before it. -/
theorem getElem?_ofItems (front : List Item) (i : Item) (back : List Item) :
    (ofItems (front ++ i :: back)).slots[1 + (front.flatMap Item.slots).length]? =
      some (some i.kept) := by
  have hlist : none :: (front ++ i :: back).flatMap Item.slots =
      (none :: front.flatMap Item.slots) ++
        some i.kept :: ((if i.kind.isWide then [none] else []) ++ back.flatMap Item.slots) := by
    simp [List.flatMap_append, List.flatMap_cons, Item.slots]
  have hlength : (none :: front.flatMap Item.slots).length = 1 + (front.flatMap Item.slots).length := by
    simp [Nat.add_comm]
  rw [ofItems, hlist, ← hlength]
  exact getElem?_mk_append _ _ _

theorem getElem?_ofItems_take {is : List Item} {k : Nat} {i : Item} (hk : is[k]? = some i) :
    (ofItems is).slots[1 + ((is.take k).map Item.slotWidth).sum]? = some (some i.kept) := by
  have hlt : k < is.length := (List.getElem?_eq_some_iff.1 hk).1
  have hat : is[k] = i := (List.getElem?_eq_some_iff.1 hk).2
  have hsplit : is = is.take k ++ i :: is.drop (k + 1) := by
    rw [← hat, ← List.drop_eq_getElem_cons hlt, List.take_append_drop]
  have hslot := getElem?_ofItems (is.take k) i (is.drop (k + 1))
  rw [← hsplit, Item.length_flatMap_slots] at hslot
  exact hslot

/-- Behind a wide constant its second slot is empty. -/
theorem getElem?_ofItems_second (front : List Item) {i : Item} (h : i.kind.isWide = true)
    (back : List Item) :
    (ofItems (front ++ i :: back)).slots[2 + (front.flatMap Item.slots).length]? = some none := by
  have hlist : none :: (front ++ i :: back).flatMap Item.slots =
      (none :: front.flatMap Item.slots ++ [some i.kept]) ++ none :: back.flatMap Item.slots := by
    simp [List.flatMap_append, List.flatMap_cons, Item.slots, h]
  have hlength : (none :: front.flatMap Item.slots ++ [some i.kept]).length =
      2 + (front.flatMap Item.slots).length := by
    simp only [List.cons_append, List.length_cons, List.length_append, List.length_nil]
    omega
  rw [ofItems, hlist, ← hlength]
  exact getElem?_mk_append _ _ _

theorem holdsWide_iff {i : Nat} {slot : Option Constant} (h : p.slots[i]? = some slot) :
    p.HoldsWide i ↔ IsWideSlot slot := by
  simp [HoldsWide, h]

/-- The last constant begins before the declared count is used up, and uses it up. -/
theorem length_of_declares {declared : Nat} {front : List Item} {last : Item}
    (h : Layout.Declares declared (front ++ [last])) :
    1 + (front.flatMap Item.slots).length < declared ∧
      declared ≤ 1 + (front.flatMap Item.slots).length + last.slotWidth := by
  have htaken : ((front ++ [last]).flatMap Item.slots).length =
      (front.flatMap Item.slots).length + last.slotWidth := by
    simp
  have hbounds : declared ≤ 1 + ((front ++ [last]).flatMap Item.slots).length ∧
      1 + ((front ++ [last]).flatMap Item.slots).length < declared + last.slotWidth := by
    cases front with
    | nil => exact h
    | cons j front =>
        have hlast : (j :: front ++ [last]).getLast (List.cons_ne_nil j _) = last := by simp
        unfold Layout.Declares at h
        dsimp only [List.cons_append] at h hlast
        rw [hlast] at h
        exact h
  omega

/-- The slot in the last declared place is that of the last constant, unless this is wide and its
second slot is declared as well. -/
theorem holdsWide_of_declares {declared : Nat} {front : List Item} {last : Item}
    (h : Layout.Declares declared (front ++ [last])) :
    (ofItems (front ++ [last])).HoldsWide (declared - 1) ↔
      last.slotWidth = 2 ∧ declared = 2 + (front.flatMap Item.slots).length := by
  have hbounds := length_of_declares h
  have hslot := getElem?_ofItems front last []
  have hwidth := last.isWideSlot_kept_iff
  cases hw : last.kind.isWide with
  | false =>
      have hone : last.slotWidth = 1 := by simp [Item.slotWidth, hw]
      have hplace : declared - 1 = 1 + (front.flatMap Item.slots).length := by omega
      rw [hplace, holdsWide_iff hslot, hwidth, hw, hone]
      simp
  | true =>
      have htwo : last.slotWidth = 2 := by simp [Item.slotWidth, hw]
      by_cases hover : declared = 2 + (front.flatMap Item.slots).length
      · have hplace : declared - 1 = 1 + (front.flatMap Item.slots).length := by omega
        rw [hplace, holdsWide_iff hslot, hwidth, hw]
        exact ⟨fun _ => ⟨htwo, hover⟩, fun _ => rfl⟩
      · have hplace : declared - 1 = 2 + (front.flatMap Item.slots).length := by omega
        rw [hplace, holdsWide_iff (getElem?_ofItems_second front hw [])]
        simp only [not_isWideSlot_none, false_iff, not_and]
        intro _
        exact hover

/-- The last constant alone decides whether the table is longer than declared. -/
theorem size_of_declares {declared : Nat} {is : List Item} (h : Layout.Declares declared is) :
    ((ofItems is).HoldsWide (declared - 1) → (ofItems is).size = declared + 1) ∧
      (¬ (ofItems is).HoldsWide (declared - 1) → (ofItems is).size = max 1 declared) := by
  rcases List.eq_nil_or_concat is with hnil | ⟨front, last, hconcat⟩
  · subst hnil
    have hlow : declared ≤ 1 := h
    have hfirst : (ofItems []).slots[declared - 1]? = some none := by
      rw [Nat.sub_eq_zero_of_le hlow]
      rfl
    have hsize : (ofItems []).size = 1 := rfl
    rw [holdsWide_iff hfirst, hsize]
    constructor
    · intro hwide
      exact absurd hwide not_isWideSlot_none
    · intro _
      omega
  · rw [List.concat_eq_append] at hconcat
    subst hconcat
    have hbounds := length_of_declares h
    have hlow : 1 ≤ last.slotWidth ∧ last.slotWidth ≤ 2 := by
      unfold Item.slotWidth
      split <;> omega
    have hsize : (ofItems (front ++ [last])).size =
        1 + (front.flatMap Item.slots).length + last.slotWidth := by
      rw [size_ofItems]
      simp [Nat.add_assoc]
    rw [holdsWide_of_declares h, hsize]
    constructor
    · intro hwide
      omega
    · intro hnarrow
      omega

theorem tabulates_ofItems {declared : Nat} {is : List Item} (h : Layout.Declares declared is) :
    (ofItems is).Tabulates declared is where
  first := rfl
  empty_iff := by
    intro i hlow hhigh
    have hchain := List.isChain_iff_getElem.1 (Item.isChain_slots is not_isWideSlot_none)
    rw [size_ofItems] at hhigh
    have hi : i - 1 + 1 < (none :: is.flatMap Item.slots).length := by
      rw [List.length_cons]
      omega
    have hadjoins := hchain (i - 1) hi
    have hbefore : (ofItems is).slots[i - 1]? =
        some ((none :: is.flatMap Item.slots)[i - 1]) := by
      rw [ofItems, List.getElem?_toArray, List.getElem?_eq_getElem]
    have hat : (ofItems is).slots[i]? = some ((none :: is.flatMap Item.slots)[i - 1 + 1]) := by
      have he : i - 1 + 1 = i := by omega
      rw [ofItems, List.getElem?_toArray, List.getElem?_eq_getElem (by omega)]
      simp only [he]
    rw [holdsWide_iff hbefore, hat, Option.some.injEq]
    exact hadjoins
  size_of_wide := (size_of_declares h).1
  size_of_not_wide := (size_of_declares h).2
  constant _ _ hk := getElem?_ofItems_take hk

/-- An index at which a constant stands is one of the table. -/
theorem holds_iff {i : Int} {k : Constant} :
    p.Holds i k ↔ 1 ≤ i ∧ i < p.size ∧ p.slots[i.toNat]? = some (some k) := by
  constructor
  · intro h
    have hlt : i.toNat < p.slots.size := (Array.getElem?_eq_some_iff.1 h.2).1
    have hpos := h.1
    have hsize : p.size = p.slots.size := rfl
    exact ⟨by omega, by omega, h.2⟩
  · intro h
    exact ⟨by omega, h.2.2⟩

theorem looksUp (p : Pool) : p.LooksUp where
  text_iff := by
    intro i s
    rw [text_eq_ok_iff, HasText, holds_iff]
  text_fault := by
    intro i h
    cases ht : p.text i with
    | ok s => exact absurd ht (h s)
    | error e =>
        have hfault := text_eq_error_iff.1 ht
        obtain ⟨found, hlacks, rfl⟩ := hfault
        exact ⟨found, hlacks, rfl⟩
  className_iff := by
    intro i s
    rw [className_eq_ok_iff]
    simp only [HasClass, holds_iff, text_eq_ok_iff]
  className_fault := by
    intro i h
    cases hc : p.className i with
    | ok s => exact absurd hc (h s)
    | error e =>
        rcases className_eq_error_iff.1 hc with hclass | hname
        · obtain ⟨found, hlacks, rfl⟩ := hclass
          exact .inl ⟨found, hlacks, rfl⟩
        · obtain ⟨n, hholds, found, hlacks, rfl⟩ := hname
          exact .inr ⟨n, found, hholds.2, hlacks, rfl⟩

/-- Whatever cursor a table is read from, the bytes that are passed are a count and some constants,
and the slots hold these as the count demands. -/
theorem read_tabulates {c d : Cursor} (h : Pool.read c = (.ok p, d)) :
    (∃ (declared : UInt16) (is : List Item), (∀ i ∈ is, i.Fits) ∧
      c.Passes (word declared ++ is.flatMap Item.bytes) d ∧ p.Tabulates declared.toNat is) ∧
        p.LooksUp := by
  obtain ⟨_, ⟨declared, is, hdeclares, hfits, rfl, rfl⟩, hpasses⟩ := accepts_read.sound h
  exact ⟨⟨declared, is, hfits, hpasses, tabulates_ofItems hdeclares⟩, looksUp _⟩

/-- Three constants, of which the last is wide. -/
def wideEnd : List Item := [.utf8 [0x41], .classRef 1, .payload .long [0, 0, 0, 0, 0, 0, 0, 1]]

def wideEndPool : Pool :=
  ⟨#[none, some (.utf8 "A"), some (.classRef 1), some (.payload .long), none]⟩

theorem ofItems_wideEnd : ofItems wideEnd = wideEndPool := by
  simp [ofItems, wideEnd, wideEndPool, Item.slots, Item.kept, Item.kind, Kind.isWide, Payload.isWide,
    Utf8.decodeLossy, Utf8.lossyFrom, Utf8.lossyStep, Utf8.lossyStart, Utf8.start]

/-- The last of them stands in the last declared place. -/
theorem spelled_wideEnd : Spelled (word 4 ++ wideEnd.flatMap Item.bytes) wideEndPool := by
  have hdeclares : Layout.Declares (4 : UInt16).toNat wideEnd :=
    (by decide : 4 ≤ 1 + 4 ∧ 1 + 4 < 4 + 2)
  refine ⟨4, wideEnd, hdeclares, ?_, ofItems_wideEnd.symm, rfl⟩
  intro i hi
  simp only [wideEnd, List.mem_cons, List.not_mem_nil, or_false] at hi
  rcases hi with rfl | rfl | rfl <;> simp [Item.Fits, Payload.width]

theorem read_tabulates_wideEnd :
    Pool.read (⟨8, word 4 ++ wideEnd.flatMap Item.bytes ++ []⟩ : Cursor) = (.ok wideEndPool, ⟨26, []⟩) ∧
      (∃ (declared : UInt16) (is : List Item), (⟨8, word 4 ++ wideEnd.flatMap Item.bytes ++ []⟩ :
          Cursor).Passes (word declared ++ is.flatMap Item.bytes) ⟨26, []⟩ ∧
          wideEndPool.Tabulates declared.toNat is) ∧
      wideEndPool.className 2 = .ok "A" ∧
      ∃ found, wideEndPool.text (-1) = .error (.badReference (-1) .utf8 found) := by
  have hread := accepts_read.complete spelled_wideEnd 8 []
  have htabulates := read_tabulates hread
  have hlooks := htabulates.2
  have hname : wideEndPool.text (1 : Nat) = .ok "A" :=
    (hlooks.text_iff 1 "A").2 ⟨by decide, by decide, rfl⟩
  have hclass : wideEndPool.className 2 = .ok "A" :=
    (hlooks.className_iff 2 "A").2 ⟨1, ⟨by decide, by decide, rfl⟩, hname⟩
  have hnone : ∀ s, wideEndPool.text (-1) ≠ .ok s := by
    intro s hs
    have hlow := ((hlooks.text_iff (-1) s).1 hs).1
    omega
  rcases htabulates.1 with ⟨declared, is, _, hpasses, hslots⟩
  rcases hlooks.text_fault (-1) hnone with ⟨found, _, hfault⟩
  exact ⟨hread, ⟨declared, is, hpasses, hslots⟩, hclass, found, hfault⟩

end Pool
end JarRank.ClassFile
