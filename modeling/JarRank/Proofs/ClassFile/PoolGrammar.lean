import JarRank.Proofs.ClassFile.Acceptance

/-!
# The grammar of the table of constants

A constant is accepted as it is written, and so is the table behind its declared
count. Reading goes on while slots are left; the last constant may take one slot
more than are left, if it is wide. Which constants are read is therefore settled
by the count and the widths alone.
-/
namespace JarRank.ClassFile

open Layout (word)
open Reader

theorem Kind.tag_lt (k : Kind) : k.tag < 0x100 := by
  rcases k with _ | _ | _ | p
  · decide
  · decide
  · decide
  · cases p <;> decide

namespace Item

theorem slotWidth_pos (i : Item) : 0 < i.slotWidth := by
  unfold slotWidth
  split <;> omega

theorem slotWidth_le_length {i : Item} {is : List Item} (h : i ∈ is) :
    i.slotWidth ≤ (is.flatMap slots).length := by
  obtain ⟨front, back, rfl⟩ := List.append_of_mem h
  simp only [List.flatMap_append, List.flatMap_cons, List.length_append, length_slots]
  omega

end Item

namespace Pool

/-- What a payload is written as, for each kind of constant. -/
theorem accepts_readPayload (kind : Kind) :
    (readPayload kind).Accepts fun bs k =>
      ∃ i : Item, i.kind = kind ∧ i.Fits ∧ k = i.kept ∧ bs = i.content := by
  cases kind with
  | utf8 =>
      refine (accepts_u16.bind fun n => (accepts_take n).bind fun raw =>
        Accepts.pure (Constant.utf8 (Utf8.decodeLossy raw))).congr fun bs k => ?_
      constructor
      · intro h
        obtain ⟨_, _, _, ⟨w, rfl, rfl⟩, h, rfl⟩ := h
        obtain ⟨raw, _, _, ⟨hl, rfl⟩, ⟨rfl, rfl⟩, rfl⟩ := h
        have hn : raw.length = w.toNat := by exact_mod_cast hl
        have hf : raw.length < 0x10000 := hn ▸ w.toNat_lt
        exact ⟨.utf8 raw, rfl, hf, rfl, by simp [Item.content, word, hn]⟩
      · intro h
        obtain ⟨i, hk, hf, rfl, rfl⟩ := h
        cases i with
        | utf8 raw =>
            have hw : (UInt16.ofNat raw.length).toNat = raw.length := UInt16.toNat_ofNat_of_lt' hf
            exact ⟨raw.length, _, _, ⟨UInt16.ofNat raw.length, hw.symm, rfl⟩,
              ⟨raw, raw, [], ⟨rfl, rfl⟩, ⟨rfl, rfl⟩, rfl⟩, by simp [Item.content, word, hw]⟩
        | classRef | nameAndType | payload => cases hk
  | classRef =>
      refine (accepts_u16.bind fun n => Accepts.pure (Constant.classRef n)).congr fun bs k => ?_
      constructor
      · intro h
        obtain ⟨_, _, _, ⟨w, rfl, rfl⟩, ⟨rfl, rfl⟩, rfl⟩ := h
        exact ⟨.classRef w, rfl, trivial, rfl, by simp [Item.content]⟩
      · intro h
        obtain ⟨i, hk, hf, rfl, rfl⟩ := h
        cases i with
        | classRef w => exact ⟨w.toNat, _, _, ⟨w, rfl, rfl⟩, ⟨rfl, rfl⟩, by simp [Item.content]⟩
        | utf8 | nameAndType | payload => cases hk
  | nameAndType =>
      refine (accepts_u16.bind fun n => accepts_u16.bind fun d =>
        Accepts.pure (Constant.nameAndType n d)).congr fun bs k => ?_
      constructor
      · intro h
        obtain ⟨_, _, _, ⟨w, rfl, rfl⟩, h, rfl⟩ := h
        obtain ⟨_, _, _, ⟨v, rfl, rfl⟩, ⟨rfl, rfl⟩, rfl⟩ := h
        exact ⟨.nameAndType w v, rfl, trivial, rfl, by simp [Item.content]⟩
      · intro h
        obtain ⟨i, hk, hf, rfl, rfl⟩ := h
        cases i with
        | nameAndType w v =>
            exact ⟨w.toNat, _, _, ⟨w, rfl, rfl⟩, ⟨v.toNat, _, _, ⟨v, rfl, rfl⟩, ⟨rfl, rfl⟩, rfl⟩,
              by simp [Item.content]⟩
        | utf8 | classRef | payload => cases hk
  | payload q =>
      refine ((accepts_advance q.width).bind fun _ =>
        Accepts.pure (Constant.payload q)).congr fun bs k => ?_
      constructor
      · intro h
        obtain ⟨_, raw, _, hl, ⟨rfl, rfl⟩, rfl⟩ := h
        have hf : raw.length = q.width := by exact_mod_cast hl
        exact ⟨.payload q raw, rfl, hf, rfl, by simp [Item.content]⟩
      · intro h
        obtain ⟨i, hk, hf, rfl, rfl⟩ := h
        cases i with
        | payload r raw =>
            cases hk
            have hl : (raw.length : Int) = q.width := congrArg Nat.cast hf
            exact ⟨(), raw, [], hl, ⟨rfl, rfl⟩, by simp [Item.content]⟩
        | utf8 | classRef | nameAndType => cases hk

theorem readConstant_eq {κ : Type} [Source κ] (index : Nat) :
    (readConstant index : Reader κ Fault Constant) = position >>= fun p => u8 >>= fun tag =>
      (Kind.ofTag? tag).elim (Reader.fail (.unknownTag tag index p)) readPayload := by
  unfold readConstant
  congr 1
  funext p
  congr 1
  funext tag
  cases Kind.ofTag? tag with
  | none => rfl
  | some kind => rfl

theorem accepts_readConstant (index : Nat) :
    (readConstant index).Accepts fun bs k => ∃ i : Item, (i.Fits ∧ k = i.kept) ∧ bs = i.bytes := by
  have hu : u8.Accepts fun bs n => n < Bytes.capacity 1 ∧ bs = Bytes.ofNumber 1 n :=
    accepts_number_ofNumber 1
  rw [readConstant_eq]
  refine Accepts.position_bind fun p => ?_
  have hr : ∀ tag, ((Kind.ofTag? tag).elim (Reader.fail (.unknownTag tag index p)) readPayload :
      Reader Cursor Fault Constant).Accepts fun bs k =>
        ∃ i : Item, tag = i.kind.tag ∧ i.Fits ∧ k = i.kept ∧ bs = i.content := by
    intro tag
    cases ht : Kind.ofTag? tag with
    | none =>
        refine (Accepts.fail _).congr fun bs k => ?_
        constructor
        · exact False.elim
        · intro h
          obtain ⟨i, rfl, -⟩ := h
          rw [Kind.ofTag?_tag] at ht
          cases ht
    | some kind =>
        refine (accepts_readPayload kind).congr fun bs k => ?_
        have htag : tag = kind.tag := Kind.ofTag?_eq_some_iff.1 ht
        constructor
        · intro h
          obtain ⟨i, rfl, h⟩ := h
          exact ⟨i, htag, h⟩
        · intro h
          obtain ⟨i, hi, h⟩ := h
          rw [hi, Kind.ofTag?_tag] at ht
          exact ⟨i, Option.some.inj ht, h⟩
  refine (hu.bind hr).congr fun bs k => ?_
  constructor
  · intro h
    obtain ⟨_, _, _, ⟨_, rfl⟩, ⟨i, rfl, hf, rfl, rfl⟩, rfl⟩ := h
    exact ⟨i, ⟨hf, rfl⟩, rfl⟩
  · intro h
    obtain ⟨i, ⟨hf, rfl⟩, rfl⟩ := h
    have hlt : i.kind.tag < Bytes.capacity 1 := i.kind.tag_lt
    exact ⟨i.kind.tag, _, _, ⟨hlt, rfl⟩, ⟨i, rfl, hf, rfl, rfl⟩, rfl⟩

/-- Constants use up the slots that are left; the last may use one more. -/
def Exhausts : (left : Nat) → List Item → Prop
  | left, [] => left = 0
  | left, i :: is => 0 < left ∧ Exhausts (left - i.slotWidth) is

theorem exhausts_cons_iff (left : Nat) (i : Item) (is : List Item) :
    Exhausts left (i :: is) ↔
      left ≤ ((i :: is).flatMap Item.slots).length ∧
        ((i :: is).flatMap Item.slots).length <
          left + ((i :: is).getLast (List.cons_ne_nil i is)).slotWidth := by
  -- The last constant is that of the rest, unless the rest is empty.
  induction is generalizing left i with
  | nil =>
      have hi := i.slotWidth_pos
      simp only [Exhausts, List.flatMap_cons, List.flatMap_nil, List.append_nil, Item.length_slots,
        List.getLast_singleton]
      omega
  | cons j js ih =>
      have hi := i.slotWidth_pos
      have hlast := Item.slotWidth_le_length (List.getLast_mem (List.cons_ne_nil j js))
      have hlen : ((i :: j :: js).flatMap Item.slots).length =
          i.slotWidth + ((j :: js).flatMap Item.slots).length := by
        rw [List.flatMap_cons, List.length_append, Item.length_slots]
      rw [Exhausts, ih (left - i.slotWidth) j, hlen, List.getLast_cons (List.cons_ne_nil j js)]
      omega

theorem declares_iff (declared : Nat) (is : List Item) :
    Layout.Declares declared is ↔ Exhausts (declared - 1) is := by
  cases is with
  | nil =>
      unfold Layout.Declares Exhausts
      omega
  | cons i is =>
      have hlast := Item.slotWidth_le_length (List.getLast_mem (List.cons_ne_nil i is))
      rw [exhausts_cons_iff]
      unfold Layout.Declares
      dsimp only
      omega

section

variable {κ : Type} [Source κ]

theorem fill_reserved (left : Nat) (slots : Array (Option Constant)) (c : κ) :
    fill left true slots c = fill (left - 1) false (slots.push none) c := by
  cases left <;> rfl

theorem fill_succ (left : Nat) (slots : Array (Option Constant)) :
    (fill (left + 1) false slots : Reader κ Fault Pool) =
      readConstant slots.size >>= fun k => fill left k.kind.isWide (slots.push (some k)) := by
  funext c
  have hb := bind_apply (readConstant slots.size)
    (fun k => (fill left k.kind.isWide (slots.push (some k)) : Reader κ Fault Pool)) c
  refine Eq.trans ?_ hb.symm
  rw [fill]
  rcases readConstant slots.size c with ⟨_ | k, d⟩ <;> rfl

/-- Behind a constant as many slots fewer are left as it takes. -/
theorem fill_behind (k : Constant) (left : Nat) (slots : Array (Option Constant)) :
    (fill left k.kind.isWide (slots.push (some k)) : Reader κ Fault Pool) =
      fill (left + 1 - if k.kind.isWide then 2 else 1) false
        (slots ++ (some k :: if k.kind.isWide then [none] else []).toArray) := by
  cases k.kind.isWide with
  | false => simp
  | true =>
      have hpush : slots ++ #[some k, none] = (slots.push (some k)).push none := rfl
      funext c
      rw [fill_reserved]
      simp [hpush]

end

/-- Slots are filled by reading constants until none is left. -/
theorem accepts_fill (left : Nat) (slots : Array (Option Constant)) :
    Accepts (fill left false slots) fun bs p =>
      ∃ is, Exhausts left is ∧ (∀ i ∈ is, i.Fits) ∧
        p = ⟨slots ++ (is.flatMap Item.slots).toArray⟩ ∧ bs = is.flatMap Item.bytes := by
  -- A wide constant takes the next slot as well, so that the number left may fall by two.
  induction left using Nat.strongRecOn generalizing slots with
  | ind left ih =>
      cases left with
      | zero =>
          refine (Accepts.pure (Pool.mk slots)).congr fun bs p => ?_
          constructor
          · intro h
            obtain ⟨rfl, rfl⟩ := h
            exact ⟨[], rfl, by simp, by simp, rfl⟩
          · intro h
            obtain ⟨is, he, -, rfl, rfl⟩ := h
            cases is with
            | nil => exact ⟨rfl, by simp⟩
            | cons i is => exact (Nat.lt_irrefl 0 he.1).elim
      | succ left =>
          have hf : ∀ k : Constant, Accepts (fill left k.kind.isWide (slots.push (some k)))
              fun bs p => ∃ is, Exhausts (left + 1 - if k.kind.isWide then 2 else 1) is ∧
                (∀ i ∈ is, i.Fits) ∧ bs = is.flatMap Item.bytes ∧
                p = ⟨slots ++ ((some k :: if k.kind.isWide then [none] else []) ++
                  is.flatMap Item.slots).toArray⟩ := by
            intro k
            have hless : (left + 1 - if k.kind.isWide then 2 else 1) < left + 1 := by split <;> omega
            rw [fill_behind]
            refine (ih _ hless _).congr fun bs p => ?_
            simp [and_comm]
          rw [fill_succ]
          refine ((accepts_readConstant slots.size).bind hf).congr fun bs p => ?_
          constructor
          · intro h
            obtain ⟨_, _, _, ⟨i, ⟨hi, rfl⟩, rfl⟩, ⟨is, he, hs, rfl, rfl⟩, rfl⟩ := h
            rw [Item.kind_kept] at he ⊢
            refine ⟨i :: is, ⟨by omega, he⟩, ?_, rfl, rfl⟩
            simpa [hi] using hs
          · intro h
            obtain ⟨is, he, hs, rfl, rfl⟩ := h
            cases is with
            | nil => cases he
            | cons i is =>
                have hi : i.Fits := hs i List.mem_cons_self
                have he' : Exhausts (left + 1 - i.slotWidth) is := he.2
                refine ⟨i.kept, _, _, ⟨i, ⟨hi, rfl⟩, rfl⟩, ⟨is, ?_, ?_, rfl, ?_⟩, rfl⟩
                · rw [Item.kind_kept]
                  exact he'
                · intro j hj
                  exact hs j (List.mem_cons_of_mem i hj)
                · rw [Item.kind_kept]
                  rfl

/-- Bytes that spell a table of constants, the declared count in front. -/
def Spelled (bs : Bytes) (p : Pool) : Prop :=
  ∃ (declared : UInt16) (is : List Item), Layout.Declares declared.toNat is ∧ (∀ i ∈ is, i.Fits) ∧
    p = ⟨(none :: is.flatMap Item.slots).toArray⟩ ∧ bs = word declared ++ is.flatMap Item.bytes

theorem accepts_read : Pool.read.Accepts Spelled := by
  refine (accepts_u16.bind fun n => accepts_fill (n - 1) empty.slots).congr fun bs p => ?_
  constructor
  · intro h
    obtain ⟨_, _, _, ⟨w, rfl, rfl⟩, ⟨is, he, hf, rfl, rfl⟩, rfl⟩ := h
    exact ⟨w, is, (declares_iff _ is).2 he, hf, by simp [empty], rfl⟩
  · intro h
    obtain ⟨w, is, hd, hf, rfl, rfl⟩ := h
    exact ⟨w.toNat, _, _, ⟨w, rfl, rfl⟩, ⟨is, (declares_iff _ is).1 hd, hf, by simp [empty], rfl⟩, rfl⟩

end Pool
end JarRank.ClassFile
