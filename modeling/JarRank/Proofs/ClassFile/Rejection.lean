import JarRank.Proofs.ClassFile.SectionGrammar

/-!
# Where and why readers fail

A failing reader has passed some bytes and stands at a cursor. Its fault is told
from these two alone: too few bytes are left at the cursor, or the last bytes that
were passed hold a tag or an index that is at fault, or they are the body of a code
attribute that is too short. A sequence fails as its first reader does, or as its
second does behind a word of the first.

The descriptions are one-sided. They say what is true of a fault, not that it is
met, and forget which words were passed where a fault does not depend on them.
-/
namespace JarRank.ClassFile

open Layout (word table)

/-- Too few bytes are left at a cursor, and the fault says how many. -/
def Cursor.Short (d : Cursor) (e : Fault) : Prop :=
  ∃ needed : Nat, d.remaining < needed ∧ e = .truncated d.position needed d.remaining

namespace Reader

variable {ε ε' α β γ : Type}

/-- What is true of the bytes passed, the cursor and the fault wherever a reader fails. -/
def Fails (r : Reader Cursor ε α) (F : Bytes → Cursor → ε → Prop) : Prop :=
  ∀ (c d : Cursor) (e : ε), r c = (.error e, d) → ∃ bs, c.Passes bs d ∧ F bs d e

/-- Where several readers in a row fail, one of them does, behind the words of those before it. -/
theorem exists_of_times_eq_error {item : Reader Cursor ε α} {bytes : β → Bytes} {R : β → α → Prop}
    (hi : item.Accepts fun bs a => ∃ x, R x a ∧ bs = bytes x) {n : Nat} {c d : Cursor} {e : ε}
    (h : times n item c = (.error e, d)) :
    ∃ (front : List β) (c' : Cursor), front.length < n ∧ (∀ x ∈ front, ∃ a, R x a) ∧
      c.Passes (front.flatMap bytes) c' ∧ item c' = (.error e, d) := by
  induction n generalizing c with
  | zero => cases h
  | succ n ih =>
      rw [times_succ] at h
      rcases bind_eq_error_iff.1 h with h | ⟨a, c₁, ha, h⟩
      · exact ⟨[], c, Nat.succ_pos n, by simp, by simp, h⟩
      · rcases hi.sound ha with ⟨_, ⟨x, hx, rfl⟩, hp⟩
        rcases bind_eq_error_iff.1 h with h | ⟨as, c₂, _, h⟩
        · rcases ih h with ⟨front, c', hlen, hfront, hp', he⟩
          refine ⟨x :: front, c', Nat.succ_lt_succ hlen, ?_, ?_, he⟩
          · exact List.forall_mem_cons.2 ⟨⟨a, hx⟩, hfront⟩
          · rw [List.flatMap_cons]
            exact hp.trans hp'
        · cases h

namespace Fails

variable {r : Reader Cursor ε α} {f : α → Reader Cursor ε β} {F F' : Bytes → Cursor → ε → Prop}
  {G : Bytes → α → Prop} {H : α → Bytes → Cursor → ε → Prop}

theorem mono (h : r.Fails F) (hF : ∀ bs d e, F bs d e → F' bs d e) : r.Fails F' := by
  intro c d e hr
  obtain ⟨bs, hp, he⟩ := h c d e hr
  exact ⟨bs, hp, hF bs d e he⟩

theorem pure (a : α) : (Pure.pure a : Reader Cursor ε α).Fails F := by
  intro c d e h
  cases h

theorem fail (e : ε) : (Reader.fail e : Reader Cursor ε α).Fails fun bs _ e' => bs = [] ∧ e' = e := by
  intro c d e' h
  cases h
  exact ⟨[], .refl c, rfl, rfl⟩

theorem ofExcept (x : Except ε α) : (ofExcept x).Fails fun bs _ e => bs = [] ∧ x = .error e := by
  intro c d e h
  obtain ⟨hx, rfl⟩ := ofExcept_eq_error_iff.1 h
  exact ⟨[], .refl d, rfl, hx⟩

theorem mapFault (h : r.Fails F) (f : ε → ε') :
    (r.mapFault f).Fails fun bs d e' => ∃ e, F bs d e ∧ e' = f e := by
  intro c d e' hr
  obtain ⟨e, hr', he'⟩ := mapFault_eq_error_iff.1 hr
  obtain ⟨bs, hp, he⟩ := h c d e hr'
  exact ⟨bs, hp, e, he, he'⟩

theorem bind (hr : r.Fails F) (hG : r.Accepts G) (hf : ∀ a, (f a).Fails (H a)) :
    (r >>= f).Fails fun bs d e =>
      F bs d e ∨ ∃ a xs ys, G xs a ∧ H a ys d e ∧ bs = xs ++ ys := by
  intro c d e h
  rcases bind_eq_error_iff.1 h with h | ⟨a, c', h, k⟩
  · obtain ⟨bs, hp, he⟩ := hr c d e h
    exact ⟨bs, hp, .inl he⟩
  · obtain ⟨xs, hx, hp⟩ := hG.sound h
    obtain ⟨ys, hq, he⟩ := hf a c' d e k
    exact ⟨xs ++ ys, hp.trans hq, .inr ⟨a, xs, ys, hx, he, rfl⟩⟩

/-- What is only put together at the end does not fail. -/
theorem bind_pure (h : r.Fails F) (g : α → β) : (r >>= fun a => Pure.pure (g a)).Fails F := by
  intro c d e hr
  rcases bind_eq_error_iff.1 hr with hr | ⟨a, c', _, hr⟩
  · exact h c d e hr
  · cases hr

/-- The offset that was asked for is that of the first byte passed. -/
theorem position_bind {f : Int → Reader Cursor ε α} {H : Int → Bytes → Cursor → ε → Prop}
    (hf : ∀ p, (f p).Fails (H p)) :
    (position >>= f).Fails fun bs d e => H (d.position - bs.length) bs d e := by
  intro c d e h
  obtain ⟨bs, hp, he⟩ := hf c.position c d e h
  have hc : d.position - bs.length = c.position := by
    rw [hp.2]
    omega
  have hH : H (d.position - bs.length) bs d e := by
    rw [hc]
    exact he
  exact ⟨bs, hp, hH⟩

/-- Of several readers in a row, one fails behind the words of those before it. -/
theorem times {item : Reader Cursor ε α} {bytes : β → Bytes} {R : β → α → Prop} (hi : item.Fails F)
    (ha : item.Accepts fun bs a => ∃ x, R x a ∧ bs = bytes x) (n : Nat) :
    (times n item).Fails fun bs d e => ∃ front ys, F ys d e ∧ bs = front ++ ys := by
  intro c d e h
  rcases exists_of_times_eq_error ha h with ⟨front, c', _, _, hp, he⟩
  rcases hi c' d e he with ⟨ys, hp', hF⟩
  exact ⟨front.flatMap bytes ++ ys, hp.trans hp', _, ys, hF, rfl⟩

end Fails

/-- A reader that fails only where too few bytes are left. -/
def FailsShort (r : Reader Cursor Fault α) : Prop := r.Fails fun _ d e => d.Short e

namespace FailsShort

variable {r : Reader Cursor Fault α} {f : α → Reader Cursor Fault β} {G : Bytes → α → Prop}

theorem bind_pure (h : r.FailsShort) (g : α → β) : FailsShort (r >>= fun a => Pure.pure (g a)) :=
  Fails.bind_pure h g

theorem bind (hr : r.FailsShort) (hG : r.Accepts G) (hf : ∀ a, (f a).FailsShort) :
    (r >>= f).FailsShort := by
  refine (Fails.bind hr hG hf).mono ?_
  intro bs d e h
  rcases h with h | ⟨_, _, _, _, h, _⟩
  · exact h
  · exact h

theorem times {item : Reader Cursor Fault α} {bytes : β → Bytes} {R : β → α → Prop}
    (hi : item.FailsShort)
    (ha : item.Accepts fun bs a => ∃ x, R x a ∧ bs = bytes x) (n : Nat) :
    (times n item).FailsShort := by
  refine (Fails.times hi ha n).mono ?_
  intro bs d e h
  obtain ⟨_, _, h, _⟩ := h
  exact h

end FailsShort

/-- Moving on fails without moving. -/
theorem advance_fails (n : Nat) : (advance n).Fails fun bs d e =>
    bs = [] ∧ d.remaining < n ∧ e = .truncated d.position n d.remaining := by
  intro c d e h
  rw [advance_eq] at h
  split at h
  · cases h
  · next hn =>
      cases h
      exact ⟨[], .refl c, rfl, Nat.not_le.1 hn, rfl⟩

theorem take_fails (n : Nat) : (take n).Fails fun bs d e =>
    bs = [] ∧ d.remaining < n ∧ e = .truncated d.position n d.remaining := by
  intro c d e h
  rw [take_eq] at h
  split at h
  · cases h
  · next hn =>
      cases h
      exact ⟨[], .refl c, rfl, Nat.not_le.1 hn, rfl⟩

theorem number_fails (width : Nat) : (number width).Fails fun bs d e =>
    bs = [] ∧ d.remaining < width ∧ e = .truncated d.position width d.remaining := by
  intro c d e h
  unfold number at h
  split at h
  · cases h
  · next e' d' ha =>
      cases h
      exact take_fails width c d e ha

theorem advance_failsShort (n : Nat) : FailsShort (advance n) :=
  (advance_fails n).mono fun _ _ _ h => ⟨n, h.2⟩

theorem take_failsShort (n : Nat) : FailsShort (take n) :=
  (take_fails n).mono fun _ _ _ h => ⟨n, h.2⟩

theorem number_failsShort (width : Nat) : FailsShort (number width) :=
  (number_fails width).mono fun _ _ _ h => ⟨width, h.2⟩

theorem u16_failsShort : FailsShort u16 := number_failsShort 2

theorem u32_failsShort : FailsShort u32 := number_failsShort 4

end Reader

open Reader

theorem Kind.ofTag?_eq_none_iff {n : Nat} : Kind.ofTag? n = none ↔ ∀ k : Kind, k.tag ≠ n := by
  rw [Option.eq_none_iff_forall_ne_some]
  exact forall_congr' fun k => not_congr (Kind.ofTag?_eq_some_iff.trans eq_comm)

namespace Pool

/-- The last byte that was passed is a tag that is not assigned, of a constant whose index
begins at the first bound and ends before the second. -/
def TagFault (first bound : Nat) (bs : Bytes) (d : Cursor) (e : Fault) : Prop :=
  ∃ (front : Bytes) (tag : UInt8) (index : Nat), Kind.ofTag? tag.toNat = none ∧
    first ≤ index ∧ index < bound ∧ e = .unknownTag tag.toNat index (d.position - 1) ∧
    bs = front ++ [tag]

/-- Bounds that leave room for an index may be widened, and bytes may stand in front. -/
theorem TagFault.mono {first bound first' bound' : Nat} {bs : Bytes} {d : Cursor} {e : Fault}
    (h : TagFault first bound bs d e) (hfirst : first' ≤ first) (hbound : first < bound → bound ≤ bound')
    (xs : Bytes) : TagFault first' bound' (xs ++ bs) d e := by
  obtain ⟨front, tag, index, ht, hlow, hhigh, he, rfl⟩ := h
  have hroom := hbound (Nat.lt_of_le_of_lt hlow hhigh)
  exact ⟨xs ++ front, tag, index, ht, by omega, by omega, he, (List.append_assoc xs front [tag]).symm⟩

theorem readPayload_failsShort (kind : Kind) : FailsShort (readPayload kind) := by
  cases kind with
  | utf8 =>
      exact u16_failsShort.bind accepts_u16 fun n => (take_failsShort n).bind_pure _
  | classRef => exact u16_failsShort.bind_pure _
  | nameAndType => exact u16_failsShort.bind accepts_u16 fun n => u16_failsShort.bind_pure _
  | payload q => exact (advance_failsShort q.width).bind_pure _

theorem readConstant_fails (index : Nat) : (readConstant index).Fails fun bs d e =>
    d.Short e ∨ TagFault index (index + 1) bs d e := by
  have hf : ∀ (p : Int) (tag : Nat), ((Kind.ofTag? tag).elim
      (Reader.fail (.unknownTag tag index p))
        readPayload : Reader Cursor Fault Constant).Fails fun bs d e =>
        d.Short e ∨ (bs = [] ∧ Kind.ofTag? tag = none ∧ e = .unknownTag tag index p) := by
    intro p tag
    cases ht : Kind.ofTag? tag with
    | none => exact (Fails.fail _).mono fun bs d e h => .inr ⟨h.1, rfl, h.2⟩
    | some kind => exact (readPayload_failsShort kind).mono fun bs d e h => .inl h
  rw [readConstant_eq]
  refine (Fails.position_bind fun p =>
    Fails.bind (number_failsShort 1) (accepts_number 1) (hf p)).mono ?_
  intro bs d e h
  rcases h with h | ⟨_, xs, _, ⟨hl, rfl⟩, h | ⟨rfl, ht, rfl⟩, rfl⟩
  · exact .inl h
  · exact .inl h
  · obtain ⟨tag, rfl⟩ := List.length_eq_one_iff.1 hl
    have hb : Bytes.bigEndian [tag] = tag.toNat := by simp [Bytes.bigEndian]
    rw [hb] at ht ⊢
    exact .inr ⟨[], tag, index, ht, Nat.le_refl index, Nat.lt_succ_self index, rfl, rfl⟩

/-- Only constants up to the declared count are read, so that a bad tag has an index below it. -/
theorem fill_fails (left : Nat) (slots : Array (Option Constant)) :
    Fails (fill left false slots) fun bs d e =>
      d.Short e ∨ TagFault slots.size (slots.size + left) bs d e := by
  induction left using Nat.strongRecOn generalizing slots with
  | ind left ih =>
      cases left with
      | zero => exact Fails.pure (Pool.mk slots)
      | succ left =>
          have hf : ∀ k : Constant, Fails (fill left k.kind.isWide (slots.push (some k)))
              fun bs d e => d.Short e ∨ TagFault slots.size (slots.size + (left + 1)) bs d e := by
            intro k
            have hless : (left + 1 - if k.kind.isWide then 2 else 1) < left + 1 := by split <;> omega
            rw [fill_behind]
            -- If the slot behind the last constant is reserved, no constant is left to fail.
            refine (ih _ hless _).mono fun bs d e h => h.imp_right fun ht => ht.mono ?_ ?_ []
            · simp
            · split <;> simp <;> omega
          rw [fill_succ]
          refine ((readConstant_fails slots.size).bind (accepts_readConstant slots.size) hf).mono ?_
          intro bs d e h
          rcases h with h | ⟨_, xs, ys, _, h, rfl⟩
          · exact h.imp_right fun ht => ht.mono (Nat.le_refl _) (by omega) []
          · exact h.imp_right fun ht => ht.mono (Nat.le_refl _) (fun _ => Nat.le_refl _) xs

theorem read_fails : Pool.read.Fails fun bs d e =>
    d.Short e ∨ ∃ (declared : UInt16) (ys : Bytes),
      TagFault 1 declared.toNat ys d e ∧ bs = word declared ++ ys := by
  refine (Fails.bind u16_failsShort accepts_u16 fun n => fill_fails (n - 1) empty.slots).mono ?_
  intro bs d e h
  rcases h with h | ⟨_, _, ys, ⟨w, rfl, rfl⟩, h | h, rfl⟩
  · exact .inl h
  · exact .inl h
  · have hs : empty.slots.size = 1 := rfl
    rw [hs] at h
    exact .inr ⟨w, ys, h.mono (Nat.le_refl 1) (by omega) [], rfl⟩

end Pool
end JarRank.ClassFile
