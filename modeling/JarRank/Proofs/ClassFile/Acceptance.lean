import JarRank.ClassFile.Layout
import Mathlib.Data.List.Forall2
import Mathlib.Data.List.Induction

/-!
# What readers accept

A reader is described by a grammar: which bytes it takes for which result. The
description is exact. If the bytes in front of the cursor start with a word of the
grammar, the reader takes that word and nothing else; if the reader succeeds, the
bytes it has passed are a word of the grammar. What stands behind the word does
not matter, so the descriptions of two readers compose to that of their sequence.

The offset of a cursor is no part of a grammar. Readers that ask for it use it in
faults only.
-/
namespace JarRank

namespace Bytes

theorem bigEndian_lt (bs : Bytes) : bigEndian bs < capacity bs.length := by
  induction bs using List.reverseRecOn with
  | nil => simp [capacity]
  | append_singleton bs b ih =>
      have hb := b.toNat_lt
      rw [bigEndian_append_singleton, List.length_append, List.length_singleton, capacity]
      omega

theorem ofNumber_bigEndian (bs : Bytes) : ofNumber bs.length (bigEndian bs) = bs := by
  induction bs using List.reverseRecOn with
  | nil => rfl
  | append_singleton bs b ih =>
      have hb := b.toNat_lt
      have hd : (bigEndian bs * 256 + b.toNat) / 256 = bigEndian bs := by omega
      have hm : UInt8.ofNat (bigEndian bs * 256 + b.toNat) = b := by
        apply UInt8.toNat_inj.mp
        rw [UInt8.toNat_ofNat']
        omega
      rw [bigEndian_append_singleton, List.length_append, List.length_singleton, ofNumber, hd, hm, ih]

end Bytes

namespace ClassFile

/-- The bytes from one cursor up to another. -/
def Cursor.Passes (c : Cursor) (bs : Bytes) (d : Cursor) : Prop :=
  c.rest = bs ++ d.rest ∧ d.position = c.position + bs.length

namespace Cursor.Passes

variable {c d e : Cursor} {bs cs : Bytes}

theorem refl (c : Cursor) : c.Passes [] c := ⟨rfl, by simp⟩

theorem trans (h : c.Passes bs d) (k : d.Passes cs e) : c.Passes (bs ++ cs) e := by
  refine ⟨?_, ?_⟩
  · rw [h.1, k.1, List.append_assoc]
  · rw [k.2, h.2, List.length_append]
    push_cast
    omega

theorem unique (h : c.Passes bs d) (k : c.Passes bs e) : d = e := by
  have hr : d.rest = e.rest := List.append_cancel_left (h.1.symm.trans k.1)
  have hp : d.position = e.position := h.2.trans k.2.symm
  cases d
  cases e
  simp_all

theorem exists_append (h : c.Passes bs d) :
    ∃ p rest, c = ⟨p, bs ++ rest⟩ ∧ d = ⟨p + bs.length, rest⟩ := by
  obtain ⟨p, rest⟩ := c
  obtain ⟨q, rest'⟩ := d
  obtain ⟨hr, hp⟩ := h
  dsimp only at hr hp
  subst hr hp
  exact ⟨p, rest', rfl, rfl⟩

theorem of_append (p : Int) (bs rest : Bytes) :
    Cursor.Passes ⟨p, bs ++ rest⟩ bs ⟨p + bs.length, rest⟩ := ⟨rfl, rfl⟩

@[simp] theorem nil_iff : c.Passes [] d ↔ d = c := by
  constructor
  · intro h
    exact (unique (refl c) h).symm
  · intro h
    subst h
    exact refl d

theorem append_iff : c.Passes (bs ++ cs) e ↔ ∃ d, c.Passes bs d ∧ d.Passes cs e := by
  constructor
  · intro h
    refine ⟨⟨c.position + bs.length, cs ++ e.rest⟩, ⟨?_, rfl⟩, rfl, ?_⟩
    · rw [h.1, List.append_assoc]
    · rw [h.2, List.length_append]
      push_cast
      omega
  · intro h
    obtain ⟨d, h, k⟩ := h
    exact h.trans k

theorem remaining (h : c.Passes bs d) : c.remaining = bs.length + d.remaining := by
  simp [Cursor.remaining, h.1]

end Cursor.Passes

namespace Reader

variable {ε ε' α β γ : Type}

theorem bind_eq_ok_iff {r : Reader Cursor ε α} {f : α → Reader Cursor ε β} {c d : Cursor} {b : β} :
    (r >>= f) c = (.ok b, d) ↔ ∃ a c', r c = (.ok a, c') ∧ f a c' = (.ok b, d) := by
  rw [bind_apply]
  rcases r c with ⟨_ | a, c'⟩ <;> simp [and_assoc]

theorem bind_eq_error_iff {r : Reader Cursor ε α} {f : α → Reader Cursor ε β} {c d : Cursor} {e : ε} :
    (r >>= f) c = (.error e, d) ↔
      r c = (.error e, d) ∨ ∃ a c', r c = (.ok a, c') ∧ f a c' = (.error e, d) := by
  rw [bind_apply]
  rcases r c with ⟨_ | a, c'⟩ <;> simp [and_assoc]

theorem bind_eq_of_ok {r : Reader Cursor ε α} {f : α → Reader Cursor ε β} {c d : Cursor} {a : α}
    (h : r c = (.ok a, d)) : (r >>= f) c = f a d := by
  rw [bind_apply, h]

theorem bind_eq_of_error {r : Reader Cursor ε α} {f : α → Reader Cursor ε β} {c d : Cursor} {e : ε}
    (h : r c = (.error e, d)) : (r >>= f) c = (.error e, d) := by
  rw [bind_apply, h]

theorem mapFault_eq_ok_iff {f : ε → ε'} {r : Reader Cursor ε α} {c d : Cursor} {a : α} :
    r.mapFault f c = (.ok a, d) ↔ r c = (.ok a, d) := by
  unfold mapFault
  rcases r c with ⟨_ | a, c'⟩ <;> simp

theorem mapFault_eq_error_iff {f : ε → ε'} {r : Reader Cursor ε α} {c d : Cursor} {e : ε'} :
    r.mapFault f c = (.error e, d) ↔ ∃ e₀, r c = (.error e₀, d) ∧ e = f e₀ := by
  unfold mapFault
  rcases r c with ⟨e₀ | a, c'⟩
  · simp only [Prod.mk.injEq, Except.error.injEq]
    constructor
    · intro h
      obtain ⟨rfl, rfl⟩ := h
      exact ⟨e₀, ⟨rfl, rfl⟩, rfl⟩
    · intro h
      obtain ⟨_, ⟨rfl, rfl⟩, rfl⟩ := h
      exact ⟨rfl, rfl⟩
  · simp

theorem ofExcept_eq_ok_iff {x : Except ε α} {c d : Cursor} {a : α} :
    ofExcept x c = (.ok a, d) ↔ x = .ok a ∧ d = c := by
  cases x <;> simp [ofExcept, Reader.pure, fail, eq_comm]

theorem ofExcept_eq_error_iff {x : Except ε α} {c d : Cursor} {e : ε} :
    (ofExcept x : Reader Cursor ε α) c = (.error e, d) ↔ x = .error e ∧ d = c := by
  cases x <;> simp [ofExcept, Reader.pure, fail, eq_comm]

theorem times_go (item : Reader Cursor ε α) (n : Nat) (acc : List α) (c : Cursor) :
    times.go item n acc c =
      ((times.go item n [] c).1.map (acc.reverse ++ ·), (times.go item n [] c).2) := by
  induction n generalizing acc c with
  | zero => simp [times.go, Except.map]
  | succ n ih =>
      simp only [times.go]
      rcases item c with ⟨e | a, d⟩
      · rfl
      · dsimp only
        rw [ih (a :: acc), ih [a]]
        rcases times.go item n [] d with ⟨e | as, d'⟩
        · rfl
        · simp [Except.map]

/-- The first of several, then the others. -/
theorem times_succ (n : Nat) (item : Reader Cursor ε α) :
    times (n + 1) item = item >>= fun a => times n item >>= fun as => pure (a :: as) := by
  funext c
  rw [bind_apply, times, times.go]
  rcases item c with ⟨e | a, d⟩
  · rfl
  · dsimp only
    rw [times_go, bind_apply, times]
    rcases times.go item n [] d with ⟨e | as, d'⟩ <;> rfl

/-- A reader takes exactly the words of a grammar, each for the results it stands for. -/
def Accepts (r : Reader Cursor ε α) (G : Bytes → α → Prop) : Prop :=
  ∀ (c d : Cursor) (a : α), r c = (.ok a, d) ↔ ∃ bs, G bs a ∧ c.Passes bs d

namespace Accepts

variable {r : Reader Cursor ε α} {f : α → Reader Cursor ε β} {G G' : Bytes → α → Prop}
  {H : α → Bytes → β → Prop}

theorem congr (h : r.Accepts G) (hG : ∀ bs a, G bs a ↔ G' bs a) : r.Accepts G' := by
  intro c d a
  simp only [h c d a, hG]

theorem complete (h : r.Accepts G) {bs : Bytes} {a : α} (hG : G bs a) (p : Int) (rest : Bytes) :
    r ⟨p, bs ++ rest⟩ = (.ok a, ⟨p + bs.length, rest⟩) :=
  (h _ _ a).2 ⟨bs, hG, .of_append p bs rest⟩

theorem sound (h : r.Accepts G) {c d : Cursor} {a : α} (hr : r c = (.ok a, d)) :
    ∃ bs, G bs a ∧ c.Passes bs d := (h c d a).1 hr

theorem pure (a : α) : (Pure.pure a : Reader Cursor ε α).Accepts fun bs b => bs = [] ∧ b = a := by
  intro c d b
  simp [eq_comm, and_comm, and_assoc]

theorem bind (hr : r.Accepts G) (hf : ∀ a, (f a).Accepts (H a)) :
    (r >>= f).Accepts fun bs b => ∃ a xs ys, G xs a ∧ H a ys b ∧ bs = xs ++ ys := by
  intro c d b
  rw [bind_eq_ok_iff]
  constructor
  · intro h
    obtain ⟨a, c', h, k⟩ := h
    obtain ⟨xs, hx, hp⟩ := hr.sound h
    obtain ⟨ys, hy, hq⟩ := (hf a).sound k
    exact ⟨xs ++ ys, ⟨a, xs, ys, hx, hy, rfl⟩, hp.trans hq⟩
  · intro h
    obtain ⟨_, ⟨a, xs, ys, hx, hy, rfl⟩, hp⟩ := h
    obtain ⟨c', hp, hq⟩ := Cursor.Passes.append_iff.1 hp
    exact ⟨a, c', (hr c c' a).2 ⟨xs, hx, hp⟩, (hf a c' d b).2 ⟨ys, hy, hq⟩⟩

/-- The offset may be asked for where the grammar does not depend on it. -/
theorem position_bind {f : Int → Reader Cursor ε α} (hf : ∀ p, (f p).Accepts G) :
    (position >>= f).Accepts G := by
  intro c d a
  exact hf c.position c d a

theorem mapFault (h : r.Accepts G) (f : ε → ε') : (r.mapFault f).Accepts G := by
  intro c d a
  rw [mapFault_eq_ok_iff, h c d a]

theorem ofExcept (x : Except ε α) : (ofExcept x).Accepts fun bs a => bs = [] ∧ x = .ok a := by
  intro c d a
  rw [ofExcept_eq_ok_iff]
  simp [and_comm, and_assoc]

theorem fail (e : ε) : (Reader.fail e : Reader Cursor ε α).Accepts fun _ _ => False := by
  intro c d a
  simp [Reader.fail]

end Accepts

theorem accepts_advance (n : Int) : (advance n).Accepts fun bs _ => (bs.length : Int) = n := by
  intro c d _
  constructor
  · intro h
    rw [advance_apply] at h
    unfold Cursor.advance at h
    split at h
    · split at h
      · next k _ rest hd =>
          obtain ⟨hk, rfl⟩ := Bytes.drop?_eq_some_iff.1 hd
          cases h
          refine ⟨c.rest.take k, by simp [hk], ?_, ?_⟩
          · exact (List.take_append_drop k c.rest).symm
          · simp [hk]
      · cases h
    · cases h
  · intro h
    obtain ⟨bs, hn, hp⟩ := h
    obtain ⟨p, rest, rfl, rfl⟩ := hp.exists_append
    rw [advance_append hn.symm, hn]

theorem accepts_take (n : Int) :
    (take n).Accepts fun bs a => (bs.length : Int) = n ∧ a = bs := by
  intro c d a
  constructor
  · intro h
    rw [take_apply, Cursor.take] at h
    split at h
    · next d' hd =>
        obtain ⟨bs, hn, hp⟩ := (accepts_advance n).sound hd
        cases h
        refine ⟨bs, ⟨hn, ?_⟩, hp⟩
        rw [hp.1, ← hn]
        simp
    · cases h
  · intro h
    obtain ⟨bs, ⟨hn, rfl⟩, hp⟩ := h
    obtain ⟨p, rest, rfl, rfl⟩ := hp.exists_append
    rw [take_append hn.symm, hn]

theorem accepts_number (width : Nat) :
    (number width).Accepts fun bs n => bs.length = width ∧ n = Bytes.bigEndian bs := by
  intro c d n
  have ht := accepts_take width
  unfold number
  constructor
  · intro h
    split at h
    · next bs d' hd =>
        obtain ⟨_, ⟨hw, rfl⟩, hp⟩ := ht.sound hd
        cases h
        exact ⟨bs, ⟨by exact_mod_cast hw, rfl⟩, hp⟩
    · cases h
  · intro h
    obtain ⟨bs, ⟨hw, rfl⟩, hp⟩ := h
    rw [(ht c d bs).2 ⟨bs, ⟨by exact_mod_cast hw, rfl⟩, hp⟩]

/-- A number is accepted as it is written. -/
theorem accepts_number_ofNumber (width : Nat) :
    (number width).Accepts fun bs n =>
      n < Bytes.capacity width ∧ bs = Bytes.ofNumber width n := by
  refine (accepts_number width).congr fun bs n => ?_
  constructor
  · intro h
    obtain ⟨rfl, rfl⟩ := h
    exact ⟨Bytes.bigEndian_lt bs, (Bytes.ofNumber_bigEndian bs).symm⟩
  · intro h
    obtain ⟨hn, rfl⟩ := h
    exact ⟨Bytes.length_ofNumber .., (Bytes.bigEndian_ofNumber_of_lt hn).symm⟩

theorem accepts_u16 : u16.Accepts fun bs n => ∃ w : UInt16, n = w.toNat ∧ bs = Layout.word w := by
  refine (accepts_number_ofNumber 2).congr fun bs n => ?_
  constructor
  · intro h
    obtain ⟨hn, rfl⟩ := h
    have hw : (UInt16.ofNat n).toNat = n := UInt16.toNat_ofNat_of_lt' hn
    exact ⟨UInt16.ofNat n, hw.symm, by rw [Layout.word, hw]⟩
  · intro h
    obtain ⟨w, rfl, rfl⟩ := h
    exact ⟨w.toNat_lt, rfl⟩

theorem accepts_u32 :
    u32.Accepts fun bs n => n < 0x100000000 ∧ bs = Bytes.ofNumber 4 n := accepts_number_ofNumber 4

theorem Accepts.times {item : Reader Cursor ε α} {bytes : β → Bytes} {R : β → α → Prop}
    (h : item.Accepts fun bs a => ∃ x, R x a ∧ bs = bytes x) (n : Nat) :
    (times n item).Accepts fun bs as =>
      ∃ xs, xs.length = n ∧ List.Forall₂ R xs as ∧ bs = xs.flatMap bytes := by
  induction n with
  | zero =>
      refine (Accepts.pure []).congr fun bs as => ?_
      constructor
      · intro h
        obtain ⟨rfl, rfl⟩ := h
        exact ⟨[], rfl, .nil, rfl⟩
      · intro h
        obtain ⟨xs, hl, hr, rfl⟩ := h
        obtain rfl := List.eq_nil_of_length_eq_zero hl
        cases hr
        exact ⟨rfl, rfl⟩
  | succ n ih =>
      rw [times_succ]
      refine (h.bind fun a => ih.bind fun as => Accepts.pure (a :: as)).congr fun bs as => ?_
      constructor
      · intro h
        obtain ⟨a, _, _, ⟨x, hx, rfl⟩, h, rfl⟩ := h
        obtain ⟨as', _, _, ⟨xs, rfl, hr, rfl⟩, ⟨rfl, rfl⟩, rfl⟩ := h
        exact ⟨x :: xs, rfl, .cons hx hr, by simp⟩
      · intro h
        obtain ⟨xs, hl, hr, rfl⟩ := h
        cases hr with
        | nil => cases hl
        | @cons x a xs as' hx hr =>
            exact ⟨a, _, _, ⟨x, hx, rfl⟩,
              ⟨as', _, _, ⟨xs, Nat.succ.inj hl, hr, rfl⟩, ⟨rfl, rfl⟩, rfl⟩, by simp⟩

/-- A table is accepted row by row behind its count. -/
theorem Accepts.table {item : Reader Cursor Fault α} {bytes : β → Bytes} {R : β → α → Prop}
    (h : item.Accepts fun bs a => ∃ x, R x a ∧ bs = bytes x) :
    (u16 >>= fun n => Reader.times n item).Accepts fun bs as =>
      ∃ xs, xs.length < 0x10000 ∧ List.Forall₂ R xs as ∧ bs = Layout.table bytes xs := by
  refine (accepts_u16.bind fun n => Accepts.times h n).congr fun bs as => ?_
  constructor
  · intro h
    obtain ⟨_, _, _, ⟨w, rfl, rfl⟩, ⟨xs, hl, hr, rfl⟩, rfl⟩ := h
    exact ⟨xs, hl ▸ w.toNat_lt, hr, by rw [Layout.table, hl, Layout.word]⟩
  · intro h
    obtain ⟨xs, hl, hr, rfl⟩ := h
    have hw : (UInt16.ofNat xs.length).toNat = xs.length := UInt16.toNat_ofNat_of_lt' hl
    exact ⟨xs.length, _, _, ⟨UInt16.ofNat xs.length, hw.symm, rfl⟩, ⟨xs, rfl, hr, rfl⟩,
      by rw [Layout.table, Layout.word, hw]⟩

end Reader
end ClassFile
end JarRank
