import JarRank.ClassFile.Summary
import JarRank.Proofs.ClassFile.PoolGrammar

/-!
# What a cursor on a buffer stands for

A cursor on a buffer stands for its offset and the bytes behind its index. Moving it moves what
it stands for, and a read that fails does so with the fault that the bytes behind the index call
for: the index finds the bytes, the offset is what the fault tells, and the two differ by the
offset of the first byte of the buffer.

Readers know no more of a cursor than that. So each of them does on a cursor on a buffer what it
does on the offset and the bytes alone, and what is proved of a reader there holds here. The buffer
and the offset of its first byte are never changed, so that what a cursor stands for tells where in
the buffer it is.
-/
namespace JarRank.ClassFile

namespace ByteCursor

/-- Its offset, and the bytes of the buffer from its index on. -/
def view (c : ByteCursor) : Cursor := ⟨c.position, c.buffer.toList.drop c.index⟩

@[simp] theorem view_position (c : ByteCursor) : c.view.position = c.position := rfl

@[simp] theorem view_remaining (c : ByteCursor) : c.view.remaining = c.remaining := by
  simp [view, Cursor.remaining, remaining]

@[simp] theorem view_ofBytes (data : Bytes) (base : Int) :
    (ofBytes data base).view = .ofBytes data base := by
  simp [view, position, ofBytes, Cursor.ofBytes]

/-- The index is told by the two offsets. -/
theorem index_eq (c : ByteCursor) : (c.index : Int) = c.position - c.base := by
  simp only [position]
  omega

/-- Bytes that are there are passed by moving the index, and what is behind it moves along. -/
theorem require_of_le {k : Nat} {c : ByteCursor} (h : k ≤ c.remaining) :
    ∃ d, c.require k = (.ok c.index, d) ∧ d.view = c.view.forward k := by
  have hk : 0 ≤ (k : Int) ∧ (k : Int) ≤ c.remaining := ⟨Int.natCast_nonneg k, Int.ofNat_le.2 h⟩
  refine ⟨_, by rw [require, dif_pos hk], ?_⟩
  simp [view, position, Cursor.forward, Int.add_assoc]

theorem require_of_not {n : Int} {c : ByteCursor} (h : ¬(0 ≤ n ∧ n ≤ c.remaining)) :
    c.require n = (.error (.truncated c.position n c.remaining), c) := by
  rw [require, dif_neg h]

/-- Two places in one buffer. -/
def Beside (c d : ByteCursor) : Prop := d.buffer = c.buffer ∧ d.base = c.base

theorem Beside.refl (c : ByteCursor) : c.Beside c := ⟨rfl, rfl⟩

theorem Beside.trans {c d e : ByteCursor} (h : c.Beside d) (k : d.Beside e) : c.Beside e :=
  ⟨k.1.trans h.1, k.2.trans h.2⟩

/-- Two places beside one are beside each other. -/
theorem Beside.both {c d e : ByteCursor} (h : c.Beside d) (k : c.Beside e) : d.Beside e :=
  ⟨k.1.trans h.1.symm, k.2.trans h.2.symm⟩

/-- In one buffer a cursor is told from others by its offset. -/
theorem Beside.eq {c d : ByteCursor} (h : c.Beside d) (hposition : d.position = c.position) : d = c := by
  obtain ⟨buffer, index, base, hindex⟩ := c
  obtain ⟨buffer', index', base', hindex'⟩ := d
  obtain ⟨rfl, rfl⟩ := h
  obtain rfl : index' = index := by
    simp only [position] at hposition
    omega
  rfl

theorem require_beside (n : Int) (c : ByteCursor) : c.Beside (c.require n).2 := by
  unfold require
  split
  · exact ⟨rfl, rfl⟩
  · exact .refl c

end ByteCursor

namespace Reader

variable {ε ε' α β : Type}

/-- On a cursor on a buffer the first reader does what the second does on what the cursor stands for,
and stays in the buffer. -/
structure Refines (r : Reader ByteCursor ε α) (s : Reader Cursor ε α) : Prop where
  view : ∀ c : ByteCursor, s c.view = ((r c).1, (r c).2.view)
  beside : ∀ c : ByteCursor, c.Beside (r c).2

namespace Refines

variable {r : Reader ByteCursor ε α} {s : Reader Cursor ε α} {f : α → Reader ByteCursor ε β}
  {g : α → Reader Cursor ε β}

theorem pure (a : α) : Refines (Pure.pure a : Reader ByteCursor ε α) (Pure.pure a) where
  view _ := rfl
  beside c := .refl c

theorem fail (e : ε) : Refines (Reader.fail e : Reader ByteCursor ε α) (Reader.fail e) where
  view _ := rfl
  beside c := .refl c

theorem position : Refines (Reader.position : Reader ByteCursor ε Int) Reader.position where
  view _ := rfl
  beside c := .refl c

theorem ofExcept (x : Except ε α) :
    Refines (Reader.ofExcept x : Reader ByteCursor ε α) (Reader.ofExcept x) := by
  cases x with
  | ok a => exact pure a
  | error e => exact fail e

theorem bind (hr : Refines r s) (hf : ∀ a, Refines (f a) (g a)) : Refines (r >>= f) (s >>= g) where
  view c := by
    rw [bind_apply, bind_apply, hr.view c]
    rcases r c with ⟨_ | a, d⟩
    · rfl
    · exact (hf a).view d
  beside c := by
    have hfirst := hr.beside c
    rw [bind_apply]
    generalize r c = x at hfirst ⊢
    rcases x with ⟨_ | a, d⟩
    · exact hfirst
    · exact hfirst.trans ((hf a).beside d)

theorem mapFault (hr : Refines r s) (h : ε → ε') : Refines (r.mapFault h) (s.mapFault h) where
  view c := by
    rw [Reader.mapFault, Reader.mapFault, hr.view c]
    rcases r c with ⟨_ | a, d⟩ <;> rfl
  beside c := by
    have hsame := hr.beside c
    rw [Reader.mapFault]
    generalize r c = x at hsame ⊢
    rcases x with ⟨_ | a, d⟩ <;> exact hsame

theorem times (hr : Refines r s) (n : Nat) : Refines (Reader.times n r) (Reader.times n s) := by
  have hgo : ∀ acc : List α, Refines (times.go r n acc) (times.go s n acc) := by
    induction n with
    | zero => exact fun acc => pure acc.reverse
    | succ n ih => exact fun acc => hr.bind fun a => ih (a :: acc)
  exact hgo []

/-- Where bytes are asked for that are not there, neither cursor moves. -/
theorem advance (n : Int) : Refines (Reader.advance n) (Reader.advance n) where
  view c := by
    change Reader.advance n c.view = ((c.advance n).1, (c.advance n).2.view)
    by_cases h : 0 ≤ n ∧ n ≤ c.remaining
    · obtain ⟨k, rfl⟩ := Int.eq_ofNat_of_zero_le h.1
      have hk : k ≤ c.remaining := Int.ofNat_le.1 h.2
      obtain ⟨d, hd, hview⟩ := ByteCursor.require_of_le hk
      rw [advance_eq, ByteCursor.view_remaining, if_pos hk, ByteCursor.advance, hd, ← hview]
    · rw [ByteCursor.advance, ByteCursor.require_of_not h]
      cases n with
      | negSucc k => simp [advance_apply, Cursor.advance]
      | ofNat k =>
          have hk : ¬k ≤ c.remaining := fun hle => h ⟨Int.natCast_nonneg k, Int.ofNat_le.2 hle⟩
          have hadvance := advance_eq k c.view
          rw [ByteCursor.view_remaining, if_neg hk] at hadvance
          exact hadvance
  beside c := by
    have h := ByteCursor.require_beside n c
    change c.Beside (c.advance n).2
    rw [ByteCursor.advance]
    generalize c.require n = x at h ⊢
    rcases x with ⟨_ | _, d⟩ <;> exact h

/-- The bytes that are given are those from the index on. -/
theorem take (n : Int) : Refines (Reader.take n) (Reader.take n) where
  view c := by
    change Reader.take n c.view = ((c.take n).1, (c.take n).2.view)
    by_cases h : 0 ≤ n ∧ n ≤ c.remaining
    · obtain ⟨k, rfl⟩ := Int.eq_ofNat_of_zero_le h.1
      have hk : k ≤ c.remaining := Int.ofNat_le.1 h.2
      obtain ⟨d, hd, hview⟩ := ByteCursor.require_of_le hk
      rw [take_eq, ByteCursor.view_remaining, if_pos hk, ByteCursor.take, hd, ← hview]
      simp [ByteCursor.view]
    · have hadvance : c.view.advance n = ((c.advance n).1, (c.advance n).2.view) :=
        (advance n).view c
      rw [ByteCursor.advance, ByteCursor.require_of_not h] at hadvance
      rw [take_apply, Cursor.take, hadvance, ByteCursor.take, ByteCursor.require_of_not h]
  beside c := by
    have h := ByteCursor.require_beside n c
    change c.Beside (c.take n).2
    rw [ByteCursor.take]
    generalize c.require n = x at h ⊢
    rcases x with ⟨_ | _, d⟩ <;> exact h

/-- A number is told from the bytes that are taken. -/
theorem number_eq_bind {κ : Type} [Source κ] (width : Nat) : (Reader.number width : Reader κ Fault Nat) =
    Reader.take width >>= fun bs => Pure.pure (Bytes.bigEndian bs) := by
  funext c
  rw [bind_apply, Reader.number]
  rcases Reader.take width c with ⟨_ | _, d⟩ <;> rfl

theorem number (width : Nat) : Refines (Reader.number width) (Reader.number width) := by
  rw [number_eq_bind, number_eq_bind]
  exact (take width).bind fun bs => pure (Bytes.bigEndian bs)

theorem u16 : Refines Reader.u16 Reader.u16 := number 2

theorem u32 : Refines Reader.u32 Reader.u32 := number 4

/-! ### The readers of the sections -/

theorem payload (kind : Kind) : Refines (Pool.readPayload kind) (Pool.readPayload kind) := by
  cases kind with
  | utf8 => exact u16.bind fun length => (take length).bind fun raw => pure _
  | classRef => exact u16.bind fun n => pure _
  | nameAndType => exact u16.bind fun n => u16.bind fun d => pure _
  | payload q => exact (advance q.width).bind fun _ => pure _

theorem constant (index : Nat) : Refines (Pool.readConstant index) (Pool.readConstant index) := by
  rw [Pool.readConstant_eq, Pool.readConstant_eq]
  refine position.bind fun offset => (number 1).bind fun tag => ?_
  cases Kind.ofTag? tag with
  | none => exact fail _
  | some kind => exact payload kind

theorem fill (left : Nat) (reserved : Bool) (slots : Array (Option Constant)) :
    Refines (Pool.fill left reserved slots) (Pool.fill left reserved slots) := by
  induction left generalizing reserved slots with
  | zero =>
      cases reserved with
      | false => exact pure (Pool.mk slots)
      | true => exact pure (Pool.mk (slots.push none))
  | succ left ih =>
      cases reserved with
      | false =>
          rw [Pool.fill_succ, Pool.fill_succ]
          exact (constant slots.size).bind fun k => ih k.kind.isWide (slots.push (some k))
      | true => exact ih false (slots.push none)

theorem pool : Refines Pool.read Pool.read :=
  u16.bind fun declared => fill (declared - 1) false Pool.empty.slots

theorem header (p : Pool) : Refines (Section.header p) (Section.header p) :=
  u16.bind fun flags => u16.bind fun this => u16.bind fun super =>
    (ofExcept (p.className this)).bind fun name => pure (Header.mk flags name super)

theorem interfaces : Refines Section.interfaces Section.interfaces :=
  u16.bind fun count => (advance (2 * count)).bind fun _ => pure count

theorem anyAttribute : Refines Section.anyAttribute Section.anyAttribute :=
  (advance 2).bind fun _ => u32.bind fun length => advance length

theorem attributes : Refines Section.attributes Section.attributes :=
  u16.bind fun count => (anyAttribute.times count).bind fun _ => pure count

theorem field : Refines Section.field Section.field :=
  (advance 6).bind fun _ => attributes.bind fun _ => pure ()

theorem fields : Refines Section.fields Section.fields :=
  u16.bind fun count => (field.times count).bind fun _ => pure count

theorem codeLength : Refines Section.codeLength Section.codeLength :=
  (advance 2).bind fun _ => (advance 2).bind fun _ => u32

/-- The body of the code is a buffer of its own, and begins at the offset that the cursor stands for. -/
theorem codeSize (body : Bytes) (offset : Int) :
    (Section.codeLength (Source.ofBytes body offset : ByteCursor)).1 =
      (Section.codeLength (Source.ofBytes body offset : Cursor)).1 := by
  have h := codeLength.view (ByteCursor.ofBytes body offset)
  rw [ByteCursor.view_ofBytes] at h
  exact (congrArg Prod.fst h).symm

theorem methodAttribute (p : Pool) (code : String) :
    Refines (Section.methodAttribute p code) (Section.methodAttribute p code) := by
  refine u16.bind fun nameIndex => u32.bind fun length =>
    (ofExcept (p.text nameIndex)).bind fun name => ?_
  by_cases h : name = code
  · rw [if_pos h, if_pos h]
    refine position.bind fun offset => (take length).bind fun body => ?_
    rw [codeSize body offset]
    exact (ofExcept _).bind fun size => pure (some size)
  · rw [if_neg h, if_neg h]
    exact (advance length).bind fun _ => pure none

theorem methodAttributes (p : Pool) (code : String) :
    Refines (Section.methodAttributes p code) (Section.methodAttributes p code) :=
  u16.bind fun count => ((methodAttribute p code).times count).bind fun sizes =>
    pure (Section.lastSize sizes)

theorem method (p : Pool) (code : String) : Refines (Section.method p code) (Section.method p code) :=
  (advance 2).bind fun _ => u16.bind fun nameIndex => u16.bind fun descriptorIndex =>
    (ofExcept (p.text nameIndex)).bind fun name =>
      (ofExcept (p.text descriptorIndex)).bind fun descriptor =>
        (methodAttributes p code).bind fun size => pure (Method.mk name descriptor size)

theorem methods (p : Pool) (code : String) : Refines (Section.methods p code) (Section.methods p code) :=
  u16.bind fun count => (method p code).times count

theorem magic : Refines Summary.readMagic Summary.readMagic := by
  refine u32.bind fun observed => ?_
  by_cases h : observed = ClassFile.magic
  · rw [if_pos h, if_pos h]
    exact pure ()
  · rw [if_neg h, if_neg h]
    exact fail _

theorem version : Refines Summary.readVersion Summary.readVersion :=
  u16.bind fun minor => u16.bind fun major => pure (minor, major)

theorem summary (code : String) : Refines (Summary.read code) (Summary.read code) :=
  (magic.mapFault _).bind fun _ => (version.mapFault _).bind fun v => (pool.mapFault _).bind fun p =>
    ((header p).mapFault _).bind fun h => (interfaces.mapFault _).bind fun _ =>
      (fields.mapFault _).bind fun _ => ((methods p code).mapFault _).bind fun methods =>
        (attributes.mapFault _).bind fun _ => pure (Summary.mk h.className v.2 v.1 methods)

end Refines
end Reader

/-- A class file is decoded from its bytes as from a buffer that holds them. -/
theorem Summary.decode_eq (data : Bytes) (code : String) :
    decode data code = (read code (Cursor.ofBytes data 0)).1 := by
  have h := (Reader.Refines.summary code).view (ByteCursor.ofBytes data 0)
  rw [ByteCursor.view_ofBytes] at h
  exact (congrArg Prod.fst h).symm

end JarRank.ClassFile
