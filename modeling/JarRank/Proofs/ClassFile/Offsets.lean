import JarRank.Proofs.ClassFile.CursorView
import JarRank.Proofs.ClassFile.FaultTruth

/-!
# Offsets

A reader uses the offset of its cursor in faults only. On the same bytes at another offset it
does the same: it has the same result, or fails in the same place with the same fault, in which
the offset is moved by the difference. This holds as well where the body of a code attribute is
read by a cursor of its own, because that cursor begins at the offset of the body.

A cursor on a buffer finds its bytes by an index and tells offsets that count from the offset of
the first byte. Behind some bytes of a buffer the index is not zero, and on the other bytes alone it
is; the offset is the same on both if that of the first byte counts the bytes in front. So it does
not matter whether some bytes are a buffer or the end of a longer one. Every offset in a fault is the
one of the buffer, and where it leads to in the buffer there is what the fault speaks of: the end of
what is left, the tag, or a byte of the short body of code.
-/
namespace JarRank.ClassFile

/-- The same bytes, with the offset moved. -/
def Cursor.moved (k : Int) (c : Cursor) : Cursor := ⟨c.position + k, c.rest⟩

/-- The same fault, with the offset moved if it has one. -/
def Fault.moved (k : Int) : Fault → Fault
  | .badMagic observed => .badMagic observed
  | .truncated offset needed available => .truncated (offset + k) needed available
  | .unknownTag tag index offset => .unknownTag tag index (offset + k)
  | .badReference index expected found => .badReference index expected found

namespace Pool

variable {p : Pool}

/-- A reference names no offset. -/
theorem text_moved (k : Int) (i : Int) : (p.text i).mapError (Fault.moved k) = p.text i := by
  cases h : p.text i with
  | ok s => rfl
  | error e =>
      rcases text_eq_error_iff.1 h with ⟨found, _, rfl⟩
      rfl

theorem className_moved (k : Int) (i : Int) :
    (p.className i).mapError (Fault.moved k) = p.className i := by
  cases h : p.className i with
  | ok s => rfl
  | error e =>
      rcases className_eq_error_iff.1 h with ⟨found, _, rfl⟩ | ⟨n, _, found, _, rfl⟩
      · rfl
      · rfl

end Pool

namespace Reader

variable {α β : Type}

/-- The outcome of a reading, with all offsets moved. -/
def moved (k : Int) (x : Except Fault α × Cursor) : Except Fault α × Cursor :=
  (x.1.mapError (Fault.moved k), x.2.moved k)

/-- On moved cursors the second reader does what the first one does. -/
def MovesTo (k : Int) (r r' : Reader Cursor Fault α) : Prop := ∀ c, r' (c.moved k) = moved k (r c)

/-- The reader does the same at every offset. -/
def Translates (r : Reader Cursor Fault α) : Prop := ∀ k, MovesTo k r r

namespace MovesTo

variable {k : Int} {r r' : Reader Cursor Fault α} {f f' : α → Reader Cursor Fault β}

theorem bind (hr : MovesTo k r r') (hf : ∀ a, MovesTo k (f a) (f' a)) :
    MovesTo k (r >>= f) (r' >>= f') := by
  intro c
  rw [bind_apply, bind_apply, hr c]
  rcases r c with ⟨_ | a, d⟩
  · rfl
  · exact hf a d

theorem ofExcept (x : Except Fault α) :
    MovesTo k (Reader.ofExcept x) (Reader.ofExcept (x.mapError (Fault.moved k))) := by
  intro c
  cases x <;> rfl

/-- A reader that asks for the offset is told the moved one. -/
theorem position_bind {f f' : Int → Reader Cursor Fault α} (hf : ∀ q, MovesTo k (f q) (f' (q + k))) :
    MovesTo k (position >>= f) (position >>= f') := by
  intro c
  exact hf c.position c

end MovesTo

namespace Translates

variable {r : Reader Cursor Fault α} {f : α → Reader Cursor Fault β}

theorem pure (a : α) : Translates (Pure.pure a : Reader Cursor Fault α) := fun _ _ => rfl

theorem bind (hr : Translates r) (hf : ∀ a, Translates (f a)) : Translates (r >>= f) :=
  fun k => (hr k).bind fun a => hf a k

theorem ofExcept {x : Except Fault α} (h : ∀ k, x.mapError (Fault.moved k) = x) :
    Translates (Reader.ofExcept x) := by
  intro k
  have hx := MovesTo.ofExcept (k := k) x
  rwa [h k] at hx

theorem advance (n : Int) : Translates (Reader.advance n) := by
  intro k c
  rw [advance_apply, advance_apply]
  cases n with
  | negSucc n => rfl
  | ofNat n =>
      simp only [Cursor.moved, Cursor.advance]
      cases Bytes.drop? n c.rest with
      | none => rfl
      | some rest =>
          have hend : c.position + k + n = c.position + n + k := by omega
          simp only [hend]
          rfl

theorem take (n : Int) : Translates (Reader.take n) := by
  intro k c
  rw [take_apply, take_apply, Cursor.take, Cursor.take, ← advance_apply, advance n k c, ← advance_apply]
  rcases Reader.advance n c with ⟨_ | _, d⟩ <;> rfl

theorem number (width : Nat) : Translates (Reader.number width) := by
  intro k c
  rw [Reader.number, Reader.number, take width k c]
  rcases Reader.take width c with ⟨_ | _, d⟩ <;> rfl

theorem u16 : Translates Reader.u16 := number 2

theorem u32 : Translates Reader.u32 := number 4

theorem times (h : Translates r) (n : Nat) : Translates (Reader.times n r) := by
  induction n with
  | zero => exact pure []
  | succ n ih =>
      rw [times_succ]
      exact h.bind fun a => ih.bind fun as => pure (a :: as)

/-! ### The readers of the sections -/

theorem payload (kind : Kind) : Translates (Pool.readPayload kind) := by
  cases kind with
  | utf8 => exact u16.bind fun length => (take length).bind fun raw => pure _
  | classRef => exact u16.bind fun n => pure _
  | nameAndType => exact u16.bind fun n => u16.bind fun d => pure _
  | payload q => exact (advance q.width).bind fun _ => pure _

theorem constant (index : Nat) : Translates (Pool.readConstant index) := by
  intro k
  rw [Pool.readConstant_eq]
  refine MovesTo.position_bind fun offset => (number 1 k).bind fun tag => ?_
  cases Kind.ofTag? tag with
  | none => exact MovesTo.ofExcept (.error (.unknownTag tag index offset))
  | some kind => exact payload kind k

theorem fill (left : Nat) (reserved : Bool) (slots : Array (Option Constant)) :
    Translates (Pool.fill left reserved slots) := by
  induction left generalizing reserved slots with
  | zero =>
      cases reserved with
      | false => exact pure (Pool.mk slots)
      | true => exact pure (Pool.mk (slots.push none))
  | succ left ih =>
      cases reserved with
      | false =>
          rw [Pool.fill_succ]
          exact (constant slots.size).bind fun k => ih k.kind.isWide (slots.push (some k))
      | true => exact ih false (slots.push none)

theorem pool : Translates Pool.read :=
  u16.bind fun declared => fill (declared - 1) false Pool.empty.slots

theorem header (p : Pool) : Translates (Section.header p) :=
  u16.bind fun flags => u16.bind fun this => u16.bind fun super =>
    (ofExcept fun k => Pool.className_moved k this).bind fun name => pure (Header.mk flags name super)

theorem interfaces : Translates Section.interfaces :=
  u16.bind fun count => (advance (2 * count)).bind fun _ => pure count

theorem anyAttribute : Translates Section.anyAttribute :=
  (advance 2).bind fun _ => u32.bind fun length => advance length

theorem attributes : Translates Section.attributes :=
  u16.bind fun count => (anyAttribute.times count).bind fun _ => pure count

theorem field : Translates Section.field :=
  (advance 6).bind fun _ => attributes.bind fun _ => pure ()

theorem fields : Translates Section.fields :=
  u16.bind fun count => (field.times count).bind fun _ => pure count

theorem codeLength : Translates Section.codeLength :=
  (advance 2).bind fun _ => (advance 2).bind fun _ => u32

/-- The cursor over the body of the code is moved with the cursor that the body is taken from. -/
theorem codeBody (n : Nat) : Translates (Section.codeBody n) := by
  intro k
  refine MovesTo.position_bind fun offset => (take n k).bind fun body => ?_
  have hsize : (Section.codeLength (Cursor.ofBytes body (offset + k))).1 =
      (Section.codeLength (Cursor.ofBytes body offset)).1.mapError (Fault.moved k) :=
    congrArg Prod.fst (codeLength k (Cursor.ofBytes body offset))
  rw [hsize]
  exact (MovesTo.ofExcept _).bind fun size => pure (some size) k

theorem attributeBody (code : String) (n : Nat) (name : String) :
    Translates (Section.attributeBody code n name) := by
  unfold Section.attributeBody
  by_cases h : name = code
  · rw [if_pos h]
    exact codeBody n
  · rw [if_neg h]
    exact (advance n).bind fun _ => pure none

theorem methodAttribute (p : Pool) (code : String) : Translates (Section.methodAttribute p code) := by
  rw [Section.methodAttribute_eq]
  exact u16.bind fun nameIndex => u32.bind fun length =>
    (ofExcept fun k => Pool.text_moved k nameIndex).bind (attributeBody code length)

theorem methodAttributes (p : Pool) (code : String) :
    Translates (Section.methodAttributes p code) :=
  u16.bind fun count => ((methodAttribute p code).times count).bind fun sizes =>
    pure (Section.lastSize sizes)

theorem method (p : Pool) (code : String) : Translates (Section.method p code) :=
  (advance 2).bind fun _ => u16.bind fun nameIndex => u16.bind fun descriptorIndex =>
    (ofExcept fun k => Pool.text_moved k nameIndex).bind fun name =>
      (ofExcept fun k => Pool.text_moved k descriptorIndex).bind fun descriptor =>
        (methodAttributes p code).bind fun size => pure (Method.mk name descriptor size)

theorem methods (p : Pool) (code : String) : Translates (Section.methods p code) :=
  u16.bind fun count => (method p code).times count

end Translates
end Reader

open Reader

namespace Section

/-- The readers of the pool and of the five sections behind it, on any cursors. -/
inductive IsSection (p : Pool) (code : String) :
    {α : Type} → (∀ (κ : Type) [Source κ], Reader κ Fault α) → Prop
  | pool : IsSection p code fun _ _ => Pool.read
  | header : IsSection p code fun _ _ => header p
  | interfaces : IsSection p code fun _ _ => interfaces
  | fields : IsSection p code fun _ _ => fields
  | methods : IsSection p code fun _ _ => methods p code
  | attributes : IsSection p code fun _ _ => attributes

/-- What a fault says of a buffer whose first byte has the offset `base`, and where in the buffer the
reader has stopped. -/
inductive Placed (p : Pool) (code : String) (buffer : Bytes) (base : Int) : Fault → Cursor → Prop
  | short (front back : Bytes) (needed : Nat) : buffer = front ++ back → back.length < needed →
      Placed p code buffer base (.truncated (base + front.length) needed back.length)
        ⟨base + front.length, back⟩
  | tag (front back : Bytes) (tag : UInt8) (index : Nat) : buffer = front ++ tag :: back →
      Kind.ofTag? tag.toNat = none →
      Placed p code buffer base (.unknownTag tag.toNat index (base + front.length))
        ⟨base + (front.length + 1 : Nat), back⟩
  | reference (front back : Bytes) (index : Int) (expected : Expected) (found : Finding) :
      buffer = front ++ back → p.Lacks index expected found →
      Placed p code buffer base (.badReference index expected found) ⟨base + front.length, back⟩
  /-- The body of a code attribute ends too early, and the reader stands at its end. -/
  | code (front back : Bytes) (a : Attribute) (i needed : Nat) : buffer = front ++ a.bytes ++ back →
      p.HasText a.nameIndex.toNat code → a.body.length < 8 → i ≤ a.body.length →
      a.body.length - i < needed →
      Placed p code buffer base
        (.truncated (base + (front.length + 6 + i : Nat)) needed (a.body.length - i))
        ⟨base + (front ++ a.bytes).length, back⟩

variable {p : Pool} {code : String} {pre bs : Bytes} {base : Int} {d : Cursor} {e : Fault}

namespace Placed

theorem of_short (h : d.Short e) (hd : d.position = base + (pre ++ bs).length) :
    Placed p code (pre ++ bs ++ d.rest) base e d := by
  rcases d with ⟨position, rest⟩
  rcases h with ⟨needed, hneeded, rfl⟩
  dsimp only at hd
  subst hd
  exact .short (pre ++ bs) rest needed rfl hneeded

theorem of_tagFault {first bound : Nat} (h : Pool.TagFault first bound bs d e)
    (hd : d.position = base + (pre ++ bs).length) :
    Placed p code (pre ++ bs ++ d.rest) base e d := by
  rcases d with ⟨position, rest⟩
  rcases h with ⟨front, tag, index, htag, _, _, rfl, rfl⟩
  dsimp only at hd
  have hlength : (pre ++ (front ++ [tag])).length = (pre ++ front).length + 1 := by simp [Nat.add_assoc]
  have hoffset : position - 1 = base + (pre ++ front).length := by omega
  rw [hlength] at hd
  dsimp only
  rw [hoffset, hd]
  exact .tag (pre ++ front) rest tag index (by simp) htag

theorem of_lacks {index : Int} {expected : Expected} {found : Finding}
    (h : p.Lacks index expected found) (hd : d.position = base + (pre ++ bs).length) :
    Placed p code (pre ++ bs ++ d.rest) base (.badReference index expected found) d := by
  rcases d with ⟨position, rest⟩
  dsimp only at hd
  subst hd
  exact .reference (pre ++ bs) rest index expected found rfl h

theorem of_classFault {i : Int} (h : p.ClassFault i e) (hd : d.position = base + (pre ++ bs).length) :
    Placed p code (pre ++ bs ++ d.rest) base e d := by
  rcases h with ⟨found, hl, rfl⟩ | ⟨n, _, found, hl, rfl⟩
  · exact of_lacks hl hd
  · exact of_lacks hl hd

theorem of_methodsFault (h : MethodsFault p code bs d e)
    (hd : d.position = base + (pre ++ bs).length) :
    Placed p code (pre ++ bs ++ d.rest) base e d := by
  cases h with
  | short h => exact of_short h hd
  | name i h =>
      rcases h with ⟨found, hl, rfl⟩
      exact of_lacks hl hd
  | code h =>
      rcases d with ⟨position, rest⟩
      rcases h with ⟨front, a, i, needed, htext, rfl, h8, hi, hneeded, rfl⟩
      dsimp only at hd ⊢
      have havailable : ((a.body.length - i : Nat) : Int) = a.body.length - i := by omega
      have hoffset : position - a.body.length + i = base + ((pre ++ front).length + 6 + i : Nat) := by
        rw [hd]
        simp only [Attribute.bytes, List.length_append, Layout.length_word, Bytes.length_ofNumber]
        omega
      rw [hoffset, hd, ← List.append_assoc]
      exact .code (pre ++ front) rest a i needed rfl htext h8 hi hneeded

end Placed

namespace IsSection

variable {α : Type} {r : ∀ (κ : Type) [Source κ], Reader κ Fault α}

theorem refines (h : IsSection p code r) : (r ByteCursor).Refines (r Cursor) := by
  cases h with
  | pool => exact .pool
  | header => exact .header p
  | interfaces => exact .interfaces
  | fields => exact .fields
  | methods => exact .methods p code
  | attributes => exact .attributes

theorem translates (h : IsSection p code r) : Translates (r Cursor) := by
  cases h with
  | pool => exact .pool
  | header => exact .header p
  | interfaces => exact .interfaces
  | fields => exact .fields
  | methods => exact .methods p code
  | attributes => exact .attributes

/-- Behind some bytes of a buffer, the fault of a reader is placed in the whole of it. -/
theorem placed (h : IsSection p code r) (pre data : Bytes) (base : Int) {e : Fault} {d : Cursor}
    (hr : r Cursor (.ofBytes data (base + pre.length)) = (.error e, d)) :
    Placed p code (pre ++ data) base e d := by
  have hwhole : ∀ {bs : Bytes}, Cursor.Passes (.ofBytes data (base + pre.length)) bs d →
      pre ++ data = pre ++ bs ++ d.rest ∧ d.position = base + (pre ++ bs).length := by
    intro bs hp
    have hrest : data = bs ++ d.rest := hp.1
    have hposition : d.position = base + pre.length + bs.length := hp.2
    refine ⟨?_, ?_⟩
    · rw [List.append_assoc, ← hrest]
    · rw [hposition, List.length_append]
      push_cast
      omega
  have hshort : FailsShort (r Cursor) → Placed p code (pre ++ data) base e d := by
    intro hs
    rcases hs _ _ _ hr with ⟨bs, hp, hfault⟩
    rcases hwhole hp with ⟨hbuffer, hd⟩
    rw [hbuffer]
    exact .of_short hfault hd
  cases h with
  | pool =>
      rcases Pool.read_fails _ _ _ hr with ⟨bs, hp, hfault⟩
      rcases hwhole hp with ⟨hbuffer, hd⟩
      rw [hbuffer]
      rcases hfault with hfault | ⟨declared, ys, hfault, rfl⟩
      · exact .of_short hfault hd
      · exact .of_tagFault (hfault.mono (Nat.le_refl _) (fun _ => Nat.le_refl _) _) hd
  | header =>
      rcases header_fails p _ _ _ hr with ⟨bs, hp, hfault⟩
      rcases hwhole hp with ⟨hbuffer, hd⟩
      rw [hbuffer]
      rcases hfault with hfault | ⟨i, hfault⟩
      · exact .of_short hfault hd
      · exact .of_classFault hfault hd
  | interfaces => exact hshort interfaces_failsShort
  | fields => exact hshort fields_failsShort
  | methods =>
      rcases methods_fails p code _ _ _ hr with ⟨bs, hp, hfault⟩
      rcases hwhole hp with ⟨hbuffer, hd⟩
      rw [hbuffer]
      exact .of_methodsFault hfault hd
  | attributes => exact hshort attributes_failsShort

end IsSection

/-- Two cursors stand at one offset, and as many bytes are left, the same ones. -/
structure Alike (c d : ByteCursor) : Prop where
  position : c.position = d.position
  remaining : c.remaining = d.remaining
  rest : c.view.rest = d.view.rest

theorem Alike.of_view {c d : ByteCursor} (h : c.view = d.view) : Alike c d where
  position := congrArg Cursor.position h
  remaining := by
    rw [← ByteCursor.view_remaining, h, ByteCursor.view_remaining]
  rest := congrArg Cursor.rest h

/-- A reader does the same on some bytes as behind others, where the offset of the first byte counts
these, and what its faults say of offsets is said of the whole buffer. -/
structure OffsetsAgree {α : Type} (p : Pool) (code : String) (r : Reader ByteCursor Fault α)
    (pre data : Bytes) (base : Int) : Prop where
  /-- All bytes in front can be passed. The reader then has the outcome that it has on the others
  alone, and leaves both cursors alike, each in its own buffer. -/
  behind : ∃ c : ByteCursor, advance pre.length (ByteCursor.ofBytes (pre ++ data) base) = (.ok (), c) ∧
    c.index = pre.length ∧ (r c).1 = (r (.ofBytes data (base + pre.length))).1 ∧
    Alike (r c).2 (r (.ofBytes data (base + pre.length))).2 ∧
    (ByteCursor.ofBytes (pre ++ data) base).Beside (r c).2
  /-- What it does on these is told by what it does on them at the offset zero. -/
  fromZero : (r (.ofBytes data (base + pre.length))).1 =
      (r (.ofBytes data 0)).1.mapError (Fault.moved (base + pre.length)) ∧
    (r (.ofBytes data (base + pre.length))).2.index = (r (.ofBytes data 0)).2.index
  placed : ∀ e, (r (.ofBytes data (base + pre.length))).1 = .error e →
    Placed p code (pre ++ data) base e (r (.ofBytes data (base + pre.length))).2.view

/-- The bytes in front are passed up to the index behind them. -/
theorem exists_behind (pre data : Bytes) (base : Int) : ∃ c : ByteCursor,
    advance pre.length (ByteCursor.ofBytes (pre ++ data) base) = (.ok (), c) ∧
      c.index = pre.length ∧ c.view = (ByteCursor.ofBytes data (base + pre.length)).view ∧
      (ByteCursor.ofBytes (pre ++ data) base).Beside c := by
  have hadvance : Cursor.advance pre.length (ByteCursor.ofBytes (pre ++ data) base).view =
      (.ok (), ⟨base + pre.length, data⟩) := by
    rw [ByteCursor.view_ofBytes]
    exact advance_append rfl data base
  have hrefines := (Refines.advance pre.length).view (ByteCursor.ofBytes (pre ++ data) base)
  have hbeside := (Refines.advance pre.length).beside (ByteCursor.ofBytes (pre ++ data) base)
  rw [advance_apply, hadvance] at hrefines
  generalize advance pre.length (ByteCursor.ofBytes (pre ++ data) base) = x at hrefines hbeside ⊢
  obtain ⟨outcome, c⟩ := x
  obtain ⟨rfl, hview⟩ := Prod.mk.inj hrefines
  refine ⟨c, rfl, ?_, ?_, hbeside⟩
  · have hindex := c.index_eq
    have hposition : base + pre.length = c.position := congrArg Cursor.position hview
    have hbase : c.base = base := hbeside.2
    omega
  · rw [← hview, ByteCursor.view_ofBytes]
    rfl

theorem offsets_agree {α : Type} {r : ∀ (κ : Type) [Source κ], Reader κ Fault α}
    (h : IsSection p code r) (pre data : Bytes) (base : Int) :
    OffsetsAgree p code (r ByteCursor) pre data base := by
  have hview := h.refines.view (.ofBytes data (base + pre.length))
  have hzero := h.refines.view (.ofBytes data 0)
  have hmoved := h.translates (base + pre.length) (.ofBytes data 0)
  rw [ByteCursor.view_ofBytes] at hview hzero
  refine ⟨?_, ?_, ?_⟩
  · obtain ⟨c, hc, hindex, hsame, hbeside⟩ := exists_behind pre data base
    have hbehind := h.refines.view c
    rw [hsame, ByteCursor.view_ofBytes, hview] at hbehind
    obtain ⟨houtcome, hend⟩ := Prod.mk.inj hbehind
    exact ⟨c, hc, hindex, houtcome.symm, .of_view hend.symm, hbeside.trans (h.refines.beside c)⟩
  · have hmoves : r Cursor (.ofBytes data (base + pre.length)) =
        moved (base + pre.length) (r Cursor (.ofBytes data 0)) := by
      rw [← hmoved, Cursor.moved, Cursor.ofBytes, Cursor.ofBytes, Int.zero_add]
    rw [hview, hzero] at hmoves
    obtain ⟨houtcome, hend⟩ := Prod.mk.inj hmoves
    refine ⟨houtcome, ?_⟩
    have hposition : (r ByteCursor (.ofBytes data (base + pre.length))).2.position =
        (r ByteCursor (.ofBytes data 0)).2.position + (base + pre.length) :=
      congrArg Cursor.position hend
    have hbase : (r ByteCursor (.ofBytes data (base + pre.length))).2.base = base + pre.length :=
      (h.refines.beside (.ofBytes data (base + pre.length))).2
    have hzeroBase : (r ByteCursor (.ofBytes data 0)).2.base = 0 :=
      (h.refines.beside (.ofBytes data 0)).2
    have hindex := (r ByteCursor (.ofBytes data (base + pre.length))).2.index_eq
    have hzeroIndex := (r ByteCursor (.ofBytes data 0)).2.index_eq
    omega
  · intro e he
    rw [he] at hview
    exact h.placed pre data base hview

/-- A table with the name of the code. -/
def codeNamed : Pool := ⟨#[none, some (.utf8 "Code")]⟩

/-- One method, whose code has a body of three bytes. -/
def stuntedCode : Bytes := [0, 1, 0, 0, 0, 1, 0, 1, 0, 1, 0, 1, 0, 0, 0, 3, 0, 0, 0]

/-- Far below zero and behind two bytes, the last byte of the body is the one with index 20. -/
theorem offsets_agree_stunted :
    IsSection codeNamed "Code" (fun _ _ => methods codeNamed "Code") ∧
      OffsetsAgree codeNamed "Code" (methods codeNamed "Code") [0xCA, 0xFE] stuntedCode
        (-0x10000000000000000) ∧
      (methods codeNamed "Code" (ByteCursor.ofBytes stuntedCode (-0x10000000000000000 + 2))).1 =
        .error (.truncated (-0x10000000000000000 + 20) 2 1) :=
  ⟨.methods, offsets_agree .methods _ _ _, by decide +kernel⟩

end Section
end JarRank.ClassFile
