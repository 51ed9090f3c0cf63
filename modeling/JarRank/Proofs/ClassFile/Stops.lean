import JarRank.Proofs.ClassFile.Calls
import JarRank.Proofs.ClassFile.Walkers

/-!
# Where readings leave the cursor

The readers of the sections are called in turn on one cursor, and between them so are its
operations. None of them moves backwards or past the end, whether it succeeds or not. A reader that
fails leaves the cursor in a place that its fault tells of: where bytes were missed, or behind the
tag, behind the six bytes of the header that holds the index, or behind the body of the code that is
too short. The next one goes on from there.

Among the methods a fault is met in one of them, behind others that were read, and in that method it
is met in the header or in one attribute, behind others. So each table is taken apart at the row that
fails. The body of the code is read by a cursor of its own, which may fail only when the main cursor
has passed the whole body.
-/
namespace JarRank.ClassFile

open Layout (word)
open Reader

namespace Reader

variable {ε α β γ : Type}

/-- What is only put together at the end changes neither a fault nor the place. -/
theorem bind_pure_eq_error_iff {r : Reader Cursor ε α} {f : α → β} {c d : Cursor} {e : ε} :
    (r >>= fun a => pure (f a)) c = (.error e, d) ↔ r c = (.error e, d) := by
  rw [bind_apply]
  rcases r c with ⟨_ | a, c'⟩ <;> simp

theorem bind_pure_snd (r : Reader Cursor ε α) (f : α → β) (c : Cursor) :
    ((r >>= fun a => pure (f a)) c).2 = (r c).2 := by
  rw [bind_apply]
  rcases r c with ⟨_ | a, c'⟩ <;> rfl

/-- Whether it succeeds or fails, a reader passes over bytes. -/
theorem exists_passes {r : Reader Cursor ε α} {G : Bytes → α → Prop} {F : Bytes → Cursor → ε → Prop}
    (ha : r.Accepts G) (hf : r.Fails F) (c : Cursor) : ∃ bs, c.Passes bs (r c).2 := by
  rcases hr : r c with ⟨e | a, d⟩
  · rcases hf c d e hr with ⟨bs, hp, _⟩
    exact ⟨bs, hp⟩
  · rcases ha.sound hr with ⟨bs, _, hp⟩
    exact ⟨bs, hp⟩

/-- Behind a reader that fails only where bytes are missed, the second one fails. -/
theorem bind_eq_error_of_failsShort {r : Reader Cursor Fault α} {f : α → Reader Cursor Fault β}
    {G : Bytes → α → Prop} {c d : Cursor} {e : Fault} (hr : r.FailsShort) (ha : r.Accepts G)
    (h : (r >>= f) c = (.error e, d)) :
    d.Short e ∨ ∃ a bs c', G bs a ∧ c.Passes bs c' ∧ f a c' = (.error e, d) := by
  rcases bind_eq_error_iff.1 h with hfirst | ⟨a, c', hok, hsecond⟩
  · rcases hr c d e hfirst with ⟨_, _, hshort⟩
    exact .inl hshort
  · rcases ha.sound hok with ⟨bs, hG, hp⟩
    exact .inr ⟨a, bs, c', hG, hp, hsecond⟩

theorem ofExcept_bind_eq_error {x : Except ε α} {f : α → Reader Cursor ε β} {c d : Cursor} {e : ε}
    (h : (ofExcept x >>= f) c = (.error e, d)) :
    (x = .error e ∧ d = c) ∨ ∃ a, x = .ok a ∧ f a c = (.error e, d) := by
  cases x with
  | error e' =>
      cases h
      exact .inl ⟨rfl, rfl⟩
  | ok a => exact .inr ⟨a, rfl, h⟩

/-- A table fails where its count is missed, or at a row behind others. -/
theorem table_eq_error {item : Reader Cursor Fault α} {bytes : β → Bytes} {R : β → α → Prop}
    {c d : Cursor}
    {e : Fault} (hi : item.Accepts fun bs a => ∃ x, R x a ∧ bs = bytes x)
    (h : (u16 >>= fun n => times n item) c = (.error e, d)) :
    d.Short e ∨ ∃ (count : UInt16) (front : List β) (c' : Cursor), front.length < count.toNat ∧
      (∀ x ∈ front, ∃ a, R x a) ∧ c.Passes (word count ++ front.flatMap bytes) c' ∧
      item c' = (.error e, d) := by
  rcases bind_eq_error_of_failsShort u16_failsShort accepts_u16 h with
    hshort | ⟨_, _, c₁, ⟨count, rfl, rfl⟩, hp, hrows⟩
  · exact .inl hshort
  · rcases exists_of_times_eq_error hi hrows with ⟨front, c', hlen, hfront, hp', he⟩
    exact .inr ⟨count, front, c', hlen, hfront, hp.trans hp', he⟩

end Reader

namespace Section

variable {p : Pool} {code : String} {c d : Cursor} {e : Fault}

/-- A method of the table at a cursor is due, behind the count and those before it. -/
def MethodDueAt (c c' : Cursor) : Prop :=
  ∃ (count : UInt16) (front : List Member), front.length < count.toNat ∧ (∀ m ∈ front, m.Fits) ∧
    c.Passes (word count ++ front.flatMap Member.bytes) c'

/-- The flags, the name index and the descriptor index of a method stand between two cursors. -/
def MethodHeadedBy (c d : Cursor) (nameIndex descriptorIndex : UInt16) : Prop :=
  ∃ flags : UInt16, c.Passes (word flags ++ word nameIndex ++ word descriptorIndex) d

/-- The header of a class fails where bytes are missed, or behind its three words. -/
theorem header_eq_error (h : header p c = (.error e, d)) :
    d.Short e ∨ ∃ flags this super : UInt16,
      c.Passes (word flags ++ word this ++ word super) d ∧ p.ClassFault this.toNat e := by
  rcases bind_eq_error_of_failsShort u16_failsShort accepts_u16 h with
    hshort | ⟨_, _, c₁, ⟨flags, rfl, rfl⟩, hflags, h₁⟩
  · exact .inl hshort
  rcases bind_eq_error_of_failsShort u16_failsShort accepts_u16 h₁ with
    hshort | ⟨_, _, c₂, ⟨this, rfl, rfl⟩, hthis, h₂⟩
  · exact .inl hshort
  rcases bind_eq_error_of_failsShort u16_failsShort accepts_u16 h₂ with
    hshort | ⟨_, _, c₃, ⟨super, rfl, rfl⟩, hsuper, h₃⟩
  · exact .inl hshort
  rcases ofExcept_eq_error_iff.1 (bind_pure_eq_error_iff.1 h₃) with ⟨hclass, rfl⟩
  exact .inr ⟨flags, this, super, (hflags.trans hthis).trans hsuper,
    Pool.className_eq_error_iff.1 hclass⟩

/-- An attribute fails where bytes are missed, behind its header or behind its body. -/
theorem methodAttribute_eq_error (h : methodAttribute p code c = (.error e, d)) :
    d.Short e ∨
      (∃ (nameIndex : UInt16) (length : Nat), HeadedBy c d nameIndex length ∧
        p.TextFault nameIndex.toNat e) ∨
      ∃ a : Attribute, a.Fits ∧ c.Passes a.bytes d ∧ p.HasText a.nameIndex.toNat code ∧
        (codeLength (Cursor.ofBytes a.body (d.position - a.body.length))).1 = .error e := by
  rw [methodAttribute_eq] at h
  rcases bind_eq_error_of_failsShort u16_failsShort accepts_u16 h with
    hshort | ⟨_, _, c₁, ⟨nameIndex, rfl, rfl⟩, hname, h₁⟩
  · exact .inl hshort
  rcases bind_eq_error_of_failsShort u32_failsShort accepts_u32 h₁ with
    hshort | ⟨length, _, c₂, ⟨hlen, rfl⟩, hlength, h₂⟩
  · exact .inl hshort
  rcases ofExcept_bind_eq_error h₂ with ⟨htext, rfl⟩ | ⟨name, htext, hbody⟩
  · exact .inr (.inl ⟨nameIndex, length, ⟨hlen, hname.trans hlength⟩,
      Pool.text_eq_error_iff.1 htext⟩)
  rcases attributeBody_fails code length name c₂ d e hbody with ⟨body, hp, hshort | ⟨rfl, rfl, he⟩⟩
  · exact .inl hshort
  · exact .inr (.inr ⟨⟨nameIndex, body⟩, hlen, (hname.trans hlength).trans hp,
      Pool.text_eq_ok_iff.1 htext, he⟩)

theorem methodAttributes_eq_error (h : methodAttributes p code c = (.error e, d)) :
    d.Short e ∨ ∃ c', DueAt c c' ∧ methodAttribute p code c' = (.error e, d) := by
  have htable : (u16 >>= fun n => times n (methodAttribute p code)) c = (.error e, d) := by
    rw [methodAttributes, ← bind_assoc] at h
    exact bind_pure_eq_error_iff.1 h
  rcases table_eq_error (accepts_methodAttribute p code) htable with
    hshort | ⟨count, front, c', hlen, hfront, hp, he⟩
  · exact .inl hshort
  · have hfits : ∀ a ∈ front, a.Fits := fun a ha => (hfront a ha).elim fun _ h => h.1.1
    exact .inr ⟨c', ⟨count, front, hlen, hfits, hp⟩, he⟩

/-- A method fails where bytes are missed, behind its header or in its attributes. -/
theorem method_eq_error (h : method p code c = (.error e, d)) :
    d.Short e ∨ ∃ (nameIndex descriptorIndex : UInt16) (c' : Cursor),
      MethodHeadedBy c c' nameIndex descriptorIndex ∧
      ((d = c' ∧ (p.TextFault nameIndex.toNat e ∨ p.TextFault descriptorIndex.toNat e)) ∨
        methodAttributes p code c' = (.error e, d)) := by
  rcases bind_eq_error_of_failsShort (advance_failsShort 2) accepts_advance_word h with
    hshort | ⟨_, _, c₁, ⟨flags, rfl⟩, hflags, h₁⟩
  · exact .inl hshort
  rcases bind_eq_error_of_failsShort u16_failsShort accepts_u16 h₁ with
    hshort | ⟨_, _, c₂, ⟨nameIndex, rfl, rfl⟩, hname, h₂⟩
  · exact .inl hshort
  rcases bind_eq_error_of_failsShort u16_failsShort accepts_u16 h₂ with
    hshort | ⟨_, _, c₃, ⟨descriptorIndex, rfl, rfl⟩, hdescriptor, h₃⟩
  · exact .inl hshort
  refine .inr ⟨nameIndex, descriptorIndex, c₃, ⟨flags, (hflags.trans hname).trans hdescriptor⟩, ?_⟩
  rcases ofExcept_bind_eq_error h₃ with ⟨htext, hd⟩ | ⟨_, _, h₄⟩
  · exact .inl ⟨hd, .inl (Pool.text_eq_error_iff.1 htext)⟩
  rcases ofExcept_bind_eq_error h₄ with ⟨htext, hd⟩ | ⟨_, _, h₅⟩
  · exact .inl ⟨hd, .inr (Pool.text_eq_error_iff.1 htext)⟩
  · exact .inr (bind_pure_eq_error_iff.1 h₅)

theorem methods_eq_error (h : methods p code c = (.error e, d)) :
    d.Short e ∨ ∃ c', MethodDueAt c c' ∧ method p code c' = (.error e, d) := by
  rcases table_eq_error (accepts_method p code) h with
    hshort | ⟨count, front, c', hlen, hfront, hp, he⟩
  · exact .inl hshort
  · have hfits : ∀ m ∈ front, m.Fits := fun m hm => (hfront m hm).elim fun _ h => h.1.1
    exact .inr ⟨c', ⟨count, front, hlen, hfits, hp⟩, he⟩

end Section

/-! ### The readers of a session -/

/-- A reader that is called in a session, with what it is given. -/
inductive Reading where
  | operation (o : Operation)
  | pool
  | header (p : Pool)
  | interfaces
  | fields
  | attributes
  | methods (p : Pool) (code : String)

namespace Reading

/-- What a reader gives. -/
inductive Result where
  | value (v : Value)
  | pool (p : Pool)
  | header (h : Header)
  | count (n : Nat)
  | methods (ms : List Method)

def run {κ : Type} [Source κ] : Reading → Reader κ Fault Result
  | operation o => do return .value (← o.run)
  | pool => do return .pool (← Pool.read)
  | header p => do return .header (← Section.header p)
  | interfaces => do return .count (← Section.interfaces)
  | fields => do return .count (← Section.fields)
  | attributes => do return .count (← Section.attributes)
  | methods p code => do return .methods (← Section.methods p code)

theorem refines (r : Reading) : (run r).Refines (run r) := by
  cases r with
  | operation o => exact o.refines.bind fun v => .pure (Result.value v)
  | pool => exact Refines.pool.bind fun p => .pure (Result.pool p)
  | header p => exact (Refines.header p).bind fun h => .pure (Result.header h)
  | interfaces => exact Refines.interfaces.bind fun n => .pure (Result.count n)
  | fields => exact Refines.fields.bind fun n => .pure (Result.count n)
  | attributes => exact Refines.attributes.bind fun n => .pure (Result.count n)
  | methods p code => exact (Refines.methods p code).bind fun ms => .pure (Result.methods ms)

open Section

/-- Where a reader that fails leaves the cursor, from where it has begun. -/
inductive Leaves (c : Cursor) : Reading → Fault → Cursor → Prop
  /-- An operation that fails leaves the cursor where it was. -/
  | refused (o : Operation) : ¬ (0 ≤ o.width ∧ o.width ≤ c.remaining) →
      Leaves c (.operation o) (.truncated c.position o.width c.remaining) c
  /-- Bytes are missed where the cursor is left. -/
  | short (r : Reading) (d : Cursor) (needed : Nat) : d.remaining < needed →
      Leaves c r (.truncated d.position needed d.remaining) d
  /-- The cursor is left behind a tag that is not assigned. -/
  | tag (front : Bytes) (tag : UInt8) (index : Nat) (d : Cursor) : c.Passes (front ++ [tag]) d →
      Kind.ofTag? tag.toNat = none →
      Leaves c .pool (.unknownTag tag.toNat index (d.position - 1)) d
  /-- It is left behind the header of the class, whose index does not lead to a name. -/
  | header (p : Pool) (flags this super : UInt16) (e : Fault) (d : Cursor) :
      c.Passes (word flags ++ word this ++ word super) d → p.ClassFault this.toNat e →
      Leaves c (.header p) e d
  /-- It is left behind the header of a method, of which one index does not lead to a text. -/
  | methodHeader (p : Pool) (code : String) (c₁ d : Cursor) (nameIndex descriptorIndex : UInt16)
      (e : Fault) : MethodDueAt c c₁ → MethodHeadedBy c₁ d nameIndex descriptorIndex →
      p.TextFault nameIndex.toNat e ∨ p.TextFault descriptorIndex.toNat e →
      Leaves c (.methods p code) e d
  /-- It is left behind the header of an attribute, whose name is not a text. -/
  | attributeHeader (p : Pool) (code : String) (c₁ c₂ c₃ d : Cursor)
      (nameIndex descriptorIndex attributeIndex : UInt16) (length : Nat) (e : Fault) :
      MethodDueAt c c₁ → MethodHeadedBy c₁ c₂ nameIndex descriptorIndex → DueAt c₂ c₃ →
      HeadedBy c₃ d attributeIndex length → p.TextFault attributeIndex.toNat e →
      Leaves c (.methods p code) e d
  /-- It is left behind the body of the code, at the end of which bytes are missed. -/
  | code (p : Pool) (code : String) (c₁ c₂ c₃ d : Cursor) (nameIndex descriptorIndex : UInt16)
      (a : Attribute) (needed available : Nat) :
      MethodDueAt c c₁ → MethodHeadedBy c₁ c₂ nameIndex descriptorIndex → DueAt c₂ c₃ →
      a.Fits → c₃.Passes a.bytes d → p.HasText a.nameIndex.toNat code → a.body.length < 8 →
      available ≤ a.body.length → available < needed →
      Leaves c (.methods p code) (.truncated (d.position - available) needed available) d

variable {r : Reading} {c d : Cursor} {e : Fault}

theorem Leaves.of_short (h : d.Short e) : Leaves c r e d := by
  rcases h with ⟨needed, hneeded, rfl⟩
  exact .short r d needed hneeded

theorem leaves_pool (h : Pool.read c = (.error e, d)) : Leaves c .pool e d := by
  rcases Pool.read_fails c d e h with ⟨_, hp, hshort | ⟨declared, _, hfault, rfl⟩⟩
  · exact .of_short hshort
  · rcases hfault with ⟨front, tag, index, htag, _, _, rfl, rfl⟩
    rw [← List.append_assoc] at hp
    exact .tag (word declared ++ front) tag index d hp htag

theorem leaves_header {p : Pool} (h : Section.header p c = (.error e, d)) :
    Leaves c (.header p) e d := by
  rcases header_eq_error h with hshort | ⟨flags, this, super, hp, hfault⟩
  · exact .of_short hshort
  · exact .header p flags this super e d hp hfault

theorem leaves_methods {p : Pool} {code : String} (h : Section.methods p code c = (.error e, d)) :
    Leaves c (.methods p code) e d := by
  rcases methods_eq_error h with hshort | ⟨c₁, hdue, hmethod⟩
  · exact .of_short hshort
  rcases method_eq_error hmethod with hshort | ⟨n, k, c₂, hheaded, ⟨rfl, hfault⟩ | hattributes⟩
  · exact .of_short hshort
  · exact .methodHeader p code c₁ d n k e hdue hheaded hfault
  rcases methodAttributes_eq_error hattributes with hshort | ⟨c₃, hrow, hattribute⟩
  · exact .of_short hshort
  rcases methodAttribute_eq_error hattribute with
    hshort | ⟨w, length, hhead, hfault⟩ | ⟨a, hfits, hp, htext, hlength⟩
  · exact .of_short hshort
  · exact .attributeHeader p code c₁ c₂ c₃ d n k w length e hdue hheaded hrow hhead hfault
  · rcases codeLength_eq_error hlength with ⟨h8, i, needed, hi, hneeded, rfl⟩
    have havailable : a.body.length - i ≤ a.body.length := Nat.sub_le _ _
    -- The fault counts from the front of the body, and so from its end, where the cursor is.
    have hoffset : d.position - a.body.length + i = d.position - (a.body.length - i : Nat) := by
      omega
    have hcode : Leaves c (.methods p code)
        (.truncated (d.position - (a.body.length - i : Nat)) needed (a.body.length - i)) d :=
      .code p code c₁ c₂ c₃ d n k a needed _ hdue hheaded hrow hfits hp htext h8 havailable hneeded
    rwa [← hoffset] at hcode

theorem leaves_of_run (h : r.run c = (.error e, d)) : Leaves c r e d := by
  have hshort : ∀ {α : Type} {s : Reader Cursor Fault α}, s.FailsShort → s c = (.error e, d) →
      Leaves c r e d := by
    intro _ s hs he
    rcases hs c d e he with ⟨_, _, hfault⟩
    exact .of_short hfault
  cases r with
  | operation o =>
      have ho := bind_pure_eq_error_iff.1 h
      by_cases hfits : 0 ≤ o.width ∧ o.width ≤ c.remaining
      · rw [Operation.run_of_le hfits.1 hfits.2] at ho
        cases ho
      · rw [Operation.run_of_not_le hfits] at ho
        cases ho
        exact .refused o hfits
  | pool => exact leaves_pool (bind_pure_eq_error_iff.1 h)
  | header p => exact leaves_header (bind_pure_eq_error_iff.1 h)
  | interfaces => exact hshort interfaces_failsShort (bind_pure_eq_error_iff.1 h)
  | fields => exact hshort fields_failsShort (bind_pure_eq_error_iff.1 h)
  | attributes => exact hshort attributes_failsShort (bind_pure_eq_error_iff.1 h)
  | methods p code => exact leaves_methods (bind_pure_eq_error_iff.1 h)

theorem exists_passes (r : Reading) (c : Cursor) : ∃ bs, c.Passes bs (r.run c).2 := by
  have hmoves : ∀ {α : Type} {s : Reader Cursor Fault α} (f : α → Result), (∃ bs, c.Passes bs (s c).2) →
      ∃ bs, c.Passes bs ((s >>= fun a => pure (f a)) c).2 := by
    intro _ s f hs
    rwa [bind_pure_snd]
  cases r with
  | operation o => exact hmoves .value (o.exists_passes c)
  | pool => exact hmoves .pool (Reader.exists_passes Pool.accepts_read Pool.read_fails c)
  | header p => exact hmoves .header (Reader.exists_passes (accepts_header p) (header_fails p) c)
  | interfaces =>
      exact hmoves .count (Reader.exists_passes accepts_interfaces interfaces_failsShort c)
  | fields => exact hmoves .count (Reader.exists_passes accepts_fields fields_failsShort c)
  | attributes =>
      exact hmoves .count (Reader.exists_passes accepts_attributes attributes_failsShort c)
  | methods p code =>
      exact hmoves .methods (Reader.exists_passes (accepts_methods p code) (methods_fails p code) c)

/-- How a session with one cursor goes, whatever its readers are given and where it begins. -/
structure Tracked (rs : List Reading) (c : Cursor) : Prop where
  /-- Each reader is called once, in turn. -/
  items : (calls run rs c).map Call.item = rs
  /-- A call meets exactly what the calls before it have not passed. -/
  meets : ∀ front k back, calls run rs c = front ++ k :: back →
    c.Passes (front.flatMap Call.passed) k.start ∧ k.item.run k.start = (k.outcome, k.stop)
  /-- It passes over bytes, neither backwards nor past the end. -/
  moves : ∀ k ∈ calls run rs c, k.start.Passes k.passed k.stop ∧
    k.start.position ≤ k.stop.position ∧ k.stop.position ≤ c.position + c.remaining
  conserves : ∀ k ∈ calls run rs c,
    k.start.position + k.start.remaining = c.position + c.remaining ∧
      k.stop.position + k.stop.remaining = c.position + c.remaining
  leaves : ∀ k ∈ calls run rs c, ∀ e, k.outcome = .error e → Leaves k.start k.item e k.stop
  /-- On a cursor on a buffer, with an index and the offset of the first byte, the session is the one of
  what it stands for, and neither the buffer nor that offset changes. -/
  buffered : ∀ b : ByteCursor, b.view = c → (calls run rs b).map Call.view = calls run rs c ∧
    ∀ k ∈ calls run rs b, b.Beside k.start ∧ b.Beside k.stop

theorem conserves_of_mem {rs : List Reading} {k : Call Cursor Reading Result} (h : k ∈ calls run rs c) :
    k.start.position + k.start.remaining = c.position + c.remaining ∧
      k.stop.position + k.stop.remaining = c.position + c.remaining := by
  obtain ⟨front, back, hsplit⟩ := List.append_of_mem h
  have hstart := (passes_front exists_passes hsplit).position_add_remaining
  have hstop := (passes_of_mem_calls exists_passes h).position_add_remaining
  exact ⟨hstart, hstop.trans hstart⟩

theorem tracked (rs : List Reading) (c : Cursor) : Tracked rs c where
  items := map_item_calls rs c
  meets front k back h := by
    have hk : k ∈ calls run rs c := by simp [h]
    exact ⟨passes_front exists_passes h, run_of_mem_calls hk⟩
  moves k hk := by
    have hpasses := passes_of_mem_calls exists_passes hk
    have hstop := (conserves_of_mem hk).2
    exact ⟨hpasses, hpasses.position_le, by omega⟩
  conserves _ hk := conserves_of_mem hk
  leaves k hk e he := by
    have hrun := run_of_mem_calls hk
    rw [he] at hrun
    exact leaves_of_run hrun
  buffered b hb := hb ▸ calls_view refines rs b

/-- The name of the class is not found, and behind the header the interfaces are read. -/
example : calls run [.header Pool.empty, .interfaces] (⟨10, [0, 1, 0, 5, 0, 0, 0, 0]⟩ : Cursor) =
    [⟨.header Pool.empty, ⟨10, [0, 1, 0, 5, 0, 0, 0, 0]⟩,
      .error (.badReference 5 .classRef .outOfRange), ⟨16, [0, 0]⟩⟩,
      ⟨.interfaces, ⟨16, [0, 0]⟩, .ok (.count 0), ⟨18, []⟩⟩] := rfl

end Reading
end JarRank.ClassFile
