import JarRank.Proofs.ClassFile.Rejection
import JarRank.Proofs.ClassFile.RoundTrip

/-!
# Faults are true of the input

A fault carries the section in which the reading stopped and what its message
says. All of it is true of the bytes that were given: the first word is not the
magic number, the tag that is named stands at its offset and is not assigned, the
slot that is named is not what was expected, and of the bytes that were needed
only so many were left.

Offsets count from the start of the file in all of these. What is left is counted
up to the end of the file, with one exception: the body of a code attribute is
read by itself, and if it is shorter than what precedes the bytecode, what is left
of it is counted up to its own end.
-/
namespace JarRank.ClassFile

open Layout (word)
open Reader

/-- A pool stands where a file has its pool, behind the first eight bytes. -/
def Pool.StandsIn (p : Pool) (data : Bytes) : Prop :=
  ∃ head bs back, data = head ++ bs ++ back ∧ head.length = 8 ∧ Pool.Spelled bs p

/-- The fault and its section are true of a file. -/
inductive StagedFault.TrueOf (data : Bytes) (code : String) : StagedFault → Prop
  | badMagic : 4 ≤ data.length → Bytes.bigEndian (data.take 4) ≠ magic →
      TrueOf data code ⟨.magic, .badMagic (Bytes.bigEndian (data.take 4))⟩
  | unknownTag (tag : UInt8) (index offset : Nat) : data[offset]? = some tag →
      (∀ k : Kind, k.tag ≠ tag.toNat) → 1 ≤ index →
      index < Bytes.bigEndian ((data.drop 8).take 2) →
      TrueOf data code ⟨.pool, .unknownTag tag.toNat index offset⟩
  | badReference (stage : Stage) (p : Pool) (index : Int) (expected : Expected) (found : Finding) :
      stage = .header ∨ stage = .methods → p.StandsIn data → p.Lacks index expected found →
      TrueOf data code ⟨stage, .badReference index expected found⟩
  | truncated (stage : Stage) (offset needed available : Nat) : available < needed →
      offset + available = data.length →
      TrueOf data code ⟨stage, .truncated offset needed available⟩
  | cutCode (p : Pool) (front back : Bytes) (a : Attribute) (k needed : Nat) : p.StandsIn data →
      p.HasText a.nameIndex.toNat code → data = front ++ a.bytes ++ back → a.body.length < 8 →
      k ≤ a.body.length → a.body.length - k < needed →
      TrueOf data code
        ⟨.methods, .truncated (front.length + 6 + k : Nat) needed (a.body.length - k)⟩

namespace Section

theorem header_fails (p : Pool) : (header p).Fails fun _ d e =>
    d.Short e ∨ ∃ i : Int, p.ClassFault i e := by
  refine (Fails.bind u16_failsShort accepts_u16 fun flags => Fails.bind u16_failsShort accepts_u16
    fun this => Fails.bind u16_failsShort accepts_u16 fun super =>
      (Fails.ofExcept (p.className this)).bind_pure fun name => Header.mk flags name super).mono ?_
  intro bs d e h
  rcases h with h | ⟨_, _, _, _, h | ⟨this, _, _, _, h | ⟨_, _, _, _, ⟨_, h⟩, _⟩, _⟩, _⟩
  · exact .inl h
  · exact .inl h
  · exact .inl h
  · exact .inr ⟨this, Pool.className_eq_error_iff.1 h⟩

theorem interfaces_failsShort : FailsShort interfaces :=
  u16_failsShort.bind accepts_u16 fun n =>
    (advance_failsShort (2 * n)).bind_pure fun _ => n

theorem anyAttribute_failsShort : FailsShort anyAttribute :=
  (advance_failsShort 2).bind accepts_advance_word fun _ =>
    u32_failsShort.bind accepts_u32 fun n => advance_failsShort n

/-- Stepping over a table fails only where stepping over a row does. -/
theorem skipped_failsShort {α : Type} {item : Reader Cursor Fault Unit} {bytes : α → Bytes}
    {Q : α → Prop}
    (hi : item.FailsShort) (h : item.Accepts fun bs _ => ∃ x, Q x ∧ bs = bytes x) :
    FailsShort (u16 >>= fun n => times n item >>= fun _ => pure n) :=
  u16_failsShort.bind accepts_u16 fun n =>
    (FailsShort.times hi h n).bind_pure fun _ => n

theorem attributes_failsShort : FailsShort attributes :=
  skipped_failsShort anyAttribute_failsShort accepts_anyAttribute

theorem field_failsShort : FailsShort field :=
  (advance_failsShort 6).bind (accepts_advance_words 3) fun _ =>
    attributes_failsShort.bind_pure fun _ => ()

theorem fields_failsShort : FailsShort fields := skipped_failsShort field_failsShort accepts_field

theorem codeLength_failsShort : FailsShort codeLength :=
  (advance_failsShort 2).bind (accepts_advance 2) fun _ =>
    (advance_failsShort 2).bind (accepts_advance 2) fun _ => u32_failsShort

/-- A body that declares no length is short, and the fault counts up to its end. -/
theorem codeLength_eq_error {body : Bytes} {p : Int} {e : Fault}
    (h : (codeLength (Cursor.ofBytes body p)).1 = .error e) :
    body.length < 8 ∧ ∃ k needed : Nat, k ≤ body.length ∧ body.length - k < needed ∧
      e = .truncated (p + k) needed (body.length - k) := by
  have h8 : body.length < 8 := by
    -- A body of eight bytes does declare a length.
    by_contra hn
    have hok := codeLength_eq_ok_iff (p := p).2 ⟨Nat.not_lt.1 hn, rfl⟩
    rw [hok] at h
    cases h
  obtain ⟨d, hd⟩ : ∃ d, codeLength (Cursor.ofBytes body p) = (.error e, d) := ⟨_, Prod.ext h rfl⟩
  obtain ⟨bs, hp, needed, hneeded, rfl⟩ := codeLength_failsShort _ d e hd
  have hr : body.length = bs.length + d.remaining := hp.remaining
  have ha : body.length - bs.length = d.remaining := by omega
  have hpos : d.position = p + bs.length := hp.2
  refine ⟨h8, bs.length, needed, by omega, by omega, ?_⟩
  rw [ha, hpos]

/-- The last bytes that were passed are an attribute with the name of the code whose body is
short, and the fault counts up to its end. -/
def CutCode (p : Pool) (code : String) (bs : Bytes) (d : Cursor) (e : Fault) : Prop :=
  ∃ (front : Bytes) (a : Attribute) (k needed : Nat), p.HasText a.nameIndex.toNat code ∧
    bs = front ++ a.bytes ∧ a.body.length < 8 ∧ k ≤ a.body.length ∧ a.body.length - k < needed ∧
      e = .truncated (d.position - a.body.length + k) needed (a.body.length - k)

/-- What is true of a fault in the methods: too few bytes are left, or a text is missing, or
code is cut off. -/
inductive MethodsFault (p : Pool) (code : String) (bs : Bytes) (d : Cursor) (e : Fault) : Prop
  | short : d.Short e → MethodsFault p code bs d e
  | name (i : Int) : p.TextFault i e → MethodsFault p code bs d e
  | code : CutCode p code bs d e → MethodsFault p code bs d e

theorem MethodsFault.append {p : Pool} {code : String} {bs : Bytes} {d : Cursor} {e : Fault}
    (h : MethodsFault p code bs d e) (xs : Bytes) : MethodsFault p code (xs ++ bs) d e := by
  cases h with
  | short h => exact .short h
  | name i h => exact .name i h
  | code h =>
      obtain ⟨front, a, k, needed, ht, rfl, h8, hk, hn, he⟩ := h
      exact .code ⟨xs ++ front, a, k, needed, ht, (List.append_assoc ..).symm, h8, hk, hn, he⟩

/-- The body of a code attribute fails where it ends too early for the file or for the code. -/
theorem codeBody_fails (n : Nat) : (codeBody n).Fails fun bs d e => d.Short e ∨ bs.length = n ∧
    (codeLength (Cursor.ofBytes bs (d.position - bs.length))).1 = .error e := by
  have htake : ∀ p : Int, Reader.Fails (take n >>= fun body =>
      Reader.ofExcept (codeLength (Cursor.ofBytes body p)).1 >>= fun size =>
        (pure (some size) : Reader Cursor Fault (Option Nat))) fun bs d e =>
          d.Short e ∨ bs.length = n ∧ (codeLength (Cursor.ofBytes bs p)).1 = .error e := by
    intro p
    refine (Fails.bind (take_failsShort n) (accepts_take n) fun body =>
      (Fails.ofExcept (codeLength (Cursor.ofBytes body p)).1).bind_pure some).mono ?_
    intro bs d e h
    rcases h with h | ⟨_, body, _, ⟨hl, rfl⟩, ⟨rfl, he⟩, rfl⟩
    · exact .inl h
    · rw [List.append_nil]
      exact .inr ⟨by exact_mod_cast hl, he⟩
  exact Fails.position_bind htake

theorem attributeBody_fails (code : String) (n : Nat) (name : String) :
    (attributeBody code n name).Fails fun bs d e => d.Short e ∨ name = code ∧ bs.length = n ∧
      (codeLength (Cursor.ofBytes bs (d.position - bs.length))).1 = .error e := by
  unfold attributeBody
  by_cases hc : name = code
  · rw [if_pos hc]
    exact (codeBody_fails n).mono fun bs d e h => h.imp_right fun h => ⟨hc, h⟩
  · rw [if_neg hc]
    exact ((advance_failsShort n).bind_pure fun _ => none).mono fun bs d e h => .inl h

theorem methodAttribute_fails (p : Pool) (code : String) :
    (methodAttribute p code).Fails (MethodsFault p code) := by
  rw [methodAttribute_eq]
  refine (Fails.bind u16_failsShort accepts_u16 fun w => Fails.bind u32_failsShort accepts_u32
    fun n => Fails.bind (Fails.ofExcept _) (Accepts.ofExcept (p.text w))
      (attributeBody_fails code n)).mono ?_
  intro bs d e h
  rcases h with h | ⟨w, _, _, ⟨i, rfl, rfl⟩, h | ⟨n, _, body, ⟨_, rfl⟩, h, rfl⟩, rfl⟩
  · exact .short h
  · exact .short h
  · rcases h with h | ⟨name, _, _, ⟨rfl, ht⟩, h | ⟨rfl, rfl, he⟩, rfl⟩
    · exact .name i.toNat (Pool.text_eq_error_iff.1 h.2)
    · exact .short h
    · obtain ⟨h8, k, needed, hk, hneeded, rfl⟩ := codeLength_eq_error he
      refine .code ⟨[], ⟨i, body⟩, k, needed, Pool.text_eq_ok_iff.1 ht, ?_, h8, hk, hneeded, rfl⟩
      simp [Attribute.bytes]

theorem methodAttributes_fails (p : Pool) (code : String) :
    (methodAttributes p code).Fails (MethodsFault p code) := by
  refine (Fails.bind u16_failsShort accepts_u16 fun n =>
    (Fails.times (methodAttribute_fails p code) (accepts_methodAttribute p code) n).bind_pure
      lastSize).mono ?_
  intro bs d e h
  rcases h with h | ⟨_, xs, _, _, ⟨front, ys, h, rfl⟩, rfl⟩
  · exact .short h
  · exact (h.append front).append xs

theorem method_fails (p : Pool) (code : String) :
    (method p code).Fails (MethodsFault p code) := by
  have htext : ∀ i : Nat, Reader.Fails (Reader.ofExcept (p.text i) : Reader Cursor Fault String)
      (MethodsFault p code) := by
    intro i
    exact (Fails.ofExcept _).mono fun bs d e h => .name i (Pool.text_eq_error_iff.1 h.2)
  refine (Fails.bind (advance_failsShort 2) accepts_advance_word fun _ =>
    Fails.bind u16_failsShort accepts_u16 fun n => Fails.bind u16_failsShort accepts_u16 fun k =>
      Fails.bind (htext n) (Accepts.ofExcept _) fun name =>
        Fails.bind (htext k) (Accepts.ofExcept _) fun descriptor =>
          (methodAttributes_fails p code).bind_pure fun size =>
            Method.mk name descriptor size).mono ?_
  intro bs d e h
  rcases h with h | ⟨_, as, _, _, h, rfl⟩
  · exact .short h
  refine MethodsFault.append ?_ as
  rcases h with h | ⟨_, bs, _, _, h, rfl⟩
  · exact .short h
  refine MethodsFault.append ?_ bs
  rcases h with h | ⟨_, cs, _, _, h, rfl⟩
  · exact .short h
  refine MethodsFault.append ?_ cs
  rcases h with h | ⟨_, ds, _, _, h, rfl⟩
  · exact h
  refine MethodsFault.append ?_ ds
  rcases h with h | ⟨_, es, _, _, h, rfl⟩
  · exact h
  · exact h.append es

theorem methods_fails (p : Pool) (code : String) :
    (methods p code).Fails (MethodsFault p code) := by
  refine (Fails.bind u16_failsShort accepts_u16 fun n =>
    Fails.times (method_fails p code) (accepts_method p code) n).mono ?_
  intro bs d e h
  rcases h with h | ⟨_, xs, _, _, ⟨front, ys, h, rfl⟩, rfl⟩
  · exact .short h
  · exact (h.append front).append xs

end Section

namespace StagedFault.TrueOf

variable {bs : Bytes} {d : Cursor} {e : Fault} {code : String} {p : Pool}

theorem of_short (h : d.Short e) (hpos : d.position = bs.length) (stage : Stage) :
    TrueOf (bs ++ d.rest) code ⟨stage, e⟩ := by
  obtain ⟨needed, hn, rfl⟩ := h
  rw [hpos]
  refine .truncated stage bs.length needed d.remaining hn ?_
  rw [List.length_append, Cursor.remaining]

theorem of_tagFault {head ys : Bytes} {declared : UInt16} (hhead : head.length = 8)
    (h : Pool.TagFault 1 declared.toNat ys d e)
    (hpos : d.position = (head ++ (word declared ++ ys)).length) :
    TrueOf (head ++ (word declared ++ ys) ++ d.rest) code ⟨.pool, e⟩ := by
  obtain ⟨front, tag, index, ht, hlow, hhigh, rfl, rfl⟩ := h
  have hoffset : d.position - 1 = (head ++ (word declared ++ front)).length := by
    rw [hpos]
    simp only [List.length_append, List.length_singleton]
    omega
  have hdata : head ++ (word declared ++ (front ++ [tag])) ++ d.rest =
      head ++ (word declared ++ front) ++ tag :: d.rest := by simp
  rw [hoffset, hdata]
  refine .unknownTag tag index _ ?_ (Kind.ofTag?_eq_none_iff.1 ht) hlow ?_
  · rw [List.getElem?_append_right (Nat.le_refl _), Nat.sub_self]
    rfl
  · rw [List.append_assoc, List.drop_left' hhead, List.append_assoc,
      List.take_left' (Layout.length_word declared), Layout.bigEndian_word]
    exact hhigh

theorem of_classFault {data : Bytes} {i : Int} (hp : p.StandsIn data) (h : p.ClassFault i e) :
    TrueOf data code ⟨.header, e⟩ := by
  obtain ⟨found, hl, rfl⟩ | ⟨n, _, found, hl, rfl⟩ := h
  · exact .badReference .header p i .classRef found (.inl rfl) hp hl
  · exact .badReference .header p n .utf8 found (.inl rfl) hp hl

theorem of_methodsFault (hp : p.StandsIn (bs ++ d.rest)) (h : Section.MethodsFault p code bs d e)
    (hpos : d.position = bs.length) : TrueOf (bs ++ d.rest) code ⟨.methods, e⟩ := by
  cases h with
  | short h => exact of_short h hpos .methods
  | name i h =>
      obtain ⟨found, hl, rfl⟩ := h
      exact .badReference .methods p i .utf8 found (.inr rfl) hp hl
  | code h =>
      obtain ⟨front, a, k, needed, ht, rfl, h8, hk, hn, rfl⟩ := h
      have hoffset : d.position - a.body.length + k = (front.length + 6 + k : Nat) := by
        rw [hpos]
        simp only [Attribute.bytes, List.length_append, Layout.length_word, Bytes.length_ofNumber]
        omega
      have havailable : ((a.body.length - k : Nat) : Int) = a.body.length - k := by omega
      rw [hoffset]
      exact .cutCode p front d.rest a k needed hp ht rfl h8 hk hn

end StagedFault.TrueOf

namespace Summary

theorem readMagic_fails : readMagic.Fails fun bs d e => d.Short e ∨
    bs.length = 4 ∧ Bytes.bigEndian bs ≠ magic ∧ e = .badMagic (Bytes.bigEndian bs) := by
  have hr : ∀ n : Nat, Reader.Fails (if n = magic then pure () else Reader.fail (.badMagic n) :
      Reader Cursor Fault Unit) fun bs _ e => bs = [] ∧ n ≠ magic ∧ e = .badMagic n := by
    intro n
    by_cases hn : n = magic
    · rw [if_pos hn]
      exact Fails.pure ()
    · rw [if_neg hn]
      exact (Fails.fail _).mono fun bs d e h => ⟨h.1, hn, h.2⟩
  refine (Fails.bind (number_failsShort 4) (accepts_number 4) hr).mono ?_
  intro bs d e h
  rcases h with h | ⟨_, xs, _, ⟨hl, rfl⟩, ⟨rfl, hn, rfl⟩, rfl⟩
  · exact .inl h
  · rw [List.append_nil]
    exact .inr ⟨hl, hn, rfl⟩

theorem readVersion_failsShort : FailsShort readVersion :=
  u16_failsShort.bind accepts_u16 fun _ => u16_failsShort.bind_pure _

/-- A fault at the end of what was passed from the start is true of the whole file. -/
theorem read_fails (code : String) : (read code).Fails fun bs d e =>
    d.position = bs.length → e.TrueOf (bs ++ d.rest) code := by
  refine (Fails.bind (readMagic_fails.mapFault _) (accepts_readMagic.mapFault _) fun _ =>
    Fails.bind (readVersion_failsShort.mapFault _) (accepts_readVersion.mapFault _) fun v =>
      Fails.bind (Pool.read_fails.mapFault _) (Pool.accepts_read.mapFault _) fun p =>
        Fails.bind ((Section.header_fails p).mapFault _) ((Section.accepts_header p).mapFault _)
          fun h => Fails.bind (Section.interfaces_failsShort.mapFault _)
            (Section.accepts_interfaces.mapFault _) fun _ =>
              Fails.bind (Section.fields_failsShort.mapFault _) (Section.accepts_fields.mapFault _)
                fun _ => Fails.bind ((Section.methods_fails p code).mapFault _)
                  ((Section.accepts_methods p code).mapFault _) fun methods =>
                    (Section.attributes_failsShort.mapFault _).bind_pure fun _ =>
                      Summary.mk h.className v.2 v.1 methods).mono ?_
  intro bs d e h hpos
  rcases h with ⟨e, h, rfl⟩ | ⟨_, _, _, rfl, h, rfl⟩
  · rcases h with h | ⟨hl, hn, rfl⟩
    · exact .of_short h hpos .magic
    · have ht : (bs ++ d.rest).take 4 = bs := List.take_left' hl
      have hlen : 4 ≤ (bs ++ d.rest).length := by
        rw [List.length_append]
        omega
      have hb := @StagedFault.TrueOf.badMagic (bs ++ d.rest) code hlen (ht.symm ▸ hn)
      rwa [ht] at hb
  rcases h with ⟨e, h, rfl⟩ | ⟨_, _, _, ⟨minor, major, rfl, rfl⟩, h, rfl⟩
  · exact .of_short h hpos .version
  -- From here on only the length of what stands in front of the pool matters.
  have hhead : (Bytes.ofNumber 4 magic ++ (word minor ++ word major)).length = 8 := by simp
  rw [← List.append_assoc] at hpos ⊢
  generalize Bytes.ofNumber 4 magic ++ (word minor ++ word major) = head at hhead hpos ⊢
  rcases h with ⟨e, h, rfl⟩ | ⟨p, ps, rest, hp, h, rfl⟩
  · rcases h with h | ⟨declared, ys, h, rfl⟩
    · exact .of_short h hpos .pool
    · exact .of_tagFault hhead h hpos
  have hstands : p.StandsIn (head ++ (ps ++ rest) ++ d.rest) :=
    ⟨head, ps, rest ++ d.rest, by simp, hhead, hp⟩
  rcases h with ⟨e, h, rfl⟩ | ⟨_, hs, _, _, h, rfl⟩
  · rcases h with h | ⟨i, h⟩
    · exact .of_short h hpos .header
    · exact .of_classFault hstands h
  rcases h with ⟨e, h, rfl⟩ | ⟨_, is, _, _, h, rfl⟩
  · exact .of_short h hpos .interfaces
  rcases h with ⟨e, h, rfl⟩ | ⟨_, fs, _, _, h, rfl⟩
  · exact .of_short h hpos .fields
  rcases h with ⟨e, h, rfl⟩ | ⟨_, ms, _, _, ⟨e, h, rfl⟩, rfl⟩
  · exact .of_methodsFault hstands (((((h.append fs).append is).append hs).append ps).append head)
      hpos
  · exact .of_short h hpos .attributes

theorem read_error_trueOf {data : Bytes} {code : String} {e : StagedFault}
    (h : decode data code = .error e) : e.TrueOf data code := by
  rw [Summary.decode_eq] at h
  obtain ⟨d, hd⟩ : ∃ d, read code (Cursor.ofBytes data 0) = (.error e, d) := ⟨_, Prod.ext h rfl⟩
  obtain ⟨bs, hp, ht⟩ := read_fails code _ d e hd
  have hpos : d.position = bs.length := by simpa [Cursor.ofBytes] using hp.2
  obtain rfl : data = bs ++ d.rest := hp.1
  exact ht hpos

/-- Whatever the bytes are, a fault is one of the four, met in a section that is still to be
read, and true of the bytes. -/
theorem decode_error_trueOf {data : Bytes} {code : String} {e : StagedFault}
    (h : decode data code = .error e) :
    e.TrueOf data code ∧ e.stage.label ≠ "DONE" ∧
      e.fault.kind ∈ ["BAD_MAGIC", "TRUNCATED", "UNKNOWN_CONSTANT_TAG", "INVALID_REFERENCE"] := by
  refine ⟨read_error_trueOf h, ?_, ?_⟩
  · cases e.stage <;> decide
  · cases e.fault <;> simp [Fault.kind]

theorem decode_error_of_reserved_tag :
    decode [0xCA, 0xFE, 0xBA, 0xBE, 0, 0, 0, 52, 0, 2, 2] "Code" =
        .error ⟨.pool, .unknownTag 2 1 10⟩ ∧
      StagedFault.TrueOf [0xCA, 0xFE, 0xBA, 0xBE, 0, 0, 0, 52, 0, 2, 2] "Code"
        ⟨.pool, .unknownTag 2 1 10⟩ := by
  have h : decode [0xCA, 0xFE, 0xBA, 0xBE, 0, 0, 0, 52, 0, 2, 2] "Code" =
      .error ⟨.pool, .unknownTag 2 1 10⟩ := rfl
  exact ⟨h, (decode_error_trueOf h).1⟩

end Summary
end JarRank.ClassFile
