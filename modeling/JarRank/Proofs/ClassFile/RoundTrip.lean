import JarRank.Proofs.ClassFile.CursorView
import JarRank.Proofs.ClassFile.SectionGrammar

/-!
# Layouts and their summaries

A layout describes at most one summary, read off its parts. The bytes of a
well-formed layout are read as the summary that it describes, whatever follows
them. Conversely, whatever is read at all begins with the bytes of a well-formed
layout, up to where the reading stops, and the result is what that layout
describes. Nothing is passed twice or left out in between, because the bytes of a
layout are those of its sections and nothing else.
-/
namespace JarRank.ClassFile

open Layout (word table)
open Reader

namespace Layout

/-- A class with one method, whose last constant is wide and uses one slot more than declared. -/
def sample : Layout where
  minor := 0
  major := 52
  declared := 7
  constants := [.utf8 [0x41], .classRef 1, .utf8 [0x6D], .utf8 [0x28, 0x29, 0x56],
    .utf8 [0x43, 0x6F, 0x64, 0x65], .payload .long [0, 0, 0, 0, 0, 0, 0, 1]]
  accessFlags := 0x21
  thisClass := 2
  superClass := 0
  interfaces := [2]
  fields := []
  methods := [⟨1, 3, 4, [⟨5, [0, 1, 0, 1, 0, 0, 0, 1, 0xB1]⟩]⟩]
  attributes := []

theorem sample_pool : sample.pool = ⟨#[none, some (.utf8 "A"), some (.classRef 1), some (.utf8 "m"),
    some (.utf8 "()V"), some (.utf8 "Code"), some (.payload .long), none]⟩ := by
  simp [sample, pool, Item.slots, Item.kept, Item.kind, Kind.isWide, Payload.isWide,
    Utf8.decodeLossy, Utf8.lossyFrom, Utf8.lossyStep, Utf8.lossyStart, Utf8.start]

theorem sample_fits : sample.Fits where
  declared := (by decide : 7 ≤ 1 + 7 ∧ 1 + 7 < 7 + 2)
  constants := by
    intro i hi
    simp only [sample, List.mem_cons, List.not_mem_nil, or_false] at hi
    rcases hi with rfl | rfl | rfl | rfl | rfl | rfl <;> simp [Item.Fits, Payload.width]
  interfaces := by decide
  fields := by simp [sample]
  methods := by simp [sample, Member.Fits, Attribute.Fits]
  attributes := by simp [sample]

theorem sample_codeFits : sample.CodeFits "Code" := by simp [CodeFits, Member.CodeFits, sample]

theorem sample_describes : sample.Describes "Code" ⟨"A", 52, 0, [⟨"m", "()V", 1⟩]⟩ := by
  refine summary_eq_ok_iff.1 ?_
  unfold summary
  rw [sample_pool]
  rfl

end Layout

namespace Summary

theorem accepts_readMagic :
    readMagic.Accepts fun bs _ => bs = Bytes.ofNumber 4 magic := by
  have hr : ∀ n : Nat, Accepts (if n = magic then pure () else Reader.fail (.badMagic n) :
      Reader Cursor Fault Unit) fun bs _ => bs = [] ∧ n = magic := by
    intro n
    by_cases hn : n = magic
    · rw [if_pos hn]
      exact (Accepts.pure ()).congr fun bs _ => by simp [hn]
    · rw [if_neg hn]
      exact (Accepts.fail _).congr fun bs _ => by simp [hn]
  refine (accepts_u32.bind hr).congr fun bs _ => ?_
  constructor
  · intro h
    obtain ⟨_, _, _, ⟨_, rfl⟩, ⟨rfl, rfl⟩, rfl⟩ := h
    exact List.append_nil _
  · intro h
    subst h
    exact ⟨magic, _, [], ⟨by decide, rfl⟩, ⟨rfl, rfl⟩, (List.append_nil _).symm⟩

theorem accepts_readVersion :
    readVersion.Accepts fun bs v => ∃ minor major : UInt16,
      v = (minor.toNat, major.toNat) ∧ bs = word minor ++ word major := by
  refine (accepts_u16.bind fun minor => accepts_u16.bind fun major =>
    Accepts.pure (minor, major)).congr fun bs v => ?_
  constructor
  · intro h
    obtain ⟨_, _, _, ⟨minor, rfl, rfl⟩, h, rfl⟩ := h
    obtain ⟨_, _, _, ⟨major, rfl, rfl⟩, ⟨rfl, rfl⟩, rfl⟩ := h
    exact ⟨minor, major, rfl, by simp⟩
  · intro h
    obtain ⟨minor, major, rfl, rfl⟩ := h
    exact ⟨_, _, _, ⟨minor, rfl, rfl⟩, ⟨_, _, [], ⟨major, rfl, rfl⟩, ⟨rfl, rfl⟩, rfl⟩, by simp⟩

/-- A class file is accepted as a layout is written, with the summary that it describes. -/
theorem accepts_read (code : String) :
    (read code).Accepts fun bs s => ∃ l : Layout,
      (l.Fits ∧ l.CodeFits code) ∧ l.Describes code s ∧ bs = l.bytes := by
  refine ((accepts_readMagic.mapFault _).bind fun _ => (accepts_readVersion.mapFault _).bind fun v =>
    (Pool.accepts_read.mapFault _).bind fun p =>
      ((Section.accepts_header p).mapFault _).bind fun h =>
        (Section.accepts_interfaces.mapFault _).bind fun _ =>
          (Section.accepts_fields.mapFault _).bind fun _ =>
            ((Section.accepts_methods p code).mapFault _).bind fun methods =>
              (Section.accepts_attributes.mapFault _).bind fun _ =>
                Accepts.pure (Summary.mk h.className v.2 v.1 methods)).congr fun bs s => ?_
  constructor
  · intro h
    obtain ⟨_, _, _, rfl, h, rfl⟩ := h
    obtain ⟨_, _, _, ⟨minor, major, rfl, rfl⟩, h, rfl⟩ := h
    obtain ⟨_, _, _, ⟨declared, items, hd, hi, rfl, rfl⟩, h, rfl⟩ := h
    obtain ⟨_, _, _, ⟨flags, this, super, hn, _, rfl⟩, h, rfl⟩ := h
    obtain ⟨_, _, _, ⟨interfaces, hw, _, rfl⟩, h, rfl⟩ := h
    obtain ⟨_, _, _, ⟨fields, hf, _, rfl⟩, h, rfl⟩ := h
    obtain ⟨rs, _, _, ⟨methods, ⟨hm, hc, hr⟩, rfl⟩, h, rfl⟩ := h
    obtain ⟨_, _, _, ⟨attributes, ha, _, rfl⟩, ⟨rfl, rfl⟩, rfl⟩ := h
    exact ⟨⟨minor, major, declared, items, flags, this, super, interfaces, fields, methods, attributes⟩,
      ⟨⟨hd, hi, hw, hf, hm, ha⟩, hc⟩, ⟨hn, rfl, rfl, hr⟩, by simp [Layout.bytes]⟩
  · intro h
    obtain ⟨l, ⟨hf, hc⟩, hd, rfl⟩ := h
    refine ⟨(), _, _, rfl, ⟨_, _, _, ⟨l.minor, l.major, rfl, rfl⟩,
      ⟨_, _, _, ⟨l.declared, l.constants, hf.declared, hf.constants, rfl, rfl⟩,
        ⟨⟨l.accessFlags.toNat, s.name, l.superClass.toNat⟩, _, _,
          ⟨l.accessFlags, l.thisClass, l.superClass, hd.name, rfl, rfl⟩,
          ⟨_, _, _, ⟨l.interfaces, hf.interfaces, rfl, rfl⟩, ⟨_, _, _, ⟨l.fields, hf.fields, rfl, rfl⟩,
            ⟨s.methods, _, _, ⟨l.methods, ⟨hf.methods, hc, hd.methods⟩, rfl⟩,
              ⟨_, _, [], ⟨l.attributes, hf.attributes, rfl, rfl⟩, ⟨rfl, ?_⟩, rfl⟩,
              rfl⟩, rfl⟩, rfl⟩, rfl⟩, rfl⟩, rfl⟩, by simp [Layout.bytes]⟩
    rw [← hd.major, ← hd.minor]

theorem decode_of_describes {code : String} {l : Layout} {s : Summary} (hf : l.Fits)
    (hc : l.CodeFits code) (hd : l.Describes code s) (t : Bytes) :
    decode (l.bytes ++ t) code = .ok s := by
  have hr := (accepts_read code).complete ⟨l, ⟨hf, hc⟩, hd, rfl⟩ 0 t
  rw [decode_eq]
  exact congrArg Prod.fst hr

/-- The bytes of a well-formed layout are read as the summary that it describes, and there is
one, whatever follows them. -/
theorem decode_bytes_append {code : String} {l : Layout} (h : l.WellFormed code) :
    (∃ s, l.Describes code s) ∧
      ∀ s, l.Describes code s → ∀ t : Bytes, decode (l.bytes ++ t) code = .ok s := by
  refine ⟨h.exists_describes, ?_⟩
  intro s hs t
  exact decode_of_describes h.fits h.codeFits hs t

theorem decode_sample_append : Layout.sample.WellFormed "Code" ∧
    decode (Layout.sample.bytes ++ [0xCA, 0xFE]) "Code" =
      .ok ⟨"A", 52, 0, [⟨"m", "()V", 1⟩]⟩ := by
  have h := Layout.sample_describes.wellFormed Layout.sample_fits Layout.sample_codeFits
  exact ⟨h, (decode_bytes_append h).2 _ Layout.sample_describes [0xCA, 0xFE]⟩

/-- What is read is written as a well-formed layout up to where the reading stops. -/
theorem exists_layout_of_decode {code : String} {data : Bytes} {s : Summary}
    (h : decode data code = .ok s) :
    ∃ (l : Layout) (t : Bytes), data = l.bytes ++ t ∧
      (read code (Cursor.ofBytes data 0)).2 = ⟨l.bytes.length, t⟩ ∧
      l.WellFormed code ∧ l.Describes code s := by
  rw [decode_eq] at h
  obtain ⟨d, hd⟩ : ∃ d, read code (Cursor.ofBytes data 0) = (.ok s, d) := ⟨_, Prod.ext h rfl⟩
  obtain ⟨_, ⟨l, ⟨hf, hc⟩, hs, rfl⟩, hp⟩ := (accepts_read code).sound hd
  refine ⟨l, d.rest, hp.1, ?_, hs.wellFormed hf hc, hs⟩
  rw [hd]
  have hpos : d.position = l.bytes.length := by simpa [Cursor.ofBytes] using hp.2
  rw [← hpos]

theorem exists_layout_of_decode_sample :
    decode (Layout.sample.bytes ++ [0xCA, 0xFE]) "Code" = .ok ⟨"A", 52, 0, [⟨"m", "()V", 1⟩]⟩ ∧
      ∃ (l : Layout) (t : Bytes), Layout.sample.bytes ++ [0xCA, 0xFE] = l.bytes ++ t ∧
        l.Describes "Code" ⟨"A", 52, 0, [⟨"m", "()V", 1⟩]⟩ := by
  have h : decode (Layout.sample.bytes ++ [0xCA, 0xFE]) "Code" =
      .ok ⟨"A", 52, 0, [⟨"m", "()V", 1⟩]⟩ :=
    decode_of_describes Layout.sample_fits Layout.sample_codeFits Layout.sample_describes [0xCA, 0xFE]
  obtain ⟨l, t, hd, _, _, hs⟩ := exists_layout_of_decode h
  exact ⟨h, l, t, hd, hs⟩

end Summary
end JarRank.ClassFile
