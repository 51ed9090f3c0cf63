import JarRank.Proofs.ClassFile.Answers
import JarRank.Proofs.ClassFile.RoundTrip
import JarRank.Proofs.ClassFile.Influence

/-!
# Files that are cut off

A stepwise reader does nothing but take bytes, one number of them after another, and
compute with them. Of such a reader it is enough to know one reading that succeeds. It
succeeds in the same way whatever stands behind the bytes it has taken; and if only the
first of these are there, it fails in the first step that has too few of them, which asks
for no more than the reading would have taken.

All of the decoder is stepwise, also where the body of a code attribute is taken whole
before it is looked into. So a class file that is cut off is reported as cut off, in the
section that the cut is in. No cut makes a reference or a tag look bad.
-/
namespace JarRank.ClassFile

open Layout (word table)
open Reader

namespace Reader

/-- A reader that takes bytes, one number of them after another, and computes. -/
inductive Stepwise : {α : Type} → Reader Cursor Fault α → Prop
  | pure {α : Type} (a : α) : Stepwise (Pure.pure a : Reader Cursor Fault α)
  | ofExcept {α : Type} (x : Except Fault α) : Stepwise (Reader.ofExcept x)
  | position : Stepwise Reader.position
  | take (n : Nat) : Stepwise (Reader.take n)
  | bind {α β : Type} {r : Reader Cursor Fault α} {f : α → Reader Cursor Fault β} :
      Stepwise r → (∀ a, Stepwise (f a)) → Stepwise (r >>= f)

/-- Of `whole` bytes from an offset on only the first `cut` are there. The fault names an offset up
to the cut, what is left behind it, and more than that, but nothing behind the whole. -/
def Lacking (start : Int) (cut whole : Nat) (e : Fault) : Prop :=
  ∃ offset needed : Nat, offset ≤ cut ∧ cut - offset < needed ∧ offset + needed ≤ whole ∧
    e = .truncated (start + offset) needed (cut - offset : Nat)

namespace Lacking

variable {start : Int} {cut whole : Nat} {e : Fault}

theorem mono {whole' : Nat} (h : Lacking start cut whole e) (hw : whole ≤ whole') :
    Lacking start cut whole' e := by
  rcases h with ⟨offset, needed, hoffset, hneeded, hwhole, he⟩
  exact ⟨offset, needed, hoffset, hneeded, by omega, he⟩

/-- Bytes in front of the offset may be counted in. -/
theorem shift {n : Nat} (h : Lacking (start + n) cut whole e) :
    Lacking start (n + cut) (n + whole) e := by
  rcases h with ⟨offset, needed, hoffset, hneeded, hwhole, he⟩
  have hleft : n + cut - (n + offset) = cut - offset := by omega
  have hstart : start + n + offset = start + (n + offset : Nat) := by
    push_cast
    omega
  rw [hstart, ← hleft] at he
  exact ⟨n + offset, needed, by omega, by omega, by omega, he⟩

end Lacking

namespace Stepwise

variable {α : Type} {r : Reader Cursor Fault α} {c d : Cursor} {a : α}

/-- One reading that succeeds tells which bytes are taken, whatever stands behind them. -/
theorem answers (h : Stepwise r) (hr : r c = (.ok a, d)) :
    ∃ bs, c.Passes bs d ∧ r.Answers c.position bs (.ok a) := by
  induction h generalizing c d with
  | pure b =>
      cases hr
      exact ⟨[], .refl c, .pure b⟩
  | position =>
      cases hr
      exact ⟨[], .refl c, fun rest => ⟨rfl, fun _ _ => by simp [Reader.position]⟩⟩
  | ofExcept x =>
      rcases ofExcept_eq_ok_iff.1 hr with ⟨hx, hd⟩
      subst hd hx
      exact ⟨[], .refl d, .ofExcept (.ok a)⟩
  | take n =>
      rcases (accepts_take n).sound hr with ⟨bs, hbs, hp⟩
      exact ⟨bs, hp, .of_accepts (accepts_take n) hbs⟩
  | bind _ _ ih ihf =>
      rcases bind_eq_ok_iff.1 hr with ⟨b, c', hfirst, hrest⟩
      rcases ih hfirst with ⟨xs, hxs, hx⟩
      rcases ihf b hrest with ⟨ys, hys, hy⟩
      rw [hxs.2] at hy
      exact ⟨xs ++ ys, hxs.trans hys, hx.bind_ok hy⟩

theorem take_cut {n : Nat} {p : Int} {bs : Bytes} (hn : bs.length = n) {cut : Nat}
    (hcut : cut < bs.length) :
    Reader.take n (⟨p, bs.take cut⟩ : Cursor) = (.error (.truncated p n cut), ⟨p, bs.take cut⟩) := by
  have hlen : Cursor.remaining ⟨p, bs.take cut⟩ = cut := by
    rw [Cursor.remaining, List.length_take]
    omega
  have hshort : ¬ n ≤ cut := by omega
  rw [take_eq, hlen, if_neg hshort]

/-- A reader that does not move takes nothing. -/
theorem eq_nil_of_still {p : Int} {bs : Bytes} (hr : r.Answers p bs (.ok a))
    (hstill : ∀ c, (r c).2 = c) : bs = [] := by
  have hend := hstill ⟨p, bs ++ []⟩
  rw [hr.eq_ok []] at hend
  simpa using (congrArg Cursor.rest hend).symm

/-- A reading that would succeed fails for want of bytes where only the first of these are there. -/
theorem cut_off (h : Stepwise r) {p : Int} {bs : Bytes} (hr : r.Answers p bs (.ok a)) {cut : Nat}
    (hcut : cut < bs.length) :
    ∃ e, (r ⟨p, bs.take cut⟩).1 = .error e ∧ Lacking p cut bs.length e := by
  induction h generalizing p bs cut with
  | pure b =>
      rw [eq_nil_of_still hr fun _ => rfl] at hcut
      exact (Nat.not_lt_zero cut hcut).elim
  | position =>
      rw [eq_nil_of_still hr fun _ => rfl] at hcut
      exact (Nat.not_lt_zero cut hcut).elim
  | ofExcept x =>
      have hstill : ∀ c : Cursor, (Reader.ofExcept x c).2 = c := by
        intro c
        cases x <;> rfl
      rw [eq_nil_of_still hr hstill] at hcut
      exact (Nat.not_lt_zero cut hcut).elim
  | take n =>
      rcases (accepts_take n).sound (hr.eq_ok []) with ⟨_, ⟨hlen, _⟩, _, hpos⟩
      have hn : bs.length = n := by
        dsimp only at hpos
        omega
      rw [take_cut hn hcut]
      exact ⟨_, rfl, 0, n, by omega, by omega, by omega, by simp⟩
  | @bind _ _ r f hfirst hthen ih ihf =>
      rcases bind_eq_ok_iff.1 (hr.eq_ok []) with ⟨b, c', hb, hrest⟩
      rcases hfirst.answers hb with ⟨xs, hxs, hx⟩
      rcases (hthen b).answers hrest with ⟨ys, hys, hy⟩
      rw [hxs.2] at hy
      have hbs : bs = xs ++ ys := by simpa using (hxs.trans hys).1
      subst hbs
      rw [List.length_append] at hcut ⊢
      by_cases hc : cut < xs.length
      · rcases ih hx hc with ⟨e, he, hl⟩
        have hstop : r ⟨p, xs.take cut⟩ = (.error e, (r ⟨p, xs.take cut⟩).2) := Prod.ext he rfl
        refine ⟨e, ?_, hl.mono (Nat.le_add_right ..)⟩
        rw [List.take_append_of_le_length (Nat.le_of_lt hc), bind_apply, hstop]
      · -- The first reader has all its bytes, and the cut is in what the second one takes.
        have hsplit : cut = xs.length + (cut - xs.length) := by omega
        have hlt : cut - xs.length < ys.length := by omega
        rcases ihf b hy hlt with ⟨e, he, hl⟩
        refine ⟨e, ?_, ?_⟩
        · rw [hsplit, List.take_length_add_append, bind_apply, hx.eq_ok]
          exact he
        · rw [hsplit]
          exact hl.shift

/-! ### The readers of a class file -/

theorem advance (n : Nat) : Stepwise (Reader.advance n) := by
  have h : (Reader.advance n : Reader Cursor Fault Unit) = Reader.take n >>= fun _ => Pure.pure () := by
    funext c
    rw [bind_apply, take_apply, Cursor.take, advance_apply]
    rcases c.advance n with ⟨_ | _, d⟩ <;> rfl
  rw [h]
  exact (take n).bind fun _ => .pure ()

theorem number (width : Nat) : Stepwise (Reader.number width) := by
  have h : (Reader.number width : Reader Cursor Fault Nat) =
      Reader.take width >>= fun bs => Pure.pure (Bytes.bigEndian bs) := by
    funext c
    rw [bind_apply, Reader.number]
    rcases Reader.take width c with ⟨_ | _, d⟩ <;> rfl
  rw [h]
  exact (take width).bind fun bs => .pure _

theorem u16 : Stepwise Reader.u16 := number 2

theorem u32 : Stepwise Reader.u32 := number 4

theorem times {item : Reader Cursor Fault α} (h : Stepwise item) (n : Nat) :
    Stepwise (Reader.times n item) := by
  induction n with
  | zero => exact .pure []
  | succ n ih =>
      rw [times_succ]
      exact h.bind fun a => ih.bind fun as => .pure (a :: as)

theorem payload (kind : Kind) : Stepwise (Pool.readPayload kind) := by
  cases kind with
  | utf8 => exact u16.bind fun length => (take length).bind fun raw => .pure _
  | classRef => exact u16.bind fun n => .pure _
  | nameAndType => exact u16.bind fun n => u16.bind fun d => .pure _
  | payload q => exact (advance q.width).bind fun _ => .pure _

theorem constant (index : Nat) : Stepwise (Pool.readConstant index) := by
  rw [Pool.readConstant_eq]
  refine position.bind fun offset => (number 1).bind fun tag => ?_
  cases Kind.ofTag? tag with
  | none => exact .ofExcept (.error _)
  | some kind => exact payload kind

theorem fill (left : Nat) (reserved : Bool) (slots : Array (Option Constant)) :
    Stepwise (Pool.fill left reserved slots) := by
  induction left generalizing reserved slots with
  | zero =>
      cases reserved with
      | false => exact .pure (Pool.mk slots)
      | true => exact .pure (Pool.mk (slots.push none))
  | succ left ih =>
      cases reserved with
      | false =>
          rw [Pool.fill_succ]
          exact (constant slots.size).bind fun k => ih k.kind.isWide (slots.push (some k))
      | true => exact ih false (slots.push none)

theorem pool : Stepwise Pool.read :=
  u16.bind fun declared => fill (declared - 1) false Pool.empty.slots

theorem magic : Stepwise Summary.readMagic := by
  refine u32.bind fun observed => ?_
  by_cases h : observed = ClassFile.magic
  · rw [if_pos h]
    exact .pure ()
  · rw [if_neg h]
    exact .ofExcept (.error _)

theorem version : Stepwise Summary.readVersion :=
  u16.bind fun minor => u16.bind fun major => .pure (minor, major)

theorem header (p : Pool) : Stepwise (Section.header p) :=
  u16.bind fun flags => u16.bind fun this => u16.bind fun super =>
    (ofExcept (p.className this)).bind fun name => .pure (Header.mk flags name super)

theorem interfaces : Stepwise Section.interfaces :=
  u16.bind fun count => (advance (2 * count)).bind fun _ => .pure count

theorem anyAttribute : Stepwise Section.anyAttribute :=
  (advance 2).bind fun _ => u32.bind fun length => advance length

theorem attributes : Stepwise Section.attributes :=
  u16.bind fun count => (anyAttribute.times count).bind fun _ => .pure count

theorem field : Stepwise Section.field :=
  (advance 6).bind fun _ => attributes.bind fun _ => .pure ()

theorem fields : Stepwise Section.fields :=
  u16.bind fun count => (field.times count).bind fun _ => .pure count

/-- The body is taken whole, so that only its length can be cut off. -/
theorem attributeBody (code : String) (n : Nat) (name : String) :
    Stepwise (Section.attributeBody code n name) := by
  unfold Section.attributeBody
  by_cases h : name = code
  · rw [if_pos h]
    exact position.bind fun offset => (take n).bind fun body =>
      (ofExcept (Section.codeLength (Cursor.ofBytes body offset)).1).bind fun size => .pure (some size)
  · rw [if_neg h]
    exact (advance n).bind fun _ => .pure none

theorem methodAttribute (p : Pool) (code : String) : Stepwise (Section.methodAttribute p code) := by
  rw [Section.methodAttribute_eq]
  exact u16.bind fun nameIndex => u32.bind fun length =>
    (ofExcept (p.text nameIndex)).bind (attributeBody code length)

theorem methodAttributes (p : Pool) (code : String) :
    Stepwise (Section.methodAttributes p code) :=
  u16.bind fun count => ((methodAttribute p code).times count).bind fun sizes =>
    .pure (Section.lastSize sizes)

theorem method (p : Pool) (code : String) : Stepwise (Section.method p code) :=
  (advance 2).bind fun _ => u16.bind fun nameIndex => u16.bind fun descriptorIndex =>
    (ofExcept (p.text nameIndex)).bind fun name =>
      (ofExcept (p.text descriptorIndex)).bind fun descriptor =>
        (methodAttributes p code).bind fun size => .pure (Method.mk name descriptor size)

theorem methods (p : Pool) (code : String) : Stepwise (Section.methods p code) :=
  u16.bind fun count => (method p code).times count

end Stepwise
end Reader

/-! ### Sections and stages -/

namespace Stage

/-- The place of a stage among all stages. -/
def rank : Stage → Nat
  | magic => 0
  | version => 1
  | pool => 2
  | header => 3
  | interfaces => 4
  | fields => 5
  | methods => 6
  | attributes => 7

end Stage

/-- The stage whose bytes a position falls into, where sections follow one another. -/
def stageAt : List (Stage × Bytes) → Nat → Option Stage
  | [], _ => none
  | (stage, bs) :: rest, i => if i < bs.length then some stage else stageAt rest (i - bs.length)

section stageAt

variable {ss : List (Stage × Bytes)}

theorem mem_of_stageAt {i : Nat} {stage : Stage} (h : stageAt ss i = some stage) :
    ∃ x ∈ ss, x.1 = stage := by
  induction ss generalizing i with
  | nil => cases h
  | cons x ss ih =>
      rw [stageAt] at h
      split at h
      · exact ⟨x, List.mem_cons_self, Option.some.inj h⟩
      · rcases ih h with ⟨y, hy, hstage⟩
        exact ⟨y, List.mem_cons_of_mem x hy, hstage⟩

/-- Where the sections stand in the order of their stages, later positions have no earlier stage. -/
theorem rank_le_of_stageAt (hs : ss.Pairwise fun x y => x.1.rank ≤ y.1.rank) {i j : Nat}
    (hij : i ≤ j) {s t : Stage} (hi : stageAt ss i = some s) (hj : stageAt ss j = some t) :
    s.rank ≤ t.rank := by
  induction ss generalizing i j with
  | nil => cases hi
  | cons x ss ih =>
      rcases List.pairwise_cons.1 hs with ⟨hfirst, hrest⟩
      rw [stageAt] at hi hj
      split at hi
      · cases hi
        split at hj
        · cases hj
          exact Nat.le_refl _
        · rcases mem_of_stageAt hj with ⟨y, hy, rfl⟩
          exact hfirst y hy
      · rw [if_neg (by omega)] at hj
        exact ih hrest (by omega) hi hj

end stageAt

/-- A reader of sections fails, wherever its bytes are cut off, for want of bytes and at the stage
of the section that the cut is in. -/
def CutsIn {α : Type} (r : Reader Cursor StagedFault α) (ss : List (Stage × Bytes)) : Prop :=
  ∀ (p : Int) (cut : Nat), cut < (ss.flatMap Prod.snd).length →
    ∃ stage e, (r ⟨p, (ss.flatMap Prod.snd).take cut⟩).1 = .error ⟨stage, e⟩ ∧
      stageAt ss cut = some stage ∧ Lacking p cut (ss.flatMap Prod.snd).length e

namespace CutsIn

variable {α β : Type}

theorem nil (r : Reader Cursor StagedFault α) : CutsIn r [] := by
  intro p cut hcut
  cases hcut

/-- The section of a stepwise reader, in front of others. -/
theorem cons {r : Reader Cursor Fault α} {f : α → Reader Cursor StagedFault β}
    {ss : List (Stage × Bytes)}
    {G : Bytes → α → Prop} {bs : Bytes} (stage : Stage) (hr : Stepwise r) (hG : r.Accepts G) (a : α)
    (hbs : G bs a) (hf : CutsIn (f a) ss) :
    CutsIn (r.mapFault (StagedFault.mk stage) >>= f) ((stage, bs) :: ss) := by
  intro p cut hcut
  have ht : r.Answers p bs (.ok a) := .of_accepts hG hbs
  rw [List.flatMap_cons, List.length_append] at hcut
  rw [List.flatMap_cons, List.length_append, stageAt, bind_apply, mapFault]
  by_cases hc : cut < bs.length
  · rcases hr.cut_off ht hc with ⟨e, he, hl⟩
    have hstop : r ⟨p, bs.take cut⟩ = (.error e, (r ⟨p, bs.take cut⟩).2) := Prod.ext he rfl
    refine ⟨stage, e, ?_, if_pos hc, hl.mono (Nat.le_add_right ..)⟩
    rw [List.take_append_of_le_length (Nat.le_of_lt hc), hstop]
  · have hsplit : cut = bs.length + (cut - bs.length) := by omega
    have hlt : cut - bs.length < (ss.flatMap Prod.snd).length := by
      dsimp only at hcut
      omega
    rcases hf (p + bs.length) (cut - bs.length) hlt with ⟨stage', e, he, hstage, hl⟩
    refine ⟨stage', e, ?_, ?_, ?_⟩
    · rw [hsplit, List.take_length_add_append, ht.eq_ok]
      exact he
    · rw [if_neg hc]
      exact hstage
    · rw [hsplit]
      exact hl.shift

end CutsIn

namespace Layout

/-- The bytes of each stage, in the order of the file. -/
def sections (l : Layout) : List (Stage × Bytes) :=
  [(.magic, Bytes.ofNumber 4 ClassFile.magic),
    (.version, word l.minor ++ word l.major),
    (.pool, word l.declared ++ l.constants.flatMap Item.bytes),
    (.header, word l.accessFlags ++ word l.thisClass ++ word l.superClass),
    (.interfaces, table word l.interfaces),
    (.fields, table Member.bytes l.fields),
    (.methods, table Member.bytes l.methods),
    (.attributes, table Attribute.bytes l.attributes)]

theorem flatMap_sections (l : Layout) : l.sections.flatMap Prod.snd = l.bytes := by
  simp [sections, bytes]

theorem sections_ordered (l : Layout) :
    l.sections.Pairwise fun x y => x.1.rank ≤ y.1.rank := by
  simp [sections, Stage.rank]

/-- What is reported if only the first `cut` bytes of a layout are there: the stage of the byte
that is missing first, an offset up to the cut, more bytes than are left from there to the cut, and
none that the layout does not have. -/
inductive CutOff (l : Layout) (cut : Nat) : StagedFault → Prop
  | mk {stage : Stage} {offset needed : Nat} :
      stageAt l.sections cut = some stage → offset ≤ cut → cut - offset < needed →
      offset + needed ≤ l.bytes.length →
      CutOff l cut ⟨stage, .truncated offset needed (cut - offset)⟩

/-- Cuts further on are reported at the same stage or a later one. -/
theorem CutOff.rank_le {l : Layout} {cut cut' : Nat} {e e' : StagedFault} (h : l.CutOff cut e)
    (h' : l.CutOff cut' e') (hle : cut ≤ cut') : e.stage.rank ≤ e'.stage.rank := by
  cases h with
  | mk hs _ _ _ =>
      cases h' with
      | mk hs' _ _ _ => exact rank_le_of_stageAt l.sections_ordered hle hs hs'

end Layout

namespace Summary

theorem read_cutsIn {code : String} {l : Layout} {s : Summary} (hf : l.Fits) (hc : l.CodeFits code)
    (hd : l.Describes code s) : CutsIn (read code) l.sections := by
  refine .cons .magic .magic accepts_readMagic () rfl ?_
  refine .cons .version .version accepts_readVersion (l.minor.toNat, l.major.toNat)
    ⟨l.minor, l.major, rfl, rfl⟩ ?_
  refine .cons .pool .pool Pool.accepts_read l.pool
    ⟨l.declared, l.constants, hf.declared, hf.constants, rfl, rfl⟩ ?_
  refine .cons .header (.header l.pool) (Section.accepts_header l.pool)
    ⟨l.accessFlags.toNat, s.name, l.superClass.toNat⟩
    ⟨l.accessFlags, l.thisClass, l.superClass, hd.name, rfl, rfl⟩ ?_
  refine .cons .interfaces .interfaces Section.accepts_interfaces l.interfaces.length
    ⟨l.interfaces, hf.interfaces, rfl, rfl⟩ ?_
  refine .cons .fields .fields Section.accepts_fields l.fields.length
    ⟨l.fields, hf.fields, rfl, rfl⟩ ?_
  refine .cons .methods (.methods l.pool code) (Section.accepts_methods l.pool code) s.methods
    ⟨l.methods, ⟨hf.methods, hc, hd.methods⟩, rfl⟩ ?_
  exact .cons .attributes .attributes Section.accepts_attributes l.attributes.length
    ⟨l.attributes, hf.attributes, rfl, rfl⟩ (.nil _)

theorem exists_cutOff {code : String} {l : Layout} {s : Summary} (hf : l.Fits) (hc : l.CodeFits code)
    (hd : l.Describes code s) {cut : Nat} (hcut : cut < l.bytes.length) :
    ∃ e, decode (l.bytes.take cut) code = .error e ∧ l.CutOff cut e := by
  have h := read_cutsIn hf hc hd
  unfold CutsIn at h
  rw [l.flatMap_sections] at h
  rcases h 0 cut hcut with ⟨stage, e, he, hstage, offset, needed, hoffset, hneeded, hwhole, rfl⟩
  rw [Summary.decode_eq]
  refine ⟨_, he, ?_⟩
  rw [Int.zero_add]
  exact .mk hstage hoffset hneeded hwhole

/-- A file that is read is a well-formed layout up to where the reading stops. Every cut in front of
that point is reported as one, at the stage of the first byte that is missing; and the later a file
is cut off, the later the stage. -/
theorem decode_take {data : Bytes} {code : String} {s : Summary} {d : Cursor}
    (h : read code (Cursor.ofBytes data 0) = (.ok s, d)) :
    (∃ l : Layout, l.WellFormed code ∧ data = l.bytes ++ d.rest) ∧
      ∀ l : Layout, l.WellFormed code → data = l.bytes ++ d.rest →
        d.position = l.bytes.length ∧
        (∀ cut < l.bytes.length, ∃ e, decode (data.take cut) code = .error e ∧ l.CutOff cut e) ∧
        ∀ cut cut' e e', cut ≤ cut' → cut' < l.bytes.length →
          decode (data.take cut) code = .error e → decode (data.take cut') code = .error e' →
            e.stage.rank ≤ e'.stage.rank := by
  rcases (accepts_read code).sound h with ⟨_, ⟨l₀, ⟨hf, hc⟩, hd, rfl⟩, hrest, hpos⟩
  constructor
  · exact ⟨l₀, hd.wellFormed hf hc, hrest⟩
  intro l hl hdata
  have hsame : l₀.bytes = l.bytes := List.append_cancel_right (hrest.symm.trans hdata)
  have hcuts : ∀ cut < l.bytes.length,
      ∃ e, decode (data.take cut) code = .error e ∧ l.CutOff cut e := by
    intro cut hcut
    rcases hl.exists_describes with ⟨s', hs'⟩
    rw [hdata, List.take_append_of_le_length (Nat.le_of_lt hcut)]
    exact exists_cutOff hl.fits hl.codeFits hs' hcut
  refine ⟨?_, hcuts, ?_⟩
  · simpa [Cursor.ofBytes, hsame] using hpos
  · intro cut cut' e e' hle hlt he he'
    rcases hcuts cut (by omega) with ⟨f, hf, hoff⟩
    rcases hcuts cut' hlt with ⟨f', hf', hoff'⟩
    cases he.symm.trans hf
    cases he'.symm.trans hf'
    exact hoff.rank_le hoff' hle

/-- Four of the nine bytes of a code attribute's body are there. -/
theorem decode_take_sample :
    ∃ d, read "Code" (Cursor.ofBytes (Layout.sample.bytes ++ [0xCA, 0xFE]) 0) =
        (.ok ⟨"A", 52, 0, [⟨"m", "()V", 1⟩]⟩, d) ∧
      ∃ e, decode ((Layout.sample.bytes ++ [0xCA, 0xFE]).take 75) "Code" = .error e ∧
        Layout.sample.CutOff 75 e ∧ e.stage = .methods := by
  have hwell := Layout.sample_describes.wellFormed Layout.sample_fits Layout.sample_codeFits
  have hread := (accepts_read "Code").complete
    ⟨Layout.sample, ⟨Layout.sample_fits, Layout.sample_codeFits⟩, Layout.sample_describes, rfl⟩
    0 [0xCA, 0xFE]
  refine ⟨_, hread, ?_⟩
  rcases ((decode_take hread).2 Layout.sample hwell rfl).2.1 75 (by decide +kernel) with ⟨e, he, hoff⟩
  refine ⟨e, he, hoff, ?_⟩
  cases hoff with
  | mk hstage _ _ _ =>
      have hat : stageAt Layout.sample.sections 75 = some .methods := by decide +kernel
      exact Option.some.inj (hstage.symm.trans hat)

end Summary
end JarRank.ClassFile
