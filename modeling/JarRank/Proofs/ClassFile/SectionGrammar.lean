import JarRank.Proofs.ClassFile.Description
import JarRank.Proofs.ClassFile.PoolGrammar

/-!
# The grammar of the sections behind the pool

Every section is accepted as it is written. Of what is stepped over, the grammar
says only that it is there: any header words, any attributes of any length. Of a
method it says also which name, descriptor and size stand for it, and these are
said of the slots and of the attribute bodies, without the reader.

The code of a method is the last attribute with the name of the code. Earlier
ones have to be long enough to declare a length as well.
-/
namespace JarRank.ClassFile

open Layout (word table)
open Reader

namespace Section

theorem exists_words (n : Nat) {bs : Bytes} (h : bs.length = 2 * n) :
    ∃ ws : List UInt16, ws.length = n ∧ bs = ws.flatMap word := by
  induction n generalizing bs with
  | zero =>
      obtain rfl := List.eq_nil_of_length_eq_zero h
      exact ⟨[], rfl, rfl⟩
  | succ n ih =>
      have ht : (bs.take 2).length = 2 := by
        rw [List.length_take]
        omega
      have hd : (bs.drop 2).length = 2 * n := by
        rw [List.length_drop]
        omega
      have hn : Bytes.bigEndian (bs.take 2) < 0x10000 := by
        have hlt := Bytes.bigEndian_lt (bs.take 2)
        rwa [ht] at hlt
      have hw : word (UInt16.ofNat (Bytes.bigEndian (bs.take 2))) = bs.take 2 := by
        have he := Bytes.ofNumber_bigEndian (bs.take 2)
        rw [ht] at he
        rw [word, UInt16.toNat_ofNat_of_lt' hn, he]
      obtain ⟨ws, rfl, hws⟩ := ih hd
      refine ⟨UInt16.ofNat (Bytes.bigEndian (bs.take 2)) :: ws, rfl, ?_⟩
      rw [List.flatMap_cons, hw, ← hws, List.take_append_drop]

@[simp] theorem length_words (ws : List UInt16) : (ws.flatMap word).length = 2 * ws.length := by
  induction ws with
  | nil => rfl
  | cons w ws ih =>
      rw [List.flatMap_cons, List.length_append, ih, Layout.length_word, List.length_cons]
      omega

theorem accepts_advance_words (n : Nat) :
    (advance (2 * n)).Accepts fun bs _ => ∃ ws : List UInt16, ws.length = n ∧ bs = ws.flatMap word := by
  refine (accepts_advance (2 * n)).congr fun bs _ => ?_
  constructor
  · intro h
    exact exists_words n (by omega)
  · intro h
    obtain ⟨ws, rfl, rfl⟩ := h
    rw [length_words]
    push_cast
    rfl

theorem accepts_advance_word : (advance 2).Accepts fun bs _ => ∃ w : UInt16, bs = word w := by
  refine (accepts_advance_words 1).congr fun bs _ => ?_
  constructor
  · intro h
    obtain ⟨ws, hl, rfl⟩ := h
    obtain ⟨w, rfl⟩ := List.length_eq_one_iff.1 hl
    exact ⟨w, by simp⟩
  · intro h
    obtain ⟨w, rfl⟩ := h
    exact ⟨[w], rfl, by simp⟩

theorem accepts_header (p : Pool) :
    (header p).Accepts fun bs h => ∃ flags this super : UInt16,
      p.HasClass this.toNat h.className ∧ h = ⟨flags.toNat, h.className, super.toNat⟩ ∧
        bs = word flags ++ word this ++ word super := by
  refine (accepts_u16.bind fun flags => accepts_u16.bind fun this => accepts_u16.bind fun super =>
    (Accepts.ofExcept (p.className this)).bind fun name =>
      Accepts.pure (Header.mk flags name super)).congr fun bs h => ?_
  constructor
  · intro h
    obtain ⟨_, _, _, ⟨flags, rfl, rfl⟩, h, rfl⟩ := h
    obtain ⟨_, _, _, ⟨this, rfl, rfl⟩, h, rfl⟩ := h
    obtain ⟨_, _, _, ⟨super, rfl, rfl⟩, h, rfl⟩ := h
    obtain ⟨name, _, _, ⟨rfl, hn⟩, ⟨rfl, rfl⟩, rfl⟩ := h
    exact ⟨flags, this, super, Pool.className_eq_ok_iff.1 hn, rfl, by simp⟩
  · intro h
    obtain ⟨flags, this, super, hn, hh, rfl⟩ := h
    exact ⟨_, _, _, ⟨flags, rfl, rfl⟩, ⟨_, _, _, ⟨this, rfl, rfl⟩, ⟨_, _, _, ⟨super, rfl, rfl⟩,
      ⟨_, _, _, ⟨rfl, Pool.className_eq_ok_iff.2 hn⟩, ⟨rfl, hh⟩, rfl⟩, rfl⟩, rfl⟩, by simp⟩

theorem accepts_interfaces :
    interfaces.Accepts fun bs n => ∃ ws : List UInt16,
      ws.length < 0x10000 ∧ n = ws.length ∧ bs = table word ws := by
  refine (accepts_u16.bind fun n => (accepts_advance_words n).bind fun _ =>
    Accepts.pure n).congr fun bs n => ?_
  constructor
  · intro h
    obtain ⟨_, _, _, ⟨w, rfl, rfl⟩, h, rfl⟩ := h
    obtain ⟨_, _, _, ⟨ws, hl, rfl⟩, ⟨rfl, rfl⟩, rfl⟩ := h
    exact ⟨ws, hl ▸ w.toNat_lt, hl.symm, by simp [table, word, hl]⟩
  · intro h
    obtain ⟨ws, hl, rfl, rfl⟩ := h
    have hw : (UInt16.ofNat ws.length).toNat = ws.length := UInt16.toNat_ofNat_of_lt' hl
    exact ⟨_, _, _, ⟨UInt16.ofNat ws.length, hw.symm, rfl⟩, ⟨(), _, _, ⟨ws, rfl, rfl⟩, ⟨rfl, rfl⟩, rfl⟩,
      by simp [table, word, hw]⟩

theorem accepts_anyAttribute :
    anyAttribute.Accepts fun bs _ => ∃ a : Attribute, a.Fits ∧ bs = a.bytes := by
  refine (accepts_advance_word.bind fun _ => accepts_u32.bind fun n =>
    accepts_advance n).congr fun bs _ => ?_
  constructor
  · intro h
    obtain ⟨_, _, _, ⟨w, rfl⟩, h, rfl⟩ := h
    obtain ⟨n, _, body, ⟨hn, rfl⟩, hl, rfl⟩ := h
    have hb : body.length = n := by exact_mod_cast hl
    subst hb
    exact ⟨⟨w, body⟩, hn, by simp [Attribute.bytes]⟩
  · intro h
    obtain ⟨⟨w, body⟩, hf, rfl⟩ := h
    exact ⟨(), _, _, ⟨w, rfl⟩, ⟨body.length, _, body, ⟨hf, rfl⟩, rfl, rfl⟩, by simp [Attribute.bytes]⟩

theorem exists_forall₂_unit {α : Type} {Q : α → Prop} {xs : List α} :
    (∃ us : List Unit, List.Forall₂ (fun x _ => Q x) xs us) ↔ ∀ x ∈ xs, Q x := by
  constructor
  · intro h
    obtain ⟨us, h⟩ := h
    induction h with
    | nil => simp
    | cons hx _ ih =>
        intro y hy
        rcases List.mem_cons.1 hy with rfl | hy
        · exact hx
        · exact ih y hy
  · intro h
    exact ⟨xs.map fun _ => (), List.forall₂_map_right_iff.2 (List.forall₂_same.2 h)⟩

/-- A table whose rows are stepped over is accepted if its rows can be written. -/
theorem accepts_skipped {α : Type} {item : Reader Cursor Fault Unit} {bytes : α → Bytes} {Q : α → Prop}
    (h : item.Accepts fun bs _ => ∃ x, Q x ∧ bs = bytes x) :
    (u16 >>= fun n => times n item >>= fun _ => pure n).Accepts fun bs n => ∃ xs,
      (xs.length < 0x10000 ∧ ∀ x ∈ xs, Q x) ∧ n = xs.length ∧ bs = table bytes xs := by
  refine (accepts_u16.bind fun n => (Accepts.times h n).bind fun _ => Accepts.pure n).congr
    fun bs n => ?_
  constructor
  · intro h
    obtain ⟨_, _, _, ⟨w, rfl, rfl⟩, h, rfl⟩ := h
    obtain ⟨us, _, _, ⟨xs, hl, hr, rfl⟩, ⟨rfl, rfl⟩, rfl⟩ := h
    exact ⟨xs, ⟨hl ▸ w.toNat_lt, exists_forall₂_unit.1 ⟨us, hr⟩⟩, hl.symm, by simp [table, word, hl]⟩
  · intro h
    obtain ⟨xs, ⟨hl, hf⟩, rfl, rfl⟩ := h
    obtain ⟨us, hr⟩ := exists_forall₂_unit.2 hf
    have hw : (UInt16.ofNat xs.length).toNat = xs.length := UInt16.toNat_ofNat_of_lt' hl
    exact ⟨_, _, _, ⟨UInt16.ofNat xs.length, hw.symm, rfl⟩,
      ⟨us, _, _, ⟨xs, rfl, hr, rfl⟩, ⟨rfl, rfl⟩, rfl⟩, by simp [table, word, hw]⟩

theorem accepts_attributes :
    attributes.Accepts fun bs n => ∃ xs : List Attribute,
      (xs.length < 0x10000 ∧ ∀ a ∈ xs, a.Fits) ∧ n = xs.length ∧ bs = table Attribute.bytes xs :=
  accepts_skipped accepts_anyAttribute

theorem accepts_field : field.Accepts fun bs _ => ∃ m : Member, m.Fits ∧ bs = m.bytes := by
  refine ((accepts_advance_words 3).bind fun _ => accepts_attributes.bind fun _ =>
    Accepts.pure ()).congr fun bs _ => ?_
  constructor
  · intro h
    obtain ⟨_, _, _, ⟨ws, hl, rfl⟩, h, rfl⟩ := h
    obtain ⟨_, _, _, ⟨xs, hf, rfl, rfl⟩, ⟨rfl, -⟩, rfl⟩ := h
    obtain ⟨flags, name, descriptor, rfl⟩ := List.length_eq_three.1 hl
    exact ⟨⟨flags, name, descriptor, xs⟩, hf, by simp [Member.bytes]⟩
  · intro h
    obtain ⟨⟨flags, name, descriptor, xs⟩, hf, rfl⟩ := h
    exact ⟨(), _, _, ⟨[flags, name, descriptor], rfl, rfl⟩,
      ⟨_, _, _, ⟨xs, hf, rfl, rfl⟩, ⟨rfl, rfl⟩, rfl⟩, by simp [Member.bytes]⟩

theorem accepts_fields :
    fields.Accepts fun bs n => ∃ ms : List Member,
      (ms.length < 0x10000 ∧ ∀ m ∈ ms, m.Fits) ∧ n = ms.length ∧ bs = table Member.bytes ms :=
  accepts_skipped accepts_field

theorem accepts_codeLength :
    codeLength.Accepts fun bs n => ∃ xs, xs.length = 4 ∧ n < 0x100000000 ∧
      bs = xs ++ Bytes.ofNumber 4 n := by
  refine ((accepts_advance 2).bind fun _ => (accepts_advance 2).bind fun _ => accepts_u32).congr
    fun bs n => ?_
  constructor
  · intro h
    obtain ⟨_, xs, _, hx, h, rfl⟩ := h
    obtain ⟨_, ys, _, hy, ⟨hn, rfl⟩, rfl⟩ := h
    exact ⟨xs ++ ys, by rw [List.length_append]; omega, hn, by simp⟩
  · intro h
    obtain ⟨xs, hx, hn, rfl⟩ := h
    have hd : (xs.drop 2).length = 2 := by
      rw [List.length_drop]
      omega
    have ht : (xs.take 2).length = 2 := by
      rw [List.length_take]
      omega
    refine ⟨(), xs.take 2, _, by omega, ⟨(), xs.drop 2, _, by omega, ⟨hn, rfl⟩, rfl⟩, ?_⟩
    rw [← List.append_assoc, List.take_append_drop]

/-- A body declares a length of bytecode if it has the bytes for it, and then that one. -/
theorem codeLength_eq_ok_iff {body : Bytes} {p : Int} {n : Nat} :
    (codeLength (Cursor.ofBytes body p)).1 = .ok n ↔
      8 ≤ body.length ∧ n = Bytes.bigEndian ((body.drop 4).take 4) := by
  constructor
  · intro h
    obtain ⟨d, hd⟩ : ∃ d, codeLength (Cursor.ofBytes body p) = (.ok n, d) := ⟨_, Prod.ext h rfl⟩
    obtain ⟨_, ⟨xs, hx, hn, rfl⟩, hp⟩ := accepts_codeLength.sound hd
    obtain rfl : body = (xs ++ Bytes.ofNumber 4 n) ++ d.rest := hp.1
    refine ⟨?_, ?_⟩
    · simp only [List.length_append, Bytes.length_ofNumber]
      omega
    · rw [List.append_assoc, List.drop_left' hx, List.take_left' (Bytes.length_ofNumber 4 n)]
      exact (Bytes.bigEndian_ofNumber_of_lt hn).symm
  · intro h
    obtain ⟨hl, rfl⟩ := h
    have ht : (body.take 4).length = 4 := by
      rw [List.length_take]
      omega
    have hm : ((body.drop 4).take 4).length = 4 := by
      rw [List.length_take, List.length_drop]
      omega
    have hn := Bytes.bigEndian_lt ((body.drop 4).take 4)
    have he := Bytes.ofNumber_bigEndian ((body.drop 4).take 4)
    rw [hm] at hn he
    have hb : body = (body.take 4 ++ Bytes.ofNumber 4 (Bytes.bigEndian ((body.drop 4).take 4))) ++
        (body.drop 4).drop 4 := by
      rw [he, List.append_assoc, List.take_append_drop, List.take_append_drop]
    have hr := accepts_codeLength.complete (a := Bytes.bigEndian ((body.drop 4).take 4))
      ⟨body.take 4, ht, hn, rfl⟩ p ((body.drop 4).drop 4)
    rw [← hb] at hr
    exact congrArg Prod.fst hr

/-- The size that the body of a code attribute declares, which has so many bytes. -/
def codeBody (n : Nat) : Reader Cursor Fault (Option Nat) := do
  let offset ← position
  let body ← take n
  let size ← Reader.ofExcept (codeLength (Cursor.ofBytes body offset)).1
  return some size

/-- The rest of an attribute of a method, behind its length, once its name is known. -/
def attributeBody (code : String) (n : Nat) (name : String) : Reader Cursor Fault (Option Nat) :=
  if name = code then codeBody n else advance n >>= fun _ => pure none

theorem methodAttribute_eq (p : Pool) (code : String) : methodAttribute p code =
    u16 >>= fun w => u32 >>= fun n => Reader.ofExcept (p.text w) >>= attributeBody code n := rfl

theorem accepts_codeBody (n : Nat) : (codeBody n).Accepts fun bs size =>
    bs.length = n ∧ 8 ≤ bs.length ∧ size = some (Bytes.bigEndian ((bs.drop 4).take 4)) := by
  refine Accepts.position_bind fun q => ((accepts_take n).bind fun body =>
    (Accepts.ofExcept (codeLength (Cursor.ofBytes body q)).1).bind fun size =>
      Accepts.pure (some size)).congr fun bs size => ?_
  constructor
  · intro h
    obtain ⟨body, _, _, ⟨hl, rfl⟩, h, rfl⟩ := h
    obtain ⟨size, _, _, ⟨rfl, hs⟩, ⟨rfl, rfl⟩, rfl⟩ := h
    obtain ⟨h8, rfl⟩ := codeLength_eq_ok_iff.1 hs
    simp only [List.append_nil]
    exact ⟨by exact_mod_cast hl, h8, trivial⟩
  · intro h
    obtain ⟨rfl, h8, rfl⟩ := h
    exact ⟨bs, bs, [], ⟨rfl, rfl⟩, ⟨_, [], [], ⟨rfl, codeLength_eq_ok_iff.2 ⟨h8, rfl⟩⟩,
      ⟨rfl, rfl⟩, rfl⟩, by simp⟩

theorem accepts_attributeBody (code : String) (n : Nat) (name : String) :
    (attributeBody code n name).Accepts fun bs size => bs.length = n ∧
      (name = code → 8 ≤ bs.length) ∧
        size = if name = code then some (Bytes.bigEndian ((bs.drop 4).take 4)) else none := by
  unfold attributeBody
  by_cases hc : name = code
  · rw [if_pos hc]
    refine (accepts_codeBody n).congr fun bs size => ?_
    simp [hc]
  · rw [if_neg hc]
    refine ((accepts_advance n).bind fun _ => Accepts.pure none).congr fun bs size => ?_
    rw [if_neg hc]
    constructor
    · intro h
      obtain ⟨_, body, _, hl, ⟨rfl, rfl⟩, rfl⟩ := h
      simp only [List.append_nil]
      exact ⟨by exact_mod_cast hl, fun he => (hc he).elim, trivial⟩
    · intro h
      obtain ⟨rfl, -, rfl⟩ := h
      exact ⟨(), bs, [], rfl, ⟨rfl, rfl⟩, by simp⟩

theorem accepts_methodAttribute (p : Pool) (code : String) :
    (methodAttribute p code).Accepts fun bs size => ∃ a : Attribute,
      ((a.Fits ∧ (p.text a.nameIndex.toNat = .ok code → 8 ≤ a.body.length)) ∧
        Member.attributeSize p code a = .ok size) ∧ bs = a.bytes := by
  rw [methodAttribute_eq]
  refine (accepts_u16.bind fun w => accepts_u32.bind fun n =>
    (Accepts.ofExcept (p.text w)).bind (accepts_attributeBody code n)).congr fun bs size => ?_
  constructor
  · intro h
    obtain ⟨_, _, _, ⟨w, rfl, rfl⟩, h, rfl⟩ := h
    obtain ⟨n, _, body, ⟨hn, rfl⟩, h, rfl⟩ := h
    obtain ⟨name, _, _, ⟨rfl, ht⟩, ⟨hl, h8, hsize⟩, rfl⟩ := h
    subst hl
    have hcode : p.text w.toNat = .ok code → 8 ≤ body.length := by
      intro hc
      rw [ht] at hc
      exact h8 (Except.ok.inj hc)
    exact ⟨⟨w, body⟩, ⟨⟨hn, hcode⟩, Member.attributeSize_eq_ok_iff.2
      ⟨name, Pool.text_eq_ok_iff.1 ht, hsize⟩⟩, by simp [Attribute.bytes]⟩
  · intro h
    obtain ⟨⟨w, body⟩, ⟨⟨hf, h8⟩, hs⟩, rfl⟩ := h
    obtain ⟨name, ht, hsize⟩ := Member.attributeSize_eq_ok_iff.1 hs
    have ht' := Pool.text_eq_ok_iff.2 ht
    exact ⟨_, _, _, ⟨w, rfl, rfl⟩, ⟨_, _, _, ⟨hf, rfl⟩, ⟨name, _, body, ⟨rfl, ht'⟩,
      ⟨rfl, fun hc => h8 (hc ▸ ht'), hsize⟩, rfl⟩, rfl⟩, by simp [Attribute.bytes]⟩

theorem accepts_methodAttributes (p : Pool) (code : String) :
    (methodAttributes p code).Accepts fun bs size => ∃ xs : List Attribute,
      ((xs.length < 0x10000 ∧ ∀ a ∈ xs, a.Fits) ∧
        (∀ a ∈ xs, p.text a.nameIndex.toNat = .ok code → 8 ≤ a.body.length) ∧
          ∃ sizes, xs.mapM (Member.attributeSize p code) = .ok sizes ∧ size = lastSize sizes) ∧
      bs = table Attribute.bytes xs := by
  -- The sizes are folded behind the table, not behind its rows.
  have ht := (Accepts.table (accepts_methodAttribute p code)).bind fun sizes =>
    Accepts.pure (lastSize sizes)
  rw [bind_assoc] at ht
  refine Accepts.congr (r := methodAttributes p code) ht fun bs size => ?_
  constructor
  · intro h
    obtain ⟨sizes, _, _, ⟨xs, hl, hr, rfl⟩, ⟨rfl, rfl⟩, rfl⟩ := h
    obtain ⟨hf, hs⟩ := (List.forall₂_and_left _ _).1 hr
    exact ⟨xs, ⟨⟨hl, fun a ha => (hf a ha).1⟩, fun a ha => (hf a ha).2, sizes,
      Except.mapM_eq_ok_iff.2 hs, rfl⟩, by simp⟩
  · intro h
    obtain ⟨xs, ⟨⟨hl, hf⟩, h8, sizes, hs, rfl⟩, rfl⟩ := h
    have hfits : ∀ a ∈ xs, a.Fits ∧ (p.text a.nameIndex.toNat = .ok code → 8 ≤ a.body.length) :=
      fun a ha => ⟨hf a ha, h8 a ha⟩
    exact ⟨sizes, _, [], ⟨xs, hl, (List.forall₂_and_left _ _).2 ⟨hfits, Except.mapM_eq_ok_iff.1 hs⟩,
      rfl⟩, ⟨rfl, rfl⟩, by simp⟩

theorem accepts_method (p : Pool) (code : String) :
    (method p code).Accepts fun bs r => ∃ m : Member,
      ((m.Fits ∧ m.CodeFits p code) ∧ m.Describes p code r) ∧ bs = m.bytes := by
  refine (accepts_advance_word.bind fun _ => accepts_u16.bind fun n => accepts_u16.bind fun d =>
    (Accepts.ofExcept (p.text n)).bind fun name => (Accepts.ofExcept (p.text d)).bind
      fun descriptor => (accepts_methodAttributes p code).bind fun size =>
        Accepts.pure (Method.mk name descriptor size)).congr fun bs r => ?_
  constructor
  · intro h
    obtain ⟨_, _, _, ⟨flags, rfl⟩, h, rfl⟩ := h
    obtain ⟨_, _, _, ⟨n, rfl, rfl⟩, h, rfl⟩ := h
    obtain ⟨_, _, _, ⟨d, rfl, rfl⟩, h, rfl⟩ := h
    obtain ⟨name, _, _, ⟨rfl, hn⟩, h, rfl⟩ := h
    obtain ⟨descriptor, _, _, ⟨rfl, hd⟩, h, rfl⟩ := h
    obtain ⟨_, _, _, ⟨xs, ⟨hf, h8, sizes, hs, rfl⟩, rfl⟩, ⟨rfl, rfl⟩, rfl⟩ := h
    have hm : Member.method p code ⟨flags, n, d, xs⟩ = .ok ⟨name, descriptor, lastSize sizes⟩ := by
      simp only [Member.method, hn, hd, hs]
      rfl
    exact ⟨⟨flags, n, d, xs⟩, ⟨⟨hf, h8⟩, Member.method_eq_ok_iff.1 hm⟩, by simp [Member.bytes]⟩
  · intro h
    obtain ⟨⟨flags, n, d, xs⟩, ⟨⟨hf, h8⟩, hm⟩, rfl⟩ := h
    have hmethod := Member.method_eq_ok_iff.2 hm
    unfold Member.method at hmethod
    obtain ⟨name, hn, hmethod⟩ := Except.bind_eq_ok_iff.1 hmethod
    obtain ⟨descriptor, hd, hmethod⟩ := Except.bind_eq_ok_iff.1 hmethod
    obtain ⟨sizes, hs, hmethod⟩ := Except.bind_eq_ok_iff.1 hmethod
    cases hmethod
    exact ⟨(), _, _, ⟨flags, rfl⟩, ⟨_, _, _, ⟨n, rfl, rfl⟩, ⟨_, _, _, ⟨d, rfl, rfl⟩,
      ⟨_, [], _, ⟨rfl, hn⟩, ⟨_, [], _, ⟨rfl, hd⟩, ⟨_, _, [], ⟨xs, ⟨hf, h8, sizes, hs, rfl⟩, rfl⟩,
        ⟨rfl, rfl⟩, rfl⟩, rfl⟩, rfl⟩, rfl⟩, rfl⟩, by simp [Member.bytes]⟩

theorem accepts_methods (p : Pool) (code : String) :
    (methods p code).Accepts fun bs rs => ∃ ms : List Member,
      ((ms.length < 0x10000 ∧ ∀ m ∈ ms, m.Fits) ∧ (∀ m ∈ ms, m.CodeFits p code) ∧
        List.Forall₂ (Member.Describes p code) ms rs) ∧ bs = table Member.bytes ms := by
  refine Accepts.congr (r := methods p code) (Accepts.table (accepts_method p code)) fun bs rs => ?_
  constructor
  · intro h
    obtain ⟨ms, hl, hr, rfl⟩ := h
    obtain ⟨hf, hd⟩ := (List.forall₂_and_left _ _).1 hr
    exact ⟨ms, ⟨⟨hl, fun m hm => (hf m hm).1⟩, fun m hm => (hf m hm).2, hd⟩, rfl⟩
  · intro h
    obtain ⟨ms, ⟨⟨hl, hf⟩, hc, hd⟩, rfl⟩ := h
    exact ⟨ms, hl, (List.forall₂_and_left _ _).2 ⟨fun m hm => ⟨hf m hm, hc m hm⟩, hd⟩, rfl⟩

end Section
end JarRank.ClassFile
