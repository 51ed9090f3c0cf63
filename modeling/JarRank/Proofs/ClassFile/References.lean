import JarRank.Proofs.ClassFile.Answers
import JarRank.Proofs.ClassFile.RoundTrip
import JarRank.Proofs.ClassFile.Influence

/-!
# The references that are resolved

A layout whose counts and lengths are right may hold any indices. Its bytes are read
section by section, and each section answers with what its words say: with a result and
the cursor behind it, or with the fault of the first reference in it that does not
resolve. So the bytes of such a layout are decoded to the summary that it gives, or to
the fault that it gives, and nothing else can go wrong.

Resolved are the class itself and, of each method in its turn, its name, its descriptor
and the names of its attributes. No other index is looked at: neither the superclass nor
an interface, nothing in a field, in an attribute of the class or in a name and type.
-/
namespace JarRank.ClassFile

open Layout (word table)
open Reader

namespace Section

variable {p : Pool} {code : String} {q : Int}

theorem header_answers (p : Pool) (flags this super : UInt16) :
    (header p).Answers q (word flags ++ word this ++ word super)
      (p.className this.toNat >>= fun name => .ok ⟨flags.toNat, name, super.toNat⟩) := by
  have hname (q : Int) := Answers.ofExcept (p := q) (p.className this.toNat)
  rw [List.append_assoc, ← List.append_nil (word super)]
  exact (Answers.u16 flags).bind_ok <| (Answers.u16 this).bind_ok <| (Answers.u16 super).bind_ok <|
    (hname _).bind_pure fun name => Header.mk flags.toNat name super.toNat

theorem methodAttribute_answers {a : Attribute} (hf : a.Fits)
    (hc : p.text a.nameIndex.toNat = .ok code → 8 ≤ a.body.length) :
    (methodAttribute p code).Answers q a.bytes (Member.attributeSize p code a) := by
  have hlength (q : Int) : u32.Answers q (Bytes.ofNumber 4 a.body.length) (.ok a.body.length) :=
    .of_accepts accepts_u32 ⟨hf, rfl⟩
  rw [methodAttribute_eq, Attribute.bytes, List.append_assoc]
  refine (Answers.u16 a.nameIndex).bind_ok <| (hlength _).bind_ok <| .ofExcept_bind fun name hname => ?_
  refine .of_accepts (accepts_attributeBody code a.body.length name) ⟨rfl, ?_, rfl⟩
  intro h
  exact hc (h ▸ hname)

theorem methodAttributes_answers {xs : List Attribute} (hlen : xs.length < 0x10000)
    (hf : ∀ a ∈ xs, a.Fits) (hc : ∀ a ∈ xs, p.text a.nameIndex.toNat = .ok code → 8 ≤ a.body.length) :
    (methodAttributes p code).Answers q (table Attribute.bytes xs)
      (xs.mapM (Member.attributeSize p code) >>= fun sizes => .ok (lastSize sizes)) := by
  have hrows : ∀ a ∈ xs, ∀ q,
      (methodAttribute p code).Answers q a.bytes (Member.attributeSize p code a) :=
    fun a ha _ => methodAttribute_answers (hf a ha) (hc a ha)
  have h := (Answers.table (p := q) hlen hrows).bind_pure lastSize
  rwa [bind_assoc] at h

theorem method_answers {m : Member} (hf : m.Fits) (hc : m.CodeFits p code) :
    (method p code).Answers q m.bytes (m.method p code) := by
  have hflags : (advance 2).Answers q (word m.accessFlags) (.ok ()) :=
    .of_accepts accepts_advance_word ⟨m.accessFlags, rfl⟩
  rw [Member.bytes, List.append_assoc, List.append_assoc]
  refine hflags.bind_ok <| (Answers.u16 m.nameIndex).bind_ok <|
    (Answers.u16 m.descriptorIndex).bind_ok ?_
  refine .ofExcept_bind fun name _ => .ofExcept_bind fun descriptor _ => ?_
  have h (q : Int) := (methodAttributes_answers (q := q) hf.1 hf.2 hc).bind_pure
    fun size => Method.mk name descriptor size
  simp only [bind_assoc] at h
  exact h _

theorem methods_answers {ms : List Member} (hlen : ms.length < 0x10000) (hf : ∀ m ∈ ms, m.Fits)
    (hc : ∀ m ∈ ms, m.CodeFits p code) :
    (methods p code).Answers q (table Member.bytes ms) (ms.mapM (Member.method p code)) :=
  .table hlen fun m hm _ => method_answers (hf m hm) (hc m hm)

end Section

namespace Summary

variable {code : String} {l : Layout}

/-- A section that is accepted, whatever its words, in front of others. -/
theorem section_answers {α β : Type} {r : Reader Cursor Fault α} {f : α → Reader Cursor StagedFault β}
    {G : Bytes → α → Prop} {p : Int} {bs rest : Bytes} {x : Except StagedFault β} (stage : Stage)
    (hG : r.Accepts G) (a : α) (hbs : G bs a) (hf : (f a).Answers (p + bs.length) rest x) :
    (r.mapFault (StagedFault.mk stage) >>= f).Answers p (bs ++ rest) x :=
  ((Answers.of_accepts hG hbs).mapFault (StagedFault.mk stage)).bind_ok hf

theorem read_answers (hf : l.Fits) (hc : l.CodeFits code) (p : Int) :
    (read code).Answers p l.bytes (l.summary code) := by
  have hbytes : l.bytes = Bytes.ofNumber 4 magic ++ ((word l.minor ++ word l.major) ++
      ((word l.declared ++ l.constants.flatMap Item.bytes) ++
        ((word l.accessFlags ++ word l.thisClass ++ word l.superClass) ++
          (table word l.interfaces ++ (table Member.bytes l.fields ++
            (table Member.bytes l.methods ++ (table Attribute.bytes l.attributes ++ []))))))) := by
    simp [Layout.bytes]
  have hsummary : l.summary code =
      ((l.pool.className l.thisClass.toNat >>= fun name =>
        .ok (Header.mk l.accessFlags.toNat name l.superClass.toNat)).mapError
          (StagedFault.mk .header) >>= fun h =>
        (l.methods.mapM (Member.method l.pool code)).mapError (StagedFault.mk .methods) >>= fun ms =>
          .ok ⟨h.className, l.major.toNat, l.minor.toNat, ms⟩) := by
    unfold Layout.summary
    cases l.pool.className l.thisClass.toNat <;> rfl
  rw [hbytes, hsummary]
  refine section_answers .magic accepts_readMagic () rfl ?_
  refine section_answers .version accepts_readVersion (l.minor.toNat, l.major.toNat)
    ⟨l.minor, l.major, rfl, rfl⟩ ?_
  refine section_answers .pool Pool.accepts_read l.pool
    ⟨l.declared, l.constants, hf.declared, hf.constants, rfl, rfl⟩ ?_
  refine ((Section.header_answers l.pool _ _ _).mapFault (StagedFault.mk .header)).bind fun h _ => ?_
  refine section_answers .interfaces Section.accepts_interfaces l.interfaces.length
    ⟨l.interfaces, hf.interfaces, rfl, rfl⟩ ?_
  refine section_answers .fields Section.accepts_fields l.fields.length
    ⟨l.fields, hf.fields, rfl, rfl⟩ ?_
  refine ((Section.methods_answers hf.methods.1 hf.methods.2 hc).mapFault
    (StagedFault.mk .methods)).bind fun ms _ => ?_
  exact section_answers .attributes Section.accepts_attributes l.attributes.length
    ⟨l.attributes, hf.attributes, rfl, rfl⟩ (.pure _)

/-- The bytes of a layout are decoded to what the layout says, whatever stands behind them. -/
theorem decode_eq_summary (hf : l.Fits) (hc : l.CodeFits code) (t : Bytes) :
    decode (l.bytes ++ t) code = l.summary code := by
  rw [decode_eq]
  exact (read_answers hf hc 0 t).1

end Summary

/-! ### The first reference that does not resolve -/

/-- A slot as a fault describes it. -/
def Pool.describe (p : Pool) (i : Int) : String :=
  if i ≤ 0 then "out-of-range index"
  else
    match p.slots[i.toNat]? with
    | none => "out-of-range index"
    | some none => "empty slot"
    | some (some k) => k.kind.label

theorem Pool.Lacks.label {p : Pool} {i : Int} {x : Expected} {found : Finding}
    (h : p.Lacks i x found) : found.label = p.describe i := by
  unfold Pool.describe
  cases h with
  | outOfRange hr =>
      by_cases hi : i ≤ 0
      · rw [if_pos hi]
        rfl
      · have hnone : p.slots[i.toNat]? = none := by
          rw [Array.getElem?_eq_none_iff]
          unfold Pool.size at hr
          omega
        rw [if_neg hi, hnone]
        rfl
  | emptySlot hi hs =>
      rw [if_neg (by omega), hs]
      rfl
  | holds k hk hx =>
      have hi : ¬ i ≤ 0 := by
        have hpos := hk.1
        omega
      rw [if_neg hi, hk.2]
      rfl

/-- The indices that are resolved for a method, in their order. -/
def Member.references (m : Member) : List UInt16 :=
  m.nameIndex :: m.descriptorIndex :: m.attributes.map Attribute.nameIndex

namespace Layout

/-- The indices that are resolved for the methods, in the order of the file. -/
def references (l : Layout) : List UInt16 := l.methods.flatMap Member.references

/-- The fault that a layout gives: that of the class or of its name, or if there is none, that of
the first index of a method that leads to no text. -/
inductive Misled (l : Layout) : StagedFault → Prop
  | thisClass {found : Finding} :
      l.pool.Lacks l.thisClass.toNat .classRef found →
      Misled l ⟨.header, .badReference l.thisClass.toNat .classRef found⟩
  | className {n : Nat} {found : Finding} :
      l.pool.Holds l.thisClass.toNat (.classRef n) → l.pool.Lacks n .utf8 found →
      Misled l ⟨.header, .badReference n .utf8 found⟩
  | text {front back : List UInt16} {i : UInt16} {found : Finding} :
      (∃ name, l.pool.HasClass l.thisClass.toNat name) → l.references = front ++ i :: back →
      (∀ j ∈ front, ∃ s, l.pool.HasText j.toNat s) → l.pool.Lacks i.toNat .utf8 found →
      Misled l ⟨.methods, .badReference i.toNat .utf8 found⟩

end Layout

namespace Member

variable {p : Pool} {code : String} {e : Fault}

theorem attributeSize_eq_error_iff {a : Attribute} :
    attributeSize p code a = .error e ↔ p.text a.nameIndex.toNat = .error e := by
  unfold attributeSize
  rw [Except.bind_eq_error_iff]
  simp [pure, Except.pure]

/-- A method fails where the first of its references does. -/
theorem method_eq_error_iff {m : Member} : m.method p code = .error e ↔
    m.references.mapM (fun i : UInt16 => p.text i.toNat) = .error e := by
  have hattributes : m.attributes.mapM (attributeSize p code) = .error e ↔
      (m.attributes.map Attribute.nameIndex).mapM (fun i : UInt16 => p.text i.toNat) = .error e := by
    rw [List.map_eq_flatMap]
    apply Except.mapM_flatMap_eq_error_iff
    intro a _ e
    rw [attributeSize_eq_error_iff]
    simp [pure, Except.pure, Except.bind_eq_error_iff]
  unfold method references
  rw [List.mapM_cons, List.mapM_cons]
  simp only [Except.bind_eq_error_iff, hattributes]
  simp [pure, Except.pure]

end Member

namespace Layout

variable {code : String} {l : Layout}

theorem summary_eq_error_iff {e : StagedFault} : l.summary code = .error e ↔ l.Misled e := by
  have hmethods : ∀ e₀, l.methods.mapM (Member.method l.pool code) = .error e₀ ↔
      l.references.mapM (fun i : UInt16 => l.pool.text i.toNat) = .error e₀ :=
    fun e₀ => Except.mapM_flatMap_eq_error_iff fun m _ e => Member.method_eq_error_iff
  unfold summary
  simp only [Except.bind_eq_error_iff, Except.mapError_eq_error_iff, Except.mapError_eq_ok_iff,
    hmethods, Except.mapM_eq_error_iff, Pool.className_eq_error_iff, Pool.className_eq_ok_iff,
    Pool.text_eq_ok_iff, Pool.text_eq_error_iff]
  constructor
  · intro h
    rcases h with ⟨e₀, hclass, rfl⟩ | ⟨name, hname, h⟩
    · rcases hclass with ⟨found, hl, rfl⟩ | ⟨n, hn, found, hl, rfl⟩
      · exact .thisClass hl
      · exact .className hn hl
    · rcases h with ⟨_, ⟨front, i, back, hrefs, hfront, found, hl, rfl⟩, rfl⟩ | ⟨_, _, h⟩
      · exact .text ⟨name, hname⟩ hrefs hfront hl
      · cases h
  · intro h
    cases h with
    | thisClass hl => exact .inl ⟨_, .inl ⟨_, hl, rfl⟩, rfl⟩
    | className hn hl => exact .inl ⟨_, .inr ⟨_, hn, _, hl, rfl⟩, rfl⟩
    | text hclass hrefs hfront hl =>
        rcases hclass with ⟨name, hname⟩
        exact .inr ⟨name, hname, .inl ⟨_, ⟨_, _, _, hrefs, hfront, _, hl, rfl⟩, rfl⟩⟩

/-- Two layouts that differ at most in what is never resolved: access flags, the superclass, the
interfaces, the fields, the attributes of the class, and of constants what is not kept or is the index
of a name and type. -/
structure Resembles (l l' : Layout) : Prop where
  minor : l.minor = l'.minor
  major : l.major = l'.major
  pool : l.pool.visible = l'.pool.visible
  thisClass : l.thisClass = l'.thisClass
  methods : List.Forall₂ (fun m m' : Member => m.nameIndex = m'.nameIndex ∧
    m.descriptorIndex = m'.descriptorIndex ∧ m.attributes = m'.attributes) l.methods l'.methods

namespace Resembles

variable {l' : Layout}

theorem text_eq (h : l.Resembles l') : l.pool.text = l'.pool.text :=
  funext fun i => Pool.text_congr h.pool i

theorem summary_eq (h : l.Resembles l') : l.summary code = l'.summary code := by
  have hmethods : l.methods.mapM (Member.method l.pool code) =
      l'.methods.mapM (Member.method l'.pool code) := by
    apply Except.mapM_congr
    apply h.methods.imp
    intro m m' hm
    rcases hm with ⟨hname, hdescriptor, hattributes⟩
    unfold Member.method Member.attributeSize
    rw [h.text_eq, hname, hdescriptor, hattributes]
  unfold summary
  rw [Pool.className_congr h.pool, h.thisClass, h.minor, h.major, hmethods]

theorem codeFits (h : l.Resembles l') (hc : l.CodeFits code) : l'.CodeFits code := by
  intro m' hm'
  rcases List.mem_iff_getElem.1 hm' with ⟨i, hi, rfl⟩
  have hlen : i < l.methods.length := h.methods.length_eq ▸ hi
  have hattributes : l.methods[i].attributes = l'.methods[i].attributes :=
    (h.methods.get hlen hi).2.2
  have hcode := hc l.methods[i] (List.getElem_mem hlen)
  unfold Member.CodeFits at hcode ⊢
  rw [h.text_eq, hattributes] at hcode
  exact hcode

end Resembles

namespace Misled

variable {e : StagedFault}

theorem kind (h : l.Misled e) : e.fault.kind = "INVALID_REFERENCE" := by
  cases h <;> rfl

theorem describes (h : l.Misled e) : ∃ i x found, e.fault = .badReference i x found ∧
    found.label = l.pool.describe i := by
  cases h with
  | thisClass hl => exact ⟨_, _, _, rfl, hl.label⟩
  | className _ hl => exact ⟨_, _, _, rfl, hl.label⟩
  | text _ _ _ hl => exact ⟨_, _, _, rfl, hl.label⟩

end Misled

/-- A layout is misled as soon as one of its references does not resolve. -/
theorem exists_misled_iff : (∃ e, l.Misled e) ↔
    (¬ ∃ name, l.pool.HasClass l.thisClass.toNat name) ∨
      ∃ i ∈ l.references, ¬ ∃ s, l.pool.HasText i.toNat s := by
  simp only [← Pool.className_eq_ok_iff, ← Pool.text_eq_ok_iff]
  constructor
  · intro h
    rcases h with ⟨e, h⟩
    cases h with
    | thisClass hl =>
        have hfault := Pool.className_eq_error_iff.2 (.inl ⟨_, hl, rfl⟩)
        exact .inl (by simp [hfault])
    | className hn hl =>
        have hfault := Pool.className_eq_error_iff.2 (.inr ⟨_, hn, _, hl, rfl⟩)
        exact .inl (by simp [hfault])
    | @text front back i _ _ hrefs _ hl =>
        have hfault := Pool.text_eq_error_iff.2 ⟨_, hl, rfl⟩
        have hmem : i ∈ l.references := by simp [hrefs]
        exact .inr ⟨i, hmem, by simp [hfault]⟩
  · intro h
    cases hname : l.pool.className l.thisClass.toNat with
    | error e₀ =>
        rcases Pool.className_eq_error_iff.1 hname with ⟨found, hl, rfl⟩ | ⟨n, hn, found, hl, rfl⟩
        · exact ⟨_, .thisClass hl⟩
        · exact ⟨_, .className hn hl⟩
    | ok name =>
        rcases h with h | ⟨i, hi, hlost⟩
        · exact (h ⟨name, hname⟩).elim
        · rcases Except.exists_mapM_eq_error (f := fun i : UInt16 => l.pool.text i.toNat) hi hlost
            with ⟨e, he⟩
          rcases Except.mapM_eq_error_iff.1 he with ⟨front, j, back, hrefs, hfront, hj⟩
          rcases Pool.text_eq_error_iff.1 hj with ⟨found, hl, rfl⟩
          have hresolved : ∀ k ∈ front, ∃ s, l.pool.HasText k.toNat s := by
            simpa only [Pool.text_eq_ok_iff] using hfront
          exact ⟨_, .text ⟨name, Pool.className_eq_ok_iff.1 hname⟩ hrefs hresolved hl⟩

/-- A layout with a superclass out of range, and a method without a descriptor, whose attribute has
no name. -/
def astray : Layout :=
  { Layout.sample with superClass := 99, methods := [⟨1, 3, 7, [⟨0, []⟩]⟩] }

theorem astray_fits : astray.Fits :=
  { sample_fits with methods := by simp [astray, Member.Fits, Attribute.Fits] }

theorem astray_codeFits : astray.CodeFits "Code" := by
  simp [astray, CodeFits, Member.CodeFits, Pool.text, Pool.find]

theorem misled_astray :
    astray.Misled ⟨.methods, .badReference 7 .utf8 .emptySlot⟩ := by
  have hpool : astray.pool = sample.pool := rfl
  have hrefs : astray.references = [3] ++ 7 :: [0] := rfl
  have hclass : astray.pool.HasClass 2 "A" := by
    rw [hpool, sample_pool]
    exact ⟨1, ⟨by decide, rfl⟩, by decide, rfl⟩
  have hname : astray.pool.HasText 3 "m" := by
    rw [hpool, sample_pool]
    exact ⟨by decide, rfl⟩
  have hempty : astray.pool.Lacks 7 .utf8 .emptySlot := by
    rw [hpool, sample_pool]
    exact .emptySlot _ (by decide) rfl
  refine .text ⟨"A", hclass⟩ hrefs ?_ hempty
  intro j hj
  cases List.mem_singleton.1 hj
  exact ⟨"m", hname⟩

end Layout

namespace Summary

variable {code : String} {l : Layout}

/-- A layout whose counts and lengths are right is rejected only for a reference that does not
resolve, and for the first of those that are looked at. The fault names the index, what was expected
there and what the slot holds. All other indices may be anything. -/
theorem decode_error_iff_misled (hf : l.Fits) (hc : l.CodeFits code) (t : Bytes) :
    (∀ e, decode (l.bytes ++ t) code = .error e ↔ l.Misled e) ∧
      ((∃ e, decode (l.bytes ++ t) code = .error e ∧ e.fault.kind = "INVALID_REFERENCE") ↔
        (¬ ∃ name, l.pool.HasClass l.thisClass.toNat name) ∨
          ∃ i ∈ l.references, ¬ ∃ s, l.pool.HasText i.toNat s) ∧
      (∀ e, l.Misled e → ∃ i x found, e.fault = .badReference i x found ∧
        found.label = l.pool.describe i) ∧
      ∀ (l' : Layout) (t' : Bytes), l'.Fits → l.Resembles l' →
        decode (l'.bytes ++ t') code = decode (l.bytes ++ t) code := by
  have herror : ∀ e, decode (l.bytes ++ t) code = .error e ↔ l.Misled e := by
    intro e
    rw [decode_eq_summary hf hc]
    exact Layout.summary_eq_error_iff
  refine ⟨herror, ?_, fun e h => h.describes, ?_⟩
  · rw [← Layout.exists_misled_iff]
    constructor
    · intro h
      rcases h with ⟨e, h, _⟩
      exact ⟨e, (herror e).1 h⟩
    · intro h
      rcases h with ⟨e, h⟩
      exact ⟨e, (herror e).2 h, h.kind⟩
  · intro l' t' hf' h
    rw [decode_eq_summary hf hc, decode_eq_summary hf' (h.codeFits hc), h.summary_eq]

/-- Of the two indices that do not resolve, the descriptor is met first. -/
theorem decode_astray : Layout.astray.Fits ∧ Layout.astray.CodeFits "Code" ∧
    decode (Layout.astray.bytes ++ []) "Code" =
      .error ⟨.methods, .badReference 7 .utf8 .emptySlot⟩ := by
  refine ⟨Layout.astray_fits, Layout.astray_codeFits, ?_⟩
  have h := decode_error_iff_misled Layout.astray_fits Layout.astray_codeFits []
  exact (h.1 _).2 Layout.misled_astray

end Summary
end JarRank.ClassFile
