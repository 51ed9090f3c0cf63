import JarRank.ClassFile.Layout
import JarRank.Proofs.ClassFile.Resolution
import JarRank.Proofs.Outcome

/-!
# What a layout describes

A layout describes at most one summary, read off its parts: the name its class
index leads to, its version, and one method for each of its methods. The size of a
method is the length that the last code attribute among its attributes declares,
or zero if there is none.

This says the same as computing the summary does, but without an order in which
references are resolved and without a first one that fails.
-/
namespace JarRank.ClassFile

namespace Member

variable {p : Pool} {code : String}

/-- The length of bytecode that the last code attribute declares, or zero. -/
def codeSize (p : Pool) (code : String) (m : Member) : Nat :=
  ((m.attributes.filter fun a => p.HasText a.nameIndex.toNat code).getLast?.map
    Attribute.codeLength).getD 0

/-- The method that a member is: all its names resolve, and its size is that of its code. -/
structure Describes (p : Pool) (code : String) (m : Member) (r : Method) : Prop where
  name : p.HasText m.nameIndex.toNat r.name
  descriptor : p.HasText m.descriptorIndex.toNat r.descriptor
  attributes : ∀ a ∈ m.attributes, ∃ s, p.HasText a.nameIndex.toNat s
  size : r.size = m.codeSize p code

theorem attributeSize_eq_ok_iff {a : Attribute} {size : Option Nat} :
    attributeSize p code a = .ok size ↔ ∃ s, p.HasText a.nameIndex.toNat s ∧
      size = if s = code then some a.codeLength else none := by
  unfold attributeSize
  rw [Except.bind_eq_ok_iff]
  constructor
  · intro h
    obtain ⟨s, hs, h⟩ := h
    cases h
    exact ⟨s, Pool.text_eq_ok_iff.1 hs, rfl⟩
  · intro h
    obtain ⟨s, hs, rfl⟩ := h
    exact ⟨s, Pool.text_eq_ok_iff.2 hs, rfl⟩

theorem exists_sizes_iff {xs : List Attribute} :
    (∃ sizes, xs.mapM (attributeSize p code) = .ok sizes) ↔
      ∀ a ∈ xs, ∃ s, p.HasText a.nameIndex.toNat s := by
  constructor
  · intro h
    obtain ⟨sizes, h⟩ := h
    have hr := Except.mapM_eq_ok_iff.1 h
    intro a ha
    obtain ⟨i, hi, rfl⟩ := List.mem_iff_getElem.1 ha
    obtain ⟨s, hs, _⟩ := attributeSize_eq_ok_iff.1 (hr.get hi (hr.length_eq ▸ hi))
    exact ⟨s, hs⟩
  · intro h
    induction xs with
    | nil => exact ⟨[], rfl⟩
    | cons a xs ih =>
        obtain ⟨s, hs⟩ := h a List.mem_cons_self
        obtain ⟨sizes, hr⟩ := ih fun b hb => h b (List.mem_cons_of_mem a hb)
        exact ⟨_, Except.mapM_eq_ok_iff.2
          (.cons (attributeSize_eq_ok_iff.2 ⟨s, hs, rfl⟩) (Except.mapM_eq_ok_iff.1 hr))⟩

/-- The last size that attributes give is that of the last code among them. -/
theorem foldl_sizes {xs : List Attribute} {sizes : List (Option Nat)}
    (h : xs.mapM (attributeSize p code) = .ok sizes) (n : Nat) :
    sizes.foldl (fun size found => found.getD size) n =
      ((xs.filter fun a => p.HasText a.nameIndex.toNat code).getLast?.map
        Attribute.codeLength).getD n := by
  have hr := Except.mapM_eq_ok_iff.1 h
  clear h
  -- The size found so far stands for the attributes before, so the induction is for all of them.
  induction hr generalizing n with
  | nil => rfl
  | @cons a size xs sizes hg _ ih =>
      obtain ⟨s, ht, hsize⟩ := attributeSize_eq_ok_iff.1 hg
      by_cases hs : s = code
      · subst hs
        rw [if_pos rfl] at hsize
        rw [List.foldl_cons, hsize, Option.getD_some, ih,
          List.filter_cons_of_pos (by simpa using ht), List.getLast?_cons]
        cases (xs.filter fun a => p.HasText a.nameIndex.toNat s).getLast? <;> rfl
      · have hn : ¬ p.HasText a.nameIndex.toNat code := fun hc => hs (ht.unique hc)
        rw [if_neg hs] at hsize
        rw [List.foldl_cons, hsize, Option.getD_none, ih,
          List.filter_cons_of_neg (by simpa using hn)]

theorem method_eq_ok_iff {m : Member} {r : Method} :
    m.method p code = .ok r ↔ m.Describes p code r := by
  unfold method
  simp only [Except.bind_eq_ok_iff, Pool.text_eq_ok_iff]
  constructor
  · intro h
    obtain ⟨name, hname, descriptor, hdescriptor, sizes, hsizes, h⟩ := h
    cases h
    exact ⟨hname, hdescriptor, exists_sizes_iff.1 ⟨sizes, hsizes⟩, foldl_sizes hsizes 0⟩
  · intro h
    obtain ⟨sizes, hsizes⟩ := exists_sizes_iff.2 h.attributes
    have hsize : Section.lastSize sizes = r.size := (foldl_sizes hsizes 0).trans h.size.symm
    refine ⟨r.name, h.name, r.descriptor, h.descriptor, sizes, hsizes, ?_⟩
    rw [hsize]
    rfl

end Member

namespace Layout

variable {code : String} {l : Layout} {s : Summary}

/-- The summary that a layout gives, read off its parts. -/
structure Describes (code : String) (l : Layout) (s : Summary) : Prop where
  name : l.pool.HasClass l.thisClass.toNat s.name
  major : s.major = l.major.toNat
  minor : s.minor = l.minor.toNat
  methods : List.Forall₂ (Member.Describes l.pool code) l.methods s.methods

/-- A layout that can be written and whose references lead to what they should. -/
structure WellFormed (code : String) (l : Layout) : Prop where
  fits : l.Fits
  codeFits : l.CodeFits code
  thisClass : ∃ name, l.pool.HasClass l.thisClass.toNat name
  methodNames : ∀ m ∈ l.methods, ∃ s, l.pool.HasText m.nameIndex.toNat s
  descriptors : ∀ m ∈ l.methods, ∃ s, l.pool.HasText m.descriptorIndex.toNat s
  attributeNames : ∀ m ∈ l.methods, ∀ a ∈ m.attributes, ∃ s, l.pool.HasText a.nameIndex.toNat s

theorem summary_eq_ok_iff : l.summary code = .ok s ↔ l.Describes code s := by
  have hm : l.methods.mapM (Member.method l.pool code) = .ok s.methods ↔
      List.Forall₂ (Member.Describes l.pool code) l.methods s.methods := by
    rw [Except.mapM_eq_ok_iff]
    simp only [Member.method_eq_ok_iff]
  unfold summary
  simp only [Except.bind_eq_ok_iff, Except.mapError_eq_ok_iff, Pool.className_eq_ok_iff]
  constructor
  · intro h
    obtain ⟨name, hname, methods, hmethods, h⟩ := h
    cases h
    exact ⟨hname, rfl, rfl, hm.1 hmethods⟩
  · intro h
    refine ⟨s.name, h.name, s.methods, hm.2 h.methods, ?_⟩
    rw [← h.major, ← h.minor]
    rfl

theorem WellFormed.exists_describes (h : l.WellFormed code) : ∃ s, l.Describes code s := by
  have hm : ∀ ms : List Member, (∀ m ∈ ms, m ∈ l.methods) →
      ∃ rs, List.Forall₂ (Member.Describes l.pool code) ms rs := by
    intro ms
    induction ms with
    | nil => exact fun _ => ⟨[], .nil⟩
    | cons m ms ih =>
        intro hs
        have hmem := hs m List.mem_cons_self
        obtain ⟨rs, hr⟩ := ih fun n hn => hs n (List.mem_cons_of_mem m hn)
        obtain ⟨name, hname⟩ := h.methodNames m hmem
        obtain ⟨descriptor, hdescriptor⟩ := h.descriptors m hmem
        exact ⟨⟨name, descriptor, m.codeSize l.pool code⟩ :: rs,
          .cons ⟨hname, hdescriptor, h.attributeNames m hmem, rfl⟩ hr⟩
  obtain ⟨name, hname⟩ := h.thisClass
  obtain ⟨rs, hr⟩ := hm l.methods fun _ hn => hn
  exact ⟨⟨name, l.major.toNat, l.minor.toNat, rs⟩, hname, rfl, rfl, hr⟩

theorem Describes.wellFormed (hd : l.Describes code s) (hf : l.Fits) (hc : l.CodeFits code) :
    l.WellFormed code := by
  have hm : ∀ m ∈ l.methods, ∃ r, m.Describes l.pool code r := by
    intro m hm
    obtain ⟨i, hi, rfl⟩ := List.mem_iff_getElem.1 hm
    exact ⟨_, hd.methods.get hi (hd.methods.length_eq ▸ hi)⟩
  refine ⟨hf, hc, ⟨s.name, hd.name⟩, ?_, ?_, ?_⟩
  · intro m h
    obtain ⟨r, hr⟩ := hm m h
    exact ⟨r.name, hr.name⟩
  · intro m h
    obtain ⟨r, hr⟩ := hm m h
    exact ⟨r.descriptor, hr.descriptor⟩
  · intro m h
    obtain ⟨r, hr⟩ := hm m h
    exact hr.attributes

end Layout
end JarRank.ClassFile
