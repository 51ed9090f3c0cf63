import JarRank.Json.Print
import Mathlib.Data.List.Nodup

/-!
# Values with sorted fields

Sorting the fields of every object changes nothing but their order. Where the keys of an
object are distinct they ascend afterwards, by their code points, and every key leads to the
value that it led to before, itself sorted.
-/
namespace JarRank.Json

variable {v : Json} {fs : List (Text × Json)}

/-- One text is before another: it ends within it, or has the smaller code point where they part. -/
inductive Text.Before : Text → Text → Prop
  | nil {q : CodePoint} {qs : Text} : Before [] (q :: qs)
  | head {p q : CodePoint} {ps qs : Text} : p.value < q.value → Before (p :: ps) (q :: qs)
  | tail {p : CodePoint} {ps qs : Text} : Before ps qs → Before (p :: ps) (p :: qs)

theorem keyLe_cons {p q : CodePoint} {ps qs : Text} :
    keyLe (p :: ps) (q :: qs) = true ↔ p.value < q.value ∨ p = q ∧ keyLe ps qs = true := by
  have hvalue : p.value = q.value ↔ p = q := by
    cases p
    cases q
    simp
  simp [keyLe, hvalue]

theorem keyLe_trans : ∀ s t u : Text, keyLe s t = true → keyLe t u = true → keyLe s u = true
  | [], _, _, _, _ => by simp [keyLe]
  | _ :: _, [], _, hst, _ => by simp [keyLe] at hst
  | _ :: _, _ :: _, [], _, htu => by simp [keyLe] at htu
  | p :: ps, q :: qs, r :: rs, hst, htu => by
    rw [keyLe_cons] at hst htu ⊢
    rcases hst with hst | ⟨rfl, hst⟩
    · rcases htu with htu | ⟨rfl, htu⟩
      · exact .inl (by omega)
      · exact .inl hst
    · rcases htu with htu | ⟨rfl, htu⟩
      · exact .inl htu
      · exact .inr ⟨rfl, keyLe_trans ps qs rs hst htu⟩

theorem keyLe_total : ∀ s t : Text, (keyLe s t || keyLe t s) = true
  | [], _ => by simp [keyLe]
  | _ :: _, [] => by simp [keyLe]
  | p :: ps, q :: qs => by
    have ih := keyLe_total ps qs
    rw [Bool.or_eq_true] at ih ⊢
    rw [keyLe_cons, keyLe_cons]
    rcases Nat.lt_trichotomy p.value q.value with h | h | h
    · exact .inl (.inl h)
    · obtain rfl : p = q := by
        cases p
        cases q
        simpa using h
      exact ih.imp (fun h => .inr ⟨rfl, h⟩) fun h => .inr ⟨rfl, h⟩
    · exact .inr (.inl h)

theorem keyLe_antisymm : ∀ s t : Text, keyLe s t = true → keyLe t s = true → s = t
  | [], [], _, _ => rfl
  | [], _ :: _, _, hts => by simp [keyLe] at hts
  | _ :: _, [], hst, _ => by simp [keyLe] at hst
  | p :: ps, q :: qs, hst, hts => by
    rw [keyLe_cons] at hst hts
    rcases hst with hst | ⟨rfl, hst⟩
    · rcases hts with hts | ⟨rfl, -⟩ <;> omega
    · rcases hts with hts | ⟨-, hts⟩
      · omega
      · rw [keyLe_antisymm ps qs hst hts]

theorem before_of_keyLe : ∀ s t : Text, keyLe s t = true → s ≠ t → s.Before t
  | [], [], _, hne => (hne rfl).elim
  | [], _ :: _, _, _ => .nil
  | _ :: _, [], h, _ => by simp [keyLe] at h
  | p :: ps, q :: qs, h, hne => by
    rcases keyLe_cons.1 h with hlt | ⟨rfl, hle⟩
    · exact .head hlt
    · exact .tail (before_of_keyLe ps qs hle fun he => hne (by rw [he]))

/-! ### The sorted value -/

/-- A field with its value sorted. -/
def sortedField (f : Text × Json) : Text × Json := (f.1, f.2.sorted)

theorem sortedItems_eq (vs acc : List Json) : sortedItems vs acc = acc.reverse ++ vs.map sorted := by
  induction vs generalizing acc with
  | nil => simp [sortedItems]
  | cons v vs ih => simp [sortedItems, ih]

theorem sortedMembers_eq (fs acc : List (Text × Json)) :
    sortedMembers fs acc = acc.reverse ++ fs.map sortedField := by
  induction fs generalizing acc with
  | nil => simp [sortedMembers]
  | cons f fs ih => simp [sortedMembers, ih, sortedField]

theorem sorted_array (vs : List Json) : sorted (.array vs) = .array (vs.map sorted) := by
  rw [sorted, sortedItems_eq]
  rfl

/-- The fields of a sorted object. -/
def sortedFields (fs : List (Text × Json)) : List (Text × Json) :=
  (fs.map sortedField).mergeSort fun a b => keyLe a.1 b.1

theorem sorted_object (fs : List (Text × Json)) : sorted (.object fs) = .object (sortedFields fs) := by
  rw [sorted, sortedMembers_eq]
  rfl

theorem sorted_of_scalar (ha : ∀ vs, v ≠ .array vs) (ho : ∀ fs, v ≠ .object fs) : v.sorted = v := by
  cases v with
  | array vs => exact (ha vs rfl).elim
  | object fs => exact (ho fs rfl).elim
  | _ => rfl

theorem sortedFields_perm (fs : List (Text × Json)) : (sortedFields fs).Perm (fs.map sortedField) :=
  List.mergeSort_perm ..

theorem map_fst_sortedField (fs : List (Text × Json)) :
    (fs.map sortedField).map (·.1) = fs.map (·.1) := by
  simp [sortedField, Function.comp_def]

/-- The keys of the fields are all different. -/
def DistinctKeys (fs : List (Text × Json)) : Prop := (fs.map (·.1)).Nodup

theorem DistinctKeys.sortedFields (h : DistinctKeys fs) : DistinctKeys (sortedFields fs) := by
  have hkeys := (sortedFields_perm fs).map (·.1)
  rw [map_fst_sortedField] at hkeys
  exact hkeys.nodup_iff.2 h

/-- The keys of the fields ascend. -/
def Ascending (fs : List (Text × Json)) : Prop := fs.Pairwise fun f g => f.1.Before g.1

theorem pairwise_sortedFields (fs : List (Text × Json)) :
    (sortedFields fs).Pairwise fun f g => keyLe f.1 g.1 = true :=
  List.pairwise_mergeSort (fun a b c => keyLe_trans a.1 b.1 c.1) (fun a b => keyLe_total a.1 b.1) _

theorem ascending_sortedFields (h : DistinctKeys fs) : Ascending (sortedFields fs) := by
  have hle := pairwise_sortedFields fs
  have hne : (Json.sortedFields fs).Pairwise fun f g => f.1 ≠ g.1 :=
    List.pairwise_map.1 h.sortedFields
  exact (hle.and hne).imp fun hfg => before_of_keyLe _ _ hfg.1 hfg.2

/-- The field whose key is the least comes first. -/
theorem exists_sortedFields_eq_cons {f : Text × Json} (h : DistinctKeys fs) (hf : f ∈ fs)
    (hleast : ∀ g ∈ fs, keyLe f.1 g.1 = true) : ∃ rest, sortedFields fs = sortedField f :: rest := by
  have hmem : sortedField f ∈ sortedFields fs :=
    (sortedFields_perm fs).mem_iff.2 (List.mem_map_of_mem hf)
  have hsorted := pairwise_sortedFields fs
  have hdistinct := h.sortedFields
  cases hs : sortedFields fs with
  | nil =>
      rw [hs] at hmem
      cases hmem
  | cons g rest =>
      rw [hs] at hmem hsorted hdistinct
      rcases List.mem_cons.1 hmem with rfl | hrest
      · exact ⟨rest, rfl⟩
      · -- Another first field has a key that is no greater, and so the same key.
        have hg : g ∈ fs.map sortedField :=
          (sortedFields_perm fs).mem_iff.1 (hs ▸ List.mem_cons_self)
        obtain ⟨g', hg', rfl⟩ := List.mem_map.1 hg
        have hle := List.rel_of_pairwise_cons hsorted hrest
        have hkey : g'.1 = f.1 := keyLe_antisymm _ _ hle (hleast g' hg')
        have hlater : f.1 ∈ rest.map (·.1) := List.mem_map.2 ⟨_, hrest, rfl⟩
        rw [← hkey] at hlater
        exact ((List.nodup_cons.1 hdistinct).1 hlater).elim

/-- Every object that a value is or holds has fields with a property. -/
inductive EveryObject (P : List (Text × Json) → Prop) : Json → Prop
  | scalar {v : Json} : (∀ vs, v ≠ .array vs) → (∀ fs, v ≠ .object fs) → EveryObject P v
  | array {vs : List Json} : (∀ v ∈ vs, EveryObject P v) → EveryObject P (.array vs)
  | object {fs : List (Text × Json)} : P fs → (∀ f ∈ fs, EveryObject P f.2) →
      EveryObject P (.object fs)

/-- Sorting puts the fields of every object in order. -/
theorem ascending_sorted (h : EveryObject DistinctKeys v) : EveryObject Ascending v.sorted := by
  induction h with
  | scalar ha ho =>
      rw [sorted_of_scalar ha ho]
      exact .scalar ha ho
  | array _ ih =>
      rw [sorted_array]
      exact .array (by simpa using ih)
  | @object fs hkeys _ ih =>
      rw [sorted_object]
      refine .object (ascending_sortedFields hkeys) fun f hf => ?_
      obtain ⟨g, hg, rfl⟩ := List.mem_map.1 ((sortedFields_perm fs).mem_iff.1 hf)
      exact ih g hg

/-! ### Looking up a field -/

theorem field?_eq_some_iff (h : DistinctKeys fs) {name : String} :
    (object fs).field? name = some v ↔ (Text.ofString name, v) ∈ fs := by
  constructor
  · intro hf
    obtain ⟨f, hfind, rfl⟩ := Option.map_eq_some_iff.1 hf
    have hkey : f.1 = Text.ofString name := by
      have hfound := List.find?_some hfind
      simpa using hfound
    rw [← hkey]
    exact List.mem_reverse.1 (List.mem_of_find?_eq_some hfind)
  · intro hmem
    have hsome : (fs.reverse.find? fun f => f.1 == Text.ofString name).isSome := by
      rw [List.find?_isSome]
      exact ⟨_, List.mem_reverse.2 hmem, by simp⟩
    obtain ⟨f, hfind⟩ := Option.isSome_iff_exists.1 hsome
    have hkey : f.1 = Text.ofString name := by
      have hfound := List.find?_some hfind
      simpa using hfound
    have hf : f ∈ fs := List.mem_reverse.1 (List.mem_of_find?_eq_some hfind)
    have hsame : f = (Text.ofString name, v) := List.inj_on_of_nodup_map h hf hmem hkey
    rw [field?, hfind, hsame]
    rfl

/-- In a sorted object a name leads to the value that it led to before, now sorted. -/
theorem field?_sorted (h : DistinctKeys fs) (name : String) :
    (object fs).sorted.field? name = ((object fs).field? name).map sorted := by
  ext w
  rw [sorted_object, field?_eq_some_iff h.sortedFields, (sortedFields_perm fs).mem_iff,
    Option.map_eq_some_iff]
  constructor
  · intro hmem
    obtain ⟨⟨key, v⟩, hf, hv⟩ := List.mem_map.1 hmem
    cases hv
    exact ⟨v, (field?_eq_some_iff h).2 hf, rfl⟩
  · intro hmem
    obtain ⟨v, hv, rfl⟩ := hmem
    exact List.mem_map.2 ⟨_, (field?_eq_some_iff h).1 hv, rfl⟩

/-! ### Equality up to the order of fields -/

/-- Two values that differ in nothing but the order of fields. -/
inductive Same : Json → Json → Prop
  | refl (v : Json) : Same v v
  | array {vs ws : List Json} : vs.length = ws.length →
      (∀ (i : Nat) (v w : Json), vs[i]? = some v → ws[i]? = some w → Same v w) →
      Same (.array vs) (.array ws)
  | object {fs gs hs : List (Text × Json)} : fs.Perm gs → gs.map (·.1) = hs.map (·.1) →
      (∀ (i : Nat) (f g : Text × Json), gs[i]? = some f → hs[i]? = some g → Same f.2 g.2) →
      Same (.object fs) (.object hs)

mutual

theorem same_sorted : ∀ v : Json, v.sorted.Same v
  | .null | .bool _ | .integer _ | .number _ | .string _ => .refl _
  | .array vs => by
    have hvs := same_sorted_of_mem vs
    rw [sorted_array]
    refine .array (by simp) fun i v w hv hw => ?_
    rw [List.getElem?_map, hw] at hv
    cases hv
    exact hvs w (List.mem_of_getElem? hw)
  | .object fs => by
    have hfs := same_sorted_of_mem_fields fs
    rw [sorted_object]
    refine .object (sortedFields_perm fs) (map_fst_sortedField fs) fun i f g hf hg => ?_
    rw [List.getElem?_map, hg] at hf
    cases hf
    exact hfs g (List.mem_of_getElem? hg)

theorem same_sorted_of_mem : ∀ vs : List Json, ∀ v ∈ vs, v.sorted.Same v
  | [] => by simp
  | v :: vs => by
    have hv := same_sorted v
    have hvs := same_sorted_of_mem vs
    simpa using ⟨hv, hvs⟩

theorem same_sorted_of_mem_fields : ∀ fs : List (Text × Json), ∀ f ∈ fs, f.2.sorted.Same f.2
  | [] => by simp
  | (key, v) :: fs => by
    have hv := same_sorted v
    have hfs := same_sorted_of_mem_fields fs
    intro f hf
    rcases List.mem_cons.1 hf with rfl | hf
    · exact hv
    · exact hfs f hf

end

end JarRank.Json
