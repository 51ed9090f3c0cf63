import Mathlib.Algebra.Ring.Int.Defs
import Mathlib.Data.List.Sort
import JarRank.Ranking.Census

/-!
# What a census counts

Counting one more number adds one to the sum of all counts. A census of a list has counts
that sum up to its length, each of them at least one, and counts nothing else than what is
in the list.

The count of a number in the census of a list is how often it occurs there, and a census is
told from the counts of all numbers. So the order of the list does not matter, and the counts
of two lists in a row are added.
-/
namespace JarRank.Census

def total (es : List (Int × Int)) : Int := (es.map (·.2)).sum

theorem total_cons (e : Int × Int) (es : List (Int × Int)) : total (e :: es) = e.2 + total es := by
  simp [total]

theorem total_alter (n : Int) (es : List (Int × Int)) :
    total (alter n (fun k => k.getD 0 + 1) es) = total es + 1 := by
  induction es with
  | nil => rfl
  | cons e es ih =>
    obtain ⟨m, k⟩ := e
    rw [alter]
    split
    · rw [total_cons, Option.getD_none]
      omega
    · split
      · rw [total_cons, total_cons, Option.getD_some]
        omega
      · rw [total_cons, total_cons, ih]
        omega

theorem one_le_of_mem_alter {n : Int} {es : List (Int × Int)} (h : ∀ e ∈ es, 1 ≤ e.2) :
    ∀ e ∈ alter n (fun k => k.getD 0 + 1) es, 1 ≤ e.2 := by
  induction es with
  | nil => simp [alter]
  | cons d es ih =>
    have hd := h d List.mem_cons_self
    have hes : ∀ e ∈ es, 1 ≤ e.2 := fun e he => h e (List.mem_cons_of_mem d he)
    intro e he
    rw [alter] at he
    split at he
    · rcases List.mem_cons.1 he with rfl | he
      · simp
      · exact h e he
    · split at he
      · rcases List.mem_cons.1 he with rfl | he
        · simp only [Option.getD_some]
          omega
        · exact hes e he
      · rcases List.mem_cons.1 he with rfl | he
        · exact hd
        · exact ih hes e he

/-- What has been counted in a census. -/
structure Counts (ns : List Int) (c : Census) : Prop where
  total : total c.entries = ns.length
  one_le : ∀ e ∈ c.entries, 1 ≤ e.2
  mem : ∀ e ∈ c.entries, e.1 ∈ ns

theorem counts_empty : Counts [] empty := ⟨rfl, by simp [empty], by simp [empty]⟩

theorem Counts.add {ns : List Int} {c : Census} (h : Counts ns c) (n : Int) :
    Counts (ns ++ [n]) (c.add n) where
  total := by
    rw [Census.add, total_alter, h.total, List.length_append, List.length_singleton]
    omega
  one_le := one_le_of_mem_alter h.one_le
  mem := by
    intro e he
    rw [List.mem_append, List.mem_singleton]
    rcases mem_alter he with he | he
    · exact .inr he
    · exact .inl (h.mem e he)

theorem counts_ofList (ns : List Int) : Counts ns (ofList ns) := by
  -- The numbers counted before stand in front, so the induction is for any census of them.
  have hrun : ∀ (before : List Int) (c : Census), Counts before c →
      Counts (before ++ ns) (ns.foldl Census.add c) := by
    induction ns with
    | nil =>
      intro before c h
      rwa [List.append_nil]
    | cons n ns ih =>
      intro before c h
      have hadd := ih (before ++ [n]) (c.add n) (h.add n)
      rwa [List.append_assoc, List.singleton_append] at hadd
  exact hrun [] empty counts_empty

/-- The count of a number, if it is counted. -/
def count? (c : Census) (n : Int) : Option Int := c.entries.lookup n

theorem lookup_cons_eq_ite (n m k : Int) (es : List (Int × Int)) :
    ((m, k) :: es).lookup n = if n = m then some k else es.lookup n := by
  rw [List.lookup_cons]
  by_cases h : n = m
  · rw [if_pos h, beq_iff_eq.2 h]
  · rw [if_neg h, beq_eq_false_iff_ne.2 h]

theorem lookup_eq_none_of_lt {n : Int} {es : List (Int × Int)} (h : ∀ e ∈ es, n < e.1) :
    es.lookup n = none := by
  rw [List.lookup_eq_none_iff]
  intro e he
  exact bne_iff_ne.2 (Int.ne_of_lt (h e he))

theorem lookup_alter {n : Int} {f : Option Int → Int} {es : List (Int × Int)}
    (h : es.Pairwise fun a b => a.1 < b.1) (m : Int) :
    (alter n f es).lookup m = if m = n then some (f (es.lookup n)) else es.lookup m := by
  induction es with
  | nil => rw [alter, lookup_cons_eq_ite, List.lookup_nil, List.lookup_nil]
  | cons e es ih =>
    obtain ⟨l, k⟩ := e
    obtain ⟨hl, hes⟩ := List.pairwise_cons.1 h
    rw [alter]
    split
    · next hlt =>
      -- The number stands before all others, so that it has no count yet.
      have hall : ∀ e ∈ (l, k) :: es, n < e.1 :=
        List.forall_mem_cons.2 ⟨hlt, fun e he => Int.lt_trans hlt (hl e he)⟩
      rw [lookup_cons_eq_ite, lookup_eq_none_of_lt hall]
    · split
      · next heq =>
        subst heq
        simp only [lookup_cons_eq_ite]
        by_cases hm : m = n <;> simp [hm]
      · next hne =>
        simp only [lookup_cons_eq_ite, ih hes, if_neg hne]
        by_cases hm : m = n
        · subst hm
          simp [hne]
        · simp [hm]

theorem count?_empty (n : Int) : empty.count? n = none := rfl

theorem count?_add (c : Census) (n m : Int) :
    (c.add n).count? m = if m = n then some ((c.count? n).getD 0 + 1) else c.count? m :=
  lookup_alter c.ascending m

/-- Counting a list adds to each count how often the number occurs in it. -/
theorem count?_foldl_add (ns : List Int) (c : Census) (n : Int) :
    (ns.foldl Census.add c).count? n =
      if n ∈ ns then some ((c.count? n).getD 0 + ns.count n) else c.count? n := by
  induction ns generalizing c with
  | nil => rfl
  | cons m ns ih =>
    rw [List.foldl_cons, ih, count?_add]
    by_cases hm : n = m
    · subst hm
      by_cases hn : n ∈ ns
      · simp [hn, Int.add_assoc, Int.add_comm 1]
      · simp [hn, List.count_eq_zero_of_not_mem hn]
    · have hm' : m ≠ n := fun h => hm h.symm
      by_cases hn : n ∈ ns <;> simp [hn, hm, hm']

theorem count?_ofList (ns : List Int) (n : Int) :
    (ofList ns).count? n = if n ∈ ns then some (ns.count n : Int) else none := by
  rw [ofList, count?_foldl_add, count?_empty]
  simp

/-- The counts of two lists in a row are added. -/
theorem count?_ofList_append (ns ms : List Int) (n : Int) :
    (ofList (ns ++ ms)).count? n =
      ((ofList ns).count? n).merge (· + ·) ((ofList ms).count? n) := by
  simp only [count?_ofList, List.count_append, List.mem_append]
  by_cases hn : n ∈ ns
  · by_cases hm : n ∈ ms
    · simp [hn, hm, Option.merge]
    · simp [hn, hm, Option.merge, List.count_eq_zero_of_not_mem hm]
  · by_cases hm : n ∈ ms
    · simp [hn, hm, Option.merge, List.count_eq_zero_of_not_mem hn]
    · simp [hn, hm, Option.merge]

theorem count?_eq_some_iff {c : Census} {n k : Int} : c.count? n = some k ↔ (n, k) ∈ c.entries := by
  obtain ⟨es, hes⟩ := c
  simp only [count?]
  induction es with
  | nil => simp
  | cons e es ih =>
    obtain ⟨m, l⟩ := e
    obtain ⟨hm, hes⟩ := List.pairwise_cons.1 hes
    rw [lookup_cons_eq_ite, List.mem_cons, Prod.mk.injEq]
    by_cases hn : n = m
    · subst hn
      -- The numbers behind are larger, so that the pair is not among them.
      have hne : (n, k) ∉ es := fun he => Int.lt_irrefl n (hm _ he)
      simp [hne, eq_comm]
    · simp [hn, ih hes]

/-- A census is told from its counts. -/
theorem ext_count? {c d : Census} (h : ∀ n, c.count? n = d.count? n) : c = d := by
  have hmem : ∀ e, e ∈ c.entries ↔ e ∈ d.entries := by
    intro e
    rw [← count?_eq_some_iff (n := e.1) (k := e.2), h, count?_eq_some_iff]
  have hirrefl : Std.Irrefl fun a b : Int × Int => a.1 < b.1 := ⟨fun a => Int.lt_irrefl a.1⟩
  have hantisymm : Std.Antisymm fun a b : Int × Int => a.1 < b.1 :=
    ⟨fun _ _ hab hba => absurd hab (Int.lt_asymm hba)⟩
  have hentries : c.entries = d.entries := c.ascending.eq_of_mem_iff d.ascending hmem
  cases c
  cases d
  simp_all

/-- The order in which numbers are counted does not matter. -/
theorem ofList_perm {ns ms : List Int} (h : ns.Perm ms) : ofList ns = ofList ms := by
  refine ext_count? fun n => ?_
  rw [count?_ofList, count?_ofList, h.count_eq]
  simp only [h.mem_iff]

end JarRank.Census
