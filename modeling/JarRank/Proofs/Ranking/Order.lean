import Mathlib.Data.List.Sort
import JarRank.Proofs.ClassFile.CursorView
import JarRank.Proofs.Ranking.Examinations

/-!
# The order of a ranking

A ranking has the rows that it is made from, each as often, with the sizes going
down. Rows of one size keep the order in which they were met. The three together
leave no choice: a list of rows has one ranking.

The rows come from the class files in their order, and within each in its own.
A class file that fails gives none and takes none away.
-/
namespace JarRank

namespace Row

variable {rows : List Row}

theorem ranked_perm (rows : List Row) : (ranked rows).Perm rows := List.mergeSort_perm ..

theorem size_le_trans (a b c : Row) (hab : decide (b.size ≤ a.size) = true)
    (hbc : decide (c.size ≤ b.size) = true) : decide (c.size ≤ a.size) = true :=
  decide_eq_true (Nat.le_trans (of_decide_eq_true hbc) (of_decide_eq_true hab))

theorem size_le_total (a b : Row) :
    (decide (b.size ≤ a.size) || decide (a.size ≤ b.size)) = true := by
  rw [Bool.or_eq_true, decide_eq_true_eq, decide_eq_true_eq]
  exact Nat.le_total b.size a.size

theorem pairwise_ranked (rows : List Row) :
    (ranked rows).Pairwise fun a b => b.size ≤ a.size := by
  have h := List.pairwise_mergeSort size_le_trans size_le_total rows
  exact h.imp of_decide_eq_true

/-- Rows of one size are left in their order. -/
theorem filter_ranked (size : Nat) (rows : List Row) :
    (ranked rows).filter (fun r => r.size = size) = rows.filter fun r => r.size = size := by
  have hflat : (rows.filter fun r => r.size = size).Pairwise fun a b =>
      decide (b.size ≤ a.size) = true := by
    refine List.Pairwise.imp_of_mem ?_ (List.pairwise_of_forall fun _ _ => trivial)
    intro a b ha hb _
    have hsa : a.size = size := of_decide_eq_true (List.mem_filter.1 ha).2
    have hsb : b.size = size := of_decide_eq_true (List.mem_filter.1 hb).2
    exact decide_eq_true (by omega)
  -- The rows of the size are in order already, so that sorting keeps them as a sublist.
  have hsub : (rows.filter fun r => r.size = size).Sublist (ranked rows) :=
    List.sublist_mergeSort size_le_trans size_le_total hflat List.filter_sublist
  have hfilter : (rows.filter fun r => r.size = size).Sublist
      ((ranked rows).filter fun r => r.size = size) := by
    have h := hsub.filter fun r => decide (r.size = size)
    rwa [List.filter_filter, List.filter_congr fun _ _ => Bool.and_self _] at h
  have hlen : (rows.filter fun r => r.size = size).length =
      ((ranked rows).filter fun r => r.size = size).length :=
    ((ranked_perm rows).filter _).length_eq.symm
  exact (hfilter.eq_of_length hlen).symm

/-- Two lists with the sizes going down are the same if they have the same rows of each size in the
same order. -/
theorem eq_of_filter_eq {rows rows' : List Row} (h : rows.Pairwise fun a b => b.size ≤ a.size)
    (h' : rows'.Pairwise fun a b => b.size ≤ a.size)
    (hfilter : ∀ size, rows.filter (fun r => r.size = size) = rows'.filter fun r => r.size = size) :
    rows = rows' := by
  induction rows generalizing rows' with
  | nil =>
      rw [eq_comm, List.eq_nil_iff_forall_not_mem]
      intro r hr
      have hmem : r ∈ rows'.filter fun x => x.size = r.size := List.mem_filter.2 ⟨hr, by simp⟩
      rw [← hfilter] at hmem
      cases hmem
  | cons a rows ih =>
      have hmem (r : Row) : r ∈ a :: rows ↔ r ∈ rows' := by
        have hsize := congrArg (r ∈ ·) (hfilter r.size)
        simpa using hsize
      cases rows' with
      | nil => simpa using (hmem a).1 List.mem_cons_self
      | cons b rows' =>
          rcases List.pairwise_cons.1 h with ⟨ha, htail⟩
          rcases List.pairwise_cons.1 h' with ⟨hb, htail'⟩
          -- The first rows are of one size, since each is among the rows of the other list.
          have hle : a.size ≤ b.size := by
            rcases List.mem_cons.1 ((hmem a).1 List.mem_cons_self) with rfl | hin
            · exact Nat.le_refl _
            · exact hb a hin
          have hge : b.size ≤ a.size := by
            rcases List.mem_cons.1 ((hmem b).2 List.mem_cons_self) with rfl | hin
            · exact Nat.le_refl _
            · exact ha b hin
          have hsize : b.size = a.size := Nat.le_antisymm hge hle
          have hfirst := hfilter a.size
          rw [List.filter_cons_of_pos (by simp), List.filter_cons_of_pos (by simp [hsize])] at hfirst
          obtain ⟨rfl, hrest⟩ := List.cons.inj hfirst
          congr 1
          refine ih htail htail' fun size => ?_
          by_cases hs : a.size = size
          · rw [← hs]
            exact hrest
          · have hall := hfilter size
            rwa [List.filter_cons_of_neg (by simpa using hs),
              List.filter_cons_of_neg (by simpa using hs)] at hall

/-- Two rankings made one: rows of one size are those of the first, then those of the second. -/
def merged (rows rows' : List Row) : List Row := rows.merge rows' fun a b => b.size ≤ a.size

theorem pairwise_merged {rows rows' : List Row} (h : rows.Pairwise fun a b => b.size ≤ a.size)
    (h' : rows'.Pairwise fun a b => b.size ≤ a.size) :
    (merged rows rows').Pairwise fun a b => b.size ≤ a.size := by
  have hmerge := List.pairwise_merge size_le_trans size_le_total rows rows'
    (h.imp decide_eq_true) (h'.imp decide_eq_true)
  exact hmerge.imp of_decide_eq_true

theorem filter_merged {rows rows' : List Row} (h : rows.Pairwise fun a b => b.size ≤ a.size)
    (size : Nat) : (merged rows rows').filter (fun r => r.size = size) =
      rows.filter (fun r => r.size = size) ++ rows'.filter fun r => r.size = size := by
  unfold merged
  induction rows, rows' using List.merge.induct fun a b : Row => decide (b.size ≤ a.size) with
  | case1 rows' => simp
  | case2 rows _ => simp
  | case3 a rows b rows' hle ih =>
      rw [List.cons_merge_cons_pos _ _ _ hle, ← List.singleton_append, List.filter_append,
        ih (List.pairwise_cons.1 h).2, ← List.append_assoc, ← List.filter_append]
      rfl
  | case4 a rows b rows' hle ih =>
      rw [List.cons_merge_cons_neg _ _ _ hle]
      have hlt : a.size < b.size := by simpa using hle
      by_cases hb : b.size = size
      · -- No row of the first ranking is as large as the first one of the second.
        have hnone : (a :: rows).filter (fun r => r.size = size) = [] := by
          rw [List.filter_eq_nil_iff]
          intro r hr
          have hr' : r.size ≤ a.size := by
            rcases List.mem_cons.1 hr with rfl | hr
            · exact Nat.le_refl _
            · exact (List.pairwise_cons.1 h).1 r hr
          simp only [decide_eq_true_eq]
          omega
        rw [List.filter_cons_of_pos (by simpa using hb), ih h, hnone,
          List.filter_cons_of_pos (by simpa using hb)]
        rfl
      · rw [List.filter_cons_of_neg (by simpa using hb), ih h,
          List.filter_cons_of_neg (a := b) (by simpa using hb)]

/-- The ranking of two lists in a row is made from their rankings. -/
theorem ranked_append (rows rows' : List Row) :
    ranked (rows ++ rows') = merged (ranked rows) (ranked rows') := by
  refine eq_of_filter_eq (pairwise_ranked _)
    (pairwise_merged (pairwise_ranked rows) (pairwise_ranked rows')) fun size => ?_
  rw [filter_ranked, filter_merged (pairwise_ranked rows), filter_ranked, filter_ranked,
    List.filter_append]

theorem ranked_perm_ranked {rows rows' : List Row} (h : rows.Perm rows') :
    (ranked rows).Perm (ranked rows') :=
  (ranked_perm rows).trans (h.trans (ranked_perm rows').symm)

/-- The sizes in a ranking do not depend on the order of what is ranked. -/
theorem map_size_ranked {rows rows' : List Row} (h : rows.Perm rows') :
    (ranked rows).map size = (ranked rows').map size := by
  have hsorted (rows : List Row) : ((ranked rows).map size).SortedGE :=
    (List.pairwise_map.2 (pairwise_ranked rows)).sortedGE
  exact ((ranked_perm_ranked h).map size).eq_of_sortedGE (hsorted rows) (hsorted rows')

end Row

namespace Aggregation

/-- A run over class files that are not blocked has a report, and its methods are the rows of all
class files that can be read and decoded, sorted by size from the largest, stably. -/
theorem methods_ranked (clock : Clock) (profile : Profile) {es : List Entry}
    (h : ∀ e ∈ es, e.Contained) :
    ∃ r, (ofEntries clock profile es).result = .ok r ∧
      r.methods.Perm (es.flatMap (Entry.rows profile.codeAttribute)) ∧
      (r.methods.Pairwise fun a b => b.size ≤ a.size) ∧
      (∀ size, r.methods.filter (fun m => m.size = size) =
        (es.flatMap (Entry.rows profile.codeAttribute)).filter fun m => m.size = size) ∧
      r.stats.methodsFound = (es.flatMap (Entry.rows profile.codeAttribute)).length := by
  obtain ⟨r, hr, hc⟩ := exists_covers clock profile h
  refine ⟨r, hr, ?_, ?_, ?_, hc.methodsFound⟩
  · rw [hc.methods]
    exact Row.ranked_perm _
  · rw [hc.methods]
    exact Row.pairwise_ranked _
  · intro size
    rw [hc.methods]
    exact Row.filter_ranked size _

/-- The bytes of a class with a name of one letter in a package, whose two methods have three bytes
of bytecode and none. -/
def twoMethods (letter : UInt8) : ByteArray :=
  ⟨#[0xCA, 0xFE, 0xBA, 0xBE, 0, 0, 0, 52, 0, 6, 1, 0, 3, 0x61, 0x2F, letter, 7, 0, 1, 1, 0, 1, 0x6D,
    1, 0, 3, 0x28, 0x29, 0x56, 1, 0, 4, 0x43, 0x6F, 0x64, 0x65, 0, 0x21, 0, 2, 0, 0, 0, 0, 0, 0,
    0, 2, 0, 1, 0, 3, 0, 4, 0, 1, 0, 5, 0, 0, 0, 8, 0, 1, 0, 1, 0, 0, 0, 3, 0, 1, 0, 3, 0, 4, 0, 0,
    0, 0]⟩

/-- Two class files that can be decoded, with failures of three kinds around them. -/
def fiveEntries : List Entry := [
  ⟨"x.class", .error (.unreadable "Bad CRC-32")⟩, ⟨"a/C.class", .ok (twoMethods 0x43)⟩,
  ⟨"y.class", .ok ⟨#[0xCA, 0xFE]⟩⟩, ⟨"a/B.class", .ok (twoMethods 0x42)⟩,
  ⟨"z.class", .error (.failed "TRUNCATED" none "cut")⟩]

theorem rows_fiveEntries : fiveEntries.flatMap (Entry.rows Profile.standard.codeAttribute) =
    [⟨"a.C", "m", "()V", 3⟩, ⟨"a.C", "m", "()V", 0⟩, ⟨"a.B", "m", "()V", 3⟩,
      ⟨"a.B", "m", "()V", 0⟩] := by
  simp only [fiveEntries, List.flatMap_cons, List.flatMap_nil, Entry.rows, Entry.summary?,
    ClassFile.Summary.decode_eq]
  decide +kernel

theorem methods_ranked_fiveEntries :
    (∀ e ∈ fiveEntries, e.Contained) ∧
      ∃ r, (ofEntries .frozen .standard fiveEntries).result = .ok r ∧
        r.methods.Perm [⟨"a.C", "m", "()V", 3⟩, ⟨"a.C", "m", "()V", 0⟩, ⟨"a.B", "m", "()V", 3⟩,
          ⟨"a.B", "m", "()V", 0⟩] ∧
        (r.methods.Pairwise fun a b => b.size ≤ a.size) ∧
        r.methods.filter (fun m => m.size = 3) =
          [⟨"a.C", "m", "()V", 3⟩, ⟨"a.B", "m", "()V", 3⟩] ∧
        r.stats.methodsFound = 4 := by
  have h : ∀ e ∈ fiveEntries, e.Contained := by
    simp [fiveEntries, Entry.Contained]
  obtain ⟨r, hr, hperm, hsorted, hties, hfound⟩ := methods_ranked .frozen .standard h
  rw [rows_fiveEntries] at hperm hties hfound
  exact ⟨h, r, hr, hperm, hsorted, (hties 3).trans (by decide), hfound⟩

end Aggregation
end JarRank
