/-!
# Counts by number

How often each number occurs: pairs of a number and a count, ascending by the
numbers, so that equal counts are equal values.
-/
namespace JarRank

/-- Counts by number. -/
structure Census where
  /-- Each number that is counted, with its count. -/
  entries : List (Int × Int)
  ascending : entries.Pairwise fun a b => a.1 < b.1
  deriving DecidableEq, Repr

namespace Census

def empty : Census := ⟨[], .nil⟩

/-- Changes the count of a number in a list of counts; `f` sees the earlier one. -/
def alter (n : Int) (f : Option Int → Int) : List (Int × Int) → List (Int × Int)
  | [] => [(n, f none)]
  | (m, k) :: rest =>
      if n < m then (n, f none) :: (m, k) :: rest
      else if n = m then (n, f (some k)) :: rest
      else (m, k) :: alter n f rest

theorem mem_alter {n : Int} {f : Option Int → Int} {es : List (Int × Int)} {e : Int × Int}
    (h : e ∈ alter n f es) : e.1 = n ∨ e ∈ es := by
  induction es with
  | nil => simp_all [alter]
  | cons d es ih =>
      obtain ⟨m, k⟩ := d
      simp only [alter] at h
      split at h
      · rcases List.mem_cons.1 h with rfl | h
        · exact .inl rfl
        · exact .inr h
      · split at h
        · rcases List.mem_cons.1 h with rfl | h
          · exact .inl rfl
          · exact .inr (List.mem_cons_of_mem _ h)
        · rcases List.mem_cons.1 h with rfl | h
          · exact .inr List.mem_cons_self
          · exact (ih h).imp id (List.mem_cons_of_mem _)

theorem ascending_alter {n : Int} {f : Option Int → Int} {es : List (Int × Int)}
    (h : es.Pairwise fun a b => a.1 < b.1) : (alter n f es).Pairwise fun a b => a.1 < b.1 := by
  induction es with
  | nil => simp [alter]
  | cons d es ih =>
      obtain ⟨m, k⟩ := d
      obtain ⟨hm, hes⟩ := List.pairwise_cons.1 h
      simp only [alter]
      split
      · refine List.pairwise_cons.2 ⟨fun e he => ?_, h⟩
        rcases List.mem_cons.1 he with rfl | he
        · assumption
        · have := hm e he
          simp only at this ⊢
          omega
      · split
        · subst n
          exact List.pairwise_cons.2 ⟨hm, hes⟩
        · refine List.pairwise_cons.2 ⟨fun e he => ?_, ih hes⟩
          rcases mem_alter he with he | he
          · simp only
            omega
          · exact hm e he

/-- Gives a number a count, in place of an earlier one. -/
def put (c : Census) (n k : Int) : Census :=
  ⟨alter n (fun _ => k) c.entries, ascending_alter c.ascending⟩

def add (c : Census) (n : Int) : Census :=
  ⟨alter n (fun k => k.getD 0 + 1) c.entries, ascending_alter c.ascending⟩

def ofList (ns : List Int) : Census := ns.foldl add empty

end Census
end JarRank
