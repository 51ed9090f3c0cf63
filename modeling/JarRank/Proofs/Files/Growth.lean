import JarRank.Files.Tree
import JarRank.Proofs.Files.Path
import JarRank.Proofs.Outcome

/-!
# Growing trees

Making a directory with those that it is in adds directories to a tree and
changes nothing else, also where it has to stop on the way. A path that leads
somewhere leads to the same place in any tree that has at least the same
directories and refuses the same. Writing a file changes the file at one place,
and that place is the one that the path leads to afterwards.
-/
namespace JarRank.Files

namespace Place

/-- A place is reached from another one by names, at least one. -/
def Below (p dir : Place) : Prop := ∃ names, names ≠ [] ∧ p = ⟨dir.base, names ++ dir.names⟩

theorem below_child_child (dir : Place) (sub name : String) :
    ((dir.child sub).child name).Below dir := ⟨[name, sub], by simp, rfl⟩

end Place

namespace Tree

variable {t t' t'' : Tree} {p q place : Place} {node : Node}

/-- The content of the file at a place, if there is one. -/
def file? (t : Tree) (p : Place) : Option ByteArray :=
  match t.node? p with
  | some (.file content) => some content
  | _ => none

theorem lookup_filter_ne {nodes : List (Place × Node)} (h : q ≠ p) :
    (nodes.filter fun m => m.1 != p).lookup q = nodes.lookup q := by
  induction nodes with
  | nil => rfl
  | cons m nodes ih =>
      obtain ⟨key, node⟩ := m
      by_cases hm : key = p
      · have hq : (q == p) = false := beq_eq_false_iff_ne.2 h
        simp [hm, ih, List.lookup_cons, hq]
      · simp [hm, ih, List.lookup_cons]

theorem node?_put_self (h : p.names ≠ []) : (t.put p node).node? p = some node := by
  simp [node?, put, h]

theorem node?_put_of_ne (h : q ≠ p) : (t.put p node).node? q = t.node? q := by
  have hq : (q == p) = false := by simpa using h
  simp [node?, put, List.lookup_cons, hq, lookup_filter_ne h]

theorem names_ne_nil (h : t.node? p ≠ some .directory) : p.names ≠ [] := by
  intro hn
  simp [node?, hn] at h

theorem permit_congr (h : t'.refusals = t.refusals) (p : Place) (act : Act) :
    t'.permit p act = t.permit p act := by
  unfold permit
  rw [h]

/-- The later tree has what the earlier one has, and besides only directories. -/
structure AddsDirectories (t t' : Tree) : Prop where
  nodes : ∀ p, t'.node? p = t.node? p ∨ t.node? p = none ∧ t'.node? p = some .directory
  refusals : t'.refusals = t.refusals

/-- The later tree has the directories of the earlier one. -/
structure KeepsDirectories (t t' : Tree) : Prop where
  nodes : ∀ p, t.node? p = some .directory → t'.node? p = some .directory
  refusals : t'.refusals = t.refusals

namespace AddsDirectories

theorem refl (t : Tree) : t.AddsDirectories t := ⟨fun _ => .inl rfl, rfl⟩

theorem trans (h : t.AddsDirectories t') (h' : t'.AddsDirectories t'') : t.AddsDirectories t'' := by
  refine ⟨fun p => ?_, h'.refusals.trans h.refusals⟩
  rcases h.nodes p with hp | ⟨hn, hd⟩
  · rw [← hp]
    exact h'.nodes p
  · rcases h'.nodes p with hp' | ⟨hn', -⟩
    · exact .inr ⟨hn, hp'.trans hd⟩
    · rw [hd] at hn'
      cases hn'

theorem file?_eq (h : t.AddsDirectories t') (p : Place) : t'.file? p = t.file? p := by
  unfold file?
  rcases h.nodes p with hp | ⟨hn, hd⟩
  · rw [hp]
  · rw [hn, hd]

theorem keepsDirectories (h : t.AddsDirectories t') : t.KeepsDirectories t' := by
  refine ⟨fun p hp => ?_, h.refusals⟩
  rcases h.nodes p with he | ⟨hn, -⟩
  · exact he.trans hp
  · rw [hp] at hn
    cases hn

end AddsDirectories

theorem KeepsDirectories.refl (t : Tree) : t.KeepsDirectories t := ⟨fun _ h => h, rfl⟩

theorem KeepsDirectories.trans (h : t.KeepsDirectories t') (h' : t'.KeepsDirectories t'') :
    t.KeepsDirectories t'' :=
  ⟨fun p hp => h'.nodes p (h.nodes p hp), h'.refusals.trans h.refusals⟩

theorem addsDirectories_makeDirectory {path : Path} (h : t.makeDirectory path = .ok t') :
    t.AddsDirectories t' := by
  obtain ⟨place, -, h⟩ := Except.bind_eq_ok_iff.1 h
  cases hn : t.node? place with
  | some node =>
      rw [hn] at h
      cases h
  | none =>
      rw [hn] at h
      obtain ⟨⟨⟩, -, h⟩ := Except.bind_eq_ok_iff.1 h
      cases h
      refine ⟨fun p => ?_, rfl⟩
      by_cases hp : p = place
      · subst hp
        have hne : t.node? p ≠ some .directory := by simp [hn]
        exact .inr ⟨hn, node?_put_self (names_ne_nil hne)⟩
      · exact .inl (node?_put_of_ne hp)

theorem addsDirectories_ensureDirectory {path : Path} (h : t.ensureDirectory path = .ok t') :
    t.AddsDirectories t' := by
  unfold ensureDirectory at h
  split at h
  · next hm =>
    cases h
    exact addsDirectories_makeDirectory hm
  · split at h
    · cases h
      exact .refl t
    · cases h
    · cases h

/-- Directories are all that is made, and they stay where it cannot be gone on. -/
theorem addsDirectories_ensureDirectories (t : Tree) (root : Root) (names : List String) :
    (∀ t', t.ensureDirectories root names = .ok t' → t.AddsDirectories t') ∧
      ∀ halted, t.ensureDirectories root names = .error halted → t.AddsDirectories halted.tree := by
  induction names with
  | nil =>
      refine ⟨fun t' h => ?_, fun halted h => ?_⟩
      · exact addsDirectories_ensureDirectory (Except.mapError_eq_ok_iff.1 h)
      · obtain ⟨cause, -, rfl⟩ := Except.mapError_eq_error_iff.1 h
        exact .refl t
  | cons name outer ih =>
      unfold ensureDirectories
      dsimp only
      split
      · next he =>
        refine ⟨fun t' h => ?_, nofun⟩
        cases h
        exact addsDirectories_ensureDirectory he
      · refine ⟨fun t' h => ?_, fun halted h => ?_⟩
        · obtain ⟨mid, hmid, h⟩ := Except.bind_eq_ok_iff.1 h
          have hlast := addsDirectories_ensureDirectory (Except.mapError_eq_ok_iff.1 h)
          exact (ih.1 mid hmid).trans hlast
        · rcases Except.bind_eq_error_iff.1 h with h | ⟨mid, hmid, h⟩
          · exact ih.2 halted h
          · obtain ⟨cause, -, rfl⟩ := Except.mapError_eq_error_iff.1 h
            exact ih.1 mid hmid
      · refine ⟨nofun, fun halted h => ?_⟩
        cases h
        exact .refl t

/-- Making directories adds nothing else. -/
theorem addsDirectories_makeDirectories {path : Path} (h : t.makeDirectories path = .ok t') :
    t.AddsDirectories t' := (addsDirectories_ensureDirectories t path.root path.parts.reverse).1 t' h

theorem addsDirectories_of_halted {path : Path} {halted : Halted}
    (h : t.makeDirectories path = .error halted) : t.AddsDirectories halted.tree :=
  (addsDirectories_ensureDirectories t path.root path.parts.reverse).2 halted h

/-- A name may be followed from a place. -/
structure Opens (t : Tree) (p : Place) (name : String) : Prop where
  directory : t.node? p = some .directory
  permitted : t.permit p .enter = .ok ()
  short : name.utf8ByteSize ≤ longestName

theorem follow_cons_eq_ok_iff {name : String} {names : List String} :
    t.follow p (name :: names) = .ok q ↔ t.Opens p name ∧
        t.follow (if name = ".." then p.parent else p.child name) names = .ok q := by
  rw [follow]
  constructor
  · intro h
    split at h
    · cases h
    · cases h
    · next hd =>
      split at h
      · cases h
      · next hp =>
        split at h
        · cases h
        · next hs => exact ⟨⟨hd, hp, Nat.not_lt.1 hs⟩, h⟩
  · intro h
    obtain ⟨hopens, hf⟩ := h
    simp only [hopens.directory, hopens.permitted, if_neg (Nat.not_lt.2 hopens.short), hf]

theorem follow_append_eq_ok_iff {names names' : List String} :
    t.follow p (names ++ names') = .ok q ↔
      ∃ mid, t.follow p names = .ok mid ∧ t.follow mid names' = .ok q := by
  induction names generalizing p with
  | nil => simp [follow]
  | cons name names ih =>
      rw [List.cons_append, follow_cons_eq_ok_iff, ih]
      simp only [follow_cons_eq_ok_iff, and_assoc, exists_and_left]

theorem KeepsDirectories.follow (h : t.KeepsDirectories t') {names : List String}
    (hf : t.follow p names = .ok q) : t'.follow p names = .ok q := by
  induction names generalizing p with
  | nil => exact hf
  | cons name names ih =>
      obtain ⟨⟨hd, hp, hs⟩, hf⟩ := follow_cons_eq_ok_iff.1 hf
      have hp' : t'.permit p .enter = .ok () := (permit_congr h.refusals p .enter).trans hp
      exact follow_cons_eq_ok_iff.2 ⟨⟨h.nodes p hd, hp', hs⟩, ih hf⟩

/-- A path leads to what following its parts leads to, if it has no NUL and is not too long. -/
theorem resolve_eq_ok_iff {path : Path} : t.resolve path = .ok place ↔
    (∀ name ∈ path.parts, '\x00' ∉ name.toList) ∧ path.toString.utf8ByteSize ≤ longestPath ∧
      t.follow (if path.isAbsolute then ⟨.root, []⟩ else .working) path.parts = .ok place := by
  unfold resolve
  have hnul : (path.parts.any fun name => decide ('\x00' ∈ name.toList)) = true ↔
      ¬ ∀ name ∈ path.parts, '\x00' ∉ name.toList := by simp
  split
  · next h => exact ⟨nofun, fun hall => (hnul.1 h hall.1).elim⟩
  · next h =>
    have hall := not_not.1 (mt hnul.2 h)
    split
    · next hlong => exact ⟨nofun, fun hshort => (Nat.not_lt.2 hshort.2.1 hlong).elim⟩
    · next hlong => exact ⟨fun hf => ⟨hall, Nat.not_lt.1 hlong, hf⟩, fun hf => hf.2.2⟩

theorem KeepsDirectories.resolve (h : t.KeepsDirectories t') {path : Path}
    (hr : t.resolve path = .ok place) : t'.resolve path = .ok place := by
  obtain ⟨hnul, hshort, hf⟩ := resolve_eq_ok_iff.1 hr
  exact resolve_eq_ok_iff.2 ⟨hnul, hshort, h.follow hf⟩

/-- A path that goes on from another one leads on from where that one leads. -/
theorem exists_of_resolve_append {path : Path} {names : List String}
    (h : t.resolve ⟨path.root, path.parts ++ names⟩ = .ok place) :
    ∃ mid, t.resolve path = .ok mid ∧ t.follow mid names = .ok place := by
  obtain ⟨hnul, hshort, hf⟩ := resolve_eq_ok_iff.1 h
  obtain ⟨mid, hmid, hf⟩ := follow_append_eq_ok_iff.1 hf
  have hfront : path.toString.utf8ByteSize ≤ longestPath := by
    rcases path.size_le_append names with hdot | hle
    · exact hdot ▸ by decide
    · exact Nat.le_trans hle hshort
  exact ⟨mid, resolve_eq_ok_iff.2 ⟨fun name hn => hnul name (List.mem_append_left names hn),
    hfront, hmid⟩, hf⟩

/-- A file may be put at a place: in place of one there, or as a new one in its directory. -/
inductive Accepts (t : Tree) (p : Place) : Prop
  | replaced {content : ByteArray} : t.node? p = some (.file content) →
      t.permit p .change = .ok () → Accepts t p
  | created : t.node? p = none → t.permit p.parent .change = .ok () → Accepts t p

theorem Accepts.ne_directory (h : t.Accepts p) : t.node? p ≠ some .directory := by
  cases h with
  | replaced hn _ => simp [hn]
  | created hn _ => simp [hn]

theorem write_eq_ok_iff {path : Path} {content : ByteArray} :
    t.write path content = .ok t' ↔
      ∃ place, t.resolve path = .ok place ∧ t.Accepts place ∧ t' = t.put place (.file content) := by
  unfold write
  simp only [Except.bind_eq_ok_iff, Except.mapError_eq_ok_iff]
  refine exists_congr fun place => and_congr_right fun _ => ?_
  cases hn : t.node? place with
  | none =>
      simp only [Except.bind_eq_ok_iff, Except.mapError_eq_ok_iff]
      constructor
      · intro h
        obtain ⟨⟨⟩, hp, h⟩ := h
        exact ⟨.created hn hp, (Except.ok.inj h).symm⟩
      · intro h
        obtain ⟨haccepts, rfl⟩ := h
        cases haccepts with
        | replaced hf _ =>
            rw [hn] at hf
            cases hf
        | created _ hp => exact ⟨(), hp, rfl⟩
  | some node =>
      cases node with
      | directory => exact ⟨nofun, fun h => (h.1.ne_directory hn).elim⟩
      | file old =>
          simp only [Except.bind_eq_ok_iff, Except.mapError_eq_ok_iff]
          constructor
          · intro h
            obtain ⟨⟨⟩, hp, h⟩ := h
            exact ⟨.replaced hn hp, (Except.ok.inj h).symm⟩
          · intro h
            obtain ⟨haccepts, rfl⟩ := h
            cases haccepts with
            | replaced _ hp => exact ⟨(), hp, rfl⟩
            | created hf _ =>
                rw [hn] at hf
                cases hf

/-- Whether and why not a file can be written is no matter of its content. -/
theorem write_eq_error_of_content {path : Path} {content content' : ByteArray} {fault : FileFault}
    (h : t.write path content = .error fault) : t.write path content' = .error fault := by
  have hsame : (t.write path content).map (fun _ => ()) = (t.write path content').map fun _ => () := by
    unfold write
    cases t.resolve path with
    | error cause => rfl
    | ok place =>
        simp only [Except.mapError_ok, bind, Except.bind]
        cases t.node? place with
        | none => cases t.permit place.parent .change <;> rfl
        | some node =>
            cases node with
            | directory => rfl
            | file old => cases t.permit place .change <;> rfl
  exact Except.error_of_map_eq hsame h

theorem keepsDirectories_write {path : Path} {content : ByteArray}
    (h : t.write path content = .ok t') : t.KeepsDirectories t' := by
  obtain ⟨place, -, haccepts, rfl⟩ := write_eq_ok_iff.1 h
  refine ⟨fun p hp => ?_, rfl⟩
  rw [node?_put_of_ne, hp]
  rintro rfl
  exact haccepts.ne_directory hp

/-- What is written is written to the place that the path leads to, and nowhere else. -/
theorem exists_of_write {path : Path} {content : ByteArray} (h : t.write path content = .ok t') :
    ∃ place, t'.resolve path = .ok place ∧ t'.file? place = some content ∧
      ∀ q, q ≠ place → t'.file? q = t.file? q := by
  have hkeeps := keepsDirectories_write h
  obtain ⟨place, hr, haccepts, rfl⟩ := write_eq_ok_iff.1 h
  refine ⟨place, hkeeps.resolve hr, ?_, fun q hq => ?_⟩
  · rw [file?, node?_put_self (names_ne_nil haccepts.ne_directory)]
  · rw [file?, file?, node?_put_of_ne hq]

/-- Whatever a place is in is a directory. -/
def Holds (t : Tree) (p : Place) : Prop :=
  ∀ name names, name :: names <:+ p.names → t.node? ⟨p.base, names⟩ = some .directory

theorem node?_of_names_eq_nil (h : p.names = []) : t.node? p = some .directory := by
  simp [node?, h]

namespace Holds

theorem of_names_eq_nil (h : p.names = []) : t.Holds p := by
  intro name names hs
  simp [h] at hs

theorem child (h : t.Holds p) (hd : t.node? p = some .directory) (name : String) :
    t.Holds (p.child name) := by
  intro first names hs
  rcases List.suffix_cons_iff.1 hs with he | hs
  · obtain ⟨-, rfl⟩ := List.cons.inj he
    exact hd
  · exact h first names hs

theorem parent (h : t.Holds p) : t.Holds p.parent ∧ t.node? p.parent = some .directory := by
  obtain ⟨base, names⟩ := p
  cases names with
  | nil =>
      have hn : (Place.parent ⟨base, []⟩).names = [] := by cases base <;> rfl
      exact ⟨of_names_eq_nil hn, node?_of_names_eq_nil hn⟩
  | cons name names =>
      refine ⟨fun first rest hs => ?_, h name names List.suffix_rfl⟩
      exact h first rest (hs.trans (List.suffix_cons name names))

theorem follow {names : List String} (h : t.Holds p) (hf : t.follow p names = .ok q) :
    t.Holds q := by
  induction names generalizing p with
  | nil =>
      cases hf
      exact h
  | cons name names ih =>
      obtain ⟨hopens, hf⟩ := follow_cons_eq_ok_iff.1 hf
      refine ih ?_ hf
      split
      · exact h.parent.1
      · exact h.child hopens.directory name

end Holds

/-- What a path leads to is a directory if the path has no parts or ends in two dots. -/
theorem node?_of_resolve_dots {path : Path} (hr : t.resolve path = .ok place)
    (h : path.parts = [] ∨ path.name = "..") : t.node? place = some .directory := by
  have hbase : (if path.isAbsolute then (⟨.root, []⟩ : Place) else .working).names = [] := by
    split <;> rfl
  obtain ⟨-, -, hf⟩ := resolve_eq_ok_iff.1 hr
  rcases List.eq_nil_or_concat path.parts with hn | ⟨front, last, hparts⟩
  · rw [hn] at hf
    cases hf
    exact node?_of_names_eq_nil hbase
  · have hlast : last = ".." := by simpa [hparts, Path.name] using h
    rw [hparts, List.concat_eq_append, follow_append_eq_ok_iff] at hf
    -- The last step goes up from a place that has been reached through directories alone.
    obtain ⟨mid, hmid, hf⟩ := hf
    obtain ⟨-, hf⟩ := follow_cons_eq_ok_iff.1 hf
    rw [if_pos hlast] at hf
    cases hf
    exact ((Holds.of_names_eq_nil hbase).follow hmid).parent.2

end Tree
end JarRank.Files
