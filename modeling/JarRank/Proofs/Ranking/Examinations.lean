import JarRank.Proofs.Outcome
import JarRank.Ranking.Aggregation

/-!
# What each class file gives by itself

A class file that can be read and decoded has a summary; any other one has a
failure. Both are told from its own content. The loop over class files gathers what
each of them gives by itself, in their order, up to the first one that is blocked. So
a run over class files none of which is blocked yields a report that is put together
from that, and a run over class files of which one is blocked yields none.
-/
namespace JarRank

variable {code : String} {profile : Profile} {clock : Clock}

/-- The row of a method: the name of its class with a dot in the place of every slash, its own
name, its descriptor and its size. -/
def Row.ofMethod (className : String) (m : ClassFile.Method) : Row where
  className := String.ofList (className.toList.map fun c => if c = '/' then '.' else c)
  methodName := m.name
  descriptor := m.descriptor
  size := m.size

namespace Entry

/-- Reading the class file meets nothing that is a matter of more than this class file. -/
def Contained (e : Entry) : Prop := ∀ obstacle, e.content ≠ .error (.blocked obstacle)

/-- The summary of a class file that can be read and decoded. -/
def summary? (code : String) (e : Entry) : Option ClassFile.Summary :=
  match e.content with
  | .ok bytes => (ClassFile.Summary.decode bytes.toList code).toOption
  | .error _ => none

/-- The rows of a class file, in its own order. -/
def rows (code : String) (e : Entry) : List Row :=
  match e.summary? code with
  | some s => s.methods.map (Row.ofMethod s.name)
  | none => []

def major? (code : String) (e : Entry) : Option Int :=
  (e.summary? code).map fun s => (s.major : Int)

/-- The failure of a class file that cannot be read or decoded. -/
def failure? (code : String) (e : Entry) : Option Failure :=
  match e.content with
  | .ok bytes =>
      match ClassFile.Summary.decode bytes.toList code with
      | .ok _ => none
      | .error fault => some (.ofFault e.path fault)
  | .error (.unreadable reason) => some (.unreadable e.path reason)
  | .error (.failed kind state message) => some ⟨e.path, kind, state, message⟩
  | .error (.blocked _) => none

theorem rows_of_decoded {e : Entry} {bytes : ByteArray} {s : ClassFile.Summary}
    (hc : e.content = .ok bytes) (hd : ClassFile.Summary.decode bytes.toList code = .ok s) :
    e.rows code = s.methods.map (Row.ofMethod s.name) := by
  simp [rows, summary?, hc, hd, Except.toOption]

theorem failure?_of_decoded {e : Entry} {bytes : ByteArray} {s : ClassFile.Summary}
    (hc : e.content = .ok bytes) (hd : ClassFile.Summary.decode bytes.toList code = .ok s) :
    e.failure? code = none := by
  simp [failure?, hc, hd]

theorem examine_blocked {e : Entry} {obstacle : Zip.Obstacle}
    (h : e.content = .error (.blocked obstacle)) : e.examine code = .error obstacle := by
  simp only [examine, h]

theorem examine_eq_error_iff {e : Entry} {obstacle : Zip.Obstacle} :
    e.examine code = .error obstacle ↔ e.content = .error (.blocked obstacle) := by
  constructor
  · intro h
    unfold examine at h
    cases hc : e.content with
    | ok bytes =>
        rw [hc] at h
        cases h
    | error u =>
        rw [hc] at h
        cases u <;> cases h
        rfl
  · exact examine_blocked

theorem contained_of_examine {e : Entry} {x : Examination} (h : e.examine code = .ok x) :
    e.Contained := by
  intro obstacle hc
  rw [examine_blocked hc] at h
  cases h

theorem exists_examine (code : String) {e : Entry} (h : e.Contained) : ∃ x, e.examine code = .ok x := by
  unfold examine
  cases hc : e.content with
  | ok bytes => exact ⟨_, rfl⟩
  | error u =>
      cases u with
      | unreadable reason => exact ⟨_, rfl⟩
      | failed kind state message => exact ⟨_, rfl⟩
      | blocked obstacle => exact (h obstacle hc).elim

/-- A class file that is examined either fails, or has a summary. -/
theorem of_examine {e : Entry} {x : Examination} (h : e.examine code = .ok x) :
    (∃ f, x.result = .error f ∧ e.failure? code = some f ∧ e.summary? code = none) ∨
      ∃ s, x.result = .ok s ∧ e.failure? code = none ∧ e.summary? code = some s := by
  unfold examine at h
  cases hc : e.content with
  | error u =>
      rw [hc] at h
      cases u with
      | blocked obstacle => cases h
      | unreadable reason =>
          cases h
          exact .inl ⟨_, rfl, by rw [failure?, hc], by rw [summary?, hc]⟩
      | failed kind state message =>
          cases h
          exact .inl ⟨_, rfl, by rw [failure?, hc], by rw [summary?, hc]⟩
  | ok bytes =>
      rw [hc] at h
      cases h
      cases hd : ClassFile.Summary.decode bytes.toList code with
      | error fault =>
          refine .inl ⟨.ofFault e.path fault, rfl, ?_, ?_⟩
          · simp only [failure?, hc, hd]
          · simp only [summary?, hc, hd, Except.toOption]
      | ok s =>
          refine .inr ⟨s, rfl, ?_, ?_⟩
          · simp only [failure?, hc, hd]
          · simp only [summary?, hc, hd, Except.toOption]

end Entry

namespace Gathering

variable {es fs : List Entry} {g g' g'' : Gathering}

/-- From one state of the loop to another what some class files give has been gathered. -/
structure Gathers (code : String) (es : List Entry) (g g' : Gathering) : Prop where
  rows : g'.rows.toList = g.rows.toList ++ es.flatMap (Entry.rows code)
  warnings : g'.warnings.toList =
    g.warnings.toList ++ (es.filterMap (Entry.failure? code)).map Failure.warning
  failures : g'.failures.toList = g.failures.toList ++ es.filterMap (Entry.failure? code)
  versions : g'.versions = (es.filterMap (Entry.major? code)).foldl Census.add g.versions

theorem Gathers.nil (g : Gathering) : Gathers code [] g g where
  rows := by simp
  warnings := by simp
  failures := by simp
  versions := rfl

theorem Gathers.append (h : Gathers code es g g') (k : Gathers code fs g' g'') :
    Gathers code (es ++ fs) g g'' where
  rows := by rw [k.rows, h.rows, List.flatMap_append, List.append_assoc]
  warnings := by
    rw [k.warnings, h.warnings, List.filterMap_append, List.map_append, List.append_assoc]
  failures := by rw [k.failures, h.failures, List.filterMap_append, List.append_assoc]
  versions := by rw [k.versions, h.versions, List.filterMap_append, List.foldl_append]

/-- The state behind a class file that was examined, in which one more call has been made. -/
def behind (g : Gathering) (e : Entry) (x : Examination) (processed total : Nat) : Gathering :=
  (match x.result with
    | .error f => g.fail f
    | .ok s => g.succeed e.path s).call processed total

theorem loop_of_examine {e : Entry} {x : Examination} (h : e.examine code = .ok x)
    (total processed : Nat) (es : List Entry) (g : Gathering) :
    loop code total processed (e :: es) g =
      loop code total (processed + 1) es (g.behind e x processed total) := by
  rw [loop, h]
  rfl

theorem loop_of_blocked {e : Entry} {obstacle : Zip.Obstacle}
    (h : e.examine code = .error obstacle) (total processed : Nat) (es : List Entry) (g : Gathering) :
    loop code total processed (e :: es) g = (g, some obstacle) := by
  rw [loop, h]

/-- One round of the loop gathers what one class file gives. -/
theorem gathers_behind {e : Entry} {x : Examination} (h : e.examine code = .ok x)
    (processed total : Nat) (g : Gathering) : Gathers code [e] g (g.behind e x processed total) := by
  unfold behind
  rcases Entry.of_examine h with ⟨f, hx, hf, hs⟩ | ⟨s, hx, hf, hs⟩
  · rw [hx]
    constructor <;> simp [fail, call, Entry.rows, Entry.major?, hf, hs]
  · rw [hx]
    constructor <;> simp [succeed, call, Entry.rows, Entry.major?, hf, hs]
    rfl

/-- The loop ends behind all class files or at the first one that is blocked, and has gathered what
the class files give that it has passed. -/
theorem loop_gathers (code : String) (total processed : Nat) (es : List Entry) (g : Gathering) :
    ((loop code total processed es g).2 = none ∧ (∀ e ∈ es, e.Contained) ∧
      Gathers code es g (loop code total processed es g).1) ∨
    ∃ front e back obstacle, es = front ++ e :: back ∧ (∀ d ∈ front, d.Contained) ∧
      e.content = .error (.blocked obstacle) ∧
      (loop code total processed es g).2 = some obstacle ∧
      Gathers code front g (loop code total processed es g).1 := by
  induction es generalizing processed g with
  | nil => exact .inl ⟨rfl, nofun, .nil g⟩
  | cons e es ih =>
      cases hx : e.examine code with
      | error obstacle =>
          rw [loop_of_blocked hx]
          exact .inr ⟨[], e, es, obstacle, rfl, nofun, Entry.examine_eq_error_iff.1 hx, rfl, .nil g⟩
      | ok x =>
          have hfirst := gathers_behind hx processed total g
          have hcontained := Entry.contained_of_examine hx
          rw [loop_of_examine hx]
          rcases ih (processed + 1) (g.behind e x processed total) with
            ⟨hend, hes, hrest⟩ | ⟨front, d, back, obstacle, rfl, hfront, hd, hend, hrest⟩
          · exact .inl ⟨hend, List.forall_mem_cons.2 ⟨hcontained, hes⟩, hfirst.append hrest⟩
          · exact .inr ⟨e :: front, d, back, obstacle, rfl,
              List.forall_mem_cons.2 ⟨hcontained, hfront⟩, hd, hend, hfirst.append hrest⟩

end Gathering

/-- The report that is put together from what each class file gives by itself. -/
def Report.ofEntries (clock : Clock) (profile : Profile) (es : List Entry) : Report :=
  let rows := es.flatMap (Entry.rows profile.codeAttribute)
  let failures := es.filterMap (Entry.failure? profile.codeAttribute)
  let reasons := Reason.ofCounts es.length failures.length
  { profileId := profile.id
    verdict := (Verdict.ofReasons reasons).label
    reasons := reasons.map Reason.label
    methods := Row.ranked rows
    stats := ⟨es.length, rows.length, clock.elapsed⟩
    warnings := if es = [] then [noClassFilesWarning] else failures.map Failure.warning
    failures
    classVersions := Census.ofList (es.filterMap (Entry.major? profile.codeAttribute))
    timestamp := clock.now }

/-- What a report says of class files is what each of them gives by itself. -/
structure Report.Covers (profile : Profile) (es : List Entry) (r : Report) : Prop where
  methods : r.methods = Row.ranked (es.flatMap (Entry.rows profile.codeAttribute))
  methodsFound :
    r.stats.methodsFound = (es.flatMap (Entry.rows profile.codeAttribute)).length
  entriesScanned : r.stats.entriesScanned = es.length
  failures : r.failures = es.filterMap (Entry.failure? profile.codeAttribute)
  warnings : r.warnings =
    if es = [] then [Report.noClassFilesWarning] else r.failures.map Failure.warning
  classVersions :
    r.classVersions = Census.ofList (es.filterMap (Entry.major? profile.codeAttribute))

theorem Report.covers_ofEntries (clock : Clock) (profile : Profile) (es : List Entry) :
    (Report.ofEntries clock profile es).Covers profile es := ⟨rfl, rfl, rfl, rfl, rfl, rfl⟩

/-- What the loop has gathered from the start makes the report on the class files. -/
theorem Report.ofGathering_eq {es : List Entry} {g : Gathering} (hes : es ≠ [])
    (h : Gathering.Gathers profile.codeAttribute es {} g) :
    ofGathering clock profile es.length g = Report.ofEntries clock profile es := by
  have hrows : g.rows.toList = es.flatMap (Entry.rows profile.codeAttribute) := by simpa using h.rows
  have hfailures : g.failures.toList = es.filterMap (Entry.failure? profile.codeAttribute) := by
    simpa using h.failures
  have hwarnings : g.warnings.toList = g.failures.toList.map Failure.warning := by
    rw [hfailures]
    simpa using h.warnings
  simp only [ofGathering, Report.ofEntries, ← Array.length_toList, hrows, hwarnings, hfailures,
    h.versions, if_neg hes]
  rfl

namespace Aggregation

variable {es : List Entry}

/-- A run over class files none of which is blocked has the report on them. -/
theorem result_of_contained (clock : Clock) (profile : Profile) (h : ∀ e ∈ es, e.Contained) :
    (ofEntries clock profile es).result = .ok (.ofEntries clock profile es) := by
  cases es with
  | nil =>
      have hempty : Report.vacant clock profile = .ofEntries clock profile [] := by
        simp [Report.vacant, Report.ofEntries, Row.ranked, Census.ofList]
      exact congrArg Except.ok hempty
  | cons e es =>
      rcases Gathering.loop_gathers profile.codeAttribute (e :: es).length 1 (e :: es) {} with
        ⟨hend, -, hgathers⟩ | ⟨front, d, back, obstacle, hsplit, -, hd, -⟩
      · simp only [ofEntries, List.isEmpty_cons, Bool.false_eq_true, if_false, hend,
          Report.ofGathering_eq (List.cons_ne_nil e es) hgathers]
      · have hmem : d ∈ e :: es := hsplit ▸ List.mem_append_right front List.mem_cons_self
        exact (h d hmem obstacle hd).elim

/-- There is no report exactly if a class file is blocked. -/
theorem result_eq_error_iff (clock : Clock) (profile : Profile) :
    (∃ obstacle, (ofEntries clock profile es).result = .error obstacle) ↔
      ∃ e ∈ es, ¬ e.Contained := by
  constructor
  · intro h
    obtain ⟨obstacle, he⟩ := h
    by_contra hn
    rw [result_of_contained clock profile fun e he => by
      by_contra hc
      exact hn ⟨e, he, hc⟩] at he
    cases he
  · intro h
    obtain ⟨e, he, hc⟩ := h
    have hempty : es.isEmpty = false := by
      cases es with
      | nil => cases he
      | cons => rfl
    rcases Gathering.loop_gathers profile.codeAttribute es.length 1 es {} with
      ⟨-, hall, -⟩ | ⟨_, _, _, obstacle, -, -, -, hend, -⟩
    · exact (hc (hall e he)).elim
    · refine ⟨obstacle, ?_⟩
      simp only [ofEntries, hempty, Bool.false_eq_true, if_false, hend]

theorem contained_of_result {r : Report} (h : (ofEntries clock profile es).result = .ok r) :
    ∀ e ∈ es, e.Contained := by
  by_contra hn
  obtain ⟨obstacle, he⟩ := (result_eq_error_iff clock profile).2 (by simpa using hn)
  rw [h] at he
  cases he

/-- Every report on class files is the one that is put together from what they give. -/
theorem eq_of_result {r : Report} (h : (ofEntries clock profile es).result = .ok r) :
    r = .ofEntries clock profile es := by
  rw [result_of_contained clock profile (contained_of_result h)] at h
  exact (Except.ok.inj h).symm

/-- A run over class files that are not blocked has a report, which covers them. -/
theorem exists_covers (clock : Clock) (profile : Profile) (h : ∀ e ∈ es, e.Contained) :
    ∃ r, (ofEntries clock profile es).result = .ok r ∧ r.Covers profile es :=
  ⟨_, result_of_contained clock profile h, Report.covers_ofEntries clock profile es⟩

/-- Every report covers the class files that it is about. -/
theorem covers_of_result {r : Report} (h : (ofEntries clock profile es).result = .ok r) :
    r.Covers profile es := by
  rw [eq_of_result h]
  exact Report.covers_ofEntries clock profile es

end Aggregation
end JarRank
