import JarRank.Proofs.Ranking.Order

/-!
# Failing class files among others

Class files that fail may stand anywhere among others. The report on all of them
has the same methods and the same counts by version as the report without them,
and it says of each failing class file what a report on that class file alone
says. Only the number of class files that were scanned counts them.

There is one warning for each failure. A report on no class files at all has one
warning too, though nothing has failed.
-/
namespace JarRank

variable {code : String} {profile : Profile}

namespace Entry

/-- Reading gives bytes, or the bytes cannot be extracted. -/
def Ordinary (e : Entry) : Prop :=
  (∃ bytes, e.content = .ok bytes) ∨ ∃ reason, e.content = .error (.unreadable reason)

/-- How a class file fails, and what is to be recorded of it. -/
inductive FailsWith (code : String) (e : Entry) : Failure → Prop
  | unreadable {reason : String} : e.content = .error (.unreadable reason) →
      FailsWith code e ⟨e.path, "ENTRY_UNREADABLE", none,
        "Cannot read archive entry " ++ e.path ++ ": " ++ reason⟩
  | undecodable {bytes : ByteArray} {e' : ClassFile.StagedFault} : e.content = .ok bytes →
      ClassFile.Summary.decode bytes.toList code = .error e' →
        FailsWith code e ⟨e.path, e'.fault.kind, some e'.stage.label, e'.fault.message⟩

theorem Ordinary.contained {e : Entry} (h : e.Ordinary) : e.Contained := by
  intro obstacle hb
  rcases h with ⟨bytes, hc⟩ | ⟨reason, hc⟩ <;> simp [hc] at hb

theorem FailsWith.ordinary {e : Entry} {f : Failure} (h : e.FailsWith code f) : e.Ordinary := by
  cases h with
  | unreadable hc => exact .inr ⟨_, hc⟩
  | undecodable hc _ => exact .inl ⟨_, hc⟩

theorem FailsWith.summary?_eq {e : Entry} {f : Failure} (h : e.FailsWith code f) :
    e.summary? code = none := by
  cases h with
  | unreadable hc => simp [summary?, hc]
  | undecodable hc hd => simp [summary?, hc, hd, Except.toOption]

theorem FailsWith.failure?_eq {e : Entry} {f : Failure} (h : e.FailsWith code f) :
    e.failure? code = some f := by
  cases h with
  | unreadable hc => simp [failure?, hc, Failure.unreadable]
  | undecodable hc hd => simp [failure?, hc, hd, Failure.ofFault]

theorem Ordinary.summary_or_fails {e : Entry} (h : e.Ordinary) (code : String) :
    ((e.summary? code).isSome ∧ e.failure? code = none) ∨ ∃ f, e.FailsWith code f := by
  rcases h with ⟨bytes, hc⟩ | ⟨reason, hc⟩
  · cases hd : ClassFile.Summary.decode bytes.toList code with
    | ok s =>
        refine .inl ⟨?_, ?_⟩
        · simp [summary?, hc, hd, Except.toOption]
        · exact failure?_of_decoded hc hd
    | error e' => exact .inr ⟨_, .undecodable hc hd⟩
  · exact .inr ⟨_, .unreadable hc⟩

theorem Ordinary.failure?_eq_some_iff {e : Entry} (h : e.Ordinary) {f : Failure} :
    e.failure? code = some f ↔ e.FailsWith code f := by
  refine ⟨fun hf => ?_, FailsWith.failure?_eq⟩
  rcases h.summary_or_fails code with ⟨-, hn⟩ | ⟨f', hf'⟩
  · rw [hn] at hf
    cases hf
  · rw [hf'.failure?_eq] at hf
    cases hf
    exact hf'

/-- No section is named where the class file could not be read, and only there. -/
theorem FailsWith.state_eq_none_iff {e : Entry} {f : Failure} (h : e.FailsWith code f) :
    f.state = none ↔ f.kind = "ENTRY_UNREADABLE" := by
  cases h with
  | unreadable _ => simp
  | @undecodable _ e' _ _ =>
      have hk : e'.fault.kind ≠ "ENTRY_UNREADABLE" := by
        cases e'.fault <;> simp [ClassFile.Fault.kind]
      simp [hk]

/-- The failing class files and their failures go together, one to one and in one order. -/
theorem forall₂_failsWith (code : String) {es : List Entry} (h : ∀ e ∈ es, e.Ordinary) :
    List.Forall₂ (fun e f => e.FailsWith code f) (es.filter fun e => (e.summary? code).isNone)
      (es.filterMap (failure? code)) := by
  induction es with
  | nil => exact .nil
  | cons e es ih =>
      have hrest := ih fun d hd => h d (List.mem_cons_of_mem e hd)
      rcases (h e List.mem_cons_self).summary_or_fails code with ⟨hs, hf⟩ | ⟨f, hf⟩
      · have hn : (e.summary? code).isNone = false := by
          rw [← Option.not_isSome, hs]
          rfl
        rw [List.filter_cons_of_neg (by simp [hn]), List.filterMap_cons_none hf]
        exact hrest
      · rw [List.filter_cons_of_pos (by simp [hf.summary?_eq]),
          List.filterMap_cons_some hf.failure?_eq]
        exact .cons hf hrest

end Entry

/-- The second list is the first one with failing class files put in between. -/
inductive Interleaves (code : String) : List Entry → List Entry → Prop
  | nil : Interleaves code [] []
  | keep (e : Entry) {es mixed : List Entry} : Interleaves code es mixed →
      Interleaves code (e :: es) (e :: mixed)
  | insert {e : Entry} {f : Failure} {es mixed : List Entry} : e.FailsWith code f →
      Interleaves code es mixed → Interleaves code es (e :: mixed)

namespace Interleaves

variable {es mixed : List Entry}

theorem ordinary (h : Interleaves code es mixed) (hes : ∀ e ∈ es, e.Ordinary) :
    ∀ e ∈ mixed, e.Ordinary := by
  induction h with
  | nil => exact hes
  | keep e _ ih =>
      rw [List.forall_mem_cons] at hes ⊢
      exact ⟨hes.1, ih hes.2⟩
  | insert hf _ ih =>
      rw [List.forall_mem_cons]
      exact ⟨hf.ordinary, ih hes⟩

theorem flatMap_rows (h : Interleaves code es mixed) :
    mixed.flatMap (Entry.rows code) = es.flatMap (Entry.rows code) := by
  induction h with
  | nil => rfl
  | keep e _ ih => rw [List.flatMap_cons, List.flatMap_cons, ih]
  | @insert e f es mixed hf _ ih =>
      have hr : e.rows code = [] := by simp only [Entry.rows, hf.summary?_eq]
      rw [List.flatMap_cons, hr, List.nil_append, ih]

theorem filterMap_major? (h : Interleaves code es mixed) :
    mixed.filterMap (Entry.major? code) = es.filterMap (Entry.major? code) := by
  induction h with
  | nil => rfl
  | keep e _ ih => rw [List.filterMap_cons, List.filterMap_cons, ih]
  | @insert e f es mixed hf _ ih =>
      have hm : e.major? code = none := by simp only [Entry.major?, hf.summary?_eq, Option.map_none]
      rw [List.filterMap_cons_none hm, ih]

end Interleaves

namespace Aggregation

/-- A report on one failing class file has its failure and nothing else. -/
theorem exists_alone (clock : Clock) {e : Entry} {f : Failure}
    (h : e.FailsWith profile.codeAttribute f) :
    ∃ alone, (ofEntries clock profile [e]).result = .ok alone ∧ alone.failures = [f] ∧
      alone.warnings = [f.warning] := by
  have hone : ∀ d ∈ [e], d.Contained := by
    intro d hd
    rw [List.mem_singleton.1 hd]
    exact h.ordinary.contained
  obtain ⟨alone, hr, hc⟩ := exists_covers clock profile hone
  have hf : alone.failures = [f] := by
    rw [hc.failures, List.filterMap_cons_some h.failure?_eq, List.filterMap_nil]
  refine ⟨alone, hr, hf, ?_⟩
  rw [hc.warnings, hf]
  rfl

/-- Failing class files, put anywhere among others, change nothing in the report but the number
of those that were scanned, and add their own failures and warnings in their places. Each run has a
clock of its own. -/
theorem report_interleaved (clock clock' clock'' : Clock) (profile : Profile) {es mixed : List Entry}
    (hes : ∀ e ∈ es, e.Ordinary)
    (h : Interleaves profile.codeAttribute es mixed) :
    ∃ r r', (ofEntries clock profile es).result = .ok r ∧
      (ofEntries clock' profile mixed).result = .ok r' ∧
      r'.methods = r.methods ∧ r'.stats.methodsFound = r.stats.methodsFound ∧
      r'.classVersions = r.classVersions ∧ r'.stats.entriesScanned = mixed.length ∧
      List.Forall₂ (fun e f => e.FailsWith profile.codeAttribute f)
        (mixed.filter fun e => (e.summary? profile.codeAttribute).isNone) r'.failures ∧
      (∀ f ∈ r'.failures, f.state = none ↔ f.kind = "ENTRY_UNREADABLE") ∧
      r'.warnings = (if mixed = [] then ["No .class files found in archive"] else
        r'.failures.map fun f => "Failed to parse " ++ f.path ++ ": " ++ f.message) ∧
      ∀ e ∈ mixed, ∀ f, e.FailsWith profile.codeAttribute f →
        ∃ alone, (ofEntries clock'' profile [e]).result = .ok alone ∧ alone.failures = [f] ∧
          alone.warnings = [f.warning] := by
  have hmixed := h.ordinary hes
  obtain ⟨r, hr, hc⟩ := exists_covers clock profile fun e he => (hes e he).contained
  obtain ⟨r', hr', hc'⟩ := exists_covers clock' profile fun e he => (hmixed e he).contained
  have hfails := Entry.forall₂_failsWith profile.codeAttribute hmixed
  rw [← hc'.failures] at hfails
  have hstates : ∀ f ∈ r'.failures, f.state = none ↔ f.kind = "ENTRY_UNREADABLE" := by
    intro f hf
    rw [hc'.failures] at hf
    obtain ⟨e, he, hef⟩ := List.mem_filterMap.1 hf
    exact ((hmixed e he).failure?_eq_some_iff.1 hef).state_eq_none_iff
  refine ⟨r, r', hr, hr', ?_, ?_, ?_, hc'.entriesScanned, hfails, hstates, hc'.warnings,
    fun e _ f hf => exists_alone clock'' hf⟩
  · rw [hc'.methods, hc.methods, h.flatMap_rows]
  · rw [hc'.methodsFound, hc.methodsFound, h.flatMap_rows]
  · rw [hc'.classVersions, hc.classVersions, h.filterMap_major?]

/-- A class file that can be decoded. -/
def whole : Entry := ⟨"a/C.class", .ok (twoMethods 0x43)⟩

/-- The same class file between one that cannot be read and one that ends in its first word. -/
def threeEntries : List Entry :=
  [⟨"x.class", .error (.unreadable "Bad CRC-32")⟩, whole, ⟨"y.class", .ok ⟨#[0xCA, 0xFE]⟩⟩]

theorem report_interleaved_threeEntries :
    (∀ e ∈ [whole], e.Ordinary) ∧
      Interleaves Profile.standard.codeAttribute [whole] threeEntries ∧
      ∃ r r', (ofEntries .frozen .standard [whole]).result = .ok r ∧
        (ofEntries .frozen .standard threeEntries).result = .ok r' ∧ r'.methods = r.methods ∧
        r'.stats.entriesScanned = 3 ∧
        r'.warnings = r'.failures.map fun f => "Failed to parse " ++ f.path ++ ": " ++ f.message := by
  have hes : ∀ e ∈ [whole], e.Ordinary := by simp [Entry.Ordinary, whole]
  have hcut : ClassFile.Summary.decode (⟨#[0xCA, 0xFE]⟩ : ByteArray).toList "Code" =
      .error ⟨.magic, .truncated 0 4 2⟩ := by
    rw [ClassFile.Summary.decode_eq]
    decide +kernel
  have h : Interleaves Profile.standard.codeAttribute [whole] threeEntries :=
    .insert (.unreadable rfl) (.keep whole (.insert (.undecodable rfl hcut) .nil))
  obtain ⟨r, r', hr, hr', hmethods, -, -, hscanned, -, -, hwarnings, -⟩ :=
    report_interleaved .frozen .frozen .frozen .standard hes h
  exact ⟨hes, h, r, r', hr, hr', hmethods, hscanned, hwarnings⟩

/-- Where there is nothing to examine there is a warning, but nothing that fails. -/
theorem warning_without_failure :
    Interleaves Profile.standard.codeAttribute [] [] ∧
      ∃ r, (ofEntries .frozen .standard []).result = .ok r ∧ r.failures = [] ∧
        r.warnings = ["No .class files found in archive"] ∧
        r.warnings ≠ r.failures.map fun f => "Failed to parse " ++ f.path ++ ": " ++ f.message :=
  ⟨.nil, _, rfl, rfl, rfl, by decide⟩

end Aggregation
end JarRank
