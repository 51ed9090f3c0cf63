import JarRank.Proofs.Ranking.Selection

/-!
# The progress that is told

After each class file it is told how many of how many have been examined, whether the class file
could be decoded or not. Nothing is told while an archive is opened and listed, nor of a class file
at which the run ends because reading it meets an obstacle. So the numbers go up one by one, and
they reach the number of class files exactly if there is a report. This is told of the loop over the
class files: one round of it makes one call or is the last, and what is called before stays.
-/
namespace JarRank

/-- The calls for some class files, one after another, after some others are done. -/
def callsAfter (done count total : Nat) : List (Nat × Nat) :=
  (List.range' (done + 1) count).map fun i => (i, total)

/-- The last call says that everything is done, and no other one does. -/
theorem exists_last_call {total : Nat} (h : 0 < total) : ∃ front,
    callsAfter 0 total total = front ++ [(total, total)] ∧ ∀ call ∈ front, call.1 ≠ call.2 := by
  obtain ⟨n, rfl⟩ : ∃ n, total = n + 1 := ⟨total - 1, by omega⟩
  refine ⟨callsAfter 0 n (n + 1), ?_, ?_⟩
  · simp [callsAfter, List.range'_concat, Nat.add_comm]
  · intro call hcall
    rcases List.mem_map.1 hcall with ⟨i, hi, rfl⟩
    rw [List.mem_range'_1] at hi
    exact Nat.ne_of_lt (by omega)

namespace Gathering

/-- The calls of a loop over class files, in front of which some others have been passed: one after
each that is examined, and none any more where the loop ends. -/
inductive Calls (code : String) (total : Nat) :
    Nat → List Entry → List (Nat × Nat) → Option Zip.Obstacle → Prop
  | finished (k : Nat) : Calls code total k [] [] none
  | examined (k : Nat) (e : Entry) (es : List Entry) (x : Examination) (calls : List (Nat × Nat))
      (obstacle : Option Zip.Obstacle) : e.examine code = .ok x →
      Calls code total (k + 1) es calls obstacle →
      Calls code total k (e :: es) ((k + 1, total) :: calls) obstacle
  | stopped (k : Nat) (e : Entry) (es : List Entry) (obstacle : Zip.Obstacle) :
      e.examine code = .error obstacle → Calls code total k (e :: es) [] (some obstacle)

variable {code : String} {total k : Nat} {es : List Entry} {calls : List (Nat × Nat)}
  {obstacle : Zip.Obstacle}

/-- Whether the class file has failed or not, one call is made behind it. -/
theorem calls_behind (g : Gathering) (e : Entry) (x : Examination) (processed total : Nat) :
    (g.behind e x processed total).calls = g.calls.push (processed, total) := by
  unfold behind
  cases x.result <;> rfl

/-- The loop keeps the calls that it has made, and makes one for each class file that it examines. -/
theorem loop_calls (code : String) (total k : Nat) (es : List Entry) (g : Gathering) : ∃ calls,
    (loop code total (k + 1) es g).1.calls.toList = g.calls.toList ++ calls ∧
      Calls code total k es calls (loop code total (k + 1) es g).2 := by
  induction es generalizing k g with
  | nil => exact ⟨[], (List.append_nil _).symm, .finished k⟩
  | cons e es ih =>
      cases hx : e.examine code with
      | error obstacle =>
          rw [loop_of_blocked hx]
          exact ⟨[], (List.append_nil _).symm, .stopped k e es obstacle hx⟩
      | ok x =>
          rw [loop_of_examine hx]
          obtain ⟨calls, hkept, hcalls⟩ := ih (k + 1) (g.behind e x (k + 1) total)
          refine ⟨(k + 1, total) :: calls, ?_, .examined k e es x calls _ hx hcalls⟩
          rw [hkept, calls_behind, Array.toList_push, List.append_assoc, List.singleton_append]

/-- A run over all class files examines each of them and calls once for each. -/
theorem Calls.of_finished (h : Calls code total k es calls none) :
    (∀ e ∈ es, e.Contained) ∧ calls = callsAfter k es.length total := by
  generalize hnone : (none : Option Zip.Obstacle) = outcome at h
  induction h with
  | finished k => exact ⟨by simp, rfl⟩
  | examined k e es x calls outcome hx _ ih =>
      rcases ih hnone with ⟨hes, rfl⟩
      exact ⟨List.forall_mem_cons.2 ⟨Entry.contained_of_examine hx, hes⟩, rfl⟩
  | stopped => cases hnone

/-- A run that is stopped has called once for each class file in front of the one that stops it. -/
theorem Calls.of_stopped (h : Calls code total k es calls (some obstacle)) :
    ∃ front e back, es = front ++ e :: back ∧ (∀ d ∈ front, d.Contained) ∧
      e.content = .error (.blocked obstacle) ∧ calls = callsAfter k front.length total := by
  generalize hsome : some obstacle = outcome at h
  induction h with
  | finished => cases hsome
  | examined k e es x calls outcome hx _ ih =>
      rcases ih hsome with ⟨front, d, back, rfl, hfront, hd, rfl⟩
      have hall := List.forall_mem_cons.2 ⟨Entry.contained_of_examine hx, hfront⟩
      exact ⟨e :: front, d, back, rfl, hall, hd, rfl⟩
  | stopped k e es first hx =>
      cases hsome
      exact ⟨[], e, es, rfl, by simp, Entry.examine_eq_error_iff.1 hx, rfl⟩

end Gathering

namespace Aggregation

open Gathering (Calls)

/-- What is told of a run over class files are the calls of its loop. -/
theorem calls_ofEntries (clock : Clock) (profile : Profile) (es : List Entry) :
    (∃ r, (ofEntries clock profile es).result = .ok r ∧
      Calls profile.codeAttribute es.length 0 es (ofEntries clock profile es).progress none) ∨
    ∃ obstacle, (ofEntries clock profile es).result = .error obstacle ∧ Calls profile.codeAttribute
      es.length 0 es (ofEntries clock profile es).progress (some obstacle) := by
  cases es with
  | nil => exact .inl ⟨.vacant clock profile, rfl, .finished 0⟩
  | cons e es =>
      obtain ⟨calls, hkept, hcalls⟩ :=
        Gathering.loop_calls profile.codeAttribute (e :: es).length 0 (e :: es) {}
      simp only [ofEntries, List.isEmpty_cons, Bool.false_eq_true, if_false]
      generalize Gathering.loop profile.codeAttribute (e :: es).length (0 + 1) (e :: es) {} = last
        at hkept hcalls ⊢
      obtain ⟨g, outcome⟩ := last
      have hprogress : g.calls.toList = calls := by simpa using hkept
      rw [← hprogress] at hcalls
      cases outcome with
      | none => exact .inl ⟨_, rfl, hcalls⟩
      | some obstacle => exact .inr ⟨obstacle, rfl, hcalls⟩

end Aggregation

namespace Analysis

variable {host : Host} {profile : Profile} {data : ByteArray} {a : Zip.Archive} {ms : List Zip.Member}

/-- How an analysis ends, and what progress it has told of until then. -/
inductive Progresses (host : Host) (profile : Profile) (data : ByteArray) :
    Except AnalysisFault Report → List (Nat × Nat) → Prop
  | opening (fault : Zip.OpenFault) : (Zip.Archive.ofBytes data).enter.1 = .error fault →
      Progresses host profile data (.error (.opening fault)) []
  | listing (a : Zip.Archive) (fault : Zip.ListFault) :
      (Zip.Archive.ofBytes data).enter = (.ok (), a) → a.list = .error fault →
      Progresses host profile data (.error (.listing fault)) []
  | finished (a : Zip.Archive) (ms : List Zip.Member) (r : Report) :
      (Zip.Archive.ofBytes data).enter = (.ok (), a) → a.list = .ok ms →
      (∀ m ∈ selected profile ms, ∀ obstacle, a.read host.unpackers m ≠ .error (.obstacle obstacle)) →
      r.stats.entriesScanned = (selected profile ms).length →
      Progresses host profile data (.ok r)
        (callsAfter 0 (selected profile ms).length (selected profile ms).length)
  | stopped (a : Zip.Archive) (ms front back : List Zip.Member) (m : Zip.Member)
      (obstacle : Zip.Obstacle) : (Zip.Archive.ofBytes data).enter = (.ok (), a) → a.list = .ok ms →
      selected profile ms = front ++ m :: back →
      (∀ b ∈ front, ∀ obstacle, a.read host.unpackers b ≠ .error (.obstacle obstacle)) →
      a.read host.unpackers m = .error (.obstacle obstacle) →
      Progresses host profile data (.error (.reading obstacle))
        (callsAfter 0 front.length (selected profile ms).length)

theorem progresses_of_listed (ho : (Zip.Archive.ofBytes data).enter = (.ok (), a))
    (hl : a.list = .ok ms) :
    Progresses host profile data (ofBytes host profile data).result
      (ofBytes host profile data).progress := by
  obtain ⟨es, hes⟩ : ∃ es, es = (selected profile ms).map (entry host.unpackers a) := ⟨_, rfl⟩
  have hlen : es.length = (selected profile ms).length := by rw [hes, List.length_map]
  have hdata : ofBytes host profile data = ofEntries host.clock profile es :=
    hes ▸ ofBytes_of_listed host profile ho hl
  have hresult : (ofBytes host profile data).result =
      (Aggregation.ofEntries host.clock profile es).result.mapError .reading :=
    congrArg Analysis.result hdata
  have hprogress : (ofBytes host profile data).progress =
      (Aggregation.ofEntries host.clock profile es).progress :=
    congrArg Analysis.progress hdata
  rw [hresult, hprogress]
  rcases Aggregation.calls_ofEntries host.clock profile es with ⟨r, hr, hcalls⟩ | ⟨obstacle, hr, hcalls⟩
  · rcases hcalls.of_finished with ⟨hcontained, hcount⟩
    have hscanned := (Aggregation.covers_of_result hr).entriesScanned
    rw [hlen] at hcount hscanned
    rw [hr, hcount]
    refine .finished a ms r ho hl ?_ hscanned
    intro m hm obstacle hread
    have he : entry host.unpackers a m ∈ es := hes ▸ List.mem_map_of_mem hm
    exact hcontained _ he obstacle (entry_blocked_iff.2 hread)
  · rcases hcalls.of_stopped with ⟨before, e, after, hsplit, hfront, he, hcount⟩
    rw [hes] at hsplit
    rcases List.map_eq_append_iff.1 hsplit with ⟨front, rest, hselected, rfl, hrest⟩
    rcases List.map_eq_cons_iff.1 hrest with ⟨m, back, rfl, rfl, rfl⟩
    rw [hlen, List.length_map] at hcount
    rw [hr, hcount]
    refine .stopped a ms front back m obstacle ho hl hselected ?_ (entry_blocked_iff.1 he)
    intro b hb obstacle hread
    exact hfront _ (List.mem_map_of_mem hb) obstacle (entry_blocked_iff.2 hread)

theorem progresses_ofBytes (host : Host) (profile : Profile) (data : ByteArray) :
    Progresses host profile data (ofBytes host profile data).result
      (ofBytes host profile data).progress := by
  cases ho : (Zip.Archive.ofBytes data).enter with
  | mk opened a =>
      cases opened with
      | error fault =>
          have hopen := congrArg Prod.fst ho
          rw [ofBytes_of_not_opened host profile hopen]
          exact .opening fault hopen
      | ok =>
          cases hl : a.list with
          | error fault =>
              have hlist : (Zip.Archive.ofBytes data).enter.2.list = .error fault := by rw [ho, hl]
              rw [ofBytes_of_not_listed host profile (congrArg Prod.fst ho) hlist]
              exact .listing a fault ho hl
          | ok ms => exact progresses_of_listed ho hl

/-- Of every analysis the progress is told step by step, up to where it ends. If there is a report
on any class files, the last call and no other one says that all of them are done. -/
theorem progress_told (host : Host) (profile : Profile) (data : ByteArray) :
    Progresses host profile data (ofBytes host profile data).result
        (ofBytes host profile data).progress ∧
      ∀ r, (ofBytes host profile data).result = .ok r → 0 < r.stats.entriesScanned →
        ∃ (front : List (Nat × Nat)) (total : Nat), r.stats.entriesScanned = total ∧
          (ofBytes host profile data).progress = front ++ [(total, total)] ∧
          ∀ call ∈ front, call.1 ≠ call.2 := by
  have hprogresses := progresses_ofBytes host profile data
  refine ⟨hprogresses, fun r hr hpos => ?_⟩
  rw [hr] at hprogresses
  generalize (ofBytes host profile data).progress = progress at hprogresses ⊢
  cases hprogresses with
  | finished a ms r ho hl hreads hscanned =>
      rw [hscanned] at hpos
      rcases exists_last_call (Int.natCast_pos.1 hpos) with ⟨front, hlast, hfront⟩
      exact ⟨front, _, hscanned, hlast, hfront⟩

end Analysis
end JarRank
