import JarRank.Proofs.CommandLine.PrintedRows
import JarRank.Proofs.Service.RankingReply

/-!
# Three ways to ask for the first methods

A run can be limited, the command line can be told how many rows to print, and a request can
say how many methods it asks for. All three cut one and the same ranking, that of the run
without a limit, and cut it at the same place. Each of them takes place at its own time, so
that what the clock has put into two reports may differ. It does not where the clock has the
same readings for both.
-/
namespace JarRank

open Files (Path Tree)
open CommandLine (Arguments Session)
open Service (Settings Request)

variable {u : Zip.Unpackers} {clock clock' : Clock} {tree : Tree} {o : Order} {path : String}
  {profile : Profile} {full own : Report} {n : Int}

/-- A report has the first `n` methods of a ranking in full, or all if there are fewer, of which none
is smaller than one that is left out. It says the same in everything else, but for what the clock
tells. -/
structure Report.Limited (clock clock' : Clock) (full : Report) (n : Int) (r : Report) : Prop where
  front : r.methods <+: full.methods
  length : (r.methods.length : Int) = min n full.stats.methodsFound
  largest : ∀ m ∈ r.methods, ∀ m' ∈ full.methods.drop r.methods.length, m'.size ≤ m.size
  rest : Report.Retimed clock clock' { full with methods := r.methods } r

theorem Report.Retimed.with_methods (h : full.Retimed clock clock' own) (rows : List Row) :
    Report.Retimed clock clock' { full with methods := rows } { own with methods := rows } where
  untimed := congrArg (fun r : Report => { r with methods := rows }) h.untimed
  eq hclock := by rw [h.eq hclock]

theorem Run.limited_of_unlimited (h : (ofOrder ⟨u, clock⟩ tree o).result = .ok full)
    (hnone : o.limit = none) (hn : 0 ≤ n) (hown : full.Retimed clock clock' own) :
    full.Limited clock clock' n { own with methods := kept (some n) full.methods } where
  front := kept_isPrefix (some n) full.methods
  length := by
    have hall : (full.methods.length : Int) = full.stats.methodsFound := by
      have hlength := (consistent h).length
      rwa [hnone] at hlength
    rw [← hall]
    exact length_kept hn full.methods
  largest := size_le_of_kept (consistent h).sorted (kept_isPrefix (some n) full.methods)
  rest := hown.with_methods _

theorem Run.result_of_unlimited (hown : full.Retimed clock clock' own)
    (h : (ofOrder ⟨u, clock'⟩ tree { path, profile }).result = .ok own) (hn : 0 ≤ n) :
    (ofOrder ⟨u, clock'⟩ tree { path, profile, limit := some n }).result =
      .ok { own with methods := kept (some n) full.methods } := by
  have hlimit : Limitable { path, profile, limit := some n } := by
    intro k hk
    cases hk
    exact hn
  have hw : Writable tree none := by simp [Writable]
  rw [hown.methods_eq]
  exact (ofOrder_of_unlimited (p := { path, profile, limit := some n }) h rfl rfl rfl hlimit hw).1

/-- What the limits `a` and `b`, where the first is no larger, make of the archive at a path, whose
ranking in full is given. The limited runs have the clocks `clockA` and `clockB`. -/
structure Agreement (u : Zip.Unpackers) (tree : Tree) (path : String) (profile : Profile)
    (clock clockA clockB : Clock) (full : Report) (a b : Int) (ra rb : Report) : Prop where
  lower : (Run.ofOrder ⟨u, clockA⟩ tree { path, profile, limit := some a }).result = .ok ra
  upper : (Run.ofOrder ⟨u, clockB⟩ tree { path, profile, limit := some b }).result = .ok rb
  limitedLower : full.Limited clock clockA a ra
  limitedUpper : full.Limited clock clockB b rb
  nested : ra.methods <+: rb.methods
  /-- The limits make no other difference. -/
  rest : Report.Retimed clockA clockB { ra with methods := rb.methods } rb
  /-- The command line prints the methods of the limited run, in full what is told besides. -/
  printed : profile = .standard → full.verdict ≠ "REJECT" → ∀ clock' argv args,
    Arguments.parse argv = .ok args → args.archive = path → args.top = .number a →
      Run.Writable tree args.outputDir → ∃ own : Report, full.Retimed clock clock' own ∧
        (Session.start ⟨u, clock'⟩ tree argv).Tells ⟨u, clock'⟩ tree args own ra.methods
  /-- How many rows it is to print is a matter of its output alone. -/
  alike : ∀ clock clock' argv argv' args, Arguments.parse argv = .ok args → args.top = .number a →
    Arguments.parse argv' = .ok { args with top := .number b } →
      (Session.start ⟨u, clock⟩ tree argv).EndsLike clock clock'
        (Session.start ⟨u, clock'⟩ tree argv')
  /-- The service answers with the methods of the limited run. -/
  answered : profile = .standard → full.verdict ≠ "REJECT" → ∀ clock' (s : Settings) body r,
    Request.ofBytes body = .ok r → Service.Ranking.archive s r = .ofString path →
      Service.Ranking.limit s r = a → Run.Writable tree (Service.Ranking.outputDir s r) →
        ∃ v, (Service.handle ⟨u, clock'⟩ s tree "POST" "/ranker/run" body).reply =
            ⟨200, .json v, none⟩ ∧
          v.field? "methods" = some (.array (ra.methods.map Row.toJson))

theorem agreement_of_unlimited {a b : Int}
    (h : (Run.ofOrder ⟨u, clock⟩ tree { path, profile }).result = .ok full) (ha : 0 ≤ a) (hab : a ≤ b)
    (clockA clockB : Clock) :
    ∃ ra rb, Agreement u tree path profile clock clockA clockB full a b ra rb := by
  have hb : 0 ≤ b := by omega
  obtain ⟨ownA, hresultA, hownA⟩ := Run.exists_retimed h clockA
  obtain ⟨ownB, hresultB, hownB⟩ := Run.exists_retimed h clockB
  have hboth : ownA.Retimed clockA clockB ownB := by
    obtain ⟨own, hresult, hown⟩ := Run.exists_retimed hresultA clockB
    cases hresultB.symm.trans hresult
    exact hown
  refine ⟨_, _, {
    lower := Run.result_of_unlimited hownA hresultA ha
    upper := Run.result_of_unlimited hownB hresultB hb
    limitedLower := Run.limited_of_unlimited h rfl ha hownA
    limitedUpper := Run.limited_of_unlimited h rfl hb hownB
    nested := Run.kept_isPrefix_kept hab full.methods
    rest := hboth.with_methods _
    printed := ?_
    alike := ?_
    answered := ?_ }⟩
  · intro hprofile hv clock' argv args hparse harchive htop hw
    subst hprofile harchive
    obtain ⟨own, hresult, hown⟩ := Run.exists_retimed h clock'
    refine ⟨own, hown, ?_⟩
    rw [hown.verdict_eq] at hv
    rw [Session.start, hparse, hown.methods_eq]
    exact Session.tells_ofArguments hresult hv htop ha hw
  · intro clock clock' argv argv' args hparse htop hparse'
    rw [Session.start, Session.start, hparse, hparse']
    exact Session.endsLike_of_number htop ha hb rfl u clock clock' tree
  · intro hprofile hv clock' s body r hr hpath hlimit hw
    subst hprofile hlimit
    obtain ⟨own, hresult, hown⟩ := Run.exists_retimed h clock'
    have hroute : Service.handle ⟨u, clock'⟩ s tree "POST" "/ranker/run" body =
        Service.Ranking.handleBody ⟨u, clock'⟩ s tree body := rfl
    rw [hown.verdict_eq] at hv
    rw [hroute, Service.Ranking.handleBody, hr, hown.methods_eq]
    exact ⟨_, Service.Ranking.reply_handle hresult hv hpath ha hw, Service.Ranking.field?_methods _ _ _⟩

/-- An archive whose analysis has a result has a ranking in full, of which every run with a limit,
every session and every reply shows the first methods, as many as it was asked for. -/
theorem limits_agree (u : Zip.Unpackers) (tree : Tree) (path : String) (profile : Profile)
    {data : ByteArray} (hfile : tree.find? (.ofString path) = some (.file data))
    (hread : tree.read (.ofString path) = .ok data) {earlier : Clock} {found : Report}
    (hreport : (Run.report ⟨u, earlier⟩ { path, profile } data).1 = .ok found) (clock : Clock) :
    ∃ full, (Run.ofOrder ⟨u, clock⟩ tree { path, profile }).result = .ok full ∧
      ∀ a b : Int, 0 ≤ a → a ≤ b → ∀ clockA clockB,
        ∃ ra rb, Agreement u tree path profile clock clockA clockB full a b ra rb := by
  have hreports : Run.Reports ⟨u, earlier⟩ tree { path, profile } data found :=
    ⟨hfile, hread, hreport, by simp [Run.Limitable]⟩
  obtain ⟨found', hreports', -⟩ := hreports.at_clock clock
  obtain ⟨h, -⟩ := Run.ofOrder_of_reports hreports' (by simp [Run.Writable])
  exact ⟨_, h, fun a b ha hab clockA clockB => agreement_of_unlimited h ha hab clockA clockB⟩

theorem exists_report_damagedTree :
    ∃ r, (Run.report .bare { path := "a.jar" } (Analysis.twoMembers 0x43)).1 = .ok r ∧
      r.verdict = "WARN" ∧ r.stats.methodsFound = 1 := by
  obtain ⟨r, hr, hfailed, hfound⟩ := exists_report_twoMembers
  refine ⟨r, ?_, ?_, hfound⟩
  · rw [Run.report_of_not_container]
    · exact hr
    · intro fault hf
      rw [hr] at hf
      cases hf
  · obtain ⟨e, he, -⟩ := (Analysis.consistent hr).ending
    cases he.eq_damaged hfailed
    cases he
    assumption

/-- A form that asks for none of the methods of that archive. -/
def methodlessForm : Bytes := "\x7b\"archive_path\":\"a.jar\",\"top_n\":0\x7d".toUTF8.data.toList

/-- The archive with one method, none of which is asked for: not at once, and not later. -/
theorem limits_agree_damaged :
    ∃ full ra rb, Agreement .none damagedTree "a.jar" .standard .frozen .frozen .later full 0 5 ra
        rb ∧ ra.methods = [] ∧ rb.methods.length = 1 ∧
      (Session.start .bare damagedTree ["-n", "0", "a.jar"]).exit = .ok 0 ∧
      (Service.handle ⟨.none, .later⟩ { archivesRoot := "." } damagedTree "POST" "/ranker/run"
        methodlessForm).reply.status = 200 := by
  have hplace : damagedTree.resolve (.ofString "a.jar") = .ok ⟨.above 0, ["a.jar"]⟩ := by
    decide +kernel
  have hfile : damagedTree.find? (.ofString "a.jar") = some (.file (Analysis.twoMembers 0x43)) :=
    Tree.find?_of_resolve hplace rfl rfl
  have hread : damagedTree.read (.ofString "a.jar") = .ok (Analysis.twoMembers 0x43) :=
    Tree.read_of_resolve hplace rfl rfl
  obtain ⟨found, hreport, hv, hfound⟩ := exists_report_damagedTree
  obtain ⟨full, h, hagree⟩ :=
    limits_agree .none damagedTree "a.jar" .standard hfile hread hreport .frozen
  obtain ⟨ra, rb, hab⟩ := hagree 0 5 (by omega) (by omega) .frozen .later
  have hfull : full.verdict = "WARN" ∧ full.stats.methodsFound = 1 := by
    obtain ⟨data, found', hreports, rfl, -⟩ := Run.reports_of_result h
    cases hread.symm.trans hreports.read
    cases hreport.symm.trans hreports.report
    exact ⟨hv, hfound⟩
  obtain ⟨hwarn, hone⟩ := hfull
  have hvalid : full.verdict ≠ "REJECT" := by
    rw [hwarn]
    decide
  have hlower := hab.limitedLower.length
  have hupper := hab.limitedUpper.length
  rw [hone] at hlower hupper
  have hparse : Arguments.parse ["-n", "0", "a.jar"] = .ok ⟨"a.jar", .number 0, none, false⟩ := by
    decide +kernel
  have hform : Request.ofBytes methodlessForm = .ok ⟨"a.jar", some 0, false⟩ :=
    Except.toOption_eq_some_iff.1 (by decide +kernel)
  have hpath : Service.Ranking.archive { archivesRoot := "." } ⟨"a.jar", some 0, false⟩ =
      .ofString "a.jar" := by decide +kernel
  obtain ⟨own, -, htells⟩ :=
    hab.printed rfl hvalid .frozen _ _ hparse rfl rfl (by simp [Run.Writable])
  obtain ⟨v, hreply, -⟩ := hab.answered rfl hvalid .later _ _ _ hform hpath rfl
    (by simp [Run.Writable, Service.Ranking.outputDir])
  refine ⟨full, ra, rb, hab, List.length_eq_zero_iff.1 (by omega), by omega, htells.exit, ?_⟩
  rw [hreply]

end JarRank
