import JarRank.ClassFile.Layout
import JarRank.Main
import JarRank.Ranking.Draft
import JarRank.Service.Endpoint
import JarRank.Proofs.ClassFile.Acceptance
import JarRank.Proofs.ClassFile.PoolGrammar
import JarRank.Proofs.ClassFile.Resolution
import JarRank.Proofs.ClassFile.SectionGrammar
import JarRank.Proofs.ClassFile.RoundTrip
import JarRank.Proofs.ClassFile.FaultTruth
import JarRank.Proofs.Ranking.Containment
import JarRank.Proofs.ClassFile.Description
import JarRank.Proofs.Ranking.Order
import JarRank.Proofs.Ranking.MemberFaults
import JarRank.Proofs.Service.ReportPlace
import JarRank.Proofs.ClassFile.Verdict
import JarRank.Proofs.Service.InvalidBody
import JarRank.Proofs.Ranking.Consistency
import JarRank.Proofs.Ranking.Selection
import JarRank.Proofs.CommandLine.PrintedRows
import JarRank.Proofs.Agreement
import JarRank.Proofs.Json.ReadBack
import JarRank.Proofs.Ranking.Documents
import JarRank.Proofs.ClassFile.Slots
import JarRank.Proofs.ClassFile.Cuts
import JarRank.Proofs.ClassFile.References
import JarRank.Proofs.Service.RankingOutcome
import JarRank.Proofs.ClassFile.StrayTags
import JarRank.Proofs.ClassFile.Walkers
import JarRank.Proofs.Ranking.Composition
import JarRank.Proofs.Ranking.Progress
import JarRank.Proofs.ClassFile.Offsets
import JarRank.Proofs.Zip.Lifecycle
import JarRank.Proofs.CommandLine.FailingSessions
import JarRank.Proofs.Service.ReportsApart
import JarRank.Proofs.Text.Utf8
import JarRank.Proofs.ClassFile.CodeNames
import JarRank.Proofs.ClassFile.Calls
import JarRank.Proofs.ClassFile.Stops
