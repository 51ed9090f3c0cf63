import JarRank.Form.Field
import JarRank.Ranking.Report

/-!
# Reports from forms

A report may be filled in by hand: only its profile must be named, and all other
fields have the values of a run that found nothing, and is made now.
-/
namespace JarRank
open Form Form.Reading

def Row.ofForm : Reading Row := fun v =>
  Row.mk <$> required "class_name" text v <*> required "method_name" text v <*>
    required "descriptor" text v <*>
    withDefault "bytecode_size" (fun w => Int.toNat <$> integerFrom 0 w) 0 v

def Failure.ofForm : Reading Failure := fun v =>
  Failure.mk <$> required "path" text v <*> required "kind" text v <*>
    withDefault "state" (optional text) none v <*> required "message" text v

def Stats.ofForm : Reading Stats := fun v =>
  Stats.mk <$> withDefault "entries_scanned" integer 0 v <*>
    withDefault "methods_found" integer 0 v <*> withDefault "elapsed_ms" number .zero v

namespace Census

/-- One number and its count from a field of a form. -/
def entryOfForm (key : Json.Text) (v : Json) : Checked (Int × Int) :=
  Prod.mk <$> integer (.string key) <*> integer v

/-- Counts from the fields of a form; of two counts of one number the later holds. -/
def ofFields : List (Json.Text × Json) → Census → Checked Census
  | [], c => .good c
  | (key, v) :: fields, c => (entryOfForm key v).andThen fun (n, k) => ofFields fields (c.put n k)

def ofForm : Reading Census
  | .object fields => ofFields fields empty
  | v => .bad .notObject v

end Census

def Report.ofForm (now : String) : Reading Report := fun v =>
  let blank : Report := { profileId := "", timestamp := now }
  Report.mk <$> withDefault "package_name" text blank.packageName v <*>
    withDefault "ranker_version" text blank.rankerVersion v <*>
    withDefault "schema_version" text blank.schemaVersion v <*>
    required "profile_id" text v <*>
    withDefault "archive_path" (optional text) none v <*>
    withDefault "archive_sha256" (optional text) none v <*>
    withDefault "verdict" text blank.verdict v <*>
    withDefault "reasons" (list text) [] v <*>
    withDefault "methods" (list Row.ofForm) [] v <*>
    withDefault "stats" Stats.ofForm {} v <*>
    withDefault "warnings" (list text) [] v <*>
    withDefault "failures" (list Failure.ofForm) [] v <*>
    withDefault "class_versions" Census.ofForm .empty v <*>
    withDefault "timestamp" text blank.timestamp v

end JarRank
