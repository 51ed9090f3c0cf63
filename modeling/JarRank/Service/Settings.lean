import JarRank.Files.Path
import JarRank.Form.Field
import JarRank.Service.Dotenv

/-!
# Settings

Settings come from the environment, from a file, or are what they are by
default, in this order. In the file every name must be that of a setting, unless
it is bound to nothing or to an empty text; the environment may hold any others.
-/
namespace JarRank.Service
open Form

structure Settings where
  host : String := "0.0.0.0"
  port : Int := 8080
  title : String := "Classfile Ranker API"
  version : String := "0.1.0"
  /-- Where archives are that are not given by a path from a root. -/
  archivesRoot : String := "/files/archives"
  /-- Where reports are written to. -/
  resultsPath : String := "/files/results"
  defaultTop : Int := 10
  deriving DecidableEq, Repr

namespace Settings

def names : List String := [
  "API_HOST", "API_PORT", "API_TITLE", "API_VERSION", "ARCHIVES_ROOT", "RESULTS_PATH",
  "DEFAULT_TOP_N"]

def text (lookup : String → Option String) (name default : String) : Checked String :=
  .good ((lookup name).getD default)

def integer (lookup : String → Option String) (name : String) (default : Int) : Checked Int :=
  match lookup name with
  | some s => (Reading.integer (.text s)).under (.key name)
  | none => .good default

/-- The settings that names are bound to. -/
def ofLookup (lookup : String → Option String) : Checked Settings :=
  let default : Settings := {}
  Settings.mk <$> text lookup "API_HOST" default.host <*>
    integer lookup "API_PORT" default.port <*>
    text lookup "API_TITLE" default.title <*>
    text lookup "API_VERSION" default.version <*>
    text lookup "ARCHIVES_ROOT" default.archivesRoot <*>
    text lookup "RESULTS_PATH" default.resultsPath <*>
    integer lookup "DEFAULT_TOP_N" default.defaultTop

/-- The names in a file that are not those of settings. -/
def strangers (bound : List Dotenv.Binding) : List String :=
  (bound.filter fun (name, v) => !names.contains name && v.getD "" != "").map (·.1)

/-- Nothing, unless there are strange names. -/
def withoutStrangers (bound : List Dotenv.Binding) : Checked Unit :=
  match strangers bound with
  | [] => .good ()
  | ns => .error (ns.map fun name => ⟨.unexpected, [.key name], .null⟩)

/-- The settings that follow from an environment and a file. -/
def load (environment : List (String × String)) (file : String) : Checked Settings :=
  let bound := Dotenv.parse environment file
  let lookup (name : String) : Option String :=
    (environment.lookup name).orElse fun _ => (bound.lookup name).join
  (fun s _ => s) <$> ofLookup lookup <*> withoutStrangers bound

def archives (s : Settings) : Files.Path := .ofString s.archivesRoot

def results (s : Settings) : Files.Path := .ofString s.resultsPath

end Settings
end JarRank.Service
