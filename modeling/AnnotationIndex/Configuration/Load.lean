import AnnotationIndex.Configuration
import AnnotationIndex.Diagnostic
import AnnotationIndex.Disk
import AnnotationIndex.Yaml.Read

/-!
Reading the settings of a project from values, from YAML and from the file in which a project keeps them. JSON is
read as the YAML that it is.
-/
namespace AnnotationIndex

inductive SettingsFault where
  | malformed
  | invalid (issues : List Issue)

def SettingsFault.message : SettingsFault → Text
  | malformed => "Failed to parse YAML:"
  | invalid issues => "YAML validation failed: " ++ Issue.describeAll issues

inductive LoadFault where
  | absent (path : Text)
  | unreadable (path : Text)
  | refused (path : Text) (fault : SettingsFault)

def LoadFault.message : LoadFault → Text
  | absent path => "Config file not found: " ++ path
  | unreadable path => "Failed to load config from " ++ path ++ ": Failed to load YAML file: " ++ path
  | refused path fault => "Failed to load config from " ++ path ++ ": " ++ fault.message ++ " (file: " ++ path ++ ")"

namespace Configuration

def ofJson (v : Json) : Except (List Issue) Configuration :=
  match check (some v) with
  | .ok c => .ok c
  | .bad issues => .error issues

def refusalText : Text := "Invalid configuration"

def ofText (t : Text) : Except SettingsFault Configuration :=
  match Yaml.parse t with
  | none => .error .malformed
  | some v => (ofJson v).mapError .invalid

/- The names of a file of settings; the first that exists is read. -/
def fileNames : List Text :=
  List.map Text.ofString [".acp.config.yaml", ".acp.config.yml", ".acp.config.json"]

def file? (disk : Disk) (root : Text) : Option Text := (fileNames.map (Path.resolve root)).find? disk.has

def loadFile (disk : Disk) (path : Text) : Except LoadFault Configuration :=
  match disk.read? path with
  | .ok (some t) => (ofText t).mapError (.refused path)
  | _ => .error (.unreadable path)

/-- The settings of a project: those of a stated file, of the file in its directory, or the defaults. -/
def load (disk : Disk) (root : Text) (stated : Option Text) : Except LoadFault Configuration :=
  match stated.filter fun p => !p.isEmpty with
  | some p =>
    let path := Path.resolve root p
    if disk.has path then loadFile disk path else .error (.absent path)
  | none =>
    match file? disk root with
    | some path => loadFile disk path
    | none => .ok standard

end Configuration
end AnnotationIndex
