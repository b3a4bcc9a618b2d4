import AnnotationEdit.Config.Basic
import AnnotationEdit.Data.Json
import AnnotationEdit.Data.Toml
import AnnotationEdit.Error

/-!
# Loading configurations

A configuration is read from data, where every setting may be left open, and completed with the
defaults. The extension of a file name says in which notation its content is written.
-/

namespace AnnotationEdit.Configuration

def indentStyle? (m : Data.Manner) (d : Data) : Option IndentStyle := do
  let name ← d.choice? m
  IndentStyle.all.find? (·.name == name)

def vocabulary? : Data → Option Vocabulary
  | .table fields =>
    fields.foldlM (fun v (name, d) => d.text?.map fun short => v.set name short) ⟨[]⟩
  | _ => none

def project? (m : Data.Manner) (d : Data) : Option ProjectLayout := do
  match ← d.fieldsIn? m ["isolatedRoots"] 0 with
  | [some roots] => return ⟨← (← roots.list?).mapM Data.text?⟩
  | _ => return ⟨[]⟩

/-- The configuration that data describes; fields of other names are passed over. -/
def ofDataIn? (m : Data.Manner) (d : Data) : Option Configuration := do
  match ← d.fieldsIn? m ["indentStyle", "indentSize", "vocabularyAliases", "project"] 4 with
  | [style, size, aliases, project] =>
    return {
      indentStyle := ← Data.maybe? (indentStyle? m) style
      indentSize := ← Data.maybe? Data.natural? size
      vocabulary := ← Data.maybe? vocabulary? aliases
      project := ← Data.maybe? (project? m) project }
  | _ => none

def ofData? (d : Data) : Option Configuration := ofDataIn? .plain d

/-- The data of a configuration, null for a setting that is left open. -/
def toData (c : Configuration) : Data :=
  .table [
    ("indentStyle", .orNull (fun s => .text s.name) c.indentStyle),
    ("indentSize", .orNull .number c.indentSize),
    ("vocabularyAliases",
      .orNull (fun v => .table (v.aliases.map fun (name, short) => (name, .text short)))
        c.vocabulary),
    ("project",
      .orNull (fun p => .table [("isolatedRoots", .listOf .text p.isolatedRoots)]) c.project)]

def complete (format : String) : Option Configuration → Except Error Configuration
  | some c => .ok (c.merge default)
  | none => .error (.config ("Invalid " ++ format ++ " configuration"))

def ofJson (text : String) : Except Error Configuration :=
  complete "JSON" ((Data.Json.parse? text).bind ofData?)

def ofToml (text : String) : Except Error Configuration :=
  complete "TOML" ((Data.Toml.parse? text).bind (ofDataIn? .handwritten))

/-- What follows the last dot of a file name; a dot in front of the name does not count. -/
def extension? (fileName : String) : Option String :=
  match Text.cutLast? '.' fileName.toList with
  | some ([], _) => none
  | some (_, ext) => some (String.ofList ext)
  | none => none

def load (fileName : String) (content : Option String) : Except Error Configuration :=
  match content with
  | none => .error (.io fileName "No such file or directory (os error 2)")
  | some text =>
    match extension? fileName with
    | some "json" => ofJson text
    | some "toml" => ofToml text
    | _ =>
      .error (.config ("Unsupported configuration file '" ++ fileName ++
        "' (expected .json or .toml)"))

end AnnotationEdit.Configuration
