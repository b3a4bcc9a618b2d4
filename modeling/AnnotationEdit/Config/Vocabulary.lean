import AnnotationEdit.Text.Cut

/-!
# Vocabularies

Terms are named within namespaces, and every known namespace has a short alias. Names are written
with the alias: `shorten` replaces the longest known namespace a name starts with.
-/

namespace AnnotationEdit

/-- The known namespaces with their aliases, each namespace once. -/
structure Vocabulary where
  aliases : List (String × String)
deriving DecidableEq, Repr

namespace Vocabulary

def standard : Vocabulary := ⟨[
  ("Org.OData.Aggregation.V1", "Aggregation"),
  ("com.sap.vocabularies.Analytics.v1", "Analytics"),
  ("Org.OData.Capabilities.V1", "Capabilities"),
  ("com.sap.vocabularies.Common.v1", "Common"),
  ("com.sap.vocabularies.Communication.v1", "Communication"),
  ("Org.OData.Core.V1", "Core"),
  ("com.sap.vocabularies.HTML5.v1", "HTML5"),
  ("Org.OData.Measures.V1", "Measures"),
  ("com.sap.vocabularies.PersonalData.v1", "PersonalData"),
  ("com.sap.vocabularies.Session.v1", "Session"),
  ("com.sap.vocabularies.UI.v1", "UI"),
  ("Org.OData.Validation.V1", "Validation")]⟩

def merge (v w : Vocabulary) : Vocabulary :=
  ⟨v.aliases ++ w.aliases.filter fun entry => !v.aliases.any (·.1 == entry.1)⟩

def set (v : Vocabulary) (namespaceName short : String) : Vocabulary :=
  ⟨v.aliases.filter (·.1 != namespaceName) ++ [(namespaceName, short)]⟩

def isAlias (v : Vocabulary) (name : String) : Bool := v.aliases.any (·.2 == name)

def below? (namespaceName name : String) : Option String :=
  Text.stripFront? (namespaceName ++ ".") name

def longest? (name : String) : List (String × String) → Option (String × String)
  | [] => none
  | entry :: rest =>
    match below? entry.1 name, longest? name rest with
    | none, best => best
    | some _, none => some entry
    | some _, some best => if best.1.length < entry.1.length then some entry else some best

/-- The name with a known namespace replaced by its alias. -/
def shorten (v : Vocabulary) (name : String) : String :=
  match longest? name v.aliases with
  | some entry =>
    match below? entry.1 name with
    | some rest => entry.2 ++ "." ++ rest
    | none => name
  | none => name

/-- Whether a name starts with a known namespace or alias. -/
def isQualified (v : Vocabulary) (name : String) : Bool :=
  match Text.splitOnce? '.' (v.shorten name) with
  | some (head, _) => v.isAlias head
  | none => false

end Vocabulary

end AnnotationEdit
