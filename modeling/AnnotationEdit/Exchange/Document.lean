import AnnotationEdit.Document
import AnnotationEdit.Exchange.Syntax
import AnnotationEdit.Exchange.Token
import AnnotationEdit.Exchange.Tree

/-!
# Documents as data

What a front end hands out for a file: its text, raw tokens and both trees, taken as they are.
-/

namespace AnnotationEdit.Document

def ofData? (d : Data) : Option Document := do
  match ← d.fields? ["uri", "text", "tokens", "cst", "ast", "ghost"] 5 with
  | [uri, text, tokens, concrete, tree, ghost] =>
    return {
      uri := ← (← uri).text?
      lines := Lines.ofString (← (← text).text?)
      tokens := TokenStream.ofRaw (← (← tokens).listOf? RawToken.ofData?)
      syntaxTree := ← Syntax.File.ofData? (← concrete)
      tree := ← Tree.File.ofData? (← tree)
      ghost := ← Data.orDefault? false Data.bool? ghost }
  | _ => none

end AnnotationEdit.Document
