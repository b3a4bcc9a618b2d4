import AnnotationEdit.Config.Basic
import AnnotationEdit.Syntax.Abstraction
import AnnotationEdit.Syntax.Node
import AnnotationEdit.Syntax.Parser
import AnnotationEdit.Text.Lines
import AnnotationEdit.Token.Stream
import AnnotationEdit.Tree.TargetIndex

/-!
# Documents

Everything known about one file: its text, its tokens and both of its trees. A document is read from
its text, or put together from parts that a front end hands out; nothing forces such parts to agree.
-/

namespace AnnotationEdit

structure Document where
  uri : String
  lines : Lines
  tokens : TokenStream
  syntaxTree : Syntax.File
  tree : Tree.File
  /-- A ghost shows annotations that are defined elsewhere and is never edited. -/
  ghost : Bool

namespace Document

def text (d : Document) : String := d.lines.text

def targets (d : Document) : Tree.TargetIndex := Tree.TargetIndex.ofFile d.tree

/-- Reads a text. The tokens are the comments, and the code tokens with the roles the parser gave
them. -/
def parse (uri text : String) (config : Configuration) : Except SyntaxError Document := do
  let lines := Lines.ofString text
  let tokens ← Lexer.tokenize text
  let (file, code) ←
    Syntax.parseTokens config.aliases uri ⟨Position.origin, lines.stop⟩ tokens
  return {
    uri := uri
    lines := lines
    tokens := TokenStream.ofTokens (tokens.filter Token.isComment ++ code)
    syntaxTree := file
    tree := file.abstraction config.aliases
    ghost := false }

end Document

end AnnotationEdit
