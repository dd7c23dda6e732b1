import Evomark.Registry
import Evomark.Document.Printer
/-!
# A toolchain

A `Toolchain` is a registry with an indentation unit: what is needed to read, execute and print
documents.
-/

namespace Evomark

/-- A registry and the unit of indentation. -/
structure Toolchain where
  registry : Registry := .standard
  indentUnit : String := Node.defaultUnit

namespace Toolchain

/-- The document of a source. -/
def parse (t : Toolchain) (source : String) : Markup.Parsed := t.registry.parse source

/-- A pass over a document. -/
def exec (t : Toolchain) (document : Node) (ctx : Context) : Pass := t.registry.exec document ctx

/-- The source of a document in its canonical form. -/
def print (t : Toolchain) (document : Node) : String := document.printWith t.indentUnit

/-- A source in its canonical form. -/
def format (t : Toolchain) (source : String) : String := t.print (t.parse source).document

end Toolchain

end Evomark
