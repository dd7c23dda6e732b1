import Evomark.Toolchain
import Evomark.Proofs.Document.Reprint
/-!
# Formatting twice

A formatted source is formatted already (`Toolchain.format_format`), as long as the document can be
read back from its text (`Node.areReadable`): every body is closed by its own delimiters, values of
parameters are kept, and literal bodies lose no line feeds at their start. That text is then read
completely, as the document without its places (`Toolchain.parse_format`).

The condition is needed. A text that ends with a backslash is trimmed in front of a closing brace,
which the backslash then escapes (`Toolchain.format_behind_backslash`).
-/

namespace Evomark.Toolchain

variable {t : Toolchain} {source : String}

/-- A formatted source is read completely, as the document it is the text of. -/
theorem parse_format (ht : t.registry = .standard) (hu : ∀ c ∈ t.indentUnit.toList, Text.isBlank c = true)
    (hn : ∀ entry ∈ (t.parse source).document.preorder, entry.2.kind ≠ .warning)
    (hr : Node.areReadable t.indentUnit.toList 0 (t.parse source).document.children = true) :
    (t.parse (t.format source)).complete = true ∧
      Node.unplacedAll (t.parse (t.format source)).document.children =
        Node.rereadAll (t.parse source).document.children := by
  obtain ⟨registry, unit⟩ := t
  subst ht
  have hflow := Markup.isFlow_parse keeps_standard Registry.standard.namespaces source hn
  exact Markup.parse_printWith hu keeps_standard _ hflow hr

/-- Formatting is idempotent on sources whose formatted text can be read back. -/
theorem format_format (ht : t.registry = .standard) (hu : ∀ c ∈ t.indentUnit.toList, Text.isBlank c = true)
    (hn : ∀ entry ∈ (t.parse source).document.preorder, entry.2.kind ≠ .warning)
    (hr : Node.areReadable t.indentUnit.toList 0 (t.parse source).document.children = true) :
    t.format (t.format source) = t.format source := by
  obtain ⟨registry, unit⟩ := t
  subst ht
  have hflow := Markup.isFlow_parse keeps_standard Registry.standard.namespaces source hn
  exact Node.printWith_parse_printWith hu keeps_standard _ hflow hr

theorem format_nested :
    let source := "%x = $upper\x7b %y\x7d #box(1.50)\x7ba \\ b\n@r=#code==>c=|==|\n\n$t\x7b d\x7d \x7d"
    Toolchain.format {} (Toolchain.format {} source) = Toolchain.format {} source :=
  format_format rfl (Text.forall_mem_of_all rfl) (by decide +kernel) (by decide +kernel)

/-- The backslash at the end of a text, behind which a space is trimmed, escapes the closing brace. -/
theorem format_behind_backslash :
    let source := "#box\x7ba\\ \x7d"
    (Toolchain.parse {} source).complete = true ∧
      (∀ entry ∈ (Toolchain.parse {} source).document.preorder, entry.2.kind ≠ .warning) ∧
      Toolchain.format {} (Toolchain.format {} source) ≠ Toolchain.format {} source := by
  decide +kernel

end Evomark.Toolchain
