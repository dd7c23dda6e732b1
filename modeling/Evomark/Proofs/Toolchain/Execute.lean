import Evomark.Proofs.Exec.Preserve
import Evomark.Proofs.Toolchain.Format
/-!
# Executing a document that has been executed and printed

A document is executed, printed and read again. A pass over it with the same context then gives what
the first pass gave, and the document has the text it had (`Toolchain.exec_parse_print`): markers are
read back, taken away and put in again, and nothing else changes.

This needs a source whose own text can be read back, and that the text of the executed document can
be read back (`Node.areReadable`). The latter fails where a message has a brace that is not closed
(`Toolchain.exec_brace_in_message`), since messages are put into braces as they are, and where a
warning is put into a body on one line, which its line feed breaks.
-/

namespace Evomark.Toolchain

open Node Markup

variable {t : Toolchain} {source : String}

/-- A document executed, printed, read and executed again: the second pass ends as the first did, and
leaves the same document with the same text. -/
theorem exec_parse_print (ht : t.registry = .standard)
    (hu : ∀ c ∈ t.indentUnit.toList, Text.isBlank c = true) (hcanonical : t.format source = source)
    (hn : ∀ entry ∈ (t.parse source).document.preorder, entry.2.kind ≠ .warning)
    (hr : areReadable t.indentUnit.toList 0 (t.parse source).document.children = true) (ctx : Context)
    (hexec : areReadable t.indentUnit.toList 0
      (t.exec (t.parse source).document ctx).document.children = true) :
    let pass := t.exec (t.parse source).document ctx
    let again := t.exec (t.parse (t.print pass.document)).document ctx
    again.outcome = pass.outcome ∧ again.state = pass.state ∧
      unplacedAll again.document.children = unplacedAll pass.document.children ∧
      t.print again.document = t.print pass.document := by
  intro pass again
  have hfixed := (parse_format ht hu hn hr).2
  rw [hcanonical] at hfixed
  obtain ⟨registry, unit⟩ := t
  subst ht
  have hflow := isFlow_parse keeps_standard Registry.standard.namespaces source hn
  have hpass := isFlow_exec keeps_standard hflow ctx
  obtain ⟨-, hread⟩ := parse_printWith hu keeps_standard Registry.standard.namespaces hpass hexec
  have hreadFlow := isFlow_parse_printWith hu keeps_standard Registry.standard.namespaces hpass hexec
  obtain ⟨hout, hstate, hnodes⟩ := exec_of_reread Registry.standard.execution ctx
    (meetsAll_of_isFlow keeps_standard hflow) hfixed.symm hread
  exact ⟨hout, hstate, hnodes,
    printWith_congr hu hpass (isFlow_exec keeps_standard hreadFlow ctx) hnodes⟩

theorem exec_parse_print_halted :
    let t : Toolchain := {}
    let source := "#box\x7b\n  text $save\x7b%g\x7d\n\x7d %x = $json\x7b[1 2]\x7d $require\x7b%g %x\x7d more"
    let pass := t.exec (t.parse source).document {}
    let again := t.exec (t.parse (t.print pass.document)).document {}
    again.outcome = pass.outcome ∧ again.state = pass.state ∧
      unplacedAll again.document.children = unplacedAll pass.document.children ∧
      t.print again.document = t.print pass.document :=
  exec_parse_print rfl (Text.forall_mem_of_all rfl) (by decide +kernel) (by decide +kernel)
    (by decide +kernel) {} (by decide +kernel)

/-- A message with a closing brace ends its marker before its end. -/
theorem exec_brace_in_message :
    let t : Toolchain := {}
    let source := "%x = $json\x7b\x7b\"a\":1 \"b\":2\x7d\x7d"
    let pass := t.exec (t.parse source).document {}
    let again := t.exec (t.parse (t.print pass.document)).document {}
    t.format source = source ∧ (t.parse source).complete = true ∧
      (∀ entry ∈ (t.parse source).document.preorder, entry.2.kind ≠ .warning) ∧
      pass.outcome = .completed ∧ t.print again.document ≠ t.print pass.document := by
  decide +kernel

/-- The line feed behind a warning breaks a body on one line. -/
example :
    let t : Toolchain := {}
    let source := "#box\x7b$save\x7b%g\x7d after\x7d"
    let pass := t.exec (t.parse source).document {}
    let again := t.exec (t.parse (t.print pass.document)).document {}
    t.format source = source ∧ pass.outcome = .completed ∧
      t.print again.document ≠ t.print pass.document := by
  decide +kernel

end Evomark.Toolchain
