import Evomark.Toolchain
import Evomark.Proofs.Markup.Visible
/-!
# Formatting changes white space only

A formatted source shows the visible characters of the source, each once and in their order
(`Toolchain.visible_format`): of texts, names, braces, fences, escapes and bodies that are kept. The
source has to be read completely and without a warning at the root, and its parameters have to be
written as they were read, since a parameter is printed as its value.
-/

namespace Evomark.Toolchain

open Text

variable {t : Toolchain} {source : String}

/-- Formatting neither adds, drops nor moves a visible character. -/
theorem visible_format (ht : t.registry = .standard) (hu : IsBlankText t.indentUnit.toList)
    (hc : (t.parse source).complete = true)
    (hw : ∀ n ∈ (t.parse source).document.children, n.kind ≠ .warning)
    (hp : ∀ entry ∈ (t.parse source).document.preorder, entry.2.IsFaithful) :
    visible (t.format source).toList = visible source.toList := by
  obtain ⟨registry, unit⟩ := t
  subst ht
  calc visible (Toolchain.format ⟨.standard, unit⟩ source).toList
    _ = Node.seenAll (Toolchain.parse ⟨.standard, unit⟩ source).document.children :=
      Node.visible_printWith hu _
    _ = visible source.toList := Markup.seenAll_parse keeps_standard _ source hc hw hp

theorem visible_format_nested :
    let source := "%x=  $t\x7b %y\n\n  b\x7d#box( [1, 2] )\x7b a \\\x7d\n#code=> \x7b =|\x7d\n\n@r =#q(\"a b\") #config(\"json\")\x7b \x7d\x7bo"
    visible (Toolchain.format {} source).toList = visible source.toList :=
  visible_format rfl (forall_mem_of_all rfl) (by decide +kernel) (by decide +kernel) (by decide +kernel)

/-- The value `1.50` of a parameter is printed as `1.5`. -/
example : Toolchain.format {} "#box(1.50)" = "#box(1.5)" := by decide +kernel

end Evomark.Toolchain
