import Evomark.Toolchain
import Evomark.Proofs.Markup.Canonical
import Evomark.Proofs.Markup.ReadBack
/-!
# Parsing undoes printing

The text of a canonical tree is read completely, as the tree itself: the same kinds, texts, values and
layouts in the same order (`Toolchain.parse_print`), whatever blanks lines are indented with.
-/

namespace Evomark.Toolchain

open Markup

variable {t : Toolchain} {elements : List Node}

/-- A canonical tree is read back from its text. -/
theorem parse_print (ht : t.registry = .standard) (hu : ∀ c ∈ t.indentUnit.toList, Text.isBlank c = true)
    (h : Canonical.areElements false none elements = true) :
    (t.parse (t.print (.root elements))).complete = true ∧
      (t.parse (t.print (.root elements))).document.unplaced = (Node.root elements).unplaced := by
  obtain ⟨registry, unit⟩ := t
  subst ht
  obtain ⟨hflow, hsurvives⟩ := Canonical.survives_of_areElements hu h
  have hsurvives := hsurvives .opened
  have hshape : IsFlow Registry.standard.grammar false true none (Node.root elements).children := hflow
  obtain ⟨hcomplete, hread⟩ := parse_printWith hu keeps_standard Registry.standard.namespaces hshape
    (hsurvives.readable 0)
  refine ⟨hcomplete, ?_⟩
  have hroot : ∀ source, (Toolchain.parse ⟨.standard, unit⟩ source).document.unplaced =
      Node.root (Node.unplacedAll (Toolchain.parse ⟨.standard, unit⟩ source).document.children) :=
    fun source => rfl
  rw [hroot]
  exact congrArg Node.root (hread.trans hsurvives.same)

theorem parse_print_nested :
    let elements : List Node :=
      [⟨{ kind := .text, content := "One, two:\nthree = 3" }, []⟩,
       ⟨{ kind := .text, content := "- four" }, []⟩,
       ⟨{ kind := .varUse, content := "x_1" }, []⟩,
       ⟨{ kind := .text, content := "= 4?" }, []⟩,
       ⟨{ kind := .varAssign, content := "y" },
        [⟨{ kind := .cmd, content := "upper" },
          [⟨{ kind := .body, layout := some .block },
            [⟨{ kind := .literal, content := "a b\nc" }, []⟩,
             ⟨{ kind := .sep, value := some (.int 3) }, []⟩,
             ⟨{ kind := .varUse, content := "z" }, []⟩,
             ⟨{ kind := .literal, content := "= d" }, []⟩]⟩]⟩]⟩,
       ⟨{ kind := .func, content := "box" },
        [⟨{ kind := .funcParam, content := "-12", value := some (.int (-12)) }, []⟩,
         ⟨{ kind := .funcBody, layout := some .directChild },
          [⟨{ kind := .func, content := "code" },
            [⟨{ kind := .funcBody, content := "#a=\n$", layout := some (.code 2 2) }, []⟩]⟩]⟩]⟩,
       ⟨{ kind := .ref, content := "r" },
        [⟨{ kind := .func, content := "q" },
          [⟨{ kind := .funcBody, layout := some .block },
            [⟨{ kind := .func, content := "box" },
              [⟨{ kind := .funcBody, layout := some .inline },
                [⟨{ kind := .text, content := "e" }, []⟩, ⟨{ kind := .cmd, content := "t" }, []⟩]⟩,
               ⟨{ kind := .funcParam, content := "\"f\"", value := some (.string "f") }, []⟩]⟩]⟩]⟩]⟩]
    (Toolchain.parse {} (Toolchain.print {} (.root elements))).complete = true ∧
      (Toolchain.parse {} (Toolchain.print {} (.root elements))).document.unplaced =
        (Node.root elements).unplaced :=
  parse_print rfl (Text.forall_mem_of_all rfl) (by decide +kernel)

end Evomark.Toolchain
