import Evomark.Proofs.Document.Extended
import Evomark.Proofs.Markup.ReadNodes
/-!
# What is read names no slots

The labels of a document just read name no slots of a tree (`slots_parse`), so dropping the slots that labels
name leaves it as it is.
-/

namespace Evomark.Markup

open Node

mutual

/-- The slots that a node and the nodes below it name are those of their labels. -/
theorem slots_eq : ∀ n : Node, n.slots = n.subtrees.flatMap (·.label.slot.toList)
  | ⟨label, children⟩ => by rw [slots, subtrees, List.flatMap_cons, slotsAll_eq children]

theorem slotsAll_eq : ∀ ns : List Node, slotsAll ns = (subtreesAll ns).flatMap (·.label.slot.toList)
  | [] => by rw [slotsAll, subtreesAll, List.flatMap_nil]
  | n :: rest => by rw [slotsAll, subtreesAll, List.flatMap_append, slots_eq n, slotsAll_eq rest]

end

/-- A document just read names no slots. -/
theorem slots_parse (g : Grammar) (initial : Table Json) (source : String) :
    (parse g initial source).document.slots = [] := by
  rw [slots_eq, List.flatMap_eq_nil_iff]
  intro n hn
  rw [(isRead_parse g initial source n hn).slot, Option.toList_none]

end Evomark.Markup
