import Evomark.Proofs.Exec.Items
import Evomark.Proofs.Markup.ReadNodes
/-!
# Commands as they are read

In a document just read no command shows a result, an assignment stands over its command, and nothing
is below the separators that a pass can meet (`fresh_parse`). This holds of every source, well formed
or not, and every grammar.
-/

namespace Evomark

/-- A node as it is read: without results, and an assignment over one command. -/
def Node.IsFresh (n : Node) : Prop :=
  match n.kind with
  | .cmd => ∀ m ∈ n.children, m.kind ≠ .literal
  | .varUse | .sep => n.children = []
  | .varAssign => ∃ command, n.children = [command] ∧ command.kind = .cmd
  | _ => True

/-- All nodes that a pass can meet are as they are read. -/
def AllFresh (ns : List Node) : Prop := Throughout Node.IsFresh ns

theorem AllFresh.sepsAreLeaves {ns : List Node} (h : AllFresh ns) : SepsAreLeaves ns := by
  intro m hm hk
  have hfresh := h m hm
  unfold Node.IsFresh at hfresh
  rwa [hk] at hfresh

mutual

/-- What a pass can meet of a node are the node itself and nodes below it. -/
theorem outer_sublist : ∀ n : Node, n.outer.Sublist n.subtrees
  | ⟨label, children⟩ => by
    rw [Node.outer, Node.subtrees]
    refine .cons_cons _ ?_
    split
    · exact List.nil_sublist _
    · exact outerNodes_sublist children

theorem outerNodes_sublist : ∀ ns : List Node, (outerNodes ns).Sublist (Node.subtreesAll ns)
  | [] => .slnil
  | n :: rest => by
    rw [outerNodes, Node.subtreesAll]
    exact (outer_sublist n).append (outerNodes_sublist rest)

end

theorem Node.Obeys.isFresh {g : Grammar} {n : Node} (h : n.Obeys g) : n.IsFresh := by
  unfold Node.Obeys at h
  unfold Node.IsFresh
  cases hk : n.kind <;> rw [hk] at h
  case cmd =>
    intro m hm hliteral
    rcases h.kinds m hm with hparam | hbody
    · exact Kind.noConfusion (hliteral.symm.trans hparam)
    · exact Kind.noConfusion (hliteral.symm.trans hbody)
  case varUse | sep | varAssign => exact h
  all_goals trivial

/-- The nodes of a document just read are as they are read. -/
theorem Markup.fresh_parse (g : Grammar) (initial : Table Json) (source : String) :
    AllFresh (parse g initial source).document.children := by
  intro n hn
  refine (obeys_parse g initial source n ?_).isFresh
  exact .tail _ ((outerNodes_sublist _).subset hn)

end Evomark
