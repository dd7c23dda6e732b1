import Evomark.Proofs.Exec.Outcome
import Evomark.Proofs.Markup.ReadNodes
/-!
# The grammar of nodes

Everything in a parsed document obeys the grammar of nodes (`Node.Obeys`). So a pass that meets the document,
or what other passes have left of it, finds a command in each assignment and nothing to execute but commands
(`grammatical_parse`).
-/

namespace Evomark

open Markup

/-- A pass over a parsed document fails only because a variable has no binding or a command no rule. -/
theorem failed_afterPasses {source : String} {passes : List Context} {ctx : Context} {e : ExecError}
    (h : (exec Registry.standard.execution (afterPasses Registry.standard.execution
      (Registry.standard.parse source).document passes) ctx).outcome = .failed e) :
    (∃ name, e = .undefinedVariable name) ∨ ∃ name, e = .unknownRule name := by
  have hfresh : AllFresh (Registry.standard.parse source).document.children := Markup.fresh_parse _ _ source
  obtain ⟨-, houtcome⟩ := ends_afterPasses Registry.standard.execution
    (Registry.standard.parse source).document passes ctx
  obtain ⟨-, hitems⟩ := runNodes_itemsOf Registry.standard.execution
    (Registry.standard.parse source).document.children (.ofContext ctx) hfresh.sepsAreLeaves
  have hfailed := (houtcome.trans hitems.symm).symm.trans h
  obtain ⟨k, ⟨n, -, hfault⟩, -⟩ := ((runNodes_scanned fun n hn =>
    ⟨(mem_itemsOf.1 hn).2, hfresh n (mem_itemsOf.1 hn).1⟩).1 e).1 hfailed
  cases hfault with
  | unbound => exact .inl ⟨_, rfl⟩
  | unknown => exact .inr ⟨_, rfl⟩

/-- Every node of a parsed document obeys the grammar of nodes, in which the bodies of functions are boxes,
texts or settings, and those of commands literal. So no pass over it, whatever passes came before, meets an
assignment without a command or a node that it cannot execute. -/
theorem grammatical_parse (source : String) :
    Registry.standard.grammar.Keeps ∧
      (∀ n ∈ (Registry.standard.parse source).document.subtrees, n.Obeys Registry.standard.grammar) ∧
      ∀ (passes : List Context) (ctx : Context),
        let rules := Registry.standard.execution
        let document := (Registry.standard.parse source).document
        let outcome := (exec rules (afterPasses rules document passes) ctx).outcome
        (∀ name, outcome ≠ .failed (.malformedAssignment name)) ∧
          ∀ kind, outcome ≠ .failed (.unexpectedNode kind) := by
  refine ⟨keeps_standard, Markup.obeys_parse _ _ source, fun passes ctx => ⟨fun name h => ?_, fun kind h => ?_⟩⟩
  · obtain ⟨_, he⟩ | ⟨_, he⟩ := failed_afterPasses h <;> cases he
  · obtain ⟨_, he⟩ | ⟨_, he⟩ := failed_afterPasses h <;> cases he

end Evomark
