import Evomark.Proofs.Exec.Bare
import Evomark.Proofs.Markup.Commands
/-!
# Passes after other passes

What earlier passes have left in a document, whatever their contexts were and however they ended,
is no part of its bare nodes, and a document just read is bare but for markers (`untouched_parse`).
So a pass that completes leaves the document that it would have left had there been no earlier
ones, if no node keeps a result of an earlier pass in it, and only then
(`exec_afterPasses`). A use of a variable never keeps one; `upper` does when the text of its
body is not known.
-/

namespace Evomark

/-! ## Documents just read show no results -/

/-- No command among the nodes, or below those that are not executed themselves, shows a result. -/
def Untouched (ns : List Node) : Prop := ∀ i, ∀ command ∈ commandsOf i ns, command.2.plain = command.2

theorem Node.IsFresh.plain {n : Node} (h : n.IsFresh) (hn : n.kind.isCommand = true) : n.plain = n := by
  unfold IsFresh at h
  cases hk : n.kind <;> rw [hk] at h hn <;> try exact absurd hn (by decide)
  case varAssign => exact plain_of_varAssign hk
  all_goals
    rw [plain_of_ne (by rw [hk]; decide)]
    obtain ⟨label, children⟩ := n
    simp_all [withChildren]

/-- A document just read shows no results. -/
theorem Markup.untouched_parse (g : Grammar) (initial : Table Json) (source : String) :
    Untouched (parse g initial source).document.children := by
  intro i command hc
  have hmem := List.mem_map_of_mem (f := (·.2)) hc
  rw [map_commandsOf, List.mem_filter] at hmem
  exact (fresh_parse g initial source _ hmem.1).plain hmem.2

/-! ## Histories -/

/-- The document that passes with these contexts, one after the other, leave of a document. -/
def afterPasses (rules : Table ExecRule) (document : Node) (passes : List Context) : Node :=
  passes.foldl (fun document ctx => (exec rules document ctx).document) document

/-- Passes leave the bare form of a document as it is. -/
theorem bare_afterPasses (rules : Table ExecRule) (document : Node) (passes : List Context) :
    (afterPasses rules document passes).bare = document.bare := by
  induction passes generalizing document with
  | nil => rfl
  | cons ctx more ih =>
    show (afterPasses rules (exec rules document ctx).document more).bare = _
    rw [ih]
    obtain ⟨label, children⟩ := document
    simp only [exec, runInside, Node.bare, bareNodes_runNodes]

/-- A pass over a document that shows no results has none to keep. -/
theorem not_keepsResult_of_untouched {rules : Table ExecRule} {ns : List Node} {s : ExecState}
    (h : Untouched ns) : ¬ ∃ step ∈ stepsOf rules ns s, KeepsResult rules step.1 step.2 := by
  rintro ⟨step, hs, hk⟩
  obtain ⟨place, hc⟩ := mem_commandsOf_of_mem_stepsOf ns s 0 hs
  exact hk.1 (h 0 _ hc)

/-- What a pass makes of a document it makes of the bare document as well, up to results kept. -/
theorem exec_bare (rules : Table ExecRule) (document : Node) (ctx : Context) :
    (exec rules document.bare ctx).state = (exec rules document ctx).state ∧
      (exec rules document.bare ctx).outcome = (exec rules document ctx).outcome ∧
      ((exec rules document ctx).outcome = .completed →
        MoreIf (∃ step ∈ stepsOf rules document.children (.ofContext ctx), KeepsResult rules step.1 step.2)
          [(exec rules document.bare ctx).document] [(exec rules document ctx).document]) := by
  obtain ⟨label, children⟩ := document
  obtain ⟨hs, ho⟩ := runNodes_bareNodes rules children (.ofContext ctx)
  refine ⟨hs, ho, fun hcompleted => ?_⟩
  exact (nodes_runNodes_bareNodes rules children (.ofContext ctx) hcompleted).inside label

namespace Node

/-- What a document shows: kinds, texts, data and layouts in reading order. -/
def shown (n : Node) : List (Kind × String × Option Json × Option Layout) :=
  n.preorder.map fun (_, label) => (label.kind, label.content, label.value, label.layout)

end Node

theorem MoreIf.shown_eq_iff {kept : Prop} {bare document : Node} (h : MoreIf kept [bare] [document]) :
    document.shown = bare.shown ↔ ¬ kept := by
  refine ⟨fun he hk => ?_, fun hk => ?_⟩
  · have hlt := h.more hk 0
    have hlength := congrArg List.length he
    simp only [Node.shown, Node.preorder, List.length_map] at hlength
    simp only [Node.preorderAll, List.append_nil] at hlt
    omega
  · rw [List.singleton_inj.1 (h.same hk)]

/-- Whatever passes came before, a pass ends with the same state and outcome. -/
theorem ends_afterPasses (rules : Table ExecRule) (document : Node) (passes : List Context) (ctx : Context) :
    let last := exec rules (afterPasses rules document passes) ctx
    last.state = (exec rules document ctx).state ∧ last.outcome = (exec rules document ctx).outcome := by
  obtain ⟨hs, ho, -⟩ := exec_bare rules (afterPasses rules document passes) ctx
  obtain ⟨hs', ho', -⟩ := exec_bare rules document ctx
  rw [bare_afterPasses] at hs ho
  exact ⟨hs.symm.trans hs', ho.symm.trans ho'⟩

/-- Whatever passes came before, a pass ends with the same state and outcome. When it completes, the
document shows what it would show had there been no earlier passes, exactly if no node keeps a
result in it. -/
theorem exec_afterPasses (source : String) (passes : List Context) (ctx : Context) :
    let rules := Registry.standard.execution
    let document := (Registry.standard.parse source).document
    let left := afterPasses rules document passes
    let last := exec rules left ctx
    let fresh := exec rules document ctx
    last.state = fresh.state ∧ last.outcome = fresh.outcome ∧
      (last.outcome = .completed →
        (last.document.shown = fresh.document.shown ↔
          ∀ step ∈ stepsOf rules left.children (.ofContext ctx), ¬ KeepsResult rules step.1 step.2)) := by
  intro rules document left last fresh
  obtain ⟨hs, ho, hmore⟩ := exec_bare rules left ctx
  obtain ⟨hs', ho', hmore'⟩ := exec_bare rules document ctx
  rw [bare_afterPasses] at hs ho hmore
  refine ⟨hs.symm.trans hs', ho.symm.trans ho', fun hcompleted => ?_⟩
  have hfresh := hmore' ((ho'.symm.trans ho).trans hcompleted)
  have huntouched : Untouched document.children := Markup.untouched_parse _ _ source
  rw [hfresh.shown_eq_iff.2 (not_keepsResult_of_untouched huntouched), (hmore hcompleted).shown_eq_iff]
  simp only [not_exists, not_and]

/-- The result that `upper` has of a saved text is still there after a pass in which that text is not
saved any more and the variable has no value. -/
theorem shown_upper_without_value :
    let rules := Registry.standard.execution
    let document := (Registry.standard.parse "%x = $init\x7b%g\x7d\n$upper\x7b%x\x7d").document
    let left := afterPasses rules document [{ saved := [("x", ⟨.str, .string "hi"⟩)] }]
    (exec rules left {}).outcome = .completed ∧
      (exec rules left {}).document.shown ≠ (exec rules document {}).document.shown := by
  refine ⟨by decide +kernel, fun h => ?_⟩
  have hlength := congrArg List.length h
  revert hlength
  decide +kernel

theorem keepsResult_upper_without_value :
    let rules := Registry.standard.execution
    let document := (Registry.standard.parse "%x = $init\x7b%g\x7d\n$upper\x7b%x\x7d").document
    let left := afterPasses rules document [{ saved := [("x", ⟨.str, .string "hi"⟩)] }]
    (exec rules left {}).outcome = .completed ∧
      ∃ step ∈ stepsOf rules left.children (.ofContext {}), KeepsResult rules step.1 step.2 := by
  obtain ⟨-, -, h⟩ := exec_afterPasses "%x = $init\x7b%g\x7d\n$upper\x7b%x\x7d"
    [{ saved := [("x", ⟨.str, .string "hi"⟩)] }] {}
  have hcompleted : (exec Registry.standard.execution (afterPasses Registry.standard.execution
      (Registry.standard.parse "%x = $init\x7b%g\x7d\n$upper\x7b%x\x7d").document
      [{ saved := [("x", ⟨.str, .string "hi"⟩)] }]) {}).outcome = .completed := by decide +kernel
  refine ⟨hcompleted, by_contra fun hno => ?_⟩
  simp only [not_exists, not_and] at hno
  have hlength := congrArg List.length ((h hcompleted).2 hno)
  revert hlength
  decide +kernel

end Evomark
