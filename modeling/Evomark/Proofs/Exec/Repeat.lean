import Evomark.Registry
import Evomark.Proofs.Exec.Walk
/-!
# Passes repeated

A pass over a document that a pass with the same context has left ends like that pass and leaves the
document as it is, whether the passes complete, halt or fail (`exec_exec`). Steps stay as they are
(`runStep_again`); what changes between the two passes are the markers, which the second pass takes
away where the first has put them (`runNodes_warningMarkers`, `stripMarkers_warningMarkers`) and
then puts there again.
-/

namespace Evomark

/-! ## Markers put in by a pass are taken away again -/

/-- Warnings in front are passed over. -/
theorem runNodes_warningMarkers (rules : Table ExecRule) (warnings : List String) (rest : List Node)
    (s : ExecState) : runNodes rules (warningMarkers warnings ++ rest) s = runNodes rules rest s := by
  obtain h | ⟨marker, sep, h, hm, hw, hs⟩ := warningMarkers_cases warnings
  · rw [h, List.nil_append]
  · rw [h]
    show runNodes rules (marker :: sep :: rest) s = _
    rw [runNodes_of_marker hm]
    simp [afterMarker, hw, hs]

theorem behindHalt_behindHalt (warnings : List String) (rest : List Node) :
    behindHalt warnings (behindHalt warnings rest) = behindHalt warnings rest := by
  rw [behindHalt, stripMarkers_behindHalt, behindHalt]

/-! ## A whole pass -/

/-- Nodes executed again from the same state. -/
theorem runNodes_again (rules : Table ExecRule) (ns : List Node) (s : ExecState) :
    runNodes rules (runNodes rules ns s).nodes s = runNodes rules ns s := by
  refine runNodes_induct rules (motive := fun _ s w => runNodes rules w.nodes s = w)
    ?nil ?marker ?failed ?halted ?executed ?inside ?ended ns s
  case nil => exact fun s => rfl
  case marker => exact fun _ _ _ _ ih => ih
  case failed =>
    intro n rest s e hn hm hr
    rw [runNodes_of_error hn hm hr, stripMarkers_stripMarkers]
  case halted =>
    intro n rest s m t hn hm hr ht
    obtain ⟨hn', hm'⟩ := isCommand_of_runStep hn hm hr
    rw [runNodes_of_halted hn' hm' (runStep_again hn hr) ht, behindHalt_behindHalt]
  case executed =>
    intro n rest s m t hn hm hr ht ih
    obtain ⟨hn', hm'⟩ := isCommand_of_runStep hn hm hr
    rw [runNodes_of_ok hn' hm' (runStep_again hn hr) ht, runNodes_warningMarkers, ih]
  case inside =>
    intro label children rest s w hn hw ho ih ihrest
    rw [runNodes_of_completed hn (by rw [ih, ho]), ih, ihrest]
  case ended =>
    intro label children rest s w hn hw ho ih
    rw [runNodes_of_ended hn (by rw [ih]; exact ho), ih]

/-- A pass over what a pass with the same context has left gives the same again. -/
theorem exec_exec (rules : Table ExecRule) (document : Node) (ctx : Context) :
    exec rules (exec rules document ctx).document ctx = exec rules document ctx := by
  obtain ⟨label, children⟩ := document
  simp only [exec, runInside, runNodes_again]

/-- A repeated pass changes nothing: it ends the same way, with the same state (so with the same
position, halt and context), and leaves the same document. -/
theorem exec_converges (source : String) (ctx : Context) :
    let first := Registry.standard.exec (Registry.standard.parse source).document ctx
    let again := Registry.standard.exec first.document ctx
    again.outcome = first.outcome ∧ again.state = first.state ∧
      again.document.preorder = first.document.preorder := by
  intro first again
  have h : again = first := exec_exec _ _ _
  rw [h]
  exact ⟨rfl, rfl, rfl⟩

end Evomark
