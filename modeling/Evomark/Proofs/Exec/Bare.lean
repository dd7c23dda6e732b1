import Evomark.Proofs.Exec.Trace
/-!
# Documents as no pass has left them

`bareNodes` takes away what passes have left in a document: markers with their separators, and the
literals of results. A pass never changes what remains (`bareNodes_runNodes`), and it depends on
nothing else: over the bare nodes it ends in the same state and with the same outcome
(`runNodes_bareNodes`). The nodes it leaves when it completes are the same as well, unless a node
executed in it keeps a result (`KeepsResult`) that without one it would not get. Then there are more
of them (`nodes_runNodes_bareNodes`).
-/

namespace Evomark

mutual

/-- Nodes without markers and results. -/
def bareNodes : List Node → List Node
  | [] => []
  | n :: rest =>
    if n.kind.isCommand then
      if n.isMarker then
        match rest with
        | [] => []
        | sep :: more =>
          if n.isWarningMarker && sep.isMarkerSep then bareNodes more else bareNodes (sep :: more)
      else n.plain :: bareNodes rest
    else n.bare :: bareNodes rest

/-- A node that is not executed itself, without the markers and results below it. -/
def Node.bare : Node → Node
  | ⟨label, children⟩ => ⟨label, bareNodes children⟩

end

section

variable {n : Node} {rest : List Node}

theorem bareNodes_of_marker (hm : n.isMarker = true) :
    bareNodes (n :: rest) = bareNodes (afterMarker n rest) := by
  have hn := isCommand_of_isMarker hm
  cases rest with
  | nil => simp [bareNodes, afterMarker, hn, hm]
  | cons sep more =>
    rw [bareNodes]
    simp only [afterMarker, hn, hm, if_true]
    split <;> rfl

theorem bareNodes_of_command (hn : n.kind.isCommand = true) (hm : n.isMarker = false) :
    bareNodes (n :: rest) = n.plain :: bareNodes rest := by
  cases rest <;> simp [bareNodes, hn, hm]

theorem bareNodes_of_not_command {label : Label} {children : List Node}
    (hn : label.kind.isCommand = false) :
    bareNodes (⟨label, children⟩ :: rest) = ⟨label, bareNodes children⟩ :: bareNodes rest := by
  have hn' : (Node.mk label children).kind.isCommand = false := hn
  cases rest <;> simp [bareNodes, Node.bare, hn']

theorem bareNodes_warningMarkers (warnings : List String) :
    bareNodes (warningMarkers warnings ++ rest) = bareNodes rest := by
  obtain h | ⟨marker, sep, h, hm, hw, hs⟩ := warningMarkers_cases warnings
  · rw [h, List.nil_append]
  · rw [h]
    show bareNodes (marker :: sep :: rest) = _
    rw [bareNodes_of_marker hm]
    simp [afterMarker, hw, hs]

theorem bareNodes_haltMarker : bareNodes (haltMarker :: rest) = bareNodes rest := by
  rw [bareNodes_of_marker rfl]
  cases rest <;> rfl

end

theorem bareNodes_stripMarkers (ns : List Node) : bareNodes (stripMarkers ns) = bareNodes ns := by
  fun_induction stripMarkers ns with
  | case1 => rfl
  | case2 n hm => rw [bareNodes_of_marker hm]; rfl
  | case3 n hm sep more hs ih => rw [bareNodes_of_marker hm, ih, afterMarker, if_pos hs]
  | case4 n hm sep more hs ih => rw [bareNodes_of_marker hm, ih, afterMarker, if_neg hs]
  | case5 => rfl

theorem bareNodes_behindHalt (warnings : List String) (ns : List Node) :
    bareNodes (behindHalt warnings ns) = bareNodes ns := by
  unfold behindHalt
  simp only
  split
  · rw [bareNodes_warningMarkers, bareNodes_stripMarkers]
  · rw [bareNodes_haltMarker, bareNodes_warningMarkers, bareNodes_stripMarkers]

/-- A pass leaves the bare nodes as they are. -/
theorem bareNodes_runNodes (rules : Table ExecRule) (ns : List Node) (s : ExecState) :
    bareNodes (runNodes rules ns s).nodes = bareNodes ns := by
  refine runNodes_induct rules (motive := fun ns _ w => bareNodes w.nodes = bareNodes ns)
    ?nil ?marker ?failed ?halted ?executed ?inside ?ended ns s
  case nil => exact fun _ => rfl
  case marker =>
    intro n rest s hm ih
    rw [ih, bareNodes_of_marker hm]
  case failed =>
    intro n rest s e hn hm hr
    show bareNodes (n :: stripMarkers rest) = _
    rw [bareNodes_of_command hn hm, bareNodes_of_command hn hm, bareNodes_stripMarkers]
  case halted =>
    intro n rest s m t hn hm hr ht
    obtain ⟨hn', hm'⟩ := isCommand_of_runStep hn hm hr
    show bareNodes (m :: behindHalt t.warnings rest) = _
    rw [bareNodes_of_command hn' hm', bareNodes_of_command hn hm, (plain_of_runStep hn hr).2,
      bareNodes_behindHalt]
  case executed =>
    intro n rest s m t hn hm hr ht ih
    obtain ⟨hn', hm'⟩ := isCommand_of_runStep hn hm hr
    show bareNodes (m :: (warningMarkers t.warnings ++ (runNodes rules rest t.next).nodes)) = _
    rw [bareNodes_of_command hn' hm', bareNodes_of_command hn hm, (plain_of_runStep hn hr).2,
      bareNodes_warningMarkers, ih]
  case inside =>
    intro label children rest s w hn hw ho ih ihrest
    show bareNodes (⟨label, w.nodes⟩ :: (runNodes rules rest w.state).nodes) = _
    rw [bareNodes_of_not_command hn, bareNodes_of_not_command hn, ih, ihrest]
  case ended =>
    intro label children rest s w hn hw ho ih
    show bareNodes (⟨label, w.nodes⟩ :: rest) = _
    rw [bareNodes_of_not_command hn, bareNodes_of_not_command hn, ih]

/-! ## A pass over bare nodes -/

/-- The node executed in a state keeps a result that executed without it it would not have. -/
def KeepsResult (rules : Table ExecRule) (n : Node) (s : ExecState) : Prop :=
  n.plain ≠ n ∧ ∃ t, runStep rules n s = .ok (n, t) ∧ runStep rules n.plain s = .ok (n.plain, t)

/-- A step makes of a plain node what it makes of the node, unless the node keeps a result. -/
theorem runStep_plain (rules : Table ExecRule) {n : Node} (hn : n.kind.isCommand = true) (s : ExecState) :
    (∃ e, runStep rules n s = .error e ∧ runStep rules n.plain s = .error e) ∨
    (∃ m t, runStep rules n s = .ok (m, t) ∧ runStep rules n.plain s = .ok (m, t) ∧
      ¬ KeepsResult rules n s) ∨
    (∃ t, runStep rules n s = .ok (n, t) ∧ runStep rules n.plain s = .ok (n.plain, t) ∧
      KeepsResult rules n s) := by
  obtain ⟨e, he, he'⟩ | ⟨m, t, hplain, -, -, he | ⟨-, rfl, he⟩⟩ := runStep_cases rules hn s
  · exact .inl ⟨e, he', he⟩
  · refine .inr (.inl ⟨m, t, he, hplain, ?_⟩)
    rintro ⟨hne, t', hk, hk'⟩
    rw [he] at hk
    rw [hplain] at hk'
    simp only [Except.ok.injEq, Prod.mk.injEq] at hk hk'
    exact hne (hk'.1.symm.trans hk.1)
  · by_cases hp : n.plain = n
    · refine .inr (.inl ⟨n, t, he, by rw [hplain, hp], fun hk => hk.1 hp⟩)
    · exact .inr (.inr ⟨t, he, hplain, hp, t, he, hplain⟩)

theorem runStep_plain_error {rules : Table ExecRule} {n : Node} {s : ExecState} {e : ExecError}
    (hn : n.kind.isCommand = true) (hr : runStep rules n s = .error e) :
    runStep rules n.plain s = .error e := by
  obtain ⟨e', he, hp⟩ | ⟨m, t, he, -⟩ | ⟨t, he, -⟩ := runStep_plain rules hn s
  · rw [hr] at he
    rw [hp, Except.error.inj he]
  · simp [hr] at he
  · simp [hr] at he

theorem runStep_plain_ok {rules : Table ExecRule} {n m : Node} {s t : ExecState}
    (hn : n.kind.isCommand = true) (hr : runStep rules n s = .ok (m, t)) :
    ∃ m', runStep rules n.plain s = .ok (m', t) := by
  obtain ⟨e, he, -⟩ | ⟨m', t', he, hp, -⟩ | ⟨t', he, hp, -⟩ := runStep_plain rules hn s
  · simp [hr] at he
  · rw [hr] at he
    obtain ⟨rfl, rfl⟩ := Prod.mk.inj (Except.ok.inj he)
    exact ⟨m, hp⟩
  · rw [hr] at he
    obtain ⟨rfl, rfl⟩ := Prod.mk.inj (Except.ok.inj he)
    exact ⟨_, hp⟩

/-- A pass over bare nodes ends in the same state and with the same outcome. -/
theorem runNodes_bareNodes (rules : Table ExecRule) (ns : List Node) (s : ExecState) :
    (runNodes rules (bareNodes ns) s).state = (runNodes rules ns s).state ∧
      (runNodes rules (bareNodes ns) s).outcome = (runNodes rules ns s).outcome := by
  refine runNodes_induct rules (motive := fun ns s w =>
      (runNodes rules (bareNodes ns) s).state = w.state ∧
        (runNodes rules (bareNodes ns) s).outcome = w.outcome)
    ?nil ?marker ?failed ?halted ?executed ?inside ?ended ns s
  case nil => exact fun _ => ⟨rfl, rfl⟩
  case marker =>
    intro n rest s hm ih
    rwa [bareNodes_of_marker hm]
  case failed =>
    intro n rest s e hn hm hr
    rw [bareNodes_of_command hn hm, runNodes_of_error (n.isCommand_plain.trans hn)
      (n.isMarker_plain.trans hm) (runStep_plain_error hn hr)]
    exact ⟨rfl, rfl⟩
  case halted =>
    intro n rest s m t hn hm hr ht
    obtain ⟨m', hp⟩ := runStep_plain_ok hn hr
    rw [bareNodes_of_command hn hm, runNodes_of_halted (n.isCommand_plain.trans hn)
      (n.isMarker_plain.trans hm) hp ht]
    exact ⟨rfl, rfl⟩
  case executed =>
    intro n rest s m t hn hm hr ht ih
    obtain ⟨m', hp⟩ := runStep_plain_ok hn hr
    rw [bareNodes_of_command hn hm, runNodes_of_ok (n.isCommand_plain.trans hn)
      (n.isMarker_plain.trans hm) hp ht]
    exact ih
  case inside =>
    intro label children rest s w hn hw ho ih ihrest
    rw [bareNodes_of_not_command hn, runNodes_of_completed hn (ih.2.trans ho), ih.1]
    exact ihrest
  case ended =>
    intro label children rest s w hn hw ho ih
    rw [bareNodes_of_not_command hn, runNodes_of_ended hn (by rw [ih.2]; exact ho)]
    exact ih

/-! ## How many nodes there are -/

namespace Node

theorem preorderAll_cons (depth : Nat) (n : Node) (rest : List Node) :
    preorderAll depth (n :: rest) = preorderFrom depth n ++ preorderAll depth rest := by
  rw [preorderAll]

theorem length_preorderFrom_pos (depth : Nat) (n : Node) : 0 < (preorderFrom depth n).length := by
  obtain ⟨label, children⟩ := n
  simp [preorderFrom]

theorem length_preorderAll_filter_le (p : Node → Bool) (depth : Nat) (ns : List Node) :
    (preorderAll depth (ns.filter p)).length ≤ (preorderAll depth ns).length := by
  induction ns with
  | nil => exact Nat.le_refl _
  | cons n rest ih =>
    rw [List.filter_cons, preorderAll_cons, List.length_append]
    split
    · rw [preorderAll_cons, List.length_append]
      omega
    · omega

theorem length_preorderAll_filter_lt {p : Node → Bool} {ns : List Node} (depth : Nat)
    (h : ns.filter p ≠ ns) :
    (preorderAll depth (ns.filter p)).length < (preorderAll depth ns).length := by
  induction ns with
  | nil => exact absurd rfl h
  | cons n rest ih =>
    rw [List.filter_cons] at h ⊢
    rw [preorderAll_cons, List.length_append]
    split at h
    · rename_i hp
      rw [if_pos hp, preorderAll_cons, List.length_append]
      have := ih fun he => h (by rw [he])
      omega
    · rename_i hp
      rw [if_neg hp]
      have := length_preorderFrom_pos depth n
      have := length_preorderAll_filter_le p depth rest
      omega

theorem length_preorderFrom_plain_lt {n : Node} (depth : Nat) (h : n.plain ≠ n) :
    (preorderFrom depth n.plain).length < (preorderFrom depth n).length := by
  obtain ⟨label, children⟩ := n
  by_cases hv : (Node.mk label children).kind = .varAssign
  · exact absurd (plain_of_varAssign hv) h
  · rw [plain_of_ne hv] at h ⊢
    simp only [withChildren, preorderFrom, List.length_cons, Nat.add_lt_add_iff_right]
    exact length_preorderAll_filter_lt _ fun he => h (by simp only [withChildren, he])

end Node

/-- The shown nodes are the bare ones, or, if a result is kept, more than these. -/
structure MoreIf (kept : Prop) (bare shown : List Node) : Prop where
  same : ¬ kept → bare = shown
  more : kept → ∀ depth, (Node.preorderAll depth bare).length < (Node.preorderAll depth shown).length

namespace MoreIf

variable {k k' : Prop} {ns ns' ms ms' : List Node}

theorem refl (hk : ¬ k) (ns : List Node) : MoreIf k ns ns := ⟨fun _ => rfl, fun h => absurd h hk⟩

theorem le (h : MoreIf k ns ms) (depth : Nat) :
    (Node.preorderAll depth ns).length ≤ (Node.preorderAll depth ms).length := by
  by_cases hk : k
  · exact Nat.le_of_lt (h.more hk depth)
  · obtain rfl := h.same hk
    exact Nat.le_refl _

theorem append (h : MoreIf k ns ms) (h' : MoreIf k' ns' ms') :
    MoreIf (k ∨ k') (ns ++ ns') (ms ++ ms') := by
  refine ⟨fun hk => ?_, fun hk depth => ?_⟩
  · rw [h.same fun hk' => hk (.inl hk'), h'.same fun hk' => hk (.inr hk')]
  · have hle := h.le depth
    have hle' := h'.le depth
    rw [Node.preorderAll_append, Node.preorderAll_append, List.length_append, List.length_append]
    rcases hk with hk | hk
    · have := h.more hk depth
      omega
    · have := h'.more hk depth
      omega

theorem inside (label : Label) (h : MoreIf k ns ms) : MoreIf k [⟨label, ns⟩] [⟨label, ms⟩] := by
  refine ⟨fun hk => by rw [h.same hk], fun hk depth => ?_⟩
  have := h.more hk (depth + 1)
  simp only [Node.preorderAll, Node.preorderFrom, List.append_nil, List.length_cons]
  omega

end MoreIf

/-- Nodes that keep a result are more than their plain forms. -/
theorem moreIf_runStep {rules : Table ExecRule} {n m : Node} {s t : ExecState}
    (hn : n.kind.isCommand = true) (hr : runStep rules n s = .ok (m, t)) :
    ∃ m', runStep rules n.plain s = .ok (m', t) ∧ MoreIf (KeepsResult rules n s) [m'] [m] := by
  obtain ⟨e, he, -⟩ | ⟨m', t', he, hp, hk⟩ | ⟨t', he, hp, hk⟩ := runStep_plain rules hn s
  · simp [hr] at he
  · rw [hr] at he
    obtain ⟨rfl, rfl⟩ := Prod.mk.inj (Except.ok.inj he)
    exact ⟨m, hp, .refl hk _⟩
  · rw [hr] at he
    obtain ⟨rfl, rfl⟩ := Prod.mk.inj (Except.ok.inj he)
    refine ⟨_, hp, fun h => absurd hk h, fun _ depth => ?_⟩
    simp only [Node.preorderAll, List.append_nil]
    exact Node.length_preorderFrom_plain_lt depth hk.1

/-- A pass that completes leaves the nodes it leaves over bare nodes, or, if some node keeps a result
in it, more than these. -/
theorem nodes_runNodes_bareNodes (rules : Table ExecRule) (ns : List Node) (s : ExecState)
    (ho : (runNodes rules ns s).outcome = .completed) :
    MoreIf (∃ step ∈ stepsOf rules ns s, KeepsResult rules step.1 step.2)
      (runNodes rules (bareNodes ns) s).nodes (runNodes rules ns s).nodes := by
  revert ho
  refine runNodes_induct rules (motive := fun ns s w => w.outcome = .completed →
      MoreIf (∃ step ∈ stepsOf rules ns s, KeepsResult rules step.1 step.2)
        (runNodes rules (bareNodes ns) s).nodes w.nodes)
    ?nil ?marker ?failed ?halted ?executed ?inside ?ended ns s
  case nil => exact fun _ _ => .refl (by simp [stepsOf]) []
  case marker =>
    intro n rest s hm ih ho
    rw [stepsOf_of_marker hm, bareNodes_of_marker hm]
    exact ih ho
  case failed => exact fun _ _ _ _ _ _ _ ho => by simp at ho
  case halted => exact fun _ _ _ _ _ _ _ _ _ ho => by simp at ho
  case executed =>
    intro n rest s m t hn hm hr ht ih ho
    obtain ⟨m', hp, hmore⟩ := moreIf_runStep hn hr
    rw [stepsOf_of_ok hn hm hr ht, bareNodes_of_command hn hm,
      runNodes_of_ok (n.isCommand_plain.trans hn) (n.isMarker_plain.trans hm) hp ht]
    simp only [List.mem_cons, exists_eq_or_imp]
    have hmarkers := MoreIf.refl (not_false) (warningMarkers t.warnings)
    simpa using hmore.append (hmarkers.append (ih ho))
  case inside =>
    intro label children rest s w hn hw hcompleted ih ihrest ho
    subst hw
    obtain ⟨hs, hout⟩ := runNodes_bareNodes rules children s
    rw [stepsOf_of_completed hn hcompleted, bareNodes_of_not_command hn,
      runNodes_of_completed hn (hout.trans hcompleted), hs]
    simp only [List.mem_append, or_and_right, exists_or]
    exact ((ih hcompleted).inside label).append (ihrest ho)
  case ended => exact fun _ _ _ _ w _ _ hne _ ho => absurd ho hne

end Evomark
