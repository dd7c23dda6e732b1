import Evomark.Proofs.Markup.Built
/-!
# Bindings and their warnings

A reference is a name for a function, and an assignment one for what a command gives. Where the function or
the command is missing, a step of a reader takes the sign, the name and the equality sign, and leaves a
warning below the root and no node (`onlyWarns_reference`, `onlyWarns_assignment`). There is one exception: a
reference whose number sign starts no function is warned of, but its node stays. No step takes that number
sign, so it is left unread, and the document is not complete (`reported_readWindow`). In a document that is
complete all references and assignments have what they bind (`bindings_parse`).
-/

namespace Evomark

/-! ## Steps over malformed bindings -/

namespace Markup.Reader

/-- The step takes something, and all that it leaves of it is a warning below the root. -/
structure OnlyWarns (r : Reader) (found : Bool × Reader) (message : String) : Prop where
  taken : found.1 = true
  made : r.made.Gives found.2.made (fun q => if q = Tree.root then [warningNode message] else []) [] true

theorem Takes.onlyWarns {r : Reader} {found : Bool × Reader} {message : String} {rest : Window}
    (h : r.Takes found (some ({ warnings := [message] }, rest))) : r.OnlyWarns found message :=
  ⟨h.1, h.2.2.congr fun q _ => by simp [below]⟩

section

variable {n : Nat} {read : Reads n} {g : Grammar}
  (hread : ∀ (r : Reader) (h : r.rest.length < n), Ready r.tree r.current → r.GivesContents g (read r h))

include hread

/-- A reference without an equality sign, or without a number sign behind it. -/
theorem onlyWarns_reference (r : Reader) (h : r.rest.length ≤ n) (hr : Ready r.tree r.current)
    (hs : r.rest.chars.head? = some '@')
    (ht : ∀ target ∈ Segment.afterEquals? r.behindName.rest, target.chars.head? ≠ some '#') :
    r.OnlyWarns (reference read g r h) (referenceWarning r.rest.tail.name) := by
  have htakes := takes_reference hread r h hr
  obtain ⟨rest, hsegment⟩ :
      ∃ rest, Segment.reference? r.rest = some (.danglingReference r.rest.tail.name, rest) := by
    obtain ⟨more, hchars⟩ := List.head?_eq_some_iff.1 hs
    rw [Segment.reference?, hchars]
    simp only [if_true]
    cases he : Segment.afterEquals? r.rest.tail.afterName with
    | none => exact ⟨_, rfl⟩
    | some target =>
      have hne := ht target he
      simp only [beq_iff_eq, hne, if_false]
      exact ⟨_, rfl⟩
  rw [hsegment] at htakes
  exact htakes.onlyWarns

/-- An assignment without a command. -/
theorem onlyWarns_assignment (r : Reader) (h : r.rest.length ≤ n) (hr : Ready r.tree r.current)
    (hs : r.startsWith '%' = true) {target : Window}
    (ht : Segment.afterEquals? r.behindName.rest = some target)
    (hc : Window.startsConstruct '$' target.chars = false) :
    r.OnlyWarns (assignment read g r h) (assignmentWarning r.rest.tail.name) := by
  have htakes := takes_assignment hread r h hr
  have hsegment : Segment.assignmentOrUse? r.rest = some (.danglingAssignment r.rest.tail.name, target) := by
    have hcall : Segment.call? '$' target = none := if_neg (by rw [hc]; exact Bool.false_ne_true)
    rw [Segment.assignmentOrUse?, ← startsWith, if_pos hs]
    simp only [show Segment.afterEquals? r.rest.tail.afterName = some target from ht, hcall]
  rw [hsegment] at htakes
  exact htakes.onlyWarns

end

end Markup.Reader

/-! ## References without a function -/

namespace Segment

/-- No segment starts with a number sign that starts no function. -/
theorem read?_of_stuck {w : Window} (hhead : w.chars.head? = some '#')
    (hstart : Window.startsConstruct '#' w.chars = false) : read? w = none := by
  obtain ⟨rest, hchars⟩ := List.head?_eq_some_iff.1 hhead
  have hfunction : function? w = none := by
    rw [function?, calls?_of_call?_none (if_neg (by rw [hstart]; exact Bool.false_ne_true))]
    rfl
  have hother {sigil : Char} (hne : '#' ≠ sigil) : Window.startsConstruct sigil w.chars = false := by
    rw [hchars]
    cases rest with
    | nil => rfl
    | cons d more => simp [Window.startsConstruct, hne]
  have hprose : prose? w = none := by simp [prose?, hchars, splitProse]
  have hreference : reference? w = none := by
    rw [reference?, hchars]
    rfl
  have hcommand : command? w = none := by
    rw [command?, call?, hother (by decide)]
    rfl
  have hassignment : assignmentOrUse? w = none := by
    rw [assignmentOrUse?, hother (by decide)]
    rfl
  rw [read?, hprose, hfunction, hreference, hcommand, hassignment]
  rfl

/-- A reference without a function is read up to the number sign that starts none. -/
theorem stuck_of_emptyReference {w next : Window} {name : String}
    (h : read? w = some (.emptyReference name, next)) :
    next.chars.head? = some '#' ∧ Window.startsConstruct '#' next.chars = false := by
  cases found_of_read? h with
  | emptyReference _ _ hhead hnone =>
    refine ⟨hhead, ?_⟩
    by_contra hstart
    rw [Bool.not_eq_false] at hstart
    obtain ⟨call, more, rest, hsome⟩ := exists_calls? (w := next) (if_pos hstart)
    rw [hnone] at hsome
    cases hsome

end Segment

/-- Before a number sign that starts no function a window ends. -/
theorem Window.segments_of_stuck {w : Window} (hhead : w.chars.head? = some '#')
    (hstart : startsConstruct '#' w.chars = false) : w.segments = ([], w) := by
  have hne : w.chars ≠ [] := fun hnil => by rw [hnil] at hhead; cases hhead
  rw [segments, dif_neg hne, if_neg (by rw [hhead]; decide)]
  split
  · rfl
  · rename_i hread
    rw [Segment.read?_of_stuck hhead hstart] at hread
    cases hread

/-- Where a reference without a function has been read, the window is not read to its end. -/
theorem Window.rest_of_emptyReference {w : Window} {name : String}
    (h : .emptyReference name ∈ w.segments.1) : w.segments.2.chars ≠ [] := by
  fun_induction Window.segments w with
  | case1 => cases h
  | case2 w hw hbreak ih => exact ih h
  | case3 => cases h
  | case4 w hw hbreak segment next hread more rest hnext ih =>
    rcases List.mem_cons.1 h with rfl | h
    · obtain ⟨hhead, hstart⟩ := Segment.stuck_of_emptyReference hread
      obtain ⟨-, rfl⟩ := Prod.mk.inj (hnext.symm.trans (Window.segments_of_stuck hhead hstart))
      rintro hnil
      rw [hnil] at hhead
      cases hhead
    · rw [hnext] at ih
      exact ih h

namespace Markup

/-- If the node is a reference without a function, it is warned of, and something is not read. -/
def Reported (warnings : List String) (complete : Bool) (n : Node) : Prop :=
  n.kind = .ref → n.children = [] → referenceWarning n.content ∈ warnings ∧ complete = false

/-- The references without a function that are found are reported by the window. -/
def ReportsAll (c : Contents) : Prop :=
  ∀ f ∈ c.findings, Everywhere (Reported c.inside.warnings c.complete) f.node.toList

variable {g : Grammar}

theorem Reported.mono {ns : List Node} {warnings warnings' : List String} {complete complete' : Bool}
    (h : Everywhere (Reported warnings complete) ns) (hw : ∀ m ∈ warnings, m ∈ warnings')
    (hc : complete = false → complete' = false) : Everywhere (Reported warnings' complete') ns :=
  h.mono fun _ hn hk hleaf => ⟨hw _ (hn hk hleaf).1, hc (hn hk hleaf).2⟩

section

variable {read : Window → Contents}

theorem reported_readBody (hread : ∀ w, ReportsAll (read w)) (rule : BodyRule) (param : Option Json) (w : Window) :
    let inside := readBody read rule param w
    Everywhere (Reported inside.warnings inside.complete) inside.children := by
  cases rule with
  | box =>
    show Everywhere _ ((read w).findings.filterMap (·.node))
    rw [List.filterMap_eq_flatMap_toList]
    exact .flatMap (hread w)
  | code | reject => exact .nil
  | literal =>
    refine .leaves fun n hn => ?_
    cases isItem_of_mem_literalNodesFrom hn <;> exact ⟨rfl, Kind.noConfusion⟩
  | config space =>
    simp only [readBody, readSettings]
    split <;> exact .leaf Kind.noConfusion
  | shout => exact .leaf Kind.noConfusion

theorem reported_readClauses (hread : ∀ w, ReportsAll (read w)) (rule : BodyRule) {bodyKind : Kind}
    (hb : bodyKind.isBody = true) (param : Option Json) (clauses : List Clause) :
    let parts := readClauses read rule bodyKind param clauses
    Everywhere (Reported parts.warnings parts.complete) parts.nodes := by
  induction clauses generalizing param with
  | nil => exact .nil
  | cons clause more ih =>
    cases clause with
    | param raw value span => exact Everywhere.append (.leaf Kind.noConfusion) (ih (some value))
    | body layout inner =>
      have hne : bodyKind ≠ .ref := by
        rintro rfl
        exact absurd hb (by decide)
      have hbody := reported_readBody hread rule param inner
      refine Everywhere.append (.node (fun hk => absurd hk hne) (Reported.mono hbody ?_ ?_))
        (Reported.mono (ih param) ?_ ?_)
      · exact fun m hm => List.mem_append_left _ hm
      · exact fun hc => Bool.and_eq_false_iff.2 (.inl hc)
      · exact fun m hm => List.mem_append_right _ hm
      · exact fun hc => Bool.and_eq_false_iff.2 (.inr hc)

theorem reported_readCommand (hread : ∀ w, ReportsAll (read w)) (call : Call) :
    let f := readCommand g read call
    Everywhere (Reported f.warnings f.complete) f.node.toList :=
  .node Kind.noConfusion (reported_readClauses hread _ rfl none call.clauses)

theorem reported_readFunction (hread : ∀ w, ReportsAll (read w)) (call : Call) (nested : List Call) :
    let f := readFunction g read call nested
    Everywhere (Reported f.warnings f.complete) f.node.toList := by
  induction nested generalizing call with
  | nil => exact .node Kind.noConfusion (reported_readClauses hread _ rfl none call.clauses)
  | cons next more ih =>
    have hparts := reported_readClauses hread (g.functionRule call.name) (rfl : Kind.funcBody.isBody = true) none
      call.clauses
    refine Everywhere.node Kind.noConfusion ((Reported.mono hparts ?_ ?_).append
      (.node Kind.noConfusion (Reported.mono (ih next) ?_ ?_)))
    · exact fun m hm => List.mem_append_left _ hm
    · exact fun hc => Bool.and_eq_false_iff.2 (.inl hc)
    · exact fun m hm => List.mem_append_right _ hm
    · exact fun hc => Bool.and_eq_false_iff.2 (.inr hc)

/-- What a segment gives. A reference without a function is not read to the end, but for that the window
has to answer. -/
theorem reported_readSegment (hread : ∀ w, ReportsAll (read w)) (segment : Segment) {complete : Bool}
    (hc : (readSegment g read segment).complete = false → complete = false)
    (he : ∀ name, segment = .emptyReference name → complete = false) :
    Everywhere (Reported (readSegment g read segment).warnings complete)
      (readSegment g read segment).node.toList := by
  cases segment with
  | prose raw =>
    simp only [readSegment]
    split
    · exact .nil
    · exact .leaf Kind.noConfusion
  | function call nested => exact Reported.mono (reported_readFunction hread call nested) (fun _ hm => hm) hc
  | reference name call nested =>
    refine Everywhere.node (fun _ hleaf => ?_)
      (Reported.mono (reported_readFunction hread call nested) (fun _ hm => hm) hc)
    cases nested <;> cases hleaf
  | danglingReference | danglingAssignment => exact .nil
  | emptyReference name => exact .leaf fun _ _ => ⟨.head _, he name rfl⟩
  | command call => exact Reported.mono (reported_readCommand hread call) (fun _ hm => hm) hc
  | use name => exact .leaf Kind.noConfusion
  | assignment name call =>
    exact .node Kind.noConfusion (Reported.mono (reported_readCommand hread call) (fun _ hm => hm) hc)

end

/-! ## Documents -/

/-- A window reports what its segments and the windows inside it give. -/
theorem reported_readWindow (g : Grammar) (fuel : Nat) (w : Window) : ReportsAll (readWindow g fuel w) := by
  induction fuel generalizing w with
  | zero => simp [ReportsAll, readWindow]
  | succ fuel ih =>
    refine List.forall_mem_map.2 fun segment hs => ?_
    have hfinding : readSegment g (readWindow g fuel) segment ∈ (readWindow g (fuel + 1) w).findings :=
      List.mem_map_of_mem hs
    refine Reported.mono (reported_readSegment ih segment (fun h => ?_) fun name he => ?_)
      (fun m hm => List.mem_flatMap.2 ⟨_, hfinding, hm⟩) (fun h => h)
    · exact Bool.and_eq_false_iff.2 (.inr (List.all_eq_false.2 ⟨_, hfinding, Bool.eq_false_iff.1 h⟩))
    · refine Bool.and_eq_false_iff.2 (.inl (Bool.eq_false_iff.2 fun h => ?_))
      exact Window.rest_of_emptyReference (he ▸ hs) (List.isEmpty_iff.1 h)

/-- A reference without a function is warned of below the root, and the source is not complete. -/
theorem reported_parse (g : Grammar) (initial : Table Json) (source : String) {n : Node}
    (hn : n ∈ (parse g initial source).document.subtrees) (hk : n.kind = .ref) (hleaf : n.children = []) :
    warningNode (referenceWarning n.content) ∈ (parse g initial source).document.children ∧
      (parse g initial source).complete = false := by
  obtain ⟨c, hc⟩ : ∃ c, c = contents g (.ofSource source) := ⟨_, rfl⟩
  have hreports : ReportsAll c := hc ▸ reported_readWindow g _ _
  have hroot : Everywhere (Reported c.inside.warnings c.complete) [(parse g initial source).document] := by
    refine .node Kind.noConfusion (.flatMap fun f hf => ?_)
    refine (hreports f (hc ▸ hf)).append (.leaves fun m hm => ?_)
    obtain ⟨message, -, rfl⟩ := List.mem_map.1 hm
    exact ⟨rfl, Kind.noConfusion⟩
  obtain ⟨hwarned, hstopped⟩ := hroot n (List.mem_append_left _ hn) hk hleaf
  obtain ⟨f, hf, hmessage⟩ := List.mem_flatMap.1 hwarned
  rw [hc] at hf hstopped
  refine ⟨List.mem_flatMap.2 ⟨f, hf, ?_⟩, hstopped⟩
  exact List.mem_append_right _ (List.mem_map_of_mem hmessage)

end Markup

/-- In a parsed document an assignment has exactly one child, a command. A reference has exactly one child, a
function, or it has none: then a warning below the root says so, and the source has not been read to its end.
Any other step over a binding without its function or command leaves a warning below the root and nothing
else. -/
theorem bindings_parse (source : String) :
    (∀ n ∈ (Registry.standard.parse source).document.subtrees,
      (n.kind = .varAssign → ∃ command, n.children = [command] ∧ command.kind = .cmd) ∧
      (n.kind = .ref → (∃ function, n.children = [function] ∧ function.kind = .func) ∨
        n.children = [] ∧ (Registry.standard.parse source).complete = false ∧
          Markup.warningNode (Markup.referenceWarning n.content) ∈
            (Registry.standard.parse source).document.children)) ∧
    ∀ r : Markup.Reader, Markup.Ready r.tree r.current →
      let g := Registry.standard.grammar
      let read : Markup.Reader.Reads r.rest.length := fun r' _ => Markup.Reader.core g r'
      let name := r.rest.tail.name
      let behind := Segment.afterEquals? r.behindName.rest
      (r.rest.chars.head? = some '@' → (∀ target ∈ behind, target.chars.head? ≠ some '#') →
        r.OnlyWarns (Markup.Reader.reference read g r (Nat.le_refl _)) (Markup.referenceWarning name)) ∧
      (r.startsWith '%' = true → ∀ target ∈ behind, Window.startsConstruct '$' target.chars = false →
        r.OnlyWarns (Markup.Reader.assignment read g r (Nat.le_refl _)) (Markup.assignmentWarning name)) := by
  refine ⟨fun n hn => ⟨fun hk => ?_, fun hk => ?_⟩, ?_⟩
  · have hobeys := Markup.obeys_parse _ _ source n hn
    rwa [Node.Obeys, hk] at hobeys
  · have hobeys := Markup.obeys_parse _ _ source n hn
    rw [Node.Obeys, hk] at hobeys
    rcases hobeys with hleaf | hfunction
    · obtain ⟨hwarned, hstopped⟩ := Markup.reported_parse _ _ source hn hk hleaf
      exact .inr ⟨hleaf, hstopped, hwarned⟩
    · exact .inl hfunction
  · intro r hr g read name behind
    have hread (r' : Markup.Reader) (h : r'.rest.length < r.rest.length) (hr' : Markup.Ready r'.tree r'.current) :=
      Markup.Reader.gives_core g r' hr'
    exact ⟨Markup.Reader.onlyWarns_reference hread r (Nat.le_refl _) hr,
      fun hs target ht => Markup.Reader.onlyWarns_assignment hread r (Nat.le_refl _) hr hs ht⟩

/-- A reference whose number sign starts no function stays in the document, with nothing below it. -/
theorem childless_reference :
    ¬ ∀ n ∈ (Registry.standard.parse "@a = #").document.subtrees, n.kind = .ref →
      ∃ function, n.children = [function] ∧ function.kind = .func := by
  have hleaf : ((Registry.standard.parse "@a = #").document.subtrees.any fun n =>
      n.kind == .ref && n.children.isEmpty) = true := by decide +kernel
  obtain ⟨n, hn, hboth⟩ := List.any_eq_true.1 hleaf
  rw [Bool.and_eq_true, beq_iff_eq, List.isEmpty_iff] at hboth
  intro h
  obtain ⟨function, hchildren, -⟩ := h n hn hboth.1
  rw [hboth.2] at hchildren
  cases hchildren

end Evomark
