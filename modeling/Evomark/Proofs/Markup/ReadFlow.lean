import Evomark.Proofs.Markup.ReadWindow
/-!
# Reading the nodes of a box

The text of the nodes of a box is read as these nodes, if the text of each of them but the texts is
read as that node (`readsAs_flow`). Separators, which stand behind markers, and the gap at the end of
the box are not read.
-/

namespace Evomark

namespace Node

/-- The end of a body on lines of its own is a line feed with the indentation of the closing brace,
in place of any white space there. -/
def ending (close : Option (List Char)) (text : List Char) : List Char :=
  match close with
  | none => text
  | some indent => Text.trimEnd text ++ '\n' :: indent

variable {close : Option (List Char)} {text : List Char}

theorem ending_append (close : Option (List Char)) (front : List Char) {c : Char}
    (hc : Text.isWhite c = false) (more : List Char) :
    ending close (front ++ c :: more) = front ++ c :: ending close more := by
  cases close with
  | none => rfl
  | some indent =>
    have h := @Text.trimEnd_append_right (front ++ [c]) ⟨front, c, rfl, hc⟩ more
    rw [List.append_assoc] at h
    show Text.trimEnd (front ++ ([c] ++ more)) ++ _ = _
    rw [h]
    simp [ending]

/-- The indentation of a closing brace. -/
def IsClose (close : Option (List Char)) : Prop :=
  ∀ indent, close = some indent → ∀ c ∈ indent, Text.isBlank c = true

end Node

namespace Markup

open Node

variable {close : Option (List Char)} {text : List Char}

theorem isGap_ending (hclose : IsClose close) (h : ∀ c ∈ text, isGapChar c = true) :
    ∀ c ∈ ending close text, isGapChar c = true := by
  cases close with
  | none => exact h
  | some indent =>
    show ∀ c ∈ Text.trimEnd text ++ '\n' :: indent, _
    rw [List.forall_mem_append, List.forall_mem_cons]
    refine ⟨fun c hc => h c ((Text.prefix_trimEnd _).subset hc), by decide, fun c hc => ?_⟩
    exact isGapChar_of_isBlank (hclose indent rfl c hc)

/-- Behind a text the end of a body is a gap without an empty line. -/
theorem runs_ending_nil (hclose : IsClose close) : (ending close []).IsChain Segment.Runs := by
  cases close with
  | none => exact .nil
  | some indent =>
    show ('\n' :: indent).IsChain Segment.Runs
    have hb : ∀ c ∈ indent, c ≠ '\n' := by
      rintro c hc rfl
      exact absurd (hclose indent rfl _ hc) (by decide)
    rw [List.isChain_cons]
    refine ⟨fun d hd => ?_, ?_⟩
    · exact runs_of_isGapChar (.inl (by decide)) fun h => hb d (List.mem_of_mem_head? hd) h.2
    · refine (List.isChain_isInfix indent).imp_of_mem_imp fun c d hc _ _ => ?_
      exact runs_of_isGapChar (.inl (isGapChar_of_isBlank (hclose indent rfl c hc))) fun h => hb c hc h.1

/-- The end of a body changes how a text starts only by a line feed. -/
theorem head?_ending (close : Option (List Char)) {p : Char → Prop} (hp : p '\n')
    (h : ∀ c, text.head? = some c → p c) : ∀ c, (ending close text).head? = some c → p c := by
  intro c hc
  cases close with
  | none => exact h c hc
  | some indent =>
    have hc : (Text.trimEnd text ++ '\n' :: indent).head? = some c := hc
    rw [List.head?_append] at hc
    cases ht : (Text.trimEnd text).head? with
    | none =>
      rw [ht] at hc
      obtain rfl : '\n' = c := Option.some.inj hc
      exact hp
    | some d =>
      rw [ht] at hc
      obtain ⟨rest, hrest⟩ := List.head?_eq_some_iff.1 ht
      obtain ⟨more, hmore⟩ := Text.prefix_trimEnd text
      refine h c ?_
      rw [← hmore, hrest]
      exact hc

/-! ## Nodes of a box -/

section

variable {g : Grammar} {marked : Bool} {unit : List Char} {level : Nat}

theorem isGap_indentation (hu : ∀ c ∈ unit, Text.isBlank c = true) (level : Nat) :
    ∀ c ∈ indentation unit level, isGapChar c = true :=
  fun c hc => isGapChar_of_isBlank (isBlank_of_mem_indentation hu level c hc)

theorem isGap_gapText (hu : ∀ c ∈ unit, Text.isBlank c = true) (prev : Option Kind) (edge : Edge)
    (n : Node) : ∀ c ∈ gapText (indentation unit level) prev edge n, isGapChar c = true := by
  have hi := isGap_indentation hu level
  unfold gapText
  split
  · simp only [List.forall_mem_cons]
    exact ⟨by decide, by decide, hi⟩
  · split
    · rw [List.forall_mem_cons]
      exact ⟨by decide, hi⟩
    · cases edge with
      | opened => exact fun c hc => absurd hc (by simp [edgeText])
      | begun => exact hi
      | filled => simp [edgeText, isGapChar]

theorem flowText_cons {prev : Option Kind} {edge : Edge} {n : Node} {rest : List Node}
    (hn : n.kind ≠ .sep ∧ n.kind ≠ .configDict) :
    flowText unit level prev edge (n :: rest) =
      gapText (indentation unit level) prev edge n ++ nodeText unit level n
        ++ flowText unit level (some n.kind) n.edgeBehind rest := by
  rw [flowText, if_neg hn.1, if_neg hn.2]

/-- An element ends with a character that is not white. -/
theorem exists_nodeText (unit : List Char) (level : Nat) {n : Node} (h : IsElement g marked n) :
    ∃ front c, nodeText unit level n = front ++ [c] ∧ Text.isWhite c = false := by
  by_cases hk : n.kind = .text
  · rw [nodeText_of_run unit level (.inl hk)]
    obtain ⟨front, c, -, hc, he⟩ := exists_indented (indentation unit level) (h.of_text hk).1.solid
    exact ⟨front, c, he, hc⟩
  · obtain ⟨front, c, he, hc, -⟩ := ends_nodeText unit level h hk
    exact ⟨front, c, he, hc⟩

theorem ending_solid {text : List Char} (h : ∃ front c, text = front ++ [c] ∧ Text.isWhite c = false)
    (close : Option (List Char)) (front more : List Char) :
    ending close (front ++ text ++ more) = front ++ (text ++ ending close more) := by
  obtain ⟨init, c, rfl, hc⟩ := h
  have hend := ending_append close (front ++ init) hc more
  simpa using hend

/-- The gap before a node behind one that is no text. -/
theorem gapText_behind (unit : List Char) (level : Nat) {prev : Kind} (hp : prev ≠ .text) (n : Node) :
    gapText (indentation unit level) (some prev) .filled n = '\n' :: indentation unit level ∨
      gapText (indentation unit level) (some prev) .filled n = [' '] ∧
        ¬ (n.kind = .text ∧ prev = .varUse ∧ n.content.toList.head? = some '=') := by
  unfold gapText
  rw [if_neg fun h => hp (Option.some.inj h.2)]
  split
  · exact .inl rfl
  · rename_i h
    exact .inr ⟨rfl, fun he => h ⟨he.1, congrArg some he.2.1, he.2.2⟩⟩

/-- An element starts with a character that is not white, and with an equality sign only if it is a
text. -/
theorem head?_nodeText {n : Node} (h : IsElement g marked n)
    (hs : n.kind ≠ .text → Segment.Starts (nodeText unit level n)) (more : List Char) :
    ∃ c, (nodeText unit level n ++ more).head? = some c ∧ Text.isWhite c = false ∧
      (c = '=' → n.kind = .text ∧ n.content.toList.head? = some '=') := by
  by_cases hk : n.kind = .text
  · obtain ⟨c, rest, hc, hwhite⟩ := (h.of_text hk).1.solid.head
    refine ⟨c, ?_, hwhite, fun he => ⟨hk, by rw [hc, ← he]; rfl⟩⟩
    rw [nodeText_of_run unit level (.inl hk), List.head?_append, Text.head?_indented, hc]
    rfl
  · obtain ⟨sign, rest, hc, hsign⟩ := hs hk
    have hsign : sign = '#' ∨ sign = '@' ∨ sign = '$' ∨ sign = '%' :=
      hsign.imp_right fun h => h.imp_right And.left
    refine ⟨sign, by rw [hc]; rfl, ?_, fun he => ?_⟩
    · rcases hsign with rfl | rfl | rfl | rfl <;> rfl
    · rcases hsign with rfl | rfl | rfl | rfl <;> exact absurd he (by decide)

/-- What is written behind an element that is no text may stand there. -/
theorem follows_flowText {prev : Kind} (hp : prev ≠ .text) {ns : List Node}
    (h : IsFlow g marked true (some prev) ns) (close : Option (List Char))
    (hs : ∀ n ∈ ns, n.kind ≠ .text → n.kind ≠ .sep → Segment.Starts (nodeText unit level n)) :
    Follows prev (ending close (flowText unit level (some prev) .filled ns)) := by
  have hbreak (text : List Char) : Follows prev ('\n' :: text) := by
    refine ⟨fun c hc => .inr (Option.some.inj hc).symm, fun _ => ?_⟩
    exact fun hc => absurd (Option.some.inj hc) (by decide)
  have hline (text : List Char) : Follows prev (ending close ('\n' :: text)) := by
    cases close with
    | none => exact hbreak text
    | some indent =>
      show Follows prev (Text.trimEnd ('\n' :: text) ++ '\n' :: indent)
      obtain ⟨more, hmore⟩ := Text.prefix_trimEnd ('\n' :: text)
      cases ht : Text.trimEnd ('\n' :: text) with
      | nil => exact hbreak indent
      | cons c rest =>
        rw [ht] at hmore
        obtain rfl : c = '\n' := (List.cons.inj hmore).1
        exact hbreak _
  cases ns with
  | nil =>
    cases close with
    | none => exact ⟨fun c hc => absurd hc (by simp [ending, flowText]), fun _ => by simp [ending, flowText]⟩
    | some indent => exact hbreak indent
  | cons n rest =>
    obtain ⟨-, ⟨-, hk, -, -, hcount, -⟩ | ⟨-, hk, helement⟩ | ⟨hb, -⟩⟩ := h.cases
    · rw [flowText, if_pos hk, hcount]
      exact hline _
    · have hd : n.kind ≠ .configDict := helement.kind_ne (by decide)
      obtain hgap | ⟨hgap, hequals⟩ := gapText_behind unit level hp n
      · rw [flowText_cons ⟨hk, hd⟩, hgap]
        exact hline _
      · rw [flowText_cons ⟨hk, hd⟩, hgap, ending_solid (exists_nodeText unit level helement)]
        refine ⟨fun c hc => .inl (Option.some.inj hc).symm, fun hprev hc => ?_⟩
        obtain ⟨c, hhead, hwhite, himp⟩ := head?_nodeText helement (fun ht => hs n (.head _) ht hk)
          (ending close (flowText unit level (some n.kind) n.edgeBehind rest))
        obtain ⟨more, hmore⟩ := List.head?_eq_some_iff.1 hhead
        have hspace : Segment.isSpace c = false := by
          refine Bool.eq_false_iff.2 fun h => ?_
          obtain rfl : c = ' ' := by simpa [Segment.isSpace] using h
          exact absurd hwhite (by decide)
        rw [List.singleton_append, hmore, List.dropWhile_cons_of_pos rfl,
          List.dropWhile_cons_of_neg (by simp [hspace])] at hc
        obtain rfl : c = '=' := Option.some.inj hc
        exact hequals ⟨(himp rfl).1, hprev, (himp rfl).2⟩
    · exact absurd hb (by decide)

/-- The text of an element that is no text is read as this element. -/
def ReadsNode (g : Grammar) (unit : List Char) (level : Nat) (n : Node) : Prop :=
  Segment.Starts (nodeText unit level n) ∧ ReadsElement g (nodeText unit level n) n.reread

theorem rereadAll_element {n : Node} (h : IsElement g marked n) (rest : List Node) :
    rereadAll (n :: rest) = n.reread :: rereadAll rest :=
  rereadAll_cons ⟨h.kind_ne (by decide), h.kind_ne (by decide)⟩ rest

theorem reread_text {n : Node} (h : IsElement g marked n) (hk : n.kind = .text) :
    n.reread = .leaf { kind := .text, content := n.content } := by
  obtain ⟨-, hchildren⟩ := h.of_text hk
  obtain ⟨⟨kind, content, value, span, layout, slot⟩, children⟩ := n
  obtain rfl : children = [] := hchildren
  unfold IsElement at h
  obtain rfl : value = none := h.1.1
  obtain rfl : layout = none := h.1.2
  obtain rfl : kind = .text := hk
  rfl

/-- Behind a text the line does not begin anew. -/
theorem edgeText_behind_run {n : Node} (h : n.kind = .text ∨ n.kind = .literal) (indent : List Char) :
    n.edgeBehind ≠ .begun ∧
      (edgeText indent n.edgeBehind = [] ∨ edgeText indent n.edgeBehind = [' ']) := by
  rw [edgeBehind_of_run h]
  split
  · exact ⟨Edge.noConfusion, .inl rfl⟩
  · exact ⟨Edge.noConfusion, .inr rfl⟩

/-- A text behind a gap, and the nodes behind it. -/
theorem readsAs_text (hu : ∀ c ∈ unit, Text.isBlank c = true) (hclose : IsClose close) {n : Node}
    {rest : List Node} (he : ∀ m ∈ rest, m.kind ≠ .text → m.kind ≠ .sep → ReadsNode g unit level m)
    (hk : n.kind = .text) (h : IsElement g marked n) (hflow : IsFlow g marked true (some .text) rest)
    (hcons : ∀ m more, rest = m :: more → m.kind ≠ .sep → ∀ ws : List Char, (∀ c ∈ ws, isGapChar c = true) →
      ReadsAs g (ws ++ (nodeText unit level m ++
        ending close (flowText unit level (some m.kind) m.edgeBehind more))) (rereadAll rest))
    {ws : List Char} (hws : ∀ c ∈ ws, isGapChar c = true) :
    ReadsAs g (ws ++ (nodeText unit level n ++
      ending close (flowText unit level (some .text) n.edgeBehind rest)))
      (.leaf { kind := .text, content := n.content } :: rereadAll rest) := by
  have hi := isBlank_of_mem_indentation hu level
  have hc := (h.of_text hk).1
  obtain ⟨hbegun, hedge⟩ := edgeText_behind_run (.inl hk) (indentation unit level)
  rw [nodeText_of_run unit level (.inl hk)]
  cases rest with
  | nil =>
    rw [flowText, if_neg hbegun, ← List.append_nil (ending close [])]
    have hgap := isGap_ending hclose (show ∀ c ∈ ([] : List Char), isGapChar c = true by simp)
    have hruns := runs_ending_nil hclose
    refine ReadsAs.text hc hi hws hgap (prose_gap hgap hruns (.inl rfl)) (fun c hb d hd => ?_) ReadsAs.nil
    rw [List.append_nil] at hd
    exact runs_of_isGapChar (.inr (hgap d (List.mem_of_mem_head? hd))) fun h => hb h.1
  | cons m more =>
    obtain ⟨-, ⟨-, -, -, hp, -⟩ | ⟨-, hm, helement⟩ | ⟨hb, -⟩⟩ := hflow.cases
    · exact absurd hp (by decide)
    · have hread := hcons m more rfl hm
      have hd : m.kind ≠ .configDict := helement.kind_ne (by decide)
      rw [flowText_cons ⟨hm, hd⟩, ending_solid (exists_nodeText unit level helement)]
      by_cases hmk : m.kind = .text
      · have hgap : gapText (indentation unit level) (some .text) n.edgeBehind m =
            ['\n'] ++ '\n' :: indentation unit level := if_pos ⟨hmk, rfl⟩
        rw [hgap, List.append_assoc]
        refine ReadsAs.text hc hi hws (by simp [isGapChar]) rfl (fun c hb d hd => ?_) (hread _ ?_)
        · obtain rfl : '\n' = d := Option.some.inj hd
          exact runs_of_isGapChar (.inr (by decide)) fun h => hb h.1
        · rw [List.forall_mem_cons]
          exact ⟨by decide, isGap_indentation hu level⟩
      · have hgap : gapText (indentation unit level) (some .text) n.edgeBehind m =
            edgeText (indentation unit level) n.edgeBehind := by
          rw [gapText, if_neg fun h => hmk h.1, if_neg fun h => hmk h.1]
        have hstarts := ((he m (.head _) hmk hm).1).append
          (ending close (flowText unit level (some m.kind) m.edgeBehind more))
        have hblank : ∀ c ∈ edgeText (indentation unit level) n.edgeBehind, isGapChar c = true := by
          rcases hedge with h | h <;> simp [h, isGapChar]
        have hruns : (edgeText (indentation unit level) n.edgeBehind).IsChain Segment.Runs := by
          rcases hedge with h | h <;> simp [h]
        rw [hgap]
        refine ReadsAs.text hc hi hws hblank (prose_gap hblank hruns (.inr hstarts)) (fun c hb d hd => ?_)
          (hread [] (by simp))
        rcases hedge with h | h <;> rw [h] at hd
        · exact hstarts.runs hd
        · obtain rfl : ' ' = d := Option.some.inj hd
          exact runs_of_isGapChar (.inr (by decide)) fun h => hb h.1
    · exact absurd hb (by decide)

/-- An element behind a gap, and the nodes behind it. -/
theorem readsAs_cons (hu : ∀ c ∈ unit, Text.isBlank c = true) (hclose : IsClose close) {n : Node}
    {rest : List Node} (he : ∀ m ∈ n :: rest, m.kind ≠ .text → m.kind ≠ .sep → ReadsNode g unit level m)
    (hn : n.kind ≠ .sep) (h : IsElement g marked n)
    (hflow : IsFlow g marked true (some n.kind) rest)
    (hrest : ReadsAs g (ending close (flowText unit level (some n.kind) n.edgeBehind rest))
      (rereadAll rest))
    (hcons : ∀ m more, rest = m :: more → m.kind ≠ .sep → ∀ ws : List Char, (∀ c ∈ ws, isGapChar c = true) →
      ReadsAs g (ws ++ (nodeText unit level m ++
        ending close (flowText unit level (some m.kind) m.edgeBehind more))) (rereadAll rest))
    {ws : List Char} (hws : ∀ c ∈ ws, isGapChar c = true) :
    ReadsAs g (ws ++ (nodeText unit level n ++
      ending close (flowText unit level (some n.kind) n.edgeBehind rest))) (rereadAll (n :: rest)) := by
  rw [rereadAll_element h]
  by_cases hk : n.kind = .text
  · rw [reread_text h hk, hk]
    exact readsAs_text hu hclose (fun m hm => he m (.tail _ hm)) hk h (hk ▸ hflow) hcons hws
  · have hl : n.kind ≠ .literal := h.kind_ne (by decide)
    obtain ⟨hstarts, hreads⟩ := he n (.head _) hk hn
    refine ReadsAs.gap hws (.inr (hstarts.append _)) (ReadsAs.element hstarts hreads ?_ hrest)
    rw [edgeBehind_of_call ⟨hk, hl⟩]
    rw [kind_reread]
    exact follows_flowText hk hflow close fun m hm ht hs => (he m (.tail _ hm) ht hs).1

/-- The text of the nodes of a box behind a gap is read as these nodes. -/
theorem readsAs_flow (hu : ∀ c ∈ unit, Text.isBlank c = true) (hclose : IsClose close) {ns : List Node}
    (he : ∀ n ∈ ns, n.kind ≠ .text → n.kind ≠ .sep → ReadsNode g unit level n) {prev : Option Kind}
    (h : IsFlow g marked true prev ns) :
    (∀ edge, ∀ ws : List Char, (∀ c ∈ ws, isGapChar c = true) →
        ReadsAs g (ending close (ws ++ flowText unit level prev edge ns)) (rereadAll ns)) ∧
      ∀ n rest, ns = n :: rest → n.kind ≠ .sep → ∀ ws : List Char, (∀ c ∈ ws, isGapChar c = true) →
        ReadsAs g (ws ++ (nodeText unit level n ++
          ending close (flowText unit level (some n.kind) n.edgeBehind rest))) (rereadAll ns) := by
  induction ns generalizing prev with
  | nil =>
    refine ⟨fun edge ws hws => ?_, fun n rest hns => absurd hns (by simp)⟩
    have hgap : ∀ c ∈ ws ++ flowText unit level prev edge [], isGapChar c = true := by
      rw [List.forall_mem_append, flowText]
      refine ⟨hws, ?_⟩
      split
      · exact isGap_indentation hu level
      · simp
    rw [← List.append_nil (ending close _)]
    exact ReadsAs.gap (isGap_ending hclose hgap) (.inl rfl) ReadsAs.nil
  | cons n rest ih =>
    obtain ⟨hflow, hcase⟩ := h.cases
    obtain ⟨hrest, hcons⟩ := ih (fun m hm => he m (.tail _ hm)) hflow
    obtain ⟨-, hk, -, -, hcount, -⟩ | ⟨-, hk, helement⟩ | ⟨hb, -⟩ := hcase
    · refine ⟨fun edge ws hws => ?_, fun m more hns hm => ?_⟩
      · rw [rereadAll_sep hk, flowText, if_pos hk, ← List.append_assoc]
        rw [hk] at hrest
        refine hrest .begun _ ?_
        rw [List.forall_mem_append]
        refine ⟨hws, fun c hc => ?_⟩
        rw [List.eq_of_mem_replicate hc]
        decide
      · obtain ⟨rfl, rfl⟩ := List.cons.inj hns
        exact absurd hk hm
    · have hd : n.kind ≠ .configDict := helement.kind_ne (by decide)
      have hread := fun (ws : List Char) (hws : ∀ c ∈ ws, isGapChar c = true) =>
        readsAs_cons hu hclose he hk helement hflow (hrest _ [] (by simp)) hcons hws
      refine ⟨fun edge ws hws => ?_, fun m more hns _ => ?_⟩
      · rw [flowText_cons ⟨hk, hd⟩, ← List.append_assoc, ← List.append_assoc, ending_solid (exists_nodeText unit level helement)]
        refine hread _ ?_
        rw [List.forall_mem_append]
        exact ⟨hws, isGap_gapText hu prev edge n⟩
      · obtain ⟨rfl, rfl⟩ := List.cons.inj hns
        exact hread
    · exact absurd hb (by decide)

end

end Markup

end Evomark
