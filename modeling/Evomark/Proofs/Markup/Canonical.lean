import Evomark.Proofs.Markup.CanonicalText
import Evomark.Proofs.Markup.ReadCall
import Evomark.Proofs.Markup.Parsed
/-!
# Canonical trees are read back

Canonical trees (`Proofs.Document.Canonical`) have the shape of documents that were read, are read back
as they are, and can be read back from their texts (`survives_of_areElements`). The last is where lines
and braces matter: the text of a body closes where its own brace does, and it is read with its layout
because a line feed is written in it just if it is not meant to stand on one line (`Nests`).
-/

namespace Evomark.Canonical

open Text Node Markup Clause

/-- Nodes of a document that are read back as they are from their text. -/
structure Survives (unit : List Char) (oneLine : Bool) (text : Nat → List Char) (ns : List Node) :
    Prop where
  same : rereadAll ns = unplacedAll ns
  readable : ∀ level, areReadable unit level ns = true
  nests : ∀ level, Nests oneLine (text level)

/-- Nodes that survive behind another that does. -/
theorem Survives.cons {unit : List Char} {oneLine : Bool} {text text' : Nat → List Char} {n : Node}
    {ns : List Node} (h : Survives unit oneLine text [n]) (h' : Survives unit oneLine text' ns) :
    Survives unit oneLine (fun level => text level ++ text' level) (n :: ns) := by
  refine ⟨?_, fun level => ?_, fun level => (h.nests level).append (h'.nests level)⟩
  · rw [← List.singleton_append, rereadAll_append, unplacedAll_append, h.same, h'.same]
  · have hn := h.readable level
    rw [areReadable, areReadable, Bool.and_true] at hn
    rw [areReadable, hn, h'.readable level]
    rfl

/-! ## Pieces of text -/

section

variable {unit : List Char} {oneLine : Bool}

theorem nests_sign {sign : Char} (hs : IsInert sign) {name : String} (h : isName name = true) :
    Nests oneLine (sign :: name.toList) := by
  have hname := (isName_of_isName h).all
  refine Nests.of_inert ?_
  rw [List.forall_mem_cons]
  exact ⟨hs, fun c hc => isInert_of_isNameChar (hname c hc)⟩

theorem nests_indentation (hu : ∀ c ∈ unit, isBlank c = true) (level : Nat) :
    Nests oneLine (indentation unit level) :=
  Nests.of_inert fun c hc => isInert_of_isBlank (isBlank_of_mem_indentation hu level c hc)

theorem nests_indented (hu : ∀ c ∈ unit, isBlank c = true) (level : Nat) {content : String}
    (h : isText oneLine content = true) :
    Nests oneLine (indented (indentation unit level) content.toList) := by
  refine Nests.of_plain (fun c hc => ?_) fun hl => ?_
  · simp only [indented, List.mem_flatMap] at hc
    obtain ⟨d, hd, hc⟩ := hc
    split at hc
    · rcases List.mem_cons.1 hc with rfl | hc
      · decide
      · exact (isInert_of_isBlank (isBlank_of_mem_indentation hu level c hc)).1
    · rw [List.mem_singleton.1 hc]
      rcases mem_of_isText h hd with rfl | hl
      · decide
      · exact (isInert_of_isLineChar hl).1
  · have hn := not_break_of_isText h hl
    rwa [indented_of_not_mem _ hn]

theorem nests_edgeText (hu : ∀ c ∈ unit, isBlank c = true) (level : Nat) (edge : Edge) :
    Nests oneLine (edgeText (indentation unit level) edge) := by
  cases edge with
  | opened => exact Nests.nil
  | begun => exact nests_indentation hu level
  | filled =>
    show Nests oneLine [' ']
    exact Nests.of_inert (forall_mem_of_all rfl)

/-- The white space before a node that may stand there. -/
theorem nests_gapText (hu : ∀ c ∈ unit, isBlank c = true) (level : Nat) {prev : Option Kind}
    (edge : Edge) {n : Node} (h : ¬ (oneLine = true ∧ startsLine prev n = true)) :
    Nests oneLine (gapText (indentation unit level) prev edge n) := by
  have hlines : ∀ cs : List Char, oneLine = false → (∀ c ∈ cs, c = '\n') →
      Nests oneLine (cs ++ indentation unit level) := by
    intro cs hfree hcs
    refine Nests.append (Nests.of_plain (fun c hc => ?_) (by simp [hfree])) (nests_indentation hu level)
    rw [hcs c hc]
    decide
  unfold gapText
  split
  · rename_i ht
    refine hlines ['\n', '\n'] ?_ (by simp)
    by_contra hone
    exact h ⟨by simpa using hone, by simp [startsLine, ht.1, ht.2]⟩
  · split
    · rename_i ht
      refine hlines ['\n'] ?_ (by simp)
      by_contra hone
      exact h ⟨by simpa using hone, by simp [startsLine, ht.1, ht.2.1, ht.2.2]⟩
    · exact nests_edgeText hu level edge

/-! ## Bodies and labels -/

/-- A node that is no clause, with what stands below it. -/
theorem survives_of_children {label : Label} {children : List Node} {text : Nat → List Char}
    (hk : label.kind ∉ [.sep, .literal, .funcParam, .body, .funcBody])
    (hsame : rereadAll children = unplacedAll children)
    (hreadable : ∀ level, areReadable unit level children = true)
    (hnests : ∀ level, Nests oneLine (text level)) :
    Survives unit oneLine text [⟨label, children⟩] := by
  simp only [List.mem_cons, List.not_mem_nil, or_false, not_or] at hk
  obtain ⟨hsep, hliteral, hparam, hbody, hfunc⟩ := hk
  refine ⟨?_, fun level => ?_, hnests⟩
  · rw [rereadAll_clause ⟨hsep, hliteral⟩, rereadAll, unplacedAll, unplacedAll, unplaced, reread]
    cases hk : label.kind <;> first | exact absurd hk hparam | exact absurd hk hbody | rw [hsame]
  · rw [areReadable, areReadable, isReadable, Bool.and_true]
    cases hk : label.kind <;>
      first | exact absurd hk hparam | exact absurd hk hbody | exact absurd hk hfunc | exact hreadable level

theorem closes_block {cs : List Char} (h : Nests oneLine cs) : closes .block cs = true := by
  rw [closes]
  simp only [h.splitBraces_eq, beq_self_eq_true]

theorem closes_inline {cs : List Char} (h : Nests true cs) : closes .inline cs = true := by
  rw [closes]
  simp only [h.splitBraces_eq, beq_self_eq_true, Bool.true_and]
  simpa using h.line rfl

theorem isReadable_of_isBody {label : Label} {children : List Node} (hk : label.kind.isBody = true)
    (level : Nat) :
    isReadable unit level ⟨label, children⟩ =
      (closes (label.layout.getD .inline) (insideOf unit level label children)
        && (label.kind != .body || leadsOnce label.layout children)
        && areReadable unit (levelInside label.layout level) children) := by
  unfold isReadable
  cases h : label.kind <;> rw [h] at hk <;> first | rfl | exact absurd hk (by decide)

theorem rereadAll_of_isBody {label : Label} (hk : label.kind.isBody = true) (children : List Node) :
    rereadAll [⟨label, children⟩] = [reread ⟨label, children⟩] := by
  rw [rereadAll_clause ⟨ne_of_isBody hk (by decide), ne_of_isBody hk (by decide)⟩, rereadAll]

/-- A body between braces. If it stands on one line, so do its children. -/
theorem survives_braces (hu : ∀ c ∈ unit, isBlank c = true) {label : Label} {children : List Node}
    {inner : Bool} (hk : label.kind.isBody = true) (hc : label.content = "")
    (hl : label.layout = some .inline ∧ inner = true ∨
      label.layout = some .block ∧ inner = false ∧ oneLine = false)
    (hsame : reread ⟨label, children⟩ = unplaced ⟨label, children⟩)
    (hleads : (label.kind != .body || leadsOnce label.layout children) = true)
    (hreadable : ∀ level, areReadable unit level children = true)
    (hnests : ∀ level edge, Nests inner (flowText unit level none edge children)) :
    Survives unit oneLine (nodeText unit · ⟨label, children⟩) [⟨label, children⟩] := by
  have hdirect : label.layout ≠ some .directChild := by
    rcases hl with ⟨hl, -⟩ | ⟨hl, -⟩ <;> rw [hl] <;> simp
  have hinside : ∀ level, Nests inner (insideOf unit level label children) ∧
      (closes (label.layout.getD .inline) (insideOf unit level label children)) = true := by
    intro level
    rw [insideOf, insideText_of_empty hc]
    rcases hl with ⟨hl, rfl⟩ | ⟨hl, rfl, rfl⟩
    · rw [hl]
      exact ⟨hnests level .opened, closes_inline (hnests level .opened)⟩
    · have hbreak : Nests false ['\n'] := Nests.of_plain (forall_mem_of_all rfl) (by simp)
      have hflow := (hbreak.append (hnests (level + 1) .begun)).trimEnd.append
        (hbreak.append (nests_indentation hu level))
      rw [hl]
      exact ⟨hflow, closes_block hflow⟩
  refine ⟨?_, fun level => ?_, fun level => ?_⟩
  · rw [rereadAll_of_isBody hk, hsame]
    rfl
  · rw [areReadable, areReadable, isReadable_of_isBody hk, (hinside level).2, hleads, hreadable]
    rfl
  · show Nests oneLine (nodeText unit level ⟨label, children⟩)
    rw [nodeText_of_isBody _ _ _ hk, if_neg hdirect]
    have hbraces := (hinside level).1.braces
    rcases hl with ⟨hl, rfl⟩ | ⟨hl, rfl, rfl⟩
    · rw [hl]
      exact hbraces.relax
    · rw [hl]
      exact hbraces

/-- The body of a hosted call, which has no text but that of the call. -/
theorem survives_host {label : Label} {children : List Node} (hk : label.kind = .funcBody)
    (hl : label.layout = some .directChild) (h : Survives unit oneLine (callText unit · children) children) :
    Survives unit oneLine (clausesText unit · [⟨label, children⟩]) [⟨label, children⟩] := by
  have hbody : label.kind.isBody = true := by rw [hk]; rfl
  refine ⟨?_, fun level => ?_, fun level => ?_⟩
  · rw [rereadAll_of_isBody hbody, reread, hk, h.same]
    rfl
  · rw [areReadable, areReadable, isReadable_of_isBody hbody, hl, hk, h.readable]
    rfl
  · show Nests oneLine (clausesText unit level [⟨label, children⟩])
    rw [clausesText_of_isClause _ _ _ _ (isClause_of_isBody hbody), nodeText_of_isBody _ _ _ hbody,
      if_pos hl]
    exact (h.nests level).append Nests.nil

end

/-! ## Literal bodies -/

section

variable {oneLine : Bool} {prev : Option Kind} {n : Node} {items : List Node}

theorem isCount_cases {value : Option Json} (h : isCount value = true) :
    ∃ count : Nat, 2 ≤ count ∧ value = some (.int count) := by
  unfold isCount at h
  split at h
  · rename_i count
    have hcount : 2 ≤ count := of_decide_eq_true h
    refine ⟨count.toNat, by omega, ?_⟩
    rw [Json.int, Int.toNat_of_nonneg (by omega)]
  · exact absurd h (by decide)

/-- A literal, a use of a variable, or a separator between others. -/
theorem isItem_cases (h : isItem oneLine prev n = true) :
    n.children = [] ∧ n.label.layout = none ∧
      (n.kind = .literal ∧ n.label.value = none ∧ isText oneLine n.content = true ∧
          prev ≠ some .literal ∨
        n.kind = .varUse ∧ n.label.value = none ∧ isName n.content = true ∨
        n.kind = .sep ∧ oneLine = false ∧ n.content = "" ∧
          (∃ count : Nat, 2 ≤ count ∧ n.label.value = some (.int count)) ∧
          prev ≠ none ∧ prev ≠ some .sep) := by
  simp only [isItem, Bool.and_eq_true, List.isEmpty_iff, Option.isNone_iff_eq_none] at h
  obtain ⟨⟨hchildren, hlayout⟩, h⟩ := h
  refine ⟨hchildren, hlayout, ?_⟩
  cases hk : n.kind <;> rw [hk] at h <;>
    simp only [Bool.and_eq_true, Option.isNone_iff_eq_none, Bool.not_eq_true', beq_iff_eq, bne_iff_ne,
      Bool.false_eq_true] at h
  case literal => exact .inl ⟨rfl, h.1.1, h.1.2, h.2⟩
  case varUse => exact .inr (.inl ⟨rfl, h.1, h.2⟩)
  case sep =>
    obtain ⟨⟨⟨⟨hl, hc⟩, hcount⟩, hsome⟩, hprev⟩ := h
    refine .inr (.inr ⟨rfl, hl, hc, isCount_cases hcount, ?_, hprev⟩)
    rintro rfl
    exact absurd hsome (by decide)

theorem isFlow_of_areItems {g : Grammar} (h : areItems oneLine prev items = true) :
    IsFlow g false false prev items := by
  induction items generalizing prev with
  | nil => simp [IsFlow]
  | cons n rest ih =>
    rw [areItems, Bool.and_eq_true] at h
    obtain ⟨hchildren, hlayout, hcases⟩ := isItem_cases h.1
    unfold IsFlow
    refine ⟨⟨hchildren, hlayout, ?_⟩, ih h.2⟩
    obtain ⟨hk, hv, htext, hprev⟩ | ⟨hk, hv, hname⟩ | ⟨hk, -, hc, hcount, -⟩ := hcases
    · rw [hk]
      exact ⟨hv, isLiteral_of_isText htext, hprev⟩
    · rw [hk]
      exact ⟨hv, isName_of_isName hname⟩
    · rw [hk]
      exact ⟨hc, hcount⟩

theorem areReadable_of_areItems (h : areItems oneLine prev items = true) (unit : List Char)
    (level : Nat) : areReadable unit level items = true := by
  induction items generalizing prev with
  | nil => rfl
  | cons n rest ih =>
    rw [areItems, Bool.and_eq_true] at h
    obtain ⟨hchildren, -, hcases⟩ := isItem_cases h.1
    rw [areReadable, ih h.2, Bool.and_true]
    obtain ⟨label, children⟩ := n
    obtain rfl : children = [] := hchildren
    have hk : label.kind = .literal ∨ label.kind = .varUse ∨ label.kind = .sep := by
      obtain ⟨hk, -⟩ | ⟨hk, -⟩ | ⟨hk, -⟩ := hcases
      · exact .inl hk
      · exact .inr (.inl hk)
      · exact .inr (.inr hk)
    rw [isReadable]
    rcases hk with hk | hk | hk <;>
    · rw [hk]
      rfl

theorem leaf_unplaced (h : n.children = []) : Node.leaf n.label.unplaced = n.unplaced := by
  obtain ⟨label, children⟩ := n
  obtain rfl : children = [] := h
  rfl

/-- A separator as it is read from its line feeds. -/
theorem sepOf_eq_unplaced {count : Nat} (hk : n.kind = .sep) (hchildren : n.children = [])
    (hlayout : n.label.layout = none) (hc : n.content = "") (hv : n.label.value = some (.int count)) :
    sepOf count = n.unplaced := by
  obtain ⟨⟨kind, content, value, span, layout, slot⟩, children⟩ := n
  obtain rfl : kind = .sep := hk
  obtain rfl : children = [] := hchildren
  obtain rfl : layout = none := hlayout
  obtain rfl : content = "" := hc
  obtain rfl : value = some (.int count) := hv
  rfl

/-- Separators that stand between others are read back with their counts. -/
theorem settle_of_areItems {atEnd : Nat → List Node} (hend : atEnd 0 = [])
    (h : areItems oneLine prev items = true) :
    (∀ count, prev ≠ some .sep → (count = 0 ∨ prev = none ∧ count = 1 ∧ atEnd 1 = []) →
        settle atEnd count items = unplacedAll items) ∧
      ∀ count, prev = some .sep → 2 ≤ count →
        settle atEnd count items = sepOf count :: unplacedAll items := by
  induction items generalizing prev with
  | nil =>
    refine ⟨fun count _ hcount => ?_, fun count hprev _ => ?_⟩
    · rcases hcount with rfl | ⟨-, rfl, hone⟩
      · exact hend
      · exact hone
    · simp [areItems, hprev] at h
  | cons n rest ih =>
    rw [areItems, Bool.and_eq_true] at h
    obtain ⟨hchildren, hlayout, hcases⟩ := isItem_cases h.1
    by_cases hk : n.kind = .sep
    · obtain ⟨hk', -⟩ | ⟨hk', -⟩ | ⟨-, -, hc, ⟨k, hk2, hv⟩, hnone, hsep⟩ := hcases
      · rw [hk] at hk'
        exact absurd hk' (by decide)
      · rw [hk] at hk'
        exact absurd hk' (by decide)
      · refine ⟨fun count _ hcount => ?_, fun count hprev _ => absurd hprev hsep⟩
        obtain rfl : count = 0 := hcount.resolve_right fun hone => hnone hone.1
        have hwiden : widen 0 n = k := (if_pos rfl).trans (sepCount_of_value hv)
        rw [settle, if_pos hk, hwiden, (ih h.2).2 k (by rw [hk]) hk2,
          sepOf_eq_unplaced hk hchildren hlayout hc hv, unplacedAll]
    · have hrest := (ih h.2).1 0 (by simpa using hk) (.inl rfl)
      refine ⟨fun count _ hcount => ?_, fun count _ hcount => ?_⟩
      · have hgap : gapNodes count = [] := if_neg (by omega)
        rw [settle, if_neg hk, hgap, hrest, unplacedAll, leaf_unplaced hchildren]
        rfl
      · have hgap : gapNodes count = [sepOf count] := if_pos hcount
        rw [settle, if_neg hk, hgap, hrest, unplacedAll, leaf_unplaced hchildren]
        rfl

theorem rereadItems_of_areItems (h : areItems oneLine none items = true) (layout : Option Layout) :
    rereadItems layout items = unplacedAll items := by
  unfold rereadItems
  split
  · exact (settle_of_areItems rfl h).1 1 (by simp) (.inr ⟨rfl, rfl, rfl⟩)
  · exact (settle_of_areItems rfl h).1 0 (by simp) (.inl rfl)

theorem leadsOnce_of_areItems (h : areItems oneLine none items = true) (layout : Option Layout) :
    leadsOnce layout items = true := by
  cases items with
  | nil => simp [leadsOnce]
  | cons n rest =>
    rw [areItems, Bool.and_eq_true] at h
    have hk : n.kind ≠ .sep := by
      obtain ⟨hk, -⟩ | ⟨hk, -⟩ | ⟨-, -, -, -, hnone, -⟩ := (isItem_cases h.1).2.2
      · rw [hk]
        decide
      · rw [hk]
        decide
      · exact absurd rfl hnone
    simp [leadsOnce, hk]

theorem nests_of_areItems {unit : List Char} (hu : ∀ c ∈ unit, isBlank c = true)
    (h : areItems oneLine prev items = true) (level : Nat) (edge : Edge) :
    Nests oneLine (flowText unit level prev edge items) := by
  induction items generalizing prev edge with
  | nil =>
    rw [flowText]
    split
    · exact nests_indentation hu level
    · exact Nests.nil
  | cons n rest ih =>
    rw [areItems, Bool.and_eq_true] at h
    obtain ⟨-, -, hcases⟩ := isItem_cases h.1
    have hgap : ∀ edge, n.kind ≠ .text → Nests oneLine (gapText (indentation unit level) prev edge n) :=
      fun edge hk => nests_gapText hu level edge fun hs => by simp [startsLine, hk] at hs
    obtain ⟨hk, -, htext, -⟩ | ⟨hk, -, hname⟩ | ⟨hk, rfl, -⟩ := hcases
    · rw [flowText_cons (by rw [hk]; decide), nodeText_of_run unit level (.inr hk)]
      exact ((hgap edge (by rw [hk]; decide)).append (nests_indented hu level htext)).append (ih h.2 _)
    · have hnode : nodeText unit level n = '%' :: n.content.toList := by
        obtain ⟨label, children⟩ := n
        have hk : label.kind = .varUse := hk
        rw [nodeText, hk]
        rfl
      rw [flowText_cons (by rw [hk]; decide), hnode]
      exact ((hgap edge (by rw [hk]; decide)).append (nests_sign (by decide) hname)).append (ih h.2 _)
    · rw [flowText, if_pos hk, hk] at *
      refine Nests.append (Nests.of_plain (fun c hc => ?_) (by simp)) (ih h.2 _)
      rw [List.eq_of_mem_replicate hc]
      decide

end

/-! ## Clauses -/

section

variable {unit : List Char} {oneLine : Bool}

theorem isParam_cases {label : Label} {children : List Node} (h : isParam ⟨label, children⟩ = true) :
    children = [] ∧ label.layout = none ∧
      ∃ value, label.value = some value ∧ isValue value = true ∧ label.content = value.compact := by
  simp only [isParam, Bool.and_eq_true, List.isEmpty_iff, Option.isNone_iff_eq_none] at h
  obtain ⟨⟨hchildren, hlayout⟩, h⟩ := h
  refine ⟨hchildren, hlayout, ?_⟩
  cases hv : label.value with
  | none => simp [hv] at h
  | some value =>
    simp only [hv, Bool.and_eq_true, beq_iff_eq] at h
    exact ⟨value, rfl, h⟩

theorem survives_param {label : Label} {children : List Node} (hk : label.kind = .funcParam)
    (h : isParam ⟨label, children⟩ = true) :
    Survives unit oneLine (nodeText unit · ⟨label, children⟩) [⟨label, children⟩] := by
  obtain ⟨rfl, hlayout, value, hv, hvalue, hcontent⟩ := isParam_cases h
  have hread := paramValue_of_isValue hvalue
  refine ⟨?_, fun level => ?_, fun level => ?_⟩
  · rw [rereadAll_clause (by rw [hk]; decide), rereadAll, reread_param hk hlayout hv, hread, ← hcontent,
      unplacedAll, unplacedAll, unplaced, unplacedAll]
    obtain ⟨kind, content, value', span, layout, slot⟩ := label
    obtain rfl : kind = .funcParam := hk
    obtain rfl : layout = none := hlayout
    obtain rfl : value' = some value := hv
    rfl
  · rw [areReadable, areReadable, isReadable, hk, Bool.and_true]
    simp only [keepsValue, value_rereadParam hv, hread, hv, beq_self_eq_true, Bool.and_true]
  · show Nests oneLine (nodeText unit level ⟨label, []⟩)
    have hinert : ∀ c ∈ '(' :: value.write ++ [')'], IsInert c := by
      intro c hc
      rw [List.cons_append, List.mem_cons, List.mem_append, List.mem_singleton] at hc
      rcases hc with rfl | hc | rfl
      · decide
      · exact isInert_of_mem_write hvalue hc
      · decide
    rw [nodeText_of_param _ _ _ hk, paramText_of_value hv]
    exact Nests.of_inert hinert

theorem areCode_cases {children : List Node} (h : areCode oneLine children = true) :
    ∃ label n, children = [⟨label, []⟩] ∧ label.kind = .funcBody ∧ label.value = none ∧
      label.layout = some (.code n n) ∧ 0 < n ∧
      ∀ c ∈ label.content.toList, isCodeChar oneLine c = true := by
  unfold areCode at h
  split at h
  · rename_i label
    simp only [Bool.and_eq_true, beq_iff_eq, Option.isNone_iff_eq_none, List.all_eq_true] at h
    obtain ⟨⟨⟨hk, hv⟩, hl⟩, hall⟩ := h
    cases hlayout : label.layout with
    | none => simp [hlayout, isFence] at hl
    | some layout =>
      cases layout with
      | code opening closing =>
        simp only [hlayout, isFence, Bool.and_eq_true, beq_iff_eq, decide_eq_true_eq] at hl
        obtain ⟨rfl, hpos⟩ := hl
        exact ⟨label, opening, rfl, hk, hv, hlayout, hpos, hall⟩
      | inline | block | directChild => simp [hlayout, isFence] at hl
  · exact absurd h (by decide)

/-- Code between fences. -/
theorem survives_of_areCode {g : Grammar} {children : List Node} (h : areCode oneLine children = true) :
    (∀ param, IsClauses g false .code .funcBody param true children) ∧
      Survives unit oneLine (clausesText unit · children) children := by
  obtain ⟨label, n, rfl, hk, hv, hl, hpos, hall⟩ := areCode_cases h
  have hb : label.kind.isBody = true := by
    rw [hk]
    rfl
  have hinside : ∀ level, insideOf unit level label [] = label.content.toList := by
    intro level
    rw [insideOf, insideText]
    split
    · rename_i he
      rw [List.isEmpty_iff.1 he, hl]
      rfl
    · rfl
  have hraw : Nests oneLine label.content.toList :=
    Nests.of_plain (fun c hc => (isCodeChar_cases (hall c hc)).1)
      fun hone hn => (isCodeChar_cases (hall _ hn)).2.2 hone rfl
  have hfence : ∀ m, Nests oneLine (List.replicate m '=') := fun m => Nests.of_inert fun c hc => by
    rw [List.eq_of_mem_replicate hc]
    decide
  refine ⟨fun param => ?_, ?_, fun level => ?_, fun level => ?_⟩
  · have hlayout : label.layout ≠ some .directChild := by simp [hl]
    refine isClauses_body_cons rfl hk hv hlayout ⟨?_, rfl⟩ trivial
    rw [IsDelimited, hl]
    exact ⟨rfl, hpos⟩
  · rw [rereadAll_of_isBody hb, reread, hk]
    rfl
  · have hclose : closes (label.layout.getD .inline) (insideOf unit level label []) = true := by
      rw [hl, hinside]
      have hbar : '|' ∉ label.content.toList := fun hmem => (isCodeChar_cases (hall _ hmem)).2.1 rfl
      show (splitAt? (closingFence n) (label.content.toList ++ closingFence n) == some (_, [])) = true
      rw [splitAt?_closingFence fun hfence => hbar (hfence.subset (by simp [closingFence]))]
      exact beq_self_eq_true _
    rw [areReadable, areReadable, isReadable_of_isBody hb, hclose, hk]
    rfl
  · show Nests oneLine (clausesText unit level [⟨label, []⟩])
    have hbar : Nests oneLine ['|'] := Nests.of_inert (forall_mem_of_all rfl)
    have harrow : Nests oneLine ['>'] := Nests.of_inert (forall_mem_of_all rfl)
    rw [clausesText_of_isClause _ _ _ _ (isClause_of_isBody hb), nodeText_of_isBody _ _ _ hb,
      if_neg (by simp [hl]), ← insideOf, hinside, hl]
    simpa [delimited, clausesText] using
      (((hfence n).append harrow).append hraw).append ((hfence n).append hbar)

end

/-! ## Elements -/

/-- How the bodies of calls are read, other than those of code and of settings. -/
def bodyRule (bodyKind : Kind) : BodyRule := if bodyKind = .body then .literal else .box

theorem functionRule_code : Registry.standard.grammar.functionRule "code" = .code := rfl

theorem functionRule_box {name : String} (h : name ≠ "code" ∧ name ≠ "config") :
    Registry.standard.grammar.functionRule name = .box := by
  have hf : Registry.standard.functions =
      [("box", .box), ("code", .code), ("config", .config "env")] := rfl
  simp only [Grammar.functionRule, Registry.grammar, hf, Table.get?]
  by_cases hbox : "box" = name
  · simp [hbox]
  · simp [hbox, Ne.symm h.1, Ne.symm h.2]

/-- A body between braces; what is inside one that stands on one line does so too. -/
theorem isBody_cases {oneLine : Bool} {bodyKind : Kind} {label : Label} {children : List Node}
    (h : isBody oneLine bodyKind ⟨label, children⟩ = true) :
    label.kind = bodyKind ∧ label.value = none ∧ label.content = "" ∧
      ∃ inner, (label.layout = some .inline ∧ inner = true ∨
          label.layout = some .block ∧ inner = false ∧ oneLine = false) ∧
        (if bodyKind = .body then areItems inner none children else areElements inner none children) =
          true := by
  simp only [isBody, Bool.and_eq_true, beq_iff_eq, Option.isNone_iff_eq_none] at h
  obtain ⟨⟨⟨hk, hv⟩, hc⟩, h⟩ := h
  refine ⟨hk, hv, hc, ?_⟩
  cases hl : label.layout with
  | none => simp [hl] at h
  | some layout =>
    cases layout with
    | inline =>
      rw [hl] at h
      exact ⟨true, .inl ⟨rfl, rfl⟩, h⟩
    | block =>
      simp only [hl, Bool.and_eq_true, Bool.not_eq_true'] at h
      exact ⟨false, .inr ⟨rfl, rfl, h.1⟩, h.2⟩
    | directChild | code => simp [hl] at h

mutual

theorem survives_of_isElement {unit : List Char} (hu : ∀ c ∈ unit, isBlank c = true) {oneLine : Bool} :
    ∀ {n : Node}, isElement oneLine n = true →
    IsElement Registry.standard.grammar false n ∧ Survives unit oneLine (nodeText unit · n) [n]
  | ⟨label, children⟩, h => by
    rw [isElement, Bool.and_eq_true, isPlain, Bool.and_eq_true, Option.isNone_iff_eq_none,
      Option.isNone_iff_eq_none] at h
    obtain ⟨hplain, h⟩ := h
    unfold IsElement nodeText
    cases hk : label.kind <;> rw [hk] at h <;>
      simp only [Bool.and_eq_true, List.isEmpty_iff, bne_iff_ne, Bool.false_eq_true] at h
    case text =>
      obtain ⟨htext, rfl⟩ := h
      exact ⟨⟨hplain, isProse_of_isText htext, rfl⟩, survives_of_children (by rw [hk]; decide) rfl
        (fun _ => rfl) fun level => nests_indented hu level htext⟩
    case func =>
      obtain ⟨⟨hname, hconfig⟩, hclauses⟩ := h
      have hsign : Nests oneLine ('#' :: label.content.toList) := nests_sign (by decide) hname
      obtain ⟨hshape, hsame, hreadable, hnests⟩ :
          (∀ param, IsClauses Registry.standard.grammar false
            (Registry.standard.grammar.functionRule label.content) .funcBody param true children) ∧
          Survives unit oneLine (clausesText unit · children) children := by
        by_cases hcode : label.content = "code"
        · rw [if_pos hcode] at hclauses
          rw [hcode, functionRule_code]
          exact survives_of_areCode hclauses
        · rw [if_neg hcode] at hclauses
          rw [functionRule_box ⟨hcode, hconfig⟩]
          exact survives_of_areClauses hu rfl (fun _ => rfl) hclauses
      exact ⟨⟨hplain, isName_of_isName hname, hshape none⟩, survives_of_children (by rw [hk]; decide)
        hsame hreadable fun level => hsign.append (hnests level)⟩
    case cmd =>
      obtain ⟨hname, hclauses⟩ := h
      have hsign : Nests oneLine ('$' :: label.content.toList) := nests_sign (by decide) hname
      obtain ⟨hshape, hsame, hreadable, hnests⟩ := survives_of_areClauses hu rfl (by simp) hclauses
      rw [keeps_standard.commands label.content]
      exact ⟨⟨hplain, isName_of_isName hname, hshape none⟩, survives_of_children (by rw [hk]; decide)
        hsame hreadable fun level => hsign.append (hnests level)⟩
    case ref =>
      obtain ⟨hname, hcall⟩ := h
      have hsign : Nests oneLine ('@' :: label.content.toList ++ ['=']) :=
        (nests_sign (by decide) hname).append (Nests.of_inert (forall_mem_of_all rfl))
      obtain ⟨hshape, hsame, hreadable, hnests⟩ := survives_of_isCall hu hcall
      exact ⟨⟨hplain, (isName_of_isName hname).all, hshape⟩, survives_of_children (by rw [hk]; decide)
        hsame hreadable fun level => hsign.append (hnests level)⟩
    case varUse =>
      obtain ⟨hname, rfl⟩ := h
      exact ⟨⟨hplain, isName_of_isName hname, by simp⟩, survives_of_children (by rw [hk]; decide) rfl
        (fun _ => rfl) fun _ => nests_sign (by decide) hname⟩
    case varAssign =>
      obtain ⟨hname, hcall⟩ := h
      have hsign : Nests oneLine ('%' :: label.content.toList ++ [' ', '=', ' ']) :=
        (nests_sign (by decide) hname).append (Nests.of_inert (forall_mem_of_all rfl))
      obtain ⟨hshape, hsame, hreadable, hnests⟩ := survives_of_isCall hu hcall
      exact ⟨⟨hplain, isName_of_isName hname, hshape⟩, survives_of_children (by rw [hk]; decide)
        hsame hreadable fun level => hsign.append (hnests level)⟩

theorem survives_of_isCall {unit : List Char} (hu : ∀ c ∈ unit, isBlank c = true) {oneLine : Bool}
    {kind : Kind} : ∀ {ns : List Node}, isCall oneLine kind ns = true →
    IsCall Registry.standard.grammar false kind ns ∧ Survives unit oneLine (callText unit · ns) ns
  | [], h => by simp [isCall] at h
  | n :: rest, h => by
    rw [isCall, Bool.and_eq_true, Bool.and_eq_true, beq_iff_eq, List.isEmpty_iff] at h
    obtain ⟨⟨hk, rfl⟩, hn⟩ := h
    obtain ⟨helement, hsurvives⟩ := survives_of_isElement hu hn
    unfold IsCall
    exact ⟨⟨hk, rfl, helement⟩, hsurvives⟩

theorem survives_of_areClauses {unit : List Char} (hu : ∀ c ∈ unit, isBlank c = true) {oneLine : Bool}
    {bodyKind : Kind} (hb : bodyKind.isBody = true) :
    ∀ {hosts : Bool} {ns : List Node}, (hosts = true → bodyKind = .funcBody) →
    areClauses oneLine bodyKind hosts ns = true →
    (∀ param, IsClauses Registry.standard.grammar false (bodyRule bodyKind) bodyKind param hosts ns) ∧
      Survives unit oneLine (clausesText unit · ns) ns
  | hosts, [], _, h => ⟨fun _ => trivial, rfl, fun _ => rfl, fun _ => Nests.nil⟩
  | hosts, ⟨label, children⟩ :: rest, hh, h => by
    have htext (hk : isClause label.kind = true) : (clausesText unit · (⟨label, children⟩ :: rest)) =
        fun level => nodeText unit level ⟨label, children⟩ ++ clausesText unit level rest :=
      funext fun level => clausesText_of_isClause _ _ _ _ hk
    rw [areClauses] at h
    split at h
    · rename_i hk
      have hk : label.kind = .funcParam := hk
      rw [Bool.and_eq_true] at h
      obtain ⟨hshape, hsurvives⟩ := survives_of_areClauses hu hb hh h.2
      obtain ⟨hchildren, hlayout, value, hv, -⟩ := isParam_cases h.1
      refine ⟨fun param => ?_, ?_⟩
      · unfold IsClauses
        simp only [Node.kind, hk]
        exact ⟨hchildren, hlayout, by rw [hv]; rfl, hshape _⟩
      · rw [htext (by rw [hk]; rfl)]
        exact (survives_param hk h.1).cons hsurvives
    · split at h
      · rename_i hl
        have hl : label.layout = some .directChild := hl
        simp only [Bool.and_eq_true, List.isEmpty_iff] at h
        obtain ⟨⟨rfl, rfl⟩, hhost⟩ := h
        obtain rfl := hh rfl
        obtain ⟨hk, hv, hc, hcall, hsurvives⟩ := survives_of_isHost hu hhost
        exact ⟨fun param => isClauses_host hk hv hl hc hcall, survives_host hk hl hsurvives⟩
      · rename_i hl
        have hl : label.layout ≠ some .directChild := hl
        rw [Bool.and_eq_true] at h
        obtain ⟨hk, hv, -⟩ := isBody_cases h.1
        obtain ⟨hbody, hsurvives⟩ := survives_of_isBody hu hb h.1
        obtain ⟨hshape, hrest⟩ := survives_of_areClauses hu hb (by simp) h.2
        refine ⟨fun param => isClauses_body_cons hb hk hv hl (hbody param) (hshape param), ?_⟩
        rw [htext (by rw [hk]; exact isClause_of_isBody hb)]
        exact hsurvives.cons hrest

theorem survives_of_isHost {unit : List Char} (hu : ∀ c ∈ unit, isBlank c = true) {oneLine : Bool} :
    ∀ {n : Node}, isHost oneLine n = true →
    n.label.kind = .funcBody ∧ n.label.value = none ∧ n.label.content = "" ∧
      IsCall Registry.standard.grammar false .func n.children ∧
      Survives unit oneLine (callText unit · n.children) n.children
  | ⟨label, children⟩, h => by
    simp only [isHost, Bool.and_eq_true, beq_iff_eq, Option.isNone_iff_eq_none] at h
    exact ⟨h.1.1.1, h.1.1.2, h.1.2, survives_of_isCall hu h.2⟩

theorem survives_of_isBody {unit : List Char} (hu : ∀ c ∈ unit, isBlank c = true) {oneLine : Bool}
    {bodyKind : Kind} (hb : bodyKind.isBody = true) : ∀ {n : Node}, isBody oneLine bodyKind n = true →
    (∀ param, IsBody Registry.standard.grammar false (bodyRule bodyKind) param n) ∧
      Survives unit oneLine (nodeText unit · n) [n]
  | ⟨label, children⟩, h => by
    obtain ⟨rfl, hv, hc, inner, hl, hchildren⟩ := isBody_cases h
    have hdelimited : IsDelimited label false := by
      rcases hl with ⟨hl, -⟩ | ⟨hl, -⟩ <;> simp [IsDelimited, hl, hc]
    by_cases hk : label.kind = .body
    · rw [if_pos hk] at hchildren
      refine ⟨fun param => ?_, ?_⟩
      · unfold IsBody
        rw [bodyRule, if_pos hk]
        exact ⟨hdelimited, hc, isFlow_of_areItems hchildren⟩
      · refine survives_braces hu hb hc hl ?_ ?_ (areReadable_of_areItems hchildren unit)
          (nests_of_areItems hu hchildren)
        · rw [reread, hk, rereadItems_of_areItems hchildren]
          rfl
        · rw [leadsOnce_of_areItems hchildren, Bool.or_true]
    · rw [if_neg hk] at hchildren
      obtain ⟨hflow, hsurvives⟩ := survives_of_areElements hu hchildren
      refine ⟨fun param => ?_, ?_⟩
      · unfold IsBody
        rw [bodyRule, if_neg hk]
        exact ⟨hdelimited, hc, hflow⟩
      · have hfunc : label.kind = .funcBody := by
          cases hkind : label.kind <;> rw [hkind] at hb hk <;>
            first | rfl | exact absurd hb (by decide) | exact absurd rfl hk
        refine survives_braces hu hb hc hl ?_ ?_ (hsurvives .opened).readable
          fun level edge => (hsurvives edge).nests level
        · rw [reread, hfunc, (hsurvives .opened).same]
          rfl
        · rw [hfunc]
          rfl

theorem survives_of_areElements {unit : List Char} (hu : ∀ c ∈ unit, isBlank c = true) {oneLine : Bool} :
    ∀ {prev : Option Kind} {ns : List Node}, areElements oneLine prev ns = true →
    IsFlow Registry.standard.grammar false true prev ns ∧
      ∀ edge, Survives unit oneLine (fun level => flowText unit level prev edge ns) ns
  | prev, [], h => by
    refine ⟨by simp [IsFlow], fun edge => ⟨rfl, fun _ => rfl, fun level => ?_⟩⟩
    rw [flowText]
    split
    · exact nests_indentation hu level
    · exact Nests.nil
  | prev, n :: rest, h => by
    simp only [areElements, Bool.and_eq_true, Bool.not_eq_true', ← Bool.not_eq_true] at h
    obtain ⟨⟨hn, hgap⟩, hrest⟩ := h
    obtain ⟨helement, hsurvives⟩ := survives_of_isElement hu hn
    obtain ⟨hflow, hmore⟩ := survives_of_areElements hu hrest
    have hk : n.kind ≠ .sep ∧ n.kind ≠ .configDict :=
      ⟨helement.kind_ne (by decide), helement.kind_ne (by decide)⟩
    refine ⟨?_, fun edge => ?_⟩
    · unfold IsFlow
      rw [if_pos rfl, if_neg hk.1]
      exact ⟨helement, hflow⟩
    · have hcons := hsurvives.cons (hmore n.edgeBehind)
      refine ⟨hcons.same, hcons.readable, fun level => ?_⟩
      rw [flowText_cons hk]
      exact ((nests_gapText hu level edge hgap).append (hsurvives.nests level)).append
        ((hmore n.edgeBehind).nests level)

end

end Evomark.Canonical
