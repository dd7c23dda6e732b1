import Evomark.Proofs.Markup.Built
import Evomark.Proofs.Markup.ByteReader
/-!
# What a reader does by bytes

A `Reader` whose window lies in a source (`Reader.StandsIn`) is a `ByteReader` when only the offsets of its
windows are looked at (`Reader.byBytes`). What the one does without looking into a body, the other does as
well, and nothing is misread.
-/

namespace Evomark.Clause

/-- The signs of a fence are bytes. -/
theorem byteLength_signs (cs : List Char) :
    Text.byteLength (cs.takeWhile (· == '=')) = (cs.takeWhile (· == '=')).length :=
  Markup.byteLength_of_ascii fun c hc => by
    obtain rfl := beq_iff_eq.1 (List.mem_takeWhile_imp (p := (· == '=')) hc)
    decide

theorem braced?_eq_none {w : Window} (h : w.chars.head? ≠ some '\x7b') : braced? w = none := by
  rw [braced?]
  split
  · rfl
  · rename_i c rest hchars
    rw [if_neg fun hc => h (by rw [hchars, hc]; rfl)]

theorem fenced?_eq_none {w : Window} (h : w.chars.head? ≠ some '=') : fenced? w = none := by
  have hsigns : w.chars.takeWhile (· == '=') = [] := by
    cases hchars : w.chars with
    | nil => rfl
    | cons c rest => exact List.takeWhile_cons_of_neg (by simpa [hchars] using h)
  simp only [fenced?, hsigns, List.length_nil, if_true]
  split <;> rfl

/-- No window starts with a parameter and a body. -/
theorem read?_of_body? {w : Window} {found : Clause × Window} (h : body? w = some found) :
    read? w = some found := by
  have hparam : param? w = none := by
    unfold param?
    split
    · rfl
    · rename_i c rest hw
      refine if_neg ?_
      rintro rfl
      rw [body?, braced?_eq_none (by rw [hw, List.head?_cons]; decide),
      fenced?_eq_none (by rw [hw, List.head?_cons]; decide)] at h
      cases h
  rw [read?, hparam, h]
  rfl

/-- What is inside a body lies where the body does. -/
theorem inside_of_body? {w rest : Window} {c : Clause} (h : body? w = some (c, rest)) :
    ∃ layout inner, c = .body layout inner ∧ ∀ {s : String}, w.LiesIn s → inner.LiesIn s := by
  cases found_of_body? h with
  | @param offset inner behind =>
    rw [body?, braced?_eq_none (by rw [List.head?_cons]; decide),
      fenced?_eq_none (by rw [List.head?_cons]; decide)] at h
    cases h
  | @braced offset inner behind => exact ⟨_, _, rfl, fun hlies => hlies.part ['\x7b'] ('\x7d' :: behind) rfl⟩
  | @fenced offset n inner behind =>
    refine ⟨_, _, rfl, fun hlies => ?_⟩
    have hchars : List.replicate n '=' ++ '>' :: (inner ++ closingFence n ++ behind) =
        (List.replicate n '=' ++ ['>']) ++ (inner ++ (closingFence n ++ behind)) := by simp
    have hinner := hlies.part _ _ hchars
    rw [Text.byteLength_append, byteLength_replicate n rfl] at hinner
    exact hinner

end Evomark.Clause

namespace Evomark.Markup

namespace Reader

/-- The reader by offsets. -/
def byBytes (r : Reader) : ByteReader :=
  ⟨r.window.offset, r.rest.offset, r.window.stop, r.current, r.tree, r.config, r.aborted⟩

/-- The reader goes through a window in the source `s`, and nodes can be put below its current node. -/
structure StandsIn (r : Reader) (s : String) : Prop where
  window : r.window.LiesIn s
  leadsTo : r.window.LeadsTo r.rest
  ready : Ready r.tree r.current

variable {r r' : Reader} {s : String}

namespace StandsIn

theorem rest (h : r.StandsIn s) : r.rest.LiesIn s := h.window.leadsTo h.leadsTo

theorem stop_eq (h : r.StandsIn s) : r.rest.stop = r.window.stop := h.leadsTo.stop_eq

theorem spans (h : r.StandsIn s) : Spans s r.window.stop r.rest.offset r.rest.chars :=
  h.stop_eq ▸ spans_of_liesIn h.rest

theorem goOn (h : r.StandsIn s) {rest : Window} (hrest : r.rest.LeadsTo rest) :
    ({ r with rest }).StandsIn s := ⟨h.window, h.leadsTo.trans hrest, h.ready⟩

theorem push (h : r.StandsIn s) (label : Label) : (r.push label).2.StandsIn s :=
  ⟨h.window, h.leadsTo, (gives_push h.ready label).ready h.ready⟩

theorem enter (h : r.StandsIn s) (label : Label) : (r.enter label).2.StandsIn s :=
  ⟨h.window, h.leadsTo, h.ready.pushChild label⟩

/-- A step stands where it goes on to. -/
theorem keeps (h : r.StandsIn s) (hkeeps : r.Keeps r') (hready : Ready r'.tree r.current) : r'.StandsIn s :=
  ⟨hkeeps.window ▸ h.window, hkeeps.window ▸ h.leadsTo.trans hkeeps.leadsTo, hkeeps.current ▸ hready⟩

end StandsIn

/-! ## Nodes -/

@[simp] theorem byBytes_start : r.byBytes.start = r.window.offset := rfl
@[simp] theorem byBytes_pos : r.byBytes.pos = r.rest.offset := rfl
@[simp] theorem byBytes_stop : r.byBytes.stop = r.window.stop := rfl
@[simp] theorem byBytes_current : r.byBytes.current = r.current := rfl
@[simp] theorem byBytes_tree : r.byBytes.tree = r.tree := rfl

theorem byBytes_goOn (rest : Window) {i : Nat} (h : i = rest.offset) :
    { r.byBytes with pos := i } = ({ r with rest }).byBytes := by
  subst h
  rfl

theorem byBytes_push (h : r.current < r.tree.slots.size) (label : Label) :
    r.byBytes.push label = pure ((r.push label).1, (r.push label).2.byBytes) := by
  rw [ByteReader.push, byBytes_tree, byBytes_current,
    nodeAt_eq h, pure_bind]
  rfl

theorem byBytes_enter (h : r.current < r.tree.slots.size) (label : Label) :
    r.byBytes.enter label = pure ((r.enter label).1, (r.enter label).2.byBytes) := by
  rw [ByteReader.enter, byBytes_push h, pure_bind]
  rfl

theorem byBytes_pushLeaves (h : r.current < r.tree.slots.size) (ns : List Node) :
    r.byBytes.pushLeaves ns = pure (r.pushLeaves ns).byBytes := by
  induction ns generalizing r with
  | nil => rfl
  | cons n rest ih =>
    have hnext : (r.push n.label).2.current < (r.push n.label).2.tree.slots.size :=
      Nat.lt_of_lt_of_le h (r.keeps_push n.label).parents.size_le
    rw [ByteReader.pushLeaves, List.foldlM_cons, byBytes_push h, map_pure, pure_bind]
    exact ih hnext

theorem lt_size_pushLeaves (h : r.current < r.tree.slots.size) (ns : List Node) :
    (r.pushLeaves ns).current < (r.pushLeaves ns).tree.slots.size :=
  (r.keeps_pushLeaves ns).current ▸ Nat.lt_of_lt_of_le h (r.keeps_pushLeaves ns).parents.size_le

theorem byBytes_pushText (h : r.current < r.tree.slots.size) (kind : Kind) (raw : List Char) :
    r.byBytes.pushText kind (String.ofList raw) = pure (
      if (Text.normalizeLines raw).isEmpty then r.byBytes
      else (r.push { kind, content := String.ofList (Text.normalizeLines raw) }).2.byBytes) := by
  rw [ByteReader.pushText, String.toList_ofList]
  split
  · rfl
  · rw [byBytes_push h]
    rfl

theorem byBytes_warn (h : Tree.root < r.tree.slots.size) (message : String) :
    r.byBytes.warn message = pure (r.warn message).byBytes := by
  rw [ByteReader.warn, byBytes_tree, nodeAt_eq h, pure_bind]
  rfl

theorem byBytes_ascend {id : Nat} (h : id < r.tree.slots.size) :
    r.byBytes.ascend id = pure (r.ascend id).byBytes := by
  rw [ByteReader.ascend, byBytes_tree, nodeAt_eq h, pure_bind]
  rfl

theorem byBytes_keep (h : r.current < r.tree.slots.size) (content : String) :
    r.byBytes.keep content = pure (r.keep content).byBytes := by
  rw [ByteReader.keep, byBytes_tree, byBytes_current,
    nodeAt_eq h, pure_bind]
  rfl

theorem forM_nodeAt {t : Tree} {ids : List Nat} (h : ∀ id ∈ ids, id < t.slots.size) :
    forM ids (nodeAt t) = pure () := by
  induction ids with
  | nil => rfl
  | cons id rest ih =>
    obtain ⟨hid, hrest⟩ := List.forall_mem_cons.1 h
    rw [List.forM_cons, nodeAt_eq hid, pure_bind, ih hrest]

/-- In a sound tree every node that is listed has a slot. -/
theorem byBytes_hasOnlyParams (ht : r.tree.Sound) {id : Nat} (h : id < r.tree.slots.size) :
    r.byBytes.hasOnlyParams id = pure (r.hasOnlyParams id) := by
  rw [ByteReader.hasOnlyParams, byBytes_tree, nodeAt_eq h, pure_bind, hasOnlyParams]
  have hall : ∀ c ∈ r.tree.children id, c < r.tree.slots.size := fun c hc =>
    Tree.lt_of_isAttached (ht.child hc).2.2.1
  generalize r.tree.children id = ids at hall
  induction ids with
  | nil => rfl
  | cons c rest ih =>
    obtain ⟨hc, hrest⟩ := List.forall_mem_cons.1 hall
    rw [List.allM, nodeAt_eq hc, pure_bind, pure_bind, List.all_cons]
    cases r.tree.kind c == .funcParam with
    | true => exact ih hrest
    | false => rfl

theorem byBytes_remove (ht : r.tree.Sound) {id : Nat} (h : r.tree.isAttached id = true) :
    r.byBytes.remove id = pure ({ r with tree := r.tree.remove id }).byBytes := by
  have hchild {p c : Nat} (hc : c ∈ r.tree.children p) : p < r.tree.slots.size ∧ c < r.tree.slots.size :=
    ⟨Tree.lt_of_isAttached (ht.child hc).2.1, Tree.lt_of_isAttached (ht.child hc).2.2.1⟩
  have hparent : ∀ p ∈ (r.tree.parent? id).toList, p < r.tree.slots.size := by
    intro p hp
    rw [Option.mem_toList] at hp
    have hne : id ≠ Tree.root := fun heq => by rw [heq, ht.root_parent] at hp; cases hp
    obtain ⟨p', hp', hmem⟩ := ht.parent h hne
    rw [hp'] at hp
    exact Option.some.inj hp ▸ (hchild hmem).1
  have hbelow : ∀ d ∈ r.tree.descendants id, d < r.tree.slots.size := by
    intro d hd
    by_cases hne : d = id
    · exact hne ▸ Tree.lt_of_isAttached h
    · obtain ⟨p, hmem, -⟩ := Tree.parent_mem_below hd hne
      exact (hchild hmem).2
  rw [ByteReader.remove, byBytes_tree, forM_nodeAt hparent, pure_bind, forM_nodeAt hbelow, pure_bind]
  rfl

/-! ## Names and clauses -/

theorem takeName_eq (hrest : r.rest.LiesIn s) (hstop : r.rest.stop = r.window.stop) :
    ByteReader.takeName s r.byBytes = pure (r.rest.name, ({ r with rest := r.rest.afterName }).byBytes) := by
  have hspans : Spans s r.window.stop r.rest.offset r.rest.chars := hstop ▸ spans_of_liesIn hrest
  have hname := hrest.taken (List.takeWhile_append_dropWhile (p := Window.isNameChar)).symm
  rw [ByteReader.takeName, byBytes_stop, byBytes_pos, skipWhile_eq (fun c => not_isNameChar) hspans, pure_bind,
    show r.rest.offset + _ = (Window.mk r.rest.offset (r.rest.chars.takeWhile Window.isNameChar)).stop from rfl,
    hname.textBetween, pure_bind]
  rfl

/-- Behind a sign. -/
theorem offset_tail {w : Window} {c : Char} {rest : List Char} (h : w.chars = c :: rest) (hc : c.toNat < 128) :
    w.tail.offset = w.offset + 1 := by
  rw [Window.tail, Window.after, h, List.take_succ_cons, List.take_zero, Text.byteLength_cons,
    utf8Size_of_ascii hc]
  rfl

/-- The reader behind a parameter. -/
def behindParam (r : Reader) (raw : String) (value : Json) (span : Span) (rest : Window) : Reader :=
  (({ r with rest }).push { kind := .funcParam, content := raw, value := some value, span := some span }).2

/-- The reader behind a body, and the number of the body. -/
def openBody (r : Reader) (kind : Kind) (layout : Layout) (inner rest : Window) : Nat × Reader :=
  ({ r with rest }).push { kind, layout := some layout, span := some ⟨inner.offset, inner.stop⟩ }

theorem takeParam_eq (h : r.StandsIn s) :
    ByteReader.takeParam s r.byBytes = pure (match Clause.param? r.rest with
      | some (.param raw value span, rest) => (some value, (r.behindParam raw value span rest).byBytes)
      | _ => (none, r.byBytes)) := by
  rw [ByteReader.takeParam, byBytes_stop, byBytes_pos, signAt_eq (by decide) h.spans, pure_bind, Clause.param?]
  cases hchars : r.rest.chars with
  | nil => rfl
  | cons c rest =>
    by_cases hc : c = '('
    · subst hc
      have hspans := h.spans
      rw [hchars] at hspans
      obtain ⟨-, -, hrest⟩ := hspans.sign (by decide)
      rw [if_pos (by rfl), parenEnd_eq hrest, pure_bind]
      simp only [if_true]
      cases hsplit : Clause.splitParens 0 false rest with
      | none => rfl
      | some found =>
        obtain ⟨inner, behind⟩ := found
        have hinner : (Window.mk (r.rest.offset + 1) inner).LiesIn s :=
          h.rest.part ['('] (')' :: behind) (by rw [hchars, Clause.eq_of_splitParens hsplit]; rfl)
        simp only [Option.map_some]
        rw [show r.rest.offset + 1 + Text.byteLength inner = (Window.mk (r.rest.offset + 1) inner).stop from rfl,
          hinner.textBetween, pure_bind, String.toList_ofList, byBytes_push h.ready.lt, pure_bind]
        rfl
    · have hne : ((c :: rest).head? == some '(') = false := by simpa using hc
      rw [hne, if_neg Bool.false_ne_true]
      simp only [if_neg hc]

/-- A body by offsets: its layout, its inside and where it ends. -/
def bodyAt : Clause × Window → Option (Layout × Span × Nat)
  | (.body layout inner, rest) => some (layout, ⟨inner.offset, inner.stop⟩, rest.offset)
  | (.param .., _) => none

theorem braces_eq {rest : List Char} (h : r.StandsIn s) (hchars : r.rest.chars = '\x7b' :: rest) :
    ByteReader.braces s r.byBytes = pure ((Clause.braced? r.rest).bind bodyAt) := by
  have hspans := h.spans
  rw [hchars] at hspans
  obtain ⟨-, -, hrest⟩ := hspans.sign (by decide)
  rw [ByteReader.braces, byBytes_stop, byBytes_pos, braceEnd_eq hrest, pure_bind, Clause.braced?]
  simp only [hchars, if_true]
  cases hsplit : Clause.splitBraces 0 rest with
  | none => rfl
  | some found =>
    obtain ⟨inner, behind⟩ := found
    have hinner : (Window.mk (r.rest.offset + 1) inner).LiesIn s := h.rest.part ['\x7b']
      ('\x7d' :: behind) (by rw [hchars, Clause.eq_of_splitBraces hsplit]; rfl)
    simp only [Option.map_some]
    rw [show r.rest.offset + 1 + Text.byteLength inner = (Window.mk (r.rest.offset + 1) inner).stop from rfl,
      hinner.bytesBetween, pure_bind, contains_bytes inner (by decide)]
    rfl

theorem fences_eq {rest : List Char} (h : r.StandsIn s) (hchars : r.rest.chars = '=' :: rest) :
    ByteReader.fences s r.byBytes = pure ((Clause.fenced? r.rest).bind bodyAt) := by
  have hskip := skipWhile_eq (p := (· == '=')) (fun c hc => beq_eq_false_iff_ne.2 (ne_of_foreign hc (by decide)))
    h.spans
  have hbehind := h.goOn (Window.leadsTo_dropWhile (· == '=') r.rest)
  have hoffset : (r.rest.dropWhile (· == '=')).offset =
      r.rest.offset + Text.byteLength (r.rest.chars.takeWhile (· == '=')) := rfl
  have hlength := Clause.byteLength_signs r.rest.chars
  have hpos : (r.rest.chars.takeWhile (· == '=')).length ≠ 0 := by rw [hchars]; exact Nat.succ_ne_zero _
  rw [ByteReader.fences, byBytes_stop, byBytes_pos, hskip, pure_bind, ← hoffset]
  rw [hlength] at hoffset
  obtain ⟨n, hn⟩ : ∃ n, (r.rest.chars.takeWhile (· == '=')).length = n := ⟨_, rfl⟩
  obtain ⟨v, hv⟩ : ∃ v, r.rest.dropWhile (· == '=') = v := ⟨_, rfl⟩
  rw [hn] at hoffset hpos
  rw [hv] at hoffset hbehind ⊢
  rw [signAt_eq (by decide) hbehind.spans, pure_bind, Clause.fenced?, hn,
    show r.rest.chars.dropWhile (· == '=') = v.chars from congrArg Window.chars hv]
  simp only [if_neg hpos]
  cases hcontent : v.chars with
  | nil => rfl
  | cons c content =>
    by_cases hc : c = '>'
    · subst hc
      have htail : v.tail.offset = r.rest.offset + n + 1 := by rw [offset_tail hcontent (by decide), hoffset]
      have hinside := hbehind.goOn (Window.leadsTo_tail v)
      have hfence := fenceEnd_eq hinside.rest n
      rw [hinside.stop_eq, htail,
        show v.tail.chars = content by rw [Window.tail, Window.after, hcontent]; rfl] at hfence
      rw [if_pos (by rfl), hoffset, minus_eq (Nat.le_add_right _ _), pure_bind, Nat.add_sub_cancel_left, hfence,
        pure_bind]
      simp only [if_true]
      cases Text.splitAt? (Clause.closingFence n) content <;> rfl
    · have hne : ((c :: content).head? == some '>') = false := by simpa using hc
      rw [hne, if_neg Bool.false_ne_true]
      simp only [if_neg hc]
      rfl

theorem delimited_eq (h : r.StandsIn s) :
    ByteReader.delimited s r.byBytes = pure ((Clause.body? r.rest).bind bodyAt) := by
  rw [ByteReader.delimited, byBytes_stop, byBytes_pos, signAt_eq (by decide) h.spans, pure_bind,
    signAt_eq (by decide) h.spans, Clause.body?]
  by_cases hbrace : r.rest.chars.head? = some '\x7b'
  · obtain ⟨rest, hchars⟩ := List.head?_eq_some_iff.1 hbrace
    rw [Clause.fenced?_eq_none (by rw [hbrace]; decide), Option.or_none, hbrace, andThen, if_neg (by decide),
      pure_bind, if_pos (by rfl), braces_eq h hchars]
  · rw [Clause.braced?_eq_none hbrace, Option.none_or, beq_eq_false_iff_ne.2 hbrace, andThen, if_pos (by rfl),
      pure_bind, if_neg Bool.false_ne_true]
    by_cases hfence : r.rest.chars.head? = some '='
    · obtain ⟨rest, hchars⟩ := List.head?_eq_some_iff.1 hfence
      rw [hfence, if_pos (by rfl), fences_eq h hchars]
    · rw [Clause.fenced?_eq_none hfence, beq_eq_false_iff_ne.2 hfence, if_neg Bool.false_ne_true]
      rfl

theorem takeBody_eq (kind : Kind) (h : r.StandsIn s) :
    ByteReader.takeBody s kind r.byBytes = pure (match Clause.body? r.rest with
      | some (.body layout inner, rest) =>
        (some ((r.openBody kind layout inner rest).1, ⟨inner.offset, inner.stop⟩),
          (r.openBody kind layout inner rest).2.byBytes)
      | _ => (none, r.byBytes)) := by
  rw [ByteReader.takeBody, delimited_eq h, pure_bind]
  match Clause.body? r.rest with
  | none | some (.param .., _) => rfl
  | some (.body layout inner, rest) =>
    simp only [Option.bind_some, bodyAt]
    rw [byBytes_push h.ready.lt, pure_bind]
    rfl

/-! ## Text -/

theorem takeRaw_eq (h : r.StandsIn s) :
    ByteReader.takeRaw s r.byBytes = pure (String.ofList r.window.chars, r.takeRaw.byBytes) := by
  rw [ByteReader.takeRaw, byBytes_start, byBytes_stop, h.window.textBetween, pure_bind,
    byBytes_keep h.ready.lt, pure_bind]
  rfl

theorem byteLength_eq_zero {cs : List Char} : Text.byteLength cs = 0 ↔ cs = [] := by
  cases cs with
  | nil => exact iff_of_true rfl rfl
  | cons c rest =>
    have := c.utf8Size_pos
    rw [Text.byteLength_cons]
    exact iff_of_false (by omega) nofun

theorem prose_eq (h : r.StandsIn s) :
    ByteReader.prose s r.byBytes = pure (r.prose.1, r.prose.2.byBytes) := by
  have hsplit := Segment.splitProse_append r.rest.chars
  rw [ByteReader.prose, byBytes_stop, byBytes_pos, proseEnd_eq h.spans, pure_bind, prose]
  cases hs : Segment.splitProse r.rest.chars with
  | mk raw rest =>
    rw [hs] at hsplit
    simp only [List.isEmpty_iff, Nat.add_eq_left, byteLength_eq_zero]
    by_cases hraw : raw = []
    · rw [if_pos hraw, if_pos hraw]
    · have htext := (h.rest.taken hsplit.symm).textBetween
      rw [if_neg hraw, if_neg hraw,
        show r.rest.offset + Text.byteLength raw = (Window.mk r.rest.offset raw).stop from rfl, htext, pure_bind,
        byBytes_pushText h.ready.lt, pure_bind]
      simp only [List.isEmpty_iff]
      split <;> rfl

theorem behindEquals_eq (h : r.StandsIn s) :
    ByteReader.behindEquals s r.byBytes = pure ((Segment.afterEquals? r.rest).map (·.offset)) := by
  have hspace : ∀ c : Char, 128 ≤ c.toNat → Segment.isSpace c = false := fun c hc =>
    beq_eq_false_iff_ne.2 (ne_of_foreign hc (by decide))
  have hgap : ∀ c : Char, 128 ≤ c.toNat → Segment.isGap c = false := fun c hc =>
    Bool.or_eq_false_iff.2 ⟨hspace c hc, beq_eq_false_iff_ne.2 (ne_of_foreign hc (by decide))⟩
  have hbehind := h.goOn (Window.leadsTo_dropWhile Segment.isSpace r.rest)
  have hoffset : r.rest.offset + Text.byteLength (r.rest.chars.takeWhile Segment.isSpace) =
      (r.rest.dropWhile Segment.isSpace).offset := rfl
  rw [ByteReader.behindEquals, byBytes_stop, byBytes_pos, skipWhile_eq hspace h.spans, pure_bind, hoffset,
    signAt_eq (by decide) hbehind.spans, pure_bind, Segment.afterEquals?]
  cases hchars : (r.rest.dropWhile Segment.isSpace).chars with
  | nil => rfl
  | cons c rest =>
    by_cases hc : c = '='
    · subst hc
      have hinside := hbehind.goOn (Window.leadsTo_tail _)
      rw [if_pos (by rfl), ← offset_tail hchars (by decide), skipWhile_eq hgap hinside.spans]
      simp only [if_true]
      rfl
    · have hne : ((c :: rest).head? == some '=') = false := by simpa using hc
      rw [hne, if_neg Bool.false_ne_true]
      simp only [if_neg hc]
      rfl

/-! ## Literals -/

theorem byBytes_pushText_literal (h : r.current < r.tree.slots.size) (run : List Char) :
    r.byBytes.pushText .literal (String.ofList run.reverse) = pure (r.pushLeaves (literalOf run)).byBytes := by
  rw [byBytes_pushText h, literalOf]
  split <;> rfl

/-- Where the reader goes on does not matter to what is put below its node. -/
theorem finish_pushLeaves (r : Reader) (rest : Window) (ns : List Node) :
    (({ r with rest }).pushLeaves ns).finish = (r.pushLeaves ns).finish := by
  induction ns generalizing r with
  | nil => rfl
  | cons n more ih => exact ih (r.push n.label).2

theorem pushLeaves_append (r : Reader) (ns ms : List Node) :
    r.pushLeaves (ns ++ ms) = (r.pushLeaves ns).pushLeaves ms := List.foldl_append

/-- A run of text and a leaf behind it, and the window that is left then. -/
def behindRun (r : Reader) (run : List Char) (n : Node) (rest : Window) : Reader :=
  (({ r.pushLeaves (literalOf run) with rest }).push n.label).2

theorem finish_behindRun (r : Reader) (run : List Char) (n : Node) (rest : Window) (more : List Node) :
    ((r.behindRun run n rest).pushLeaves more).finish = (r.pushLeaves (literalOf run ++ n :: more)).finish := by
  rw [pushLeaves_append]
  exact finish_pushLeaves (r.pushLeaves (literalOf run)) rest (n :: more)

theorem lt_size_behindRun (h : r.current < r.tree.slots.size) {run : List Char} {n : Node} {rest : Window} :
    (r.behindRun run n rest).current < (r.behindRun run n rest).tree.slots.size :=
  Nat.lt_of_lt_of_le (lt_size_pushLeaves h _)
    (keeps_push { r.pushLeaves (literalOf run) with rest } n.label).parents.size_le

theorem startsAt_of_foreign {stop k : Nat} {b sigil : Char} (hs : sigil.toNat < 128)
    (hbyte : byteAt s k = pure b) (hb : 128 ≤ b.toNat) : startsAt s stop k sigil = pure false := by
  rw [startsAt]
  split
  · rw [hbyte, pure_bind, beq_eq_false_iff_ne.2 (ne_of_foreign hb hs)]
    rfl
  · rfl

theorem literals_of_foreign {start k : Nat} {b : Char} (hk : k < r.window.stop) (hbyte : byteAt s k = pure b)
    (hb : 128 ≤ b.toNat) :
    ByteReader.literals s start k r.byBytes = ByteReader.literals s start (k + 1) r.byBytes := by
  rw [ByteReader.literals, byBytes_stop, if_pos hk, startsAt_of_foreign (by decide) hbyte hb, pure_bind,
    if_neg Bool.false_ne_true, hbyte, pure_bind, if_neg (ne_of_foreign hb (by decide))]

/-- From `start` up to `i` stands a run of text, the last character first, and behind it `cs` up to `stop`. -/
structure RunTo (s : String) (stop start i : Nat) (run cs : List Char) : Prop where
  lies : (Window.mk start (run.reverse ++ cs)).LiesIn s
  pos_eq : i = start + Text.byteLength run.reverse
  stop_eq : stop = i + Text.byteLength cs

namespace RunTo

variable {stop start i : Nat} {run cs rest : List Char}

theorem text (h : RunTo s stop start i run cs) : textBetween s start i = pure (String.ofList run.reverse) := by
  rw [h.pos_eq]
  exact (h.lies.taken rfl).textBetween

theorem rest_lies (h : RunTo s stop start i run cs) : (Window.mk i cs).LiesIn s := by
  rw [h.pos_eq]
  exact h.lies.leadsTo (Window.leadsTo_after rfl)

theorem spans (h : RunTo s stop start i run cs) : Spans s stop i cs := by
  rw [h.stop_eq]
  exact spans_of_liesIn h.rest_lies

/-- More text belongs to the run. -/
theorem extend (front : List Char) (h : RunTo s stop start i run (front ++ rest)) :
    RunTo s stop start (i + Text.byteLength front) (front.reverse ++ run) rest := by
  have hchars : (front.reverse ++ run).reverse = run.reverse ++ front := by simp
  refine ⟨?_, ?_, ?_⟩
  · rw [hchars, List.append_assoc]
    exact h.lies
  · rw [hchars, Text.byteLength_append, h.pos_eq, Nat.add_assoc]
  · rw [h.stop_eq, Text.byteLength_append, Nat.add_assoc]

/-- Behind other text a new run starts. -/
theorem restart (front : List Char) (h : RunTo s stop start i run (front ++ rest)) :
    RunTo s stop (i + Text.byteLength front) (i + Text.byteLength front) [] rest :=
  ⟨h.rest_lies.leadsTo (Window.leadsTo_after rfl), rfl, (h.extend front).stop_eq⟩

end RunTo

theorem cons_break (rest : List Char) :
    '\n' :: rest = ('\n' :: rest.takeWhile isGapChar) ++ rest.dropWhile isGapChar := by
  rw [List.cons_append, List.takeWhile_append_dropWhile]

/-- A gap, from its first line feed on. -/
theorem gapEnd_of_break {stop i : Nat} {rest : List Char} (h : Spans s stop i ('\n' :: rest)) :
    gapEnd s stop i 0 = pure (i + Text.byteLength ('\n' :: rest.takeWhile isGapChar),
      ('\n' :: rest.takeWhile isGapChar).count '\n') := by
  rw [gapEnd_eq h, List.takeWhile_cons_of_pos (by decide), Nat.zero_add]

theorem literals_eq {run cs : List Char} {start i : Nat} (hr : r.current < r.tree.slots.size)
    (h : RunTo s r.window.stop start i run cs) :
    ByteReader.literals s start i r.byBytes = pure (r.pushLeaves (literalNodesFrom run cs)).finish.byBytes := by
  fun_induction literalNodesFrom run cs generalizing r start i with
  | case1 run =>
    have hstop : r.window.stop = i := h.stop_eq
    rw [ByteReader.literals, byBytes_stop, if_neg (by rw [hstop]; exact Nat.lt_irrefl _), hstop, h.text, pure_bind,
      byBytes_pushText_literal hr, pure_bind]
    rfl
  | case2 run c rest hs ih =>
    obtain ⟨-, -, -, hlt, -⟩ := h.spans.head
    obtain rfl : '%' = c := (List.cons.inj (Window.cons_tail_of_startsConstruct (w := ⟨i, c :: rest⟩) hs)).1
    have hname := h.restart ['%']
    have hkeeps := r.keeps_pushLeaves (literalOf run)
    have htake := takeName_eq (r := { r.pushLeaves (literalOf run) with rest := ⟨i + 1, rest⟩ }) hname.rest_lies
      (hname.stop_eq.symm.trans (congrArg Window.stop hkeeps.window.symm))
    rw [ByteReader.literals, byBytes_stop, if_pos hlt, startsAt_eq (by decide) h.spans, pure_bind, if_pos hs,
      h.text, pure_bind, byBytes_pushText_literal hr, pure_bind, byBytes_goOn ⟨i + 1, rest⟩ rfl, htake,
      pure_bind]
    simp only
    rw [byBytes_push (by exact lt_size_pushLeaves hr _), pure_bind]
    rw [← List.takeWhile_append_dropWhile (p := Window.isNameChar) (l := rest)] at hname
    refine (ih (r := r.behindRun run (useOf _) _) (lt_size_behindRun hr) ?_).trans
      (congrArg (fun r => pure (byBytes r)) (finish_behindRun r run _ _ _))
    exact hkeeps.window.symm ▸ hname.restart _
  | case3 run rest hs gap hgap =>
    rename_i ih
    obtain ⟨hbyte, hlt, -⟩ := h.spans.sign (by decide)
    have hcut := gapEnd_of_break h.spans
    rw [ByteReader.literals, byBytes_stop, if_pos hlt, startsAt_eq (by decide) h.spans, pure_bind, if_neg hs,
      hbyte, pure_bind, if_pos rfl, hcut, pure_bind]
    simp only
    rw [if_pos hgap, h.text, pure_bind, byBytes_pushText_literal hr, pure_bind,
      byBytes_push (lt_size_pushLeaves hr _), pure_bind]
    rw [cons_break rest] at h
    refine (ih (r := r.behindRun run (sepOf _) _) (lt_size_behindRun hr) ?_).trans
      (congrArg (fun r => pure (byBytes r)) (finish_behindRun r run _ _ _))
    exact (r.keeps_pushLeaves (literalOf run)).window.symm ▸ h.restart _
  | case4 run rest hs gap hgap =>
    rename_i ih
    obtain ⟨hbyte, hlt, -⟩ := h.spans.sign (by decide)
    have hcut := gapEnd_of_break h.spans
    rw [ByteReader.literals, byBytes_stop, if_pos hlt, startsAt_eq (by decide) h.spans, pure_bind, if_neg hs,
      hbyte, pure_bind, if_pos rfl, hcut, pure_bind]
    simp only
    rw [if_neg hgap]
    rw [cons_break rest] at h
    exact ih hr (h.extend _)
  | case5 run c rest hs hc ih =>
    obtain ⟨b, hbyte, hb, hlt, -⟩ := h.spans.head
    have hnext : ByteReader.literals s start i r.byBytes = ByteReader.literals s start (i + 1) r.byBytes := by
      rw [ByteReader.literals, byBytes_stop, if_pos hlt, startsAt_eq (by decide) h.spans, pure_bind, if_neg hs,
        hbyte, pure_bind, if_neg (mt (hb.eq_iff (by decide)).1 hc)]
    rw [hnext, h.spans.jump (f := fun i => ByteReader.literals s start i r.byBytes) fun k b => literals_of_foreign]
    exact ih hr (h.extend [c])

end Reader

end Evomark.Markup
