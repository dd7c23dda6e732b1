import Evomark.Proofs.Document.Edits
import Evomark.Proofs.Markup.Reader
import Evomark.Proofs.Markup.Taken
/-!
# Steps of a reader go forward

What a step leaves to read is a rest of what it had (`Window.LeadsTo`), and a step gives back the window
and the current node that it found (`Keeps`): nodes are made below nodes whose parents stay, so a step that
climbs from the node it has made arrives where it started. A step therefore goes forward or changes nothing
(`GoesOn`), and where no step takes anything stands a number sign that starts no construct (`core_ends`).
-/

namespace Evomark

/-! ## What is left of a window -/

namespace Window

/-- The window `v` is what is left of `w` when some characters have been taken. -/
def LeadsTo (w v : Window) : Prop :=
  ∃ taken, w.chars = taken ++ v.chars ∧ v.offset = w.offset + Text.byteLength taken

variable {w v u : Window}

theorem LeadsTo.refl (w : Window) : w.LeadsTo w := ⟨[], rfl, rfl⟩

theorem LeadsTo.trans (h : w.LeadsTo v) (h' : v.LeadsTo u) : w.LeadsTo u := by
  obtain ⟨taken, hchars, hoffset⟩ := h
  obtain ⟨more, hchars', hoffset'⟩ := h'
  refine ⟨taken ++ more, by rw [hchars, hchars', List.append_assoc], ?_⟩
  rw [hoffset', hoffset, Text.byteLength_append, Nat.add_assoc]

/-- Both windows end at the same place. -/
theorem LeadsTo.stop_eq (h : w.LeadsTo v) : v.stop = w.stop := by
  obtain ⟨taken, hchars, hoffset⟩ := h
  rw [stop, stop, hchars, hoffset, Text.byteLength_append, Nat.add_assoc]

theorem LeadsTo.offset_lt (h : w.LeadsTo v) (hlt : v.length < w.length) : w.offset < v.offset := by
  obtain ⟨taken, hchars, hoffset⟩ := h
  cases taken with
  | nil => rw [length, length, hchars] at hlt; exact absurd hlt (Nat.lt_irrefl _)
  | cons c more =>
    rw [hoffset, Text.byteLength_cons]
    have := c.utf8Size_pos
    omega

theorem leadsTo_after {taken rest : List Char} (h : w.chars = taken ++ rest) :
    w.LeadsTo (w.after taken rest) := ⟨taken, h, rfl⟩

theorem leadsTo_dropWhile (p : Char → Bool) (w : Window) : w.LeadsTo (w.dropWhile p) :=
  leadsTo_after List.takeWhile_append_dropWhile.symm

theorem leadsTo_tail (w : Window) : w.LeadsTo w.tail := leadsTo_after (List.take_append_drop 1 _).symm

theorem leadsTo_afterName (w : Window) : w.LeadsTo w.afterName := leadsTo_dropWhile _ w

end Window

open Window

namespace Clause

variable {w v : Window} {c : Clause}

theorem byteLength_replicate (n : Nat) {c : Char} (hc : c.utf8Size = 1) :
    Text.byteLength (List.replicate n c) = n := by
  induction n with
  | zero => rfl
  | succ n ih => rw [List.replicate_succ, Text.byteLength_cons, hc, ih, Nat.add_comm]

theorem leadsTo_read? (h : read? w = some (c, v)) : w.LeadsTo v := by
  cases found_of_read? h with
  | @param offset inner rest =>
    refine ⟨'(' :: inner ++ [')'], by simp, ?_⟩
    have hsize : '('.utf8Size = 1 ∧ ')'.utf8Size = 1 := ⟨rfl, rfl⟩
    simp only [List.cons_append, Text.byteLength_cons, Text.byteLength_append, Text.byteLength_nil, hsize.1,
      hsize.2]
    omega
  | @braced offset inner rest =>
    refine ⟨'\x7b' :: inner ++ ['\x7d'], by simp, ?_⟩
    have hsize : '\x7b'.utf8Size = 1 ∧ '\x7d'.utf8Size = 1 := ⟨rfl, rfl⟩
    simp only [List.cons_append, Text.byteLength_cons, Text.byteLength_append, Text.byteLength_nil, hsize.1,
      hsize.2]
    omega
  | @fenced offset n inner rest =>
    refine ⟨List.replicate n '=' ++ '>' :: inner ++ closingFence n, by simp, ?_⟩
    have hsize : '>'.utf8Size = 1 ∧ '|'.utf8Size = 1 := ⟨rfl, rfl⟩
    have hlength : Text.byteLength (List.replicate n '=') = n := byteLength_replicate n rfl
    simp only [closingFence, Text.byteLength_cons, Text.byteLength_append, Text.byteLength_nil, hsize.1, hsize.2,
      hlength]
    omega

end Clause

theorem Segment.leadsTo_afterEquals? {w v : Window} (h : afterEquals? w = some v) : w.LeadsTo v := by
  unfold afterEquals? at h
  split at h
  · simp at h
  · split at h
    · obtain rfl := Option.some.inj h
      exact (leadsTo_dropWhile _ _).trans ((leadsTo_tail _).trans (leadsTo_dropWhile _ _))
    · simp at h

/-- Where no prose starts stands a sign that can start a construct. -/
theorem Segment.sign_of_splitProse {c : Char} {rest : List Char} (h : (splitProse (c :: rest)).1 = []) :
    c = '#' ∨ c = '@' ∨ ((c = '$' ∨ c = '%') ∧ startsConstruct c (c :: rest) = true) := by
  rw [splitProse] at h
  split at h
  · rename_i hsign
    simp only [Bool.or_eq_true, beq_iff_eq] at hsign
    exact hsign.imp_right .inl
  · split at h
    · rename_i hsigil
      simp only [Bool.and_eq_true, Bool.or_eq_true, beq_iff_eq] at hsigil
      exact .inr (.inr hsigil)
    · split at h <;> cases h

/-! ## Parents stay -/

namespace Tree

/-- The tree `t'` has the nodes of `t` below the same parents. -/
structure KeepsParents (t t' : Tree) : Prop where
  size_le : t.slots.size ≤ t'.slots.size
  parent?_eq : ∀ id, id < t.slots.size → t'.parent? id = t.parent? id

variable {t t' t₂ : Tree}

theorem KeepsParents.refl (t : Tree) : t.KeepsParents t := ⟨Nat.le_refl _, fun _ _ => rfl⟩

theorem KeepsParents.trans (h : t.KeepsParents t') (h' : t'.KeepsParents t₂) : t.KeepsParents t₂ :=
  ⟨Nat.le_trans h.size_le h'.size_le, fun id hid =>
    (h'.parent?_eq id (Nat.lt_of_lt_of_le hid h.size_le)).trans (h.parent?_eq id hid)⟩

theorem keepsParents_pushChild (t : Tree) (p : Nat) (label : Label) :
    t.KeepsParents (t.pushChild p label).2 := by
  refine ⟨by rw [size_pushChild]; exact Nat.le_succ _, fun id hid => ?_⟩
  rw [parent?_pushChild, if_neg (Nat.ne_of_lt hid)]

theorem keepsParents_modify_label (t : Tree) (id : Nat) (f : Label → Label) :
    t.KeepsParents (t.modify id fun s => { s with label := f s.label }) :=
  ⟨Nat.le_of_eq (size_modify t id _).symm, fun q _ => (t.modify_label id f q).2.1⟩

/-- What is removed has been made since. -/
theorem KeepsParents.remove (h : t.KeepsParents t') {id : Nat} (hid : t.slots.size ≤ id) :
    t.KeepsParents (t'.remove id) := by
  by_cases hne : id = root
  · rw [Tree.remove, if_pos hne]
    exact h
  · refine ⟨(size_remove t' id).symm ▸ h.size_le, fun q hq => ?_⟩
    rw [parent?_remove t' q hne, if_neg (by omega), h.parent?_eq q hq]

end Tree

namespace Markup.Reader

/-! ## What a step keeps -/

/-- The reader `r'` has gone on from `r`, in the same window and below the same node. -/
structure Keeps (r r' : Reader) : Prop where
  window : r'.window = r.window
  current : r'.current = r.current
  leadsTo : r.rest.LeadsTo r'.rest
  parents : r.tree.KeepsParents r'.tree

section

variable {r r' r'' : Reader}

theorem Keeps.refl (r : Reader) : r.Keeps r := ⟨rfl, rfl, .refl _, .refl _⟩

theorem Keeps.trans (h : r.Keeps r') (h' : r'.Keeps r'') : r.Keeps r'' :=
  ⟨h'.window.trans h.window, h'.current.trans h.current, h.leadsTo.trans h'.leadsTo,
    h.parents.trans h'.parents⟩

theorem Keeps.orElse {found other : Bool × Reader} (h : r.Keeps found.2) (h' : found.2.Keeps other.2) :
    r.Keeps (if found.1 then found else other).2 := by
  split
  · exact h
  · exact h.trans h'

theorem keeps_rest (r : Reader) {rest : Window} (h : r.rest.LeadsTo rest) : r.Keeps { r with rest } :=
  ⟨rfl, rfl, h, .refl _⟩

theorem keeps_push (r : Reader) (label : Label) : r.Keeps (r.push label).2 :=
  ⟨rfl, rfl, .refl _, Tree.keepsParents_pushChild _ _ _⟩

theorem keeps_warn (r : Reader) (message : String) : r.Keeps (r.warn message) :=
  ⟨rfl, rfl, .refl _, Tree.keepsParents_pushChild _ _ _⟩

theorem keeps_pushLeaves (r : Reader) (ns : List Node) : r.Keeps (r.pushLeaves ns) := by
  induction ns generalizing r with
  | nil => exact .refl r
  | cons n rest ih => exact (r.keeps_push n.label).trans (ih _)

theorem leadsTo_behindName (r : Reader) : r.rest.LeadsTo r.behindName.rest :=
  (leadsTo_tail _).trans (leadsTo_afterName _)

theorem keepsParents_takeRaw (r : Reader) : r.tree.KeepsParents r.takeRaw.tree :=
  Tree.keepsParents_modify_label r.tree r.current fun label =>
    { label with content := String.ofList r.window.chars }

theorem keeps_prose (r : Reader) : r.Keeps r.prose.2 := by
  have hsplit := Segment.splitProse_append r.rest.chars
  rw [prose]
  simp only
  split
  · exact .refl r
  · have hrest := leadsTo_after hsplit.symm
    split
    · exact r.keeps_rest hrest
    · exact (r.keeps_push _).trans (keeps_rest _ hrest)

/-- A step climbs back from a node that was made below the current one. -/
theorem Keeps.ascend {opened : Nat × Reader} {label : Label} (hopen : r.enter label = opened)
    (h : opened.2.Keeps r') : r.Keeps (r'.ascend opened.1) := by
  subst hopen
  have hparents : r.tree.KeepsParents (r.enter label).2.tree := Tree.keepsParents_pushChild _ _ _
  refine ⟨h.window, ?_, h.leadsTo, hparents.trans h.parents⟩
  have hid : (r.enter label).1 = r.tree.slots.size := rfl
  have hlt : (r.enter label).1 < (r.enter label).2.tree.slots.size := by
    rw [hid]
    exact Nat.lt_of_lt_of_eq (Nat.lt_succ_self _) (Tree.size_pushChild r.tree r.current label).symm
  have hparent : (r.enter label).2.tree.parent? (r.enter label).1 = some r.current :=
    (Tree.parent?_pushChild r.tree r.current label _).trans (if_pos hid)
  rw [Reader.ascend, h.parents.parent?_eq _ hlt, hparent]
  rfl

end

section

variable {n : Nat} {read : Reads n}
  (hread : ∀ (r : Reader) (h : r.rest.length < n), r.tree.KeepsParents (read r h).2.tree)

include hread

theorem keepsParents_runRule (rule : BodyRule) (param : Option Json) (r : Reader) (h : r.rest.length < n) :
    r.tree.KeepsParents (runRule read rule param r h).2.tree := by
  cases rule with
  | box => exact hread r h
  | code => exact r.keepsParents_takeRaw
  | literal => exact (r.keeps_pushLeaves _).parents
  | config space => exact r.keepsParents_takeRaw.trans (r.takeRaw.keeps_pushLeaves _).parents
  | reject => exact .refl _
  | shout => exact (r.keeps_pushLeaves _).parents

theorem keeps_body (rule : BodyRule) (param : Option Json) (id : Nat) (inner : Window) (r : Reader)
    (h : inner.length < n) : r.Keeps (body read rule param id inner r h) :=
  ⟨rfl, rfl, .refl _,
    keepsParents_runRule hread rule param { r with window := inner, rest := inner, current := id } h⟩

theorem keeps_clauses (rule : BodyRule) (kind : Kind) (param : Option Json) (r : Reader)
    (h : r.rest.length ≤ n) : r.Keeps (clauses read rule kind param r h).2 := by
  fun_induction clauses read rule kind param r h with
  | case1 param r h hc => exact .refl r
  | case2 param r h raw value span rest hc opened ih =>
    exact ((r.keeps_rest (Clause.leadsTo_read? hc)).trans (keeps_push _ _)).trans ih
  | case3 param r h layout inner rest hc opened ih =>
    exact ((r.keeps_rest (Clause.leadsTo_read? hc)).trans (keeps_push _ _)).trans
      ((keeps_body hread rule param opened.1 inner opened.2 _).trans ih)

theorem keeps_function (g : Grammar) (r : Reader) (h : r.rest.length ≤ n) :
    r.Keeps (function read g r h).2 := by
  rw [function_eq]
  split
  · rename_i hs
    refine (r.keeps_rest (leadsTo_behindName r)).trans ?_
    have hopened := Nat.le_of_lt (length_behindName hs)
    have hfront := keeps_clauses hread (g.functionRule r.rest.tail.name) .funcBody none (r.named .func).2
      (Nat.le_trans hopened h)
    have hlength : (clauses read (g.functionRule r.rest.tail.name) .funcBody none (r.named .func).2
        (Nat.le_trans hopened h)).2.rest.length < r.rest.length :=
      Nat.lt_of_le_of_lt (length_clauses_le read) (length_behindName hs)
    obtain ⟨front, hread₁⟩ : ∃ front, front = clauses read (g.functionRule r.rest.tail.name) .funcBody none
      (r.named .func).2 (Nat.le_trans hopened h) := ⟨_, rfl⟩
    simp only [← hread₁] at hfront hlength ⊢
    split
    · refine Keeps.ascend rfl ?_
      -- the function below the body, and the clauses that are looked for behind it
      have hhosted := keeps_function g (front.2.enter { kind := .funcBody, layout := some .directChild }).2
        (Nat.le_trans (Nat.le_of_lt hlength) h)
      have hbelow := front.2.keeps_push { kind := .funcBody, layout := some .directChild }
      refine Keeps.trans ⟨?_, ?_, ?_, ?_⟩ (keeps_clauses hread _ _ _ _ _)
      · exact hhosted.window.trans hfront.window
      · rfl
      · exact hfront.leadsTo.trans hhosted.leadsTo
      · exact hfront.parents.trans (hbelow.parents.trans hhosted.parents)
    · exact Keeps.ascend rfl hfront
  · exact .refl r
termination_by r.rest.length
decreasing_by
  subst hread₁
  exact hlength

theorem keeps_reference (g : Grammar) (r : Reader) (h : r.rest.length ≤ n) :
    r.Keeps (reference read g r h).2 := by
  rw [reference]
  split
  · split
    · exact (r.keeps_rest (leadsTo_behindName r)).trans (keeps_warn _ _)
    · rename_i target ht
      have htarget := r.keeps_rest ((leadsTo_behindName r).trans (Segment.leadsTo_afterEquals? ht))
      split
      · refine htarget.trans (Keeps.ascend rfl ?_)
        have hfound := keeps_function hread g
          ({ r with rest := target }.enter { kind := .ref, content := r.rest.tail.name }).2
          (Nat.le_trans (Segment.length_afterEquals? ht) (Nat.le_trans (length_behindName_le r) h))
        split
        · exact hfound
        · exact hfound.trans (keeps_warn _ _)
      · exact htarget.trans (keeps_warn _ _)
  · exact .refl r

theorem keeps_command (g : Grammar) (r : Reader) (h : r.rest.length ≤ n) :
    r.Keeps (command read g r h).2 := by
  rw [command]
  split
  · exact (r.keeps_rest (leadsTo_behindName r)).trans (Keeps.ascend rfl (keeps_clauses hread _ _ _ _ _))
  · exact .refl r

theorem keeps_assignment (g : Grammar) (r : Reader) (h : r.rest.length ≤ n) :
    r.Keeps (assignment read g r h).2 := by
  rw [assignment]
  split
  · split
    · exact (r.keeps_rest (leadsTo_behindName r)).trans (keeps_push _ _)
    · rename_i target ht
      have htarget := r.keeps_rest ((leadsTo_behindName r).trans (Segment.leadsTo_afterEquals? ht))
      refine htarget.trans ?_
      have hfound := keeps_command hread g
        ({ r with rest := target }.enter { kind := .varAssign, content := r.rest.tail.name }).2
        (Nat.le_trans (Segment.length_afterEquals? ht) (Nat.le_trans (length_behindName_le r) h))
      have hback := Keeps.ascend rfl hfound
      simp only
      split
      · exact hback
      · exact ⟨hback.window, hback.current, hback.leadsTo,
          (hback.parents.remove (Nat.le_refl _)).trans (Tree.keepsParents_pushChild _ _ _)⟩
  · exact .refl r

theorem keeps_step (g : Grammar) (r : Reader) (h : r.rest.length ≤ n) : r.Keeps (step read g r h).2 :=
  r.keeps_prose.orElse <| (keeps_function hread g _ _).orElse <| (keeps_reference hread g _ _).orElse <|
    (keeps_command hread g _ _).orElse (keeps_assignment hread g _ _)

end

/-! ## Windows -/

/-- A window is read in place, and every node made on the way is below the current node or the root. -/
theorem keeps_core (g : Grammar) (r : Reader) : r.Keeps (core g r).2 := by
  rw [core]
  split
  · exact .refl r
  · rename_i hnil
    split
    · exact (r.keeps_rest (leadsTo_tail _)).trans (keeps_core g _)
    · have hstep := keeps_step (fun r' (_ : r'.rest.length < r.rest.length) => (keeps_core g r').parents) g r
        (Nat.le_refl _)
      split
      · rename_i r' hs
        rw [hs] at hstep
        exact hstep.trans (keeps_core g r')
      · rename_i r' hs
        rw [hs] at hstep
        exact ⟨hstep.window, hstep.current, hstep.leadsTo, hstep.parents⟩
termination_by r.rest.length
decreasing_by
  · assumption
  · exact length_of_step ‹_›
  · exact length_tail_lt ‹_›

/-! ## Where steps take nothing -/

section

variable {n : Nat} (read : Reads n) (g : Grammar) (r : Reader) (h : r.rest.length ≤ n)

theorem fst_function : (function read g r h).1 = r.startsWith '#' := by
  rw [function_eq]
  split
  · rename_i hs
    rw [hs]
    simp only
    split <;> rfl
  · rename_i hs
    exact (Bool.eq_false_iff.2 hs).symm

theorem fst_command : (command read g r h).1 = r.startsWith '$' := by
  rw [command]
  split
  · rename_i hs
    exact hs.symm
  · rename_i hs
    exact (Bool.eq_false_iff.2 hs).symm

theorem fst_assignment : (assignment read g r h).1 = r.startsWith '%' := by
  rw [assignment]
  split
  · rename_i hs
    rw [hs]
    split <;> rfl
  · rename_i hs
    exact (Bool.eq_false_iff.2 hs).symm

theorem fst_reference : (reference read g r h).1 = true ↔ r.rest.chars.head? = some '@' := by
  rw [reference]
  split
  · rename_i hs
    refine ⟨fun _ => hs, fun _ => ?_⟩
    split
    · rfl
    · split <;> rfl
  · rename_i hs
    exact ⟨fun hs' => Bool.noConfusion hs', fun hs' => absurd hs' hs⟩

/-- Where there is no prose, the window starts with a sign that can start a construct. -/
theorem head?_of_prose (hnil : r.rest.chars ≠ []) (hp : r.prose.1 = false) :
    ∃ c rest, r.rest.chars = c :: rest ∧
      (c = '#' ∨ c = '@' ∨ ((c = '$' ∨ c = '%') ∧ r.startsWith c = true)) := by
  have hsplit : (Segment.splitProse r.rest.chars).1 = [] := by
    rw [prose] at hp
    simp only at hp
    split at hp
    · exact List.isEmpty_iff.1 ‹_›
    · cases hp
  obtain ⟨c, rest, hchars⟩ := List.exists_cons_of_ne_nil hnil
  refine ⟨c, rest, hchars, ?_⟩
  rw [startsWith, hchars]
  exact Segment.sign_of_splitProse (hchars ▸ hsplit)

/-- Where no step takes anything, the window starts with a number sign that starts no construct. -/
theorem head?_of_step {r' : Reader} (hnil : r.rest.chars ≠ []) (hs : step read g r h = (false, r')) :
    r' = r ∧ r.rest.chars.head? = some '#' ∧ r.startsWith '#' = false := by
  have hadvances := advances_step read g r h
  rw [hs] at hadvances
  refine ⟨hadvances.unchanged rfl, ?_⟩
  rw [step_eq] at hs
  have hfirst {found other : Bool × Reader} (hs : (if found.1 then found else other) = (false, r')) :
      found.1 = false ∧ other = (false, r') := by
    cases hf : found.1 with
    | true => rw [hf, if_pos rfl] at hs; rw [hs] at hf; cases hf
    | false => rw [hf, if_neg Bool.false_ne_true] at hs; exact ⟨rfl, hs⟩
  obtain ⟨hprose, hs⟩ := hfirst hs
  obtain ⟨hfunction, hs⟩ := hfirst hs
  obtain ⟨hreference, hs⟩ := hfirst hs
  obtain ⟨hcommand, hassignment⟩ := hfirst hs
  obtain ⟨c, rest, hchars, rfl | rfl | ⟨rfl | rfl, hstart⟩⟩ := head?_of_prose r hnil hprose
  · exact ⟨by rw [hchars]; rfl, (fst_function read g r h).symm.trans hfunction⟩
  · have := (fst_reference read g r h).2 (by rw [hchars]; rfl)
    rw [hreference] at this
    cases this
  · rw [fst_command, hstart] at hcommand
    cases hcommand
  · have := congrArg Prod.fst hassignment
    rw [fst_assignment, hstart] at this
    cases this

end

theorem core_ends (g : Grammar) (r : Reader) :
    ((core g r).1 = true → (core g r).2.rest.chars = []) ∧
      ((core g r).1 = false → (core g r).2.aborted = true ∧
        (core g r).2.rest.chars.head? = some '#' ∧ (core g r).2.startsWith '#' = false) := by
  rw [core]
  split
  · rename_i hnil
    exact ⟨fun _ => hnil, fun hs => Bool.noConfusion hs⟩
  · rename_i hnil
    split
    · exact core_ends g _
    · split
      · exact core_ends g _
      · rename_i r' hs
        obtain ⟨rfl, hhead, hstart⟩ := head?_of_step _ g r _ hnil hs
        exact ⟨fun hs => Bool.noConfusion hs, fun _ => ⟨rfl, hhead, hstart⟩⟩
termination_by r.rest.length
decreasing_by
  · exact length_of_step ‹_›
  · exact length_tail_lt ‹_›

/-! ## The contract of a step -/

/-- Whatever a step finds, the window, its end and the current node are as before. If it takes something,
it goes forward, and not past the end; if it takes nothing, nothing has changed. -/
structure GoesOn (r : Reader) (found : Bool × Reader) : Prop where
  window : found.2.window = r.window
  current : found.2.current = r.current
  stop : found.2.rest.stop = r.rest.stop
  forward : found.1 = true → r.rest.offset < found.2.rest.offset ∧ found.2.rest.offset ≤ r.rest.stop
  unchanged : found.1 = false → found.2 = r

theorem Advances.goesOn {r : Reader} {found : Bool × Reader} (h : r.Advances found)
    (hkeeps : r.Keeps found.2) : r.GoesOn found where
  window := hkeeps.window
  current := hkeeps.current
  stop := hkeeps.leadsTo.stop_eq
  forward hfound :=
    ⟨hkeeps.leadsTo.offset_lt (h.shorter hfound), hkeeps.leadsTo.stop_eq ▸ Nat.le_add_right _ _⟩
  unchanged := h.unchanged

end Markup.Reader

end Evomark
