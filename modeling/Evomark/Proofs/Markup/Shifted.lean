import Evomark.Proofs.Markup.Inner
import Evomark.Proofs.Markup.ReadClause
/-!
# Reading does not depend on where a window stands

A window that stands `k` bytes further on is cut into the same segments and gives the same nodes, but
that the spans in them stand `k` bytes further on (`contents_shift`). This holds of every window, also
where reading stops early. What ends a construct is therefore found in the window alone.
-/

namespace Evomark

/-- The window, `k` bytes further on. -/
def Window.shift (k : Nat) (w : Window) : Window := ⟨k + w.offset, w.chars⟩

/-- The span, `k` bytes further on. -/
def Span.shift (k : Nat) (s : Span) : Span := ⟨k + s.start, k + s.stop⟩

/-- The label, its span `k` bytes further on. -/
def Label.shift (k : Nat) (label : Label) : Label := { label with span := label.span.map (Span.shift k) }

namespace Node

mutual

/-- The node with all spans in it `k` bytes further on. -/
def shift (k : Nat) : Node → Node
  | ⟨label, children⟩ => ⟨label.shift k, shiftAll k children⟩

/-- The nodes with all spans in them `k` bytes further on. -/
def shiftAll (k : Nat) : List Node → List Node
  | [] => []
  | n :: rest => n.shift k :: shiftAll k rest

end

variable (k : Nat)

theorem shiftAll_eq (ns : List Node) : shiftAll k ns = ns.map (shift k) := by
  induction ns with
  | nil => rfl
  | cons n rest ih => rw [shiftAll, ih, List.map_cons]

theorem shiftAll_append (ns ms : List Node) : shiftAll k (ns ++ ms) = shiftAll k ns ++ shiftAll k ms := by
  simp only [shiftAll_eq, List.map_append]

mutual

/-- Without their places, nodes are the same wherever they stand. -/
theorem unplaced_shift : ∀ n : Node, (n.shift k).unplaced = n.unplaced
  | ⟨label, children⟩ => by rw [shift, unplaced, unplaced, unplacedAll_shiftAll children]; rfl

theorem unplacedAll_shiftAll : ∀ ns : List Node, unplacedAll (shiftAll k ns) = unplacedAll ns
  | [] => rfl
  | n :: rest => by
    rw [shiftAll, unplacedAll, unplacedAll, unplaced_shift n, unplacedAll_shiftAll rest]

end

end Node

namespace Window

variable (k : Nat) (w : Window)

theorem chars_shift : (w.shift k).chars = w.chars := rfl

theorem after_shift (consumed rest : List Char) :
    (w.shift k).after consumed rest = (w.after consumed rest).shift k := by
  simp only [after, shift, Nat.add_assoc]

theorem dropWhile_shift (p : Char → Bool) : (w.shift k).dropWhile p = (w.dropWhile p).shift k :=
  after_shift k w _ _

theorem tail_shift : (w.shift k).tail = w.tail.shift k := after_shift k w _ _

theorem afterName_shift : (w.shift k).afterName = w.afterName.shift k := dropWhile_shift k w _

theorem stop_shift : (w.shift k).stop = k + w.stop := Nat.add_assoc _ _ _

end Window

/-! ## Clauses -/

namespace Clause

/-- The clause, `k` bytes further on. -/
def shift (k : Nat) : Clause → Clause
  | param raw value span => param raw value (span.shift k)
  | body layout inner => body layout (inner.shift k)

variable (k : Nat) (w : Window)

theorem isParam_shift (c : Clause) : (c.shift k).isParam = c.isParam := by
  cases c <;> rfl

theorem param?_shift : param? (w.shift k) = (param? w).map (Prod.map (shift k) (Window.shift k)) := by
  obtain ⟨offset, cs⟩ := w
  cases cs with
  | nil => rfl
  | cons c rest =>
    simp only [param?, Window.shift]
    split
    · cases splitParens 0 false rest with
      | none => rfl
      | some found => simp only [Option.map_some, Prod.map, shift, Span.shift, Window.shift, Nat.add_assoc]
    · rfl

theorem braced?_shift : braced? (w.shift k) = (braced? w).map (Prod.map (shift k) (Window.shift k)) := by
  obtain ⟨offset, cs⟩ := w
  cases cs with
  | nil => rfl
  | cons c rest =>
    simp only [braced?, Window.shift]
    split
    · cases splitBraces 0 rest with
      | none => rfl
      | some found =>
        simp only [Option.map_some, Prod.map, shift, Window.shift, Window.stop, Nat.add_assoc]
    · rfl

theorem fenced?_shift : fenced? (w.shift k) = (fenced? w).map (Prod.map (shift k) (Window.shift k)) := by
  obtain ⟨offset, cs⟩ := w
  show fenced? ⟨k + offset, cs⟩ = _
  simp only [fenced?]
  cases cs.dropWhile (· == '=') with
  | nil => rfl
  | cons c content =>
    simp only
    by_cases hn : (cs.takeWhile (· == '=')).length = 0
    · rw [if_pos hn, if_pos hn]
      rfl
    · rw [if_neg hn, if_neg hn]
      split
      · cases Text.splitAt? (closingFence (cs.takeWhile (· == '=')).length) content with
        | none => rfl
        | some found =>
          simp only [Option.map_some, Prod.map, shift, Window.shift, Window.stop, Nat.add_assoc]
      · rfl

theorem body?_shift : body? (w.shift k) = (body? w).map (Prod.map (shift k) (Window.shift k)) := by
  rw [body?, body?, braced?_shift, fenced?_shift]
  cases braced? w <;> rfl

theorem read?_shift : read? (w.shift k) = (read? w).map (Prod.map (shift k) (Window.shift k)) := by
  rw [read?, read?, param?_shift, body?_shift]
  cases param? w <;> rfl

end Clause

theorem Window.clauses_shift (k : Nat) (w : Window) :
    (w.shift k).clauses = Prod.map (List.map (Clause.shift k)) (Window.shift k) w.clauses := by
  fun_induction Window.clauses w with
  | case1 w h => exact clauses_of_none (by rw [Clause.read?_shift, h]; rfl)
  | case2 w clause next h more rest hn ih =>
    have hread : Clause.read? (w.shift k) = some (clause.shift k, next.shift k) := by
      rw [Clause.read?_shift, h]
      rfl
    rw [clauses_of_read? hread, ih, hn]
    rfl

/-! ## Calls and segments -/

/-- The call, `k` bytes further on. -/
def Call.shift (k : Nat) (call : Call) : Call := { call with clauses := call.clauses.map (Clause.shift k) }

namespace Segment

/-- The segment, `k` bytes further on. -/
def shift (k : Nat) : Segment → Segment
  | function call nested => function (call.shift k) (nested.map (Call.shift k))
  | reference name call nested => reference name (call.shift k) (nested.map (Call.shift k))
  | command call => command (call.shift k)
  | assignment name call => assignment name (call.shift k)
  | prose raw => prose raw
  | danglingReference name => danglingReference name
  | emptyReference name => emptyReference name
  | use name => use name
  | danglingAssignment name => danglingAssignment name

variable (k : Nat) (w : Window)

theorem prose?_shift : prose? (w.shift k) = (prose? w).map (Prod.map (shift k) (Window.shift k)) := by
  simp only [prose?, Window.after_shift]
  show (if (splitProse w.chars).1.isEmpty = true then _ else _) = _
  split <;> rfl

theorem call?_shift (sigil : Char) :
    call? sigil (w.shift k) = (call? sigil w).map (Prod.map (Call.shift k) (Window.shift k)) := by
  simp only [call?, Window.tail_shift, Window.afterName_shift, Window.clauses_shift]
  show (if Window.startsConstruct sigil w.chars = true then _ else _) = _
  split <;> rfl

theorem calls?_shift : calls? (w.shift k) =
    (calls? w).map (Prod.map (Call.shift k) (Prod.map (List.map (Call.shift k)) (Window.shift k))) := by
  have hparams (call : Call) : (call.shift k).clauses.all (·.isParam) = call.clauses.all (·.isParam) := by
    simp only [Call.shift, List.all_map, Function.comp_def, Clause.isParam_shift]
  have hcall (w : Window) := call?_shift k w '#'
  fun_induction calls? w with
  | case1 w h =>
    rw [calls?_eq, hcall, h]
    rfl
  | case2 w call rest h hp next more rest' hn ih =>
    rw [calls?_eq, hcall, h]
    simp only [Option.map_some, Prod.map, hparams, hp, if_true, ih, hn]
    rfl
  | case3 w call rest h hp hn ih =>
    rw [calls?_eq, hcall, h]
    simp only [Option.map_some, Prod.map, hparams, hp, if_true, ih, hn, Option.map_none]
    rfl
  | case4 w call rest h hp =>
    rw [calls?_eq, hcall, h]
    simp only [Option.map_some, Prod.map, hparams, hp]
    rfl

theorem afterEquals?_shift : afterEquals? (w.shift k) = (afterEquals? w).map (Window.shift k) := by
  simp only [afterEquals?, Window.dropWhile_shift, Window.tail_shift, Window.chars_shift]
  cases (w.dropWhile isSpace).chars with
  | nil => rfl
  | cons c rest =>
    simp only
    split <;> rfl

theorem reference?_shift :
    reference? (w.shift k) = (reference? w).map (Prod.map (shift k) (Window.shift k)) := by
  simp only [reference?, Window.tail_shift, Window.afterName_shift, afterEquals?_shift, Window.chars_shift]
  cases w.chars with
  | nil => rfl
  | cons c rest =>
    simp only
    split
    · cases afterEquals? w.tail.afterName with
      | none => rfl
      | some target =>
        simp only [Option.map_some, calls?_shift]
        show (if (target.chars.head? == some '#') = true then _ else _) = _
        split
        · cases calls? target <;> rfl
        · rfl
    · rfl

theorem assignmentOrUse?_shift :
    assignmentOrUse? (w.shift k) = (assignmentOrUse? w).map (Prod.map (shift k) (Window.shift k)) := by
  simp only [assignmentOrUse?, Window.tail_shift, Window.afterName_shift, afterEquals?_shift]
  show (if Window.startsConstruct '%' w.chars = true then _ else _) = _
  split
  · cases afterEquals? w.tail.afterName with
    | none => rfl
    | some target =>
      simp only [Option.map_some, call?_shift]
      cases call? '$' target <;> rfl
  · rfl

theorem read?_shift : read? (w.shift k) = (read? w).map (Prod.map (shift k) (Window.shift k)) := by
  have hfunction : function? (w.shift k) = (function? w).map (Prod.map (shift k) (Window.shift k)) := by
    rw [function?, function?, calls?_shift]
    cases calls? w <;> rfl
  have hcommand : command? (w.shift k) = (command? w).map (Prod.map (shift k) (Window.shift k)) := by
    rw [command?, command?, call?_shift]
    cases call? '$' w <;> rfl
  simp only [read?, prose?_shift, hfunction, reference?_shift, hcommand, assignmentOrUse?_shift,
    Option.map_or]

end Segment

theorem Window.segments_of_none {w : Window} (hw : w.chars.head? ≠ some '\n') (h : Segment.read? w = none) :
    w.segments = ([], w) := by
  rw [segments.eq_def]
  split
  · rfl
  · split
    · rfl
    · rename_i hsome
      rw [h] at hsome
      cases hsome

theorem Window.segments_shift (k : Nat) (w : Window) :
    (w.shift k).segments = Prod.map (List.map (Segment.shift k)) (Window.shift k) w.segments := by
  fun_induction Window.segments w with
  | case1 w hw =>
    obtain ⟨offset, cs⟩ := w
    obtain rfl : cs = [] := hw
    exact segments_nil _
  | case2 w hw hn ih =>
    obtain ⟨offset, cs⟩ := w
    obtain ⟨rest, rfl⟩ := List.head?_eq_some_iff.1 hn
    rw [← ih, ← tail_shift]
    exact segments_break _ _
  | case3 w hw hn h =>
    exact segments_of_none (w := w.shift k) hn (by rw [Segment.read?_shift, h]; rfl)
  | case4 w hw hn segment next h more rest hs ih =>
    have hread : Segment.read? (w.shift k) = some (segment.shift k, next.shift k) := by
      rw [Segment.read?_shift, h]
      rfl
    rw [segments_of_read? (w := w.shift k) hn hread, ih, hs]
    rfl

/-! ## What is read -/

namespace Markup

open Node

/-- The finding, `k` bytes further on. -/
def Finding.shift (k : Nat) (f : Finding) : Finding := { f with node := f.node.map (Node.shift k) }

/-- The contents, `k` bytes further on. -/
def Contents.shift (k : Nat) (c : Contents) : Contents := ⟨c.findings.map (Finding.shift k), c.rest.shift k⟩

/-- What a body gives, `k` bytes further on. -/
def Inside.shift (k : Nat) (i : Inside) : Inside := { i with children := shiftAll k i.children }

/-- What clauses give, `k` bytes further on. -/
def Clauses.shift (k : Nat) (c : Clauses) : Clauses := { c with nodes := shiftAll k c.nodes }

variable (k : Nat)

theorem shiftAll_literalOf (run : List Char) : shiftAll k (literalOf run) = literalOf run := by
  unfold literalOf
  simp only
  split <;> rfl

/-- The nodes of a literal body have no spans. -/
theorem shiftAll_literalNodesFrom (run cs : List Char) :
    shiftAll k (literalNodesFrom run cs) = literalNodesFrom run cs := by
  fun_induction literalNodesFrom run cs with
  | case1 run => exact shiftAll_literalOf k run
  | case2 run c rest hs ih =>
    rw [shiftAll_append, shiftAll_literalOf, shiftAll, ih]
    rfl
  | case3 run rest hs gap hg ih =>
    rw [shiftAll_append, shiftAll_literalOf, shiftAll, ih]
    rfl
  | case4 run rest hs gap hg ih => exact ih
  | case5 run c rest hs hc ih => exact ih

theorem Contents.complete_shift (c : Contents) : (c.shift k).complete = c.complete := by
  simp only [complete, shift, List.all_map, Window.shift]
  rfl

theorem Contents.inside_shift (c : Contents) : (c.shift k).inside = c.inside.shift k := by
  simp only [inside, Inside.shift, complete_shift]
  simp only [shift, List.filterMap_map, List.flatMap_map, shiftAll_eq, List.map_filterMap]
  rfl

section

variable {k : Nat} {g : Grammar} {read : Window → Contents} {n : Nat}

theorem readBody_shift (hread : ∀ w, w.length < n → read (w.shift k) = (read w).shift k) (rule : BodyRule)
    (param : Option Json) {w : Window} (hw : w.length < n) :
    readBody read rule param (w.shift k) = (readBody read rule param w).shift k := by
  cases rule with
  | box => simp only [readBody, hread w hw, Contents.inside_shift]
  | literal =>
    simp only [readBody, Inside.shift, literalNodes, shiftAll_literalNodesFrom]
    rfl
  | config space =>
    simp only [readBody, readSettings, Window.chars_shift]
    cases readDictionary (String.ofList w.chars) (languageOf param) <;> rfl
  | code | reject | shout => rfl

theorem readClauses_shift (hread : ∀ w, w.length < n → read (w.shift k) = (read w).shift k)
    (rule : BodyRule) (bodyKind : Kind) (param : Option Json) {clauses : List Clause}
    (h : ∀ c ∈ clauses, c.Within n) :
    readClauses read rule bodyKind param (clauses.map (Clause.shift k)) =
      (readClauses read rule bodyKind param clauses).shift k := by
  induction clauses generalizing param with
  | nil => rfl
  | cons c more ih =>
    rw [List.forall_mem_cons] at h
    cases c with
    | param raw value span =>
      simp only [List.map_cons, Clause.shift, readClauses, ih _ h.2]
      rfl
    | body layout inner =>
      simp only [List.map_cons, Clause.shift, readClauses, ih _ h.2, readBody_shift hread rule param h.1,
        Window.stop_shift]
      rfl

theorem readFunction_shift (hread : ∀ w, w.length < n → read (w.shift k) = (read w).shift k) {call : Call}
    {nested : List Call} (h : ∀ c ∈ call :: nested, c.Within n) :
    readFunction g read (call.shift k) (nested.map (Call.shift k)) =
      (readFunction g read call nested).shift k := by
  induction nested generalizing call with
  | nil =>
    simp only [List.map_nil, readFunction, Call.shift,
      readClauses_shift hread _ _ none (h call (.head _))]
    rfl
  | cons next more ih =>
    rw [List.forall_mem_cons] at h
    simp only [List.map_cons, readFunction, ih h.2]
    simp only [Call.shift, readClauses_shift hread _ _ none h.1]
    have hdirect (f : Finding) : directBody (f.shift k).node = (directBody f.node).shift k := by
      rw [directBody, directBody, Node.shift, shiftAll_eq, Finding.shift]
      cases f.node <;> rfl
    simp only [hdirect]
    simp only [Finding.shift, Clauses.shift, Option.map_some, Node.shift, shiftAll_append, shiftAll]
    rfl

theorem readCommand_shift (hread : ∀ w, w.length < n → read (w.shift k) = (read w).shift k) {call : Call}
    (h : call.Within n) : readCommand g read (call.shift k) = (readCommand g read call).shift k := by
  simp only [readCommand, Call.shift, readClauses_shift hread _ _ none h]
  rfl

theorem Finding.under_shift (label : Label) (hl : label.span = none) (f : Finding) :
    (f.shift k).under label = (f.under label).shift k := by
  have hlabel : label.shift k = label := by
    cases label
    obtain rfl : _ = none := hl
    rfl
  rw [under, under, shift, shift, Option.map_some, Node.shift, hlabel, shiftAll_eq]
  cases f.node <;> rfl

theorem readSegment_shift (hread : ∀ w, w.length < n → read (w.shift k) = (read w).shift k) {s : Segment}
    (h : s.Within n) : readSegment g read (s.shift k) = (readSegment g read s).shift k := by
  cases s with
  | prose raw =>
    simp only [Segment.shift, readSegment]
    split <;> rfl
  | function call nested => exact readFunction_shift hread h
  | reference name call nested =>
    simp only [Segment.shift, readSegment, readFunction_shift hread h]
    exact Finding.under_shift _ rfl _
  | command call => exact readCommand_shift hread (h call (.head _))
  | assignment name call =>
    simp only [Segment.shift, readSegment, readCommand_shift hread (h call (.head _))]
    exact Finding.under_shift _ rfl _
  | danglingReference | emptyReference | use | danglingAssignment => rfl

end

/-- A window further on gives the same, further on. -/
theorem contents_shift (g : Grammar) (k : Nat) (w : Window) :
    contents g (w.shift k) = (contents g w).shift k := by
  -- the windows inside `w` are shorter
  obtain ⟨n, hn⟩ : ∃ n, w.length < n := ⟨_, Nat.lt_succ_self _⟩
  induction n generalizing w with
  | zero => exact absurd hn (Nat.not_lt_zero _)
  | succ n ih =>
    rw [contents_eq, contents_eq g w, Window.segments_shift, Contents.shift]
    simp only [Prod.map, List.map_map]
    refine congrArg₂ Contents.mk (List.map_congr_left fun s hs => ?_) rfl
    exact readSegment_shift (fun v hv => ih v (Nat.lt_of_lt_of_le hv (Nat.le_of_lt_succ hn)))
      (w.within_segments s hs)

end Markup

end Evomark
