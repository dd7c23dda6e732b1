import Evomark.Markup.Reading
import Evomark.Proofs.Markup.Found
/-!
# Windows inside a window

The inside of a body is shorter than the window that the body stands in (`Window.within_segments`), so
the bound with which a window is read is never met: what a window gives does not depend on it
(`readWindow_eq_contents`), and is what its segments give, whose bodies are read the same way
(`contents_eq`).
-/

namespace Evomark

open Markup

/-! ## Bodies are shorter than what they stand in -/

namespace Clause

/-- The inside of the clause, if it is a body, is shorter than `n`. -/
def Within (n : Nat) : Clause → Prop
  | .param .. => True
  | .body _ inner => inner.length < n

theorem Within.mono {n m : Nat} {c : Clause} (h : c.Within n) (hle : n ≤ m) : c.Within m := by
  cases c with
  | param => trivial
  | body layout inner => exact Nat.lt_of_lt_of_le h hle

theorem within_read? {w w' : Window} {c : Clause} (h : read? w = some (c, w')) : c.Within w.length := by
  cases found_of_read? h with
  | param => trivial
  | braced | fenced =>
    simp only [Within, Window.length, List.length_append, List.length_cons]
    omega

end Clause

theorem Window.within_clauses (w : Window) : ∀ c ∈ w.clauses.1, c.Within w.length := by
  fun_induction Window.clauses w with
  | case1 => simp
  | case2 w clause next h more rest hn ih =>
    rw [hn] at ih
    rw [List.forall_mem_cons]
    exact ⟨Clause.within_read? h, fun c hc => (ih c hc).mono (Nat.le_of_lt (Clause.length_read? h))⟩

/-- The insides of the bodies of the call are shorter than `n`. -/
def Call.Within (n : Nat) (call : Call) : Prop := ∀ c ∈ call.clauses, c.Within n

theorem Call.Within.mono {n m : Nat} {call : Call} (h : call.Within n) (hle : n ≤ m) : call.Within m :=
  fun c hc => (h c hc).mono hle

namespace Segment

/-- The calls of a segment. -/
def calls : Segment → List Call
  | .function call nested | .reference _ call nested => call :: nested
  | .command call | .assignment _ call => [call]
  | .prose _ | .danglingReference _ | .emptyReference _ | .use _ | .danglingAssignment _ => []

/-- The insides of the bodies in the segment are shorter than `n`. -/
def Within (n : Nat) (s : Segment) : Prop := ∀ call ∈ s.calls, call.Within n

theorem Within.mono {n m : Nat} {s : Segment} (h : s.Within n) (hle : n ≤ m) : s.Within m :=
  fun call hc => (h call hc).mono hle

/-- A function with what follows it: the functions it hosts, if it can host any. -/
theorem calls?_eq (w : Window) :
    calls? w = (call? '#' w).map fun (call, rest) =>
      if call.clauses.all (·.isParam) then
        match calls? rest with
        | some (next, more, rest) => (call, next :: more, rest)
        | none => (call, [], rest)
      else (call, [], rest) := by
  rw [calls?]
  split
  · rename_i h
    rw [h]
    rfl
  · rename_i call rest h
    rw [h, Option.map_some]
    simp only
    split
    · cases calls? rest <;> rfl
    · rfl

theorem calls?_of_call?_none {w : Window} (h : call? '#' w = none) : calls? w = none := by
  rw [calls?_eq, h]
  rfl

theorem calls?_of_last {w rest : Window} {call : Call} (h : call? '#' w = some (call, rest))
    (hlast : call.clauses.all (·.isParam) = true → call? '#' rest = none) :
    calls? w = some (call, [], rest) := by
  rw [calls?_eq, h, Option.map_some]
  simp only
  split
  · rename_i hparams
    rw [calls?_of_call?_none (hlast hparams)]
  · rfl

theorem calls?_of_host {w rest stop : Window} {call next : Call} {more : List Call}
    (h : call? '#' w = some (call, rest)) (hparams : call.clauses.all (·.isParam) = true)
    (hnext : calls? rest = some (next, more, stop)) : calls? w = some (call, next :: more, stop) := by
  rw [calls?_eq, h, Option.map_some]
  simp only
  rw [if_pos hparams, hnext]

/-- Where a call starts, functions do. -/
theorem exists_calls? {w rest : Window} {call : Call} (h : call? '#' w = some (call, rest)) :
    ∃ call nested rest, calls? w = some (call, nested, rest) := by
  rw [calls?_eq, h, Option.map_some]
  exact ⟨_, _, _, rfl⟩

theorem within_call? {sigil : Char} {w w' : Window} {call : Call} (h : call? sigil w = some (call, w')) :
    call.Within w.length := by
  obtain ⟨-, rfl, -⟩ := eq_of_call? h
  have h₁ := Window.length_afterName_le w.tail
  have h₂ := Window.length_tail_le w
  exact Call.Within.mono (Window.within_clauses w.tail.afterName) (Nat.le_trans h₁ h₂)

theorem within_calls? {w w' : Window} {call : Call} {nested : List Call}
    (h : calls? w = some (call, nested, w')) : ∀ c ∈ call :: nested, c.Within w.length := by
  fun_induction calls? w generalizing call nested w' with
  | case1 => simp at h
  | case2 w c rest hc _ next more rest' hn ih =>
    simp only [Option.some.injEq, Prod.mk.injEq] at h
    obtain ⟨rfl, rfl, -⟩ := h
    rw [List.forall_mem_cons]
    exact ⟨within_call? hc, fun d hd => (ih hn d hd).mono (Nat.le_of_lt (length_call? hc))⟩
  | case3 w c rest hc | case4 w c rest hc =>
    simp only [Option.some.injEq, Prod.mk.injEq] at h
    obtain ⟨rfl, rfl, -⟩ := h
    rw [List.forall_mem_singleton]
    exact within_call? hc

/-- Behind the sign, the name and the equality sign the window is shorter. -/
theorem length_target_le {w target : Window} (h : afterEquals? w.tail.afterName = some target) :
    target.length ≤ w.length :=
  Nat.le_trans (length_afterEquals? h) (Nat.le_trans (Window.length_afterName_le _) (Window.length_tail_le w))

theorem within_read? {w w' : Window} {s : Segment} (h : read? w = some (s, w')) : s.Within w.length := by
  cases found_of_read? h with
  | function hcalls => exact within_calls? hcalls
  | reference _ htarget hcalls => exact fun c hc => (within_calls? hcalls c hc).mono (length_target_le htarget)
  | command hcall => exact List.forall_mem_singleton.2 (within_call? hcall)
  | assignment _ htarget hcall =>
    exact List.forall_mem_singleton.2 ((within_call? hcall).mono (length_target_le htarget))
  | prose | emptyReference | nameless | danglingReference | use | danglingAssignment =>
    exact fun _ hc => nomatch hc

end Segment

/-- Every body in a window is shorter than the window. -/
theorem Window.within_segments (w : Window) : ∀ s ∈ w.segments.1, s.Within w.length := by
  fun_induction Window.segments w with
  | case1 => simp
  | case2 w hw hn ih => exact fun s hs => (ih s hs).mono (Window.length_tail_le w)
  | case3 => simp
  | case4 w hw hn segment next hr more rest hs ih =>
    rw [hs] at ih
    rw [List.forall_mem_cons]
    exact ⟨Segment.within_read? hr, fun s hs => (ih s hs).mono (Nat.le_of_lt (Segment.length_read? hr))⟩

/-! ## Readers that agree -/

/-- Both readers give the same for the bodies of the call. -/
def Call.ReadAlike (read read' : Window → Markup.Contents) (call : Call) : Prop :=
  ∀ layout inner, .body layout inner ∈ call.clauses → read inner = read' inner

theorem Call.Within.readAlike {read read' : Window → Markup.Contents} {n : Nat} {call : Call} (h : call.Within n)
    (hread : ∀ w, w.length < n → read w = read' w) : call.ReadAlike read read' :=
  fun _ inner hc => hread inner (h _ hc)

namespace Segment

/-- The names of the functions in a segment. -/
def functionNames : Segment → List String
  | .function call nested | .reference _ call nested => (call :: nested).map (·.name)
  | .command _ | .assignment .. | .prose _ | .danglingReference _ | .emptyReference _ | .use _
  | .danglingAssignment _ => []

/-- The names of the commands in a segment. -/
def commandNames : Segment → List String
  | .command call | .assignment _ call => [call.name]
  | .function .. | .reference .. | .prose _ | .danglingReference _ | .emptyReference _ | .use _
  | .danglingAssignment _ => []

end Segment

namespace Markup

variable {g g' : Grammar} {read read' : Window → Contents}

theorem readClauses_congr (rule : BodyRule) (bodyKind : Kind) (param : Option Json) {clauses : List Clause}
    (hread : ∀ layout inner, .body layout inner ∈ clauses → read inner = read' inner) :
    readClauses read rule bodyKind param clauses = readClauses read' rule bodyKind param clauses := by
  induction clauses generalizing param with
  | nil => rfl
  | cons c more ih =>
    have hmore := fun param => ih param fun layout inner hc => hread layout inner (.tail _ hc)
    cases c with
    | param raw value span => simp only [readClauses, hmore]
    | body layout inner =>
      have hbody : readBody read rule param inner = readBody read' rule param inner := by
        cases rule <;> simp only [readBody]
        rw [hread layout inner (.head _)]
      simp only [readClauses, hbody, hmore]

theorem readFunction_congr {call : Call} {nested : List Call}
    (hrule : ∀ name ∈ (call :: nested).map (·.name), g.functionRule name = g'.functionRule name)
    (hread : ∀ c ∈ call :: nested, c.ReadAlike read read') :
    readFunction g read call nested = readFunction g' read' call nested := by
  induction nested generalizing call with
  | nil =>
    simp only [readFunction, hrule _ (.head _), readClauses_congr _ _ none (hread call (.head _))]
  | cons next more ih =>
    rw [List.map_cons, List.forall_mem_cons] at hrule
    rw [List.forall_mem_cons] at hread
    simp only [readFunction, hrule.1, readClauses_congr _ _ none hread.1, ih hrule.2 hread.2]

theorem readCommand_congr {call : Call} (hrule : g.commandRule call.name = g'.commandRule call.name)
    (hread : call.ReadAlike read read') : readCommand g read call = readCommand g' read' call := by
  simp only [readCommand, hrule, readClauses_congr _ _ none hread]

/-- A segment gives the same if its names have the same rules and its bodies give the same. -/
theorem readSegment_congr {s : Segment}
    (hfunctions : ∀ name ∈ s.functionNames, g.functionRule name = g'.functionRule name)
    (hcommands : ∀ name ∈ s.commandNames, g.commandRule name = g'.commandRule name)
    (hread : ∀ call ∈ s.calls, call.ReadAlike read read') : readSegment g read s = readSegment g' read' s := by
  cases s with
  | function call nested => exact readFunction_congr hfunctions hread
  | reference name call nested => simp only [readSegment, readFunction_congr hfunctions hread]
  | command call => exact readCommand_congr (hcommands _ (.head _)) (hread call (.head _))
  | assignment name call =>
    simp only [readSegment, readCommand_congr (hcommands _ (.head _)) (hread call (.head _))]
  | prose | danglingReference | emptyReference | use | danglingAssignment => rfl

/-- The segments of a window give the same with readers that agree on shorter windows. -/
theorem map_readSegment_congr {w : Window} (hread : ∀ v, v.length < w.length → read v = read' v) :
    w.segments.1.map (readSegment g read) = w.segments.1.map (readSegment g read') :=
  List.map_congr_left fun s hs =>
    readSegment_congr (fun _ _ => rfl) (fun _ _ => rfl) fun call hc => (w.within_segments s hs call hc).readAlike hread

/-- Bounds that a window stays below make no difference. -/
theorem readWindow_congr {fuel fuel' : Nat} {w : Window} (h : w.length < fuel) (h' : w.length < fuel') :
    readWindow g fuel w = readWindow g fuel' w := by
  induction fuel generalizing fuel' w with
  | zero => exact absurd h (Nat.not_lt_zero _)
  | succ fuel ih =>
    obtain ⟨fuel', rfl⟩ := Nat.exists_eq_succ_of_ne_zero (Nat.ne_of_gt (Nat.zero_lt_of_lt h'))
    have hshort : ∀ v : Window, v.length < w.length → readWindow g fuel v = readWindow g fuel' v :=
      fun v hv => ih (Nat.lt_of_lt_of_le hv (Nat.le_of_lt_succ h))
        (Nat.lt_of_lt_of_le hv (Nat.le_of_lt_succ h'))
    simp only [readWindow, map_readSegment_congr hshort]

/-- What a window gives, with any bound that it stays below. -/
theorem readWindow_eq_contents {fuel : Nat} {w : Window} (h : w.length < fuel) :
    readWindow g fuel w = contents g w :=
  readWindow_congr h (Nat.lt_succ_self _)

/-- A window gives what its segments give, the windows inside it being read the same way. -/
theorem contents_eq (g : Grammar) (w : Window) :
    contents g w = ⟨w.segments.1.map (readSegment g (contents g)), w.segments.2⟩ := by
  have hsegments : w.segments.1.map (readSegment g (readWindow g w.length)) =
      w.segments.1.map (readSegment g (contents g)) :=
    map_readSegment_congr fun v hv => readWindow_eq_contents hv
  rw [← hsegments]
  rfl

end Markup

end Evomark
