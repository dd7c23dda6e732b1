import Evomark.Text.Normal
import Evomark.Markup.Clause
/-!
# Segments

The surface of a window is a sequence of segments: prose up to the next construct or empty line,
calls of functions and commands with their clauses, references, and uses and assignments of
variables. Segments are found without looking into bodies; what a body holds is read later, by the
rule of its name.

`Window.segments` cuts a window into segments. It stops early, with something left, only before a
number sign that starts no construct. Line feeds between segments are passed over.
-/

namespace Evomark

/-- A piece of a window. -/
inductive Segment
  /-- Prose, as it stands in the source. -/
  | prose (raw : List Char)
  /-- A function call. Each call but the last has only parameters and is the host of the next. -/
  | function (call : Call) (nested : List Call)
  /-- A name for a function call. -/
  | reference (name : String) (call : Call) (nested : List Call)
  /-- A reference sign without an equality sign and a number sign after the name. -/
  | danglingReference (name : String)
  /-- A reference whose number sign starts no call. -/
  | emptyReference (name : String)
  /-- A command with its clauses. -/
  | command (call : Call)
  /-- A use of a variable. -/
  | use (name : String)
  /-- A command whose result is bound to a variable. -/
  | assignment (name : String) (call : Call)
  /-- An assignment without a command. -/
  | danglingAssignment (name : String)

namespace Segment

/-- Prose and what follows it. Prose ends before a number sign or reference sign, before a command
or variable, and after the first of two line feeds. -/
def splitProse : List Char → List Char × List Char
  | [] => ([], [])
  | c :: rest =>
    if c == '#' || c == '@' then ([], c :: rest)
    else if (c == '$' || c == '%') && Window.startsConstruct c (c :: rest) then ([], c :: rest)
    else if c == '\n' && rest.head? == some '\n' then (['\n'], rest)
    else
      let (raw, after) := splitProse rest
      (c :: raw, after)

/-- The prose a window starts with. -/
def prose? (w : Window) : Option (Segment × Window) :=
  let (raw, rest) := splitProse w.chars
  if raw.isEmpty then none else some (.prose raw, w.after raw rest)

/-- The name and the clauses after `sigil`, if a name can start there. -/
def call? (sigil : Char) (w : Window) : Option (Call × Window) :=
  if Window.startsConstruct sigil w.chars then
    let (clauses, rest) := w.tail.afterName.clauses
    some (⟨w.tail.name, clauses⟩, rest)
  else none

theorem length_call? {sigil : Char} {w w' : Window} {call : Call}
    (h : call? sigil w = some (call, w')) : w'.length < w.length := by
  unfold call? at h
  split at h
  · rename_i hs
    simp only [Option.some.injEq, Prod.mk.injEq] at h
    obtain ⟨_, rfl⟩ := h
    have h₁ := Window.length_clauses_le w.tail.afterName
    have h₂ := Window.length_afterName_le w.tail
    have h₃ := Window.length_tail_lt (Window.chars_ne_nil_of_startsConstruct hs)
    omega
  · simp at h

/-- The functions a window starts with, each the host of the next: a function with nothing but
parameters takes the call that follows it as its body. -/
def calls? (w : Window) : Option (Call × List Call × Window) :=
  match _h : call? '#' w with
  | none => none
  | some (call, rest) =>
    if call.clauses.all (·.isParam) then
      match calls? rest with
      | some (next, more, rest) => some (call, next :: more, rest)
      | none => some (call, [], rest)
    else some (call, [], rest)
termination_by w.length
decreasing_by exact length_call? ‹_›

theorem length_calls? {w w' : Window} {call : Call} {more : List Call}
    (h : calls? w = some (call, more, w')) : w'.length < w.length := by
  fun_induction calls? w generalizing call more w' with
  | case1 => simp at h
  | case2 w c rest hc _ next more' rest' hn ih =>
    simp only [Option.some.injEq, Prod.mk.injEq] at h
    obtain ⟨_, _, rfl⟩ := h
    have := length_call? hc
    have := ih hn
    omega
  | case3 w c rest hc =>
    simp only [Option.some.injEq, Prod.mk.injEq] at h
    obtain ⟨_, _, rfl⟩ := h
    exact length_call? hc
  | case4 w c rest hc =>
    simp only [Option.some.injEq, Prod.mk.injEq] at h
    obtain ⟨_, _, rfl⟩ := h
    exact length_call? hc

/-- The function call a window starts with. -/
def function? (w : Window) : Option (Segment × Window) :=
  (calls? w).map fun (call, nested, rest) => (.function call nested, rest)

/-- A space. -/
def isSpace (c : Char) : Bool := c == ' '

/-- A space or a line feed. -/
def isGap (c : Char) : Bool := c == ' ' || c == '\n'

/-- The window after spaces and an equality sign, and any gap after it. -/
def afterEquals? (w : Window) : Option Window :=
  match (w.dropWhile isSpace).chars with
  | [] => none
  | c :: _ => if c = '=' then some ((w.dropWhile isSpace).tail.dropWhile isGap) else none

theorem length_afterEquals? {w w' : Window} (h : afterEquals? w = some w') :
    w'.length ≤ w.length := by
  unfold afterEquals? at h
  split at h
  · simp at h
  · split at h
    · simp only [Option.some.injEq] at h
      subst h
      have h₁ := Window.length_dropWhile_le isGap (w.dropWhile isSpace).tail
      have h₂ := Window.length_tail_le (w.dropWhile isSpace)
      have h₃ := Window.length_dropWhile_le isSpace w
      omega
    · simp at h

/-- The reference a window starts with. -/
def reference? (w : Window) : Option (Segment × Window) :=
  match w.chars with
  | [] => none
  | c :: _ =>
    if c = '@' then
      let name := w.tail.name
      match afterEquals? w.tail.afterName with
      | none => some (.danglingReference name, w.tail.afterName)
      | some target =>
        if target.chars.head? == some '#' then
          match calls? target with
          | some (call, nested, rest) => some (.reference name call nested, rest)
          | none => some (.emptyReference name, target)
        else some (.danglingReference name, target)
    else none

/-- The command a window starts with. -/
def command? (w : Window) : Option (Segment × Window) :=
  (call? '$' w).map fun (call, rest) => (.command call, rest)

/-- The use or the assignment of a variable a window starts with. -/
def assignmentOrUse? (w : Window) : Option (Segment × Window) :=
  if Window.startsConstruct '%' w.chars then
    let name := w.tail.name
    match afterEquals? w.tail.afterName with
    | none => some (.use name, w.tail.afterName)
    | some target =>
      match call? '$' target with
      | some (call, rest) => some (.assignment name call, rest)
      | none => some (.danglingAssignment name, target)
  else none

/-- The segment a window starts with. -/
def read? (w : Window) : Option (Segment × Window) :=
  (prose? w).or <| (function? w).or <| (reference? w).or <| (command? w).or (assignmentOrUse? w)

/-! ## Every segment takes something -/

theorem splitProse_append (cs : List Char) : (splitProse cs).1 ++ (splitProse cs).2 = cs := by
  fun_induction splitProse cs with
  | case1 | case2 | case3 => rfl
  | case4 c rest _ _ h => simp at h; simp [h.1]
  | case5 c rest _ _ _ raw after hr ih =>
    rw [hr] at ih
    simp only at ih
    simp [ih]

theorem length_prose? {w w' : Window} {s : Segment} (h : prose? w = some (s, w')) :
    w'.length < w.length := by
  simp only [prose?] at h
  split at h
  · simp at h
  · rename_i hne
    simp only [Option.some.injEq, Prod.mk.injEq] at h
    obtain ⟨_, rfl⟩ := h
    have := congrArg List.length (splitProse_append w.chars)
    have hpos : 0 < (splitProse w.chars).1.length := by
      rw [List.length_pos_iff]
      simpa using hne
    simp only [List.length_append] at this
    simp only [Window.length, Window.after]
    omega

theorem length_reference? {w w' : Window} {s : Segment} (h : reference? w = some (s, w')) :
    w'.length < w.length := by
  unfold reference? at h
  split at h
  · simp at h
  · rename_i c rest hw
    have h₁ := Window.length_tail_lt (w := w) (by simp [hw])
    have h₂ := Window.length_afterName_le w.tail
    split at h
    · simp only at h
      split at h
      · simp only [Option.some.injEq, Prod.mk.injEq] at h
        obtain ⟨_, rfl⟩ := h
        omega
      · rename_i target ht
        have h₃ := length_afterEquals? ht
        split at h
        · split at h
          · rename_i call nested rest' hc
            simp only [Option.some.injEq, Prod.mk.injEq] at h
            obtain ⟨_, rfl⟩ := h
            have := length_calls? hc
            omega
          · simp only [Option.some.injEq, Prod.mk.injEq] at h
            obtain ⟨_, rfl⟩ := h
            omega
        · simp only [Option.some.injEq, Prod.mk.injEq] at h
          obtain ⟨_, rfl⟩ := h
          omega
    · simp at h

theorem length_assignmentOrUse? {w w' : Window} {s : Segment} (h : assignmentOrUse? w = some (s, w')) :
    w'.length < w.length := by
  unfold assignmentOrUse? at h
  split at h
  · rename_i hs
    have h₁ := Window.length_tail_lt (Window.chars_ne_nil_of_startsConstruct hs)
    have h₂ := Window.length_afterName_le w.tail
    simp only at h
    split at h
    · simp only [Option.some.injEq, Prod.mk.injEq] at h
      obtain ⟨_, rfl⟩ := h
      omega
    · rename_i target ht
      have h₃ := length_afterEquals? ht
      split at h
      · rename_i call rest hc
        simp only [Option.some.injEq, Prod.mk.injEq] at h
        obtain ⟨_, rfl⟩ := h
        have := length_call? hc
        omega
      · simp only [Option.some.injEq, Prod.mk.injEq] at h
        obtain ⟨_, rfl⟩ := h
        omega
  · simp at h

theorem length_read? {w w' : Window} {s : Segment} (h : read? w = some (s, w')) :
    w'.length < w.length := by
  simp only [read?, Option.or_eq_some_iff] at h
  rcases h with h | ⟨_, h | ⟨_, h | ⟨_, h | ⟨_, h⟩⟩⟩⟩
  · exact length_prose? h
  · simp only [function?, Option.map_eq_some_iff, Prod.mk.injEq] at h
    obtain ⟨⟨call, nested, rest⟩, hc, _, rfl⟩ := h
    exact length_calls? hc
  · exact length_reference? h
  · simp only [command?, Option.map_eq_some_iff, Prod.mk.injEq] at h
    obtain ⟨⟨call, rest⟩, hc, _, rfl⟩ := h
    exact length_call? hc
  · exact length_assignmentOrUse? h

end Segment

/-- The segments of a window, and what is left where no segment starts. -/
def Window.segments (w : Window) : List Segment × Window :=
  if _hw : w.chars = [] then ([], w)
  else if w.chars.head? = some '\n' then w.tail.segments
  else
    match _h : Segment.read? w with
    | none => ([], w)
    | some (segment, next) =>
      let (more, rest) := next.segments
      (segment :: more, rest)
termination_by w.length
decreasing_by
  · exact Window.length_tail_lt ‹_›
  · exact Segment.length_read? ‹_›

end Evomark
