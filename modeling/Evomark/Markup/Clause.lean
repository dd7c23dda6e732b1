import Evomark.Json.Reader
import Evomark.Document.Node
import Evomark.Markup.Window
/-!
# Clauses after a name

The name of a function or a command is followed by any number of clauses: parameters between
parentheses, and bodies between braces or fences. Where a clause ends is decided here, from the
clause alone: at the first closing character that is not escaped and not nested
(`splitBraces`, `splitParens`), or at the first closing fence. What a body means is decided later
by the rule of its name.
-/

namespace Evomark

/-- A clause of a call. -/
inductive Clause
  /-- A parameter: its text, its value, and where its inside stands. -/
  | param (raw : String) (value : Json) (span : Span)
  /-- A body, not yet read. -/
  | body (layout : Layout) (inner : Window)

/-- A name with its clauses. -/
structure Call where
  name : String
  clauses : List Clause

namespace Clause

/-- The clause is a parameter. -/
def isParam : Clause → Bool
  | param .. => true
  | body .. => false

/-- A found inside with characters in front of it. -/
def extend (front : List Char) (found : Option (List Char × List Char)) :
    Option (List Char × List Char) :=
  found.map fun (inner, rest) => (front ++ inner, rest)

/-- Cuts at the brace that closes a body already opened: what is inside and what follows. A
backslash takes the character after it out of account. -/
def splitBraces (depth : Nat) : List Char → Option (List Char × List Char)
  | [] => none
  | c :: rest =>
    if c = '\\' then
      match rest with
      | [] => none
      | d :: more => extend [c, d] (splitBraces depth more)
    else if c = '\x7b' then extend [c] (splitBraces (depth + 1) rest)
    else if c = '\x7d' then
      match depth with
      | 0 => some ([], rest)
      | depth + 1 => extend [c] (splitBraces depth rest)
    else extend [c] (splitBraces depth rest)

/-- Cuts at the parenthesis that closes a parameter already opened. Between quotes parentheses do
not count, and a backslash takes the character after it out of account. -/
def splitParens (depth : Nat) (quoted : Bool) : List Char → Option (List Char × List Char)
  | [] => none
  | c :: rest =>
    if quoted then
      if c = '\\' then
        match rest with
        | [] => none
        | d :: more => extend [c, d] (splitParens depth true more)
      else extend [c] (splitParens depth (c != '"') rest)
    else if c = '"' then extend [c] (splitParens depth true rest)
    else if c = '(' then extend [c] (splitParens (depth + 1) false rest)
    else if c = ')' then
      match depth with
      | 0 => some ([], rest)
      | depth + 1 => extend [c] (splitParens depth false rest)
    else extend [c] (splitParens depth false rest)

/-- The closing fence of `n` equality signs. -/
def closingFence (n : Nat) : List Char := List.replicate n '=' ++ ['|']

/-- The value of a parameter: the JSON value it denotes, or else its text. -/
def paramValue (raw : String) : Json :=
  match Json.read raw with
  | .ok value => value
  | .error _ => .string raw

/-- The parameter a window starts with, if it starts with a complete one. -/
def param? (w : Window) : Option (Clause × Window) :=
  match w.chars with
  | [] => none
  | c :: rest =>
    if c = '(' then
      match splitParens 0 false rest with
      | none => none
      | some (inner, rest) =>
        let raw := String.ofList (Text.trim inner)
        let start := w.offset + 1
        let stop := start + Text.byteLength inner
        some (.param raw (paramValue raw) ⟨start, stop⟩, ⟨stop + 1, rest⟩)
    else none

/-- The body between braces a window starts with. -/
def braced? (w : Window) : Option (Clause × Window) :=
  match w.chars with
  | [] => none
  | c :: rest =>
    if c = '\x7b' then
      match splitBraces 0 rest with
      | none => none
      | some (inner, rest) =>
        let layout := if inner.contains '\n' then Layout.block else Layout.inline
        let inside : Window := ⟨w.offset + 1, inner⟩
        some (.body layout inside, ⟨inside.stop + 1, rest⟩)
    else none

/-- The body between fences a window starts with: the first closing fence of the length of the
opening one ends it. -/
def fenced? (w : Window) : Option (Clause × Window) :=
  let n := (w.chars.takeWhile (· == '=')).length
  match w.chars.dropWhile (· == '=') with
  | [] => none
  | c :: content =>
    if n = 0 then none
    else if c = '>' then
      match Text.splitAt? (closingFence n) content with
      | none => none
      | some (inner, rest) =>
        let inside : Window := ⟨w.offset + n + 1, inner⟩
        some (.body (.code n n) inside, ⟨inside.stop + n + 1, rest⟩)
    else none

/-- The body a window starts with. -/
def body? (w : Window) : Option (Clause × Window) := (braced? w).or (fenced? w)

/-- The clause a window starts with. -/
def read? (w : Window) : Option (Clause × Window) := (param? w).or (body? w)

/-! ## What is read gets shorter -/

theorem length_of_extend {front : List Char} {found : Option (List Char × List Char)}
    {inner rest : List Char} {n : Nat} (h : extend front found = some (inner, rest))
    (ih : ∀ {i r : List Char}, found = some (i, r) → i.length + r.length + 1 = n) :
    inner.length + rest.length + 1 = front.length + n := by
  simp only [extend, Option.map_eq_some_iff, Prod.mk.injEq] at h
  obtain ⟨⟨i, r⟩, hi, rfl, rfl⟩ := h
  have := ih hi
  simp only [List.length_append]
  omega

theorem length_splitBraces {depth : Nat} {cs inner rest : List Char}
    (h : splitBraces depth cs = some (inner, rest)) :
    inner.length + rest.length + 1 = cs.length := by
  fun_induction splitBraces depth cs generalizing inner rest with
  | case1 | case2 => simp at h
  | case5 =>
    simp only [Option.some.injEq, Prod.mk.injEq] at h
    obtain ⟨rfl, rfl⟩ := h
    simp
  | case3 _ _ _ ih | case4 _ _ _ ih | case6 _ _ _ _ ih | case7 _ _ _ _ _ _ ih =>
    have := length_of_extend h ih
    simp only [List.length_cons, List.length_nil] at this ⊢
    omega

theorem length_splitParens {depth : Nat} {quoted : Bool} {cs inner rest : List Char}
    (h : splitParens depth quoted cs = some (inner, rest)) :
    inner.length + rest.length + 1 = cs.length := by
  fun_induction splitParens depth quoted cs generalizing inner rest with
  | case1 | case2 => simp at h
  | case7 =>
    simp only [Option.some.injEq, Prod.mk.injEq] at h
    obtain ⟨rfl, rfl⟩ := h
    simp
  | case3 _ _ _ ih | case4 _ _ _ _ ih | case5 _ _ _ _ ih | case6 _ _ _ _ _ ih
  | case8 _ _ _ _ _ _ ih | case9 _ _ _ _ _ _ _ _ ih =>
    have := length_of_extend h ih
    simp only [List.length_cons, List.length_nil] at this ⊢
    omega

theorem length_splitAt? {sep cs before after : List Char}
    (h : Text.splitAt? sep cs = some (before, after)) :
    before.length + sep.length + after.length ≤ cs.length := by
  fun_induction Text.splitAt? sep cs generalizing before after with
  | case1 hs =>
    simp only [Option.some.injEq, Prod.mk.injEq] at h
    obtain ⟨rfl, rfl⟩ := h
    simp_all
  | case2 => simp at h
  | case3 c rest hs =>
    simp only [Option.some.injEq, Prod.mk.injEq] at h
    obtain ⟨rfl, rfl⟩ := h
    have := (List.isPrefixOf_iff_prefix.1 hs).length_le
    simp only [List.length_nil, List.length_drop]
    omega
  | case4 c rest hs ih =>
    simp only [Option.map_eq_some_iff, Prod.mk.injEq] at h
    obtain ⟨⟨b, a⟩, hb, rfl, rfl⟩ := h
    have := ih hb
    simp only [List.length_cons]
    omega

theorem length_param? {w w' : Window} {c : Clause} (h : param? w = some (c, w')) :
    w'.length < w.length := by
  unfold param? at h
  split at h
  · simp at h
  · rename_i d rest hw
    split at h
    · split at h
      · simp at h
      · rename_i inner rest' hs
        simp only [Option.some.injEq, Prod.mk.injEq] at h
        obtain ⟨_, rfl⟩ := h
        have := length_splitParens hs
        simp only [Window.length, hw, List.length_cons]
        omega
    · simp at h

theorem length_braced? {w w' : Window} {c : Clause} (h : braced? w = some (c, w')) :
    w'.length < w.length := by
  unfold braced? at h
  split at h
  · simp at h
  · rename_i d rest hw
    split at h
    · split at h
      · simp at h
      · rename_i inner rest' hs
        simp only [Option.some.injEq, Prod.mk.injEq] at h
        obtain ⟨_, rfl⟩ := h
        have := length_splitBraces hs
        simp only [Window.length, hw, List.length_cons]
        omega
    · simp at h

theorem length_fenced? {w w' : Window} {c : Clause} (h : fenced? w = some (c, w')) :
    w'.length < w.length := by
  unfold fenced? at h
  have hle := (List.dropWhile_suffix (l := w.chars) (· == '=')).sublist.length_le
  simp only at h
  split at h
  · simp at h
  · rename_i d content hw
    rw [hw] at hle
    split at h
    · simp at h
    · split at h
      · split at h
        · simp at h
        · rename_i inner rest' hs
          simp only [Option.some.injEq, Prod.mk.injEq] at h
          obtain ⟨_, rfl⟩ := h
          have := length_splitAt? hs
          simp only [List.length_cons] at hle
          simp only [Window.length]
          omega
      · simp at h

theorem length_read? {w w' : Window} {c : Clause} (h : read? w = some (c, w')) :
    w'.length < w.length := by
  simp only [read?, body?, Option.or_eq_some_iff] at h
  rcases h with h | ⟨_, h | ⟨_, h⟩⟩
  · exact length_param? h
  · exact length_braced? h
  · exact length_fenced? h

end Clause

/-- The clauses a window starts with, as many as there are, and what follows them. -/
def Window.clauses (w : Window) : List Clause × Window :=
  match _h : Clause.read? w with
  | none => ([], w)
  | some (clause, next) =>
    let (more, rest) := next.clauses
    (clause :: more, rest)
termination_by w.length
decreasing_by exact Clause.length_read? ‹_›

theorem Window.length_clauses_le (w : Window) : w.clauses.2.length ≤ w.length := by
  fun_induction Window.clauses w with
  | case1 => simp
  | case2 w clause next h more rest hn ih =>
    have := Clause.length_read? h
    rw [hn] at ih
    simp only at ih ⊢
    omega

end Evomark
