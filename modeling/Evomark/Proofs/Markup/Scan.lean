import Evomark.Markup.Literal
import Evomark.Proofs.Markup.Bytes
/-!
# Scanning bytes

The loops by which a source is scanned: they look at one byte after the other, up to the end of a window,
and give offsets. `Spans s stop i cs` says that the characters from `i` up to `stop` are `cs`. Then each loop
finds the offset that splitting `cs` by characters gives. The byte of a sign is met at that sign only
(`Spans.sign`), and what is no sign is passed over byte by byte (`Spans.jump`). A backslash passes over one
byte, which may be only the first of a character; the other bytes of it are no signs either.
-/

namespace Evomark.Markup

/-- The second test, if the first one holds. -/
def andThen (first : Bool) (second : Attempt Bool) : Attempt Bool := if first then second else pure false

theorem andThen_pure (a b : Bool) : andThen a (pure b) = pure (a && b) := by cases a <;> rfl

/-- At `i` stands `sigil`, and behind it a character that can start a name. -/
def startsAt (s : String) (stop i : Nat) (sigil : Char) : Attempt Bool :=
  if i + 1 < stop then do
    let b ← byteAt s i
    andThen (b == sigil) (Window.isNameStart <$> byteAt s (i + 1))
  else pure false

/-- At `i` stands `sign`. -/
def signAt (s : String) (stop i : Nat) (sign : Char) : Attempt Bool :=
  if i < stop then (· == sign) <$> byteAt s i else pure false

/-- Behind the bytes that satisfy `p`. -/
def skipWhile (s : String) (stop : Nat) (p : Char → Bool) (i : Nat) : Attempt Nat :=
  if i < stop then do
    let b ← byteAt s i
    if p b then skipWhile s stop p (i + 1) else pure i
  else pure i
termination_by stop - i

/-- Behind a gap, and how many line feeds there are in it, on top of `breaks`. -/
def gapEnd (s : String) (stop i breaks : Nat) : Attempt (Nat × Nat) :=
  if i < stop then do
    let b ← byteAt s i
    if isGapChar b then gapEnd s stop (i + 1) (if b = '\n' then breaks + 1 else breaks)
    else pure (i, breaks)
  else pure (i, breaks)
termination_by stop - i

/-- At `i`, with the byte `b` there, stands the first of two line feeds. -/
def emptyLineAt (s : String) (stop i : Nat) (b : Char) : Attempt Bool :=
  andThen (b == '\n' && decide (i + 1 < stop)) ((· == '\n') <$> byteAt s (i + 1))

/-- Where prose ends. -/
def proseEnd (s : String) (stop i : Nat) : Attempt Nat :=
  if i < stop then do
    let b ← byteAt s i
    if b = '#' ∨ b = '@' then pure i
    else
      let construct ← andThen (b == '$' || b == '%') (startsAt s stop i b)
      if construct then pure i
      else
        let empty ← emptyLineAt s stop i b
        if empty then pure (i + 1) else proseEnd s stop (i + 1)
  else pure i
termination_by stop - i

/-- The closing brace of a body, if there is one. -/
def braceEnd (s : String) (stop depth i : Nat) : Attempt (Option Nat) :=
  if i < stop then do
    let b ← byteAt s i
    if b = '\\' then braceEnd s stop depth (i + 2)
    else if b = '\x7b' then braceEnd s stop (depth + 1) (i + 1)
    else if b = '\x7d' then
      if depth = 0 then pure (some i)
      else do
        let outer ← minus depth 1
        braceEnd s stop outer (i + 1)
    else braceEnd s stop depth (i + 1)
  else pure none
termination_by stop - i

/-- The closing parenthesis of a parameter, if there is one. -/
def parenEnd (s : String) (stop depth : Nat) (quoted : Bool) (i : Nat) : Attempt (Option Nat) :=
  if i < stop then do
    let b ← byteAt s i
    if quoted then
      if b = '\\' then parenEnd s stop depth true (i + 2)
      else if b = '"' then parenEnd s stop depth false (i + 1)
      else parenEnd s stop depth true (i + 1)
    else if b = '"' then parenEnd s stop depth true (i + 1)
    else if b = '(' then parenEnd s stop (depth + 1) false (i + 1)
    else if b = ')' then
      if depth = 0 then pure (some i)
      else do
        let outer ← minus depth 1
        parenEnd s stop outer false (i + 1)
    else parenEnd s stop depth false (i + 1)
  else pure none
termination_by stop - i

/-- The closing fence of the length of an opening one, if there is one. -/
def fenceEnd (s : String) (stop length i : Nat) : Attempt (Option Nat) := do
  let text ← textBetween s i stop
  pure ((Text.splitAt? (Clause.closingFence length) text.toList).map fun (inner, _) =>
    i + Text.byteLength inner)

/-! ## Signs and other bytes -/

/-- A byte of a character: the character itself if it is ASCII, and otherwise not ASCII. -/
def IsByteOf (b c : Char) : Prop := b = c ∨ 128 ≤ b.toNat ∧ 128 ≤ c.toNat

namespace IsByteOf

variable {b c : Char}

/-- A test for signs. -/
theorem test (h : IsByteOf b c) {p : Char → Bool} (hp : ∀ c, 128 ≤ c.toNat → p c = false) : p b = p c := by
  rcases h with rfl | ⟨hb, hc⟩
  · rfl
  · rw [hp b hb, hp c hc]

theorem eq_iff (h : IsByteOf b c) {sign : Char} (hs : sign.toNat < 128) : b = sign ↔ c = sign := by
  rcases h with rfl | ⟨hb, hc⟩
  · exact Iff.rfl
  · exact iff_of_false (by rintro rfl; omega) (by rintro rfl; omega)

theorem beq_eq (h : IsByteOf b c) {sign : Char} (hs : sign.toNat < 128) : (b == sign) = (c == sign) := by
  rw [Bool.eq_iff_iff, beq_iff_eq, beq_iff_eq]
  exact h.eq_iff hs

end IsByteOf

/-- Every byte is one of a character. -/
theorem isByteOf_of_mem {c b : Char} (h : b ∈ (String.utf8EncodeChar c).map Char.ofUInt8) : IsByteOf b c := by
  obtain ⟨byte, hbyte, rfl⟩ := List.mem_map.1 h
  rcases encode_cases c with ⟨-, b, hsingle, hb⟩ | ⟨hc, hall⟩
  · rw [hsingle, List.mem_singleton] at hbyte
    exact .inl (hbyte ▸ hb)
  · exact .inr ⟨hall byte hbyte, hc⟩

/-- A sign stands among bytes where it stands among characters. -/
theorem contains_bytes (cs : List Char) {sign : Char} (hs : sign.toNat < 128) :
    ((encode cs).map Char.ofUInt8).contains sign = cs.contains sign := by
  induction cs with
  | nil => rfl
  | cons c rest ih =>
    have hfirst : sign ∈ (String.utf8EncodeChar c).map Char.ofUInt8 ↔ sign = c := by
      refine ⟨fun h => ((isByteOf_of_mem h).eq_iff hs).1 rfl |>.symm, ?_⟩
      rintro rfl
      rcases encode_cases sign with ⟨-, b, hsingle, hb⟩ | ⟨hc, -⟩
      · rw [hsingle, List.map_singleton, hb]
        exact .head _
      · omega
    rw [Bool.eq_iff_iff, List.contains_iff_mem, List.contains_iff_mem] at ih ⊢
    rw [encode_cons, List.map_append, List.mem_append, hfirst, ih, List.mem_cons]

/-- The characters from one offset to another. -/
structure Spans (s : String) (stop i : Nat) (cs : List Char) : Prop where
  spells : Spells s i (encode cs)
  stop_eq : stop = i + Text.byteLength cs

theorem spans_of_liesIn {s : String} {w : Window} (h : w.LiesIn s) : Spans s w.stop w.offset w.chars :=
  ⟨h.spells, rfl⟩

namespace Spans

variable {s : String} {stop i : Nat} {c : Char} {cs : List Char}

theorem nil (h : Spans s stop i []) : stop = i := h.stop_eq

/-- The first byte of a character, and what stands behind all of its bytes. -/
theorem head (h : Spans s stop i (c :: cs)) :
    ∃ b, byteAt s i = pure b ∧ IsByteOf b c ∧ i < stop ∧ Spans s stop (i + c.utf8Size) cs := by
  have hstop := h.stop_eq
  rw [Text.byteLength_cons] at hstop
  have hspells := h.spells
  rw [encode_cons] at hspells
  have hrest : Spans s stop (i + c.utf8Size) cs := by
    refine ⟨?_, by omega⟩
    have := hspells.append
    rwa [String.length_utf8EncodeChar] at this
  have hlt : i < stop := by
    have := c.utf8Size_pos
    omega
  cases hbytes : String.utf8EncodeChar c with
  | nil => exact absurd (congrArg List.length hbytes) (Nat.ne_of_gt (length_utf8EncodeChar_pos c))
  | cons first more =>
    rw [hbytes] at hspells
    exact ⟨Char.ofUInt8 first, hspells.cons.1,
      isByteOf_of_mem (List.mem_map_of_mem (hbytes ▸ .head _)), hlt, hrest⟩

/-- A sign is its own byte. -/
theorem sign (h : Spans s stop i (c :: cs)) (hc : c.toNat < 128) :
    byteAt s i = pure c ∧ i < stop ∧ Spans s stop (i + 1) cs := by
  obtain ⟨b, hbyte, hb, hlt, hrest⟩ := h.head
  obtain rfl := (hb.eq_iff hc).2 rfl
  rw [utf8Size_of_ascii hc] at hrest
  exact ⟨hbyte, hlt, hrest⟩

/-- A loop that goes on by one byte at bytes that are not ASCII goes on behind them. -/
theorem skip {α : Type} {f : Nat → Attempt α} (bytes : List UInt8) {more : List UInt8}
    (h : Spells s i (bytes ++ more)) (hbytes : ∀ b ∈ bytes, 128 ≤ b.toNat)
    (hstep : ∀ k b, k < i + bytes.length → byteAt s k = pure b → 128 ≤ b.toNat → f k = f (k + 1)) :
    f i = f (i + bytes.length) := by
  induction bytes generalizing i with
  | nil => rfl
  | cons b rest ih =>
    obtain ⟨hb, hrest⟩ := List.forall_mem_cons.1 hbytes
    obtain ⟨hbyte, hmore⟩ := h.cons
    rw [List.length_cons] at hstep ⊢
    rw [hstep i _ (by omega) hbyte hb, ih hmore hrest fun k b hk => hstep k b (by omega)]
    congr 1
    omega

/-- From behind the first byte of a character a loop that passes over bytes that are not ASCII goes on behind
the character. -/
theorem jump {α : Type} {f : Nat → Attempt α} (h : Spans s stop i (c :: cs))
    (hstep : ∀ k b, k < stop → byteAt s k = pure b → 128 ≤ b.toNat → f k = f (k + 1)) :
    f (i + 1) = f (i + c.utf8Size) := by
  have hspells := h.spells
  obtain ⟨-, -, -, -, hrest⟩ := h.head
  have hstop := hrest.stop_eq
  have hlength := String.length_utf8EncodeChar c
  rw [encode_cons] at hspells
  cases hbytes : String.utf8EncodeChar c with
  | nil => exact absurd (congrArg List.length hbytes) (Nat.ne_of_gt (length_utf8EncodeChar_pos c))
  | cons first more =>
    rw [hbytes] at hspells hlength
    rw [List.length_cons] at hlength
    have hmore : ∀ b ∈ more, 128 ≤ b.toNat := by
      rcases encode_cases c with ⟨-, b, hsingle, -⟩ | ⟨-, hall⟩
      · rw [hbytes] at hsingle
        obtain ⟨-, rfl⟩ := List.cons.inj hsingle
        simp
      · exact fun b hb => hall b (hbytes ▸ .tail _ hb)
    rw [skip more hspells.cons.2 hmore fun k b hk => hstep k b (by omega), ← hlength]
    congr 1
    omega

end Spans

/-! ## Loops -/

section

variable {s : String} {stop i : Nat} {cs : List Char}

theorem not_isNameStart {c : Char} (h : 128 ≤ c.toNat) : Window.isNameStart c = false := by
  refine Bool.eq_false_iff.2 fun hc => ?_
  have := range_of_isNameChar (isNameChar_of_isNameStart hc)
  omega

theorem not_isNameChar {c : Char} (h : 128 ≤ c.toNat) : Window.isNameChar c = false := by
  refine Bool.eq_false_iff.2 fun hc => ?_
  have := range_of_isNameChar hc
  omega

theorem startsAt_eq {sigil : Char} (hs : sigil.toNat < 128) (h : Spans s stop i cs) :
    startsAt s stop i sigil = pure (Window.startsConstruct sigil cs) := by
  rw [startsAt]
  cases cs with
  | nil => rw [if_neg (by have := h.nil; omega)]; rfl
  | cons c rest =>
    obtain ⟨b, hbyte, hb, hlt, hrest⟩ := h.head
    simp only [hbyte, pure_bind, hb.beq_eq hs]
    by_cases hc : c = sigil
    · subst hc
      rw [utf8Size_of_ascii hs] at hrest
      cases rest with
      | nil => rw [if_neg (by have := hrest.nil; omega)]; rfl
      | cons d more =>
        obtain ⟨b', hbyte', hb', hlt', -⟩ := hrest.head
        rw [if_pos hlt', hbyte', Window.startsConstruct, beq_self_eq_true, Bool.true_and,
          ← hb'.test fun c => not_isNameStart]
        rfl
    · have hne : (c == sigil) = false := beq_eq_false_iff_ne.2 hc
      have hnone : Window.startsConstruct sigil (c :: rest) = false := by
        cases rest <;> simp [Window.startsConstruct, hne]
      rw [hne, hnone]
      split <;> rfl

/-- What a test for signs accepts is a sign. -/
theorem ascii_of_test {p : Char → Bool} (hp : ∀ c, 128 ≤ c.toNat → p c = false) {c : Char} (h : p c = true) :
    c.toNat < 128 := Nat.lt_of_not_le fun hle => by rw [hp c hle] at h; cases h

theorem skipWhile_eq {p : Char → Bool} (hp : ∀ c, 128 ≤ c.toNat → p c = false) (h : Spans s stop i cs) :
    skipWhile s stop p i = pure (i + Text.byteLength (cs.takeWhile p)) := by
  induction cs generalizing i with
  | nil =>
    rw [skipWhile, if_neg (by have := h.nil; omega)]
    rfl
  | cons c rest ih =>
    obtain ⟨b, hbyte, hb, hlt, hrest⟩ := h.head
    rw [skipWhile, if_pos hlt, hbyte, pure_bind, hb.test hp]
    cases hc : p c with
    | true =>
      have hascii : c.toNat < 128 := ascii_of_test hp hc
      rw [utf8Size_of_ascii hascii] at hrest
      rw [if_pos rfl, ih hrest, List.takeWhile_cons_of_pos hc, Text.byteLength_cons, utf8Size_of_ascii hascii,
        Nat.add_assoc]
    | false =>
      rw [if_neg Bool.false_ne_true, List.takeWhile_cons_of_neg (by rw [hc]; exact Bool.false_ne_true)]
      rfl

theorem signAt_eq {sign : Char} (hs : sign.toNat < 128) (h : Spans s stop i cs) :
    signAt s stop i sign = pure (cs.head? == some sign) := by
  rw [signAt]
  cases cs with
  | nil =>
    rw [if_neg (by have := h.nil; omega)]
    rfl
  | cons c rest =>
    obtain ⟨b, hbyte, hb, hlt, -⟩ := h.head
    rw [if_pos hlt, hbyte, map_pure, hb.beq_eq hs]
    rfl

theorem not_isGapChar {c : Char} (h : 128 ≤ c.toNat) : isGapChar c = false := by
  refine Bool.eq_false_iff.2 fun hc => ?_
  simp only [isGapChar, Bool.or_eq_true, beq_iff_eq] at hc
  rcases hc with ((rfl | rfl) | rfl) | rfl <;> exact absurd h (by decide)

theorem gapEnd_eq {breaks : Nat} (h : Spans s stop i cs) :
    gapEnd s stop i breaks = pure (i + Text.byteLength (cs.takeWhile isGapChar),
      breaks + (cs.takeWhile isGapChar).count '\n') := by
  induction cs generalizing i breaks with
  | nil =>
    rw [gapEnd, if_neg (by have := h.nil; omega)]
    rfl
  | cons c rest ih =>
    rw [gapEnd]
    cases hc : isGapChar c with
    | true =>
      have hascii : c.toNat < 128 := ascii_of_test (fun c => not_isGapChar) hc
      obtain ⟨hbyte, hlt, hrest⟩ := h.sign hascii
      rw [if_pos hlt, hbyte, pure_bind, if_pos hc, ih hrest, List.takeWhile_cons_of_pos hc,
        Text.byteLength_cons, utf8Size_of_ascii hascii, List.count_cons]
      simp only [beq_iff_eq]
      split <;> exact congrArg pure (congrArg₂ Prod.mk (by omega) (by omega))
    | false =>
      obtain ⟨b, hbyte, hb, hlt, -⟩ := h.head
      rw [if_pos hlt, hbyte, pure_bind, hb.test fun c => not_isGapChar, hc, if_neg Bool.false_ne_true,
        List.takeWhile_cons_of_neg (by rw [hc]; exact Bool.false_ne_true)]
      rfl

theorem ne_of_foreign {b : Char} (hb : 128 ≤ b.toNat) {sign : Char} (hs : sign.toNat < 128) : b ≠ sign := by
  rintro rfl
  omega

theorem emptyLineAt_eq {b c : Char} (h : Spans s stop i (c :: cs)) (hb : IsByteOf b c) :
    emptyLineAt s stop i b = pure (c == '\n' && cs.head? == some '\n') := by
  rw [emptyLineAt, hb.beq_eq (by decide)]
  by_cases hc : c = '\n'
  · subst hc
    obtain ⟨-, -, -, -, hrest⟩ := h.head
    have hrest : Spans s stop (i + 1) cs := hrest
    cases cs with
    | nil =>
      rw [decide_eq_false (by have := hrest.nil; omega)]
      rfl
    | cons d more =>
      obtain ⟨b', hbyte', hb', hlt', -⟩ := hrest.head
      rw [decide_eq_true hlt', andThen, if_pos (by decide), hbyte', map_pure, hb'.beq_eq (by decide)]
      rfl
  · rw [beq_eq_false_iff_ne.2 hc]
    rfl

/-- At `i` starts a command or a use. -/
theorem constructAt_eq {b c : Char} {rest : List Char} (h : Spans s stop i (c :: rest)) (hb : IsByteOf b c) :
    andThen (b == '$' || b == '%') (startsAt s stop i b) =
      pure ((c == '$' || c == '%') && Window.startsConstruct c (c :: rest)) := by
  rw [hb.beq_eq (by decide), hb.beq_eq (by decide)]
  cases hsign : c == '$' || c == '%' with
  | false => rfl
  | true =>
    have hascii : c.toNat < 128 := by
      rw [Bool.or_eq_true, beq_iff_eq, beq_iff_eq] at hsign
      rcases hsign with rfl | rfl <;> decide
    obtain rfl : b = c := (hb.eq_iff hascii).2 rfl
    rw [startsAt_eq hascii h, andThen_pure]

theorem proseEnd_of_foreign {k : Nat} {b : Char} (hk : k < stop) (hbyte : byteAt s k = pure b)
    (hb : 128 ≤ b.toNat) : proseEnd s stop k = proseEnd s stop (k + 1) := by
  have hne {sign : Char} (hs : sign.toNat < 128) : (b == sign) = false :=
    beq_eq_false_iff_ne.2 (ne_of_foreign hb hs)
  rw [proseEnd, if_pos hk, hbyte, pure_bind,
    if_neg (not_or.2 ⟨ne_of_foreign hb (by decide), ne_of_foreign hb (by decide)⟩), emptyLineAt,
    hne (by decide), hne (by decide), hne (by decide)]
  rfl

theorem proseEnd_eq (h : Spans s stop i cs) :
    proseEnd s stop i = pure (i + Text.byteLength (Segment.splitProse cs).1) := by
  fun_induction Segment.splitProse cs generalizing i with
  | case1 =>
    rw [proseEnd, if_neg (by have := h.nil; omega)]
    rfl
  | case2 c rest hc =>
    obtain ⟨b, hbyte, hb, hlt, -⟩ := h.head
    rw [Bool.or_eq_true, beq_iff_eq, beq_iff_eq, ← hb.eq_iff (by decide), ← hb.eq_iff (by decide)] at hc
    rw [proseEnd, if_pos hlt, hbyte, pure_bind, if_pos hc]
    rfl
  | case3 c rest hc hs =>
    obtain ⟨b, hbyte, hb, hlt, -⟩ := h.head
    rw [Bool.or_eq_true, beq_iff_eq, beq_iff_eq, ← hb.eq_iff (by decide), ← hb.eq_iff (by decide)] at hc
    rw [proseEnd, if_pos hlt, hbyte, pure_bind, if_neg hc, constructAt_eq h hb, hs, pure_bind, if_pos rfl]
    rfl
  | case4 c rest hc hs hn =>
    obtain ⟨b, hbyte, hb, hlt, hrest⟩ := h.head
    rw [Bool.and_eq_true, beq_iff_eq, beq_iff_eq] at hn
    have hempty := emptyLineAt_eq h hb
    rw [hn.1, hn.2] at hempty
    obtain ⟨rfl, -⟩ := hn
    obtain rfl := (hb.eq_iff (by decide)).2 rfl
    rw [proseEnd, if_pos hlt, hbyte, pure_bind, if_neg (by decide), andThen, if_neg (by decide), pure_bind,
      if_neg Bool.false_ne_true, hempty, pure_bind, if_pos (by decide)]
    rfl
  | case5 c rest hc hs hn raw after hr ih =>
    obtain ⟨b, hbyte, hb, hlt, hrest⟩ := h.head
    rw [Bool.or_eq_true, beq_iff_eq, beq_iff_eq, ← hb.eq_iff (by decide), ← hb.eq_iff (by decide)] at hc
    have hconstruct : andThen (b == '$' || b == '%') (startsAt s stop i b) = pure false := by
      rw [constructAt_eq h hb, Bool.eq_false_iff.2 hs]
    have hempty : emptyLineAt s stop i b = pure false := by
      rw [emptyLineAt_eq h hb, Bool.eq_false_iff.2 hn]
    have hfirst : proseEnd s stop i = proseEnd s stop (i + 1) := by
      rw [proseEnd, if_pos hlt, hbyte, pure_bind, if_neg hc, hconstruct, pure_bind, if_neg Bool.false_ne_true,
        hempty, pure_bind, if_neg Bool.false_ne_true]
    rw [hfirst, h.jump (f := proseEnd s stop) fun k b => proseEnd_of_foreign, ih hrest, hr, Text.byteLength_cons,
      Nat.add_assoc]

theorem braceEnd_of_foreign {depth k : Nat} {b : Char} (hk : k < stop) (hbyte : byteAt s k = pure b)
    (hb : 128 ≤ b.toNat) : braceEnd s stop depth k = braceEnd s stop depth (k + 1) := by
  rw [braceEnd, if_pos hk, hbyte, pure_bind, if_neg (ne_of_foreign hb (by decide)),
    if_neg (ne_of_foreign hb (by decide)), if_neg (ne_of_foreign hb (by decide))]

/-- A split behind some characters gives an offset behind them. -/
theorem map_extend (front : List Char) (found : Option (List Char × List Char)) (i : Nat) :
    (Clause.extend front found).map (fun (inner, _) => i + Text.byteLength inner) =
      found.map fun (inner, _) => i + Text.byteLength front + Text.byteLength inner := by
  cases found with
  | none => rfl
  | some found => simp [Clause.extend, Text.byteLength_append, Nat.add_assoc]

theorem braceEnd_eq {depth : Nat} (h : Spans s stop i cs) :
    braceEnd s stop depth i =
      pure ((Clause.splitBraces depth cs).map fun (inner, _) => i + Text.byteLength inner) := by
  fun_induction Clause.splitBraces depth cs generalizing i with
  | case1 =>
    rw [braceEnd, if_neg (by have := h.nil; omega)]
    rfl
  | case2 depth =>
    obtain ⟨hbyte, hlt, hrest⟩ := h.sign (by decide)
    have hstop := hrest.nil
    rw [braceEnd, if_pos hlt, hbyte, pure_bind, if_pos rfl, braceEnd, if_neg (by omega)]
    rfl
  | case3 depth d more ih =>
    obtain ⟨hbyte, hlt, hrest⟩ := h.sign (by decide)
    obtain ⟨-, -, -, -, hmore⟩ := hrest.head
    rw [braceEnd, if_pos hlt, hbyte, pure_bind, if_pos rfl, map_extend,
      show i + 2 = i + 1 + 1 from rfl, hrest.jump (f := braceEnd s stop depth) fun k b => braceEnd_of_foreign,
      ih hmore, Nat.add_assoc]
    rfl
  | case4 depth rest hc ih =>
    obtain ⟨hbyte, hlt, hrest⟩ := h.sign (by decide)
    rw [braceEnd, if_pos hlt, hbyte, pure_bind, if_neg (by decide), if_pos rfl, map_extend]
    exact ih hrest
  | case5 rest =>
    obtain ⟨hbyte, hlt, hrest⟩ := h.sign (by decide)
    rw [braceEnd, if_pos hlt, hbyte, pure_bind, if_neg (by decide), if_neg (by decide), if_pos rfl, if_pos rfl]
    rfl
  | case6 rest depth hc ho ih =>
    obtain ⟨hbyte, hlt, hrest⟩ := h.sign (by decide)
    rw [braceEnd, if_pos hlt, hbyte, pure_bind, if_neg (by decide), if_neg (by decide), if_pos rfl,
      if_neg (Nat.succ_ne_zero _), minus_eq (Nat.succ_le_succ (Nat.zero_le _)), pure_bind, map_extend]
    exact ih hrest
  | case7 depth c rest hc ho hc' ih =>
    obtain ⟨b, hbyte, hb, hlt, hrest⟩ := h.head
    rw [← hb.eq_iff (by decide)] at hc ho hc'
    rw [braceEnd, if_pos hlt, hbyte, pure_bind, if_neg hc, if_neg ho, if_neg hc',
      h.jump (f := braceEnd s stop depth) fun k b => braceEnd_of_foreign, ih hrest, map_extend]
    rfl

theorem parenEnd_of_foreign {depth k : Nat} {quoted : Bool} {b : Char} (hk : k < stop)
    (hbyte : byteAt s k = pure b) (hb : 128 ≤ b.toNat) :
    parenEnd s stop depth quoted k = parenEnd s stop depth quoted (k + 1) := by
  have hne {sign : Char} (hs : sign.toNat < 128) : b ≠ sign := ne_of_foreign hb hs
  rw [parenEnd, if_pos hk, hbyte, pure_bind]
  cases quoted with
  | true => rw [if_pos rfl, if_neg (hne (by decide)), if_neg (hne (by decide))]
  | false =>
    rw [if_neg Bool.false_ne_true, if_neg (hne (by decide)), if_neg (hne (by decide)), if_neg (hne (by decide))]

theorem parenEnd_eq {depth : Nat} {quoted : Bool} (h : Spans s stop i cs) :
    parenEnd s stop depth quoted i =
      pure ((Clause.splitParens depth quoted cs).map fun (inner, _) => i + Text.byteLength inner) := by
  fun_induction Clause.splitParens depth quoted cs generalizing i with
  | case1 =>
    rw [parenEnd, if_neg (by have := h.nil; omega)]
    rfl
  | case2 depth =>
    obtain ⟨hbyte, hlt, hrest⟩ := h.sign (by decide)
    have hstop := hrest.nil
    rw [parenEnd, if_pos hlt, hbyte, pure_bind, if_pos rfl, if_pos rfl, parenEnd, if_neg (by omega)]
    rfl
  | case3 depth d more ih =>
    obtain ⟨hbyte, hlt, hrest⟩ := h.sign (by decide)
    obtain ⟨-, -, -, -, hmore⟩ := hrest.head
    rw [parenEnd, if_pos hlt, hbyte, pure_bind, if_pos rfl, if_pos rfl, map_extend,
      show i + 2 = i + 1 + 1 from rfl, hrest.jump (f := parenEnd s stop depth true) fun k b => parenEnd_of_foreign,
      ih hmore, Nat.add_assoc]
    rfl
  | case4 depth c rest hc ih =>
    obtain ⟨b, hbyte, hb, hlt, hrest⟩ := h.head
    rw [← hb.eq_iff (by decide)] at hc
    rw [parenEnd, if_pos hlt, hbyte, pure_bind, if_pos rfl, if_neg hc, map_extend]
    by_cases hquote : c = '"'
    · subst hquote
      obtain rfl := (hb.eq_iff (by decide)).2 rfl
      rw [if_pos rfl]
      exact ih hrest
    · rw [bne_iff_ne.2 hquote] at ih ⊢
      rw [if_neg (mt (hb.eq_iff (by decide)).1 hquote),
        h.jump (f := parenEnd s stop depth true) fun k b => parenEnd_of_foreign, ih hrest]
      rfl
  | case5 depth quoted rest hq ih =>
    obtain ⟨hbyte, hlt, hrest⟩ := h.sign (by decide)
    rw [parenEnd, if_pos hlt, hbyte, pure_bind, if_neg hq, if_pos rfl, map_extend]
    exact ih hrest
  | case6 depth quoted rest hq _ ih =>
    obtain ⟨hbyte, hlt, hrest⟩ := h.sign (by decide)
    rw [parenEnd, if_pos hlt, hbyte, pure_bind, if_neg hq, if_neg (by decide), if_pos rfl, map_extend]
    exact ih hrest
  | case7 quoted rest hq =>
    obtain ⟨hbyte, hlt, hrest⟩ := h.sign (by decide)
    rw [parenEnd, if_pos hlt, hbyte, pure_bind, if_neg hq, if_neg (by decide), if_neg (by decide), if_pos rfl,
      if_pos rfl]
    rfl
  | case8 quoted rest hq depth _ _ ih =>
    obtain ⟨hbyte, hlt, hrest⟩ := h.sign (by decide)
    rw [parenEnd, if_pos hlt, hbyte, pure_bind, if_neg hq, if_neg (by decide), if_neg (by decide), if_pos rfl,
      if_neg (Nat.succ_ne_zero _), minus_eq (Nat.succ_le_succ (Nat.zero_le _)), pure_bind, map_extend]
    exact ih hrest
  | case9 depth quoted c rest hq hquote ho hc ih =>
    obtain ⟨b, hbyte, hb, hlt, hrest⟩ := h.head
    rw [← hb.eq_iff (by decide)] at hquote ho hc
    have hnext : parenEnd s stop depth quoted i = parenEnd s stop depth false (i + 1) := by
      rw [parenEnd, if_pos hlt, hbyte, pure_bind, if_neg hq, if_neg hquote, if_neg ho, if_neg hc]
    rw [hnext, h.jump (f := parenEnd s stop depth false) fun k b => parenEnd_of_foreign, ih hrest, map_extend]
    rfl

theorem fenceEnd_eq {w : Window} (h : w.LiesIn s) (length : Nat) :
    fenceEnd s w.stop length w.offset =
      pure ((Text.splitAt? (Clause.closingFence length) w.chars).map fun (inner, _) =>
        w.offset + Text.byteLength inner) := by
  rw [fenceEnd, h.textBetween, pure_bind, String.toList_ofList]

end

end Evomark.Markup
