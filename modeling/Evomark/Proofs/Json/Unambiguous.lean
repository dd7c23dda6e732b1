import Evomark.Exec.Host
import Evomark.Proofs.Decimal.Notation
import Evomark.Proofs.Json.ReadBack
import Evomark.Proofs.Json.Written
/-!
# Hashed texts are unambiguous

The text that is hashed for an input and the rule that asks for it tells both, whatever characters the
name of the rule has (`eq_of_hashedText`). Two facts about written values carry this.

A written value tells the value, and where it ends (`Json.decodes_write`), since its first character
tells what kind of value it is and no value starts like the closing bracket of a list.

Behind a dollar sign in a written value no written value follows to the end. A dollar sign stands inside
of quotes, so from there on quotes open where they would close (`Mode.Opposite`): read as a value, the
rest would end inside of quotes (`Json.write_ne_append_dollar`).
-/

namespace Evomark

/-! ## Quotes -/

/-- Where in a written value a character stands: outside of quotes, inside, or behind a backslash. -/
inductive Mode
  | outside
  | inside
  | escaped
  deriving DecidableEq

namespace Mode

/-- Behind the character `c`. Outside of quotes there is no backslash and no dollar sign, and no dollar
sign behind a backslash. -/
def next (m : Mode) (c : Char) : Option Mode :=
  match m with
  | outside => if c = '"' then some inside else if c = '\\' ∨ c = '$' then none else some outside
  | inside => if c = '"' then some outside else if c = '\\' then some escaped else some inside
  | escaped => if c = '$' then none else some inside

/-- Behind a text. -/
def scan (m : Mode) (cs : List Char) : Option Mode := cs.foldlM next m

theorem scan_cons (m : Mode) (c : Char) (cs : List Char) : m.scan (c :: cs) = (m.next c).bind (·.scan cs) :=
  List.foldlM_cons

/-- One text behind another. -/
theorem scan_append {m m' : Mode} {cs : List Char} (h : m.scan cs = some m') (ds : List Char) :
    m.scan (cs ++ ds) = m'.scan ds := by
  unfold scan at h ⊢
  rw [List.foldlM_append, h]
  rfl

/-- A text that starts and ends outside of quotes. -/
def Closed (cs : List Char) : Prop := outside.scan cs = some outside

namespace Closed

variable {cs ds : List Char}

theorem append (h : Closed cs) (h' : Closed ds) : Closed (cs ++ ds) := (scan_append h ds).trans h'

theorem cons {c : Char} (hc : c ≠ '"' ∧ c ≠ '\\' ∧ c ≠ '$') (h : Closed cs) : Closed (c :: cs) := by
  unfold Closed
  rw [scan_cons, next, if_neg hc.1, if_neg (by simp [hc.2.1, hc.2.2])]
  exact h

theorem of_forall (h : ∀ c ∈ cs, c ≠ '"' ∧ c ≠ '\\' ∧ c ≠ '$') : Closed cs := by
  induction cs with
  | nil => rfl
  | cons c cs ih =>
    obtain ⟨hc, hrest⟩ := List.forall_mem_cons.1 h
    exact .cons hc (ih hrest)

end Closed

/-- One of two readers of a text is inside of quotes and the other is outside. -/
def Opposite (m m' : Mode) : Prop := m = outside ∧ m' = inside ∨ m = inside ∧ m' = outside

theorem Opposite.symm {m m' : Mode} (h : Opposite m m') : Opposite m' m := Or.symm (h.imp And.symm And.symm)

/-- The readers stay opposite as long as both get on. -/
theorem Opposite.next {m m' a b : Mode} (h : Opposite m m') {c : Char} (ha : m.next c = some a)
    (hb : m'.next c = some b) : Opposite a b := by
  have hstep : ∀ {a b : Mode}, outside.next c = some a → inside.next c = some b → Opposite a b := by
    intro a b ha hb
    by_cases hquote : c = '"'
    · simp only [Mode.next, if_pos hquote] at ha hb
      exact .inr ⟨(Option.some.inj ha).symm, (Option.some.inj hb).symm⟩
    · simp only [Mode.next, if_neg hquote] at ha hb
      split at ha
      · cases ha
      · rename_i hplain
        rw [if_neg fun hslash => hplain (.inl hslash)] at hb
        exact .inl ⟨(Option.some.inj ha).symm, (Option.some.inj hb).symm⟩
  rcases h with ⟨rfl, rfl⟩ | ⟨rfl, rfl⟩
  · exact hstep ha hb
  · exact (hstep hb ha).symm

theorem Opposite.scan {m m' a b : Mode} (h : Opposite m m') {cs : List Char} (ha : m.scan cs = some a)
    (hb : m'.scan cs = some b) : Opposite a b := by
  induction cs generalizing m m' with
  | nil =>
    obtain rfl := Option.some.inj ha
    obtain rfl := Option.some.inj hb
    exact h
  | cons c cs ih =>
    rw [scan_cons, Option.bind_eq_some_iff] at ha hb
    obtain ⟨a', ha', ha⟩ := ha
    obtain ⟨b', hb', hb⟩ := hb
    exact ih (h.next ha' hb') ha hb

/-- A dollar sign stands inside of quotes. -/
theorem inside_of_next_dollar {m m' : Mode} (h : m.next '$' = some m') : m = inside ∧ m' = inside := by
  cases m with
  | outside | escaped => simp [next] at h
  | inside => exact ⟨rfl, (Option.some.inj h).symm⟩

end Mode

namespace Json

open Mode (outside inside)

theorem scan_escape (c : Char) : inside.scan (escape c) = some inside := by
  have hhex : ∀ n < 16, inside.scan [Nat.digitChar n] = some inside := by decide
  unfold escape
  split
  · rfl
  split
  · rfl
  rename_i hquote hslash
  repeat' split
  all_goals try rfl
  · rename_i hlt
    show inside.scan (['\\', 'u', '0', '0'] ++
      ([Nat.digitChar (c.toNat / 16)] ++ [Nat.digitChar (c.toNat % 16)])) = _
    rw [Mode.scan_append rfl, Mode.scan_append (hhex _ (by omega)), hhex _ (by omega)]
  · rw [Mode.scan_cons, Mode.next, if_neg hquote, if_neg hslash]
    rfl

theorem closed_quote (s : String) : Mode.Closed (quote s) := by
  have hchars : inside.scan (s.toList.flatMap escape) = some inside := by
    induction s.toList with
    | nil => rfl
    | cons c rest ih => rw [List.flatMap_cons, Mode.scan_append (scan_escape c), ih]
  show outside.scan (['"'] ++ s.toList.flatMap escape ++ ['"']) = _
  rw [List.append_assoc, Mode.scan_append rfl, Mode.scan_append hchars]
  rfl

/-- What stands around numbers and what other values start with. -/
theorem not_isNumberChar :
    ∀ c ∈ ['n', 't', 'f', '"', '\\', '$', '[', ']', '\x7b', '\x7d', ','], ¬ IsNumberChar c := by
  simp [IsNumberChar]

theorem ne_of_mem_number {n : Number} {c : Char} (hc : c ∈ n.write) {d : Char} (hd : ¬ IsNumberChar d) : c ≠ d :=
  fun hcd => hd (hcd ▸ isNumberChar_of_mem_write hc)

theorem closed_number (n : Number) : Mode.Closed n.write :=
  .of_forall fun _ hc => ⟨ne_of_mem_number hc (not_isNumberChar _ (by decide)),
    ne_of_mem_number hc (not_isNumberChar _ (by decide)), ne_of_mem_number hc (not_isNumberChar _ (by decide))⟩

mutual

/-- A written value ends outside of quotes. -/
theorem closed_write : ∀ value : Json, Mode.Closed value.write
  | null => rfl
  | bool b => by cases b <;> rfl
  | number n => closed_number n
  | string s => closed_quote s
  | array items => by
    rw [write]
    exact .append (.cons (by decide) (closed_writeItems items)) rfl
  | object fields => by
    rw [write]
    exact .append (.cons (by decide) (closed_writeFields fields)) rfl

theorem closed_writeItems : ∀ items : List Json, Mode.Closed (writeItems items)
  | [] => rfl
  | [item] => by
    rw [writeItems]
    exact closed_write item
  | item :: next :: more => by
    rw [writeItems]
    · exact (closed_write item).append (.cons (by decide) (closed_writeItems (next :: more)))
    · simp

theorem closed_writeFields : ∀ fields : List (String × Json), Mode.Closed (writeFields fields)
  | [] => rfl
  | [(key, value)] => by
    rw [writeFields]
    exact (closed_quote key).append (.cons (by decide) (closed_write value))
  | (key, value) :: next :: more => by
    rw [writeFields]
    · exact ((closed_quote key).append (.cons (by decide) (closed_write value))).append
        (.cons (by decide) (closed_writeFields (next :: more)))
    · simp

end

/-- Behind a dollar sign in a written value no written value follows to the end. -/
theorem write_ne_append_dollar (value value' : Json) (cs : List Char) :
    value.write ≠ cs ++ '$' :: value'.write := by
  intro h
  have hwhole : outside.scan (cs ++ '$' :: value'.write) = some outside := h ▸ closed_write value
  cases hm : outside.scan cs with
  | none =>
    unfold Mode.scan at hwhole hm
    rw [List.foldlM_append, hm] at hwhole
    cases hwhole
  | some m =>
    rw [Mode.scan_append hm, Mode.scan_cons, Option.bind_eq_some_iff] at hwhole
    obtain ⟨m', hdollar, hrest⟩ := hwhole
    obtain ⟨-, rfl⟩ := Mode.inside_of_next_dollar hdollar
    have hopposite : Mode.Opposite outside outside :=
      Mode.Opposite.scan (.inl ⟨rfl, rfl⟩) (closed_write value') hrest
    revert hopposite
    unfold Mode.Opposite
    decide

/-- A text with a written value behind a dollar sign is so divided in one way only. -/
theorem eq_of_append_dollar {cs ds : List Char} {value value' : Json}
    (h : cs ++ '$' :: value.write = ds ++ '$' :: value'.write) : cs = ds ∧ value.write = value'.write := by
  rcases List.append_eq_append_iff.1 h with ⟨more, rfl, hmore⟩ | ⟨more, rfl, hmore⟩
  · cases more with
    | nil => exact ⟨(List.append_nil _).symm, (List.cons.inj hmore).2⟩
    | cons c more => exact absurd (List.cons.inj hmore).2 (write_ne_append_dollar value value' more)
  · cases more with
    | nil => exact ⟨List.append_nil _, (List.cons.inj hmore).2.symm⟩
    | cons c more => exact absurd (List.cons.inj hmore).2 (write_ne_append_dollar value' value more)

/-! ## Numbers -/

/-- No number goes on here. -/
def Ends (cs : List Char) : Prop := ∀ c ∈ cs.head?, ¬ IsNumberChar c

theorem ends_cons {c : Char} (h : ¬ IsNumberChar c) (cs : List Char) : Ends (c :: cs) := fun d hd => by
  rwa [← Option.some.inj hd]

/-- Two numbers with what follows them. -/
theorem eq_of_append_ends {cs ds rest more : List Char} (hc : ∀ c ∈ cs, IsNumberChar c)
    (hd : ∀ d ∈ ds, IsNumberChar d) (hr : Ends rest) (hm : Ends more) (h : cs ++ rest = ds ++ more) :
    cs = ds ∧ rest = more := by
  induction cs generalizing ds with
  | nil =>
    cases ds with
    | nil => exact ⟨rfl, h⟩
    | cons d ds =>
      subst h
      exact absurd (hd d List.mem_cons_self) (hr d rfl)
  | cons c cs ih =>
    cases ds with
    | nil =>
      have h : c :: (cs ++ rest) = more := h
      subst h
      exact absurd (hc c List.mem_cons_self) (hm c rfl)
    | cons d ds =>
      obtain ⟨rfl, htail⟩ := List.cons.inj h
      obtain ⟨rfl, hrest⟩ := ih (fun c hcs => hc c (List.mem_cons_of_mem _ hcs))
        (fun d hds => hd d (List.mem_cons_of_mem _ hds)) htail
      exact ⟨rfl, hrest⟩

theorem eq_of_toDigits {m n : Nat} (h : Nat.toDigits 10 m = Nat.toDigits 10 n) : m = n :=
  calc m = Nat.ofDigitChars 10 (Nat.toDigits 10 m) 0 := Nat.ofDigitChars_ten_toDigits.symm
    _ = Nat.ofDigitChars 10 (Nat.toDigits 10 n) 0 := by rw [h]
    _ = n := Nat.ofDigitChars_ten_toDigits

theorem eq_of_integerText {m n : Int} (h : Number.integerText m = Number.integerText n) : m = n := by
  have hminus : ∀ k : Nat, ∀ cs, Nat.toDigits 10 k ≠ '-' :: cs := by
    intro k cs hk
    have hdigit : isDigit '-' = true := isDigit_of_mem_toDigits (hk ▸ List.mem_cons_self)
    revert hdigit
    decide
  simp only [Number.integerText, FloatStyle.sign, decide_eq_true_eq] at h
  split at h <;> split at h
  · have := eq_of_toDigits (List.cons.inj h).2
    omega
  · exact absurd h.symm (hminus _ _)
  · exact absurd h (hminus _ _)
  · have := eq_of_toDigits h
    omega

/-- A number that is not kept as an integer has a point or a power of ten. -/
theorem mark_mem_write_json (x : Binary64) : '.' ∈ FloatStyle.json.write x ∨ 'e' ∈ FloatStyle.json.write x := by
  rw [FloatStyle.write_eq, FloatStyle.unsigned]
  split
  · unfold FloatStyle.positional
    simp only
    split
    · simp [FloatStyle.json]
    · split <;> simp
  · simp [FloatStyle.scientific]

theorem not_mark_mem_integerText {c : Char} (n : Int) (hc : c = '.' ∨ c = 'e') : c ∉ Number.integerText n := by
  intro h
  rcases List.mem_append.1 h with h | h
  · unfold FloatStyle.sign at h
    split at h
    · rcases hc with rfl | rfl <;> simp at h
    · cases h
  · have hdigit : isDigit c = true := isDigit_of_mem_toDigits h
    rcases hc with rfl | rfl <;> revert hdigit <;> decide

mutual

/-- The numbers in a value that are not kept as integers. -/
def floats : Json → List Binary64
  | number (.float x) => [x]
  | array items => itemFloats items
  | object fields => fieldFloats fields
  | _ => []

/-- The numbers in values that are not kept as integers. -/
def itemFloats : List Json → List Binary64
  | [] => []
  | item :: items => floats item ++ itemFloats items

/-- The numbers in fields that are not kept as integers. -/
def fieldFloats : List (String × Json) → List Binary64
  | [] => []
  | (_, value) :: fields => floats value ++ fieldFloats fields

end

/-- All numbers that are not kept as integers are numbers of the format. -/
def InFormat (value : Json) : Prop := ∀ x ∈ value.floats, x.InFormat

instance (value : Json) : Decidable value.InFormat :=
  inferInstanceAs (Decidable (∀ x ∈ value.floats, x.InFormat))

theorem inFormat_array {items : List Json} : (array items).InFormat ↔ ∀ item ∈ items, item.InFormat := by
  unfold InFormat
  rw [floats]
  induction items with
  | nil => simp [itemFloats]
  | cons item items ih => rw [itemFloats, List.forall_mem_append, ih, List.forall_mem_cons]

theorem inFormat_object {fields : List (String × Json)} :
    (object fields).InFormat ↔ ∀ field ∈ fields, field.2.InFormat := by
  unfold InFormat
  rw [floats]
  induction fields with
  | nil => simp [fieldFloats]
  | cons field fields ih => rw [fieldFloats, List.forall_mem_append, ih, List.forall_mem_cons]

theorem eq_of_write_number {m n : Number} (hm : (number m).InFormat) (hn : (number n).InFormat)
    (h : m.write = n.write) : m = n := by
  have hmixed : ∀ (k : Int) (x : Binary64), Number.integerText k ≠ FloatStyle.json.write x := by
    intro k x hk
    rcases mark_mem_write_json x with hx | hx
    · exact not_mark_mem_integerText k (.inl rfl) (hk ▸ hx)
    · exact not_mark_mem_integerText k (.inr rfl) (hk ▸ hx)
  cases m with
  | integer m =>
    cases n with
    | integer n => rw [eq_of_integerText h]
    | float y => exact absurd h (hmixed m y)
  | float x =>
    cases n with
    | integer n => exact absurd h.symm (hmixed n x)
    | float y =>
      rw [FloatStyle.eq_of_write_json (hm x (by simp [floats])) (hn y (by simp [floats])) h]

/-! ## Values -/

/-- In front of something that no number goes on with, `text x` is the text of nothing but `x`. -/
def Decodes {α : Type} (P : α → Prop) (text : α → List Char) (x : α) : Prop :=
  ∀ y rest more, P y → Ends rest → Ends more → text x ++ rest = text y ++ more → x = y ∧ rest = more

section

variable {α : Type} {P : α → Prop} {text : α → List Char} {closing : Char}

/-- Items behind commas, with a bracket behind them. -/
theorem eq_of_commas (hc : ¬ IsNumberChar closing) (hcomma : closing ≠ ',') {xs ys : List α}
    (hx : ∀ x ∈ xs, Decodes P text x) (hy : ∀ y ∈ ys, P y) {rest more : List Char}
    (h : commas [] [] (xs.map text) ++ closing :: rest = commas [] [] (ys.map text) ++ closing :: more) :
    xs = ys ∧ rest = more := by
  have hends : ∀ (zs : List α) cs, Ends (commas [] [] (zs.map text) ++ closing :: cs) := by
    intro zs cs
    cases zs with
    | nil => exact ends_cons hc cs
    | cons z zs => exact ends_cons (not_isNumberChar _ (by decide)) _
  induction xs generalizing ys with
  | nil =>
    cases ys with
    | nil => exact ⟨rfl, (List.cons.inj h).2⟩
    | cons y ys => exact absurd (List.cons.inj h).1 hcomma
  | cons x xs ih =>
    cases ys with
    | nil => exact absurd (List.cons.inj h).1.symm hcomma
    | cons y ys =>
      obtain ⟨hx, hxs⟩ := List.forall_mem_cons.1 hx
      obtain ⟨hy, hys⟩ := List.forall_mem_cons.1 hy
      have htail : text x ++ (commas [] [] (xs.map text) ++ closing :: rest) =
          text y ++ (commas [] [] (ys.map text) ++ closing :: more) := by
        simpa [commas] using h
      obtain ⟨rfl, hmore⟩ := hx _ _ _ hy (hends xs rest) (hends ys more) htail
      obtain ⟨rfl, hrest⟩ := ih hxs hys hmore
      exact ⟨rfl, hrest⟩

/-- Items with commas between them, with a bracket behind them that no item starts with. -/
theorem eq_of_joined (hc : ¬ IsNumberChar closing) (hcomma : closing ≠ ',')
    (hhead : ∀ x, ∃ c cs, text x = c :: cs ∧ c ≠ closing) {xs ys : List α}
    (hx : ∀ x ∈ xs, Decodes P text x) (hy : ∀ y ∈ ys, P y) {rest more : List Char}
    (h : joined [] [] (xs.map text) ++ closing :: rest = joined [] [] (ys.map text) ++ closing :: more) :
    xs = ys ∧ rest = more := by
  cases xs with
  | nil =>
    cases ys with
    | nil => exact ⟨rfl, (List.cons.inj h).2⟩
    | cons y ys =>
      obtain ⟨c, cs, hy, hne⟩ := hhead y
      simp only [List.map_cons, joined, hy] at h
      exact absurd (List.cons.inj h).1.symm hne
  | cons x xs =>
    cases ys with
    | nil =>
      obtain ⟨c, cs, hx, hne⟩ := hhead x
      simp only [List.map_cons, joined, hx] at h
      exact absurd (List.cons.inj h).1 hne
    | cons y ys =>
      refine eq_of_commas hc hcomma hx hy ?_
      simpa [commas, joined] using h

end

/-- What kind of value starts with a character. -/
def kindOf (c : Char) : Nat :=
  if c = 'n' then 0 else if c = 't' ∨ c = 'f' then 1 else if c = '"' then 2
  else if c = '[' then 3 else if c = '\x7b' then 4 else 5

/-- What kind of value this is. -/
def kind : Json → Nat
  | null => 0
  | bool _ => 1
  | string _ => 2
  | array _ => 3
  | object _ => 4
  | number _ => 5

/-- The first character of a value tells its kind. -/
theorem head_write (value : Json) : ∃ c cs, value.write = c :: cs ∧ kindOf c = value.kind := by
  cases value with
  | null => exact ⟨'n', _, rfl, rfl⟩
  | bool b => cases b <;> exact ⟨_, _, rfl, rfl⟩
  | string s => exact ⟨'"', _, rfl, rfl⟩
  | array items => exact ⟨'[', _, by rw [write]; rfl, rfl⟩
  | object fields => exact ⟨'\x7b', _, by rw [write]; rfl, rfl⟩
  | number n =>
    obtain ⟨c, cs, hc⟩ := List.exists_cons_of_ne_nil (write_number_ne_nil n)
    have hmem : c ∈ n.write := hc ▸ List.mem_cons_self
    have hnot : ∀ d ∈ _, c ≠ d := fun d hd => ne_of_mem_number hmem (not_isNumberChar d hd)
    refine ⟨c, cs, hc, ?_⟩
    simp only [List.forall_mem_cons] at hnot
    obtain ⟨hn, ht, hf, hquote, -, -, hbracket, -, hbrace, -⟩ := hnot
    simp [kindOf, kind, hn, ht, hf, hquote, hbracket, hbrace]

theorem kind_eq_of_append {v v' : Json} {rest more : List Char} (h : v.write ++ rest = v'.write ++ more) :
    v.kind = v'.kind := by
  obtain ⟨c, cs, hc, hkind⟩ := head_write v
  obtain ⟨d, ds, hd, hkind'⟩ := head_write v'
  rw [hc, hd] at h
  rw [← hkind, ← hkind', (List.cons.inj h).1]

/-- Quoted texts with what follows them. -/
theorem eq_of_quote {a b : String} {rest more : List Char} (h : quote a ++ rest = quote b ++ more) :
    a = b ∧ rest = more := by
  have hquote : ∀ s more, quote s ++ more = '"' :: ((s.toList.flatMap escape ++ ['"']) ++ more) := by
    intro s more
    simp [quote]
  rw [hquote, hquote] at h
  have hread := congrArg readString (List.cons.inj h).2
  rw [readString_quote, readString_quote] at hread
  exact Prod.mk.inj (Except.ok.inj hread)

/-- A field is read if its value is. -/
theorem decodes_fieldText {field : String × Json} (h : Decodes InFormat write field.2) :
    Decodes (fun field : String × Json => field.2.InFormat) (fieldText [] write) field := by
  intro field' rest more hf hr hm heq
  have heq : quote field.1 ++ (':' :: (write field.2 ++ rest)) =
      quote field'.1 ++ (':' :: (write field'.2 ++ more)) := by
    simpa [fieldText] using heq
  obtain ⟨hkey, htail⟩ := eq_of_quote heq
  obtain ⟨hvalue, hrest⟩ := h _ _ _ hf hr hm (List.cons.inj htail).2
  exact ⟨Prod.ext hkey hvalue, hrest⟩

/-- A written value tells the value, and where it ends. -/
theorem decodes_write (value : Json) (hv : value.InFormat) : Decodes InFormat write value := by
  intro value' rest more hv' hr hm h
  have hkind := kind_eq_of_append h
  match value, value' with
  | .null, .null => exact ⟨rfl, List.append_cancel_left h⟩
  | .bool b, .bool b' =>
    simp only [write] at h
    cases b <;> cases b'
    · exact ⟨rfl, List.append_cancel_left h⟩
    · exact absurd (List.cons.inj h).1 (by decide)
    · exact absurd (List.cons.inj h).1 (by decide)
    · exact ⟨rfl, List.append_cancel_left h⟩
  | .string s, .string s' =>
    simp only [write] at h
    obtain ⟨rfl, hrest⟩ := eq_of_quote h
    exact ⟨rfl, hrest⟩
  | .number n, .number n' =>
    simp only [write] at h
    obtain ⟨htext, hrest⟩ := eq_of_append_ends (fun _ => isNumberChar_of_mem_write)
      (fun _ => isNumberChar_of_mem_write) hr hm h
    exact ⟨congrArg number (eq_of_write_number hv hv' htext), hrest⟩
  | .array items, .array items' =>
    have hhead : ∀ item : Json, ∃ c cs, item.write = c :: cs ∧ c ≠ ']' := by
      intro item
      obtain ⟨c, cs, hc, hkind⟩ := head_write item
      refine ⟨c, cs, hc, ?_⟩
      rintro rfl
      cases item with
      | number n =>
        exact not_isNumberChar ']' (by decide) (isNumberChar_of_mem_write (hc ▸ List.mem_cons_self))
      | null | bool | string | array | object => exact absurd hkind (by simp [kindOf, kind])
    have hitems : ∀ item ∈ items, Decodes InFormat write item := fun item hmem => by
      have := List.sizeOf_lt_of_mem hmem
      exact decodes_write item (inFormat_array.1 hv item hmem)
    have htail : joined [] [] (items.map write) ++ ']' :: rest =
        joined [] [] (items'.map write) ++ ']' :: more := by
      simpa [write, writeItems_eq] using h
    obtain ⟨rfl, hrest⟩ := eq_of_joined (not_isNumberChar _ (by decide)) (by decide) hhead hitems
      (inFormat_array.1 hv') htail
    exact ⟨rfl, hrest⟩
  | .object fields, .object fields' =>
    have hhead : ∀ field : String × Json, ∃ c cs, fieldText [] write field = c :: cs ∧ c ≠ '\x7d' := fun _ =>
      ⟨'"', _, rfl, by decide⟩
    have hfields : ∀ field ∈ fields,
        Decodes (fun field : String × Json => field.2.InFormat) (fieldText [] write) field := fun field hmem => by
      have := List.sizeOf_lt_of_mem hmem
      obtain ⟨key, inner⟩ := field
      exact decodes_fieldText (decodes_write inner (inFormat_object.1 hv _ hmem))
    have htail : joined [] [] (fields.map (fieldText [] write)) ++ '\x7d' :: rest =
        joined [] [] (fields'.map (fieldText [] write)) ++ '\x7d' :: more := by
      simpa [write, writeFields_eq] using h
    obtain ⟨rfl, hrest⟩ := eq_of_joined (not_isNumberChar _ (by decide)) (by decide) hhead hfields
      (inFormat_object.1 hv') htail
    exact ⟨rfl, hrest⟩
termination_by sizeOf value
decreasing_by
  · simp only [Json.array.sizeOf_spec]
    omega
  · simp only [Json.object.sizeOf_spec, Prod.mk.sizeOf_spec] at *
    omega

end Json

/-! ## Hashed texts -/

/-- The text that is hashed tells the rule and the input. -/
theorem eq_of_hashedText {input input' : Json} {caller caller' : String} (hi : input.InFormat)
    (hi' : input'.InFormat) (h : hashedText input caller = hashedText input' caller') :
    caller = caller' ∧ input = input' := by
  obtain ⟨hcaller, hwrite⟩ := Json.eq_of_append_dollar (String.ofList_injective h)
  have hnil : Json.Ends [] := fun c hc => nomatch hc
  refine ⟨String.toList_injective hcaller, (Json.decodes_write input hi input' [] [] hi' hnil hnil ?_).1⟩
  rw [hwrite]

/-- Two texts with the same digest. -/
def Collide (a b : String) : Prop := a ≠ b ∧ Digest.sha3Text a = Digest.sha3Text b

/-- The text that is hashed tells the rule and the input, whatever characters the name of the rule has. So
two rules or two inputs share an entry of the cache only if the texts that are hashed collide. -/
theorem hashedText_unambiguous {input input' : Json} {caller caller' : String} (hi : input.InFormat)
    (hi' : input'.InFormat) :
    (hashedText input caller = hashedText input' caller' → caller = caller' ∧ input = input') ∧
      (hashOf input caller = hashOf input' caller' →
        (caller = caller' ∧ input = input') ∨
          Collide (hashedText input caller) (hashedText input' caller')) := by
  refine ⟨eq_of_hashedText hi hi', fun hkeys => ?_⟩
  by_cases h : hashedText input caller = hashedText input' caller'
  · exact .inl (eq_of_hashedText hi hi' h)
  · exact .inr ⟨h, hkeys⟩

/-- A rule with a dollar sign and a quote in its name, and a string with a dollar sign. -/
theorem hashedText_ne_of_dollar :
    hashedText (.string "b\"$0.1") "a" ≠
      hashedText (.number (.float ⟨false, 0x1999999999999A, -56⟩)) "a$\"b\\\"" := by
  intro h
  have hcaller := ((hashedText_unambiguous (by decide) (by decide)).1 h).1
  revert hcaller
  decide

end Evomark
