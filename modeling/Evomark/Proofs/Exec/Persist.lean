import Evomark.Exec.StateFile
import Evomark.Proofs.Json.ReadBack
import Evomark.Proofs.Exec.Eager
import Evomark.Proofs.Exec.Values
/-!
# State files are read back

What is read from a state file keeps within the limits of its reader: cached values are nested at
most 125 deep, saved ones at most 124 (`good_of_read`). A pass keeps within the limits for cached
values, but a value it saves may be nested up to 127 deep. So the file that holds the context of a
pass is read back if and only if the saved values are not nested deeper than 124
(`read_fileText_exec`).
-/

namespace Evomark

open Json

namespace StateFile

/-! ## What is read from a state file -/

section

variable {α β σ : Type} {P : α → Prop} {Q : β → Prop}

theorem gives_placed {result : Except Fault (α × List Char)} (h : Gives P result) :
    Gives P (placed result) := by
  cases result with
  | error fault => trivial
  | ok r => exact h

theorem gives_readTable {value : Reader α} (h : ∀ cs, Gives P (value cs)) (cs : List Char) :
    Gives (Table.Holds P) (readTable value cs) := by
  unfold readTable
  split
  · trivial
  · split
    · exact Json.gives_readTable h _
    · trivial

theorem gives_fieldOnce {value : Reader α} (h : ∀ cs, Gives P (value cs)) (name : String)
    (old : Option α) (cs : List Char) :
    Gives (fun x => ∀ y ∈ x, P y) (fieldOnce name value old cs) := by
  unfold fieldOnce
  split
  · trivial
  · refine gives_placed (gives_bind fun cs => (h cs).bind fun x rest hx => ?_)
    exact Gives.ok (fun y hy => Option.some.inj hy ▸ hx) rest

theorem gives_otherField {I : σ → Prop} {state : σ} (h : I state) (cs : List Char) :
    Gives I (otherField state cs) :=
  gives_placed (gives_bind fun _ => gives_bind fun rest => Gives.ok h rest)

theorem gives_readFields {I : σ → Prop}
    {field : σ → String → List Char → Except RecordFault (σ × List Char)}
    (h : ∀ state key cs, I state → Gives I (field state key cs)) (fuel : Nat) (first : Bool) (state : σ)
    (cs : List Char) (hs : I state) : Gives I (readFields field fuel first state cs) := by
  induction fuel generalizing first state cs with
  | zero => trivial
  | succ fuel ih =>
    have hmore : ∀ cs, Gives I (placed (readString cs) >>= fun key =>
        field state key.1 key.2 >>= fun r => readFields field fuel false r.1 r.2) :=
      fun cs => gives_bind fun key => (h state _ _ hs).bind fun state' rest hs' => ih false state' rest hs'
    unfold readFields
    simp only
    split
    · trivial
    · split
      · exact hs
      · split
        · split
          · exact hmore _
          · trivial
        · split
          · split
            · trivial
            · split
              · exact hmore _
              · trivial
          · trivial

/-- What has been read of a record of two values. -/
def PairHolds (P : α → Prop) (Q : β → Prop) (state : Option α × Option β) : Prop :=
  (∀ x ∈ state.1, P x) ∧ ∀ y ∈ state.2, Q y

theorem gives_pairField {a : Reader α} {b : Reader β} (ha : ∀ cs, Gives P (a cs))
    (hb : ∀ cs, Gives Q (b cs)) {first second : String} (state : Option α × Option β) (key : String)
    (cs : List Char) (h : PairHolds P Q state) :
    Gives (PairHolds P Q) (pairField first second a b state key cs) := by
  unfold pairField
  split
  · exact (gives_fieldOnce ha _ _ cs).bind fun x rest hx => Gives.ok ⟨hx, h.2⟩ rest
  · split
    · exact (gives_fieldOnce hb _ _ cs).bind fun y rest hy => Gives.ok ⟨h.1, hy⟩ rest
    · exact gives_otherField h cs

theorem gives_nextItem {item : Reader α} (h : ∀ cs, Gives P (item cs)) (first : Bool) (cs : List Char) :
    Gives (fun x => ∀ y ∈ x, P y) (nextItem item first cs) := by
  have hitem : ∀ cs, Gives (fun x => ∀ y ∈ x, P y)
      ((item cs).map fun found => (some found.1, found.2)) := fun cs =>
    (h cs).map fun x hx y hy => Option.some.inj hy ▸ hx
  unfold nextItem
  repeat' split
  any_goals trivial
  · exact Gives.ok (by simp) _
  · exact hitem _
  · exact hitem _

theorem gives_readRecord {object array : List Char → Except RecordFault (α × List Char)}
    (hobject : ∀ cs, Gives P (object cs)) (harray : ∀ cs, Gives P (array cs)) (name : String)
    (cs : List Char) : Gives P (readRecord name object array cs) := by
  unfold readRecord
  split
  · trivial
  · rename_i c rest _
    split
    · have h := hobject rest
      split
      · rename_i x more hx
        rw [hx] at h
        exact h
      · trivial
    · split
      · have h := harray rest
        split
        · rename_i x more hx
          rw [hx] at h
          exact gives_bind fun _ => h
        · trivial
      · trivial

end

/-- A saved value that is read is nested at most 124 deep. -/
theorem gives_readSavedVar (cs : List Char) :
    Gives (fun saved => IsGood (maxDepth - 3) saved.value) (readSavedVar cs) := by
  have hvalue := gives_readValue (maxDepth - 3)
  have htype : ∀ cs, Gives (fun _ => True) (readType cs) := by
    intro cs
    cases readType cs <;> trivial
  refine gives_readRecord (fun cs => ?_) (fun cs => ?_) _ cs
  · refine (gives_readFields (fun state key cs h => gives_pairField htype hvalue state key cs h) _ _ _ cs
      ⟨by simp, by simp⟩).bind fun state rest h => ?_
    obtain ⟨type, value⟩ := state
    cases type with
    | none => trivial
    | some type =>
      cases value with
      | none => trivial
      | some value => exact h.2 value rfl
  · refine gives_bind fun type => ?_
    obtain ⟨_ | type, rest⟩ := type
    · trivial
    · refine (gives_placed (gives_nextItem hvalue false rest)).bind fun value rest h => ?_
      cases value with
      | none => trivial
      | some value => exact h value rfl

/-- The tables of a context are ordered and their values within the limits of a state file. -/
structure IsLoaded (ctx : Context) : Prop where
  cache : ctx.cache.Holds (IsGood (maxDepth - 2))
  saved : ctx.saved.Holds fun saved => IsGood (maxDepth - 3) saved.value

theorem isLoaded_empty : IsLoaded {} := ⟨Table.holds_nil, Table.holds_nil⟩

theorem gives_readContext (cs : List Char) : Gives IsLoaded (readContext cs) := by
  have hcache := gives_readTable (gives_readValue (maxDepth - 2))
  have hsaved := gives_readTable gives_readSavedVar
  have hpair : ∀ state, PairHolds (Table.Holds (IsGood (maxDepth - 2)))
      (Table.Holds fun saved => IsGood (maxDepth - 3) saved.value) state →
      IsLoaded ⟨state.1.getD [], state.2.getD []⟩ := by
    rintro ⟨cache, saved⟩ ⟨h, h'⟩
    refine ⟨?_, ?_⟩
    · cases cache with
      | none => exact Table.holds_nil
      | some cache => exact h cache rfl
    · cases saved with
      | none => exact Table.holds_nil
      | some saved => exact h' saved rfl
  refine gives_readRecord (fun cs => ?_) (fun cs => ?_) _ cs
  · exact (gives_readFields (fun state key cs h => gives_pairField hcache hsaved state key cs h) _ _ _ cs
      ⟨by simp, by simp⟩).bind fun state rest h => Gives.ok (hpair state h) rest
  · refine (gives_placed (gives_nextItem hcache true cs)).bind fun cache rest h => ?_
    cases cache with
    | none => exact Gives.ok isLoaded_empty rest
    | some cache =>
      refine (gives_placed (gives_nextItem hsaved false rest)).bind fun saved rest h' => ?_
      exact Gives.ok (hpair (some cache, saved) ⟨h, h'⟩) rest

end StateFile

open StateFile

/-- What is read from a state file is within its limits. -/
theorem Context.isLoaded_of_read {file : String} {ctx : Context} (h : Context.read file = .ok ctx) :
    IsLoaded ctx :=
  of_readAll gives_readContext h

/-! ## State files that are read back -/

namespace StateFile

section

variable {α β σ : Type} {before after gap : List Char}

/-- A field of a record is read once. -/
theorem fieldOnce_gap {value : Reader α} {text : List Char} {x : α} (h : Rereads value text x)
    (hg : IsBlank gap) (name : String) {rest : List Char} (hs : Stops rest) :
    fieldOnce name value none (':' :: gap ++ (text ++ rest)) = .ok (some x, rest) := by
  have hcolon : readColon (':' :: (gap ++ (text ++ rest))) = .ok (gap ++ (text ++ rest)) := by
    rw [readColon, skipSpace_cons (by decide)]
    rfl
  unfold fieldOnce
  rw [List.cons_append, hcolon]
  simp only [bind, Except.bind, h.read gap rest hg hs]
  rfl

theorem readFields_pair {a : Reader α} {b : Reader β} {ta tb : List Char} {x : α} {y : β}
    (ha : Rereads a ta x) (hb : Rereads b tb y) (hbefore : IsBlank before) (hafter : IsBlank after)
    (hg : IsBlank gap) {first second : String} (hne : second ≠ first) (fuel : Nat) (rest : List Char) :
    readFields (pairField first second a b) (fuel + 3) true (none, none)
        (joined before after [fieldText gap id (first, ta), fieldText gap id (second, tb)]
          ++ '\x7d' :: rest) = .ok ((some x, some y), '\x7d' :: rest) := by
  have hclosing : Stops (after ++ '\x7d' :: rest) := Stops.blank hafter (stops_closing (.inr rfl) rest)
  have hend : readFields (pairField first second a b) (fuel + 1) false (some x, some y)
      (after ++ '\x7d' :: rest) = .ok ((some x, some y), '\x7d' :: rest) := by
    rw [readFields, skipSpace_blank hafter, skipSpace_cons (by decide)]
    rfl
  -- what stands behind the keys of the two fields
  let behindSecond := ':' :: gap ++ (tb ++ (after ++ '\x7d' :: rest))
  let keySecond := (second.toList.flatMap escape ++ ['"']) ++ behindSecond
  let behindFirst := ':' :: gap ++ (ta ++ (',' :: (before ++ '"' :: keySecond)))
  let keyFirst := (first.toList.flatMap escape ++ ['"']) ++ behindFirst
  have htext : joined before after [fieldText gap id (first, ta), fieldText gap id (second, tb)]
      ++ '\x7d' :: rest = before ++ '"' :: keyFirst := by
    simp [joined, commas, fieldText, quote, keyFirst, behindFirst, keySecond, behindSecond]
  have hcomma : Stops (',' :: (before ++ '"' :: keySecond)) := by
    show isDigit ',' = false ∧ ',' ≠ '.' ∧ ',' ≠ 'e' ∧ ',' ≠ 'E'
    decide
  have hfirst : pairField first second a b (none, none) first behindFirst =
      .ok ((some x, none), ',' :: (before ++ '"' :: keySecond)) := by
    unfold pairField
    rw [if_pos rfl, fieldOnce_gap ha hg first hcomma]
    rfl
  have hsecond : pairField first second a b (some x, none) second behindSecond =
      .ok ((some x, some y), after ++ '\x7d' :: rest) := by
    unfold pairField
    rw [if_neg hne, if_pos rfl, fieldOnce_gap hb hg second hclosing]
    rfl
  have hquote : skipSpace (before ++ '"' :: keyFirst) = '"' :: keyFirst := by
    rw [skipSpace_blank hbefore, skipSpace_cons (by decide)]
  have hquote' : skipSpace (before ++ '"' :: keySecond) = '"' :: keySecond := by
    rw [skipSpace_blank hbefore, skipSpace_cons (by decide)]
  have hkeyFirst : readString keyFirst = .ok (first, behindFirst) := readString_quote first _
  have hkeySecond : readString keySecond = .ok (second, behindSecond) := readString_quote second _
  have hmore : readFields (pairField first second a b) (fuel + 2) false (some x, none)
      (',' :: (before ++ '"' :: keySecond)) = .ok ((some x, some y), '\x7d' :: rest) := by
    rw [readFields, skipSpace_cons (by decide)]
    simp only [Char.reduceEq, if_false, if_true, Bool.false_eq_true, hquote', hkeySecond, placed,
      Except.mapError, bind, Except.bind, hsecond]
    exact hend
  rw [htext, readFields, hquote]
  simp only [Char.reduceEq, if_false, if_true, hkeyFirst, placed, Except.mapError, bind, Except.bind,
    hfirst]
  exact hmore

/-- A record of two fields is read back up to its closing brace. -/
theorem readFields_joined {a : Reader α} {b : Reader β} {ta tb : List Char} {x : α} {y : β}
    (ha : Rereads a ta x) (hb : Rereads b tb y) (hbefore : IsBlank before) (hafter : IsBlank after)
    (hg : IsBlank gap) {first second : String} (hne : second ≠ first) (rest : List Char) :
    let cs := joined before after [fieldText gap id (first, ta), fieldText gap id (second, tb)]
      ++ '\x7d' :: rest
    readFields (pairField first second a b) (cs.length + 1) true (none, none) cs =
      .ok ((some x, some y), '\x7d' :: rest) := by
  intro cs
  have hlength : 2 ≤ cs.length := by
    have := length_le_length_joined before after
      [fieldText gap id (first, ta), fieldText gap id (second, tb)]
    simp only [List.length_cons, List.length_nil] at this
    rw [List.length_append, List.length_cons]
    omega
  have hfuel : cs.length + 1 = (cs.length - 2) + 3 := by omega
  rw [hfuel]
  exact readFields_pair ha hb hbefore hafter hg hne _ rest

/-- A record that is written as an object is read back. -/
theorem rereads_record {object array : List Char → Except RecordFault (α × List Char)} {inner : List Char}
    {x : α} (h : ∀ rest, object (inner ++ '\x7d' :: rest) = .ok (x, '\x7d' :: rest))
    (name : String) : Rereads (readRecord name object array) ('\x7b' :: (inner ++ ['\x7d'])) x := by
  refine ⟨⟨'\x7b', _, rfl, by decide, by decide⟩, fun blank rest hb _ => ?_⟩
  have htext : blank ++ ('\x7b' :: (inner ++ ['\x7d']) ++ rest) =
      blank ++ '\x7b' :: (inner ++ '\x7d' :: rest) := by
    simp
  have hclose : skipSpace ('\x7d' :: rest) = '\x7d' :: rest := skipSpace_cons (by decide) _
  unfold readRecord
  rw [htext, skipSpace_blank hb, skipSpace_cons (by decide)]
  simp only [if_true, h rest, hclose]
  rfl

theorem rereads_table {value : Reader α} {text : α → List Char} (hbefore : IsBlank before)
    (hafter : IsBlank after) (hg : IsBlank gap) {fields : Table α}
    (h : ∀ field ∈ fields, Rereads value (text field.2) field.2) (hordered : Table.Ordered fields) :
    Rereads (readTable value)
      ('\x7b' :: (joined before after (fields.map (fieldText gap text)) ++ ['\x7d'])) fields := by
  refine ⟨⟨'\x7b', _, rfl, by decide, by decide⟩, fun blank rest hb _ => ?_⟩
  have hread := readTable_joined hbefore hafter hg h hordered rest
  generalize joined before after (fields.map (fieldText gap text)) = inner at hread
  have htext : blank ++ ('\x7b' :: (inner ++ ['\x7d']) ++ rest) =
      blank ++ '\x7b' :: (inner ++ '\x7d' :: rest) := by
    simp
  unfold readTable
  rw [htext, skipSpace_blank hb, skipSpace_cons (by decide)]
  simp only [if_true, hread]

end

theorem rereads_type (type : DataType) : Rereads readType (quote type.name) type := by
  refine ⟨⟨'"', _, rfl, by decide, by decide⟩, fun blank rest hb _ => ?_⟩
  have hs := readString_quote type.name rest
  have htext : quote type.name ++ rest = '"' :: ((type.name.toList.flatMap escape ++ ['"']) ++ rest) := by
    simp [quote]
  have hname : DataType.ofName? type.name = some type := by cases type <;> decide
  unfold readType
  rw [htext, skipSpace_blank hb, skipSpace_cons (by decide)]
  simp only [Char.reduceEq, if_false, if_true, readTypeName]
  rw [skipSpace_cons (by decide)]
  simp only [if_true, bind, Except.bind, hs, hname]
  rfl

/-- A saved variable is read back. -/
theorem rereads_savedVar {saved : SavedVar} (h : IsGood (maxDepth - 3) saved.value)
    (hwhole : saved.value.isWhole = true) (level : Nat) :
    Rereads readSavedVar (writePretty level saved.toJson) saved := by
  have hvalue := lays_writePretty.rereads saved.value h hwhole (level + 1)
  have htext : writePretty level saved.toJson =
      '\x7b' :: (joined (newLine (level + 1)) (newLine level)
        [fieldText [' '] id ("t", quote saved.type.name),
          fieldText [' '] id ("v", writePretty (level + 1) saved.value)] ++ ['\x7d']) := by
    rw [SavedVar.toJson, lays_writePretty.object]
    simp only [List.map_cons, List.map_nil, fieldText, lays_writePretty.string, id]
  rw [htext]
  refine rereads_record (fun rest => ?_) _
  have hfields := readFields_joined (rereads_type saved.type) hvalue (isBlank_newLine (level + 1))
    (isBlank_newLine level) lays_writePretty.blank_gap (show "v" ≠ "t" by decide) rest
  simp only [hfields, bind, Except.bind]
  rfl

/-- The fields of a context, one for each of its tables. -/
theorem toJson_eq (ctx : Context) : ctx.toJson = .object [("cache", .object ctx.cache),
    ("saved", .object (ctx.saved.map fun entry => (entry.1, entry.2.toJson)))] := rfl

/-- The text of a context within the limits is read back. -/
theorem rereads_context {ctx : Context} (h : IsLoaded ctx) (hwhole : ctx.toJson.isWhole = true) :
    Rereads readContext (writePretty 0 ctx.toJson) ctx := by
  obtain ⟨hcache, hsaved⟩ : fieldsWhole ctx.cache = true ∧
      fieldsWhole (ctx.saved.map fun entry => (entry.1, entry.2.toJson)) = true := by
    simpa [toJson_eq, isWhole, fieldsWhole] using hwhole
  rw [fieldsWhole_iff] at hcache hsaved
  have hcacheText : writePretty 1 (.object ctx.cache) = '\x7b' ::
      (joined (newLine 2) (newLine 1) (ctx.cache.map (fieldText [' '] (writePretty 2))) ++ ['\x7d']) :=
    lays_writePretty.object 1 ctx.cache
  have hsavedText : writePretty 1 (.object (ctx.saved.map fun entry => (entry.1, entry.2.toJson))) =
      '\x7b' :: (joined (newLine 2) (newLine 1)
        (ctx.saved.map (fieldText [' '] fun saved => writePretty 2 saved.toJson)) ++ ['\x7d']) := by
    rw [lays_writePretty.object, List.map_map]
    rfl
  have htext : writePretty 0 ctx.toJson = '\x7b' :: (joined (newLine 1) (newLine 0)
      [fieldText [' '] id ("cache", writePretty 1 (.object ctx.cache)),
        fieldText [' '] id ("saved",
          writePretty 1 (.object (ctx.saved.map fun entry => (entry.1, entry.2.toJson))))]
        ++ ['\x7d']) := by
    rw [toJson_eq, lays_writePretty.object]
    rfl
  have hcacheRead : Rereads (readTable (readValue (maxDepth - 2))) (writePretty 1 (.object ctx.cache))
      ctx.cache := by
    rw [hcacheText]
    exact rereads_table (isBlank_newLine 2) (isBlank_newLine 1) lays_writePretty.blank_gap
      (fun field hmem => lays_writePretty.rereads field.2 (h.cache.values field hmem)
        (hcache field hmem) 2) h.cache.ordered
  have hsavedRead : Rereads (readTable readSavedVar)
      (writePretty 1 (.object (ctx.saved.map fun entry => (entry.1, entry.2.toJson)))) ctx.saved := by
    rw [hsavedText]
    refine rereads_table (isBlank_newLine 2) (isBlank_newLine 1) lays_writePretty.blank_gap
      (fun field hmem => rereads_savedVar (h.saved.values field hmem) ?_ 2) h.saved.ordered
    have hentry := hsaved _ (List.mem_map_of_mem hmem)
    simpa [SavedVar.toJson, isWhole, fieldsWhole] using hentry
  rw [htext]
  refine rereads_record (fun rest => ?_) _
  have hfields := readFields_joined hcacheRead hsavedRead (isBlank_newLine 1) (isBlank_newLine 0)
    lays_writePretty.blank_gap (show "saved" ≠ "cache" by decide) rest
  simp only [hfields, bind, Except.bind]
  rfl

end StateFile

/-- The file that holds a context within the limits is read back. -/
theorem Context.read_fileText {ctx : Context} (h : IsLoaded ctx) (hwhole : ctx.toJson.isWhole = true) :
    Context.read ctx.fileText = .ok ctx :=
  (rereads_context h hwhole).readAll

/-! ## Contexts of passes -/

/-- What a pass may keep: sound values, and in the cache none nested deeper than 125. -/
theorem valueClasses_isGood : ValueClasses (IsGood (maxDepth - 2)) IsSound where
  cached h := h.sound
  text s := isGood_string _ s
  read h := (good_of_read h).sound

/-- The file that holds the context of a pass is read back if and only if no saved value is nested
deeper than the reader of state files goes. -/
theorem read_fileText_exec (document : Node) (ctx : Context)
    (hctx : ctx = {} ∨ ∃ file, Context.read file = .ok ctx) :
    let after := (Registry.standard.exec document ctx).state.context
    after.toJson.isWhole = true →
      (Context.read after.fileText = .ok after ↔
        ∀ entry ∈ after.saved, entry.2.value.depth ≤ maxDepth - 3) := by
  obtain ⟨label, children⟩ := document
  intro after hwhole
  have hloaded : IsLoaded ctx := by
    rcases hctx with rfl | ⟨file, hfile⟩
    · exact isLoaded_empty
    · exact Context.isLoaded_of_read hfile
  have hstart : (ExecState.ofContext ctx).Holds (IsGood (maxDepth - 2)) IsSound :=
    .ofContext hloaded.cache ⟨hloaded.saved.ordered, fun entry h => (hloaded.saved.values entry h).sound⟩
  have hend := hstart.runNodes valueClasses_isGood children
  constructor
  · intro hread entry hmem
    exact ((Context.isLoaded_of_read hread).saved.values entry hmem).depth_le
  · intro hdepth
    refine Context.read_fileText ⟨hend.cache, hend.saved.ordered, fun entry hmem => ?_⟩ hwhole
    exact ⟨hend.saved.values entry hmem, hdepth entry hmem⟩

/-! ## Contexts that are computed -/

/-- Executes a command like `ExecRule.run`, but `json` reads what is put together of its body before a
text is made of it. -/
def ExecRule.runChars : RuleRunner
  | json, command, host, s =>
    let (hosts, missing, t) := resolveNames s (usedNames (bodyItems command))
    let (text, t) := assemble t (hosts.filterMap id) (bodyItems command)
    match missing, Json.readValue Json.maxDepth (Text.normalizeText text) with
    | [], .ok (value, []) =>
      .ok ⟨command,
        host.map fun h => ({ h with type := .obj, dependencies := hosts }).setContent (some value), t⟩
    | _, _ => json.run command host s
  | rule, command, host, s => rule.run command host s

theorem read_ofList {cs : List Char} {value : Json} (h : readValue maxDepth cs = .ok (value, [])) :
    Json.read (String.ofList cs) = .ok value := by
  rw [Json.read, readAll, String.toList_ofList, h]
  rfl

theorem ExecRule.runChars_eq_run : ExecRule.runChars = ExecRule.run := by
  funext rule command host s
  cases rule with
  | json =>
    simp only [runChars]
    split
    · rename_i value hmissing hvalue
      simp only [run, synthesize, hmissing, List.isEmpty_nil, if_true, read_ofList hvalue]
    · rfl
  | _ => rfl

/-- A pass by `ExecRule.runChars`, for contexts that are computed: characters are decoded slowly. -/
theorem context_exec (document : Node) (ctx : Context) :
    (Registry.standard.exec document ctx).state.context =
      (walkWith (stepWith ExecRule.runChars Registry.standard.execution) document.children
        (.ofContext ctx)).state.context := by
  obtain ⟨label, children⟩ := document
  rw [ExecRule.runChars_eq_run, ← runNodes_eq_walkWith]
  rfl

/-- A source that saves a list with an object in it, and a text that is cached. -/
def savingSource : String :=
  "%x = $json\x7b[[1], \x7b\"a\": -2\x7d]\x7d\n%y = $upper\x7bq\x7d\n$save\x7b%x %y\x7d"

theorem read_fileText_savingSource :
    let after := (Registry.standard.exec (Registry.standard.parse savingSource).document {}).state.context
    after.cache.length = 1 ∧ after.saved.keys = ["x", "y"] ∧ after.toJson.isWhole = true ∧
      Context.read after.fileText = .ok after :=
  ⟨by decide +kernel, by decide +kernel, by decide +kernel,
    (read_fileText_exec _ {} (.inl rfl) (by decide +kernel)).2 (by decide +kernel)⟩

/-- A source that saves lists nested 125 deep. -/
def deepSource : String :=
  let opening := String.ofList (List.replicate 25 '[')
  let closing := String.ofList (List.replicate 25 ']')
  "%a = $t\x7b" ++ opening ++ "\x7d\n%b = $t\x7b" ++ closing ++
    "\x7d\n%x = $json\x7b%a%a%a%a%a%b%b%b%b%b\x7d\n$save\x7b%x\x7d"

/-- The context after a pass over a source, started without one. -/
def contextAfter (source : String) : Context :=
  (Registry.standard.exec (Registry.standard.parse source).document {}).state.context

theorem depth_deepSource :
    (contextAfter deepSource).saved.map (fun entry => (entry.1, entry.2.value.depth)) = [("x", 125)] := by
  rw [contextAfter, context_exec]
  decide +kernel

/-- The file that holds the context after it is not read back. -/
theorem read_fileText_deepSource :
    Context.read (contextAfter deepSource).fileText ≠ .ok (contextAfter deepSource) := by
  intro hread
  have hdeep : ("x", 125) ∈
      (contextAfter deepSource).saved.map fun entry => (entry.1, entry.2.value.depth) := by
    rw [depth_deepSource]
    exact List.mem_cons_self
  obtain ⟨entry, hmem, heq⟩ := List.mem_map.1 hdeep
  have hle : entry.2.value.depth ≤ maxDepth - 3 :=
    ((Context.isLoaded_of_read hread).saved.values entry hmem).depth_le
  have hdepth : entry.2.value.depth = 125 := (Prod.mk.inj heq).2
  rw [hdepth] at hle
  exact absurd hle (by decide)

end Evomark
