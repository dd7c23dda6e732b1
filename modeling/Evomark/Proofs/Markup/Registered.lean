import Evomark.Registry
import Evomark.Proofs.Json.Value
/-!
# Registries that can be put together

A registry is put together of one with the rule `box` only, or of that with all built-in rules, by adding
rules under names that are free and empty namespaces (`Registry.Built`). So the name `box` has the rule of a
box in every registry (`Built.box`), and the settings a document starts with are empty dictionaries
(`Built.namespaces`).
-/

namespace Evomark.Registry

variable {r r' : Registry} {name : String}

/-! ## Adding a rule -/

/-- A rule is added under a name that is free. -/
theorem eq_of_addTo {α : Type} {table table' : Table α} {which : RuleTable} {rule : α}
    (h : addTo table which name rule = .ok table') :
    table.get? name = none ∧ table' = table.insert name rule := by
  unfold addTo at h
  split at h
  · cases h
  · rename_i hfree
    exact ⟨by simpa using hfree, (Except.ok.inj h).symm⟩

theorem eq_of_map_addTo {α : Type} {table : Table α} {which : RuleTable} {rule : α} {put : Table α → Registry}
    (h : (addTo table which name rule).map put = .ok r') :
    table.get? name = none ∧ r' = put (table.insert name rule) := by
  cases hadd : addTo table which name rule with
  | error e =>
    rw [hadd] at h
    cases h
  | ok table' =>
    rw [hadd] at h
    obtain ⟨hfree, rfl⟩ := eq_of_addTo hadd
    exact ⟨hfree, (Except.ok.inj h).symm⟩

theorem eq_of_addFunction {rule : BodyRule} (h : r.addFunction name rule = .ok r') :
    r.functions.get? name = none ∧ r' = { r with functions := r.functions.insert name rule } :=
  eq_of_map_addTo h

theorem eq_of_addCommand {rule : BodyRule} (h : r.addCommand name rule = .ok r') :
    r.commands.get? name = none ∧ r' = { r with commands := r.commands.insert name rule } :=
  eq_of_map_addTo h

theorem eq_of_addExec {rule : ExecRule} (h : r.addExec name rule = .ok r') :
    r.execution.get? name = none ∧ r' = { r with execution := r.execution.insert name rule } :=
  eq_of_map_addTo h

/-! ## Registries -/

/-- The registries that can be put together. -/
inductive Built : Registry → Prop
  | minimal : Built minimal
  | standard : Built standard
  | function {r r' : Registry} {name : String} {rule : BodyRule} (h : Built r)
    (hadd : r.addFunction name rule = .ok r') : Built r'
  | command {r r' : Registry} {name : String} {rule : BodyRule} (h : Built r)
    (hadd : r.addCommand name rule = .ok r') : Built r'
  | exec {r r' : Registry} {name : String} {rule : ExecRule} (h : Built r)
    (hadd : r.addExec name rule = .ok r') : Built r'
  | settings {r : Registry} (h : Built r) (space : String) : Built (r.addNamespace space)

/-- The name `box` has the rule of a box: it is taken from the start. -/
theorem Built.box (h : Built r) : r.functions.get? "box" = some .box := by
  induction h with
  | minimal | standard => rfl
  | function _ hadd ih =>
    obtain ⟨hfree, rfl⟩ := eq_of_addFunction hadd
    rw [Table.get?_insert, if_neg, ih]
    rintro rfl
    rw [ih] at hfree
    cases hfree
  | command _ hadd ih =>
    obtain ⟨-, rfl⟩ := eq_of_addCommand hadd
    exact ih
  | exec _ hadd ih =>
    obtain ⟨-, rfl⟩ := eq_of_addExec hadd
    exact ih
  | settings _ space ih =>
    rw [addNamespace]
    split <;> exact ih

/-- The settings of every namespace that a document starts with are empty. -/
theorem Built.namespaces (h : Built r) : Table.Holds (· = Json.object []) r.namespaces := by
  induction h with
  | minimal => exact Table.holds_nil
  | standard => exact Table.holds_nil.insert _ rfl
  | function _ hadd ih =>
    obtain ⟨-, rfl⟩ := eq_of_addFunction hadd
    exact ih
  | command _ hadd ih =>
    obtain ⟨-, rfl⟩ := eq_of_addCommand hadd
    exact ih
  | exec _ hadd ih =>
    obtain ⟨-, rfl⟩ := eq_of_addExec hadd
    exact ih
  | settings _ space ih =>
    rw [addNamespace]
    split
    · exact ih
    · exact ih.insert _ rfl

end Evomark.Registry
