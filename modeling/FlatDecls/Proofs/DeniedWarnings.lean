import FlatDecls.Proofs.Findings
import FlatDecls.Proofs.Flat.LateField

/-!
# Denied warnings

Denying warnings changes a collection entry by entry: each warning becomes an error with one more
note, and nothing else changes. No finding of a run is an error of its own, so a run with denied
warnings fails exactly if the run without has a warning, and then counts as many errors as that
one has warnings (`SourceUnit.denied_run_agrees`).
-/

namespace FlatDecls

namespace Diagnostics

variable {ds : Diagnostics}

/-- The entry at each position is denied. -/
theorem getElem?_denyWarnings (ds : Diagnostics) (i : Nat) :
    ds.denyWarnings.entries[i]? = ds.entries[i]?.map Diagnostic.deny := by
  rw [denyWarnings, List.getElem?_map]

theorem length_denyWarnings (ds : Diagnostics) :
    ds.denyWarnings.entries.length = ds.entries.length := by
  rw [denyWarnings, List.length_map]

/-- Denying warnings leaves no warning. -/
theorem warnings_denyWarnings (ds : Diagnostics) : ds.denyWarnings.warnings = [] := by
  rw [warnings, ofSeverity, List.filter_eq_nil_iff, denyWarnings]
  intro d hd
  obtain ⟨d, -, rfl⟩ := List.mem_map.1 hd
  by_cases h : d.severity = .warning <;> simp [Diagnostic.deny, h]

/-- Without errors of their own, the errors of denied findings are the denied warnings. -/
theorem errors_denyWarnings (h : ∀ d ∈ ds.entries, d.severity ≠ .error) :
    ds.denyWarnings.errors = ds.warnings.map Diagnostic.deny := by
  rw [errors, warnings, ofSeverity, ofSeverity, denyWarnings, List.filter_map]
  congr 1
  apply List.filter_congr
  intro d hd
  by_cases warning : d.severity = .warning
  · simp [Diagnostic.deny, warning]
  · simp [Diagnostic.deny, warning, h d hd]

theorem denyWarnings_eq_self (h : ds.warnings = []) : ds.denyWarnings = ds := by
  have same : ∀ d ∈ ds.entries, d.deny = d := by
    intro d hd
    have other := List.filter_eq_nil_iff.1 h d hd
    exact if_neg (by simpa using other)
  rw [denyWarnings, List.map_congr_left same, List.map_id']

/-- Some finding is an error exactly if there is at least one error. -/
theorem hasErrors_iff (ds : Diagnostics) : ds.hasErrors = true ↔ 0 < ds.errors.length := by
  rw [hasErrors, errors, ofSeverity, List.length_pos_iff, Ne, List.filter_eq_nil_iff]
  simp

/-- Among the errors of denied findings each of their warnings is counted once. -/
theorem length_errors_denyWarnings (h : ∀ d ∈ ds.entries, d.severity ≠ .error) :
    ds.denyWarnings.errors.length = ds.warnings.length := by
  rw [errors_denyWarnings h, List.length_map]

/-- The summary of denied findings counts the warnings as errors. -/
theorem summary_denyWarnings (h : ∀ d ∈ ds.entries, d.severity ≠ .error)
    (some : 0 < ds.warnings.length) :
    ds.denyWarnings.summary = s!"{ds.warnings.length} errors, 0 warnings" := by
  have nonempty : ¬ ds.denyWarnings.isEmpty = true := by
    intro empty
    have none : ds.entries = [] := by simpa [isEmpty, denyWarnings] using empty
    simp [warnings, ofSeverity, none] at some
  rw [summary, if_neg nonempty, length_errors_denyWarnings h, warnings_denyWarnings]
  simp only [String.append_assoc]
  rfl

end Diagnostics

namespace SourceUnit

/-- A run with denied warnings is the run without, judged at its end. -/
theorem compile_true (u : SourceUnit) :
    u.compile true =
      match u.compile false with
      | .error e => .error e
      | .ok c =>
        let denied := c.diagnostics.denyWarnings
        if denied.hasErrors then .error (.warningsDenied denied) else .ok ⟨c.register, denied⟩ := by
  rw [compile, compile, compileLogged, compileLogged]
  rcases u.flatten.runFrom {} with ⟨e | _, p⟩
  · rfl
  · simp only [if_true, Bool.false_eq_true, if_false]
    split <;> rfl

variable {u : SourceUnit} {c : Compilation}

/-- No finding of a run is an error of its own. -/
theorem severity_ne_error_of_compile (h : u.compile false = .ok c) :
    ∀ d ∈ c.diagnostics.entries, d.severity ≠ .error := by
  intro d hd
  rcases severity_of_compile h d hd with warning | info
  · simp [warning]
  · simp [info]

/-- The warnings of a run are counted by the bit-fields of the emitted structures and by the forward
references. -/
theorem length_warnings_of_compile (h : u.compile false = .ok c) :
    c.diagnostics.warnings.length =
      (u.sources.flatMap Source.bitFields).length + c.register.forwardReferences.length := by
  have own : ((u.aliases.flatMap u.aliasFindings).filter (·.severity = .warning)).length =
      (u.sources.flatMap Source.bitFields).length := by
    rw [u.warnings_perm_sources.length_eq, List.length_flatMap, List.length_flatMap]
    simp only [Source.length_ownWarnings]
  have late (rs : List ForwardReference) :
      (rs.map Diagnostic.forwardReference).filter (·.severity = .warning) =
        rs.map Diagnostic.forwardReference := by
    rw [List.filter_eq_self]
    intro d hd
    obtain ⟨r, -, rfl⟩ := List.mem_map.1 hd
    rfl
  calc c.diagnostics.warnings.length
      = (c.diagnostics.entries.filter (·.severity = .warning)).length := rfl
    _ = _ := by
      rw [entries_of_compile h, List.filter_append, List.length_append, own, late, List.length_map]

/-- A run with denied warnings fails like the run without, or agrees with it if that one has no
warning. Otherwise it fails with the same findings in the same order, in which each warning has
become an error with one more note at its end; it counts them, and there are as many as there are
bit-fields in the emitted structures and forward references together. There is a forward reference
for each place of a field whose type is the name of a unit, but of none before the field's
structure. Denying warnings a second time changes nothing. -/
theorem denied_run_agrees (u : SourceUnit) :
    (match u.compile false with
      | .error e => (∃ cause, e = .flattening cause) ∧ u.compile true = .error e
      | .ok c =>
        let count := c.diagnostics.warnings.length
        (count = 0 → u.compile true = .ok c) ∧
        (0 < count → ∃ denied : Diagnostics, u.compile true = .error (.warningsDenied denied) ∧
          denied.entries.length = c.diagnostics.entries.length ∧
          (∀ (i : Nat) (d : Diagnostic), c.diagnostics.entries[i]? = some d →
            denied.entries[i]? =
              some (if d.severity = .warning then
                { d with
                  severity := .error
                  notes := d.notes ++ ["warnings are denied for this run"] }
              else d)) ∧
          (CompileError.warningsDenied denied).message = s!"{count} warning(s) denied" ∧
          denied.summary = s!"{count} errors, 0 warnings") ∧
        c.register.units = u.sources.map Source.toUnit ∧
        count =
          (u.sources.flatMap Source.bitFields).length + c.register.forwardReferences.length ∧
        ∃ late : List (Nat × Nat), late.Nodup ∧
          (∀ p i, (p, i) ∈ late ↔ ∃ s f, c.register.FieldAt p i s f ∧
            c.register.Bears f.typeName ∧ ¬ c.register.BearsBefore p f.typeName) ∧
          late.length = c.register.forwardReferences.length) ∧
    ∀ ds : Diagnostics, ds.denyWarnings.denyWarnings = ds.denyWarnings := by
  refine ⟨?_, Diagnostics.denyWarnings_denyWarnings⟩
  rw [u.compile_true]
  cases run : u.compile false with
  | error e =>
    refine ⟨?_, rfl⟩
    rw [compile_false] at run
    split at run
    next cause _ => exact ⟨cause, (Except.error.inj run).symm⟩
    next => contradiction
  | ok c =>
    have own := severity_ne_error_of_compile run
    have counted := Diagnostics.length_errors_denyWarnings own
    have denied_iff := c.diagnostics.denyWarnings.hasErrors_iff
    rw [counted] at denied_iff
    refine ⟨fun none ↦ ?_, fun some ↦ ⟨c.diagnostics.denyWarnings, ?_⟩,
      units_of_compile run, length_warnings_of_compile run, c.register.exists_latePlaces⟩
    · have passes : ¬ c.diagnostics.denyWarnings.hasErrors = true := by
        rw [denied_iff]
        omega
      have same := Diagnostics.denyWarnings_eq_self (List.length_eq_zero_iff.1 none)
      refine (if_neg passes).trans ?_
      rw [same]
    · refine ⟨if_pos (denied_iff.2 some), c.diagnostics.length_denyWarnings, fun i d hd ↦ ?_, ?_,
        Diagnostics.summary_denyWarnings own some⟩
      · rw [Diagnostics.getElem?_denyWarnings, hd]
        rfl
      · rw [CompileError.message, counted]

end SourceUnit

end FlatDecls
