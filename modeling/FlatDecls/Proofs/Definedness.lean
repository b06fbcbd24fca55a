import FlatDecls.Proofs.Findings

/-!
# Defined names and remarks on aliases

A name is defined in a source unit if a declaration bears it, or an alias that stands for
something defined. An alias that stands for a name without definition should be remarked on, and
no other. The remark depends on the declarations only: it is made exactly if no declaration bears
the name. So every alias for an undefined name is remarked on, and the remarks that are wrong are
those about names that only aliases define (`SourceUnit.skipped_alias_reported_iff`).
-/

namespace FlatDecls

namespace SourceUnit

/-- A name is defined by a declaration, or by an alias: of anything but a name, or of a name that is
defined in turn. -/
inductive Defines (u : SourceUnit) : String → Prop
  | declaration {d : Declaration} {name : String} (member : d ∈ u.declarations)
      (named : d.name? = some name) : u.Defines name
  | inPlace {x : Alias} (member : x ∈ u.aliases)
      (other : ∀ name, x.target ≠ .type (.named name)) : u.Defines x.name
  | renamed {x : Alias} {name : String} (member : x ∈ u.aliases)
      (target : x.target = .type (.named name)) (defined : u.Defines name) : u.Defines x.name

/-- Among the findings on an alias is the remark that its target is not defined. -/
def Remarks (u : SourceUnit) (x : Alias) : Prop :=
  ∃ target : String,
    { severity := .info
      code := .aliasSkipped
      message := s!"Type alias '{x.name}' names '{target}', which is not defined here; skipped"
      location := some x.name
      notes := [] } ∈ u.aliasFindings x

variable {u : SourceUnit} {x : Alias} {name : String}

/-- An undefined name is undeclared. -/
theorem undeclared_of_not_defines (h : ¬ u.Defines name) : u.Undeclared name :=
  fun _ member named ↦ h (.declaration member named)

/-- The remark is made exactly on the aliases for undeclared names. -/
theorem remarks_iff : u.Remarks x ↔ ∃ name, x.target = .type (.named name) ∧ u.Undeclared name := by
  constructor
  · rintro ⟨target, found⟩
    rw [aliasFindings] at found
    split at found
    next a _ _ =>
      -- what is found about an aggregate are warnings, and the remark is none
      have warning := Aggregate.severity_of_mem_warnings found
      contradiction
    next name _ is =>
      split at found
      next h => exact ⟨name, is, h⟩
      next => contradiction
    next => contradiction
  · rintro ⟨name, target, h⟩
    exact ⟨name, by rw [aliasFindings_of_undeclared target h]; exact List.mem_cons_self⟩

/-- A run that succeeds has the findings on each alias, in order. An alias is remarked on exactly if
it stands for a name that no declaration bears. That it should be remarked on exactly if the name
is not defined holds for every alias but those whose target is undeclared and yet defined, by
aliases alone; and an alias for a name that is not defined is always remarked on. -/
theorem skipped_alias_reported_iff {q : Progress} (h : u.flatten.runFrom {} = (.ok (), q)) :
    q.diagnostics.entries = u.findingLists.flatten ∧
      ∀ x ∈ u.aliases,
        (u.Remarks x ↔ ∃ name, x.target = .type (.named name) ∧ u.Undeclared name) ∧
        ((u.Remarks x ↔ ∃ name, x.target = .type (.named name) ∧ ¬ u.Defines name) ↔
          ∀ name, x.target = .type (.named name) → u.Undeclared name → ¬ u.Defines name) ∧
        ∀ name, x.target = .type (.named name) → ¬ u.Defines name → u.Remarks x := by
  refine ⟨(eq_of_flatten_eq_ok h).2.2, fun x _ ↦ ⟨remarks_iff, ⟨?_, ?_⟩, ?_⟩⟩
  · intro right name target undeclared
    obtain ⟨other, same, undefined⟩ := right.1 (remarks_iff.2 ⟨name, target, undeclared⟩)
    obtain rfl : name = other := by simpa [target] using same
    exact undefined
  · intro undefined
    rw [remarks_iff]
    constructor
    · rintro ⟨name, target, undeclared⟩
      exact ⟨name, target, undefined name target undeclared⟩
    · rintro ⟨name, target, h⟩
      exact ⟨name, target, undeclared_of_not_defines h⟩
  · intro name target undefined
    exact remarks_iff.2 ⟨name, target, undeclared_of_not_defines undefined⟩

/-- A structure that an alias defines, a second name for it, and an alias for nothing. -/
def renamed : SourceUnit where
  aliases :=
    [{ name := "A", target := .aggregate { fields := [{ name := "v", type := .primitive .int }] } },
      { name := "B", target := .type (.named "A") },
      { name := "C", target := .type (.named "Z") }]

theorem not_defines_missing : ¬ renamed.Defines "Z" := by
  have other : ∀ x ∈ renamed.aliases, x.name ≠ "Z" := by decide
  intro h
  generalize missing : "Z" = name at h
  cases h with
  | declaration member => cases member
  | inPlace member => exact other _ member missing.symm
  | renamed member => exact other _ member missing.symm

/-- The alias for nothing is remarked on. -/
theorem remark_on_undefined :
    ∃ q, renamed.flatten.runFrom {} = (.ok (), q) ∧
      renamed.Remarks { name := "C", target := .type (.named "Z") } :=
  ⟨_, rfl, ((skipped_alias_reported_iff (u := renamed) rfl).2 _ (by simp [renamed])).2.2 "Z" rfl
    not_defines_missing⟩

/-- The second name is remarked on, although its target is defined by the first alias. -/
theorem remark_on_defined :
    ∃ q, renamed.flatten.runFrom {} = (.ok (), q) ∧
      q.diagnostics.entries = [.aliasSkipped "B" "A", .aliasSkipped "C" "Z"] ∧
      renamed.Remarks { name := "B", target := .type (.named "A") } ∧ renamed.Defines "A" :=
  ⟨_, rfl, rfl, ⟨"A", List.mem_cons_self⟩,
    .inPlace (x := renamed.aliases[0]) List.mem_cons_self fun _ ↦ nofun⟩

end SourceUnit

end FlatDecls
