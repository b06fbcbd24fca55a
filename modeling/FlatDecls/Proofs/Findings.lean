import FlatDecls.Proofs.Compilation
import FlatDecls.Proofs.Flat.ForwardReference
import FlatDecls.Proofs.Flattening.Blocks

/-!
# The findings of a compilation

A compilation that succeeds has the findings on its aliases, in order, and then one warning for
each forward reference of the finished register (`SourceUnit.findings_complete`). Nothing else is
found: the warnings among the first are, up to their order, those about the bit-fields of the
emitted structures, and the second are exactly the forward references that hold in the register.
-/

namespace FlatDecls

variable {d : Diagnostic}

/-- What is found about a field itself is a warning. -/
theorem Field.severity_of_mem_ownWarnings {f : Field} {owner : String}
    (h : d ∈ f.ownWarnings owner) : d.severity = .warning := by
  cases bits : f.bitWidth with
  | none =>
    rw [ownWarnings_of_none bits] at h
    contradiction
  | some width =>
    rw [(ownWarnings_of_some bits owner).2, List.mem_singleton] at h
    exact h ▸ rfl

/-- All findings on an aggregate are warnings. -/
theorem Aggregate.severity_of_mem_warnings {a : Aggregate} {assigned : String}
    (h : d ∈ a.warnings assigned) : d.severity = .warning := by
  rw [← a.findings_steps, (a.findings_perm_sources assigned).mem_iff, List.mem_flatMap] at h
  obtain ⟨source, -, h⟩ := h
  cases source with
  | enumeration e assigned => contradiction
  | aggregate b assigned =>
    obtain ⟨f, -, h⟩ := List.mem_flatMap.1 h
    exact Field.severity_of_mem_ownWarnings h

namespace SourceUnit

variable {u : SourceUnit} {x : Alias}

/-- On an alias that is not bound to an aggregate there is a remark or nothing. -/
theorem aliasFindings_eq_nil_or_skipped (h : u.aliasedAggregate? x = none) :
    u.aliasFindings x = [] ∨ ∃ target, u.aliasFindings x = [.aliasSkipped x.name target] := by
  rw [← findings_aliasSteps]
  rcases aliasSteps_of_unbound h with steps | ⟨target, steps⟩
  · exact .inl (by rw [steps]; rfl)
  · exact .inr ⟨target, by rw [steps]; rfl⟩

/-- No finding on an alias is an error or a hint. -/
theorem severity_of_mem_aliasFindings (h : d ∈ u.aliasFindings x) :
    d.severity = .warning ∨ d.severity = .info := by
  cases bound : u.aliasedAggregate? x with
  | some a =>
    rw [aliasFindings, bound] at h
    exact .inl (Aggregate.severity_of_mem_warnings h)
  | none =>
    rcases aliasFindings_eq_nil_or_skipped bound with none | ⟨target, skipped⟩
    · simp [none] at h
    · rw [skipped, List.mem_singleton] at h
      exact .inr (h ▸ rfl)

/-- The warnings on an alias are those about the bit-fields of the structures in its block. -/
theorem warnings_aliasFindings_perm (u : SourceUnit) (x : Alias) :
    ((u.aliasFindings x).filter (·.severity = .warning)).Perm
      ((Walk.sources (u.aliasSteps x)).flatMap Source.ownWarnings) := by
  cases bound : u.aliasedAggregate? x with
  | some a =>
    have all : (a.warnings x.name).filter (·.severity = .warning) = a.warnings x.name :=
      List.filter_eq_self.2 fun d hd ↦ by simpa using Aggregate.severity_of_mem_warnings hd
    rw [aliasFindings, bound, aliasSteps_of_bound bound, all, ← a.findings_steps]
    exact a.findings_perm_sources x.name
  | none =>
    rw [← findings_aliasSteps]
    rcases aliasSteps_of_unbound bound with steps | ⟨target, steps⟩ <;> rw [steps]
    · exact .nil
    · exact .nil

/-- The warnings of the aliases are those about the bit-fields of the emitted structures. -/
theorem warnings_perm_sources (u : SourceUnit) :
    ((u.aliases.flatMap u.aliasFindings).filter (·.severity = .warning)).Perm
      (u.sources.flatMap Source.ownWarnings) := by
  rw [List.filter_flatMap, sources, steps, Walk.sources_flatMap, List.flatMap_assoc]
  exact List.Perm.flatMap_left _ fun x _ ↦ u.warnings_aliasFindings_perm x

/-- A warning on an alias is the one about a bit-field of an emitted structure. -/
theorem exists_bitField_of_warning (h : d ∈ u.aliases.flatMap u.aliasFindings)
    (warning : d.severity = .warning) :
    ∃ (position : Nat) (b : Aggregate) (assigned : String) (f : Field) (width : UInt32),
      u.sources[position]? = some (.aggregate b assigned) ∧ f ∈ b.fields ∧
        f.bitWidth = some width ∧ f.ownWarnings assigned = [d] := by
  have member : d ∈ u.sources.flatMap Source.ownWarnings :=
    u.warnings_perm_sources.mem_iff.1 (List.mem_filter.2 ⟨h, by simpa using warning⟩)
  obtain ⟨source, hs, hd⟩ := List.mem_flatMap.1 member
  obtain ⟨position, at_position⟩ := List.getElem?_of_mem hs
  cases source with
  | enumeration e assigned => contradiction
  | aggregate b assigned =>
    obtain ⟨f, hf, hd⟩ := List.mem_flatMap.1 hd
    cases bits : f.bitWidth with
    | none =>
      rw [Field.ownWarnings_of_none bits] at hd
      contradiction
    | some width =>
      have ⟨_, only⟩ := Field.ownWarnings_of_some bits assigned
      rw [only, List.mem_singleton] at hd
      exact ⟨position, b, assigned, f, width, at_position, hf, bits, hd ▸ only⟩

section

variable {c : Compilation} (h : u.compile false = .ok c)

include h

/-- The findings of a run are those on the aliases, and then those on the forward references. -/
theorem entries_of_compile :
    c.diagnostics.entries =
      u.aliases.flatMap u.aliasFindings
        ++ c.register.forwardReferences.map Diagnostic.forwardReference := by
  obtain ⟨rfl, -⟩ := eq_compilation_of_compile h
  rw [List.flatMap_def, ← findingLists, ← findings_steps]
  rfl

/-- The units of a run are what its sources become. -/
theorem units_of_compile : c.register.units = u.sources.map Source.toUnit := by
  obtain ⟨rfl, -⟩ := eq_compilation_of_compile h
  rfl

/-- No finding of a run is an error or a hint. -/
theorem severity_of_compile :
    ∀ d ∈ c.diagnostics.entries, d.severity = .warning ∨ d.severity = .info := by
  intro d hd
  rw [entries_of_compile h, List.mem_append, List.mem_flatMap] at hd
  rcases hd with ⟨x, -, hd⟩ | hd
  · exact severity_of_mem_aliasFindings hd
  · obtain ⟨r, -, rfl⟩ := List.mem_map.1 hd
    exact .inl rfl

end

/-- The findings of a compilation are those on its aliases, in order, and then one for each forward
reference of its register.

On an alias that is bound to an aggregate there are the warnings about the aggregate, on an alias
for an undeclared name there is a remark, and on any other there is nothing. The warnings about an
aggregate follow its fields: first those about the aggregate that a field refers to, and then, if
the field is a bit-field, one with the type of the flat field that it became. So there is one for
each bit-field of an emitted structure.

The forward references are in the order of the units and their fields, and are exactly those that
hold in the register. -/
theorem findings_complete {u : SourceUnit} {c : Compilation} (h : u.compile false = .ok c) :
    c.diagnostics.entries =
        u.aliases.flatMap u.aliasFindings
          ++ c.register.forwardReferences.map Diagnostic.forwardReference ∧
      -- the aliases
      (∀ x ∈ u.aliases,
        (∀ a, u.BoundTo x.target a → u.aliasFindings x = a.warnings x.name) ∧
        (∀ target, x.target = .type (.named target) → u.Undeclared target →
          u.aliasFindings x = [
            { severity := .info
              code := .aliasSkipped
              message :=
                s!"Type alias '{x.name}' names '{target}', which is not defined here; skipped"
              location := some x.name
              notes := [] }]) ∧
        ((∀ a, ¬ u.BoundTo x.target a) →
          (∀ target, x.target = .type (.named target) → ¬ u.Undeclared target) →
            u.aliasFindings x = [])) ∧
      -- the fields of an aggregate
      (∀ (a : Aggregate) (assigned : String),
        a.warnings assigned = a.fields.flatMap fun f ↦
          (match f.type with
            | .nested i =>
              match a.declarations[i.toNat]? with
              | some (.aggregate b) => b.warnings (assigned ++ "_" ++ f.name)
              | _ => []
            | _ => []) ++ f.ownWarnings assigned) ∧
      (∀ (f : Field) (owner : String), f.bitWidth = none → f.ownWarnings owner = []) ∧
      (∀ (f : Field) (owner : String) (width : UInt32), f.bitWidth = some width →
        ∃ g, f.flatFields owner = [g] ∧ f.ownWarnings owner = [{
          severity := .warning
          code := .bitFieldFlattened
          message :=
            s!"Bit-field '{f.name}' ({width.toNat} bits) lowered as a plain '{g.typeName}' field; "
              ++ "width and offset are not preserved"
          location := some s!"{owner}.{f.name}"
          notes := [] }]) ∧
      -- the emitted structures
      c.register.units = u.sources.map Source.toUnit ∧
      ((u.aliases.flatMap u.aliasFindings).filter (·.severity = .warning)).Perm
        (u.sources.flatMap Source.ownWarnings) ∧
      (∀ d ∈ u.aliases.flatMap u.aliasFindings, d.severity = .warning →
        ∃ (position : Nat) (b : Aggregate) (assigned : String) (f : Field) (width : UInt32)
          (g : FlatField), c.register.units[position]? = some (.struct (b.flat assigned)) ∧
            f ∈ b.fields ∧ f.bitWidth = some width ∧ f.flatFields assigned = [g] ∧
              g ∈ (b.flat assigned).fields ∧ f.ownWarnings assigned = [d]) ∧
      -- the forward references
      (c.register.forwardReferences = c.register.units.zipIdx.flatMap fun (v, position) ↦
        v.fields.filterMap (c.register.forwardReference? v position)) ∧
      (∀ r : ForwardReference, r ∈ c.register.forwardReferences ↔ r.HoldsIn c.register) ∧
      (∀ r : ForwardReference, Diagnostic.forwardReference r =
        { severity := .warning
          code := .forwardReference
          message :=
           s!"Field '{r.field}' of '{r.structureName}' uses '{r.target}', which is emitted after it"
          location := some s!"{r.structureName}.{r.field}"
          notes := [
           s!"'{r.structureName}' is unit #{r.position}, '{r.target}' is unit #{r.targetPosition}"]
        }) ∧
      ∀ d ∈ c.diagnostics.entries, d.severity = .warning ∨ d.severity = .info := by
  refine ⟨entries_of_compile h, fun x _ ↦ ⟨fun a ↦ aliasFindings_of_boundTo,
      fun target ↦ aliasFindings_of_undeclared, aliasFindings_of_unbound⟩,
    Aggregate.warnings_eq_flatMap, fun f owner bits ↦ Field.ownWarnings_of_none bits owner,
    fun f owner width bits ↦ ⟨_, Field.ownWarnings_of_some bits owner⟩, units_of_compile h,
    u.warnings_perm_sources, fun d hd warning ↦ ?_, rfl,
    fun r ↦ Register.mem_forwardReferences_iff_holdsIn, fun r ↦ rfl, severity_of_compile h⟩
  obtain ⟨position, b, assigned, f, width, source, hf, bits, own⟩ :=
    exists_bitField_of_warning hd warning
  have unit : c.register.units[position]? = some (.struct (b.flat assigned)) := by
    rw [units_of_compile h, List.getElem?_map, source]
    rfl
  have ⟨single, _⟩ := Field.ownWarnings_of_some bits assigned
  have emitted : f.flatSingle assigned ∈ (b.flat assigned).fields :=
    List.mem_flatMap.2 ⟨f, hf, by rw [single]; exact List.mem_cons_self⟩
  exact ⟨position, b, assigned, f, width, _, unit, hf, bits, single, emitted, own⟩

/-- Two fields share a nested structure with a bit-field, and one of them is a bit-field itself; a
third embeds a unit that comes later; the last alias is not declared anywhere. -/
def sharedFlags : SourceUnit where
  aliases :=
    [{ name := "S"
       target := .aggregate
        { fields :=
            [{ name := "a", type := .nested 0 },
              { name := "b", type := .nested 0, bitWidth := some 2 },
              { name := "x", type := .named "X" }]
          declarations :=
            [.aggregate
              { fields := [{ name := "on", type := .primitive .uint, bitWidth := some 1 }] }] } },
      { name := "X", target := .aggregate {} },
      { name := "Y", target := .type (.named "Z") }]

theorem findings_of_sharedFlags :
    sharedFlags.compile false = .ok sharedFlags.compilation ∧
      sharedFlags.compilation.diagnostics.entries =
        [{ severity := .warning, code := .bitFieldFlattened, location := some "S_a.on"
           message := "Bit-field 'on' (1 bits) lowered as a plain 'uint' field; "
              ++ "width and offset are not preserved" },
          { severity := .warning, code := .bitFieldFlattened, location := some "S_b.on"
            message := "Bit-field 'on' (1 bits) lowered as a plain 'uint' field; "
              ++ "width and offset are not preserved" },
          { severity := .warning, code := .bitFieldFlattened, location := some "S.b"
            message := "Bit-field 'b' (2 bits) lowered as a plain 'S_b' field; "
              ++ "width and offset are not preserved" },
          { severity := .info, code := .aliasSkipped, location := some "Y"
            message := "Type alias 'Y' names 'Z', which is not defined here; skipped" },
          { severity := .warning, code := .forwardReference, location := some "S.x"
            message := "Field 'x' of 'S' uses 'X', which is emitted after it"
            notes := ["'S' is unit #2, 'X' is unit #3"] }] ∧
      sharedFlags.compilation.diagnostics.entries.map (fun d ↦ (d.code.number, d.code.name)) =
        [(1001, "BitFieldFlattened"), (1001, "BitFieldFlattened"), (1001, "BitFieldFlattened"),
          (2001, "AliasSkipped"), (3001, "ForwardReference")] := by
  have accepted : sharedFlags.compile false = .ok sharedFlags.compilation := rfl
  have entries := (findings_complete accepted).1
  exact ⟨accepted, entries, congrArg (List.map _) entries⟩

end SourceUnit

end FlatDecls
