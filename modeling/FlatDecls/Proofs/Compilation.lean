import FlatDecls.Compilation
import FlatDecls.Proofs.Flattening.Performs

/-!
# Compilations as walks

A run on a source unit from nothing is read off the walk over it: the first offence is its
failure, and without one the walk says which units and findings there are
(`SourceUnit.compile_false`).
-/

namespace FlatDecls

namespace SourceUnit

/-- What the units of a source unit are flattened from, in order. -/
def sources (u : SourceUnit) : List Source := Walk.sources u.steps

/-- The units and findings of a source unit in which nothing offends. -/
def compilation (u : SourceUnit) : Compilation :=
  let register : Register := ⟨u.sources.map Source.toUnit⟩
  { register
    diagnostics :=
      ⟨Walk.findings u.steps ++ register.forwardReferences.map Diagnostic.forwardReference⟩ }

/-- With warnings allowed, a run fails with the first offence or gives the compilation. -/
theorem compile_false (u : SourceUnit) :
    u.compile false =
      match Walk.offence? u.steps with
      | some e => .error (.flattening e)
      | none => .ok u.compilation := by
  obtain ⟨log, run⟩ := u.performs_flatten {}
  rw [compile, compileLogged, run, Walk.outcome]
  cases clean : Walk.offence? u.steps with
  | some e => rfl
  | none => simp [Progress.after, Progress.allDiagnostics, compilation, sources, Walk.units,
      Walk.done_of_offence?_eq_none clean]

theorem eq_compilation_of_compile {u : SourceUnit} {c : Compilation}
    (h : u.compile false = .ok c) : c = u.compilation ∧ Walk.offence? u.steps = none := by
  rw [compile_false] at h
  split at h
  next => contradiction
  next clean => exact ⟨(Except.ok.inj h).symm, clean⟩

/-- The findings with the code of a forward reference are those on the forward references of the
register, in order. -/
theorem filter_diagnostics_compilation (u : SourceUnit) :
    u.compilation.diagnostics.entries.filter (·.code = .forwardReference) =
      u.compilation.register.forwardReferences.map Diagnostic.forwardReference := by
  have own : (Walk.findings u.steps).filter (·.code = .forwardReference) = [] := by
    rw [List.filter_eq_nil_iff]
    intro d hd
    obtain ⟨step, -, found⟩ := List.mem_filterMap.1 hd
    cases step with
    | leave s =>
      obtain ⟨width, -, rfl⟩ := Option.map_eq_some_iff.1 found
      simp [Diagnostic.bitFieldFlattened, Diagnostic.warning, Diagnostic.locate]
    | skip name target =>
      obtain rfl := Option.some.inj found
      simp [Diagnostic.aliasSkipped, Diagnostic.info, Diagnostic.locate]
    | _ => contradiction
  have all (rs : List ForwardReference) :
      (rs.map Diagnostic.forwardReference).filter (·.code = .forwardReference) =
        rs.map Diagnostic.forwardReference := by
    rw [List.filter_eq_self]
    intro d hd
    obtain ⟨r, -, rfl⟩ := List.mem_map.1 hd
    rfl
  rw [compilation, List.filter_append, own, all, List.nil_append]

end SourceUnit

end FlatDecls
