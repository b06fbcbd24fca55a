import FlatDecls.Proofs.Flattening.Performs

/-!
# Sessions

A session does operations one after the other, from nothing. An operation that fails leaves
behind what it has added before, and the session goes on from there.

The *trail* of a session is the steps that its operations do, in order. It depends on the
operations only, and the units of the session are those of its trail (`units_run`). So the trail
says of every unit what it is flattened from.
-/

namespace FlatDecls

/-- The operations that add units. -/
inductive Operation
  | register (a : Aggregate) (assigned : String)
  | flatten (a : Aggregate) (assigned : String)
  | flattenField (a : Aggregate) (assigned : String) (f : Field)
  | process (u : SourceUnit)

namespace Operation

/-- An operation as a part of a run, for what it adds only. -/
def part : Operation → Flatten Unit
  | register a assigned => do let _ ← a.register assigned
  | flatten a assigned => do let _ ← a.flatten assigned
  | flattenField a assigned f => do let _ ← a.flattenField assigned f
  | process u => u.flatten

/-- The walk of an operation. -/
def walk : Operation → Walk
  | register a assigned => a.steps assigned
  | flatten a assigned => a.bodySteps assigned
  | flattenField a assigned f => Site.steps ⟨a, assigned, f⟩
  | process u => u.steps

theorem performs_part (o : Operation) : o.part.Performs o.walk fun _ ↦ () := by
  cases o with
  | register a assigned => exact (a.performs_register assigned).map fun _ ↦ ()
  | flatten a assigned => exact (a.performs_flatten assigned).map fun _ ↦ ()
  | flattenField a assigned f => exact (a.performs_flattenField assigned f).map fun _ ↦ ()
  | process u => exact u.performs_flatten

/-- What an operation makes of the progress so far, whether it fails or not. -/
def perform (o : Operation) (p : Progress) : Progress := (o.part.runFrom p).2

end Operation

/-- Operations in order. -/
abbrev Session := List Operation

namespace Session

/-- The progress behind a session. -/
def run (s : Session) : Progress := s.foldl (fun p o ↦ o.perform p) {}

/-- The steps that a session does. -/
def trail (s : Session) : Walk := s.flatMap fun o ↦ Walk.done o.walk

/-- What the units of a session are flattened from, in order. -/
def provenance (s : Session) : List Source := Walk.sources s.trail

theorem units_foldl_perform (s : Session) (p : Progress) :
    (s.foldl (fun p o ↦ o.perform p) p).register.units =
      p.register.units ++ Walk.units s.trail := by
  induction s generalizing p with
  | nil => simp [trail, Walk.units]
  | cons o s ih =>
    rw [List.foldl_cons, ih, Operation.perform, o.performs_part.units_runFrom p]
    simp [trail]

/-- The units of a session come from its trail. -/
theorem units_run (s : Session) : s.run.register.units = s.provenance.map Source.toUnit :=
  s.units_foldl_perform {}

/-- What is done does not offend. -/
theorem offence?_of_mem_trail {s : Session} {step : Step} (h : step ∈ s.trail) :
    step.offence? = none := by
  obtain ⟨o, -, done⟩ := List.mem_flatMap.1 h
  have harmless := List.all_eq_true.1 List.all_takeWhile step done
  exact Option.isNone_iff_eq_none.1 harmless

end Session

end FlatDecls
