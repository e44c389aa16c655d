import GoScribe.Project.Run
import Mathlib.Tactic.Common

/-!
# The stages of a run

A run makes its build directory, looks for the source and dependency directories, reads all manifests, and only
then gives the packages their turns.  It ends with a report just if every stage before the turns goes well, and
with an error it has done nothing but make the build directory.
-/

namespace GoScribe

/-- Of two stages that go well together each goes well. -/
theorem exists_of_bind_eq_ok {ε α β : Type} {x : Except ε α} {f : α → Except ε β} {b : β}
    (h : x >>= f = .ok b) : ∃ a, x = .ok a ∧ f a = .ok b := by
  cases x with
  | error e => cases h
  | ok a => exact ⟨a, rfl, h⟩

namespace RunSettings

variable {s : RunSettings} {t t' : FileTree}

/-- The stages of a run that ends with a report. -/
theorem run_eq_ok_iff {r : RunReport} :
    s.run t = (t', .ok r) ↔
      ∃ t₁ packages, makeDir t s.layout.buildDir = (t₁, .ok ()) ∧ t₁.isDir s.depsDir ∧ t₁.isDir s.srcDir ∧
        loadPackages t₁ s = .ok packages ∧
        runPackages t₁ s { onFailure := s.failFast } {} packages = (t', r) := by
  unfold run
  constructor
  · intro h
    split at h
    · cases h
    · next t₁ _ hmake =>
      split at h
      · cases h
      · next hdeps =>
        split at h
        · cases h
        · next hsrc =>
          split at h
          · cases h
          · next packages hload =>
            refine ⟨t₁, packages, hmake, by simpa using hdeps, by simpa using hsrc, hload, ?_⟩
            cases h
            rfl
  · rintro ⟨t₁, packages, hmake, hdeps, hsrc, hload, hturns⟩
    simp only [hmake, hdeps, hsrc, hload, hturns]
    rfl

/-- A run that ends with an error has made the build directory, as far as that could be made, and nothing else. -/
theorem fst_of_run_eq_error {e : Failure} (h : s.run t = (t', .error e)) :
    t' = (makeDir t s.layout.buildDir).1 := by
  unfold run at h
  split at h
  · next hmake =>
    cases h
    rw [hmake]
  · next hmake =>
    rw [hmake]
    split at h
    · exact (Prod.mk.inj h).1.symm
    · split at h
      · exact (Prod.mk.inj h).1.symm
      · split at h
        · exact (Prod.mk.inj h).1.symm
        · cases h

end RunSettings

end GoScribe
