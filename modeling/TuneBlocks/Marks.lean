/-!
# Marking keys

Searches mark the keys they have met. The number of keys not yet marked is what bounds them.
-/

namespace TuneBlocks

/-- How many of the keys are not marked. -/
def unmarked (keys marked : List String) : Nat := (keys.filter (· ∉ marked)).length

/-- Marking one key more leaves fewer unmarked. -/
theorem unmarked_lt {keys marked marked' : List String} {key : String}
    (hsub : ∀ k ∈ marked, k ∈ marked') (hkey : key ∈ keys) (hnew : key ∉ marked)
    (hmark : key ∈ marked') : unmarked keys marked' < unmarked keys marked := by
  have hfilter : keys.filter (· ∉ marked') =
      (keys.filter (· ∉ marked)).filter (· ∉ marked') := by
    rw [List.filter_filter]
    apply List.filter_congr
    intro k _
    by_cases h : k ∈ marked'
    · simp [h]
    · have : k ∉ marked := fun h' => h (hsub k h')
      simp [h, this]
  unfold unmarked
  rw [hfilter, List.length_filter_lt_length_iff_exists]
  refine ⟨key, ?_, by simpa using hmark⟩
  simpa [hnew] using hkey

end TuneBlocks
