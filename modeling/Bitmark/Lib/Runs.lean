import Mathlib.Data.List.Infix
import Mathlib.Data.List.Induction

/-!
# Runs of marks

A scan of a list of marks for a run of `k` set ones in a row, which counts the run it is in,
starts again at a gap and keeps its count once a run of `k` has ended. It finds out whether
there is such a run, and otherwise ends with the length of the run the list ends in.
-/

namespace Runs

/-- One mark of the scan: the count, and whether a long run has ended. -/
def step (k : Nat) (s : Nat × Bool) : Bool → Nat × Bool
  | false => if s.1 < k then (0, s.2) else (s.1, true)
  | true => if s.2 then s else (s.1 + 1, s.2)

/-- The scan of a list. -/
def scan (k : Nat) (ms : List Bool) : Nat × Bool := ms.foldl (step k) (0, false)

/-- The length of the run a list ends in. -/
def openRun (ms : List Bool) : Nat := (ms.reverse.takeWhile id).length

theorem scan_concat (k : Nat) (ms : List Bool) (m : Bool) :
    scan k (ms ++ [m]) = step k (scan k ms) m := by
  simp [scan]

@[simp] theorem openRun_concat_true (ms : List Bool) :
    openRun (ms ++ [true]) = openRun ms + 1 := by
  simp [openRun]

@[simp] theorem openRun_concat_false (ms : List Bool) : openRun (ms ++ [false]) = 0 := by
  simp [openRun]

private theorem replicate_prefix_iff (k : Nat) (ms : List Bool) :
    List.replicate k true <+: ms ↔ k ≤ (ms.takeWhile id).length := by
  induction ms generalizing k with
  | nil =>
    rw [List.prefix_nil, List.replicate_eq_nil_iff]
    exact Nat.le_zero.symm
  | cons m ms ih =>
    cases k with
    | zero => simp
    | succ k =>
      cases m with
      | false => simp [List.replicate_succ]
      | true => simp [List.replicate_succ, ih]

theorem replicate_suffix_iff (k : Nat) (ms : List Bool) :
    List.replicate k true <:+ ms ↔ k ≤ openRun ms := by
  rw [← List.reverse_prefix, List.reverse_replicate, replicate_prefix_iff]
  rfl

/-- What a scan knows: a long run has ended, or it is in the last run and knows its length. -/
theorem scan_spec {k : Nat} (hk : 0 < k) (ms : List Bool) :
    ((scan k ms).2 = true ∧ k ≤ (scan k ms).1 ∧ List.replicate k true <:+: ms) ∨
      ((scan k ms).2 = false ∧ (scan k ms).1 = openRun ms ∧
        (List.replicate k true <:+: ms ↔ k ≤ openRun ms)) := by
  induction ms using List.reverseRecOn with
  | nil =>
    right
    refine ⟨rfl, rfl, ?_⟩
    rw [List.infix_nil, List.replicate_eq_nil_iff]
    exact Nat.le_zero.symm
  | append_singleton ms m ih =>
    rw [scan_concat, List.infix_concat_iff, replicate_suffix_iff]
    rcases ih with ⟨hdone, hlong, hinfix⟩ | ⟨hopen, hlength, hiff⟩
    · left
      cases m with
      | false => simp [step, hlong.not_gt, hlong, hinfix]
      | true => simp [step, hdone, hlong, hinfix]
    · cases m with
      | true =>
        right
        refine ⟨by simp [step, hopen], by simp [step, hopen, hlength], ?_⟩
        rw [hiff, openRun_concat_true]
        omega
      | false =>
        rw [openRun_concat_false]
        by_cases hlong : k ≤ openRun ms
        · left
          have hnot : ¬ (scan k ms).1 < k := by omega
          simp only [step, hnot, if_false]
          exact ⟨trivial, by omega, .inr (hiff.mpr hlong)⟩
        · right
          have hlt : (scan k ms).1 < k := by omega
          simp only [step, hlt, if_true]
          refine ⟨hopen, trivial, ?_⟩
          rw [hiff]
          omega

/-- The scan counts to `k` exactly when there is a run of `k`. -/
theorem le_scan_iff {k : Nat} (hk : 0 < k) (ms : List Bool) :
    k ≤ (scan k ms).1 ↔ List.replicate k true <:+: ms := by
  rcases scan_spec hk ms with ⟨-, hlong, hinfix⟩ | ⟨-, hlength, hiff⟩
  · exact iff_of_true hlong hinfix
  · rw [hlength, hiff]

end Runs
