import Mathlib.Data.List.Pairwise
import Mathlib.Tactic.SplitIfs

namespace uffs.lib

/-- The first position from `cur` on, below `total`, that is not `p`. -/
@[grind] def advance (p : Nat → Bool) (total : Nat) : Nat → Nat → Nat
  | 0, cur => cur
  | fuel + 1, cur => if cur < total then if p cur then advance p total fuel (cur + 1) else cur else cur

/-- The maximal runs of positions from `cur` on, below `total`, that are `p`: start and length. -/
@[grind] def runs (p : Nat → Bool) (total : Nat) : Nat → Nat → List (Nat × Nat)
  | 0, _ => []
  | fuel + 1, cur =>
    let start := advance (fun pos => !p pos) total total cur
    if total ≤ start then []
    else
      let stop := advance p total total start
      (start, stop - start) :: runs p total fuel stop

variable {p : Nat → Bool} {total : Nat}

theorem le_advance (fuel cur : Nat) : cur ≤ advance p total fuel cur := by
  induction fuel generalizing cur with
  | zero => simp [advance]
  | succ fuel ih =>
    rw [advance]
    split_ifs
    · have := ih (cur + 1)
      omega
    · omega
    · omega

/-- Everything passed over is `p`. -/
theorem of_lt_advance {fuel cur pos : Nat} (hle : cur ≤ pos) (hlt : pos < advance p total fuel cur) : p pos = true := by
  induction fuel generalizing cur with
  | zero =>
    simp only [advance] at hlt
    omega
  | succ fuel ih =>
    rw [advance] at hlt
    split_ifs at hlt with hcur hp
    · rcases Nat.lt_or_eq_of_le hle with h | rfl
      · exact ih h hlt
      · exact hp
    · omega
    · omega

/-- With enough fuel the stop is at the end or at a position that is not `p`. -/
theorem advance_stops {fuel cur : Nat} (hfuel : total ≤ fuel + cur) (hstop : advance p total fuel cur < total) :
    p (advance p total fuel cur) = false := by
  induction fuel generalizing cur with
  | zero =>
    simp only [advance] at hstop
    omega
  | succ fuel ih =>
    rw [advance] at hstop ⊢
    split_ifs at hstop ⊢ with hcur hp
    · exact ih (by omega) hstop
    · simpa using hp
    · exact absurd hstop hcur

theorem lt_advance {fuel cur : Nat} (hlt : cur < total) (hp : p cur = true) (hfuel : 0 < fuel) : cur < advance p total fuel cur := by
  obtain ⟨fuel, rfl⟩ := Nat.exists_eq_succ_of_ne_zero (Nat.ne_of_gt hfuel)
  rw [advance, if_pos hlt, if_pos hp]
  exact le_advance fuel (cur + 1)

theorem mem_runs {fuel cur : Nat} {run : Nat × Nat} (h : run ∈ runs p total fuel cur) : cur ≤ run.1 := by
  induction fuel generalizing cur with
  | zero => simp [runs] at h
  | succ fuel ih =>
    have hstart := @le_advance (fun pos => !p pos) total total cur
    simp only [runs] at h
    split_ifs at h with hend
    · simp at h
    · rcases List.mem_cons.mp h with rfl | h
      · exact hstart
      · have hstop := @le_advance p total total (advance (fun pos => !p pos) total total cur)
        have := ih h
        omega

/-- The runs come in order and apart from each other. -/
theorem runs_pairwise (fuel cur : Nat) : (runs p total fuel cur).Pairwise fun one other => one.1 + one.2 ≤ other.1 := by
  induction fuel generalizing cur with
  | zero => simp [runs]
  | succ fuel ih =>
    simp only [runs]
    split_ifs with hend
    · exact List.Pairwise.nil
    · apply List.Pairwise.cons _ (ih _)
      intro other hother
      have hstop := @le_advance p total total (advance (fun pos => !p pos) total total cur)
      have := mem_runs hother
      omega

/-- Every position that is `p` is in a run. -/
theorem exists_run {fuel cur pos : Nat} (hfuel : total ≤ fuel + cur) (hle : cur ≤ pos) (hlt : pos < total) (hp : p pos = true) :
    ∃ run ∈ runs p total fuel cur, run.1 ≤ pos ∧ pos < run.1 + run.2 := by
  induction fuel generalizing cur with
  | zero => omega
  | succ fuel ih =>
    simp only [runs]
    have hstart : advance (fun pos => !p pos) total total cur ≤ pos := by
      by_contra hnot
      have := @of_lt_advance (fun pos => !p pos) total total cur pos hle (by omega)
      simp [hp] at this
    have hle' := @le_advance (fun pos => !p pos) total total cur
    have hfirst := @advance_stops (fun pos => !p pos) total total cur (by omega) (by omega)
    generalize advance (fun pos => !p pos) total total cur = start at *
    rw [if_neg (by omega)]
    have hstop : start < advance p total total start := lt_advance (by omega) (by simpa using hfirst) (by omega)
    by_cases hin : pos < advance p total total start
    · exact ⟨_, List.mem_cons_self, hstart, by dsimp only; omega⟩
    · obtain ⟨run, hmem, hrun⟩ := ih (by omega) (Nat.le_of_not_lt hin)
      exact ⟨run, List.mem_cons_of_mem _ hmem, hrun⟩

end uffs.lib
