import Mathlib.Order.Nat

/-!
# Counting in fixed windows

Grants are counted from the start of a window of length `w`. The first request after the end of a
window starts the next one, and a window gives `m` grants. An interval of the same length can meet
two windows and no third one: it has at most `2 * m` grants.

The times of the grants are a list; nothing is said about its order.
-/

namespace Blackstone.FixedWindow

/-- How many of the grants lie between two times, both taken. -/
def countWithin (grants : List ℕ) (first last : ℕ) : ℕ :=
  grants.countP fun s => decide (first ≤ s ∧ s ≤ last)

/-- How many of the grants are not earlier than a time. -/
def countFrom (grants : List ℕ) (first : ℕ) : ℕ := grants.countP fun s => decide (first ≤ s)

/-- How many of the grants lie between two times, the second one not taken. -/
def countBefore (grants : List ℕ) (first last : ℕ) : ℕ :=
  grants.countP fun s => decide (first ≤ s ∧ s < last)

/-- The grants, when a window from `start` has counted to `count`. -/
structure Windowed (m w : ℕ) (grants : List ℕ) (start count : ℕ) : Prop where
  within : ∀ t, countWithin grants t (t + w) ≤ 2 * m
  before : ∀ t, start ≤ t + w → countBefore grants t start ≤ m
  counted : countFrom grants start ≤ count
  bounded : countFrom grants start ≤ m
  ended : ∀ s ∈ grants, s ≤ start + w

/-- No window is open at `now`: there was none, or the last one is over. -/
def Idle (m w : ℕ) (grants : List ℕ) (now : ℕ) : Prop :=
  grants = [] ∨ ∃ start count, Windowed m w grants start count ∧ start + w < now

variable {m w start count now : ℕ} {grants : List ℕ}

theorem countP_le_add {p q r : ℕ → Bool} (h : ∀ s, p s → q s ∨ r s) :
    grants.countP p ≤ grants.countP q + grants.countP r := by
  induction grants with
  | nil => exact Nat.zero_le _
  | cons s grants ih =>
    rw [List.countP_cons, List.countP_cons, List.countP_cons]
    by_cases hp : p s
    · rcases h s hp with hq | hr
      · rw [if_pos hp, if_pos hq]
        omega
      · rw [if_pos hp, if_pos hr]
        omega
    · rw [if_neg hp]
      omega

/-- A window starts with nothing counted. -/
theorem windowed_nil (m w start : ℕ) : Windowed m w [] start 0 where
  within _ := Nat.zero_le _
  before _ _ := Nat.zero_le _
  counted := Nat.zero_le _
  bounded := Nat.zero_le _
  ended := by simp

/-- A request that is refused. -/
theorem Windowed.refuse (h : Windowed m w grants start count) :
    Windowed m w grants start (count + 1) :=
  { h with counted := h.counted.trans (Nat.le_succ count) }

/-- The next window, when the last one is over. -/
theorem Windowed.restart (h : Windowed m w grants start count) (hover : start + w < now) :
    Windowed m w grants now 0 := by
  have hnone : countFrom grants now = 0 := by
    rw [countFrom, List.countP_eq_zero]
    intro s hs hnow
    have hend := h.ended s hs
    rw [decide_eq_true_iff] at hnow
    omega
  refine ⟨h.within, ?_, hnone.le, hnone.le.trans (Nat.zero_le m), ?_⟩
  · -- an interval that reaches `now` begins after the start of the last window
    intro t ht
    refine Nat.le_trans ?_ h.bounded
    apply List.countP_mono_left
    intro s _ hs
    rw [decide_eq_true_iff] at hs ⊢
    omega
  · intro s hs
    have hend := h.ended s hs
    omega

/-- One more grant, while the window is open and has one left. -/
theorem Windowed.grant (h : Windowed m w grants start count) (hstart : start ≤ now)
    (hopen : now ≤ start + w) (hleft : count < m) :
    Windowed m w (now :: grants) start (count + 1) := by
  have hfrom : countFrom (now :: grants) start ≤ count + 1 := by
    rw [countFrom, List.countP_cons, decide_eq_true hstart]
    exact Nat.succ_le_succ h.counted
  refine ⟨?_, ?_, hfrom, hfrom.trans hleft, ?_⟩
  · intro t
    by_cases hnow : t ≤ now ∧ now ≤ t + w
    · -- what the interval has before the open window is of one window
      have hsplit : countWithin (now :: grants) t (t + w) ≤
          countBefore (now :: grants) t start + countFrom (now :: grants) start := by
        apply countP_le_add
        intro s hs
        rw [decide_eq_true_iff] at hs
        rw [decide_eq_true_iff, decide_eq_true_iff]
        omega
      have hbefore : countBefore (now :: grants) t start = countBefore grants t start := by
        apply List.countP_cons_of_neg
        rw [decide_eq_true_iff]
        omega
      have hold := h.before t (by omega)
      omega
    · have hout : countWithin (now :: grants) t (t + w) = countWithin grants t (t + w) := by
        apply List.countP_cons_of_neg
        rwa [decide_eq_true_iff]
      rw [hout]
      exact h.within t
  · intro t ht
    have hlater : countBefore (now :: grants) t start = countBefore grants t start := by
      apply List.countP_cons_of_neg
      rw [decide_eq_true_iff]
      omega
    rw [hlater]
    exact h.before t ht
  · intro s hs
    rcases List.mem_cons.mp hs with rfl | hs
    · exact hopen
    · exact h.ended s hs

theorem Idle.opened (h : Idle m w grants now) : Windowed m w grants now 0 := by
  rcases h with rfl | ⟨start, count, hwindow, hover⟩
  · exact windowed_nil m w now
  · exact hwindow.restart hover

theorem Idle.later (h : Idle m w grants start) (hlater : start ≤ now) : Idle m w grants now := by
  rcases h with hnone | ⟨first, count, hwindow, hover⟩
  · exact Or.inl hnone
  · exact Or.inr ⟨first, count, hwindow, hover.trans_le hlater⟩

theorem Idle.within (h : Idle m w grants now) (t : ℕ) :
    countWithin grants t (t + w) ≤ 2 * m := by
  rcases h with rfl | ⟨start, count, hwindow, -⟩
  · exact Nat.zero_le _
  · exact hwindow.within t

end Blackstone.FixedWindow
