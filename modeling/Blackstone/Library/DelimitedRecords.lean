import Blackstone.Library.Delimited

/-!
# Records with a tail

A record of a few fields and any number of further ones is written with a delimiter between all of
them. Fields without delimiters are read back one after the other (`getline_join`), and a loop that
skips empty fields reads the ones behind them (`filter_getlines_join`).
-/

namespace Blackstone.Delimited

variable {α : Type} [DecidableEq α] {d : α} {field : List α} {fields : List (List α)}

/-- A first field is read back, and the other fields are left. -/
theorem getline_join (hfield : d ∉ field) (fields : List (List α)) :
    getline d (join d (field :: fields)) = (field, join d fields) := by
  cases fields with
  | nil => exact getline_all hfield
  | cons next fields => exact getline_append_cons hfield _

/-- The loop over the other fields reads those that are not empty. -/
theorem filter_getlines_join (hfields : ∀ field ∈ fields, d ∉ field) {rounds : ℕ}
    (hrounds : (join d fields).length ≤ rounds) :
    (getlines d rounds (join d fields)).filter (· ≠ []) = fields.filter (· ≠ []) := by
  induction fields with
  | nil =>
    have hnil : join d ([] : List (List α)) = [] := rfl
    rw [getlines_eq _ _ hrounds, if_pos hnil]
  | cons field fields ih =>
    have hfield := hfields field List.mem_cons_self
    have hrest := ih fun f hf => hfields f (List.mem_cons_of_mem _ hf)
    have hline := getline_join hfield fields
    by_cases hnil : join d (field :: fields) = []
    · have hempty : field = [] ∧ fields = [] := by
        cases fields with
        | nil => exact ⟨hnil, rfl⟩
        | cons next fields =>
          simp only [join] at hnil
          exact absurd hnil (by simp)
      rw [hempty.1, hempty.2, getlines_eq _ _ (Nat.zero_le _), if_pos (by rfl)]
      rfl
    · have hlt := length_getline_lt (d := d) hnil
      rw [getlines_eq _ _ hrounds, if_neg hnil, hline]
      simp only [hline] at hlt
      rw [List.filter_cons, List.filter_cons, hrest (by omega)]

end Blackstone.Delimited
