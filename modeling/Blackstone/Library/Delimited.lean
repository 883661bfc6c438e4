import Mathlib.Data.List.TakeWhile
import Mathlib.Tactic.Common

/-!
# Delimited text

A record is written as its fields with a delimiter between them (`join`) and read back one
field at a time (`getline`); a loop reads all fields that are left (`getlines`). A field
without delimiters is read back as it was written (`getline_append_cons`, `getline_all`).
-/

namespace Blackstone.Delimited

variable {α : Type} [DecidableEq α]

/-- The field up to the next delimiter, and what follows the delimiter. At the end of the
text the read fails and gives the empty field. -/
def getline (d : α) (text : List α) : List α × List α :=
  (text.takeWhile (· ≠ d), (text.dropWhile (· ≠ d)).tail)

/-- The fields read until a read fails, at most `rounds` of them. -/
def getlines (d : α) : Nat → List α → List (List α)
  | 0, _ => []
  | rounds + 1, text =>
    if text = [] then []
    else (getline d text).1 :: getlines d rounds (getline d text).2

omit [DecidableEq α] in
/-- The fields with a delimiter between them. -/
def join (d : α) : List (List α) → List α
  | [] => []
  | [field] => field
  | field :: fields => field ++ d :: join d fields

variable {d : α} {field : List α}

theorem forall_ne_of_not_mem (hfield : d ∉ field) : ∀ x ∈ field, decide (x ≠ d) = true := by
  intro x hx
  apply decide_eq_true
  rintro rfl
  exact hfield hx

theorem getline_append_cons (hfield : d ∉ field) (rest : List α) :
    getline d (field ++ d :: rest) = (field, rest) := by
  have hall := forall_ne_of_not_mem hfield
  rw [getline, List.takeWhile_append_of_pos hall, List.dropWhile_append_of_pos hall,
    List.takeWhile_cons_of_neg (by simp), List.dropWhile_cons_of_neg (by simp), List.append_nil,
    List.tail_cons]

theorem getline_all (hfield : d ∉ field) : getline d field = (field, []) := by
  have hall := forall_ne_of_not_mem hfield
  rw [getline, List.takeWhile_eq_self_iff.mpr hall, List.dropWhile_eq_nil_iff.mpr hall,
    List.tail_nil]

/-- The first delimiter is at one place only. -/
theorem append_cons_inj {field' rest rest' : List α} (hfield : d ∉ field) (hfield' : d ∉ field')
    (heq : field ++ d :: rest = field' ++ d :: rest') : field = field' ∧ rest = rest' := by
  have hline := congrArg (getline d) heq
  rw [getline_append_cons hfield, getline_append_cons hfield'] at hline
  exact Prod.mk.inj hline

@[simp] theorem getline_nil : getline d [] = ([], []) := rfl

theorem not_mem_getline (text : List α) : d ∉ (getline d text).1 := by
  intro hmem
  have hne := List.mem_takeWhile_imp hmem
  simp at hne

theorem length_getline_lt {text : List α} (h : text ≠ []) :
    (getline d text).2.length < text.length := by
  have hpos := List.length_pos_iff.mpr h
  have hdrop : (text.dropWhile (· ≠ d)).length ≤ text.length :=
    (List.dropWhile_sublist _).length_le
  rw [getline, List.length_tail]
  omega

/-- With enough rounds, the loop ends because a read fails. -/
theorem getlines_eq (rounds : Nat) (text : List α) (h : text.length ≤ rounds) :
    getlines d rounds text =
      if text = [] then [] else (getline d text).1 :: getlines d rounds (getline d text).2 := by
  induction rounds generalizing text with
  | zero =>
    have hnil := List.length_eq_zero_iff.mp (Nat.le_zero.mp h)
    rw [if_pos hnil, getlines]
  | succ rounds ih =>
    by_cases hnil : text = []
    · rw [if_pos hnil, getlines, if_pos hnil]
    · have hlt := length_getline_lt (d := d) hnil
      rw [getlines, if_neg hnil, if_neg hnil, ih _ (by omega)]
      congr 1

/-- Fields that end in delimiters are read back as they were written. -/
theorem getlines_flatMap {fields : List (List α)} (hfields : ∀ field ∈ fields, d ∉ field)
    {rounds : Nat} (hrounds : (fields.flatMap (· ++ [d])).length ≤ rounds) :
    getlines d rounds (fields.flatMap (· ++ [d])) = fields := by
  induction fields generalizing rounds with
  | nil => rw [List.flatMap_nil, getlines_eq _ _ (Nat.zero_le _), if_pos rfl]
  | cons field fields ih =>
    have htext : (field :: fields).flatMap (· ++ [d]) =
        field ++ d :: fields.flatMap (· ++ [d]) := by
      rw [List.flatMap_cons, List.append_assoc, List.singleton_append]
    rw [htext] at hrounds ⊢
    have hrest : (fields.flatMap (· ++ [d])).length ≤ rounds := by
      rw [List.length_append, List.length_cons] at hrounds
      omega
    have hne : field ++ d :: fields.flatMap (· ++ [d]) ≠ [] :=
      List.append_ne_nil_of_right_ne_nil _ (List.cons_ne_nil _ _)
    rw [getlines_eq _ _ hrounds, if_neg hne, getline_append_cons (hfields field List.mem_cons_self),
      ih (fun f hf => hfields f (List.mem_cons_of_mem _ hf)) hrest]

/-- When every field that the loop reads is empty, the text consists of delimiters. -/
theorem eq_of_mem_of_getlines {rounds : Nat} {text : List α} (hrounds : text.length ≤ rounds)
    (h : ∀ token ∈ getlines d rounds text, token = []) {x : α} (hx : x ∈ text) : x = d := by
  induction text with
  | nil => cases hx
  | cons y rest ih =>
    rw [getlines_eq rounds _ hrounds, if_neg (List.cons_ne_nil y rest)] at h
    have hfirst : (getline d (y :: rest)).1 = [] := h _ List.mem_cons_self
    have hy : y = d := by
      by_contra hne
      rw [getline, List.takeWhile_cons_of_pos (by simpa using hne)] at hfirst
      cases hfirst
    have hrest : getline d (y :: rest) = ([], rest) := by
      rw [hy]
      exact getline_append_cons List.not_mem_nil rest
    rcases List.mem_cons.mp hx with heq | htail
    · rw [heq, hy]
    · apply ih ((Nat.le_succ _).trans hrounds) _ htail
      intro token htoken
      apply h
      rw [hrest]
      exact List.mem_cons_of_mem _ htoken

/-- Every field that the loop reads is free of delimiters. -/
theorem not_mem_of_mem_getlines {rounds : Nat} {text token : List α}
    (h : token ∈ getlines d rounds text) : d ∉ token := by
  induction rounds generalizing text with
  | zero => cases h
  | succ rounds ih =>
    rw [getlines] at h
    split at h
    · cases h
    · rcases List.mem_cons.mp h with heq | htail
      · rw [heq]
        exact not_mem_getline text
      · exact ih htail

end Blackstone.Delimited
