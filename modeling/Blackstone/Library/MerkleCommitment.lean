import Blackstone.Library.Merkle

/-!
# What the top of a padded Merkle tree determines

The loop `topLevel` run on trees instead of values builds the padded tree over a list of
leaves (`paddedTree`), and the value of that tree is the top (`eval_paddedTree`). Where
combining is injective on the pairs that are combined, two tops are equal exactly when one
tree is the other one cut off at some height (`eval_eq_iff_cut`). Lists of the same length
have trees of the same depth, and then the leaves are equal (`eq_of_cut`).
-/

namespace Blackstone.Merkle

/-- A binary tree. -/
inductive HashTree (α : Type) where
  | leaf (x : α)
  | node (left right : HashTree α)

namespace HashTree

variable {α : Type} (combine : α → α → α)

/-- The value at the root. -/
def eval : HashTree α → α
  | leaf x => x
  | node left right => combine (eval left) (eval right)

/-- The pairs of values that are combined. -/
def pairs : HashTree α → List (α × α)
  | leaf _ => []
  | node left right => (eval combine left, eval combine right) :: (pairs left ++ pairs right)

/-- The tree down to a depth, with the values of the subtrees there as leaves. -/
def cut : Nat → HashTree α → HashTree α
  | 0, t => leaf (eval combine t)
  | _ + 1, leaf x => leaf x
  | k + 1, node left right => node (cut k left) (cut k right)

/-- All leaves have the same depth. -/
def Perfect : Nat → HashTree α → Prop
  | 0, leaf _ => True
  | d + 1, node left right => Perfect d left ∧ Perfect d right
  | _, _ => False

/-- The leaves from left to right. -/
def leaves : HashTree α → List α
  | leaf x => [x]
  | node left right => leaves left ++ leaves right

variable {combine}

theorem eval_cut (k : Nat) (t : HashTree α) : eval combine (cut combine k t) = eval combine t := by
  induction t generalizing k with
  | leaf x => cases k <;> rfl
  | node left right ihl ihr =>
    cases k with
    | zero => rfl
    | succ k => rw [cut, eval, ihl, ihr, eval]

/-- A tree that is cut without losing depth is not changed. -/
theorem cut_eq_self {d k : Nat} {t : HashTree α} (h : Perfect d t)
    (hcut : Perfect d (cut combine k t)) : cut combine k t = t := by
  induction t generalizing d k with
  | leaf x => cases k <;> rfl
  | node left right ihl ihr =>
    cases d with
    | zero => exact h.elim
    | succ d =>
      cases k with
      | zero => exact hcut.elim
      | succ k => rw [cut, ihl h.1 hcut.1, ihr h.2 hcut.2]

/-- Combining is injective between the pairs of two lists. -/
def InjectiveOn (combine : α → α → α) (ps qs : List (α × α)) : Prop :=
  ∀ p ∈ ps, ∀ q ∈ qs, combine p.1 p.2 = combine q.1 q.2 → p = q

/-- Equal values of perfect trees: the less deep one is the other one, cut. -/
theorem eq_cut_of_eval_eq {d k : Nat} {s t : HashTree α} (hs : Perfect k s) (ht : Perfect (k + d) t)
    (hinj : InjectiveOn combine (pairs combine s) (pairs combine t))
    (h : eval combine s = eval combine t) : s = cut combine k t := by
  induction s generalizing k t with
  | leaf x =>
    cases k with
    | zero => rw [cut, ← h, eval]
    | succ k => exact hs.elim
  | node left right ihl ihr =>
    cases k with
    | zero => exact hs.elim
    | succ k =>
      rw [Nat.succ_add] at ht
      match t with
      | leaf x => exact ht.elim
      | node left' right' =>
        obtain ⟨hleft, hright⟩ := Prod.mk.inj
          (hinj _ List.mem_cons_self _ List.mem_cons_self h)
        rw [cut, ← ihl hs.1 ht.1 ?_ hleft, ← ihr hs.2 ht.2 ?_ hright]
        · intro p hp q hq
          exact hinj p (List.mem_cons_of_mem _ (List.mem_append_right _ hp)) q
            (List.mem_cons_of_mem _ (List.mem_append_right _ hq))
        · intro p hp q hq
          exact hinj p (List.mem_cons_of_mem _ (List.mem_append_left _ hp)) q
            (List.mem_cons_of_mem _ (List.mem_append_left _ hq))

end HashTree

open HashTree

variable {α : Type} (combine : α → α → α)

/-! ## The loop on trees -/

theorem padLevel_map {β : Type} (f : α → β) (level : List α) :
    padLevel (level.map f) = (padLevel level).map f := by
  unfold padLevel
  rw [List.length_map]
  split
  · rw [List.map_append, List.getLast?_map]
    cases level.getLast? <;> rfl
  · rfl

theorem pairUp_map (level : List (HashTree α)) :
    pairUp combine (level.map (eval combine)) = (pairUp node level).map (eval combine) := by
  induction level using pairUp.induct with
  | case1 s t rest ih => rw [List.map_cons, List.map_cons, pairUp, ih, pairUp, List.map_cons, eval]
  | case2 level hshort =>
    obtain rfl | ⟨x, rfl⟩ := eq_nil_or_singleton hshort
    · rfl
    · rfl

theorem nextLevel_map (level : List (HashTree α)) :
    nextLevel combine (level.map (eval combine)) = (nextLevel node level).map (eval combine) := by
  rw [nextLevel, padLevel_map, pairUp_map, nextLevel]

/-- Evaluating trees commutes with the loop. -/
theorem topLevel_map (fuel : Nat) (level : List (HashTree α)) :
    topLevel combine fuel (level.map (eval combine)) =
      (topLevel node fuel level).map (eval combine) := by
  induction fuel generalizing level with
  | zero => rfl
  | succ fuel ih =>
    rw [topLevel, topLevel, List.length_map]
    split
    · rw [nextLevel_map, ih]
    · rfl

/-- The padded tree over a list of leaves. -/
def paddedTree [Inhabited α] (xs : List α) : HashTree α :=
  (topLevel node xs.length (xs.map leaf))[0]?.getD (leaf default)

/-- The top of a list. -/
theorem topLevel_eq_paddedTree [Inhabited α] {xs : List α} (hne : xs ≠ []) :
    topLevel node xs.length (xs.map leaf) = [paddedTree xs] := by
  have hone : (topLevel node xs.length (xs.map leaf)).length = 1 := by
    apply length_topLevel
    · rw [List.length_map]
      exact List.length_pos_iff.mpr hne
    · rw [List.length_map]
  obtain ⟨t, ht⟩ := List.length_eq_one_iff.mp hone
  rw [paddedTree, ht]
  rfl

theorem eval_paddedTree [Inhabited α] {xs : List α} (hne : xs ≠ []) :
    topLevel combine xs.length xs = [eval combine (paddedTree xs)] := by
  have hmap := topLevel_map combine xs.length (xs.map leaf)
  rw [topLevel_eq_paddedTree hne, List.map_map] at hmap
  have hid : xs.map (eval combine ∘ leaf) = xs := List.map_id xs
  rwa [hid] at hmap

/-! ## Depth -/

/-- The number of rounds that the loop takes for `n` nodes. -/
def rounds : Nat → Nat → Nat
  | 0, _ => 0
  | fuel + 1, n => if n > 1 then rounds fuel ((n + 1) / 2) + 1 else 0

theorem perfect_of_mem_pairUp {d : Nat} {level : List (HashTree α)} (h : ∀ t ∈ level, Perfect d t)
    {t : HashTree α} (ht : t ∈ pairUp node level) : Perfect (d + 1) t := by
  induction level using pairUp.induct with
  | case1 x y rest ih =>
    rcases List.mem_cons.mp ht with rfl | hrest
    · exact ⟨h x List.mem_cons_self, h y (List.mem_cons_of_mem _ List.mem_cons_self)⟩
    · exact ih (fun s hs => h s (List.mem_cons_of_mem _ (List.mem_cons_of_mem _ hs))) hrest
  | case2 level hshort =>
    obtain rfl | ⟨x, rfl⟩ := eq_nil_or_singleton hshort
    · cases ht
    · cases ht

theorem perfect_of_mem_topLevel (fuel : Nat) {d : Nat} {level : List (HashTree α)}
    (h : ∀ t ∈ level, Perfect d t) {t : HashTree α} (ht : t ∈ topLevel node fuel level) :
    Perfect (d + rounds fuel level.length) t := by
  induction fuel generalizing d level with
  | zero => exact h t ht
  | succ fuel ih =>
    rw [topLevel] at ht
    rw [rounds]
    split at ht
    · rename_i hlong
      rw [if_pos hlong]
      have hlevel : ∀ s ∈ nextLevel node level, Perfect (d + 1) s :=
        fun s hs => perfect_of_mem_pairUp (fun u hu => h u (mem_of_mem_padLevel hu)) hs
      have hnext := ih hlevel ht
      rw [length_nextLevel] at hnext
      rwa [Nat.add_comm _ 1, ← Nat.add_assoc]
    · rename_i hshort
      rw [if_neg hshort]
      exact h t ht

/-- The depth of a padded tree depends on the number of leaves only. -/
theorem perfect_paddedTree [Inhabited α] {xs : List α} (hne : xs ≠ []) :
    Perfect (rounds xs.length xs.length) (paddedTree xs) := by
  have hleaves : ∀ t ∈ xs.map leaf, Perfect 0 t := by
    intro t ht
    obtain ⟨x, _, rfl⟩ := List.mem_map.mp ht
    trivial
  have hperfect := perfect_of_mem_topLevel xs.length hleaves (t := paddedTree xs)
    (by rw [topLevel_eq_paddedTree hne]; exact List.mem_cons_self)
  rwa [Nat.zero_add, List.length_map] at hperfect

/-! ## The pairs that are combined -/

/-- The neighbours that are combined. -/
def pairsOf : List α → List (α × α)
  | x :: y :: rest => (x, y) :: pairsOf rest
  | _ => []

/-- The pairs that the loop combines. -/
def combinedPairs : Nat → List α → List (α × α)
  | 0, _ => []
  | fuel + 1, level =>
    if level.length > 1 then
      pairsOf (padLevel level) ++ combinedPairs fuel (nextLevel combine level)
    else []

theorem pairs_of_mem_pairUp {level : List (HashTree α)} {t : HashTree α}
    (ht : t ∈ pairUp node level) {p : α × α} (hp : p ∈ pairs combine t) :
    p ∈ pairsOf (level.map (eval combine)) ∨ ∃ s ∈ level, p ∈ pairs combine s := by
  induction level using pairUp.induct with
  | case1 x y rest ih =>
    rcases List.mem_cons.mp ht with rfl | hrest
    · rcases List.mem_cons.mp hp with rfl | hbelow
      · exact Or.inl List.mem_cons_self
      · rcases List.mem_append.mp hbelow with hleft | hright
        · exact Or.inr ⟨x, List.mem_cons_self, hleft⟩
        · exact Or.inr ⟨y, List.mem_cons_of_mem _ List.mem_cons_self, hright⟩
    · rcases ih hrest with hpair | ⟨s, hs, hps⟩
      · exact Or.inl (List.mem_cons_of_mem _ hpair)
      · exact Or.inr ⟨s, List.mem_cons_of_mem _ (List.mem_cons_of_mem _ hs), hps⟩
  | case2 level hshort =>
    obtain rfl | ⟨x, rfl⟩ := eq_nil_or_singleton hshort
    · cases ht
    · cases ht

theorem pairs_of_mem_topLevel (fuel : Nat) {level : List (HashTree α)} {t : HashTree α}
    (ht : t ∈ topLevel node fuel level) {p : α × α} (hp : p ∈ pairs combine t) :
    p ∈ combinedPairs combine fuel (level.map (eval combine)) ∨
      ∃ s ∈ level, p ∈ pairs combine s := by
  induction fuel generalizing level with
  | zero => exact Or.inr ⟨t, ht, hp⟩
  | succ fuel ih =>
    rw [topLevel] at ht
    rw [combinedPairs, List.length_map]
    split at ht
    · rename_i hlong
      rw [if_pos hlong, nextLevel_map, padLevel_map]
      rcases ih ht with habove | ⟨s, hs, hps⟩
      · exact Or.inl (List.mem_append_right _ habove)
      · rcases pairs_of_mem_pairUp combine hs hps with hpair | ⟨u, hu, hpu⟩
        · exact Or.inl (List.mem_append_left _ hpair)
        · exact Or.inr ⟨u, mem_of_mem_padLevel hu, hpu⟩
    · exact Or.inr ⟨t, ht, hp⟩

/-- The padded tree combines only what the loop combines. -/
theorem mem_combinedPairs [Inhabited α] {xs : List α} (hne : xs ≠ []) {p : α × α}
    (hp : p ∈ pairs combine (paddedTree xs)) : p ∈ combinedPairs combine xs.length xs := by
  have hmem : paddedTree xs ∈ topLevel node xs.length (xs.map leaf) := by
    rw [topLevel_eq_paddedTree hne]
    exact List.mem_cons_self
  have hid : (xs.map leaf).map (eval combine) = xs := by
    rw [List.map_map]
    exact List.map_id xs
  rcases pairs_of_mem_topLevel combine xs.length hmem hp with hpair | ⟨s, hs, hps⟩
  · rwa [hid] at hpair
  · obtain ⟨x, _, rfl⟩ := List.mem_map.mp hs
    cases hps

/-! ## Leaves -/

theorem leaves_pairUp {level : List (HashTree α)} (heven : level.length % 2 = 0) :
    (pairUp node level).flatMap leaves = level.flatMap leaves := by
  induction level using pairUp.induct with
  | case1 x y rest ih =>
    rw [pairUp, List.flatMap_cons, List.flatMap_cons, List.flatMap_cons, leaves,
      ih (by rw [List.length_cons, List.length_cons] at heven; omega), List.append_assoc]
  | case2 level hshort =>
    obtain rfl | ⟨x, rfl⟩ := eq_nil_or_singleton hshort
    · rfl
    · cases heven

theorem leaves_nextLevel (level : List (HashTree α)) :
    level.flatMap leaves <+: (nextLevel node level).flatMap leaves := by
  have heven : (padLevel level).length % 2 = 0 := by
    rw [length_padLevel]
    omega
  rw [nextLevel, leaves_pairUp heven]
  unfold padLevel
  split
  · rw [List.flatMap_append]
    exact List.prefix_append _ _
  · exact List.prefix_refl _

theorem leaves_topLevel (fuel : Nat) (level : List (HashTree α)) :
    level.flatMap leaves <+: (topLevel node fuel level).flatMap leaves := by
  induction fuel generalizing level with
  | zero => exact List.prefix_refl _
  | succ fuel ih =>
    rw [topLevel]
    split
    · exact (leaves_nextLevel level).trans (ih _)
    · exact List.prefix_refl _

/-- The leaves of the padded tree begin with the list. -/
theorem prefix_leaves_paddedTree [Inhabited α] {xs : List α} (hne : xs ≠ []) :
    xs <+: leaves (paddedTree xs) := by
  have hprefix := leaves_topLevel xs.length (xs.map leaf)
  rw [topLevel_eq_paddedTree hne, List.flatMap_singleton, List.flatMap_map] at hprefix
  have hid : xs.flatMap (fun x => leaves (leaf x)) = xs := List.flatMap_singleton' xs
  rwa [hid] at hprefix

/-! ## Commitment -/

variable {combine}

theorem HashTree.InjectiveOn.symm {ps qs : List (α × α)} (h : InjectiveOn combine ps qs) :
    InjectiveOn combine qs ps :=
  fun p hp q hq heq => (h q hq p hp heq.symm).symm

/-- Two tops are equal exactly when one padded tree is the other one, cut. -/
theorem eval_eq_iff_cut [Inhabited α] {xs ys : List α} (hxs : xs ≠ []) (hys : ys ≠ [])
    (hinj : InjectiveOn combine (combinedPairs combine xs.length xs)
      (combinedPairs combine ys.length ys)) :
    eval combine (paddedTree xs) = eval combine (paddedTree ys) ↔
      (∃ k, paddedTree xs = cut combine k (paddedTree ys)) ∨
        ∃ k, paddedTree ys = cut combine k (paddedTree xs) := by
  have hpairs : InjectiveOn combine (pairs combine (paddedTree xs))
      (pairs combine (paddedTree ys)) :=
    fun p hp q hq => hinj p (mem_combinedPairs combine hxs hp) q (mem_combinedPairs combine hys hq)
  have hdx := perfect_paddedTree hxs
  have hdy := perfect_paddedTree hys
  constructor
  · intro h
    rcases le_total (rounds xs.length xs.length) (rounds ys.length ys.length) with hle | hle
    · obtain ⟨d, hd⟩ := Nat.exists_eq_add_of_le hle
      rw [hd] at hdy
      exact Or.inl ⟨_, eq_cut_of_eval_eq hdx hdy hpairs h⟩
    · obtain ⟨d, hd⟩ := Nat.exists_eq_add_of_le hle
      rw [hd] at hdx
      exact Or.inr ⟨_, eq_cut_of_eval_eq hdy hdx hpairs.symm h.symm⟩
  · rintro (⟨k, hk⟩ | ⟨k, hk⟩)
    · rw [hk, eval_cut]
    · rw [hk, eval_cut]

/-- Lists of the same length with one padded tree a cut of the other are equal. -/
theorem eq_of_cut [Inhabited α] {xs ys : List α} (hxs : xs ≠ []) (hys : ys ≠ [])
    (hlength : xs.length = ys.length) {k : Nat}
    (hcut : paddedTree xs = cut combine k (paddedTree ys)) : xs = ys := by
  have hdx := perfect_paddedTree hxs
  rw [hlength, hcut] at hdx
  rw [cut_eq_self (perfect_paddedTree hys) hdx] at hcut
  have hprefix := prefix_leaves_paddedTree hxs
  rw [hcut] at hprefix
  exact List.IsPrefix.eq_of_length
    (List.prefix_of_prefix_length_le hprefix (prefix_leaves_paddedTree hys) hlength.le) hlength

end Blackstone.Merkle
