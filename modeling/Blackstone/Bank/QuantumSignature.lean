import Blackstone.Bank.Sha1
import Blackstone.Library.DefaultMap
import Mathlib.Data.Nat.Log

/-!
# Hash-based signatures

`quantum_signature.cpp`. The leaves of a binary tree are 32 random bytes; an inner node is the
hash of its children, 40 characters. A signature is the hash of the message and a leaf, followed by
the siblings on the way of the leaf to the root, of which the first one is a leaf. `verify` reads
all of them as 40 bytes, so it starts each later one eight bytes early.

What `verify` compares with the root is therefore the hash of 72 bytes, while the root is the hash
of 64 or 80 bytes. A signature is accepted exactly when these two texts collide
(`verify_sign_iff`).
-/

namespace Blackstone.Bank

open DefaultMap

/-- `QuantumResistantSignature`. The hashes of the nodes stand under their index in `tree`. -/
structure QuantumResistantSignature where
  tree : Nat → Str
  size : Nat
  height : Nat
  rootHash : Str
  usedLeaves : Map Nat Bool

namespace QuantumResistantSignature

/-! ## The tree -/

/-- `UltraFastRandom::bytes` from the position that the generator has reached. -/
def bytes (rng : Nat → UInt64) (position n : Nat) : Str :=
  (List.range n).map (fun i => (rng (position + i)).toUInt8)

/-- The nodes that have been built, with the position of the generator. -/
structure Building where
  tree : Nat → Str
  position : Nat

/-- Stores the hash of a node. -/
def Building.put (s : Building) (idx : Nat) (hash : Str) : Building :=
  { s with tree := Function.update s.tree idx hash }

theorem Building.tree_put (s : Building) (idx : Nat) (hash : Str) (j : Nat) :
    (s.put idx hash).tree j = if j = idx then hash else s.tree j :=
  Function.update_apply s.tree idx hash j

/-- `QuantumResistantSignature::buildTree`, with the number of levels that are left. -/
def buildTree (rng : Nat → UInt64) : Nat → Nat → Building → Building
  | 0, idx, s =>
    { s.put idx (bytes rng s.position 32) with position := s.position + 32 }
  | levels + 1, idx, s =>
    let s := buildTree rng levels (idx * 2 + 1) s
    let s := buildTree rng levels (idx * 2 + 2) s
    s.put idx (sha1 (s.tree (idx * 2 + 1) ++ s.tree (idx * 2 + 2)))

/-- The tree of a height. -/
def builtTree (rng : Nat → UInt64) (h : Nat) : Nat → Str :=
  (buildTree rng h 0 ⟨fun _ => [], 0⟩).tree

/-- The constructor. The number of nodes overflows an `int` from the height 30 on. -/
def create (rng : Nat → UInt64) (h : Nat) : Option QuantumResistantSignature :=
  if h < 30 then
    some
      { tree := builtTree rng h
        size := 2 ^ (h + 1) - 1
        height := h
        rootHash := builtTree rng h 0
        usedLeaves := ∅ }
  else none

/-! ## Signatures -/

/-- The other child of the parent. -/
def sibling (nodeIdx : Nat) : Nat := if nodeIdx % 2 = 0 then nodeIdx - 1 else nodeIdx + 1

theorem parent_lt {nodeIdx : Nat} (h : nodeIdx ≠ 0) : (nodeIdx - 1) / 2 < nodeIdx := by
  omega

/-- The loop of `sign`. -/
def siblings (tree : Nat → Str) (size nodeIdx : Nat) : Str :=
  if nodeIdx = 0 then []
  else
    (if sibling nodeIdx < size then tree (sibling nodeIdx) else []) ++
      siblings tree size ((nodeIdx - 1) / 2)
termination_by nodeIdx
decreasing_by exact parent_lt ‹_›

/-- `QuantumResistantSignature::sign`. -/
def sign (s : QuantumResistantSignature) (msg : Str) (leafIdx : Nat) :
    Str × QuantumResistantSignature :=
  let touched := { s with usedLeaves := touch s.usedLeaves leafIdx }
  if readAt s.usedLeaves leafIdx then ([], touched)
  else if 2 ^ s.height ≤ leafIdx then ([], touched)
  else
    let nodeIdx := 2 ^ s.height - 1 + leafIdx
    (sha1 (msg ++ s.tree nodeIdx) ++ siblings s.tree s.size nodeIdx,
      { s with usedLeaves := s.usedLeaves.insert leafIdx true })

/-- What `verify` hashes for the parent of a node. -/
def hashInput (pos : Nat) (current sib : Str) : Str :=
  if pos % 2 = 0 then sib ++ current else current ++ sib

/-- The loop of `verify`, over the rest of the signature. -/
def climb (pos : Nat) (current rest : Str) : Str :=
  if pos = 0 then current
  else if rest = [] then current
  else climb ((pos - 1) / 2) (sha1 (hashInput pos current (rest.take 40))) (rest.drop 40)
termination_by pos
decreasing_by exact parent_lt ‹_›

/-- `QuantumResistantSignature::verify`. -/
def verify (s : QuantumResistantSignature) (msg sig : Str) (leafIdx : Nat) : Bool :=
  if sig.length < 40 then false
  else
    let pos := 2 ^ s.height - 1 + leafIdx
    let leafHash := sha1 (msg ++ s.tree pos)
    if sig.take 40 ≠ leafHash then false
    else climb pos leafHash (sig.drop 40) = s.rootHash

/-- An object reads its own signature of an unused leaf as it wrote it. -/
theorem verify_sign {s : QuantumResistantSignature} {i : Nat}
    (hused : readAt s.usedLeaves i = false) (hi : i < 2 ^ s.height) (msg : Str) :
    s.verify msg (s.sign msg i).1 i =
      decide (climb (2 ^ s.height - 1 + i) (sha1 (msg ++ s.tree (2 ^ s.height - 1 + i)))
        (siblings s.tree s.size (2 ^ s.height - 1 + i)) = s.rootHash) := by
  have hlength := length_sha1 (msg ++ s.tree (2 ^ s.height - 1 + i))
  have hsigned : (s.sign msg i).1 = sha1 (msg ++ s.tree (2 ^ s.height - 1 + i)) ++
      siblings s.tree s.size (2 ^ s.height - 1 + i) := by
    rw [sign, hused, if_neg Bool.false_ne_true, if_neg (Nat.not_le.mpr hi)]
  have hlong : ¬ (sha1 (msg ++ s.tree (2 ^ s.height - 1 + i)) ++
      siblings s.tree s.size (2 ^ s.height - 1 + i)).length < 40 := by
    rw [List.length_append, hlength]
    omega
  rw [hsigned, verify, if_neg hlong]
  simp only [List.take_left' hlength, List.drop_left' hlength, ne_eq, not_true_eq_false, if_false]

/-! ## Levels -/

/-- The level of a node; the root is on level zero. -/
def level (idx : Nat) : Nat := Nat.log 2 (idx + 1)

theorem level_child {idx child : Nat} (h : (child + 1) / 2 = idx + 1) :
    level child = level idx + 1 := by
  have hpos : Nat.log 2 (child + 1) ≠ 0 := by
    rw [ne_eq, Nat.log_eq_zero_iff]
    omega
  have hdiv := Nat.log_div_base 2 (child + 1)
  rw [h] at hdiv
  rw [level, level, hdiv]
  omega

theorem level_left (idx : Nat) : level (idx * 2 + 1) = level idx + 1 := level_child (by omega)

theorem level_right (idx : Nat) : level (idx * 2 + 2) = level idx + 1 := level_child (by omega)

theorem level_parent {idx : Nat} (h : idx ≠ 0) : level idx = level ((idx - 1) / 2) + 1 :=
  level_child (by omega)

theorem level_sibling {idx : Nat} (h : idx ≠ 0) : level (sibling idx) = level idx := by
  have hparent : (sibling idx + 1) / 2 = (idx - 1) / 2 + 1 := by
    rw [sibling]
    split
    · omega
    · omega
  rw [level_child hparent, level_parent h]

theorem level_leaf {h i : Nat} (hi : i < 2 ^ h) : level (2 ^ h - 1 + i) = h := by
  have hpos : 0 < 2 ^ h := Nat.two_pow_pos h
  rw [level, Nat.log_eq_iff (Or.inr ⟨by decide, by omega⟩), pow_succ]
  omega

/-! ## What is built -/

/-- The length of the hash of a node in a tree of height `h`. -/
def Sized (h : Nat) (tree : Nat → Str) (idx : Nat) : Prop :=
  (tree idx).length = if level idx = h then 32 else 40

theorem length_bytes (rng : Nat → UInt64) (position n : Nat) :
    (bytes rng position n).length = n := by
  rw [bytes, List.length_map, List.length_range]

theorem sized_put {h : Nat} {s : Building} {idx : Nat} {hash : Str}
    (hhash : hash.length = if level idx = h then 32 else 40) {j : Nat}
    (hj : j = idx ∨ Sized h s.tree j) : Sized h (s.put idx hash).tree j := by
  rw [Sized, Building.tree_put]
  split
  · rename_i heq
    rw [heq]
    exact hhash
  · rename_i hne
    exact hj.resolve_left hne

/-- Building a part of the tree gives every node of it the length of its level, and does not
spoil others. -/
theorem sized_buildTree (rng : Nat → UInt64) {h levels idx : Nat} (hlevels : level idx + levels = h)
    (s : Building) (j : Nat)
    (hj : (∃ k ≤ levels, (j + 1) / 2 ^ k = idx + 1) ∨ Sized h s.tree j) :
    Sized h (buildTree rng levels idx s).tree j := by
  induction levels generalizing idx s with
  | zero =>
    refine sized_put (s := s) ?_ (hj.imp_left ?_)
    · rw [length_bytes, if_pos (by omega)]
    · rintro ⟨k, hk, hpart⟩
      obtain rfl : k = 0 := by omega
      rw [pow_zero, Nat.div_one] at hpart
      omega
  | succ levels ih =>
    rw [buildTree]
    apply sized_put
    · rw [length_sha1, if_neg (by omega)]
    · have hleft := @ih (idx * 2 + 1) (by rw [level_left]; omega) s
      have hright := @ih (idx * 2 + 2) (by rw [level_right]; omega)
        (buildTree rng levels (idx * 2 + 1) s)
      rcases hj with ⟨k, hk, hpart⟩ | hsized
      · cases k with
        | zero =>
          rw [pow_zero, Nat.div_one] at hpart
          exact Or.inl (by omega)
        | succ k =>
          right
          rw [pow_succ, ← Nat.div_div_eq_div_mul] at hpart
          rcases (by omega : (j + 1) / 2 ^ k = idx * 2 + 1 + 1 ∨
            (j + 1) / 2 ^ k = idx * 2 + 2 + 1) with hchild | hchild
          · exact hright (Or.inr (hleft (Or.inl ⟨k, by omega, hchild⟩)))
          · exact hright (Or.inl ⟨k, by omega, hchild⟩)
      · exact Or.inr (hright (Or.inr (hleft (Or.inr hsized))))

theorem sized_builtTree (rng : Nat → UInt64) {h j : Nat} (hj : level j ≤ h) :
    Sized h (builtTree rng h) j := by
  have hroot : level 0 + h = h := by rw [level, Nat.log_one_right, Nat.zero_add]
  apply sized_buildTree rng hroot
  refine Or.inl ⟨level j, hj, ?_⟩
  have hlow := Nat.pow_log_le_self 2 (Nat.succ_ne_zero j)
  have hhigh := Nat.lt_pow_succ_log_self (b := 2) (by decide) (j + 1)
  rw [pow_succ] at hhigh
  apply Nat.div_eq_of_lt_le
  · rw [Nat.zero_add, Nat.one_mul]
    exact hlow
  · rw [Nat.mul_comm]
    exact hhigh

/-- The root is hashed from the two nodes below it. -/
theorem builtTree_root (rng : Nat → UInt64) {h : Nat} (hh : 1 ≤ h) :
    builtTree rng h 0 = sha1 (builtTree rng h 1 ++ builtTree rng h 2) := by
  obtain ⟨levels, rfl⟩ := Nat.exists_eq_add_of_le' hh
  rw [builtTree, buildTree]
  rfl

/-! ## The way to the root -/

/-- A signature holds 32 bytes for the sibling of the leaf and 40 for each of the others. -/
theorem length_siblings {tree : Nat → Str} {h : Nat} (htree : ∀ j, level j ≤ h → Sized h tree j)
    {idx : Nat} (hlevel : level idx ≤ h) :
    (siblings tree (2 ^ (h + 1) - 1) idx).length =
      if level idx = h ∧ idx ≠ 0 then 40 * level idx - 8 else 40 * level idx := by
  induction idx using Nat.strongRecOn with
  | ind idx ih =>
    by_cases hroot : idx = 0
    · subst hroot
      rw [siblings, if_pos rfl, level, Nat.log_one_right]
      split
      · rfl
      · rfl
    · have hparent := level_parent hroot
      have hinside : sibling idx < 2 ^ (h + 1) - 1 := by
        have hlt : sibling idx + 1 < 2 ^ (level (sibling idx) + 1) :=
          Nat.lt_pow_succ_log_self (by decide) _
        have hpow : 2 ^ (level (sibling idx) + 1) ≤ 2 ^ (h + 1) :=
          Nat.pow_le_pow_right (by decide) (by rw [level_sibling hroot]; omega)
        omega
      have hsize := htree (sibling idx) (by rw [level_sibling hroot]; exact hlevel)
      have hup := ih _ (parent_lt hroot) (by omega)
      rw [if_neg (by omega)] at hup
      rw [Sized, level_sibling hroot] at hsize
      rw [siblings, if_neg hroot, if_pos hinside, List.length_append, hsize, hup]
      by_cases hleaf : level idx = h
      · rw [if_pos hleaf, if_pos ⟨hleaf, hroot⟩]
        omega
      · rw [if_neg hleaf, if_neg (fun hboth => hleaf hboth.1)]
        omega

theorem length_hashInput (pos : Nat) (current sib : Str) :
    (hashInput pos current sib).length = current.length + sib.length := by
  rw [hashInput]
  split
  · rw [List.length_append, Nat.add_comm]
  · rw [List.length_append]

/-- The text that is hashed in the last round of the loop of `verify`. -/
def lastInput (pos : Nat) (current rest : Str) : Str :=
  if pos = 0 then []
  else if (pos - 1) / 2 = 0 then hashInput pos current (rest.take 40)
  else lastInput ((pos - 1) / 2) (sha1 (hashInput pos current (rest.take 40))) (rest.drop 40)
termination_by pos
decreasing_by exact parent_lt ‹_›

/-- The siblings are too short by eight bytes for the last round. -/
theorem climb_eq {pos : Nat} (hpos : pos ≠ 0) {current rest : Str} (hcurrent : current.length = 40)
    (hrest : rest.length = 40 * level pos - 8) :
    climb pos current rest = sha1 (lastInput pos current rest) ∧
      (lastInput pos current rest).length = 72 := by
  induction pos using Nat.strongRecOn generalizing current rest with
  | ind pos ih =>
    have hlevel := level_parent hpos
    have hne : rest ≠ [] := by
      apply List.ne_nil_of_length_pos
      omega
    rw [climb, if_neg hpos, if_neg hne, lastInput, if_neg hpos]
    by_cases htop : (pos - 1) / 2 = 0
    · have hone : level pos = 1 := by
        rw [hlevel, htop, level, Nat.log_one_right]
      rw [if_pos htop, htop, climb, if_pos rfl, length_hashInput, List.length_take]
      exact ⟨rfl, by omega⟩
    · rw [if_neg htop]
      have hparent := level_parent htop
      refine ih _ (parent_lt hpos) htop (length_sha1 _) ?_
      rw [List.length_drop]
      omega

/-! ## Completeness -/

/-- Two different texts with the same hash. -/
def Collide (x y : Str) : Prop := x ≠ y ∧ sha1 x = sha1 y

/-- The answer of an object, after some leaves have been used, to the signature that it makes. -/
def ownAnswer (s : QuantumResistantSignature) (used : Map Nat Bool) (i : Nat) (msg : Str) : Bool :=
  let s := { s with usedLeaves := used }
  s.verify msg (s.sign msg i).1 i

/-- An object of a height can be made, and it accepts the signature that it makes. -/
def Accepts (rng : Nat → UInt64) (h : Nat) (used : Map Nat Bool) (i : Nat) (msg : Str) : Prop :=
  ∃ s, create rng h = some s ∧ s.ownAnswer used i msg = true

/-- The text whose hash is compared with the root. -/
def comparedInput (rng : Nat → UInt64) (h i : Nat) (msg : Str) : Str :=
  let tree := builtTree rng h
  let pos := 2 ^ h - 1 + i
  lastInput pos (sha1 (msg ++ tree pos)) (siblings tree (2 ^ (h + 1) - 1) pos)

/-- The text from which the root is hashed. -/
def rootInput (rng : Nat → UInt64) (h : Nat) : Str := builtTree rng h 1 ++ builtTree rng h 2

theorem length_comparedInput (rng : Nat → UInt64) {h i : Nat} (hh : 1 ≤ h) (hi : i < 2 ^ h)
    (msg : Str) :
    climb (2 ^ h - 1 + i) (sha1 (msg ++ builtTree rng h (2 ^ h - 1 + i)))
        (siblings (builtTree rng h) (2 ^ (h + 1) - 1) (2 ^ h - 1 + i)) =
      sha1 (comparedInput rng h i msg) ∧ (comparedInput rng h i msg).length = 72 := by
  have hlevel := level_leaf hi
  have hpos : 2 ^ h - 1 + i ≠ 0 := by
    intro hzero
    rw [hzero, level, Nat.log_one_right] at hlevel
    omega
  apply climb_eq hpos (length_sha1 _)
  rw [length_siblings (fun j hj => sized_builtTree rng hj) hlevel.le, if_pos ⟨hlevel, hpos⟩]

theorem length_rootInput (rng : Nat → UInt64) {h : Nat} (hh : 1 ≤ h) :
    (rootInput rng h).length = if h = 1 then 64 else 80 := by
  have hone : level 1 = 1 := by decide
  have htwo : level 2 = 1 := by decide
  have hleft := sized_builtTree rng (h := h) (j := 1) (by omega)
  have hright := sized_builtTree rng (h := h) (j := 2) (by omega)
  rw [Sized, hone] at hleft
  rw [Sized, htwo] at hright
  rw [rootInput, List.length_append, hleft, hright]
  by_cases h1 : h = 1
  · rw [if_pos h1.symm, if_pos h1]
  · rw [if_neg (Ne.symm h1), if_neg h1]

/-- The texts on both sides of the comparison have different lengths. -/
theorem comparedInput_ne_rootInput (rng : Nat → UInt64) {h i : Nat} (hh : 1 ≤ h) (hi : i < 2 ^ h)
    (msg : Str) : comparedInput rng h i msg ≠ rootInput rng h := by
  intro heq
  have hlength := (length_comparedInput rng hh hi msg).2
  rw [heq, length_rootInput rng hh] at hlength
  split at hlength
  · cases hlength
  · cases hlength

/-- The signature of an unused leaf is accepted exactly when the object can be made and the text
that `verify` hashes last collides with the one from which the root was hashed. -/
theorem verify_sign_iff (rng : Nat → UInt64) (h : Nat) (hh : 1 ≤ h) (used : Map Nat Bool) (i : Nat)
    (hi : i < 2 ^ h) (hused : readAt used i = false) (msg : Str) :
    Accepts rng h used i msg ↔
      h < 30 ∧ Collide (comparedInput rng h i msg) (rootInput rng h) := by
  have hne := comparedInput_ne_rootInput rng hh hi msg
  obtain ⟨hclimb, -⟩ := length_comparedInput rng hh hi msg
  by_cases hsmall : h < 30
  · have haccepts : Accepts rng h used i msg ↔
        sha1 (comparedInput rng h i msg) = sha1 (rootInput rng h) := by
      simp only [Accepts, ownAnswer, create, if_pos hsmall, Option.some.injEq, exists_eq_left']
      rw [verify_sign hused hi, decide_eq_true_iff, hclimb, builtTree_root rng hh]
      rfl
    rw [haccepts]
    exact ⟨fun heq => ⟨hsmall, hne, heq⟩, fun h => h.2.2⟩
  · refine iff_of_false ?_ (fun h => hsmall h.1)
    rintro ⟨s, hs, -⟩
    rw [create, if_neg hsmall] at hs
    cases hs

/-- A tree of two leaves. -/
theorem verify_sign_pay :
    Accepts (fun _ => 0) 1 ∅ 0 (ascii "pay") ↔
      1 < 30 ∧ Collide (comparedInput (fun _ => 0) 1 0 (ascii "pay"))
        (rootInput (fun _ => 0) 1) :=
  verify_sign_iff (fun _ => 0) 1 (by decide) ∅ 0 (by decide) (readAt_empty 0) (ascii "pay")

/-- Its first signature is not accepted. -/
theorem pay_not_accepted : ¬ Accepts (fun _ => 0) 1 ∅ 0 (ascii "pay") := by
  have hrejected : (create (fun _ => 0) 1).map (fun s => s.ownAnswer ∅ 0 (ascii "pay")) =
      some false := by
    decide +kernel
  rintro ⟨s, hs, haccepted⟩
  rw [hs, Option.map_some, haccepted] at hrejected
  cases hrejected

end QuantumResistantSignature

end Blackstone.Bank
