import Blackstone.Library.Runs
import Mathlib.Data.Finset.Card
import Mathlib.Data.List.Nodup

/-!
# Queues of free items

An allocator hands out the item that has been free for the longest time, and takes items back at
the end of its queue. Clients hold what they were handed out until they release it. As long as only
holders release and nothing is reset while something is held, no item comes to be held twice
when no item that is held is in the queue (`Unshared.lentStep`), and otherwise one may
(`unshared_of_acquires`).
-/

namespace Blackstone.FreeQueue

open Runs

variable {A C : Type} [DecidableEq A]

/-- All items, the free ones in the order in which they are handed out, and those in use. -/
@[ext] structure Pool (A : Type) where
  all : List A
  free : List A
  used : Finset A

namespace Pool

/-- Every item is free. -/
def reset (all : List A) : Pool A := ⟨all, all, ∅⟩

def acquire (pool : Pool A) : Option A × Pool A :=
  match pool.free with
  | [] => (none, pool)
  | a :: rest => (some a, { pool with free := rest, used := insert a pool.used })

def release (pool : Pool A) (a : A) : Pool A :=
  if a ∈ pool.used then { pool with free := pool.free ++ [a], used := pool.used.erase a } else pool

/-- Every item is either free, once, or in use. -/
structure Sound (pool : Pool A) : Prop where
  nodup : pool.free.Nodup
  disjoint : ∀ a ∈ pool.free, a ∉ pool.used
  mem_all : ∀ a, a ∈ pool.all ↔ a ∈ pool.free ∨ a ∈ pool.used

variable {pool : Pool A} {a : A}

omit [DecidableEq A] in
theorem sound_reset {all : List A} (h : all.Nodup) : (reset all).Sound where
  nodup := h
  disjoint := fun a _ => Finset.notMem_empty a
  mem_all := fun a => (or_iff_left (Finset.notMem_empty a)).symm

theorem Sound.acquire (h : pool.Sound) : pool.acquire.2.Sound := by
  unfold Pool.acquire
  cases hfree : pool.free with
  | nil => exact h
  | cons a rest =>
    obtain ⟨hnew, hrest⟩ := List.nodup_cons.mp (hfree ▸ h.nodup)
    refine ⟨hrest, fun b hb => ?_, fun b => ?_⟩
    · rw [Finset.mem_insert, not_or]
      refine ⟨fun heq => hnew (heq ▸ hb), h.disjoint b ?_⟩
      rw [hfree]
      exact List.mem_cons_of_mem a hb
    · simp only [h.mem_all b, hfree, List.mem_cons, Finset.mem_insert]
      tauto

theorem Sound.release (h : pool.Sound) (a : A) : (pool.release a).Sound := by
  unfold Pool.release
  split_ifs with hused
  · have hnew : a ∉ pool.free := fun hfree => h.disjoint a hfree hused
    refine ⟨?_, fun b hb => ?_, fun b => ?_⟩
    · exact List.nodup_append.mpr ⟨h.nodup, List.nodup_singleton a, by
        rintro b hb c hc rfl
        exact hnew (List.mem_singleton.mp hc ▸ hb)⟩
    · rw [Finset.mem_erase, not_and]
      intro hne
      exact h.disjoint b ((List.mem_append.mp hb).resolve_right (by simpa using hne))
    · simp only [h.mem_all b, List.mem_append, List.mem_singleton, Finset.mem_erase]
      by_cases hb : b = a
      · simp [hb, hused]
      · simp [hb]
  · exact h

/-- The items are the free ones and those in use. -/
theorem Sound.length_add_card (h : pool.Sound) (hall : pool.all.Nodup) :
    pool.free.length + pool.used.card = pool.all.length := by
  rw [← List.toFinset_card_of_nodup h.nodup, ← List.toFinset_card_of_nodup hall,
    ← Finset.card_union_of_disjoint]
  · congr 1
    ext a
    simp [h.mem_all]
  · rw [Finset.disjoint_left]
    exact fun a ha => h.disjoint a (List.mem_toFinset.mp ha)

end Pool

/-! ## Holders -/

/-- A pool, and who holds what. -/
structure Lent (A C : Type) where
  pool : Pool A
  held : List (C × A)

inductive Move (A C : Type) where
  | acquire (c : C)
  | release (c : C) (a : A)
  | reset (all : List A)

def lentStep [DecidableEq C] (s : Lent A C) : Move A C → Lent A C
  | .acquire c => ⟨s.pool.acquire.2, (s.pool.acquire.1.map (Prod.mk c)).toList ++ s.held⟩
  | .release c a => ⟨s.pool.release a, s.held.erase (c, a)⟩
  | .reset all => ⟨Pool.reset all, s.held⟩

/-- Only a holder releases, and nothing is reset while it is held. -/
def Careful (held : List (C × A)) : Move A C → Prop
  | .acquire _ => True
  | .release c a => (c, a) ∈ held
  | .reset _ => held = []

/-- Nothing is held twice. -/
def Exclusive (held : List (C × A)) : Prop := (held.map Prod.snd).Nodup

variable [DecidableEq C] {s : Lent A C}

/-- Nothing is held twice, and nothing that is held is free. -/
structure Unshared (s : Lent A C) : Prop where
  exclusive : Exclusive s.held
  guarded : ∀ e ∈ s.held, e.2 ∉ s.pool.free

theorem Unshared.lentStep (h : Unshared s) (hsound : s.pool.Sound) {move : Move A C}
    (hcareful : Careful s.held move) : Unshared (lentStep s move) := by
  cases move with
  | acquire c =>
    simp only [FreeQueue.lentStep, Pool.acquire]
    cases hfree : s.pool.free with
    | nil => exact ⟨h.exclusive, h.guarded⟩
    | cons a rest =>
      obtain ⟨hnew, -⟩ := List.nodup_cons.mp (hfree ▸ hsound.nodup)
      have hguarded : ∀ e ∈ s.held, e.2 ≠ a ∧ e.2 ∉ rest := by
        intro e he
        have hnot := h.guarded e he
        rw [hfree, List.mem_cons, not_or] at hnot
        exact hnot
      refine ⟨?_, fun e he => ?_⟩
      · refine List.nodup_cons.mpr ⟨fun hmem => ?_, h.exclusive⟩
        obtain ⟨e, he, heq⟩ := List.mem_map.mp hmem
        exact (hguarded e he).1 heq
      · rcases List.mem_cons.mp he with rfl | he
        · exact hnew
        · exact (hguarded e he).2
  | release c a =>
    have hother : ∀ e ∈ s.held.erase (c, a), e.2 ≠ a := by
      intro e he heq
      have hperm := (List.perm_cons_erase hcareful).map Prod.snd
      have hnodup := hperm.nodup_iff.mp h.exclusive
      refine (List.nodup_cons.mp hnodup).1 (List.mem_map.mpr ⟨e, he, heq⟩)
    refine ⟨h.exclusive.sublist (List.erase_sublist.map _), fun e he => ?_⟩
    have hbefore := h.guarded e (List.mem_of_mem_erase he)
    simp only [FreeQueue.lentStep, Pool.release]
    split_ifs
    · simpa [hbefore] using hother e he
    · exact hbefore
  | reset all =>
    have hnone : s.held = [] := hcareful
    simp only [FreeQueue.lentStep, hnone]
    exact ⟨List.nodup_nil, fun e he => nomatch he⟩

/-- Handing out one item after the other to one client. -/
theorem run_replicate_acquire (s : Lent A C) (c : C) {n : ℕ} (hn : n ≤ s.pool.free.length) :
    (run FreeQueue.lentStep s (List.replicate n (.acquire c))).pool.free = s.pool.free.drop n ∧
      (run FreeQueue.lentStep s (List.replicate n (.acquire c))).held =
        ((s.pool.free.take n).map (Prod.mk c)).reverse ++ s.held := by
  induction n generalizing s with
  | zero => simp
  | succ n ih =>
    cases hfree : s.pool.free with
    | nil => rw [hfree] at hn; cases hn
    | cons a rest =>
      rw [hfree] at hn
      have hstep : FreeQueue.lentStep s (.acquire c) =
          ⟨{ s.pool with free := rest, used := insert a s.pool.used }, (c, a) :: s.held⟩ := by
        simp [FreeQueue.lentStep, Pool.acquire, hfree]
      rw [List.replicate_succ, run_cons, hstep]
      obtain ⟨hpool, hheld⟩ := ih ⟨{ s.pool with free := rest, used := insert a s.pool.used },
        (c, a) :: s.held⟩ (Nat.le_of_succ_le_succ hn)
      exact ⟨hpool, by simp [hheld]⟩

/-- When nothing comes to be held twice however much one client acquires, nothing that is held
is free. -/
theorem unshared_of_acquires (h : ∀ (c : C) (n : ℕ),
    Exclusive (run FreeQueue.lentStep s (List.replicate n (.acquire c))).held) : Unshared s := by
  constructor
  · cases hheld : s.held with
    | nil => exact List.nodup_nil
    | cons e rest => exact hheld ▸ h e.1 0
  · intro e he hfree
    obtain ⟨front, back, hsplit⟩ := List.append_of_mem hfree
    have hlength : front.length + 1 ≤ s.pool.free.length := by
      rw [hsplit, List.length_append, List.length_cons]
      omega
    have hexclusive := h e.1 (front.length + 1)
    rw [(run_replicate_acquire s e.1 hlength).2, Exclusive, List.map_append] at hexclusive
    have hnew : [e.2].Sublist (((s.pool.free.take (front.length + 1)).map
        (Prod.mk e.1)).reverse.map Prod.snd) := by
      rw [List.singleton_sublist, hsplit, List.take_length_add_append]
      simp
    have hold : [e.2].Sublist (s.held.map Prod.snd) :=
      List.singleton_sublist.mpr (List.mem_map_of_mem he)
    exact absurd (hexclusive.sublist (hnew.append hold)) (by simp)

end Blackstone.FreeQueue
