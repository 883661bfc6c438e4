import Blackstone.Library.Blocks
import Blackstone.Library.Loops
import Blackstone.TransactionApi.Chunks

/-!
# Splitting a stream

`streamSplit` of `utils/binarySplitter.js` keeps what it has not passed on in a buffer. After
each read the inner loop passes on the complete chunks, so that the calls are the complete
blocks of everything read so far and the buffer is what is left of it (`Carried`).
-/

namespace Blackstone.TransactionApi

open Blocks Loops

/-- One round of the `while` loop, on `buffer` and the arguments of the calls of `onChunk`. -/
def chunkRound (chunkSize : ℕ) (s : List UInt8 × List (List UInt8)) :
    Option (List UInt8 × List (List UInt8)) :=
  some (s.1.drop chunkSize, s.2 ++ [s.1.take chunkSize])

/-- One round of the `for await` loop. It is `none` when the `while` loop does not end in as
many rounds as the buffer has bytes. -/
def readRound (chunkSize : ℕ) (s : List UInt8 × List (List UInt8)) (data : List UInt8) :
    Option (List UInt8 × List (List UInt8)) :=
  let buffer := s.1 ++ data
  loop (fun s => decide (s.1.length ≥ chunkSize)) (chunkRound chunkSize) buffer.length
    (buffer, s.2)

/-- `streamSplit` with a function `onChunk`: the arguments of its calls. -/
def streamSplit (reads : List (List UInt8)) (chunkSize : ℕ) : Option (List (List UInt8)) := do
  let (buffer, calls) ← reads.foldlM (readRound chunkSize) ([], [])
  some (if buffer.length > 0 then calls ++ [buffer] else calls)

/-! ## `split` in blocks -/

/-- The complete blocks, and what is left after them as a chunk of its own. -/
theorem split_eq {chunkSize : ℕ} (hpos : 1 ≤ chunkSize) (data : List UInt8) :
    split data chunkSize = wholeBlocks chunkSize data ++
      if (remainder chunkSize data).length > 0 then [remainder chunkSize data] else [] := by
  have hdivision := Nat.div_add_mod data.length chunkSize
  have hlt := Nat.mod_lt data.length hpos
  rw [length_remainder, split, wholeBlocks]
  by_cases hleft : data.length % chunkSize > 0
  · have hcount : (data.length + chunkSize - 1) / chunkSize = data.length / chunkSize + 1 := by
      rw [Nat.div_eq_of_lt_le]
      · rw [Nat.add_mul, Nat.mul_comm (data.length / chunkSize)]
        omega
      · rw [Nat.add_mul, Nat.add_mul, Nat.mul_comm (data.length / chunkSize)]
        omega
    have hlast : (data.drop (chunkSize * (data.length / chunkSize))).take chunkSize =
        remainder chunkSize data := by
      apply List.take_of_length_le
      rw [← remainder, length_remainder]
      exact Nat.le_of_lt hlt
    rw [if_pos hleft, hcount, List.range_succ, List.map_append, List.map_singleton, hlast]
  · have hcount : (data.length + chunkSize - 1) / chunkSize = data.length / chunkSize := by
      rw [Nat.div_eq_of_lt_le]
      · rw [Nat.mul_comm]
        omega
      · rw [Nat.add_mul, Nat.mul_comm (data.length / chunkSize)]
        omega
    rw [if_neg hleft, hcount, List.append_nil]

/-- Putting the chunks together gives the data. -/
theorem combine_split {chunkSize : ℕ} (hpos : 1 ≤ chunkSize) (data : List UInt8) :
    combine (split data chunkSize) = data := by
  have hall := flatten_wholeBlocks_append_remainder hpos data
  rw [combine, split_eq hpos, List.flatten_append]
  split_ifs with hleft
  · rwa [List.flatten_singleton]
  · rw [List.eq_nil_of_length_eq_zero (Nat.eq_zero_of_not_pos hleft), List.append_nil] at hall
    rwa [List.flatten_nil, List.append_nil]

/-- Every chunk but the last one has the full size. -/
theorem length_of_mem_dropLast_split {chunkSize : ℕ} (hpos : 1 ≤ chunkSize) (data : List UInt8) :
    ∀ chunk ∈ (split data chunkSize).dropLast, chunk.length = chunkSize := by
  intro chunk hchunk
  rw [split_eq hpos] at hchunk
  split_ifs at hchunk with hleft
  · rw [List.dropLast_concat] at hchunk
    exact length_of_mem_wholeBlocks hchunk
  · rw [List.append_nil] at hchunk
    exact length_of_mem_wholeBlocks (List.mem_of_mem_dropLast hchunk)

/-! ## The stream -/

/-- What has been read is passed on in complete blocks, and the buffer is what is left. -/
def Carried (chunkSize : ℕ) (data : List UInt8) (s : List UInt8 × List (List UInt8)) : Prop :=
  s.1 = remainder chunkSize data ∧ s.2 = wholeBlocks chunkSize data

/-- The calls with the complete blocks of the buffer, and what is left of it, do not change. -/
def Splits (chunkSize : ℕ) (buffer : List UInt8) (calls : List (List UInt8))
    (s : List UInt8 × List (List UInt8)) : Prop :=
  remainder chunkSize s.1 = remainder chunkSize buffer ∧
    s.2 ++ wholeBlocks chunkSize s.1 = calls ++ wholeBlocks chunkSize buffer

theorem chunkRound_spec {chunkSize : ℕ} (hpos : 1 ≤ chunkSize) {buffer : List UInt8}
    {calls : List (List UInt8)} (s : List UInt8 × List (List UInt8))
    (hs : Splits chunkSize buffer calls s) (hmore : decide (s.1.length ≥ chunkSize) = true) :
    ∃ t, chunkRound chunkSize s = some t ∧ Splits chunkSize buffer calls t ∧
      t.1.length < s.1.length := by
  obtain ⟨hrest, hpassed⟩ := hs
  have hlong : s.1.length ≥ chunkSize := of_decide_eq_true hmore
  have hblock : (s.1.take chunkSize).length = chunkSize := List.length_take_of_le hlong
  refine ⟨(s.1.drop chunkSize, s.2 ++ [s.1.take chunkSize]), rfl, ⟨?_, ?_⟩, ?_⟩
  · rw [← hrest, ← remainder_block_append hblock (s.1.drop chunkSize), List.take_append_drop]
  · rw [← hpassed, List.append_assoc, List.singleton_append,
      ← wholeBlocks_block_append hpos hblock, List.take_append_drop]
  · show (s.1.drop chunkSize).length < s.1.length
    rw [List.length_drop]
    omega

/-- The `while` loop passes on the complete blocks of the buffer. -/
theorem whileLoop_spec {chunkSize : ℕ} (hpos : 1 ≤ chunkSize) (buffer : List UInt8)
    (calls : List (List UInt8)) :
    loop (fun s => decide (s.1.length ≥ chunkSize)) (chunkRound chunkSize) buffer.length
        (buffer, calls) =
      some (remainder chunkSize buffer, calls ++ wholeBlocks chunkSize buffer) := by
  obtain ⟨⟨rest, passed⟩, hrun, ⟨hrest, hpassed⟩, hend⟩ :=
    loop_spec (Splits chunkSize buffer calls) (fun s => s.1.length) (chunkRound_spec hpos)
      buffer.length (buffer, calls) (Nat.le_refl _) ⟨rfl, rfl⟩
  have hshort : rest.length < chunkSize := Nat.not_le.mp (of_decide_eq_false hend)
  replace hrest : remainder chunkSize rest = remainder chunkSize buffer := hrest
  replace hpassed : passed ++ wholeBlocks chunkSize rest =
    calls ++ wholeBlocks chunkSize buffer := hpassed
  rw [remainder_eq_self hshort] at hrest
  rw [wholeBlocks_of_lt hshort, List.append_nil] at hpassed
  rw [hrun, hrest, hpassed]

/-- A read keeps the invariant. -/
theorem readRound_spec {chunkSize : ℕ} (hpos : 1 ≤ chunkSize) {before : List UInt8}
    {s : List UInt8 × List (List UInt8)} (hs : Carried chunkSize before s) (data : List UInt8) :
    ∃ t, readRound chunkSize s data = some t ∧ Carried chunkSize (before ++ data) t := by
  obtain ⟨hbuffer, hcalls⟩ := hs
  refine ⟨_, whileLoop_spec hpos (s.1 ++ data) s.2, ?_, ?_⟩
  · rw [hbuffer, ← remainder_append]
  · rw [hbuffer, hcalls, ← wholeBlocks_append]

theorem foldlM_readRound_spec {chunkSize : ℕ} (hpos : 1 ≤ chunkSize) (reads : List (List UInt8))
    {before : List UInt8} {s : List UInt8 × List (List UInt8)} (hs : Carried chunkSize before s) :
    ∃ t, reads.foldlM (readRound chunkSize) s = some t ∧
      Carried chunkSize (before ++ reads.flatten) t := by
  induction reads generalizing before s with
  | nil =>
    refine ⟨s, rfl, ?_⟩
    rwa [List.flatten_nil, List.append_nil]
  | cons data reads ih =>
    obtain ⟨t, hround, ht⟩ := readRound_spec hpos hs data
    obtain ⟨u, hrun, hu⟩ := ih ht
    refine ⟨u, ?_, ?_⟩
    · rw [List.foldlM_cons, hround]
      exact hrun
    · rwa [List.flatten_cons, ← List.append_assoc]

/-- However the data arrives, the stream is split as the data in one piece is: into chunks of
the full size, except perhaps the last one, which together are the data. -/
theorem streamSplit_eq_split {chunkSize : ℕ} (hpos : 1 ≤ chunkSize) (reads : List (List UInt8)) :
    ∃ chunks, streamSplit reads chunkSize = some chunks ∧
      chunks = split reads.flatten chunkSize ∧
      (∀ chunk ∈ chunks.dropLast, chunk.length = chunkSize) ∧
      combine chunks = reads.flatten := by
  refine ⟨split reads.flatten chunkSize, ?_, rfl, length_of_mem_dropLast_split hpos _,
    combine_split hpos _⟩
  have hempty : Carried chunkSize [] ([], []) :=
    ⟨(remainder_eq_self hpos).symm, (wholeBlocks_of_lt hpos).symm⟩
  obtain ⟨⟨buffer, calls⟩, hrun, hbuffer, hcalls⟩ := foldlM_readRound_spec hpos reads hempty
  rw [List.nil_append] at hbuffer hcalls
  rw [streamSplit, hrun, Option.bind_eq_bind, Option.bind_some, split_eq hpos]
  dsimp only at hbuffer hcalls ⊢
  rw [hbuffer, hcalls]
  split_ifs
  · rfl
  · rw [List.append_nil]

/-- Five bytes that arrive in three reads, one of them empty, in chunks of two. -/
theorem streamSplit_three_reads :
    ∃ chunks, streamSplit [[1, 2, 3], [], [4, 5]] 2 = some chunks ∧
      chunks = split [1, 2, 3, 4, 5] 2 ∧ (∀ chunk ∈ chunks.dropLast, chunk.length = 2) ∧
      combine chunks = [1, 2, 3, 4, 5] :=
  streamSplit_eq_split (by decide) _

end Blackstone.TransactionApi
