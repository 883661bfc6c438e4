import Blackstone.Bank.HexText
import Blackstone.Library.Substrings

/-!
# The virus scanner

`virus_scan.cpp`. A signature is a text or the hash of a pattern. A text is found wherever it is
in the data, but a pattern is only looked for in the windows of thirty-two bytes, and the
patterns that the scanner registers are shorter. Data with a pattern is reported exactly when it
has the text of the hash as well, or a window with that hash (`complete_iff`).
-/

namespace Blackstone.Bank

open Substrings

/-- `VirusScanner`. -/
structure VirusScanner where
  virusSignatures : Std.TreeSet Str
  heuristicPatterns : Std.TreeSet Str

namespace VirusScanner

/-- `VirusScanner::loadDefaultSignatures`. -/
def loadDefaultSignatures (s : VirusScanner) : VirusScanner where
  virusSignatures := s.virusSignatures.insertMany
    [ascii "X5O!P%@AP[4\\PZX54(P^)7CC)7\x7d$EICAR-STANDARD-ANTIVIRUS-TEST-FILE!$H+H*",
      sha1 (ascii "malware_pattern_1"), sha1 (ascii "malware_pattern_2"),
      sha1 (ascii "trojan_pattern"), sha1 (ascii "ransomware_pattern")]
  heuristicPatterns := s.heuristicPatterns.insertMany
    [ascii "eval(", ascii "exec(", ascii "system(", ascii "popen(", ascii "shell_exec(",
      ascii "base64_decode(", ascii "gzinflate("]

/-- The constructor. -/
def create : VirusScanner := loadDefaultSignatures ⟨∅, ∅⟩

/-- `VirusScanner::computeSignature`. -/
def computeSignature (data : Str) (offset length : Nat) : Str :=
  if data.length < offset + length then [] else sha1 ((data.drop offset).take length)

/-- `VirusScanner::scanData`, with the detected viruses. -/
def scanData (s : VirusScanner) (data : Str) : Bool × List Str :=
  let texts := s.virusSignatures.toList.filter (fun pattern => pattern <:+: data)
  let hashes := ((List.range (data.length + 1 - 32)).map (computeSignature data · 32)).filter
    (fun sig => s.virusSignatures.contains sig)
  let heuristics := (s.heuristicPatterns.toList.filter (fun pattern => pattern <:+: data)).map
    (ascii "heuristic:" ++ ·)
  let detectedViruses := texts ++ (hashes ++ heuristics)
  (detectedViruses.isEmpty, detectedViruses)

/-- A virus is detected. -/
def Reports (s : VirusScanner) (data sig : Str) : Prop :=
  (s.scanData data).1 = false ∧ sig ∈ (s.scanData data).2

/-- Data with a pattern is reported when the hash of the pattern is a signature, and so is data
with a signature. -/
structure Complete (s : VirusScanner) (pattern data : Str) : Prop where
  hash : sha1 pattern ∈ s.virusSignatures → pattern <:+: data → Reports s data (sha1 pattern)
  text : ∀ sig ∈ s.virusSignatures, sig <:+: data → Reports s data sig

theorem reports_iff {s : VirusScanner} {data sig : Str} :
    Reports s data sig ↔ sig ∈ (s.scanData data).2 := by
  refine and_iff_right_of_imp fun hmem => ?_
  exact List.isEmpty_eq_false_iff.mpr (List.ne_nil_of_mem hmem)

/-- The signatures of the windows. -/
theorem map_computeSignature (data : Str) :
    (List.range (data.length + 1 - 32)).map (computeSignature data · 32) =
      (windows 32 data).map sha1 := by
  rw [windows, List.map_map]
  apply List.map_congr_left
  intro i hi
  have hfits := List.mem_range.mp hi
  exact if_neg (by omega)

/-- No digest is the name of a heuristic. -/
theorem sha1_ne_heuristic (pattern name : Str) : sha1 pattern ≠ ascii "heuristic:" ++ name := by
  intro heq
  have hcolon : colon ∈ sha1 pattern := by
    rw [heq]
    exact List.mem_append_left _ (by decide)
  obtain ⟨i, hi, hdigit⟩ := lowerHex_sha1 pattern colon hcolon
  exact (hexDigit_facts hi).2.2.2.2.2.2.2 hdigit.symm

/-- What is detected: texts, windows and heuristics. -/
theorem mem_scanData_iff {s : VirusScanner} {data sig : Str} :
    sig ∈ (s.scanData data).2 ↔ (sig ∈ s.virusSignatures ∧ sig <:+: data) ∨
      (∃ w ∈ windows 32 data, sha1 w = sig) ∧ sig ∈ s.virusSignatures ∨
      ∃ pattern ∈ s.heuristicPatterns, pattern <:+: data ∧ ascii "heuristic:" ++ pattern = sig := by
  simp only [scanData, map_computeSignature, List.mem_append, List.mem_filter, List.mem_map,
    Std.TreeSet.mem_toList, decide_eq_true_eq, Std.TreeSet.contains_iff_mem, and_assoc]

theorem reports_text {s : VirusScanner} {data sig : Str} (hsig : sig ∈ s.virusSignatures)
    (hdata : sig <:+: data) : Reports s data sig :=
  reports_iff.mpr (mem_scanData_iff.mpr (Or.inl ⟨hsig, hdata⟩))

theorem reports_sha1_iff {s : VirusScanner} {data pattern : Str}
    (hsig : sha1 pattern ∈ s.virusSignatures) :
    Reports s data (sha1 pattern) ↔ sha1 pattern <:+: data ∨
      ∃ w, w <:+: data ∧ w.length = 32 ∧ sha1 w = sha1 pattern := by
  rw [reports_iff, mem_scanData_iff, and_iff_right hsig, and_iff_left hsig]
  have hnone : ¬ ∃ name ∈ s.heuristicPatterns, name <:+: data ∧
      ascii "heuristic:" ++ name = sha1 pattern := by
    rintro ⟨name, -, -, heq⟩
    exact sha1_ne_heuristic pattern name heq.symm
  rw [or_iff_left hnone]
  simp only [mem_windows_iff, and_assoc]

/-- A scanner is complete for a pattern and data with it exactly when the data has the text of
the hash, or a window with the hash. -/
theorem complete_iff (s : VirusScanner) (pattern data : Str) :
    Complete s pattern data ↔ (sha1 pattern ∈ s.virusSignatures → pattern <:+: data →
      sha1 pattern <:+: data ∨ ∃ w, w <:+: data ∧ w.length = 32 ∧ sha1 w = sha1 pattern) := by
  constructor
  · intro h hsig hpattern
    exact (reports_sha1_iff hsig).mp (h.hash hsig hpattern)
  · intro h
    exact ⟨fun hsig hpattern => (reports_sha1_iff hsig).mpr (h hsig hpattern),
      fun sig hsig hdata => reports_text hsig hdata⟩

/-- Patterns of thirty-two bytes are always reported. -/
theorem complete_of_length (s : VirusScanner) {pattern : Str} (hlength : pattern.length = 32)
    (data : Str) (hsig : sha1 pattern ∈ s.virusSignatures) (hdata : pattern <:+: data) :
    Reports s data (sha1 pattern) :=
  (reports_sha1_iff hsig).mpr (Or.inr ⟨pattern, hdata, hlength, rfl⟩)

/-- The scanner does not find its own first pattern. -/
theorem not_complete_default :
    create.scanData (ascii "malware_pattern_1") = (true, []) ∧
      ¬ Complete create (ascii "malware_pattern_1") (ascii "malware_pattern_1") := by
  have hclean : create.scanData (ascii "malware_pattern_1") = (true, []) := by decide +kernel
  refine ⟨hclean, fun h => ?_⟩
  have hsig : sha1 (ascii "malware_pattern_1") ∈ create.virusSignatures := by
    apply Std.TreeSet.mem_insertMany_list.mpr
    exact Or.inr (List.contains_iff_mem.mpr (List.mem_cons_of_mem _ List.mem_cons_self))
  have hreported := h.hash hsig (List.infix_refl _)
  rw [Reports, hclean] at hreported
  cases hreported.1

end VirusScanner

end Blackstone.Bank
