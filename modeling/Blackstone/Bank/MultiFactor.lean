import Blackstone.Bank.Sha1
import Blackstone.Library.DefaultMap
import Blackstone.Library.Runs
import Mathlib.Data.List.Infix

/-!
# Several factors

`MultiFactorAuth` of `multi_factor.cpp`. `authenticate` counts the submitted pairs that one of
the five verifiers accepts and asks for two of them. It does not ask for two types, and for a
user without a TOTP secret the expected code is the empty one.

A user that is let in has two registered factors of different types verified exactly when the
accepted pairs are `FewOrDistinct` (`twoFactors_iff`).
-/

namespace Blackstone.Bank

open DefaultMap Runs

/-- `MultiFactorAuth::Factor`. -/
structure Factor where
  type : Str
  data : Str

/-- `MultiFactorAuth`. -/
structure MultiFactorAuth where
  userFactors : Map Str (List Factor)
  userSecrets : Map Str Str

namespace MultiFactorAuth

/-- Nobody has registered. -/
def create : MultiFactorAuth where
  userFactors := ∅
  userSecrets := ∅

/-! ## Registration -/

/-- Appends a factor to those of a user. -/
def addFactor (s : MultiFactorAuth) (userId type data : Str) : MultiFactorAuth :=
  { s with userFactors := modifyAt s.userFactors userId (· ++ [⟨type, data⟩]) }

/-- `MultiFactorAuth::registerPassword`. -/
def registerPassword (s : MultiFactorAuth) (userId password : Str) : MultiFactorAuth :=
  { s with userSecrets := s.userSecrets.insert userId (sha1Double password) }.addFactor userId
    (ascii "password") (sha1Double password)

/-- `MultiFactorAuth::registerTOTP`. -/
def registerTOTP (s : MultiFactorAuth) (userId secret : Str) : MultiFactorAuth :=
  s.addFactor userId (ascii "totp") secret

/-- `MultiFactorAuth::registerBackupCode`. -/
def registerBackupCode (s : MultiFactorAuth) (userId : Str) (codes : List Str) :
    MultiFactorAuth :=
  s.addFactor userId (ascii "backup") (sha1 (codes.flatMap sha1))

/-- `MultiFactorAuth::registerBiometric`. -/
def registerBiometric (s : MultiFactorAuth) (userId biometricHash : Str) : MultiFactorAuth :=
  s.addFactor userId (ascii "biometric") biometricHash

/-- `MultiFactorAuth::registerHardwareToken`. -/
def registerHardwareToken (s : MultiFactorAuth) (userId tokenId : Str) : MultiFactorAuth :=
  s.addFactor userId (ascii "hardware") (sha1 tokenId)

/-- A registration. -/
inductive Registration where
  | password (userId password : Str)
  | totp (userId secret : Str)
  | backup (userId : Str) (codes : List Str)
  | biometric (userId biometricHash : Str)
  | hardware (userId tokenId : Str)

/-- The user of a registration. -/
def Registration.userId : Registration → Str
  | .password userId _ => userId
  | .totp userId _ => userId
  | .backup userId _ => userId
  | .biometric userId _ => userId
  | .hardware userId _ => userId

/-- The type of factor that is registered. -/
def Registration.type : Registration → Str
  | .password _ _ => ascii "password"
  | .totp _ _ => ascii "totp"
  | .backup _ _ => ascii "backup"
  | .biometric _ _ => ascii "biometric"
  | .hardware _ _ => ascii "hardware"

/-- The factors after a registration. -/
def register (s : MultiFactorAuth) : Registration → MultiFactorAuth
  | .password userId password => s.registerPassword userId password
  | .totp userId secret => s.registerTOTP userId secret
  | .backup userId codes => s.registerBackupCode userId codes
  | .biometric userId biometricHash => s.registerBiometric userId biometricHash
  | .hardware userId tokenId => s.registerHardwareToken userId tokenId

/-! ## Verification -/

/-- The first factor of a type. -/
def findFactor (s : MultiFactorAuth) (userId type : Str) : Option Factor :=
  (readAt s.userFactors userId).find? (fun f => f.type = type)

/-- What reading the factors of a user leaves behind. -/
def touchUser (s : MultiFactorAuth) (userId : Str) : MultiFactorAuth :=
  { s with userFactors := touch s.userFactors userId }

/-- Six digits at least. -/
def sixDigits (code : Nat) : Str := List.replicate (6 - (decimal code).length) 48 ++ decimal code

/-- `MultiFactorAuth::generateTOTPToken`. -/
def generateTOTPToken (secret : Str) (timeStep : UInt64) : Str :=
  let hash := sha1 (secret ++ decimal timeStep.toNat)
  let byteAt (i : Nat) : Nat := (hash.getD i 0).toNat
  let offset := byteAt (hash.length - 1) &&& 0xF
  let code := (byteAt offset &&& 0x7F) <<< 24 ||| (byteAt (offset + 1) &&& 0xFF) <<< 16 |||
    (byteAt (offset + 2) &&& 0xFF) <<< 8 ||| (byteAt (offset + 3) &&& 0xFF)
  sixDigits (code % 1000000)

/-- `MultiFactorAuth::generateTOTP` at a time in seconds. -/
def generateTOTP (s : MultiFactorAuth) (time : Int64) (userId : Str) : Str × MultiFactorAuth :=
  match s.findFactor userId (ascii "totp") with
  | none => ([], s.touchUser userId)
  | some f => (generateTOTPToken f.data (time / 30).toUInt64, s.touchUser userId)

/-- A verifier, with the time that it may read and the state it leaves. -/
abbrev Verifier := MultiFactorAuth → Int64 → Str → Str → Bool × MultiFactorAuth

/-- `MultiFactorAuth::verifyPassword`. -/
def verifyPassword : Verifier := fun s _ userId password =>
  match s.userSecrets.lookup userId with
  | none => (false, s)
  | some secret => (secret = sha1Double password, s)

/-- `MultiFactorAuth::verifyTOTP`. -/
def verifyTOTP : Verifier := fun s time userId code =>
  let expected := s.generateTOTP time userId
  (expected.1 = code, expected.2)

/-- The first factor of a type accepts the value. -/
def verifyFactor (type : Str) (accept : Str → Str → Bool) : Verifier := fun s _ userId value =>
  match s.findFactor userId type with
  | none => (false, s.touchUser userId)
  | some f => (accept f.data value, s.touchUser userId)

/-- `MultiFactorAuth::verifyBackupCode`. -/
def verifyBackupCode : Verifier :=
  verifyFactor (ascii "backup") (fun data code => sha1 code <:+: data)

/-- `MultiFactorAuth::verifyBiometric`. -/
def verifyBiometric : Verifier :=
  verifyFactor (ascii "biometric") (fun data biometricData => data = sha1 biometricData)

/-- `MultiFactorAuth::verifyHardwareToken`. -/
def verifyHardwareToken : Verifier :=
  verifyFactor (ascii "hardware")
    (fun data challenge => (sha1 (challenge ++ data)).take 16 = challenge.take 16)

/-- The types and their verifiers, in the order in which `authenticate` asks. -/
def verifiers : List (Str × Verifier) :=
  [(ascii "password", verifyPassword), (ascii "totp", verifyTOTP),
    (ascii "backup", verifyBackupCode), (ascii "biometric", verifyBiometric),
    (ascii "hardware", verifyHardwareToken)]

/-- A submitted pair, with the time when it is verified. -/
structure Submission where
  time : Int64
  type : Str
  value : Str

/-- One comparison in the loop of `authenticate`, over the count and the state. -/
def ask (userId : Str) (pair : Submission) (acc : Nat × MultiFactorAuth)
    (entry : Str × Verifier) : Nat × MultiFactorAuth :=
  if pair.type = entry.1 then
    let answer := entry.2 acc.2 pair.time userId pair.value
    (if answer.1 then acc.1 + 1 else acc.1, answer.2)
  else acc

/-- `MultiFactorAuth::getRequiredFactors`. -/
def getRequiredFactors (_ : Str) : Nat := 2

/-- `MultiFactorAuth::authenticate`. -/
def authenticate (s : MultiFactorAuth) (userId : Str) (factors : List Submission) :
    Bool × MultiFactorAuth :=
  let counted := factors.foldl (fun acc pair => verifiers.foldl (ask userId pair) acc) (0, s)
  (getRequiredFactors userId ≤ counted.1, counted.2)

/-! ## Reading leaves the factors alone -/

/-- The same factors and secrets, apart from empty entries. -/
structure Agrees (s s' : MultiFactorAuth) : Prop where
  factors : ∀ userId, readAt s'.userFactors userId = readAt s.userFactors userId
  secrets : s'.userSecrets = s.userSecrets

theorem Agrees.refl (s : MultiFactorAuth) : Agrees s s := ⟨fun _ => rfl, rfl⟩

theorem Agrees.touchUser {s s' : MultiFactorAuth} (h : Agrees s s') (userId : Str) :
    Agrees s (s'.touchUser userId) where
  factors user := (readAt_touch _ _ _).trans (h.factors user)
  secrets := h.secrets

theorem Agrees.findFactor {s s' : MultiFactorAuth} (h : Agrees s s') (userId type : Str) :
    s'.findFactor userId type = s.findFactor userId type := by
  rw [MultiFactorAuth.findFactor, h.factors, ← MultiFactorAuth.findFactor]

/-- A verifier answers from the factors and the secrets, and leaves them alone. -/
def Respects (verify : Verifier) : Prop :=
  ∀ s s' time userId value, Agrees s s' →
    (verify s' time userId value).1 = (verify s time userId value).1 ∧
      Agrees s (verify s' time userId value).2

theorem respects_verifyPassword : Respects verifyPassword := by
  intro s s' time userId value h
  rw [verifyPassword, verifyPassword, h.secrets]
  cases s.userSecrets.lookup userId with
  | none => exact ⟨rfl, h⟩
  | some secret => exact ⟨rfl, h⟩

theorem Agrees.generateTOTP {s s' : MultiFactorAuth} (h : Agrees s s') (time : Int64)
    (userId : Str) :
    (s'.generateTOTP time userId).1 = (s.generateTOTP time userId).1 ∧
      Agrees s (s'.generateTOTP time userId).2 := by
  rw [MultiFactorAuth.generateTOTP, MultiFactorAuth.generateTOTP, h.findFactor]
  cases s.findFactor userId (ascii "totp") with
  | none => exact ⟨rfl, h.touchUser userId⟩
  | some f => exact ⟨rfl, h.touchUser userId⟩

theorem respects_verifyTOTP : Respects verifyTOTP := by
  intro s s' time userId value h
  obtain ⟨hcode, hagrees⟩ := h.generateTOTP time userId
  exact ⟨congrArg (fun code : Str => decide (code = value)) hcode, hagrees⟩

theorem respects_verifyFactor (type : Str) (accept : Str → Str → Bool) :
    Respects (verifyFactor type accept) := by
  intro s s' time userId value h
  rw [verifyFactor, verifyFactor, h.findFactor]
  cases s.findFactor userId type with
  | none => exact ⟨rfl, h.touchUser userId⟩
  | some f => exact ⟨rfl, h.touchUser userId⟩

theorem respects_of_mem {entry : Str × Verifier} (h : entry ∈ verifiers) : Respects entry.2 := by
  simp only [verifiers, List.mem_cons, List.not_mem_nil, or_false] at h
  rcases h with rfl | rfl | rfl | rfl | rfl
  · exact respects_verifyPassword
  · exact respects_verifyTOTP
  · exact respects_verifyFactor _ _
  · exact respects_verifyFactor _ _
  · exact respects_verifyFactor _ _

/-! ## Counting -/

/-- The verifier of the pair's type accepts its value. -/
def accepts (s : MultiFactorAuth) (userId : Str) (pair : Submission) : Bool :=
  verifiers.any (fun entry => pair.type = entry.1 && (entry.2 s pair.time userId pair.value).1)

theorem foldl_ask_of_ne (userId : Str) {pair : Submission} {entries : List (Str × Verifier)}
    (h : pair.type ∉ entries.map Prod.fst) (acc : Nat × MultiFactorAuth) :
    entries.foldl (ask userId pair) acc = acc := by
  induction entries with
  | nil => rfl
  | cons entry entries ih =>
    rw [List.map_cons, List.mem_cons, not_or] at h
    rw [List.foldl_cons, ask, if_neg h.1, ih h.2]

/-- A pair is counted once at most, since the types of the verifiers differ. -/
theorem foldl_ask {s : MultiFactorAuth} (userId : Str) (pair : Submission)
    {entries : List (Str × Verifier)} (hrespects : ∀ entry ∈ entries, Respects entry.2)
    (hnodup : (entries.map Prod.fst).Nodup) {acc : Nat × MultiFactorAuth} (h : Agrees s acc.2) :
    (entries.foldl (ask userId pair) acc).1 = acc.1 +
        (if entries.any (fun entry =>
          pair.type = entry.1 && (entry.2 s pair.time userId pair.value).1) then 1 else 0) ∧
      Agrees s (entries.foldl (ask userId pair) acc).2 := by
  induction entries generalizing acc with
  | nil => exact ⟨rfl, h⟩
  | cons entry entries ih =>
    rw [List.map_cons, List.nodup_cons] at hnodup
    have hrest := fun e he => hrespects e (List.mem_cons_of_mem _ he)
    rw [List.foldl_cons, List.any_cons]
    by_cases htype : pair.type = entry.1
    · obtain ⟨hanswer, hagrees⟩ :=
        hrespects entry List.mem_cons_self s acc.2 pair.time userId pair.value h
      have hothers : entries.any (fun e =>
          pair.type = e.1 && (e.2 s pair.time userId pair.value).1) = false := by
        rw [List.any_eq_false]
        intro e he haccept
        have heq := of_decide_eq_true (Bool.and_eq_true_iff.mp haccept).1
        apply hnodup.1
        rw [← htype, heq]
        exact List.mem_map_of_mem he
      rw [foldl_ask_of_ne userId (by rw [htype]; exact hnodup.1), ask, if_pos htype, hothers,
        Bool.or_false, decide_eq_true htype, Bool.true_and]
      refine ⟨?_, hagrees⟩
      simp only [hanswer]
      cases (entry.2 s pair.time userId pair.value).1 with
      | false => rfl
      | true => rfl
    · rw [ask, if_neg htype, decide_eq_false htype, Bool.false_and, Bool.false_or]
      exact ih hrest hnodup.2 h

/-- The loop of `authenticate` counts the accepted pairs. -/
theorem foldl_verifiers {s : MultiFactorAuth} (userId : Str) (factors : List Submission)
    {acc : Nat × MultiFactorAuth} (h : Agrees s acc.2) :
    (factors.foldl (fun acc pair => verifiers.foldl (ask userId pair) acc) acc).1 =
      acc.1 + factors.countP (s.accepts userId) := by
  have hnodup : (verifiers.map Prod.fst).Nodup := by decide
  induction factors generalizing acc with
  | nil => rfl
  | cons pair factors ih =>
    obtain ⟨hcount, hagrees⟩ := foldl_ask userId pair (fun _ => respects_of_mem) hnodup h
    rw [List.foldl_cons, ih hagrees, hcount, List.countP_cons, accepts]
    omega

/-- A user is let in exactly when two pairs are accepted. -/
theorem authenticate_iff (s : MultiFactorAuth) (userId : Str) (factors : List Submission) :
    (s.authenticate userId factors).1 = true ↔ 2 ≤ factors.countP (s.accepts userId) := by
  have hcount := @foldl_verifiers s userId factors (0, s) (Agrees.refl s)
  rw [authenticate, decide_eq_true_iff, hcount, Nat.zero_add, getRequiredFactors]

/-! ## Registered factors -/

/-- A factor of the type has been registered for the user. -/
def Registered (history : List Registration) (userId type : Str) : Prop :=
  ∃ registration ∈ history, registration.userId = userId ∧ registration.type = type

theorem types_register (s : MultiFactorAuth) (registration : Registration) (userId : Str) :
    (readAt (s.register registration).userFactors userId).map Factor.type =
      (readAt s.userFactors userId).map Factor.type ++
        if registration.userId = userId then [registration.type] else [] := by
  have hadd : ∀ (s : MultiFactorAuth) (user type data : Str),
      (readAt (s.addFactor user type data).userFactors userId).map Factor.type =
        (readAt s.userFactors userId).map Factor.type ++ if user = userId then [type] else [] := by
    intro s user type data
    rw [addFactor, readAt_modifyAt]
    by_cases huser : userId = user
    · rw [if_pos huser, if_pos huser.symm, List.map_append, huser]
      rfl
    · rw [if_neg huser, if_neg (Ne.symm huser), List.append_nil]
  cases registration with
  | password user password =>
    exact hadd { s with userSecrets := s.userSecrets.insert user (sha1Double password) } _ _ _
  | totp user secret => exact hadd s _ _ _
  | backup user codes => exact hadd s _ _ _
  | biometric user biometricHash => exact hadd s _ _ _
  | hardware user tokenId => exact hadd s _ _ _

theorem secret_register (s : MultiFactorAuth) (registration : Registration) (userId : Str) :
    ((s.register registration).userSecrets.lookup userId).isSome = true ↔
      (s.userSecrets.lookup userId).isSome = true ∨
        registration.userId = userId ∧ registration.type = ascii "password" := by
  cases registration with
  | password user password =>
    show ((s.userSecrets.insert user (sha1Double password)).lookup userId).isSome = true ↔ _
    rw [lookup_insert_eq]
    by_cases huser : userId = user
    · rw [if_pos huser]
      exact iff_of_true rfl (Or.inr ⟨huser.symm, rfl⟩)
    · rw [if_neg huser]
      exact ⟨Or.inl, fun h => h.resolve_right (fun hsame => huser hsame.1.symm)⟩
  | _ =>
    refine ⟨Or.inl, fun h => h.resolve_right ?_⟩
    rintro ⟨-, htype⟩
    simp only [Registration.type] at htype
    revert htype
    decide

theorem registered_concat (history : List Registration) (registration : Registration)
    (userId type : Str) :
    Registered (history ++ [registration]) userId type ↔
      Registered history userId type ∨
        registration.userId = userId ∧ registration.type = type := by
  simp only [Registered, List.mem_append, List.mem_singleton, or_and_right, exists_or,
    exists_eq_left]

/-- A user has a factor of a type exactly when one has been registered. -/
theorem mem_types_iff (history : List Registration) (userId type : Str) :
    type ∈ (readAt (run register create history).userFactors userId).map Factor.type ↔
      Registered history userId type := by
  induction history using List.reverseRecOn with
  | nil =>
    rw [run_nil, create, readAt_empty]
    exact iff_of_false List.not_mem_nil (fun ⟨_, hmem, _⟩ => List.not_mem_nil hmem)
  | append_singleton history registration ih =>
    rw [run, List.foldl_append, ← run, registered_concat, ← ih]
    show type ∈ (readAt ((run register create history).register registration).userFactors
      userId).map Factor.type ↔ _
    rw [types_register, List.mem_append]
    by_cases huser : registration.userId = userId
    · rw [if_pos huser, List.mem_singleton, and_iff_right huser, eq_comm]
    · rw [if_neg huser]
      exact or_congr_right (iff_of_false List.not_mem_nil (fun h => huser h.1))

theorem findFactor_eq_none_iff (history : List Registration) (userId type : Str) :
    (run register create history).findFactor userId type = none ↔
      ¬ Registered history userId type := by
  rw [← mem_types_iff, findFactor, List.find?_eq_none, List.mem_map]
  simp only [decide_eq_true_eq, not_exists, not_and]

/-- A user has a secret exactly when a password has been registered. -/
theorem secret_isSome_iff (history : List Registration) (userId : Str) :
    ((run register create history).userSecrets.lookup userId).isSome = true ↔
      Registered history userId (ascii "password") := by
  induction history using List.reverseRecOn with
  | nil => exact iff_of_false (fun h => by cases h) (fun ⟨_, hmem, _⟩ => List.not_mem_nil hmem)
  | append_singleton history registration ih =>
    rw [run, List.foldl_append, ← run, registered_concat, ← ih]
    exact secret_register _ registration userId

/-! ## Two factors -/

/-- An empty code for a user without a TOTP secret. -/
def Phantom (s : MultiFactorAuth) (userId : Str) (pair : Submission) : Prop :=
  pair.type = ascii "totp" ∧ pair.value = [] ∧ s.findFactor userId (ascii "totp") = none

theorem registered_of_verifyFactor {history : List Registration} {userId type : Str}
    {accept : Str → Str → Bool} {time : Int64} {value : Str}
    (h : (verifyFactor type accept (run register create history) time userId value).1 = true) :
    Registered history userId type := by
  by_contra hnot
  rw [verifyFactor, (findFactor_eq_none_iff history userId type).mpr hnot] at h
  cases h

/-- What is accepted has been registered, apart from empty codes. -/
theorem registered_of_accepts {history : List Registration} {userId : Str} {pair : Submission}
    (haccept : (run register create history).accepts userId pair = true)
    (hphantom : ¬ Phantom (run register create history) userId pair) :
    Registered history userId pair.type := by
  obtain ⟨entry, hentry, hboth⟩ := List.any_eq_true.mp haccept
  obtain ⟨htype, hverified⟩ := Bool.and_eq_true_iff.mp hboth
  rw [of_decide_eq_true htype]
  simp only [verifiers, List.mem_cons, List.not_mem_nil, or_false] at hentry
  rcases hentry with rfl | rfl | rfl | rfl | rfl
  · rw [← secret_isSome_iff]
    cases hsecret : (run register create history).userSecrets.lookup userId with
    | none =>
      simp only [verifyPassword, hsecret] at hverified
      cases hverified
    | some secret => rfl
  · by_contra hnot
    have hnone := (findFactor_eq_none_iff history userId (ascii "totp")).mpr hnot
    simp only [verifyTOTP, generateTOTP, hnone, decide_eq_true_eq] at hverified
    exact hphantom ⟨of_decide_eq_true htype, hverified.symm, hnone⟩
  · exact registered_of_verifyFactor hverified
  · exact registered_of_verifyFactor hverified
  · exact registered_of_verifyFactor hverified

theorem not_phantom_of_registered {history : List Registration} {userId : Str}
    {pair : Submission} (h : Registered history userId pair.type) :
    ¬ Phantom (run register create history) userId pair := by
  rintro ⟨htype, -, hnone⟩
  rw [htype] at h
  exact (findFactor_eq_none_iff history userId _).mp hnone h

/-- Two factors of different types that are registered for the user have been verified with
submitted values. -/
def TwoFactors (history : List Registration) (userId : Str) (factors : List Submission) : Prop :=
  ∃ first ∈ factors, ∃ second ∈ factors, first.type ≠ second.type ∧
    (Registered history userId first.type ∧ Registered history userId second.type) ∧
    (run register create history).accepts userId first = true ∧
    (run register create history).accepts userId second = true

/-- Fewer than two pairs are accepted, or two of them have different types and are no empty
codes for a user without a TOTP secret. -/
def FewOrDistinct (s : MultiFactorAuth) (userId : Str) (factors : List Submission) : Prop :=
  factors.countP (s.accepts userId) < 2 ∨
    ∃ first ∈ factors, ∃ second ∈ factors, first.type ≠ second.type ∧
      (¬ s.Phantom userId first ∧ ¬ s.Phantom userId second) ∧
      s.accepts userId first = true ∧ s.accepts userId second = true

/-- After any registrations, a user that is let in has two factors verified exactly when the
accepted pairs are few or distinct. -/
theorem twoFactors_iff (history : List Registration) (userId : Str) (factors : List Submission) :
    (((run register create history).authenticate userId factors).1 = true →
        TwoFactors history userId factors) ↔
      FewOrDistinct (run register create history) userId factors := by
  rw [authenticate_iff, FewOrDistinct, ← not_le, ← imp_iff_not_or]
  apply imp_congr_right
  intro _
  constructor
  · rintro ⟨first, hfirst, second, hsecond, hne, ⟨hregistered, hregistered'⟩, haccepts⟩
    exact ⟨first, hfirst, second, hsecond, hne, ⟨not_phantom_of_registered hregistered,
      not_phantom_of_registered hregistered'⟩, haccepts⟩
  · rintro ⟨first, hfirst, second, hsecond, hne, ⟨hphantom, hphantom'⟩, haccept, haccept'⟩
    exact ⟨first, hfirst, second, hsecond, hne, ⟨registered_of_accepts haccept hphantom,
      registered_of_accepts haccept' hphantom'⟩, haccept, haccept'⟩

/-- A user who has registered nothing is let in with an empty code that is submitted twice. -/
theorem emptyCodes_not_twoFactors :
    ¬ ∀ (history : List Registration) (userId : Str) (factors : List Submission),
      ((run register create history).authenticate userId factors).1 = true →
        TwoFactors history userId factors := by
  intro h
  have htrue := h [] (ascii "nobody") [⟨0, ascii "totp", []⟩, ⟨0, ascii "totp", []⟩] (by decide)
  obtain ⟨first, -, second, -, -, ⟨⟨registration, hmem, -⟩, -⟩, -⟩ := htrue
  exact List.not_mem_nil hmem

end MultiFactorAuth

end Blackstone.Bank
