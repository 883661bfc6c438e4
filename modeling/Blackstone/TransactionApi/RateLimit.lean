import Mathlib.Data.Real.Basic
import Mathlib.Data.Finset.Order
import Mathlib.Tactic.Linarith
import Blackstone.Library.Runs
import Blackstone.Library.SlidingWindow

/-!
# The rate limit of the interface

`rateLimit` of `middleware/validator.js`. For each address it stores the times of the requests
that it has passed on. A request filters the stored times, and only one that is passed on stores
the filtered list again. What is stored and still in the window is what was passed on and is in
the window (`Limits`), so that no window of any position holds more than `maxRequests` of them
(`rateLimit_bounds`).
-/

namespace Blackstone.TransactionApi.RateLimit

open Runs SlidingWindow

/-- What the handler reads: `req.ip`, and the clock at the time of the request. -/
structure Request where
  ip : String
  now : ℚ

/-- What the handler does. -/
inductive Answer
  | next
  | json (status : ℕ) (error : String)
  deriving DecidableEq

/-- The handler that `rateLimit` returns, on the map `requests`. -/
def rateLimit (maxRequests : ℕ) (windowMs : ℚ) (requests : String → Option (List ℚ))
    (req : Request) : (String → Option (List ℚ)) × Answer :=
  let userRequests := (requests req.ip).getD []
  let validRequests := userRequests.filter fun time => decide (req.now - time < windowMs)
  if validRequests.length ≥ maxRequests then (requests, .json 429 "Too many requests")
  else (Function.update requests req.ip (some (validRequests ++ [req.now])), .next)

/-- The map, and the requests that were passed on. -/
structure Traffic where
  requests : String → Option (List ℚ)
  passed : List Request

def Traffic.start : Traffic := ⟨fun _ => none, []⟩

variable (maxRequests : ℕ) (windowMs : ℚ)

/-- A request comes. -/
def serve (s : Traffic) (req : Request) : Traffic :=
  let handled := rateLimit maxRequests windowMs s.requests req
  ⟨handled.1, if handled.2 = .next then s.passed ++ [req] else s.passed⟩

/-! ## The invariant -/

/-- A time is in the window that ends now. -/
def inWindow (windowMs : ℚ) (now time : ℚ) : Bool := decide (now - time < windowMs)

theorem fades_inWindow : Fades (inWindow windowMs) := by
  intro time earlier later hle hlater
  have hlt := of_decide_eq_true hlater
  exact decide_eq_true (lt_of_le_of_lt (sub_le_sub_right hle time) hlt)

/-- The times stored for an address. -/
def Traffic.stored (s : Traffic) (ip : String) : List ℚ := (s.requests ip).getD []

/-- The times at which requests of an address were passed on, the last one in front. -/
def Traffic.log (s : Traffic) (ip : String) : List ℚ :=
  ((s.passed.filter fun req => decide (req.ip = ip)).map Request.now).reverse

/-- For every address, what is stored tracks what was passed on. -/
def Limits (clock : ℚ) (s : Traffic) : Prop :=
  ∀ ip, Window (inWindow windowMs) maxRequests clock (s.stored ip) (s.log ip)

variable {maxRequests windowMs}

/-- What a request does: it is answered with an error and changes nothing, or it is passed on. -/
theorem serve_cases (s : Traffic) (req : Request) :
    ((rateLimit maxRequests windowMs s.requests req).2 = .json 429 "Too many requests" ∧
        maxRequests ≤ ((s.stored req.ip).filter (inWindow windowMs req.now)).length ∧
        serve maxRequests windowMs s req = s) ∨
      ((rateLimit maxRequests windowMs s.requests req).2 = .next ∧
        ((s.stored req.ip).filter (inWindow windowMs req.now)).length < maxRequests ∧
        serve maxRequests windowMs s req =
          ⟨Function.update s.requests req.ip
            (some ((s.stored req.ip).filter (inWindow windowMs req.now) ++ [req.now])),
            s.passed ++ [req]⟩) := by
  by_cases hfull : ((s.stored req.ip).filter (inWindow windowMs req.now)).length ≥ maxRequests
  · have hhandled : rateLimit maxRequests windowMs s.requests req =
        (s.requests, .json 429 "Too many requests") := if_pos hfull
    refine Or.inl ⟨by rw [hhandled], hfull, ?_⟩
    simp only [serve, hhandled, reduceCtorEq, if_false]
  · have hhandled : rateLimit maxRequests windowMs s.requests req =
        (Function.update s.requests req.ip
          (some ((s.stored req.ip).filter (inWindow windowMs req.now) ++ [req.now])), .next) :=
      if_neg hfull
    refine Or.inr ⟨by rw [hhandled], Nat.not_le.mp hfull, ?_⟩
    simp only [serve, hhandled, if_true]

theorem Limits.serve {s : Traffic} {req : Request} (h : Limits maxRequests windowMs req.now s) :
    Limits maxRequests windowMs req.now (serve maxRequests windowMs s req) := by
  rcases serve_cases s req with ⟨-, -, heq⟩ | ⟨-, hfew, heq⟩
  · rw [heq]
    exact h
  · rw [heq]
    intro ip
    by_cases hip : ip = req.ip
    · subst hip
      have hgrant := (h req.ip).grant (fades_inWindow windowMs) (le_refl _) hfew
      simpa only [Traffic.stored, Traffic.log, Function.update_self, Option.getD_some,
        List.filter_append, List.filter_cons_of_pos, decide_true, List.filter_nil,
        List.map_append, List.map_singleton, List.reverse_concat] using hgrant
    · have hother : req.ip ≠ ip := fun heq => hip heq.symm
      have hsame := h ip
      simpa only [Traffic.stored, Traffic.log, Function.update_of_ne hip, List.filter_append,
        List.filter_cons, hother, decide_false, Bool.false_eq_true, if_false, List.filter_nil,
        List.append_nil] using hsame

theorem limits_run {requests : List Request}
    (htimes : requests.Pairwise (fun r s => r.now ≤ s.now)) {clock : ℚ}
    (hclock : ∀ req ∈ requests, req.now ≤ clock) :
    Limits maxRequests windowMs clock
      (run (RateLimit.serve maxRequests windowMs) Traffic.start requests) := by
  refine run_of_nondecreasing ?_ ?_ ?_ htimes hclock
  · intro clock later s h hle ip
    exact (h ip).advance hle
  · intro s req h
    exact h.serve
  · intro clock ip
    exact Window.empty _ _ _

/-- Counting in the log of an address. -/
theorem Traffic.countP_log (s : Traffic) (ip : String) (among : ℚ → Bool) :
    (s.log ip).countP among =
      (s.passed.filter fun req => decide (req.ip = ip) && among req.now).length := by
  rw [Traffic.log, List.countP_reverse, List.countP_map, List.countP_filter,
    List.countP_eq_length_filter]
  congr 1
  apply List.filter_congr
  intro req _
  rw [Bool.and_comm]
  rfl

/-- Of the requests of one address that come in an interval of the length of the window, the
right end excluded, at most `maxRequests` are passed on. A request is answered with an error
only if as many of its address were passed on in the window before it. -/
theorem rateLimit_bounds {requests : List Request}
    (htimes : requests.Pairwise (fun r s => r.now ≤ s.now)) :
    (∀ (ip : String) (t : ℝ),
        ((run (serve maxRequests windowMs) Traffic.start requests).passed.filter fun r =>
          decide (r.ip = ip) && decide (t ≤ r.now ∧ (r.now : ℝ) < t + windowMs)).length ≤
            maxRequests) ∧
      ∀ before req after, requests = before ++ req :: after →
        (rateLimit maxRequests windowMs
          (run (serve maxRequests windowMs) Traffic.start before).requests req).2 ≠ .next →
        maxRequests ≤
          ((run (serve maxRequests windowMs) Traffic.start before).passed.filter fun r =>
            decide (r.ip = req.ip) &&
              decide (req.now - windowMs < r.now ∧ r.now ≤ req.now)).length := by
  constructor
  · intro ip t
    obtain ⟨clock, hclock⟩ := (requests.map Request.now).toFinset.exists_le
    have hlimits := @limits_run maxRequests windowMs requests htimes clock
      (fun req hreq => hclock _ (List.mem_toFinset.mpr (List.mem_map_of_mem hreq)))
    rw [← Traffic.countP_log _ ip fun x => decide (t ≤ (x : ℝ) ∧ (x : ℝ) < t + windowMs)]
    apply (hlimits ip).limited.countP_le (hlimits ip).sorted
    intro now x _ hnow hx
    obtain ⟨-, hnow⟩ := of_decide_eq_true hnow
    obtain ⟨hx, -⟩ := of_decide_eq_true hx
    have hreal : (now : ℝ) - (x : ℝ) < (windowMs : ℝ) := by linarith
    exact decide_eq_true (by exact_mod_cast hreal)
  · rintro before req after rfl hrefused
    obtain ⟨hbefore, -, hlast⟩ := List.pairwise_append.mp htimes
    have hlimits := @limits_run maxRequests windowMs before hbefore req.now
      (fun r hr => hlast r hr req List.mem_cons_self)
    rcases @serve_cases maxRequests windowMs
      (run (serve maxRequests windowMs) Traffic.start before) req with ⟨-, hmany, -⟩ | ⟨hnext, -⟩
    · rw [← Traffic.countP_log _ req.ip fun x => decide (req.now - windowMs < x ∧ x ≤ req.now)]
      apply ((hlimits req.ip).of_refused (le_refl _) hmany).trans
      apply List.countP_mono_left
      intro x hx hin
      have hlt := of_decide_eq_true hin
      exact decide_eq_true ⟨by linarith, (hlimits req.ip).past x hx⟩
    · exact absurd hnext hrefused

/-- Three requests of one address at one time, of which two are passed on, and one that comes
when the window is over. -/
theorem thirdRequest_refused :
    (run (serve 2 1000) Traffic.start
        [⟨"a", 0⟩, ⟨"a", 0⟩, ⟨"a", 0⟩, ⟨"a", 1000⟩]).passed.length = 3 ∧
      ∀ (ip : String) (t : ℝ),
        ((run (serve 2 1000) Traffic.start
          [⟨"a", 0⟩, ⟨"a", 0⟩, ⟨"a", 0⟩, ⟨"a", 1000⟩]).passed.filter fun r =>
            decide (r.ip = ip) && decide (t ≤ r.now ∧ (r.now : ℝ) < t + (1000 : ℚ))).length ≤ 2 :=
  ⟨by decide +kernel, (rateLimit_bounds (by decide +kernel)).1⟩

end Blackstone.TransactionApi.RateLimit
