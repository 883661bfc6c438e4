import Mathlib.Data.Int.ConditionallyCompleteOrder
import Mathlib.Data.Real.Basic
import Mathlib.Data.Finset.Order
import Mathlib.Tactic.Linarith
import Blackstone.Bank.Text
import Blackstone.Library.Runs
import Blackstone.Library.SlidingWindow

/-!
# The rate limiters of the proxy

`RateLimiter` with its uses in `handleRead` and in the cleanup task. A limiter drops old times
from the front of its queue, and only when it is asked. The cleanup looks at the oldest time only,
but at an age of two windows: the other times are at most one window younger, since they were all
in one window when the limiter was last asked (`Queued`).

So the limiters decide as one that remembers every accepted request (`accepted_eq`), with or
without the cleanup, and no interval of the length of the window has more than 100 accepted
requests (`rateLimiter_bound`).
-/

namespace Blackstone.SecurityProxy

open Bank (Str ascii)
open Runs SlidingWindow

def rateLimitRequests : ℕ := 100

def rateLimitWindow : ℤ := 60000

/-- `RateLimiter`. -/
structure RateLimiter where
  requestTimes : List ℤ

/-- `new RateLimiter()`. -/
def RateLimiter.create : RateLimiter := ⟨[]⟩

/-- `allowRequest`, when the clock shows `now`. -/
def RateLimiter.allowRequest (limiter : RateLimiter) (now : ℤ) : RateLimiter × Bool :=
  let requestTimes :=
    limiter.requestTimes.dropWhile fun time => decide (time < now - rateLimitWindow)
  if requestTimes.length < rateLimitRequests then (⟨requestTimes ++ [now]⟩, true)
  else (⟨requestTimes⟩, false)

/-- `isExpired`, when the clock shows `now`. -/
def RateLimiter.isExpired (limiter : RateLimiter) (now : ℤ) : Bool :=
  match limiter.requestTimes.head? with
  | none => true
  | some peek => decide (now - peek > rateLimitWindow * 2)

/-- The map `rateLimiters`, and the accepted requests. -/
structure RateLimits where
  rateLimiters : Str → Option RateLimiter
  accepted : List (Str × ℤ)

def RateLimits.start : RateLimits := ⟨fun _ => none, []⟩

/-- A use of a limiter in `handleRead`, or the visit of an entry by the cleanup task, at the time
that the clock shows. -/
inductive LimiterEvent
  | read (clientIp : Str) (now : ℤ)
  | cleanup (clientIp : Str) (now : ℤ)

def LimiterEvent.time : LimiterEvent → ℤ
  | .read _ now => now
  | .cleanup _ now => now

def LimiterEvent.isRead : LimiterEvent → Bool
  | .read _ _ => true
  | .cleanup _ _ => false

def RateLimits.step (s : RateLimits) : LimiterEvent → RateLimits
  | .read clientIp now =>
    let limiter := (s.rateLimiters clientIp).getD RateLimiter.create
    let (limiter, allowed) := limiter.allowRequest now
    { rateLimiters := Function.update s.rateLimiters clientIp (some limiter)
      accepted := if allowed then s.accepted ++ [(clientIp, now)] else s.accepted }
  | .cleanup clientIp now =>
    match s.rateLimiters clientIp with
    | none => s
    | some limiter =>
      if limiter.isExpired now then
        { s with rateLimiters := Function.update s.rateLimiters clientIp none }
      else s

/-! ## A limiter that remembers every accepted request -/

/-- A time still counts. -/
def counts (now time : ℤ) : Bool := decide (now - rateLimitWindow ≤ time)

/-- The times of the accepted requests of a client, the last one in front. -/
def acceptedTimes (accepted : List (Str × ℤ)) (clientIp : Str) : List ℤ :=
  ((accepted.filter fun request => decide (request.1 = clientIp)).map Prod.snd).reverse

/-- The decision of such a limiter. -/
def remember (accepted : List (Str × ℤ)) (request : Str × ℤ) : List (Str × ℤ) :=
  if (acceptedTimes accepted request.1).countP (counts request.2) < rateLimitRequests then
    accepted ++ [request]
  else accepted

/-- The requests of a run. -/
def LimiterEvent.request? : LimiterEvent → Option (Str × ℤ)
  | .read clientIp now => some (clientIp, now)
  | .cleanup _ _ => none

/-! ## One limiter -/

theorem fades_counts : Fades counts := by
  intro time earlier later hle hlater
  have hcounts := of_decide_eq_true hlater
  exact decide_eq_true (by omega)

/-- The times in a queue are in order, and no two of them are more than a window apart. -/
structure Queued (times : List ℤ) : Prop where
  ordered : times.Pairwise (· ≤ ·)
  close : ∀ x ∈ times, ∀ y ∈ times, y ≤ x + rateLimitWindow

theorem Queued.nil : Queued [] := ⟨List.Pairwise.nil, by simp⟩

/-- In a queue that is in order, the old times are those in front. -/
theorem dropWhile_eq_filter {times : List ℤ} (hordered : times.Pairwise (· ≤ ·)) (now : ℤ) :
    times.dropWhile (fun time => decide (time < now - rateLimitWindow)) =
      times.filter (counts now) := by
  induction times with
  | nil => rfl
  | cons time times ih =>
    obtain ⟨hhead, htail⟩ := List.pairwise_cons.mp hordered
    by_cases hold : time < now - rateLimitWindow
    · rw [List.dropWhile_cons, if_pos (decide_eq_true hold), ih htail, List.filter_cons_of_neg]
      rw [counts, decide_eq_true_iff]
      omega
    · rw [List.dropWhile_cons, if_neg (by rwa [decide_eq_true_iff]), eq_comm,
        List.filter_eq_self]
      intro x hx
      apply decide_eq_true
      rcases List.mem_cons.mp hx with rfl | hx
      · omega
      · have := hhead x hx
        omega

theorem allowRequest_eq {limiter : RateLimiter} (h : Queued limiter.requestTimes) (now : ℤ) :
    limiter.allowRequest now =
      if (limiter.requestTimes.filter (counts now)).length < rateLimitRequests then
        (⟨limiter.requestTimes.filter (counts now) ++ [now]⟩, true)
      else (⟨limiter.requestTimes.filter (counts now)⟩, false) := by
  rw [RateLimiter.allowRequest, dropWhile_eq_filter h.ordered]

/-- A queue after it has been asked. -/
theorem Queued.filter {times : List ℤ} (h : Queued times) (now : ℤ) :
    Queued (times.filter (counts now)) where
  ordered := h.ordered.filter _
  close x hx y hy := h.close x (List.mem_of_mem_filter hx) y (List.mem_of_mem_filter hy)

theorem Queued.offer {times : List ℤ} (h : Queued times) {now : ℤ} (hpast : ∀ x ∈ times, x ≤ now) :
    Queued (times.filter (counts now) ++ [now]) where
  ordered := by
    apply List.pairwise_append.mpr
    refine ⟨h.ordered.filter _, List.pairwise_singleton _ _, ?_⟩
    intro x hx y hy
    obtain rfl := List.mem_singleton.mp hy
    exact hpast x (List.mem_of_mem_filter hx)
  close := by
    have hrange : ∀ x ∈ times.filter (counts now) ++ [now],
        now - rateLimitWindow ≤ x ∧ x ≤ now := by
      intro x hx
      rcases List.mem_append.mp hx with hx | hx
      · exact ⟨of_decide_eq_true (List.mem_filter.mp hx).2, hpast x (List.mem_of_mem_filter hx)⟩
      · obtain rfl := List.mem_singleton.mp hx
        exact ⟨by rw [rateLimitWindow]; omega, le_refl _⟩
    intro x hx y hy
    have := hrange x hx
    have := hrange y hy
    omega

/-- Nothing in the queue of an expired limiter counts any more. -/
theorem filter_of_isExpired {limiter : RateLimiter} (h : Queued limiter.requestTimes) {now : ℤ}
    (hexpired : limiter.isExpired now = true) {later : ℤ} (hlater : now ≤ later) :
    limiter.requestTimes.filter (counts later) = [] := by
  rw [RateLimiter.isExpired] at hexpired
  rw [List.filter_eq_nil_iff]
  cases htimes : limiter.requestTimes with
  | nil => simp
  | cons peek times =>
    rw [htimes] at hexpired h
    have hage : now - peek > rateLimitWindow * 2 := of_decide_eq_true hexpired
    intro x hx
    have hclose := h.close peek List.mem_cons_self x hx
    rw [counts, decide_eq_true_iff]
    omega

/-- An expired limiter decides as a new one does, and has the same queue afterwards. -/
theorem allowRequest_of_isExpired {limiter : RateLimiter} (h : Queued limiter.requestTimes)
    {now : ℤ} (hexpired : limiter.isExpired now = true) {later : ℤ} (hlater : now ≤ later) :
    limiter.allowRequest later = RateLimiter.create.allowRequest later := by
  rw [allowRequest_eq h, filter_of_isExpired h hexpired hlater]
  exact (allowRequest_eq Queued.nil later).symm

/-! ## All limiters -/

/-- The queue of a client. -/
def RateLimits.queue (s : RateLimits) (clientIp : Str) : List ℤ :=
  ((s.rateLimiters clientIp).getD RateLimiter.create).requestTimes

/-- For every client, the queue tracks the accepted requests. -/
structure Limits (clock : ℤ) (s : RateLimits) : Prop where
  window : ∀ clientIp, Window counts rateLimitRequests clock (s.queue clientIp)
    (acceptedTimes s.accepted clientIp)
  queued : ∀ clientIp, Queued (s.queue clientIp)
  past : ∀ clientIp, ∀ x ∈ s.queue clientIp, x ≤ clock

theorem Limits.start (clock : ℤ) : Limits clock RateLimits.start where
  window _ := Window.empty _ _ _
  queued _ := Queued.nil
  past _ _ hx := absurd hx List.not_mem_nil

theorem Limits.advance {clock later : ℤ} {s : RateLimits} (h : Limits clock s)
    (hlater : clock ≤ later) : Limits later s where
  window clientIp := (h.window clientIp).advance hlater
  queued := h.queued
  past clientIp x hx := (h.past clientIp x hx).trans hlater

theorem acceptedTimes_append_self (accepted : List (Str × ℤ)) (clientIp : Str) (now : ℤ) :
    acceptedTimes (accepted ++ [(clientIp, now)]) clientIp =
      now :: acceptedTimes accepted clientIp := by
  simp [acceptedTimes]

theorem acceptedTimes_append_of_ne (accepted : List (Str × ℤ)) {clientIp other : Str}
    (hne : other ≠ clientIp) (now : ℤ) :
    acceptedTimes (accepted ++ [(clientIp, now)]) other = acceptedTimes accepted other := by
  simp [acceptedTimes, hne.symm]

/-- What a request does. -/
theorem step_read {s : RateLimits} {clientIp : Str} {now : ℤ} (h : Limits now s) :
    s.step (.read clientIp now) =
      { rateLimiters := Function.update s.rateLimiters clientIp (some
          (if (acceptedTimes s.accepted clientIp).countP (counts now) < rateLimitRequests then
            ⟨(s.queue clientIp).filter (counts now) ++ [now]⟩
          else ⟨(s.queue clientIp).filter (counts now)⟩))
        accepted := remember s.accepted (clientIp, now) } := by
  have hlength := (h.window clientIp).length_filter (le_refl now)
  have hallow := allowRequest_eq (h.queued clientIp) now
  rw [← RateLimits.queue, hlength] at hallow
  rw [RateLimits.step, hallow, remember]
  split_ifs <;> rfl

theorem queue_update_self (s : RateLimits) (clientIp : Str) (limiter : RateLimiter)
    (accepted : List (Str × ℤ)) :
    RateLimits.queue ⟨Function.update s.rateLimiters clientIp (some limiter), accepted⟩ clientIp =
      limiter.requestTimes := by
  show ((Function.update s.rateLimiters clientIp (some limiter) clientIp).getD _).requestTimes = _
  rw [Function.update_self]
  rfl

theorem queue_update_of_ne (s : RateLimits) {clientIp other : Str} (hne : other ≠ clientIp)
    (limiter : Option RateLimiter) (accepted : List (Str × ℤ)) :
    RateLimits.queue ⟨Function.update s.rateLimiters clientIp limiter, accepted⟩ other =
      s.queue other := by
  show ((Function.update s.rateLimiters clientIp limiter other).getD _).requestTimes = _
  rw [Function.update_of_ne hne]
  rfl

theorem acceptedTimes_remember_of_ne (accepted : List (Str × ℤ)) {clientIp other : Str}
    (hne : other ≠ clientIp) (now : ℤ) :
    acceptedTimes (remember accepted (clientIp, now)) other = acceptedTimes accepted other := by
  rw [remember]
  split_ifs
  · exact acceptedTimes_append_of_ne accepted hne now
  · rfl

/-- A step that concerns one client is checked for this client. -/
theorem Limits.of_client {clock : ℤ} {s s' : RateLimits} (h : Limits clock s) (clientIp : Str)
    (hothers : ∀ other, other ≠ clientIp → s'.queue other = s.queue other ∧
      acceptedTimes s'.accepted other = acceptedTimes s.accepted other)
    (hwindow : Window counts rateLimitRequests clock (s'.queue clientIp)
      (acceptedTimes s'.accepted clientIp))
    (hqueued : Queued (s'.queue clientIp)) (hpast : ∀ x ∈ s'.queue clientIp, x ≤ clock) :
    Limits clock s' := by
  constructor
  · intro other
    by_cases hother : other = clientIp
    · rwa [hother]
    · obtain ⟨hqueue, htimes⟩ := hothers other hother
      rw [hqueue, htimes]
      exact h.window other
  · intro other
    by_cases hother : other = clientIp
    · rwa [hother]
    · rw [(hothers other hother).1]
      exact h.queued other
  · intro other
    by_cases hother : other = clientIp
    · rwa [hother]
    · rw [(hothers other hother).1]
      exact h.past other

theorem Limits.read {s : RateLimits} {clientIp : Str} {now : ℤ} (h : Limits now s) :
    Limits now (s.step (.read clientIp now)) := by
  have hlength := (h.window clientIp).length_filter (le_refl now)
  rw [step_read h]
  apply h.of_client clientIp
  · intro other hother
    exact ⟨queue_update_of_ne s hother _ _, acceptedTimes_remember_of_ne _ hother now⟩
  · rw [queue_update_self, remember]
    split_ifs with hfew
    · rw [acceptedTimes_append_self]
      exact (h.window clientIp).grant fades_counts (le_refl now) (by rwa [hlength])
    · exact (h.window clientIp).prune fades_counts (le_refl now)
  · rw [queue_update_self]
    split_ifs
    · exact (h.queued clientIp).offer (h.past clientIp)
    · exact (h.queued clientIp).filter now
  · rw [queue_update_self]
    intro x hx
    split_ifs at hx
    · rcases List.mem_append.mp hx with hx | hx
      · exact h.past clientIp x (List.mem_of_mem_filter hx)
      · exact le_of_eq (List.mem_singleton.mp hx)
    · exact h.past clientIp x (List.mem_of_mem_filter hx)

/-- The cleanup leaves an entry alone, or removes one whose limiter is expired. -/
theorem step_cleanup (s : RateLimits) (clientIp : Str) (now : ℤ) :
    s.step (.cleanup clientIp now) = s ∨
      ∃ limiter, s.rateLimiters clientIp = some limiter ∧ limiter.isExpired now = true ∧
        s.step (.cleanup clientIp now) =
          { s with rateLimiters := Function.update s.rateLimiters clientIp none } := by
  rw [RateLimits.step]
  cases hlimiter : s.rateLimiters clientIp with
  | none => exact Or.inl rfl
  | some limiter =>
    by_cases hexpired : limiter.isExpired now = true
    · exact Or.inr ⟨limiter, rfl, hexpired, if_pos hexpired⟩
    · exact Or.inl (if_neg hexpired)

theorem queue_of_some {s : RateLimits} {clientIp : Str} {limiter : RateLimiter}
    (hlimiter : s.rateLimiters clientIp = some limiter) :
    s.queue clientIp = limiter.requestTimes := by
  rw [RateLimits.queue, hlimiter]
  rfl

theorem Limits.cleanup {s : RateLimits} {clientIp : Str} {now : ℤ} (h : Limits now s) :
    Limits now (s.step (.cleanup clientIp now)) := by
  rcases step_cleanup s clientIp now with heq | ⟨limiter, hlimiter, hexpired, heq⟩
  · rw [heq]
    exact h
  have hqueue := queue_of_some hlimiter
  have hremoved : RateLimits.queue
      { s with rateLimiters := Function.update s.rateLimiters clientIp none } clientIp = [] := by
    show ((Function.update s.rateLimiters clientIp none clientIp).getD _).requestTimes = _
    rw [Function.update_self]
    rfl
  rw [heq]
  apply h.of_client clientIp
  · intro other hother
    exact ⟨queue_update_of_ne s hother _ _, rfl⟩
  · rw [hremoved]
    apply (h.window clientIp).discard
    intro later hlater
    rw [hqueue]
    exact filter_of_isExpired (hqueue ▸ h.queued clientIp) hexpired hlater
  · rw [hremoved]
    exact Queued.nil
  · rw [hremoved]
    intro x hx
    exact absurd hx List.not_mem_nil

theorem Limits.step {s : RateLimits} {e : LimiterEvent} (h : Limits e.time s) :
    Limits e.time (s.step e) := by
  cases e with
  | read clientIp now => exact h.read
  | cleanup clientIp now => exact h.cleanup

theorem limits_run {events : List LimiterEvent}
    (htimes : events.Pairwise (fun e f => e.time ≤ f.time)) {clock : ℤ}
    (hclock : ∀ e ∈ events, e.time ≤ clock) :
    Limits clock (run RateLimits.step RateLimits.start events) := by
  refine run_of_nondecreasing ?_ ?_ ?_ htimes hclock
  · intro clock later s h hle
    exact h.advance hle
  · intro s e h
    exact h.step
  · exact Limits.start

/-- The limiters accept what one that remembers every accepted request does, whatever the
cleanup removes. -/
theorem accepted_eq {events : List LimiterEvent}
    (htimes : events.Pairwise (fun e f => e.time ≤ f.time)) :
    (run RateLimits.step RateLimits.start events).accepted =
      (events.filterMap LimiterEvent.request?).foldl remember [] := by
  induction events using List.reverseRecOn with
  | nil => rfl
  | append_singleton events e ih =>
    obtain ⟨hbefore, -, hlast⟩ := List.pairwise_append.mp htimes
    have hlimits := limits_run hbefore (fun f hf => hlast f hf e List.mem_cons_self)
    rw [run, List.foldl_append, ← run, List.filterMap_append, List.foldl_append, ← ih hbefore]
    cases e with
    | read clientIp now =>
      show ((run RateLimits.step RateLimits.start events).step (.read clientIp now)).accepted = _
      have hnow : Limits now (run RateLimits.step RateLimits.start events) := hlimits
      rw [step_read hnow]
      rfl
    | cleanup clientIp now =>
      show ((run RateLimits.step RateLimits.start events).step (.cleanup clientIp now)).accepted = _
      rcases step_cleanup (run RateLimits.step RateLimits.start events) clientIp now with
        heq | ⟨limiter, -, -, heq⟩
      · rw [heq]
        rfl
      · rw [heq]
        rfl

/-- Leaving the cleanup out does not change the requests. -/
theorem filterMap_request_filter (events : List LimiterEvent) :
    (events.filter LimiterEvent.isRead).filterMap LimiterEvent.request? =
      events.filterMap LimiterEvent.request? := by
  rw [List.filterMap_filter]
  apply List.filterMap_congr
  intro e _
  cases e <;> rfl

theorem countP_acceptedTimes (accepted : List (Str × ℤ)) (clientIp : Str) (among : ℤ → Bool) :
    (acceptedTimes accepted clientIp).countP among =
      (accepted.filter fun request =>
        decide (request.1 = clientIp) && among request.2).length := by
  rw [acceptedTimes, List.countP_reverse, List.countP_map, List.countP_filter,
    List.countP_eq_length_filter]
  congr 1
  apply List.filter_congr
  intro request _
  rw [Bool.and_comm]
  rfl

/-- In a run whose times do not decrease, at most 100 requests of a client are accepted in any
closed interval of 60000 ms. The same requests are accepted as in the run without the cleanup:
an expired limiter accepts what a new one would. -/
theorem rateLimiter_bound {events : List LimiterEvent}
    (htimes : events.Pairwise (fun e f => e.time ≤ f.time)) :
    (∀ (clientIp : Str) (t : ℝ),
        ((run RateLimits.step RateLimits.start events).accepted.filter fun request =>
          decide (request.1 = clientIp) &&
            decide (t ≤ request.2 ∧ (request.2 : ℝ) ≤ t + 60000)).length ≤ 100) ∧
      (run RateLimits.step RateLimits.start events).accepted =
        (run RateLimits.step RateLimits.start (events.filter LimiterEvent.isRead)).accepted ∧
      ∀ clientIp limiter now later, (∀ e ∈ events, e.time ≤ now) → now ≤ later →
        (run RateLimits.step RateLimits.start events).rateLimiters clientIp = some limiter →
        limiter.isExpired now = true →
        limiter.allowRequest later = RateLimiter.create.allowRequest later := by
  refine ⟨?_, ?_, ?_⟩
  · intro clientIp t
    obtain ⟨clock, hclock⟩ := (events.map LimiterEvent.time).toFinset.exists_le
    have hlimits := limits_run htimes
      (fun e he => hclock _ (List.mem_toFinset.mpr (List.mem_map_of_mem he)))
    rw [← countP_acceptedTimes _ clientIp fun x => decide (t ≤ (x : ℝ) ∧ (x : ℝ) ≤ t + 60000)]
    apply (hlimits.window clientIp).limited.countP_le (hlimits.window clientIp).sorted
    intro now x _ hnow hx
    obtain ⟨-, hnow⟩ := of_decide_eq_true hnow
    obtain ⟨hx, -⟩ := of_decide_eq_true hx
    have hreal : (now : ℝ) - 60000 ≤ (x : ℝ) := by linarith
    exact decide_eq_true (by rw [rateLimitWindow]; exact_mod_cast hreal)
  · rw [accepted_eq htimes, accepted_eq (htimes.filter _), filterMap_request_filter]
  · intro clientIp limiter now later hnow hlater hlimiter hexpired
    have hqueued := (limits_run htimes hnow).queued clientIp
    rw [queue_of_some hlimiter] at hqueued
    exact allowRequest_of_isExpired hqueued hexpired hlater

/-- The limiter of a client is removed between two of its requests. -/
def removalEvents : List LimiterEvent :=
  [.read (ascii "a") 0, .cleanup (ascii "a") 120001, .read (ascii "a") 120001]

theorem removal_keeps_decisions :
    (run RateLimits.step RateLimits.start removalEvents).accepted =
      (run RateLimits.step RateLimits.start
        (removalEvents.filter LimiterEvent.isRead)).accepted :=
  (rateLimiter_bound (by decide)).2.1

end Blackstone.SecurityProxy
