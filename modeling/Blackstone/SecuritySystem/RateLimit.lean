import Blackstone.Library.FixedWindow
import Blackstone.SecuritySystem.Firewall

/-!
# The rate limiter

`security/ratelimit.c`. An entry counts the requests of an address since the start of its window;
the first request after the end of the window starts the next one. A request is answered with 1
while the count is not above `max_requests`, so that an interval as long as a window has at most
twice that many such answers.

The bound rests on three things that `ratelimit_check` and `ratelimit_cleanup_old` leave open: a
cleanup drops entries after a minute, however long the window is; an address that finds no place
in the table is answered without being counted; and the count is an `int`. Along the calls that
meet none of them the bound holds (`limited_of_counted`). The array `timestamps` of an entry is
written and never read, and is left out.
-/

namespace Blackstone.SecuritySystem

open FixedWindow Runs SlotTable

/-- `rate_limit_entry_t`, without `timestamps`. -/
structure RateEntry where
  ip : IpText
  count : ℤ
  windowStart : UInt64

/-- `MAX_RATELIMIT_ENTRIES`. -/
def maxRatelimitEntries : ℕ := 1024

/-- The entries of `g_rate_entries` that are in use, `g_rate_count` of them. -/
structure RateTable where
  entries : List RateEntry
  fits : entries.length ≤ maxRatelimitEntries

/-- `ratelimit_init`. -/
def ratelimitInit : RateTable := ⟨[], Nat.zero_le _⟩

/-- What `ratelimit_check` does with the entry of the address. The `int` wraps. -/
def RateEntry.hit (windowMs now : UInt64) (e : RateEntry) : RateEntry :=
  let e := if windowMs < now - e.windowStart then { e with count := 0, windowStart := now } else e
  { e with count := (e.count + 1).bmod (2 ^ 32) }

/-- `ratelimit_check`, at the time `now`. -/
def ratelimitCheck (t : RateTable) (ip : IpText) (maxRequests : ℤ) (windowMs now : UInt64) :
    RateTable × ℤ :=
  match t.entries.find? fun e => decide (e.ip = ip) with
  | some e =>
    (⟨replaceKey RateEntry.ip ip (RateEntry.hit windowMs now) t.entries,
      length_replaceKey.trans_le t.fits⟩, if (e.hit windowMs now).count ≤ maxRequests then 1 else 0)
  | none =>
    if h : t.entries.length < maxRatelimitEntries then
      (⟨t.entries ++ [⟨ip, 1, now⟩], (List.length_append ..).trans_le h⟩, 1)
    else (t, 1)

/-- `ratelimit_cleanup_old`, at the time `now`. -/
def ratelimitCleanupOld (t : RateTable) (now : UInt64) : RateTable :=
  ⟨t.entries.filter fun e => decide (now - e.windowStart < 60000),
    (List.length_filter_le _ _).trans t.fits⟩

/-! ## What the calls should do -/

inductive RateCall
  | check (ip : IpText) (now : UInt64)
  | cleanup (now : UInt64)

/-- The clock at the call. -/
def RateCall.time : RateCall → UInt64
  | .check _ now => now
  | .cleanup now => now

namespace RateLimit

/-- The table after some calls, with the times at which each address got a positive answer. -/
structure History where
  table : RateTable
  grants : IpText → List ℕ
  clock : UInt64

/-- The state after `ratelimit_init`. -/
def History.start : History := ⟨ratelimitInit, fun _ => [], 0⟩

/-- The grants after an answer. -/
def grantsAfter (grants : IpText → List ℕ) (ip : IpText) (now : UInt64) (answer : ℤ) :
    IpText → List ℕ :=
  if answer = 0 then grants else Function.update grants ip (now.toNat :: grants ip)

def History.step (maxRequests : ℤ) (windowMs : UInt64) (h : History) : RateCall → History
  | .check ip now =>
    let (table, answer) := ratelimitCheck h.table ip maxRequests windowMs now
    ⟨table, grantsAfter h.grants ip now answer, now⟩
  | .cleanup now => ⟨ratelimitCleanupOld h.table now, h.grants, now⟩

/-- The clock does not go back. -/
def Clocked (h : History) (call : RateCall) : Prop := h.clock ≤ call.time

instance (h : History) (call : RateCall) : Decidable (Clocked h call) :=
  inferInstanceAs (Decidable (h.clock ≤ call.time))

/-- No address got more than `2 * maxRequests` positive answers in an interval as long as the
window. -/
def Limited (maxRequests : ℤ) (windowMs : UInt64) (h : History) : Prop :=
  ∀ ip t, (countWithin (h.grants ip) t (t + windowMs.toNat) : ℤ) ≤ 2 * maxRequests

/-- The address has an entry or finds a place, and the count of an open window has room; an entry
that is dropped has its window behind it. -/
def Counted (windowMs : UInt64) (h : History) : RateCall → Prop
  | .check ip now =>
    (ip ∈ h.table.entries.map RateEntry.ip ∨ h.table.entries.length < maxRatelimitEntries) ∧
      ∀ e ∈ h.table.entries, e.ip = ip → now - e.windowStart ≤ windowMs → e.count < 2 ^ 31 - 1
  | .cleanup now =>
    ∀ e ∈ h.table.entries, 60000 ≤ now - e.windowStart → windowMs < now - e.windowStart

instance (windowMs : UInt64) (h : History) : ∀ call, Decidable (Counted windowMs h call)
  | .check ip now => inferInstanceAs (Decidable
      ((ip ∈ h.table.entries.map RateEntry.ip ∨ h.table.entries.length < maxRatelimitEntries) ∧
        ∀ e ∈ h.table.entries, e.ip = ip →
          now - e.windowStart ≤ windowMs → e.count < 2 ^ 31 - 1))
  | .cleanup now => inferInstanceAs (Decidable (∀ e ∈ h.table.entries,
      60000 ≤ now - e.windowStart → windowMs < now - e.windowStart))

/-! ## One entry -/

variable {maxRequests : ℤ} {windowMs now : UInt64} {grants : List ℕ}

/-- With a clock that has not gone back, the age of a window is a difference of numbers. -/
theorem lt_age_iff {start : UInt64} (hclock : start ≤ now) :
    windowMs < now - start ↔ start.toNat + windowMs.toNat < now.toNat := by
  have hle := UInt64.le_iff_toNat_le.mp hclock
  rw [UInt64.lt_iff_toNat_lt, UInt64.toNat_sub_of_le _ _ hclock]
  omega

/-- The entry counts the requests of its window. -/
structure Counts (maxRequests : ℤ) (windowMs clock : UInt64) (grants : List ℕ) (e : RateEntry) :
    Prop where
  started : e.windowStart ≤ clock
  windowed : Windowed maxRequests.toNat windowMs.toNat grants e.windowStart.toNat e.count.toNat
  nonneg : 0 ≤ e.count

theorem Counts.later {clock : UInt64} {e : RateEntry}
    (h : Counts maxRequests windowMs clock grants e) (hclock : clock ≤ now) :
    Counts maxRequests windowMs now grants e :=
  ⟨UInt64.le_trans h.started hclock, h.windowed, h.nonneg⟩

/-- The first request of a window is granted. -/
theorem counts_first (hmax : 1 ≤ maxRequests) (ip : IpText)
    (hstart : Windowed maxRequests.toNat windowMs.toNat grants now.toNat 0) :
    Counts maxRequests windowMs now (now.toNat :: grants) ⟨ip, 1, now⟩ := by
  refine ⟨UInt64.le_refl now, ?_, Int.one_nonneg⟩
  exact hstart.grant (Nat.le_refl _) (Nat.le_add_right _ _) (by omega)

theorem hit_of_over {e : RateEntry} (hover : windowMs < now - e.windowStart) :
    e.hit windowMs now = ⟨e.ip, 1, now⟩ := by
  rw [RateEntry.hit, if_pos hover]
  rfl

theorem hit_of_open {e : RateEntry} (hopen : ¬windowMs < now - e.windowStart)
    (hnonneg : 0 ≤ e.count) (hroom : e.count < 2 ^ 31 - 1) :
    e.hit windowMs now = ⟨e.ip, e.count + 1, e.windowStart⟩ := by
  have hcount : (e.count + 1).bmod (2 ^ 32) = e.count + 1 := by
    apply Int.bmod_eq_of_le
    · omega
    · omega
  rw [RateEntry.hit, if_neg hopen, hcount]

/-- A request of an address with an entry. -/
theorem Counts.hit {e : RateEntry} (h : Counts maxRequests windowMs now grants e)
    (hmax : 1 ≤ maxRequests) (hroom : now - e.windowStart ≤ windowMs → e.count < 2 ^ 31 - 1) :
    Counts maxRequests windowMs now
      (if (e.hit windowMs now).count ≤ maxRequests then now.toNat :: grants else grants)
      (e.hit windowMs now) := by
  have hage := @lt_age_iff windowMs now e.windowStart h.started
  by_cases hover : windowMs < now - e.windowStart
  · rw [hit_of_over hover, if_pos hmax]
    exact counts_first hmax e.ip (h.windowed.restart (hage.mp hover))
  · have hnonneg := h.nonneg
    have hnext : (e.count + 1).toNat = e.count.toNat + 1 := by omega
    rw [hit_of_open hover hnonneg (hroom (UInt64.not_lt.mp hover))]
    have hstarted := UInt64.le_iff_toNat_le.mp h.started
    rw [hage] at hover
    refine ⟨h.started, ?_, Int.le_add_one hnonneg⟩
    by_cases hgrant : e.count + 1 ≤ maxRequests
    · rw [if_pos hgrant, hnext]
      exact h.windowed.grant hstarted (by omega) (by omega)
    · rw [if_neg hgrant, hnext]
      exact h.windowed.refuse

/-! ## The table -/

/-- Every address with an entry is counted by it; the others have no window open. -/
structure History.Inv (maxRequests : ℤ) (windowMs : UInt64) (h : History) : Prop where
  unique : (h.table.entries.map RateEntry.ip).Nodup
  counts : ∀ e ∈ h.table.entries, Counts maxRequests windowMs h.clock (h.grants e.ip) e
  idle : ∀ ip ∉ h.table.entries.map RateEntry.ip,
    Idle maxRequests.toNat windowMs.toNat (h.grants ip) h.clock.toNat

variable {h : History}

theorem History.inv_start : start.Inv maxRequests windowMs where
  unique := List.nodup_nil
  counts := by simp [start, ratelimitInit]
  idle := fun _ _ => Or.inl rfl

theorem History.Inv.limited (hinv : h.Inv maxRequests windowMs) (hmax : 1 ≤ maxRequests) :
    Limited maxRequests windowMs h := by
  intro ip t
  have hcount : countWithin (h.grants ip) t (t + windowMs.toNat) ≤ 2 * maxRequests.toNat := by
    by_cases hip : ip ∈ h.table.entries.map RateEntry.ip
    · obtain ⟨e, he, rfl⟩ := List.mem_map.mp hip
      exact (hinv.counts e he).windowed.within t
    · exact (hinv.idle ip hip).within t
  omega

/-- Time passes. -/
theorem History.Inv.later (hinv : h.Inv maxRequests windowMs) (hclock : h.clock ≤ now) :
    Inv maxRequests windowMs { h with clock := now } where
  unique := hinv.unique
  counts e he := (hinv.counts e he).later hclock
  idle ip hip := (hinv.idle ip hip).later (UInt64.le_iff_toNat_le.mp hclock)

/-- The entry of the address is found. -/
theorem find_ip_eq_some {t : RateTable} {ip : IpText} {e : RateEntry}
    (hfind : (t.entries.find? fun e => decide (e.ip = ip)) = some e) :
    e ∈ t.entries ∧ e.ip = ip :=
  ⟨List.mem_of_find?_eq_some hfind, by simpa using List.find?_some hfind⟩

theorem find_ip_eq_none {t : RateTable} {ip : IpText}
    (hfind : (t.entries.find? fun e => decide (e.ip = ip)) = none) :
    ip ∉ t.entries.map RateEntry.ip := by
  intro hip
  obtain ⟨e, he, hip⟩ := List.mem_map.mp hip
  exact List.find?_eq_none.mp hfind e he (decide_eq_true hip)

theorem grantsAfter_of_ne {grants : IpText → List ℕ} {ip ip' : IpText} (hne : ip' ≠ ip)
    (answer : ℤ) : grantsAfter grants ip now answer ip' = grants ip' := by
  rw [grantsAfter]
  split_ifs
  · rfl
  · exact Function.update_of_ne hne _ _

theorem grantsAfter_self (grants : IpText → List ℕ) (ip : IpText) {p : Prop} [Decidable p] :
    grantsAfter grants ip now (if p then 1 else 0) ip =
      if p then now.toNat :: grants ip else grants ip := by
  rw [grantsAfter]
  by_cases hp : p
  · rw [if_pos hp, if_pos hp, if_neg one_ne_zero, Function.update_self]
  · rw [if_neg hp, if_neg hp, if_pos rfl]

theorem ip_hit (e : RateEntry) : (e.hit windowMs now).ip = e.ip := by
  rw [RateEntry.hit]
  split_ifs
  · rfl
  · rfl

/-- A request of an address with an entry. -/
theorem History.Inv.hit (hinv : h.Inv maxRequests windowMs) (hmax : 1 ≤ maxRequests)
    {e : RateEntry} (he : e ∈ h.table.entries) (hclock : h.clock ≤ now)
    (hroom : now - e.windowStart ≤ windowMs → e.count < 2 ^ 31 - 1) {t : RateTable}
    (ht : t.entries = replaceKey RateEntry.ip e.ip (RateEntry.hit windowMs now) h.table.entries) :
    Inv maxRequests windowMs ⟨t, grantsAfter h.grants e.ip now
      (if (e.hit windowMs now).count ≤ maxRequests then 1 else 0), now⟩ := by
  have hnow := hinv.later hclock
  have hips : t.entries.map RateEntry.ip = h.table.entries.map RateEntry.ip := by
    rw [ht]
    exact map_key_replaceKey ip_hit
  constructor
  · exact hips ▸ hinv.unique
  · intro e' he'
    rw [ht] at he'
    rcases mem_replaceKey_of_nodup hinv.unique he' with ⟨hmem, hne⟩ | ⟨e'', hmem, hip, rfl⟩
    · simp only [grantsAfter_of_ne hne]
      exact hnow.counts e' hmem
    · obtain rfl := List.inj_on_of_nodup_map hinv.unique hmem he hip
      simp only [ip_hit, grantsAfter_self]
      exact (hnow.counts e'' he).hit hmax hroom
  · intro ip hip
    rw [hips] at hip
    have hne : ip ≠ e.ip := fun heq => hip (heq ▸ List.mem_map_of_mem he)
    simp only [grantsAfter_of_ne hne]
    exact hnow.idle ip hip

/-- A request of an address that finds a place. -/
theorem History.Inv.push (hinv : h.Inv maxRequests windowMs) (hmax : 1 ≤ maxRequests)
    {ip : IpText} (hip : ip ∉ h.table.entries.map RateEntry.ip) (hclock : h.clock ≤ now)
    {t : RateTable} (ht : t.entries = h.table.entries ++ [⟨ip, 1, now⟩]) :
    Inv maxRequests windowMs ⟨t, Function.update h.grants ip (now.toNat :: h.grants ip), now⟩ := by
  have hnow := hinv.later hclock
  have hips : t.entries.map RateEntry.ip = h.table.entries.map RateEntry.ip ++ [ip] := by
    rw [ht, List.map_append]
    rfl
  constructor
  · rw [hips, List.nodup_append_comm, List.singleton_append, List.nodup_cons]
    exact ⟨hip, hinv.unique⟩
  · intro e he
    rw [ht] at he
    rcases List.mem_append.mp he with he | he
    · have hne : e.ip ≠ ip := fun heq => hip (heq ▸ List.mem_map_of_mem he)
      simp only [Function.update_of_ne hne]
      exact hnow.counts e he
    · simp only [List.mem_singleton.mp he, Function.update_self]
      exact counts_first hmax ip (hnow.idle ip hip).opened
  · intro ip' hip'
    rw [hips, List.mem_append, not_or, List.mem_singleton] at hip'
    simp only [Function.update_of_ne hip'.2]
    exact hnow.idle ip' hip'.1

theorem History.Inv.check (hinv : h.Inv maxRequests windowMs) (hmax : 1 ≤ maxRequests)
    {ip : IpText} (hclock : h.clock ≤ now) (hcounted : Counted windowMs h (.check ip now)) :
    (h.step maxRequests windowMs (.check ip now)).Inv maxRequests windowMs := by
  obtain ⟨hplace, hroom⟩ := hcounted
  rw [step, ratelimitCheck]
  cases hfind : h.table.entries.find? fun e => decide (e.ip = ip) with
  | some e =>
    obtain ⟨he, rfl⟩ := find_ip_eq_some hfind
    exact hinv.hit hmax he hclock (hroom e he rfl) rfl
  | none =>
    have hip := find_ip_eq_none hfind
    rw [dif_pos (hplace.resolve_left hip)]
    exact hinv.push hmax hip hclock rfl

/-- A cleanup that drops only entries whose window is over. -/
theorem History.Inv.cleanup (hinv : h.Inv maxRequests windowMs) (hclock : h.clock ≤ now)
    (hcounted : Counted windowMs h (.cleanup now)) :
    (h.step maxRequests windowMs (.cleanup now)).Inv maxRequests windowMs := by
  have hnow := hinv.later hclock
  constructor
  · exact hinv.unique.sublist (List.filter_sublist.map RateEntry.ip)
  · intro e he
    exact hnow.counts e (List.mem_of_mem_filter he)
  · intro ip hip
    by_cases hmem : ip ∈ h.table.entries.map RateEntry.ip
    · obtain ⟨e, he, rfl⟩ := List.mem_map.mp hmem
      have hcounts := hnow.counts e he
      have hold : ¬now - e.windowStart < 60000 := by
        intro hyoung
        exact hip (List.mem_map_of_mem (List.mem_filter.mpr ⟨he, decide_eq_true hyoung⟩))
      have hover := hcounted e he (UInt64.not_lt.mp hold)
      exact Or.inr ⟨_, _, hcounts.windowed, (lt_age_iff hcounts.started).mp hover⟩
    · exact hnow.idle ip hmem

theorem History.Inv.step (hinv : h.Inv maxRequests windowMs) (hmax : 1 ≤ maxRequests)
    {call : RateCall} (hclock : Clocked h call) (hcounted : Counted windowMs h call) :
    (h.step maxRequests windowMs call).Inv maxRequests windowMs := by
  cases call with
  | check ip now => exact hinv.check hmax hclock hcounted
  | cleanup now => exact hinv.cleanup hclock hcounted

/-! ## The bound along a run -/

/-- A window that ends before a cleanup drops entries. -/
theorem counted_cleanup_of_short (hshort : windowMs < 60000) (h : History) (now : UInt64) :
    Counted windowMs h (.cleanup now) :=
  fun _ _ hold => UInt64.lt_of_lt_of_le hshort hold

end RateLimit

end Blackstone.SecuritySystem
