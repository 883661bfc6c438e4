import Blackstone.Library.Runs
import Blackstone.Library.SlotTable

/-!
# The routing table

`p2p/routing.c`. The table is an array of 256 entries, of which the first `g_route_count` are in
use. An entry that is removed or expires is only marked: it keeps its destination and its place,
and is found again when a route to the same destination is added. The count never goes down.

What the calls should do is said by a bounded map from destinations to routes. The table is that
map exactly as long as fewer than 256 destinations were ever added, or all 256 entries are valid
(`refines_iff`): after that, a new destination is dropped while there are routes to spare.
-/

namespace Blackstone.SecuritySystem

open Runs SlotTable

/-- A destination: an address and a port. -/
abbrev Dest := UInt32 × ℤ

/-- `route_entry_t`. -/
structure RouteEntry where
  destIp : UInt32
  destPort : ℤ
  nextHopId : ℤ
  metric : ℤ
  lastUpdate : UInt64
  valid : Bool

def RouteEntry.dest (e : RouteEntry) : Dest := (e.destIp, e.destPort)

/-- `MAX_ROUTES`. -/
def maxRoutes : ℕ := 256

/-- The entries of `g_routing_table` that are in use, `g_route_count` of them. -/
@[ext] structure RoutingTable where
  entries : List RouteEntry
  fits : entries.length ≤ maxRoutes

/-- The destinations of the table. -/
def RoutingTable.dests (t : RoutingTable) : List Dest := t.entries.map RouteEntry.dest

/-- Change the first entry for a destination. -/
def RoutingTable.setFirst (t : RoutingTable) (dest : Dest) (f : RouteEntry → RouteEntry) :
    RoutingTable :=
  ⟨replaceKey RouteEntry.dest dest f t.entries, length_replaceKey.trans_le t.fits⟩

/-- `routing_init`. -/
def routingInit : RoutingTable := ⟨[], Nat.zero_le _⟩

/-- `routing_add_route`, at the time `now`. It returns 1 when the destination has an entry. -/
def routingAddRoute (t : RoutingTable) (destIp : UInt32) (destPort nextHop metric : ℤ)
    (now : UInt64) : RoutingTable × ℤ :=
  if (destIp, destPort) ∈ t.dests then
    (t.setFirst (destIp, destPort) fun e =>
      { e with nextHopId := nextHop, metric := metric, lastUpdate := now, valid := true }, 1)
  else if h : t.entries.length < maxRoutes then
    (⟨t.entries ++ [⟨destIp, destPort, nextHop, metric, now, true⟩],
      (List.length_append ..).trans_le h⟩, 0)
  else (t, 0)

/-- `routing_remove_route`. -/
def routingRemoveRoute (t : RoutingTable) (destIp : UInt32) (destPort : ℤ) : RoutingTable × ℤ :=
  if (destIp, destPort) ∈ t.dests then
    (t.setFirst (destIp, destPort) fun e => { e with valid := false }, 1)
  else (t, 0)

/-- `routing_find_route`. -/
def routingFindRoute (t : RoutingTable) (destIp : UInt32) (destPort : ℤ) : Option RouteEntry :=
  t.entries.find? fun e => e.valid && decide (e.dest = (destIp, destPort))

/-- What `routing_update_tables` does with an entry. -/
def RouteEntry.expire (now : UInt64) (e : RouteEntry) : RouteEntry :=
  if e.valid && decide (60000 < now - e.lastUpdate) then { e with valid := false } else e

/-- `routing_update_tables`, at the time `now`. -/
def routingUpdateTables (t : RoutingTable) (now : UInt64) : RoutingTable :=
  ⟨t.entries.map (RouteEntry.expire now), (List.length_map _).trans_le t.fits⟩

/-- `routing_get_next_hop`. -/
def routingGetNextHop (t : RoutingTable) (destIp : UInt32) (destPort : ℤ) : ℤ :=
  match routingFindRoute t destIp destPort with
  | some e => e.nextHopId
  | none => -1

/-! ## What the calls should do -/

/-- A route as it was added. -/
structure Route where
  nextHop : ℤ
  metric : ℤ
  added : UInt64

inductive RouteCall
  | add (destIp : UInt32) (destPort nextHop metric : ℤ) (now : UInt64)
  | remove (destIp : UInt32) (destPort : ℤ)
  | update (now : UInt64)

/-- The clock, where the call reads it. -/
def RouteCall.time : RouteCall → Option UInt64
  | .add _ _ _ _ now => some now
  | .remove _ _ => none
  | .update now => some now

/-- The table after a call. -/
def RouteCall.table (t : RoutingTable) : RouteCall → RoutingTable
  | .add destIp destPort nextHop metric now =>
    (routingAddRoute t destIp destPort nextHop metric now).1
  | .remove destIp destPort => (routingRemoveRoute t destIp destPort).1
  | .update now => routingUpdateTables t now

/-- A route is kept for a minute. -/
def Route.isFresh (now : UInt64) (r : Route) : Bool :=
  decide (now.toNat ≤ r.added.toNat + 60000)

/-- The routes after a call. -/
noncomputable def RouteCall.routes (m : Dest → Option Route) : RouteCall → Dest → Option Route
  | .add destIp destPort nextHop metric now =>
    insert maxRoutes m (destIp, destPort) ⟨nextHop, metric, now⟩
  | .remove destIp destPort => Function.update m (destIp, destPort) none
  | .update now => keep (Route.isFresh now) m

/-- The destinations that were ever added, after a call. -/
def RouteCall.added (s : Finset Dest) : RouteCall → Finset Dest
  | .add destIp destPort _ _ _ => Insert.insert (destIp, destPort) s
  | .remove _ _ => s
  | .update _ => s

/-- The table after some calls, with what the calls should have led to. -/
structure History where
  table : RoutingTable
  routes : Dest → Option Route
  added : Finset Dest
  clock : UInt64

/-- The state after `routing_init`. -/
def History.start : History := ⟨routingInit, fun _ => none, ∅, 0⟩

noncomputable def History.step (h : History) (call : RouteCall) : History :=
  ⟨call.table h.table, call.routes h.routes, call.added h.added, call.time.getD h.clock⟩

/-- The clock does not go back. -/
def Clocked (h : History) (call : RouteCall) : Prop := ∀ now ∈ call.time, h.clock ≤ now

/-- The table refines the map. -/
structure Refines (h : History) : Prop where
  unique : h.table.dests.Nodup
  find : ∀ destIp destPort,
    (routingFindRoute h.table destIp destPort).map (fun e => (e.nextHopId, e.metric)) =
      (h.routes (destIp, destPort)).map fun r => (r.nextHop, r.metric)
  available : h.table.entries.countP (·.valid) < maxRoutes →
    ∀ destIp destPort nextHop metric now,
      (routingFindRoute (routingAddRoute h.table destIp destPort nextHop metric now).1
        destIp destPort).map (fun e => (e.nextHopId, e.metric)) = some (nextHop, metric)

/-- Fewer than 256 destinations were ever added, or there are 256 routes. -/
def Room (h : History) : Prop :=
  h.added.card < maxRoutes ∨ (live h.routes).ncard = maxRoutes

/-! ## Entries as slots -/

/-- The route of a valid entry. -/
def RouteEntry.content (e : RouteEntry) : Option Route :=
  if e.valid then some ⟨e.nextHopId, e.metric, e.lastUpdate⟩ else none

@[simp] theorem RouteEntry.isSome_content (e : RouteEntry) : e.content.isSome = e.valid := by
  rw [content]
  cases e.valid
  · rfl
  · rfl

theorem RouteEntry.map_content (e : RouteEntry) (hvalid : e.valid = true) :
    e.content.map (fun r => (r.nextHop, r.metric)) = some (e.nextHopId, e.metric) := by
  rw [content, if_pos hvalid]
  rfl

/-- With a clock that has not gone back, the age of an entry is a difference of numbers. -/
theorem RouteEntry.content_expire {e : RouteEntry} {now : UInt64} (hclock : e.lastUpdate ≤ now) :
    (e.expire now).content = e.content.filter (Route.isFresh now) := by
  have hage : 60000 < now - e.lastUpdate ↔ ¬now.toNat ≤ e.lastUpdate.toNat + 60000 := by
    have hle := UInt64.le_iff_toNat_le.mp hclock
    have hdiff := UInt64.toNat_sub_of_le _ _ hclock
    have hminute : (60000 : UInt64).toNat = 60000 := rfl
    rw [UInt64.lt_iff_toNat_lt, hdiff, hminute]
    omega
  rw [expire, content, content]
  cases hvalid : e.valid
  · simp [hvalid]
  · have hfresh : Route.isFresh now ⟨e.nextHopId, e.metric, e.lastUpdate⟩ =
        !decide (60000 < now - e.lastUpdate) := by
      simp only [Route.isFresh, hage, decide_not, Bool.not_not]
    by_cases hold : 60000 < now - e.lastUpdate
    · simp [Option.filter, hfresh, hold]
    · simp [Option.filter, hfresh, hold, hvalid]

theorem RouteEntry.dest_expire (now : UInt64) (e : RouteEntry) :
    (e.expire now).dest = e.dest := by
  rw [expire]
  split_ifs
  · rfl
  · rfl

theorem RouteEntry.lastUpdate_expire (now : UInt64) (e : RouteEntry) :
    (e.expire now).lastUpdate = e.lastUpdate := by
  rw [expire]
  split_ifs
  · rfl
  · rfl

/-! ## The table as a map -/

section Table

variable {t : RoutingTable} {m : Dest → Option Route}

theorem RoutingTable.dests_setFirst {dest : Dest} {f : RouteEntry → RouteEntry}
    (hf : ∀ e, (f e).dest = e.dest) : (t.setFirst dest f).dests = t.dests :=
  map_key_replaceKey hf

/-- The entries hold the routes of a map. -/
def RoutingTable.Holds (t : RoutingTable) (m : Dest → Option Route) : Prop :=
  Represents RouteEntry.dest RouteEntry.content t.entries m

/-- A route is found exactly when the map has it. -/
theorem RoutingTable.Holds.find (ht : t.Holds m) (destIp : UInt32) (destPort : ℤ) :
    (routingFindRoute t destIp destPort).map (fun e => (e.nextHopId, e.metric)) =
      (m (destIp, destPort)).map fun r => (r.nextHop, r.metric) := by
  have hfind := Represents.find ht (destIp, destPort)
  simp only [RouteEntry.isSome_content] at hfind
  rw [← hfind]
  change _ = ((routingFindRoute t destIp destPort).bind RouteEntry.content).map _
  cases hentry : routingFindRoute t destIp destPort with
  | none => rfl
  | some e =>
    have hvalid := List.find?_some hentry
    rw [Bool.and_eq_true] at hvalid
    rw [Option.bind_some, e.map_content hvalid.1, Option.map_some]

theorem RoutingTable.Holds.nextHop (ht : t.Holds m) (destIp : UInt32) (destPort : ℤ) :
    routingGetNextHop t destIp destPort =
      ((m (destIp, destPort)).map Route.nextHop).getD (-1) := by
  have hfind := congrArg (Option.map Prod.fst) (ht.find destIp destPort)
  rw [Option.map_map, Option.map_map] at hfind
  change (routingFindRoute t destIp destPort).map RouteEntry.nextHopId =
    (m (destIp, destPort)).map Route.nextHop at hfind
  rw [← hfind, routingGetNextHop]
  cases routingFindRoute t destIp destPort with
  | none => rfl
  | some e => rfl

/-- A route is added as long as a place is free, or there is no room in the map either. -/
theorem RoutingTable.Holds.add (ht : t.Holds m)
    (hroom : t.entries.length < maxRoutes ∨ maxRoutes ≤ (live m).ncard) (destIp : UInt32)
    (destPort nextHop metric : ℤ) (now : UInt64) :
    (routingAddRoute t destIp destPort nextHop metric now).1.Holds
      (insert maxRoutes m (destIp, destPort) ⟨nextHop, metric, now⟩) := by
  rw [routingAddRoute]
  split_ifs with hmem hfree
  · refine Represents.insert_replaceKey ht t.fits ?_ ?_ hmem
    · exact fun _ => rfl
    · exact fun _ => rfl
  · exact Represents.insert_push ht hfree rfl hmem
  · exact Represents.insert_full ht (hroom.resolve_left hfree) hmem _

theorem RoutingTable.Holds.remove (ht : t.Holds m) (destIp : UInt32) (destPort : ℤ) :
    (routingRemoveRoute t destIp destPort).1.Holds
      (Function.update m (destIp, destPort) none) := by
  rw [routingRemoveRoute]
  split_ifs with hmem
  · refine Represents.replaceKey ht ?_ ?_ hmem
    · exact fun _ => rfl
    · exact fun _ => rfl
  · exact Represents.erase_absent ht hmem

theorem RoutingTable.Holds.update (ht : t.Holds m) {now : UInt64}
    (hclock : ∀ e ∈ t.entries, e.lastUpdate ≤ now) :
    (routingUpdateTables t now).Holds (keep (Route.isFresh now) m) :=
  Represents.keep ht (RouteEntry.dest_expire now) fun e he =>
    RouteEntry.content_expire (hclock e he)

end Table

/-! ## The invariant -/

section Invariant

/-- The table holds the map. While it is not full, every destination that was ever added has an
entry. -/
structure History.Inv (h : History) : Prop where
  holds : h.table.Holds h.routes
  added_of_mem : ∀ dest ∈ h.table.dests, dest ∈ h.added
  mem_of_added : h.table.entries.length < maxRoutes → ∀ dest ∈ h.added, dest ∈ h.table.dests
  clocked : ∀ e ∈ h.table.entries, e.lastUpdate ≤ h.clock

variable {h : History}

theorem History.inv_start : start.Inv where
  holds := represents_nil
  added_of_mem := by simp [start, routingInit, RoutingTable.dests]
  mem_of_added := by simp [start]
  clocked := by simp [start, routingInit]

theorem History.Inv.card_le (hinv : h.Inv) : h.table.entries.length ≤ h.added.card := by
  have hlength := List.toFinset_card_of_nodup hinv.holds.nodup
  rw [List.length_map] at hlength
  rw [← hlength]
  apply Finset.card_le_card
  intro dest hdest
  exact hinv.added_of_mem dest (List.mem_toFinset.mp hdest)

/-- The table has a free place exactly while fewer than 256 destinations were added. -/
theorem History.Inv.length_lt_iff (hinv : h.Inv) :
    h.table.entries.length < maxRoutes ↔ h.added.card < maxRoutes := by
  constructor
  · intro hlt
    have hsub : h.added ⊆ h.table.dests.toFinset := by
      intro dest hdest
      exact List.mem_toFinset.mpr (hinv.mem_of_added hlt dest hdest)
    have hcard := (Finset.card_le_card hsub).trans (List.toFinset_card_le _)
    rw [RoutingTable.dests, List.length_map] at hcard
    exact hcard.trans_lt hlt
  · exact hinv.card_le.trans_lt

theorem History.Inv.ncard_live (hinv : h.Inv) :
    (live h.routes).ncard = h.table.entries.countP (·.valid) := by
  rw [hinv.holds.ncard_live]
  simp only [RouteEntry.isSome_content]

/-- A call that leaves every entry in its place. -/
theorem History.Inv.of_dests_eq (hinv : h.Inv) {t : RoutingTable} {m : Dest → Option Route}
    {clock : UInt64} (hdests : t.dests = h.table.dests) (hholds : t.Holds m)
    (hclocked : ∀ e ∈ t.entries, e.lastUpdate ≤ clock) : Inv ⟨t, m, h.added, clock⟩ := by
  have hlength := congrArg List.length hdests
  rw [RoutingTable.dests, RoutingTable.dests, List.length_map, List.length_map] at hlength
  constructor
  · exact hholds
  · rw [hdests]
    exact hinv.added_of_mem
  · rw [hdests, hlength]
    exact hinv.mem_of_added
  · exact hclocked

/-- Unless no place is left while there is room in the map. -/
theorem History.Inv.free_or_full (hinv : h.Inv) (hroom : Room h) :
    h.table.entries.length < maxRoutes ∨ maxRoutes ≤ (live h.routes).ncard := by
  rcases hroom with hfew | hall
  · exact Or.inl (hinv.length_lt_iff.mpr hfew)
  · exact Or.inr hall.ge

/-! ## One call -/

theorem History.Inv.add (hinv : h.Inv) (hroom : Room h) {destIp : UInt32}
    {destPort nextHop metric : ℤ} {now : UInt64} (hclock : h.clock ≤ now) :
    (h.step (.add destIp destPort nextHop metric now)).Inv := by
  have hclocked : ∀ e ∈ h.table.entries, e.lastUpdate ≤ now := fun e he =>
    UInt64.le_trans (hinv.clocked e he) hclock
  have hholds := hinv.holds.add (hinv.free_or_full hroom) destIp destPort nextHop metric now
  rw [routingAddRoute] at hholds
  rw [step, RouteCall.table, routingAddRoute, RouteCall.routes, RouteCall.added, RouteCall.time,
    Option.getD_some]
  split_ifs at hholds ⊢ with hmem hfree
  · -- the entry of the destination
    rw [Finset.insert_eq_of_mem (hinv.added_of_mem _ hmem)]
    refine hinv.of_dests_eq (RoutingTable.dests_setFirst fun _ => rfl) hholds ?_
    intro e he
    rcases mem_replaceKey he with he | ⟨t, -, rfl⟩
    · exact hclocked e he
    · exact UInt64.le_refl _
  · -- a new entry
    refine ⟨hholds, ?_, ?_, ?_⟩
    · intro dest hdest
      rw [RoutingTable.dests, List.map_append, List.mem_append, List.map_singleton,
        List.mem_singleton] at hdest
      rw [Finset.mem_insert]
      rcases hdest with hdest | hdest
      · exact Or.inr (hinv.added_of_mem dest hdest)
      · exact Or.inl hdest
    · intro _ dest hdest
      rw [RoutingTable.dests, List.map_append, List.mem_append, List.map_singleton,
        List.mem_singleton]
      rcases Finset.mem_insert.mp hdest with hdest | hdest
      · exact Or.inr hdest
      · exact Or.inl (hinv.mem_of_added hfree dest hdest)
    · intro e he
      rcases List.mem_append.mp he with he | he
      · exact hclocked e he
      · rw [List.mem_singleton.mp he]
        exact UInt64.le_refl _
  · -- no place is left
    refine ⟨hholds, ?_, fun hlt => absurd hlt hfree, hclocked⟩
    intro dest hdest
    exact Finset.mem_insert_of_mem (hinv.added_of_mem dest hdest)

theorem History.Inv.remove (hinv : h.Inv) (destIp : UInt32) (destPort : ℤ) :
    (h.step (.remove destIp destPort)).Inv := by
  have hholds := hinv.holds.remove destIp destPort
  rw [routingRemoveRoute] at hholds
  rw [step, RouteCall.table, routingRemoveRoute, RouteCall.routes, RouteCall.added,
    RouteCall.time, Option.getD_none]
  split_ifs at hholds ⊢
  · refine hinv.of_dests_eq (RoutingTable.dests_setFirst fun _ => rfl) hholds ?_
    intro e he
    rcases mem_replaceKey he with he | ⟨t, ht, rfl⟩
    · exact hinv.clocked e he
    · exact hinv.clocked t ht
  · exact hinv.of_dests_eq rfl hholds hinv.clocked

theorem History.Inv.update (hinv : h.Inv) {now : UInt64} (hclock : h.clock ≤ now) :
    (h.step (.update now)).Inv := by
  have hclocked : ∀ e ∈ h.table.entries, e.lastUpdate ≤ now := fun e he =>
    UInt64.le_trans (hinv.clocked e he) hclock
  refine hinv.of_dests_eq ?_ (hinv.holds.update hclocked) ?_
  · rw [RouteCall.table, routingUpdateTables, RoutingTable.dests, List.map_map]
    exact List.map_congr_left fun e _ => RouteEntry.dest_expire now e
  · intro e he
    obtain ⟨t, ht, rfl⟩ := List.mem_map.mp he
    rw [RouteEntry.lastUpdate_expire]
    exact hclocked t ht

theorem History.Inv.step (hinv : h.Inv) (hroom : Room h) {call : RouteCall}
    (hclock : Clocked h call) : (h.step call).Inv := by
  cases call with
  | add destIp destPort nextHop metric now => exact hinv.add hroom (hclock now rfl)
  | remove destIp destPort => exact hinv.remove destIp destPort
  | update now => exact hinv.update (hclock now rfl)

/-! ## The law along a run -/

/-- While there are routes to spare, a new route needs a free place. -/
theorem History.Inv.refines_iff_room (hinv : h.Inv) : Refines h ↔ Room h := by
  have hcount := hinv.ncard_live
  constructor
  · intro hrefines
    by_contra hroom
    obtain ⟨hmany, hspare⟩ := not_or.mp hroom
    rw [hcount] at hspare
    have hlt : h.table.entries.countP (·.valid) < maxRoutes :=
      Nat.lt_of_le_of_ne (List.countP_le_length.trans h.table.fits) hspare
    obtain ⟨⟨destIp, destPort⟩, hdest⟩ := Infinite.exists_notMem_finset h.table.dests.toFinset
    rw [List.mem_toFinset] at hdest
    have hfound := hrefines.available hlt destIp destPort 0 0 0
    rw [routingAddRoute, if_neg hdest, dif_neg (mt hinv.length_lt_iff.mp hmany),
      hinv.holds.find, hinv.holds.absent _ hdest] at hfound
    exact Option.some_ne_none _ hfound.symm
  · intro hroom
    refine ⟨hinv.holds.nodup, hinv.holds.find, ?_⟩
    intro hlt destIp destPort nextHop metric now
    rw [← hcount] at hlt
    have hnew := hinv.holds.add (hinv.free_or_full hroom) destIp destPort
      nextHop metric now
    rw [hnew.find, insert_of_lt hlt, Function.update_self, Option.map_some]

end Invariant

/-- In the runs in which the clock does not go back, the law holds in every state exactly when in
every state there is room. -/
theorem refines_iff {calls : List RouteCall}
    (hclock : Along History.step Clocked History.start calls) :
    (∀ n, Refines (run History.step History.start (calls.take n))) ↔
      ∀ n, Room (run History.step History.start (calls.take n)) := by
  have hstart := History.inv_start
  rw [forall_run_take_iff, forall_run_take_iff, hstart.refines_iff_room]
  apply and_congr_right
  intro hroom
  have hboth : ∀ P : History → Prop,
      Along History.step (fun h call => P (h.step call)) History.start calls ↔
        Along History.step (fun h call => Clocked h call ∧ P (h.step call)) History.start calls :=
    fun P => by rw [along_and, and_iff_right hclock]
  rw [hboth, hboth]
  apply along_congr_of_invariant fun h => h.Inv ∧ Room h
  · rintro h call ⟨hinv, hroom⟩
    exact and_congr_right fun hclock => (hinv.step hroom hclock).refines_iff_room
  · rintro h call ⟨hinv, hroom⟩ ⟨hclock, hrefines⟩
    have hinv' := hinv.step hroom hclock
    exact ⟨hinv', hinv'.refines_iff_room.mp hrefines⟩
  · exact ⟨hstart, hroom⟩

/-! ## A table that is full of removed routes -/

/-- The times of the calls do not go back. -/
theorem along_clocked_iff {h : History} {calls : List RouteCall} :
    Along History.step Clocked h calls ↔
      (h.clock :: calls.filterMap RouteCall.time).IsChain (· ≤ ·) := by
  induction calls generalizing h with
  | nil => simp [Along]
  | cons call calls ih =>
    rw [Along, ih, List.filterMap_cons, History.step, Clocked]
    cases htime : call.time with
    | none => simp
    | some now => simp [List.isChain_cons_cons]

/-- New destinations take the next entries, as long as there are any. -/
theorem entries_run_add {h : History} {dests : List Dest} {nextHop metric : ℤ} {now : UInt64}
    (hnew : (h.table.dests ++ dests).Nodup)
    (hfits : (h.table.dests ++ dests).length ≤ maxRoutes) :
    (run History.step h
        (dests.map fun dest => .add dest.1 dest.2 nextHop metric now)).table.entries =
      h.table.entries ++ dests.map fun dest => ⟨dest.1, dest.2, nextHop, metric, now, true⟩ := by
  induction dests generalizing h with
  | nil => simp
  | cons dest dests ih =>
    have hmem : (dest.1, dest.2) ∉ h.table.dests := by
      intro hdest
      exact (List.nodup_append.mp hnew).2.2 _ hdest _ List.mem_cons_self rfl
    have hfree : h.table.entries.length < maxRoutes := by
      rw [List.length_append, RoutingTable.dests, List.length_map, List.length_cons] at hfits
      omega
    have hentries : (h.step (.add dest.1 dest.2 nextHop metric now)).table.entries =
        h.table.entries ++ [⟨dest.1, dest.2, nextHop, metric, now, true⟩] := by
      rw [History.step, RouteCall.table, routingAddRoute, if_neg hmem, dif_pos hfree]
    have hdests : (h.step (.add dest.1 dest.2 nextHop metric now)).table.dests ++ dests =
        h.table.dests ++ dest :: dests := by
      rw [RoutingTable.dests, hentries, List.map_append, List.append_assoc]
      rfl
    rw [List.map_cons, run_cons, ih (hdests ▸ hnew) (hdests ▸ hfits), hentries,
      List.append_assoc, List.singleton_append, List.map_cons]

/-- A route is removed, expires or is added again: two destinations in all. -/
def revivedCalls : List RouteCall :=
  [.add 1 8080 5 1 100, .add 2 9090 6 2 200, .remove 1 8080, .update 60200, .add 1 8080 7 3 60200]

theorem refines_iff_revivedCalls : Refines (run History.step History.start revivedCalls) := by
  have hclock : Along History.step Clocked History.start revivedCalls :=
    along_clocked_iff.mpr (by decide)
  refine (refines_iff hclock).mpr ((forall_run_take_iff Room).mpr ⟨Or.inl ?_, ?_⟩) 5
  · decide
  · refine ⟨Or.inl ?_, Or.inl ?_, Or.inl ?_, Or.inl ?_, Or.inl ?_, trivial⟩
    all_goals decide +kernel

/-- As many destinations as there are entries. -/
def fullDests : List Dest := (List.range 256).map fun i : ℕ => (1, (i : ℤ))

theorem length_fullDests : fullDests.length = maxRoutes :=
  (List.length_map _).trans List.length_range

/-- Every entry is taken. -/
def fullTable : RoutingTable :=
  ⟨fullDests.map fun dest => ⟨dest.1, dest.2, 5, 1, 0, true⟩,
    ((List.length_map _).trans length_fullDests).le⟩

/-- Every entry is taken, and then the first route is removed. -/
def fullCalls : List RouteCall :=
  (fullDests.map fun dest => .add dest.1 dest.2 5 1 0) ++ [.remove 1 0]

theorem table_fullCalls :
    (run History.step History.start fullCalls).table = (routingRemoveRoute fullTable 1 0).1 := by
  have hnodup : fullDests.Nodup := by
    refine List.nodup_range.map ?_
    intro i j hij
    simpa using hij
  have hentries := @entries_run_add History.start fullDests 5 1 0 hnodup length_fullDests.le
  have hfull : (run History.step History.start
      (fullDests.map fun dest => .add dest.1 dest.2 5 1 0)).table = fullTable :=
    RoutingTable.ext hentries
  have hremove : ∀ calls, (run History.step History.start (calls ++ [.remove 1 0])).table =
      (routingRemoveRoute (run History.step History.start calls).table 1 0).1 := by
    intro calls
    rw [run, List.foldl_append]
    rfl
  rw [fullCalls, hremove, hfull]

/-- One more destination has no place. -/
theorem fullCalls_not_refines : Along History.step Clocked History.start fullCalls ∧
    ¬Refines (run History.step History.start fullCalls) := by
  constructor
  · rw [along_clocked_iff]
    decide +kernel
  · intro hrefines
    have havailable := hrefines.available
    rw [table_fullCalls] at havailable
    have hfound := havailable (by decide +kernel) 2 0 7 1 0
    revert hfound
    decide +kernel

end Blackstone.SecuritySystem
