/-
  OverlayCensus — entries of its own.

  Distance 0 stands for the peer itself: its own metrics are told at distance 0, and what others
  advertise is one hop further away, even at the largest distance.  Nothing but an advertisement
  in the peer's own name could mix these up.

  * `DistanceReport.Honest`: a report at distance 0 if and only if it is the peer's own;
  * `DistanceTable.Sound.mergeReports`: honest reports keep the two apart in every entry, and so
    does whatever only drops entries;
  * `Engine.Sound.after`, `Engine.Sound.afterAll`: so does every event, and every run;
  * `Engine.own_entries`: the entries of a peer after any events.
-/
import Mathlib
import OverlayCensus.Proofs.DistanceReports
import OverlayCensus.Proofs.QueryIsolation

namespace OverlayCensus

variable {me : PeerAddress}

/-! ## Entries -/

/-- A report at distance 0 if and only if it is the peer's own. -/
def DistanceReport.Honest (r : DistanceReport) (me : PeerAddress) : Prop :=
  r.distance = 0 ↔ r.holder = me

/-- What others advertise is never at distance 0. -/
theorem DistanceReport.honest_ofAdvertised {sender : PeerAddress} (h : sender ≠ me)
    (entry : String × UInt32) : (ofAdvertised sender entry).Honest me := by
  refine iff_of_false (fun hzero => ?_) h
  have htoNat := congrArg UInt32.toNat hzero
  rw [ofAdvertised, ← DistanceTable.nextHop_eq, toNat_nextHop, UInt32.toNat_zero] at htoNat
  omega

namespace DistanceEntry

/-- The entry is at distance 0 if and only if the peer itself is a holder, and somebody is one. -/
structure Sound (e : DistanceEntry) (me : PeerAddress) : Prop where
  own : e.distance = 0 ↔ me ∈ e.holders
  held : ∃ p, p ∈ e.holders

theorem sound_of_honest {r : DistanceReport} (h : r.Honest me) :
    Sound ⟨r.name, r.distance, .single r.holder⟩ me where
  own := h.trans (eq_comm.trans PeerSet.mem_single.symm)
  held := ⟨r.holder, PeerSet.mem_single.2 rfl⟩

/-- **An honest report keeps an entry sound.** -/
theorem Sound.merge {e : DistanceEntry} {r : DistanceReport} (he : e.Sound me)
    (hr : r.Honest me) : (e.merge r.distance r.holder).2.Sound me where
  own := by
    have hmin : min e.distance r.distance = 0 ↔ e.distance = 0 ∨ r.distance = 0 := by
      simp only [← UInt32.toNat_inj, UInt32.toNat_min, UInt32.toNat_zero, Nat.min_eq_zero_iff]
    calc min e.distance r.distance = 0
      _ ↔ e.distance = 0 ∨ r.distance = 0 := hmin
      _ ↔ me ∈ e.holders ∨ r.holder = me := or_congr he.own hr
      _ ↔ me ∈ e.holders.insert r.holder := by rw [PeerSet.mem_insert, or_comm, eq_comm]
  held := ⟨r.holder, PeerSet.mem_insert.2 (Or.inl rfl)⟩

end DistanceEntry

/-! ## Tables -/

namespace DistanceTable

variable {t t' : DistanceTable}

/-- All entries are sound. -/
def Sound (t : DistanceTable) (me : PeerAddress) : Prop :=
  ∀ e ∈ t.cache.entries, e.2.Sound me

theorem Sound.same (h : t.Sound me) (hsame : t.Same t') : t'.Sound me :=
  fun e he => h e ((hsame.entries e).1 he)

theorem Sound.forgetHolder (h : t.Sound me) (p : PeerAddress) : (t.forgetHolder p).2.Sound me :=
  fun e he => h e (List.mem_of_mem_filter he)

/-- An entry after a report is an old one, a merged one or the reported one; which entry has been
    pushed out does not matter. -/
theorem Sound.merge {r : DistanceReport} (h : t.Sound me) (hr : r.Honest me) :
    (t.merge r.name r.distance r.holder).2.Sound me := by
  intro e he
  rcases Cache.mem_entries_upsert he with he | rfl | ⟨former, hformer, rfl⟩
  · exact h e he
  · exact DistanceEntry.sound_of_honest hr
  · exact (h _ hformer).merge hr

theorem Sound.mergeReports {rs : List DistanceReport} (h : t.Sound me)
    (hrs : ∀ r ∈ rs, r.Honest me) : (t.mergeReports rs).2.Sound me := by
  induction rs generalizing t with
  | nil => exact h
  | cons r rs ih =>
    exact ih (h.merge (hrs r List.mem_cons_self)) fun r' hr' => hrs r' (List.mem_cons_of_mem _ hr')

theorem Sound.mergeAdvertised {sender : PeerAddress} (h : t.Sound me) (hne : sender ≠ me)
    (es : List (String × UInt32)) : (t.mergeAdvertised sender es).2.Sound me := by
  rw [mergeAdvertised_eq]
  refine h.mergeReports fun r hr => ?_
  obtain ⟨entry, -, rfl⟩ := List.mem_map.1 hr
  exact DistanceReport.honest_ofAdvertised hne entry

end DistanceTable

/-! ## Engines -/

namespace Engine

variable {e : Engine}

/-- What happens to an engine: it is seeded, its metrics change, or a message comes in. -/
inductive Event where
  | seed
  | equip (metrics : Metrics)
  | message (i : Input)

/-- The event is no advertisement of distances in the name of the peer. -/
def Event.Foreign (me : PeerAddress) : Event → Prop
  | .message ⟨_, _, .distances sender _⟩ => sender ≠ me
  | _ => True

/-- The engine after an event. -/
def after (e : Engine) : Event → Engine
  | .seed => e.seed
  | .equip metrics => { e with metrics := metrics }
  | .message i => (e.take i).1

/-- The engine after events in order. -/
def afterAll (e : Engine) (events : List Event) : Engine :=
  events.foldl after e

/-- Distance 0 stands for the peer itself in all entries of its table. -/
def Sound (e : Engine) : Prop :=
  e.distances.Sound e.identity

/-- The peer's own metrics are entered by reports at distance 0. -/
theorem distances_enterOwn_eq (e : Engine) (own : List String) :
    (e.enterOwn own).distances =
      (e.distances.mergeReports (own.map fun name => ⟨name, 0, e.identity⟩)).2 := by
  induction own generalizing e with
  | nil => rfl
  | cons name own ih => exact ih _

theorem identity_after (e : Engine) (event : Event) : (e.after event).identity = e.identity := by
  cases event with
  | seed => exact e.identity_seed
  | equip metrics => rfl
  | message i =>
    cases hr : e.handle i.neighbors i.pick i.message with
    | none => rw [after, take, hr, Option.getD_none]
    | some r =>
      rw [after, take, hr, Option.getD_some]
      exact identity_of_handle hr

theorem Sound.seed (h : e.Sound) : e.seed.Sound := by
  rw [Sound, identity_seed, Engine.seed, distances_enterOwn_eq]
  refine DistanceTable.Sound.mergeReports (h.forgetHolder e.identity) fun r hr => ?_
  obtain ⟨name, -, rfl⟩ := List.mem_map.1 hr
  exact iff_of_true rfl rfl

theorem Sound.take (h : e.Sound) {i : Input} (hi : (Event.message i).Foreign e.identity) :
    (e.take i).1.distances.Sound e.identity := by
  obtain ⟨neighbors, pick, m⟩ := i
  cases m with
  | query kind q =>
    rw [Engine.take, handle_query, Option.getD_some]
    exact DistanceTable.Sound.same h (e.same_onQuery neighbors pick kind q)
  | distances sender entries => exact DistanceTable.Sound.mergeAdvertised h hi entries
  | _ => exact h

/-- **Every event keeps the entries sound.** -/
theorem Sound.after (h : e.Sound) {event : Event} (hevent : event.Foreign e.identity) :
    (e.after event).Sound := by
  rw [Sound, identity_after]
  cases event with
  | seed => exact e.identity_seed ▸ h.seed
  | equip metrics => exact h
  | message i => exact h.take hevent

theorem Sound.afterAll (h : e.Sound) {events : List Event}
    (hevents : ∀ event ∈ events, event.Foreign e.identity) :
    (e.afterAll events).Sound ∧ (e.afterAll events).identity = e.identity := by
  induction events generalizing e with
  | nil => exact ⟨h, rfl⟩
  | cons event events ih =>
    have hidentity := e.identity_after event
    obtain ⟨hsound, hrest⟩ := ih (h.after (hevents event List.mem_cons_self)) fun event' he' =>
      hidentity ▸ hevents event' (List.mem_cons_of_mem _ he')
    exact ⟨hsound, hrest.trans hidentity⟩

/-- **Gossip does not touch what is the peer's own.**  An engine starts with empty tables of any
    size; then it is seeded, its metrics change, and messages come in, in any order, with any
    distances, and none of them advertises distances in the peer's own name.  Then an entry of its
    table is at distance 0 if and only if the peer itself is among its holders, and no entry is
    without holders. -/
theorem own_entries (identity : PeerAddress) (metrics : Metrics) (settings : EngineSettings)
    (coins : Draws) {events : List Event} (hevents : ∀ event ∈ events, event.Foreign identity) :
    let e := (Engine.new identity metrics settings coins).afterAll events
    e.identity = identity ∧ ∀ entry ∈ e.distances.entries,
      (entry.distance = 0 ↔ identity ∈ entry.holders) ∧ ∃ p, p ∈ entry.holders := by
  intro e
  have hempty : (Engine.new identity metrics settings coins).Sound := nofun
  obtain ⟨hsound, hidentity⟩ := hempty.afterAll hevents
  refine ⟨hidentity, fun entry hentry => ?_⟩
  obtain ⟨filed, hfiled, rfl⟩ := List.mem_map.1 hentry
  have hentry := hsound filed hfiled
  rw [hidentity] at hentry
  exact ⟨hentry.own, hentry.held⟩

namespace Sample

open OverlayCensus.Sample (peer)

/-- A message from a neighbour. -/
def tells (m : Message) : Event :=
  .message ⟨[peer 2, peer 3], 0, m⟩

/-- A peer hears of more than it has room for, loses an entry of its own, and is given a metric
    that others told at the largest distance. -/
def turmoil : List Event :=
  [.seed, tells (.distances (peer 2) [("t", 0), ("u", 0xFFFFFFFF), ("v", 3)]),
    .equip (.ofCounts 5 [("u", 2)]), tells (asks 8 "u"), .seed,
    tells (.locations (peer 1) [(peer 1, "v")]),
    tells (.distances (peer 3) [("u", 0), ("v", 0xFFFFFFFF)])]

theorem own_entries_turmoil : (∀ event ∈ turmoil, event.Foreign (peer 1)) ∧
    (narrow.afterAll turmoil).distances.entries =
      [⟨"v", 4, .ofList [peer 2, peer 3]⟩, ⟨"u", 0, .ofList [peer 1, peer 2, peer 3]⟩] ∧
    ∀ entry ∈ (narrow.afterAll turmoil).distances.entries,
      (entry.distance = 0 ↔ peer 1 ∈ entry.holders) ∧ ∃ p, p ∈ entry.holders := by
  have hforeign : ∀ event ∈ turmoil, event.Foreign (peer 1) := by
    simp [turmoil, tells, asks, Event.Foreign, peer]
  exact ⟨hforeign, by decide +kernel, (own_entries _ _ _ _ hforeign).2⟩

/-- An advertisement in the peer's own name would not be told apart from one of a neighbour. -/
example : (narrow.afterAll [.seed, tells (.distances (peer 1) [("u", 0)])]).distances.entries =
    [⟨"u", 1, .single (peer 1)⟩, ⟨"t", 0, .single (peer 1)⟩] := by decide +kernel

end Sample

end Engine

end OverlayCensus
