/-
  OverlayCensus — gossip about locations dies out where the tables have room.

  A peer tells its locations again whenever one of them is new in its table.  A table with
  room for all locations around its peer takes each of them for new once (`missing`).  A
  smaller one may take a location for new again and again, but tells it to others than it
  heard it from, so where the links between peers with small tables form no cycle, it gets to
  fewer and fewer of them (`ahead`).

  * `Spreading`: what gossip about locations is about during a run;
  * `locationsLeft_after`: a delivery of it lowers the locations that are missing and the
    ranks of such messages in flight, taken lexicographically, and no other delivery changes
    them;
  * `locations_die_out`: so, first in, first out, it comes to an end.
-/
import Mathlib
import OverlayCensus.Proofs.AntiEntropy
import OverlayCensus.Proofs.Forest
import OverlayCensus.Proofs.HopOrder

namespace OverlayCensus

/-! ## Tables of any size -/

namespace LocationTable

variable {t : LocationTable} {l l' : Location}

theorem mem_of_mem_merge (h : l' ∈ (t.merge l).2.entries) : l' ∈ t.entries ∨ l' = l := by
  obtain ⟨e, he, rfl⟩ := mem_entries_iff.1 h
  rcases Cache.mem_entries_putSkipping he with rfl | he
  · exact Or.inr rfl
  · exact Or.inl (mem_entries_iff.2 ⟨e, he, rfl⟩)

/-- A table has nothing but what it had and what it was told. -/
theorem mem_of_mem_mergeAll {new : List Location} (h : l ∈ (t.mergeAll new).2.entries) :
    l ∈ t.entries ∨ l ∈ new := by
  induction new generalizing t with
  | nil => exact Or.inl h
  | cons l₀ new ih =>
    rcases ih h with h | h
    · rcases mem_of_mem_merge h with h | rfl
      · exact Or.inl h
      · exact Or.inr List.mem_cons_self
    · exact Or.inr (List.mem_cons_of_mem _ h)

end LocationTable

namespace Engine

theorem mem_of_mem_enterOwn {e : Engine} {own : List String} {l : Location}
    (h : l ∈ (e.enterOwn own).locations.entries) :
    l ∈ e.locations.entries ∨ l.holder = e.identity ∧ l.name ∈ own := by
  induction own generalizing e with
  | nil => exact Or.inl h
  | cons name own ih =>
    rcases ih h with h | ⟨hholder, hname⟩
    · rcases LocationTable.mem_of_mem_merge h with h | rfl
      · exact Or.inl h
      · exact Or.inr ⟨rfl, List.mem_cons_self⟩
    · exact Or.inr ⟨hholder, List.mem_cons_of_mem _ hname⟩

/-- A new engine that is seeded has no locations but its own, whatever the size of its
    table. -/
theorem mem_locations_seed {identity : PeerAddress} {metrics : Metrics}
    {settings : EngineSettings} {coins : Draws} {l : Location}
    (h : l ∈ ((Engine.new identity metrics settings coins).seed).locations.entries) :
    l.holder = identity ∧ l.name ∈ metrics.metricNames := by
  rcases mem_of_mem_enterOwn h with h | h
  · cases h
  · exact h

/-- **Only gossip about locations** changes the locations of an engine or makes it tell
    them. -/
theorem locations_of_other {e : Engine} {neighbors : List PeerAddress} {pick : ℕ} {m : Message}
    {r : Engine × List Parcel} (hr : e.handle neighbors pick m = some r)
    (hother : ∀ s es, m ≠ .locations s es) :
    r.1.locations = e.locations ∧ ∀ p ∈ r.2, ∀ s es, p.message ≠ .locations s es := by
  cases m with
  | query kind q =>
    rw [handle_query, Option.some.injEq] at hr
    have hh : e.Handled kind q r := hr ▸ e.handled_onQuery neighbors pick kind q
    constructor
    · obtain ⟨t, first, rest, rfl, -⟩ := hh
      rfl
    · intro p hp s es hmessage
      rcases hh.mem hp with h | h <;> cases h.symm.trans hmessage
  | distances sender es =>
    cases hr
    refine ⟨rfl, fun p hp s es hmessage => ?_⟩
    simp only [onDistances] at hp
    split_ifs at hp
    · obtain ⟨r, -, -, rfl⟩ := mem_toAll.1 hp
      cases hmessage
    · cases hp
  | locations sender es => exact absurd rfl (hother sender es)
  | _ => cases hr

end Engine

namespace Network

/-! ## Room in the tables -/

/-- The locations that a peer knows. -/
def tableOf (net : Network) (p : PeerAddress) : Option LocationTable :=
  (net.node? p).map fun n => n.engine.locations

open Classical in
/-- All metrics of the peers connected to a peer, together with these peers. -/
noncomputable def locationsAround (net : Network) (p : PeerAddress) : Finset Location :=
  net.locations.filter fun l => net.graph.Reachable p l.holder

/-- The location table of a peer has room for all locations around it, under keys that
    differ. -/
def RoomAt (net : Network) (p : PeerAddress) : Prop :=
  ∀ t ∈ net.tableOf p, (net.locationsAround p).card ≤ t.cache.capacity ∧
    Set.InjOn Location.key (net.locationsAround p)

/-- The links between peers whose tables lack room. -/
def narrow (net : Network) : SimpleGraph PeerAddress where
  Adj p r := net.graph.Adj p r ∧ ¬ net.RoomAt p ∧ ¬ net.RoomAt r
  symm := ⟨fun _ _ h => ⟨h.1.symm, h.2.2, h.2.1⟩⟩
  loopless := ⟨fun p h => net.graph.loopless.irrefl p h.1⟩

/-- Gossip about locations during a run: tables and messages are about the peers around them,
    messages go to neighbours, and where there was room for all locations, there still is. -/
structure Spreading (net now : Network) : Prop where
  later : net.Later now
  known : ∀ p, ∀ t ∈ now.tableOf p, ∀ l ∈ t.entries, l ∈ net.locationsAround p
  room : ∀ p, net.RoomAt p → ∀ t ∈ now.tableOf p, t.HasRoom (net.locationsAround p)
  gossip : ∀ m ∈ now.flight, ∀ s es, m.message = .locations s es →
    m.receiver ∈ net.neighborsOf s ∧
      ∀ l ∈ es, (⟨l.1, l.2⟩ : Location) ∈ net.locationsAround m.receiver

section
variable {net : Network} {p r : PeerAddress} {l : Location}

theorem mem_locationsAround :
    l ∈ net.locationsAround p ↔ l ∈ net.locations ∧ net.graph.Reachable p l.holder := by
  simp only [locationsAround, Finset.mem_filter]

theorem locationsAround_eq (h : net.graph.Reachable p r) :
    net.locationsAround p = net.locationsAround r := by
  ext l
  rw [mem_locationsAround, mem_locationsAround]
  exact and_congr_right fun _ => ⟨fun hp => h.symm.trans hp, fun hr => h.trans hr⟩

end

/-! ## One delivery -/

/-- A peer hears locations from another one.  Its table merges them, and if that has changed
    it, the peer tells all its locations to its other neighbours. -/
structure Heard (now : Network) (d : Delivery) (m : Envelope) (s : PeerAddress)
    (new : List Location) (t : LocationTable) (next : Network) : Prop where
  table : now.tableOf m.receiver = some t
  tables : ∀ p, next.tableOf p =
    if p = m.receiver then some (t.mergeAll new).2 else now.tableOf p
  flight : next.flight = (now.without d.index).flight ++
    if (t.mergeAll new).1 = true then
      (Engine.toAll (now.neighborsOf m.receiver) [s] (.locations m.receiver
        ((t.mergeAll new).2.entries.map fun l => (l.holder, l.name)))).map Parcel.envelope
    else []

section
variable {net now : Network} {d : Delivery} {m : Envelope}
  (hm : now.flight[d.index]? = some m)
include hm

theorem heard_after {s : PeerAddress} {es : List (PeerAddress × String)}
    (hmessage : m.message = .locations s es) (hpeer : now.IsPeer m.receiver) :
    ∃ t, Heard now d m s (es.map fun l => ⟨l.1, l.2⟩) t (now.after d) := by
  obtain ⟨n, hn⟩ := Option.isSome_iff_exists.1 hpeer.2
  have hstep := step_after hm
  generalize now.after d = next at hstep
  cases hstep with
  | observed hreg => exact absurd hreg hpeer.1
  | lost _ hnone => rw [hn] at hnone; cases hnone
  | refused _ hn' href =>
    rw [hmessage] at href
    cases href
  | @handled n' r _ hn' hr =>
    cases hn.symm.trans hn'
    have hnode := node?_handled (i := d.index) hn hr
    rw [hmessage] at hr
    cases hr
    refine ⟨n.engine.locations, by rw [tableOf, hn]; rfl, fun p => ?_, ?_⟩
    · rw [tableOf, hnode p]
      split_ifs <;> rfl
    · show (now.without d.index).flight ++
        (n.engine.onLocations n.neighbors s es).2.map Parcel.envelope = _
      rw [neighborsOf_eq hn, ← identity_of_node? hn]
      by_cases hchanged : (n.engine.locations.mergeAll (es.map fun l => ⟨l.1, l.2⟩)).1 = true
      · rw [if_pos hchanged, Engine.onLocations]
        simp only [hchanged, if_true]
        rfl
      · rw [if_neg hchanged, Engine.onLocations]
        simp only [hchanged, Bool.false_eq_true, if_false, List.map_nil]

/-- **No other message changes a table of locations** or makes a peer tell locations. -/
theorem tableOf_after (hother : ∀ s es, m.message ≠ .locations s es) :
    (now.after d).tableOf = now.tableOf ∧
      ∃ sent, (now.after d).flight = (now.without d.index).flight ++ sent ∧
        ∀ m' ∈ sent, ∀ s es, m'.message ≠ .locations s es := by
  have hstep := step_after hm
  generalize now.after d = next at hstep
  cases hstep with
  | observed | lost | refused => exact ⟨rfl, [], (List.append_nil _).symm, by simp⟩
  | @handled n r _ hn hr =>
    have hnode := node?_handled (i := d.index) hn hr
    have hkept := Engine.locations_of_other hr hother
    refine ⟨funext fun p => ?_, _, rfl, fun m' hm' => ?_⟩
    · rw [tableOf, tableOf, hnode p]
      split_ifs with hp
      · rw [hp, hn]
        exact congrArg some hkept.1
      · rfl
    · obtain ⟨parcel, hparcel, rfl⟩ := List.mem_map.1 hm'
      exact hkept.2 parcel hparcel

end

/-! ## What is left -/

open Classical in
/-- The peers that gossip about locations in flight may come to yet, one whose receiver has
    room for all of them coming to nobody else. -/
noncomputable def gossipRank (net : Network) (m : Envelope) : Option ℕ :=
  match m.message with
  | .locations s _ =>
    some (if net.RoomAt m.receiver then 0 else (ahead net.narrow s m.receiver).ncard)
  | _ => none

/-- The ranks of all gossip about locations in flight. -/
noncomputable def gossipRanks (net now : Network) : Multiset ℕ :=
  (now.flight.filterMap net.gossipRank : List ℕ)

open Classical in
/-- The locations that are missing in tables with room for all of them. -/
noncomputable def missing (net now : Network) : Finset (PeerAddress × Location) :=
  (net.peers.toFinset ×ˢ net.locations).filter fun x => net.RoomAt x.1 ∧
    x.2 ∈ net.locationsAround x.1 ∧ ∀ t ∈ now.tableOf x.1, x.2 ∉ t.entries

/-- How far gossip about locations is from its end. -/
noncomputable def locationsLeft (net now : Network) : ℕ × Multiset ℕ :=
  ((net.missing now).card, net.gossipRanks now)

section
variable {net now next : Network} {d : Delivery} {m m' : Envelope} {s p : PeerAddress}
  {es : List (PeerAddress × String)} {new : List Location} {t : LocationTable} {l : Location}

theorem gossipRank_eq_none (hother : ∀ s es, m.message ≠ .locations s es) :
    net.gossipRank m = none := by
  obtain ⟨r, message⟩ := m
  cases message with
  | locations s es => exact absurd rfl (hother s es)
  | _ => rfl

theorem gossipRank_of_room (hmessage : m.message = .locations s es)
    (hroom : net.RoomAt m.receiver) : net.gossipRank m = some 0 := by
  rw [gossipRank, hmessage]
  exact congrArg some (if_pos hroom)

theorem gossipRank_of_no_room (hmessage : m.message = .locations s es)
    (hroom : ¬ net.RoomAt m.receiver) :
    net.gossipRank m = some (ahead net.narrow s m.receiver).ncard := by
  rw [gossipRank, hmessage]
  exact congrArg some (if_neg hroom)

theorem finite_ahead (hlinked : net.Linked) (s r : PeerAddress) :
    (ahead net.narrow s r).Finite :=
  finite_ahead_of_adj (G := net.narrow)
    (fun _ _ hadj => hlinked.mem_peers (hlinked.adj_iff.1 hadj.1)) s r

/-- **What a peer without room passes on has a lower rank**, where the links between such
    peers form no cycle. -/
theorem gossipRank_lt (hlinked : net.Linked) (hforest : net.narrow.IsAcyclic)
    (hroom : ¬ net.RoomAt p) (hlink : m'.receiver ∈ net.neighborsOf p) (hne : m'.receiver ≠ s)
    (hmessage : m'.message = .locations p es) :
    ∀ b ∈ net.gossipRank m', b < (ahead net.narrow s p).ncard := by
  intro b hb
  by_cases hroom' : net.RoomAt m'.receiver
  · rw [gossipRank_of_room hmessage hroom'] at hb
    cases hb
    exact (Set.ncard_pos (finite_ahead hlinked s p)).2 ⟨p, mem_ahead_self _ _ _⟩
  · rw [gossipRank_of_no_room hmessage hroom'] at hb
    cases hb
    exact Set.ncard_lt_ncard
      (ahead_ssubset hforest ⟨hlinked.adj_iff.2 hlink, hroom, hroom'⟩ hne)
      (finite_ahead hlinked s p)

/-- A message that is replaced by such of lower rank lowers the ranks. -/
theorem gossipRanks_lt {i a : ℕ} {sent : List Envelope} (hm : now.flight[i]? = some m)
    (hrank : net.gossipRank m = some a) (hflight : next.flight = (now.without i).flight ++ sent)
    (hsent : ∀ m' ∈ sent, ∀ b ∈ net.gossipRank m', b < a) :
    Multiset.IsDershowitzMannaLT (net.gossipRanks next) (net.gossipRanks now) := by
  refine ⟨((now.without i).flight.filterMap net.gossipRank : List ℕ),
    (sent.filterMap net.gossipRank : List ℕ), {a}, by simp, ?_, ?_, ?_⟩
  · rw [gossipRanks, hflight, List.filterMap_append, ← Multiset.coe_add]
  · rw [gossipRanks, Multiset.coe_eq_coe.2 ((perm_flight hm).filterMap _),
      List.filterMap_cons_some hrank, ← Multiset.cons_coe, add_comm, Multiset.singleton_add]
  · intro b hb
    obtain ⟨m', hm', hb⟩ := List.mem_filterMap.1 (Multiset.mem_coe.1 hb)
    exact ⟨a, Multiset.mem_singleton_self a, hsent m' hm' b hb⟩

namespace Heard
variable (hheard : Heard now d m s new t next)
include hheard

theorem tableOf_receiver : next.tableOf m.receiver = some (t.mergeAll new).2 := by
  rw [hheard.tables, if_pos rfl]

theorem tableOf_of_ne (hp : p ≠ m.receiver) : next.tableOf p = now.tableOf p := by
  rw [hheard.tables, if_neg hp]

/-- What the peer tells goes to its neighbours but the one it heard from. -/
theorem exists_sent : ∃ sent, next.flight = (now.without d.index).flight ++ sent ∧
    ((t.mergeAll new).1 = false → sent = []) ∧
    ∀ m' ∈ sent, m'.receiver ∈ now.neighborsOf m.receiver ∧ m'.receiver ≠ s ∧
      m'.message = .locations m.receiver
        ((t.mergeAll new).2.entries.map fun l => (l.holder, l.name)) := by
  refine ⟨_, hheard.flight, fun hsame => ?_, fun m' hm' => ?_⟩
  · rw [hsame]
    rfl
  · split_ifs at hm'
    · obtain ⟨parcel, hparcel, rfl⟩ := List.mem_map.1 hm'
      obtain ⟨r, hr, hs, rfl⟩ := Engine.mem_toAll.1 hparcel
      exact ⟨hr, fun he => hs (List.mem_singleton.2 he), rfl⟩
    · cases hm'

/-- A table with room loses nothing. -/
theorem missing_subset (h : net.Spreading now)
    (hnew : ∀ l ∈ new, l ∈ net.locationsAround m.receiver) :
    net.missing next ⊆ net.missing now := by
  classical
  intro ⟨p, l⟩ hx
  simp only [missing, Finset.mem_filter] at hx ⊢
  obtain ⟨hmem, hroom, haround, hlacks⟩ := hx
  refine ⟨hmem, hroom, haround, fun t' ht' hl => ?_⟩
  by_cases hp : p = m.receiver
  · subst hp
    rw [hheard.table] at ht'
    cases ht'
    have hmerged := (LocationTable.mem_mergeAll (h.room _ hroom t hheard.table) hnew).2.1 l
    exact hlacks _ hheard.tableOf_receiver (hmerged.2 (Or.inl hl))
  · rw [hheard.tableOf_of_ne hp] at hlacks
    exact hlacks t' ht' hl

/-- A table with room that has changed has a location more. -/
theorem missing_ssubset (h : net.Spreading now) (hpeer : m.receiver ∈ net.peers)
    (hnew : ∀ l ∈ new, l ∈ net.locationsAround m.receiver) (hroom : net.RoomAt m.receiver)
    (hchanged : (t.mergeAll new).1 = true) : net.missing next ⊂ net.missing now := by
  classical
  have hhas := h.room _ hroom t hheard.table
  obtain ⟨l, hl, hlacks⟩ : ∃ l ∈ new, l ∉ t.entries := by
    by_contra! hall
    rw [LocationTable.mergeAll_eq_false hhas hall] at hchanged
    cases hchanged
  have haround := hnew l hl
  have hmerged := (LocationTable.mem_mergeAll hhas hnew).2.1 l
  refine (Finset.ssubset_iff_of_subset (hheard.missing_subset h hnew)).2
    ⟨(m.receiver, l), ?_, ?_⟩
  · simp only [missing, Finset.mem_filter, Finset.mem_product, List.mem_toFinset, hheard.table,
      Option.mem_some, forall_eq']
    exact ⟨⟨hpeer, (mem_locationsAround.1 haround).1⟩, hroom, haround, hlacks⟩
  · simp only [missing, Finset.mem_filter, hheard.tableOf_receiver, Option.mem_some, forall_eq']
    exact fun hx => hx.2.2.2 (hmerged.2 (Or.inr hl))

end Heard

/-- A peer hears locations from a neighbour, and they are about the peers around it. -/
theorem Spreading.heard (h : net.Spreading now) (hlinked : net.Linked)
    (hm : now.flight[d.index]? = some m) (hmessage : m.message = .locations s es) :
    m.receiver ∈ net.neighborsOf s ∧
      (∀ l ∈ es.map fun l => (⟨l.1, l.2⟩ : Location), l ∈ net.locationsAround m.receiver) ∧
      ∃ t, Heard now d m s (es.map fun l => ⟨l.1, l.2⟩) t (now.after d) := by
  obtain ⟨hlink, hes⟩ := h.gossip m (List.mem_of_getElem? hm) s es hmessage
  refine ⟨hlink, fun l hl => ?_, heard_after hm hmessage
    ((isPeer_congr h.later _).2 (hlinked.isPeer_of_mem hlink))⟩
  obtain ⟨e, he, rfl⟩ := List.mem_map.1 hl
  exact hes e he

/-- **A delivery of locations leaves less to come.** -/
theorem locationsLeft_lt (hlinked : net.Linked) (hforest : net.narrow.IsAcyclic)
    (h : net.Spreading now) (hm : now.flight[d.index]? = some m)
    (hmessage : m.message = .locations s es) :
    Lower (net.locationsLeft (now.after d)) (net.locationsLeft now) := by
  obtain ⟨hlink, hnew, t, hheard⟩ := h.heard hlinked hm hmessage
  have hle := Finset.card_le_card (hheard.missing_subset h hnew)
  obtain ⟨sent, hflight, hsame, hsent⟩ := hheard.exists_sent
  by_cases hroom : net.RoomAt m.receiver
  · by_cases hchanged : (t.mergeAll (es.map fun l => ⟨l.1, l.2⟩)).1 = true
    · exact Prod.Lex.left _ _ (Finset.card_lt_card
        (hheard.missing_ssubset h (hlinked.mem_peers hlink) hnew hroom hchanged))
    · refine Prod.Lex.right' _ hle
        (gossipRanks_lt hm (gossipRank_of_room hmessage hroom) hflight fun m' hm' => ?_)
      rw [hsame (Bool.not_eq_true _ ▸ hchanged)] at hm'
      cases hm'
  · refine Prod.Lex.right' _ hle
      (gossipRanks_lt hm (gossipRank_of_no_room hmessage hroom) hflight fun m' hm' => ?_)
    obtain ⟨hlink', hne, hmessage'⟩ := hsent m' hm'
    rw [h.later.neighborsOf] at hlink'
    exact gossipRank_lt hlinked hforest hroom hlink' hne hmessage'

/-- Any other delivery changes nothing about it. -/
theorem locationsLeft_eq (hm : now.flight[d.index]? = some m)
    (hother : ∀ s es, m.message ≠ .locations s es) :
    net.locationsLeft (now.after d) = net.locationsLeft now := by
  obtain ⟨htables, sent, hflight, hsent⟩ := tableOf_after hm hother
  have hranks : net.gossipRanks (now.after d) = net.gossipRanks now := by
    rw [gossipRanks, gossipRanks, Multiset.coe_eq_coe.2 ((perm_flight hm).filterMap _),
      List.filterMap_cons_none (gossipRank_eq_none hother), hflight, List.filterMap_append,
      List.filterMap_eq_nil_iff.2 fun m' hm' => gossipRank_eq_none (hsent m' hm'),
      List.append_nil]
  rw [locationsLeft, locationsLeft, hranks, missing, missing, htables]

end

/-! ## Whole runs -/

section
variable {net now : Network} {d : Delivery} {m : Envelope} {ds : ℕ → Delivery}

/-- Gossip about locations that has come to an end does not begin again. -/
theorem no_locations_of_le {j k : ℕ} (hjk : j ≤ k)
    (h : ∀ m ∈ (now.afterAll (firstOf ds j)).flight, ∀ s es, m.message ≠ .locations s es) :
    ∀ m ∈ (now.afterAll (firstOf ds k)).flight, ∀ s es, m.message ≠ .locations s es := by
  induction k, hjk using Nat.le_induction with
  | base => exact h
  | succ k _ ih =>
    rw [afterAll_firstOf_succ]
    exact (forall_flight_afterAll ih (fun _ _ _ _ _ hm _ _ hr p hp =>
      (Engine.locations_of_other hr hm).2 p hp) [ds k]).1

/-- A message that goes to a neighbour is about the peers around both. -/
theorem locationsAround_of_link (hlinked : net.Linked) {p r : PeerAddress}
    (hlink : r ∈ net.neighborsOf p) : net.locationsAround r = net.locationsAround p :=
  (locationsAround_eq (hlinked.adj_iff.2 hlink).reachable).symm

/-- **Gossip about locations keeps to the peers around it.** -/
theorem Spreading.after (h : net.Spreading now) (hlinked : net.Linked)
    (hm : now.flight[d.index]? = some m) : net.Spreading (now.after d) := by
  have hold : ∀ m' ∈ (now.without d.index).flight, m' ∈ now.flight :=
    fun m' hm' => List.mem_of_mem_eraseIdx hm'
  by_cases hmessage : ∃ s es, m.message = .locations s es
  · obtain ⟨s, es, hmessage⟩ := hmessage
    obtain ⟨-, hnew, t, hheard⟩ := h.heard hlinked hm hmessage
    have hknown : ∀ l ∈ (t.mergeAll (es.map fun l => ⟨l.1, l.2⟩)).2.entries,
        l ∈ net.locationsAround m.receiver := by
      intro l hl
      rcases LocationTable.mem_of_mem_mergeAll hl with hl | hl
      · exact h.known _ t hheard.table l hl
      · exact hnew l hl
    refine ⟨h.later.trans (later_after now d), fun p t' ht' => ?_, fun p hroom t' ht' => ?_,
      fun m' hm' s' es' hmessage' => ?_⟩
    · by_cases hp : p = m.receiver
      · subst hp
        rw [hheard.tableOf_receiver] at ht'
        cases ht'
        exact hknown
      · rw [hheard.tableOf_of_ne hp] at ht'
        exact h.known p t' ht'
    · by_cases hp : p = m.receiver
      · subst hp
        rw [hheard.tableOf_receiver] at ht'
        cases ht'
        exact (LocationTable.mem_mergeAll (h.room _ hroom t hheard.table) hnew).1
      · rw [hheard.tableOf_of_ne hp] at ht'
        exact h.room p hroom t' ht'
    · obtain ⟨sent, hflight, -, hsent⟩ := hheard.exists_sent
      rw [hflight, List.mem_append] at hm'
      rcases hm' with hm' | hm'
      · exact h.gossip m' (hold m' hm') s' es' hmessage'
      · obtain ⟨hlink', -, hsent'⟩ := hsent m' hm'
        rw [h.later.neighborsOf] at hlink'
        rw [hsent'] at hmessage'
        cases hmessage'
        refine ⟨hlink', fun e he => ?_⟩
        obtain ⟨l, hl, rfl⟩ := List.mem_map.1 he
        rw [locationsAround_of_link hlinked hlink']
        exact hknown l hl
  · rw [not_exists] at hmessage
    obtain ⟨htables, sent, hflight, hsent⟩ :=
      tableOf_after hm fun s es he => hmessage s ⟨es, he⟩
    refine ⟨h.later.trans (later_after now d), by rw [htables]; exact h.known,
      by rw [htables]; exact h.room, fun m' hm' s' es' hmessage' => ?_⟩
    rw [hflight, List.mem_append] at hm'
    rcases hm' with hm' | hm'
    · exact h.gossip m' (hold m' hm') s' es' hmessage'
    · exact absurd hmessage' (hsent m' hm' s' es')

theorem spreading_afterAll (h : net.Spreading now) (hlinked : net.Linked) (ds : List Delivery) :
    net.Spreading (now.afterAll ds) := by
  induction ds using List.reverseRecOn with
  | nil => exact h
  | append_singleton ds d ih =>
    rw [afterAll_append_singleton]
    cases hm : (now.afterAll ds).flight[d.index]? with
    | none => rw [after_of_none hm]; exact ih
    | some m => exact ih.after hlinked hm

/-- Gossip about locations begins when new peers tell their tables. -/
theorem spreading_exchange (hlinked : net.Linked) (hidle : net.flight = [])
    (hengines : ∀ n ∈ net.nodes, ∃ metrics settings coins,
      n.engine = (Engine.new n.engine.identity metrics settings coins).seed) :
    net.Spreading net.exchange := by
  have hown : ∀ n ∈ net.nodes, ∀ l ∈ n.engine.locations.entries,
      l ∈ net.locationsAround n.engine.identity := by
    intro n hn l hl
    obtain ⟨metrics, settings, coins, he⟩ := hengines n hn
    have hmetrics : n.engine.metrics = metrics :=
      (congrArg Engine.metrics he).trans (Engine.identity_enterOwn _ _).2
    rw [he] at hl
    obtain ⟨hholder, hname⟩ := Engine.mem_locations_seed hl
    rw [← hmetrics] at hname
    refine mem_locationsAround.2 ⟨List.mem_toFinset.2 (List.mem_flatMap.2 ⟨n, hn, ?_⟩), ?_⟩
    · exact List.mem_map.2 ⟨l.name, hname, by rw [← hholder]⟩
    · exact hholder ▸ SimpleGraph.Reachable.refl _
  have hknown : ∀ p, ∀ t ∈ net.tableOf p, ∀ l ∈ t.entries, l ∈ net.locationsAround p := by
    intro p t ht
    obtain ⟨n, hn, rfl⟩ := Option.map_eq_some_iff.1 ht
    rw [← identity_of_node? hn]
    exact hown n (mem_of_node? hn)
  refine ⟨Later.refl net, hknown, fun p hroom t ht => ?_, fun m hm s es hmessage => ?_⟩
  · obtain ⟨hcard, hkeys⟩ := hroom t ht
    exact ⟨hknown p t ht, hcard, hkeys⟩
  · obtain ⟨n, hn, hr, htold⟩ := (mem_flight_exchange hidle).1 hm
    rcases htold with htold | htold
    · rw [htold] at hmessage
      cases hmessage
    · rw [htold] at hmessage
      cases hmessage
      have hlink : m.receiver ∈ net.neighborsOf n.engine.identity :=
        neighborsOf_eq (node?_of_mem hlinked.distinct hn) ▸ hr
      refine ⟨hlink, fun e he => ?_⟩
      obtain ⟨l, hl, rfl⟩ := List.mem_map.1 he
      rw [locationsAround_of_link hlinked hlink]
      exact hown n hn l hl

/-- **Gossip about locations dies out** if the links between peers whose tables lack room form
    no cycle.  All peers are new, and nothing is in flight when they tell their tables.
    Messages are delivered in the order of sending.  Then from some delivery on, no locations
    are in flight. -/
theorem locations_die_out (hlinked : net.Linked) (hidle : net.flight = [])
    (hengines : ∀ n ∈ net.nodes, ∃ metrics settings coins,
      n.engine = (Engine.new n.engine.identity metrics settings coins).seed)
    (hforest : net.narrow.IsAcyclic) (hfifo : ∀ k, (ds k).index = 0) :
    ∃ k, ∀ j ≥ k, ∀ m ∈ (net.exchange.afterAll (firstOf ds j)).flight,
      ∀ s es, m.message ≠ .locations s es := by
  have hspreading := spreading_exchange hlinked hidle hengines
  set left := fun k => net.locationsLeft (net.exchange.afterAll (firstOf ds k)) with hleft
  -- after the delivery with the least left to come, nothing about it changes
  have hwf : WellFounded Lower := IsWellFounded.wf
  obtain ⟨-, ⟨k, rfl⟩, hleast⟩ := hwf.has_min (Set.range left) ⟨left 0, 0, rfl⟩
  have hstep : ∀ j, left j = left k → left (j + 1) = left k ∧
      ∀ m, (net.exchange.afterAll (firstOf ds j)).flight[(ds j).index]? = some m →
        ∀ s es, m.message ≠ .locations s es := by
    intro j hj
    have hafter := afterAll_firstOf_succ net.exchange ds j
    cases hm : (net.exchange.afterAll (firstOf ds j)).flight[(ds j).index]? with
    | none =>
      refine ⟨?_, by simp⟩
      rw [← hj, hleft]
      simp only [hafter, after_of_none hm]
    | some m =>
      have hother : ∀ s es, m.message ≠ .locations s es := by
        intro s es hmessage
        have hlt := locationsLeft_lt hlinked hforest
          (spreading_afterAll hspreading hlinked (firstOf ds j)) hm hmessage
        rw [← hafter] at hlt
        exact hleast (left (j + 1)) ⟨j + 1, rfl⟩ (hj ▸ hlt)
      refine ⟨?_, fun m' hm' => Option.some.inj hm' ▸ hother⟩
      rw [← hj, hleft]
      simp only [hafter, locationsLeft_eq hm hother]
  have hsame : ∀ j ≥ k, left j = left k := by
    intro j hj
    induction j, hj using Nat.le_induction with
    | base => rfl
    | succ j _ ih => exact (hstep j ih).1
  refine ⟨k, fun j hj m hm s es hmessage => ?_⟩
  obtain ⟨i, rest, hji, hflight⟩ := exists_front hfifo hm
  exact (hstep i (hsame i (hj.trans hji))).2 m (getElem?_front hfifo hflight) s es hmessage

end

end Network

namespace Sample

/-- A new peer whose tables have so many places and which never skips a location. -/
def cramped (capacity : ℕ) (port : UInt16) (counts : List (String × Nat))
    (neighbors : List UInt16) : Node where
  engine := (Engine.new (peer port) (.ofCounts 1 counts)
    { tableCapacity := capacity, skip := ⟨0⟩ } (.ofWords fun _ => 0)).seed
  neighbors := neighbors.map peer

/-- Three peers linked to each other, two of which have a metric and tables with one place
    only. -/
def ring (capacity : ℕ) : Network where
  registry := peer 0
  nodes := [cramped 1 1 [("t", 1)] [2, 3], cramped 1 2 [("t", 1)] [1, 3],
    cramped capacity 3 [] [1, 2]]
  flight := []
  results := .empty

theorem engines_ring {capacity : ℕ} (h : 1 ≤ capacity) :
    ∀ n ∈ (ring capacity).nodes, ∃ metrics settings coins,
      1 ≤ settings.tableCapacity ∧ settings.skip = ⟨0⟩ ∧
        n.engine = (Engine.new n.engine.identity metrics settings coins).seed := by
  intro n hn
  simp only [ring, List.mem_cons, List.not_mem_nil, or_false] at hn
  rcases hn with rfl | rfl | rfl
  · exact ⟨_, _, _, le_rfl, rfl, rfl⟩
  · exact ⟨_, _, _, le_rfl, rfl, rfl⟩
  · exact ⟨_, _, _, h, rfl, rfl⟩

end Sample

namespace Network
open Sample

theorem locations_die_out_ring :
    (ring 2).Linked ∧ (ring 2).flight = [] ∧
      (∀ n ∈ (ring 2).nodes, ∃ metrics settings coins,
        n.engine = (Engine.new n.engine.identity metrics settings coins).seed) ∧
      (ring 2).narrow.IsAcyclic ∧
      ∃ k, ∀ j ≥ k, ∀ m ∈ ((ring 2).exchange.afterAll (firstOf (fun _ => ⟨0, 0, 0⟩) j)).flight,
        ∀ s es, m.message ≠ .locations s es := by
  have hengines : ∀ n ∈ (ring 2).nodes, ∃ metrics settings coins,
      n.engine = (Engine.new n.engine.identity metrics settings coins).seed := by
    intro n hn
    obtain ⟨metrics, settings, coins, -, -, h⟩ := engines_ring (by decide) n hn
    exact ⟨metrics, settings, coins, h⟩
  have hlinked : (ring 2).Linked :=
    ⟨by decide +kernel, by decide +kernel, by decide +kernel, by decide +kernel⟩
  have hkeys : ∀ l ∈ (ring 2).locations, ∀ l' ∈ (ring 2).locations, l.key = l'.key → l = l' := by
    decide +kernel
  have hsubset : ∀ p, (ring 2).locationsAround p ⊆ (ring 2).locations :=
    fun p l hl => (mem_locationsAround.1 hl).1
  -- two locations fit into the table of the third peer
  have hroom : (ring 2).RoomAt (peer 3) := by
    intro t ht
    have hcapacity : ((ring 2).tableOf (peer 3)).map (fun t => t.cache.capacity) = some 2 := by
      decide +kernel
    rw [ht, Option.map_some, Option.some.injEq] at hcapacity
    refine ⟨(Finset.card_le_card (hsubset (peer 3))).trans ?_, fun l hl l' hl' => ?_⟩
    · rw [hcapacity]
      decide +kernel
    · exact hkeys l (hsubset _ hl) l' (hsubset _ hl')
  have hpeers : (ring 2).peers = [peer 1, peer 2, peer 3] := by decide +kernel
  have hedge : (ring 2).narrow ≤ ⊥ ⊔ SimpleGraph.edge (peer 1) (peer 2) := by
    rw [bot_sup_eq]
    intro p r ⟨hadj, hp, hr⟩
    have hpr := hadj.ne
    have hmem := hlinked.mem_peers (hlinked.adj_iff.1 hadj.symm)
    have hmem' := hlinked.mem_peers (hlinked.adj_iff.1 hadj)
    rw [hpeers] at hmem hmem'
    simp only [List.mem_cons, List.not_mem_nil, or_false] at hmem hmem'
    rw [SimpleGraph.edge_adj]
    rcases hmem with rfl | rfl | rfl <;> rcases hmem' with rfl | rfl | rfl <;> simp_all
  have hforest : (ring 2).narrow.IsAcyclic := by
    refine SimpleGraph.IsAcyclic.anti hedge ?_
    rw [SimpleGraph.isAcyclic_add_edge_iff_of_not_reachable]
    · exact SimpleGraph.isAcyclic_bot
    · rw [SimpleGraph.reachable_bot]
      decide
  exact ⟨hlinked, rfl, hengines, hforest,
    locations_die_out hlinked rfl hengines hforest fun _ => rfl⟩

end Network

end OverlayCensus
