/-
  OverlayCensus — queries do not disturb each other.

  Every query changes the log, and a gossip query also the order of use in the distance table.
  Neither shows in what is sent for another query, as long as the log has room for all ids and
  the table for all names: then the order of use never decides what is pushed out.

  * `DistanceTable.Same.merge`: tables with the same entries stay so while nothing is pushed out;
  * `Engine.Alike.sent_eq`: engines that are alike send the same for a query;
  * `Engine.Twin`: an engine and one that has seen only the messages that concern a query,
    with one lemma for each kind of message;
  * `Engine.repliesTo_filter`: so what is sent for a query stays the same without all others.
-/
import Mathlib
import OverlayCensus.Proofs.Delivery
import OverlayCensus.Proofs.DistanceHolders
import OverlayCensus.Proofs.FloodSending
import OverlayCensus.Proofs.GossipSending

namespace OverlayCensus

/-! ## Tables with the same entries -/

namespace Cache

variable {κ ν : Type} [DecidableEq κ] {c : Cache κ ν} {k : κ} {v : ν}

/-- Keys and one more fit, if writing under it pushes none out. -/
theorem room_of_keys_subset (h : c.keys ⊆ (c.use k v).keys) :
    (insert k c.keys.toFinset).card ≤ c.capacity := by
  have hused : k ∈ (c.use k v).keys := by
    obtain ⟨n, hn⟩ := Nat.exists_eq_succ_of_ne_zero c.capacity_pos.ne'
    rw [keys_use, hn, List.take_succ_cons]
    exact List.mem_cons_self
  have hsub : insert k c.keys.toFinset ⊆ (c.use k v).keys.toFinset := by
    intro j hj
    rw [Finset.mem_insert, List.mem_toFinset] at hj
    rw [List.mem_toFinset]
    exact hj.elim (fun hjk => hjk ▸ hused) fun hj => h hj
  calc (insert k c.keys.toFinset).card ≤ (c.use k v).keys.toFinset.card := Finset.card_le_card hsub
    _ ≤ (c.use k v).keys.length := List.toFinset_card_le _
    _ ≤ c.capacity := by
      rw [keys, List.length_map]
      exact (c.use k v).length_le

theorem mem_entries_use_of_room (hroom : (insert k c.keys.toFinset).card ≤ c.capacity)
    {e : κ × ν} : e ∈ (c.use k v).entries ↔ e = (k, v) ∨ e ∈ c.entries ∧ e.1 ≠ k := by
  rw [entries_use_of_room (fun j hj => Finset.mem_insert_of_mem (List.mem_toFinset.2 hj))
    (Finset.mem_insert_self _ _) hroom, List.mem_cons, without, List.mem_filter, decide_eq_true_eq]

end Cache

namespace DistanceTable

variable {t t' : DistanceTable} {name : String} {distance : UInt32} {holder sender : PeerAddress}

/-- A report pushes nothing out. -/
def Keeps (t : DistanceTable) (name : String) (distance : UInt32) (holder : PeerAddress) : Prop :=
  t.cache.keys ⊆ (t.merge name distance holder).2.cache.keys

/-- None of the reports in an advertisement pushes anything out. -/
def KeepsAll (t : DistanceTable) (sender : PeerAddress) : List (String × UInt32) → Prop
  | [] => True
  | (name, distance) :: rest =>
    t.Keeps name (nextHop distance) sender ∧
      (t.merge name (nextHop distance) sender).2.KeepsAll sender rest

instance (t : DistanceTable) (name : String) (distance : UInt32) (holder : PeerAddress) :
    Decidable (t.Keeps name distance holder) :=
  inferInstanceAs (Decidable (∀ k ∈ t.cache.keys, k ∈ (t.merge name distance holder).2.cache.keys))

instance decidableKeepsAll (sender : PeerAddress) :
    ∀ (es : List (String × UInt32)) (t : DistanceTable), Decidable (t.KeepsAll sender es)
  | [], _ => .isTrue trivial
  | (name, distance) :: rest, t =>
    have := decidableKeepsAll sender rest (t.merge name (nextHop distance) sender).2
    inferInstanceAs (Decidable (_ ∧ _))

theorem Keeps.room (h : t.Keeps name distance holder) :
    (insert (Gossip.nameKey name) t.cache.keys.toFinset).card ≤ t.cache.capacity := by
  have hkeys : (t.merge name distance holder).2.cache.keys =
      (t.cache.use (Gossip.nameKey name) ⟨name, distance, .single holder⟩).keys :=
    (Cache.keys_upsert _ _ _ _).trans (Cache.keys_use _ _ _).symm
  rw [Keeps, hkeys] at h
  exact Cache.room_of_keys_subset h

namespace Same

theorem symm (h : t.Same t') : t'.Same t :=
  ⟨fun e => (h.entries e).symm, h.capacity.symm⟩

theorem trans {t'' : DistanceTable} (h : t.Same t') (h' : t'.Same t'') : t.Same t'' :=
  ⟨fun e => (h'.entries e).trans (h.entries e), h'.capacity.trans h.capacity⟩

theorem keys_eq (h : t.Same t') : t'.cache.keys.toFinset = t.cache.keys.toFinset := by
  ext k
  simp only [List.mem_toFinset, Cache.keys, List.mem_map, h.entries]

theorem holdersWithin_eq (h : t.Same t') (name : String) (limit : UInt32) :
    (t'.holdersWithin name limit).1 = (t.holdersWithin name limit).1 := by
  simp only [holdersWithin, Cache.touch_fst, Cache.get?_congr h.entries]

/-- **A report does the same** to tables with the same entries, if it pushes nothing out. -/
theorem merge (h : t.Same t') (hkeeps : t.Keeps name distance holder) :
    (t.merge name distance holder).2.Same (t'.merge name distance holder).2 := by
  have hroom := hkeeps.room
  have hroom' : (insert (Gossip.nameKey name) t'.cache.keys.toFinset).card ≤ t'.cache.capacity := by
    rwa [h.keys_eq, h.capacity]
  have hget := Cache.get?_congr h.entries (Gossip.nameKey name)
  refine ⟨fun e => ?_, ?_⟩
  · simp only [DistanceTable.merge, Cache.putDistance, Cache.upsert, hget]
    cases t.cache.get? (Gossip.nameKey name) <;>
      simp only [Cache.mem_entries_use_of_room hroom, Cache.mem_entries_use_of_room hroom',
        h.entries]
  · simp only [DistanceTable.merge, Cache.putDistance, Cache.capacity_upsert, h.capacity]

theorem mergeAdvertised {es : List (String × UInt32)} (h : t.Same t')
    (hkeeps : t.KeepsAll sender es) :
    (t.mergeAdvertised sender es).2.Same (t'.mergeAdvertised sender es).2 := by
  induction es generalizing t t' with
  | nil => exact h
  | cons e es ih =>
    obtain ⟨hfirst, hrest⟩ := hkeeps
    exact ih (h.merge hfirst) hrest

end Same

end DistanceTable

namespace Engine

variable {e e' : Engine} {neighbors : List PeerAddress} {pick : ℕ} {kind : QueryKind} {q : Query}

/-! ## Engines that are alike -/

/-- Engines of one peer that know the same.  Their logs may differ, and so may the order in which
    they have used their distances. -/
structure Alike (e e' : Engine) : Prop where
  identity : e'.identity = e.identity
  metrics : e'.metrics = e.metrics
  locations : e'.locations = e.locations
  distances : e.distances.Same e'.distances

namespace Alike

theorem refl (e : Engine) : e.Alike e :=
  ⟨rfl, rfl, rfl, .refl _⟩

theorem symm (h : e.Alike e') : e'.Alike e :=
  ⟨h.identity.symm, h.metrics.symm, h.locations.symm, h.distances.symm⟩

theorem trans {e'' : Engine} (h : e.Alike e') (h' : e'.Alike e'') : e.Alike e'' :=
  ⟨h'.identity.trans h.identity, h'.metrics.trans h.metrics, h'.locations.trans h.locations,
    h.distances.trans h'.distances⟩

theorem passOn_eq (h : e.Alike e') (q : Query) : e'.passOn q = e.passOn q := by
  rw [passOn, passOn, h.identity]

theorem accumulated_eq (h : e.Alike e') (q : Query) : e'.accumulated q = e.accumulated q := by
  rw [accumulated, accumulated, h.identity, h.metrics]

theorem next_eq (h : e.Alike e') (hnew : e'.IsNew q ↔ e.IsNew q) : e'.next q = e.next q := by
  simp only [next, hnew, h.accumulated_eq, h.passOn_eq]

theorem targets_eq (h : e.Alike e') (kind : QueryKind) (q : Query) :
    e'.targets q (e'.named kind q) = e.targets q (e.named kind q) := by
  have hnamed : e'.named kind q = e.named kind q := by
    cases kind with
    | gossipDistance => exact h.distances.holdersWithin_eq q.metric (hopsLeft q)
    | _ => exact congrArg (·.holdersOf q.metric) h.locations
  rw [hnamed, targets, targets, h.identity]

end Alike

/-! ## What is sent for a query -/

/-- **Engines that are alike send the same** for a query that is new to both or to neither. -/
theorem Alike.sent_eq (h : e.Alike e') (hnew : e'.IsNew q ↔ e.IsNew q)
    (neighbors : List PeerAddress) (pick : ℕ) (kind : QueryKind) :
    (e'.onQuery neighbors pick kind q).2 = (e.onQuery neighbors pick kind q).2 := by
  have hgossip : ∀ kind, (e'.onGossipQuery kind q).2 = (e.onGossipQuery kind q).2 := fun kind => by
    simp only [onGossipQuery_sent, hnew, h.next_eq hnew, h.targets_eq, h.identity]
  cases kind with
  | flood =>
    change (e'.onFlood neighbors pick q).2 = (e.onFlood neighbors pick q).2
    by_cases hq : e.IsNew q
    · rw [onFlood_of_new hq, onFlood_of_new (hnew.2 hq), h.accumulated_eq, h.passOn_eq]
    · rw [onFlood_of_old hq, onFlood_of_old (mt hnew.1 hq), h.passOn_eq]
  | randomWalk => simp only [onQuery, onRandomWalk_sent, h.next_eq hnew]
  | gossipDistance | gossipLocation => exact hgossip _

/-! ## What stays after a message -/

theorem alike_onQuery (e : Engine) (neighbors : List PeerAddress) (pick : ℕ) (kind : QueryKind)
    (q : Query) : e.Alike (e.onQuery neighbors pick kind q).1 := by
  obtain ⟨t, first, rest, heq, -⟩ := e.handled_onQuery neighbors pick kind q
  have hsame := e.same_onQuery neighbors pick kind q
  rw [heq] at hsame ⊢
  exact ⟨rfl, rfl, rfl, hsame⟩

theorem queries_onQuery (e : Engine) (neighbors : List PeerAddress) (pick : ℕ) (kind : QueryKind)
    (q : Query) : (e.onQuery neighbors pick kind q).1.queries =
      (e.queries.mark q.id q.metric q.sender).2 := by
  obtain ⟨t, first, rest, heq, -⟩ := e.handled_onQuery neighbors pick kind q
  rw [heq]
  rfl

end Engine

/-- A message that reaches an engine, the neighbours that it has then, and the random pick. -/
structure Input where
  neighbors : List PeerAddress
  pick : ℕ
  message : Message

/-- The id of the query that comes in, if one does. -/
def Input.id? (i : Input) : Option Uuid :=
  match i.message with
  | .query _ q => some q.id
  | _ => none

/-- The ids of the queries that come in. -/
def idsOf (inputs : List Input) : Finset Uuid :=
  (inputs.filterMap Input.id?).toFinset

namespace Engine

/-- An engine takes a message.  One that it refuses changes nothing. -/
def take (e : Engine) (i : Input) : Engine × List Parcel :=
  (e.handle i.neighbors i.pick i.message).getD (e, [])

/-- What is sent for the messages of a query, one list for each of them. -/
def repliesTo (x : Uuid) (e : Engine) : List Input → List (List Parcel)
  | [] => []
  | i :: rest =>
    if i.id? = some x then (e.take i).2 :: repliesTo x (e.take i).1 rest
    else repliesTo x (e.take i).1 rest

/-- A message by which nothing is pushed out of the distance table. -/
def Keeps (e : Engine) : Message → Prop
  | .distances sender entries => e.distances.KeepsAll sender entries
  | _ => True

/-- Nothing is ever pushed out of the distance table. -/
def KeepsAlong (e : Engine) : List Input → Prop
  | [] => True
  | i :: rest => e.Keeps i.message ∧ (e.take i).1.KeepsAlong rest

instance (e : Engine) : ∀ m : Message, Decidable (e.Keeps m)
  | .distances sender entries => DistanceTable.decidableKeepsAll sender entries e.distances
  | .query .. | .locations .. | .introduction .. | .register .. | .initiateConnections ..
  | .shutdown | .listPeersRequest | .listPeersResponse .. => .isTrue trivial

instance decidableKeepsAlong :
    ∀ (inputs : List Input) (e : Engine), Decidable (e.KeepsAlong inputs)
  | [], _ => .isTrue trivial
  | i :: rest, e =>
    have := decidableKeepsAlong rest (e.take i).1
    inferInstanceAs (Decidable (_ ∧ _))

variable {e e' : Engine} {q : Query} {i : Input} {x y : Uuid} {seen : Finset Uuid}

theorem take_of_id? (h : i.id? = some y) :
    ∃ kind q, q.id = y ∧ ∀ e : Engine, e.take i = e.onQuery i.neighbors i.pick kind q := by
  obtain ⟨neighbors, pick, m⟩ := i
  cases m with
  | query kind q =>
    refine ⟨kind, q, Option.some.inj h, fun e => ?_⟩
    rw [take, handle_query, Option.getD_some]
  | _ => cases h

/-- What is not a query leaves the log as it is, and engines alike. -/
theorem Alike.take (h : e.Alike e') (hid : i.id? = none) (hkeeps : e.Keeps i.message) :
    (e.take i).1.Alike (e'.take i).1 ∧ (e.take i).1.queries = e.queries ∧
      (e'.take i).1.queries = e'.queries := by
  obtain ⟨neighbors, pick, m⟩ := i
  cases m with
  | query kind q => cases hid
  | distances sender entries =>
    exact ⟨⟨h.identity, h.metrics, h.locations, h.distances.mergeAdvertised hkeeps⟩, rfl, rfl⟩
  | locations sender entries =>
    refine ⟨⟨h.identity, h.metrics, ?_, h.distances⟩, rfl, rfl⟩
    exact congrArg (fun t => (t.mergeAll (entries.map fun l => ⟨l.1, l.2⟩)).2) h.locations
  | _ => exact ⟨h, rfl, rfl⟩

/-! ## With and without the other queries -/

/-- An engine that has seen the queries `seen`, and one that has seen only `x` of them. -/
structure Twin (x : Uuid) (seen : Finset Uuid) (e e' : Engine) : Prop where
  alike : e.Alike e'
  remembers : e.queries.Remembers seen
  unseen : x ∉ seen → x ∉ e.queries.ids
  twin : x ∈ e'.queries.ids ↔ x ∈ seen

namespace Twin

theorem isNew_iff (h : Twin q.id seen e e') : e'.IsNew q ↔ e.IsNew q := by
  rw [IsNew, h.twin]
  exact ⟨h.unseen, mt h.remembers.mem⟩

/-- A message of the query reaches both. -/
theorem own (h : Twin q.id seen e e') (hroom : (insert q.id seen).card ≤ e.queries.capacity)
    (neighbors : List PeerAddress) (pick : ℕ) (kind : QueryKind) :
    Twin q.id (insert q.id seen) (e.onQuery neighbors pick kind q).1
      (e'.onQuery neighbors pick kind q).1 := by
  refine ⟨?_, ?_, fun hx => absurd (Finset.mem_insert_self _ _) hx, ?_⟩
  · exact (e.alike_onQuery neighbors pick kind q).symm.trans
      (h.alike.trans (e'.alike_onQuery neighbors pick kind q))
  · rw [queries_onQuery]
    exact h.remembers.mark hroom
  · rw [queries_onQuery]
    have hone : (insert q.id (∅ : Finset Uuid)).card ≤ e'.queries.capacity := by
      rw [Finset.card_insert_of_notMem (Finset.notMem_empty _), Finset.card_empty]
      exact e'.queries.cache.capacity_pos
    have hmarked : (e'.queries.mark q.id q.metric q.sender).2.Remembers (insert q.id ∅) :=
      (QueryLog.remembers_empty _).mark hone
    exact iff_of_true (hmarked.mem (Finset.mem_insert_self _ _)) (Finset.mem_insert_self _ _)

/-- A message of another query reaches one of them. -/
theorem other (h : Twin x seen e e') (hne : q.id ≠ x)
    (hroom : (insert q.id seen).card ≤ e.queries.capacity) (neighbors : List PeerAddress)
    (pick : ℕ) (kind : QueryKind) :
    Twin x (insert q.id seen) (e.onQuery neighbors pick kind q).1 e' := by
  refine ⟨(e.alike_onQuery neighbors pick kind q).symm.trans h.alike, ?_, fun hx => ?_, ?_⟩
  · rw [queries_onQuery]
    exact h.remembers.mark hroom
  · rw [queries_onQuery]
    intro hmem
    rcases QueryLog.eq_or_mem_of_mem_mark hmem with heq | hmem
    · exact hne heq.symm
    · exact h.unseen (fun hseen => hx (Finset.mem_insert_of_mem hseen)) hmem
  · rw [h.twin, Finset.mem_insert, or_iff_right hne.symm]

/-- Gossip reaches both. -/
theorem gossip (h : Twin x seen e e') (hid : i.id? = none) (hkeeps : e.Keeps i.message) :
    Twin x seen (e.take i).1 (e'.take i).1 := by
  obtain ⟨halike, hqueries, hqueries'⟩ := h.alike.take hid hkeeps
  refine ⟨halike, ?_, ?_, ?_⟩
  · rw [hqueries]
    exact h.remembers
  · rw [hqueries]
    exact h.unseen
  · rw [hqueries']
    exact h.twin

end Twin

theorem idsOf_cons (i : Input) (inputs : List Input) :
    idsOf (i :: inputs) = i.id?.toFinset ∪ idsOf inputs := by
  cases hid : i.id? with
  | none => simp [idsOf, hid]
  | some y => simp [idsOf, hid]

/-- Engines that differ by other queries go on sending the same. -/
theorem Twin.repliesTo_eq (h : Twin x seen e e') {inputs : List Input}
    (hroom : (seen ∪ idsOf inputs).card ≤ e.queries.capacity) (hkeeps : e.KeepsAlong inputs) :
    e'.repliesTo x (inputs.filter fun i => i.id? = none ∨ i.id? = some x) =
      e.repliesTo x inputs := by
  induction inputs generalizing e e' seen with
  | nil => rfl
  | cons i inputs ih =>
    obtain ⟨hfirst, hrest⟩ := hkeeps
    rw [idsOf_cons] at hroom
    cases hid : i.id? with
    | none =>
      have hqueries := (h.alike.take hid hfirst).2.1
      rw [hid, Option.toFinset_none, Finset.empty_union] at hroom
      rw [List.filter_cons_of_pos (by simp [hid]), repliesTo, repliesTo, hid, if_neg nofun,
        if_neg nofun]
      exact ih (h.gossip hid hfirst) (by rwa [hqueries]) hrest
    | some y =>
      obtain ⟨kind, q, rfl, htake⟩ := take_of_id? hid
      rw [hid, Option.toFinset_some, ← Finset.union_assoc, Finset.union_comm seen,
        ← Finset.insert_eq] at hroom
      have hseen : (insert q.id seen).card ≤ e.queries.capacity :=
        (Finset.card_le_card Finset.subset_union_left).trans hroom
      have hroom' : (insert q.id seen ∪ idsOf inputs).card ≤ (e.take i).1.queries.capacity := by
        rwa [htake, queries_onQuery, QueryLog.capacity_mark]
      by_cases hx : q.id = x
      · subst hx
        have hsent : (e'.take i).2 = (e.take i).2 := by
          rw [htake, htake, h.alike.sent_eq h.isNew_iff]
        have htwin : Twin q.id (insert q.id seen) (e.take i).1 (e'.take i).1 := by
          rw [htake, htake]
          exact h.own hseen i.neighbors i.pick kind
        rw [List.filter_cons_of_pos (by simp [hid]), repliesTo, repliesTo, if_pos hid, if_pos hid,
          hsent, ih htwin hroom' hrest]
      · have hnot : ¬ i.id? = some x := fun h => hx (Option.some.inj (hid.symm.trans h))
        have htwin : Twin x (insert q.id seen) (e.take i).1 e' := by
          rw [htake]
          exact h.other hx hseen i.neighbors i.pick kind
        rw [List.filter_cons_of_neg (by simp [hid, hx]), repliesTo, if_neg hnot]
        exact ih htwin hroom' hrest

/-- **Queries do not disturb each other.**  An engine in any state is given queries and gossip, in
    any order, such that nothing is pushed out of the distance table and the log has room for all
    ids that come in.  What it sends for the messages of a query that it has not seen before is
    what it would have sent without those of all others. -/
theorem repliesTo_filter (e : Engine) (inputs : List Input) (x : Uuid)
    (hx : x ∉ e.queries.ids) (hroom : (idsOf inputs).card ≤ e.queries.capacity)
    (hkeeps : e.KeepsAlong inputs) :
    e.repliesTo x (inputs.filter fun i => i.id? = none ∨ i.id? = some x) =
      e.repliesTo x inputs := by
  have htwin : Twin x ∅ e e :=
    ⟨.refl e, QueryLog.remembers_empty _, fun _ => hx, iff_of_false hx (Finset.notMem_empty x)⟩
  exact htwin.repliesTo_eq (by rwa [Finset.empty_union]) hkeeps

namespace Sample

open OverlayCensus.Sample (peer)

/-- A peer that has room for two queries and two names. -/
def narrow : Engine :=
  .new (peer 1) (.ofCounts 3 [("t", 1)]) { queryCapacity := 2, tableCapacity := 2 }
    (.ofWords fun _ => 0)

/-- A gossip query for a metric. -/
def asks (n : ℕ) (metric : String) : Message :=
  .query .gossipDistance (.fresh (.ofNat n) (peer 9) metric 5)

/-- Two queries that come twice each, with gossip between them. -/
def mixed : List Input :=
  [.distances (peer 2) [("t", 0), ("u", 3)], asks 8 "t", asks 7 "u",
    .distances (peer 3) [("t", 1), ("u", 0)], asks 7 "u", asks 8 "u"].map
      fun m => ⟨[peer 2, peer 3], 0, m⟩

/-- The first of them touches the table before the other one comes. -/
theorem repliesTo_filter_mixed :
    (.ofNat 7 ∉ narrow.queries.ids ∧ (idsOf mixed).card ≤ narrow.queries.capacity ∧
      narrow.KeepsAlong mixed) ∧ (narrow.repliesTo (.ofNat 7) mixed).length = 2 ∧
      narrow.repliesTo (.ofNat 7)
          (mixed.filter fun i => i.id? = none ∨ i.id? = some (.ofNat 7)) =
        narrow.repliesTo (.ofNat 7) mixed := by
  have hx : .ofNat 7 ∉ narrow.queries.ids := by decide +kernel
  have hroom : (idsOf mixed).card ≤ narrow.queries.capacity := by decide +kernel
  have hkeeps : narrow.KeepsAlong mixed := by decide +kernel
  exact ⟨⟨hx, hroom, hkeeps⟩, by decide +kernel, repliesTo_filter narrow mixed _ hx hroom hkeeps⟩

end Sample

end Engine

end OverlayCensus
