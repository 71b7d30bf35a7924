/-
  OverlayCensus — what peers know, and what they tell each other.

  Gossip spreads facts of two kinds: that a metric is at most so many hops away, and that
  a peer has it (`Fact`).  An engine knows facts from its tables, a message teaches facts
  to its receiver, and what an engine tells is what its advertisements teach.

  * `Absorbed`: an engine that handles gossip knows afterwards what it knew and what it
    was taught, and tells all neighbours but the sender what is new to them;
  * `knows_of_tells`: the sender needs no telling;
  * `knows_seed`: an engine that is seeded knows its own metrics.
-/
import Mathlib
import OverlayCensus.Proofs.GossipTables
import OverlayCensus.Proofs.Handling

namespace OverlayCensus

/-! ## Facts -/

/-- What gossip spreads. -/
inductive Fact where
  /-- A metric is at most so many hops away. -/
  | distance (name : String) (hops : ℕ)
  /-- A peer has a metric. -/
  | location (l : Location)

/-- The facts in an engine's tables. -/
def Engine.Knows (e : Engine) : Fact → Prop
  | .distance name hops => e.distances.Knows name hops
  | .location l => l ∈ e.locations.entries

/-- The facts that the receiver of a message learns. -/
def Message.Teaches : Message → Fact → Prop
  | .distances _ es, .distance name hops => ∃ d, (name, d) ∈ es ∧ (nextHop d).toNat ≤ hops
  | .locations _ es, .location l => (l.holder, l.name) ∈ es
  | _, _ => False

/-- The facts that an engine's advertisements teach. -/
def Engine.Tells (e : Engine) : Fact → Prop
  | .distance name hops => ∃ d : UInt32, e.Knows (.distance name d.toNat) ∧
      (nextHop d).toNat ≤ hops
  | .location l => e.Knows (.location l)

/-- The peer whose gossip a message is. -/
def Message.gossiper? : Message → Option PeerAddress
  | .distances sender _ => some sender
  | .locations sender _ => some sender
  | _ => none

theorem le_nextHop (d : UInt32) : d.toNat ≤ (nextHop d).toNat := by
  have hlt := d.toNat_lt
  rw [toNat_nextHop]
  omega

theorem nextHop_mono {d d' : UInt32} (h : d.toNat ≤ d'.toNat) :
    (nextHop d).toNat ≤ (nextHop d').toNat := by
  rw [toNat_nextHop, toNat_nextHop]
  omega

namespace Engine

variable {e e' s : Engine} {f : Fact} {m : Message}

theorem Knows.mono {name : String} {hops hops' : ℕ} (h : e.Knows (.distance name hops))
    (hle : hops ≤ hops') : e.Knows (.distance name hops') := by
  obtain ⟨entry, he, hname, hd⟩ := h
  exact ⟨entry, he, hname, hd.trans hle⟩

theorem Tells.knows (h : e.Tells f) : e.Knows f := by
  cases f with
  | distance name hops =>
    obtain ⟨d, hk, hle⟩ := h
    exact hk.mono ((le_nextHop d).trans hle)
  | location l => exact h

theorem Tells.mono (h : e.Tells f) (hknows : ∀ f, e.Knows f → e'.Knows f) : e'.Tells f := by
  cases f with
  | distance name hops =>
    obtain ⟨d, hk, hle⟩ := h
    exact ⟨d, hknows _ hk, hle⟩
  | location l => exact hknows (.location l) h

/-- The advertisements teach what the engine tells. -/
theorem tells_iff : e.Tells f ↔ e.distancesMessage.Teaches f ∨ e.locationsMessage.Teaches f := by
  cases f with
  | distance name hops =>
    simp only [Message.Teaches, distancesMessage, locationsMessage, or_false]
    constructor
    · rintro ⟨d, hk, hle⟩
      obtain ⟨entry, he, hname, hd⟩ := DistanceTable.knows_iff.1 hk
      exact ⟨entry.distance, List.mem_map.2 ⟨entry, he, by rw [hname]⟩, (nextHop_mono hd).trans hle⟩
    · rintro ⟨d, hd, hle⟩
      obtain ⟨entry, he, heq⟩ := List.mem_map.1 hd
      cases heq
      exact ⟨entry.distance, DistanceTable.knows_iff.2 ⟨entry, he, rfl, le_rfl⟩, hle⟩
  | location l =>
    simp only [Message.Teaches, distancesMessage, locationsMessage, false_or]
    constructor
    · intro h
      exact List.mem_map.2 ⟨l, h, rfl⟩
    · intro h
      obtain ⟨l', hl', heq⟩ := List.mem_map.1 h
      cases l
      cases heq
      exact hl'

/-- **Whoever taught an engine something need not be told**: what is told because of it is
    known there. -/
theorem knows_of_tells (hknows : ∀ f, e'.Knows f → e.Knows f ∨ m.Teaches f)
    (hteacher : ∀ f, m.Teaches f → s.Tells f) (h : e'.Tells f) : e.Tells f ∨ s.Knows f := by
  cases f with
  | distance name hops =>
    obtain ⟨d, hk, hle⟩ := h
    refine (hknows _ hk).imp (fun hk => ⟨d, hk, hle⟩) fun ht => ?_
    exact (hteacher _ ht).knows.mono ((le_nextHop d).trans hle)
  | location l => exact (hknows (.location l) h).imp_right fun ht => (hteacher _ ht).knows

/-! ## Handling gossip -/

/-- Both tables have room for all there is to know. -/
structure HasRoom (e : Engine) (names : Finset String) (ls : Finset Location) : Prop where
  distances : e.distances.HasRoom names
  locations : e.locations.HasRoom ls

/-- What comes of gossip: the engine has learned what it was taught, and what it now tells
    and did not tell before is on its way to all neighbours but the sender. -/
structure Absorbed (e : Engine) (neighbors : List PeerAddress) (sender : PeerAddress)
    (m : Message) (r : Engine × List Parcel) : Prop where
  knows : ∀ f, r.1.Knows f ↔ e.Knows f ∨ m.Teaches f
  forwarded : ∀ p ∈ neighbors, p ≠ sender → ∀ f, r.1.Tells f →
    e.Tells f ∨ ∃ parcel ∈ r.2, parcel.receiver = p ∧ parcel.message.Teaches f
  sent : ∀ parcel ∈ r.2, parcel.receiver ∈ neighbors ∧
    parcel.message.gossiper? = some e.identity ∧ ∀ f, parcel.message.Teaches f → r.1.Tells f

variable {neighbors : List PeerAddress} {sender : PeerAddress} {names : Finset String}
  {ls : Finset Location}

theorem absorbed_onDistances {es : List (String × UInt32)} (h : e.HasRoom names ls)
    (hes : ∀ entry ∈ es, entry.1 ∈ names) :
    e.Absorbed neighbors sender (.distances sender es) (e.onDistances neighbors sender es) ∧
      (e.onDistances neighbors sender es).1.HasRoom names ls := by
  obtain ⟨hroom, hknows, hsame⟩ :=
    DistanceTable.knows_mergeAdvertised sender h.distances hes
  refine ⟨⟨fun f => ?_, fun p hp hne f hf => ?_, fun parcel hparcel => ?_⟩, hroom, h.locations⟩
  · cases f with
    | distance name hops => exact hknows name hops
    | location l => exact (or_false _).symm.to_iff
  · cases f with
    | distance name hops =>
      cases hc : (e.distances.mergeAdvertised sender es).1 with
      | true =>
        refine Or.inr ⟨⟨.everyone, p, (e.onDistances neighbors sender es).1.distancesMessage⟩,
          ?_, rfl, (tells_iff.1 hf).resolve_right id⟩
        simp only [onDistances, hc, if_true]
        exact mem_toAll.2 ⟨p, hp, by simpa using hne, rfl⟩
      | false =>
        obtain ⟨d, hk, hle⟩ := hf
        refine Or.inl ⟨d, ?_, hle⟩
        rcases (hknows name d.toNat).1 hk with hk | ⟨d', hd', hle'⟩
        · exact hk
        · exact Knows.mono (e := e) (hsame hc name d' hd') hle'
    | location l => exact Or.inl hf
  · cases hc : (e.distances.mergeAdvertised sender es).1 with
    | true =>
      simp only [onDistances, hc, if_true] at hparcel
      obtain ⟨r, hr, -, rfl⟩ := mem_toAll.1 hparcel
      exact ⟨hr, rfl, fun f hf => tells_iff.2 (Or.inl hf)⟩
    | false => simp [onDistances, hc] at hparcel

theorem absorbed_onLocations {es : List (PeerAddress × String)} (h : e.HasRoom names ls)
    (hes : ∀ entry ∈ es, (⟨entry.1, entry.2⟩ : Location) ∈ ls) :
    e.Absorbed neighbors sender (.locations sender es) (e.onLocations neighbors sender es) ∧
      (e.onLocations neighbors sender es).1.HasRoom names ls := by
  have hnew : ∀ l ∈ es.map fun l => (⟨l.1, l.2⟩ : Location), l ∈ ls := by
    intro l hl
    obtain ⟨entry, he, rfl⟩ := List.mem_map.1 hl
    exact hes entry he
  have hpair : ∀ l : Location, l ∈ (es.map fun l => (⟨l.1, l.2⟩ : Location)) ↔
      (l.holder, l.name) ∈ es := by
    intro l
    constructor
    · intro hl
      obtain ⟨entry, he, rfl⟩ := List.mem_map.1 hl
      exact he
    · intro hl
      exact List.mem_map.2 ⟨_, hl, rfl⟩
  obtain ⟨hroom, hmem, hsame⟩ := LocationTable.mem_mergeAll h.locations hnew
  refine ⟨⟨fun f => ?_, fun p hp hne f hf => ?_, fun parcel hparcel => ?_⟩, h.distances, hroom⟩
  · cases f with
    | distance name hops => exact (or_false _).symm.to_iff
    | location l => exact (hmem l).trans (or_congr_right (hpair l))
  · cases f with
    | distance name hops => exact Or.inl hf
    | location l =>
      cases hc : (e.locations.mergeAll (es.map fun l => ⟨l.1, l.2⟩)).1 with
      | true =>
        refine Or.inr ⟨⟨.everyone, p, (e.onLocations neighbors sender es).1.locationsMessage⟩,
          ?_, rfl, (tells_iff.1 hf).resolve_left id⟩
        simp only [onLocations, hc, if_true]
        exact mem_toAll.2 ⟨p, hp, by simpa using hne, rfl⟩
      | false => exact Or.inl (((hmem l).1 hf).elim id fun hl => hsame hc l hl)
  · cases hc : (e.locations.mergeAll (es.map fun l => ⟨l.1, l.2⟩)).1 with
    | true =>
      simp only [onLocations, hc, if_true] at hparcel
      obtain ⟨r, hr, -, rfl⟩ := mem_toAll.1 hparcel
      exact ⟨hr, rfl, fun f hf => tells_iff.2 (Or.inr hf)⟩
    | false => simp [onLocations, hc] at hparcel

/-- **Gossip is absorbed** if all it teaches is told by an engine with room for it. -/
theorem absorbed_of_told (h : e.HasRoom names ls) (hs : s.HasRoom names ls)
    (hg : m.gossiper? = some sender) (hteacher : ∀ f, m.Teaches f → s.Tells f)
    (neighbors : List PeerAddress) (pick : ℕ) :
    ∃ r, e.handle neighbors pick m = some r ∧ e.Absorbed neighbors sender m r ∧
      r.1.HasRoom names ls := by
  cases m with
  | distances sender' es =>
    cases hg
    refine ⟨_, rfl, absorbed_onDistances h fun entry he => ?_⟩
    have htold := hteacher (.distance entry.1 (nextHop entry.2).toNat) ⟨entry.2, he, le_rfl⟩
    exact hs.distances.known _ _ htold.knows
  | locations sender' es =>
    cases hg
    refine ⟨_, rfl, absorbed_onLocations h fun entry he => ?_⟩
    have htold := hteacher (.location ⟨entry.1, entry.2⟩) he
    exact hs.locations.known _ htold.knows
  | _ => cases hg

/-- **An engine that is told no new location** keeps the locations it has, and tells no
    location to anybody. -/
theorem locations_of_handle {pick : ℕ} {r : Engine × List Parcel}
    (hr : e.handle neighbors pick m = some r)
    (hm : ∀ l, m.Teaches (.location l) → l ∈ e.locations.entries) :
    (∀ l, l ∈ r.1.locations.entries ↔ l ∈ e.locations.entries) ∧
      ∀ p ∈ r.2, ∀ l, ¬ p.message.Teaches (.location l) := by
  cases m with
  | query kind q =>
    rw [handle_query, Option.some.injEq] at hr
    have hh : e.Handled kind q r := hr ▸ e.handled_onQuery neighbors pick kind q
    constructor
    · obtain ⟨t, first, rest, rfl, -⟩ := hh
      exact fun l => Iff.rfl
    · intro p hp l
      rcases hh.mem hp with h | h <;> rw [h] <;> exact id
  | distances sender es =>
    cases hr
    refine ⟨fun l => Iff.rfl, fun p hp l => ?_⟩
    simp only [onDistances] at hp
    split_ifs at hp
    · obtain ⟨r, -, -, rfl⟩ := mem_toAll.1 hp
      exact id
    · cases hp
  | locations sender es =>
    cases hr
    have hnew : ∀ l ∈ es.map fun l => (⟨l.1, l.2⟩ : Location), l ∈ e.locations.entries := by
      intro l hl
      obtain ⟨entry, he, rfl⟩ := List.mem_map.1 hl
      exact hm _ he
    obtain ⟨hsame, hentries⟩ := LocationTable.mergeAll_of_known hnew
    refine ⟨hentries, fun p hp => ?_⟩
    simp [onLocations, hsame] at hp
  | _ => cases hr

/-! ## Gossip of its own -/

/-- The facts that a peer with some metrics knows by itself. -/
def IsOwn (identity : PeerAddress) (own : List String) : Fact → Prop
  | .distance name _ => name ∈ own
  | .location l => l.holder = identity ∧ l.name ∈ own

theorem capacity_enterOwn (e : Engine) (own : List String) :
    (e.enterOwn own).distances.cache.capacity = e.distances.cache.capacity ∧
      (e.enterOwn own).locations.cache.capacity = e.locations.cache.capacity := by
  induction own generalizing e with
  | nil => exact ⟨rfl, rfl⟩
  | cons name own ih =>
    obtain ⟨hd, hl⟩ := ih { e with
      distances := (e.distances.merge name 0 e.identity).2
      locations := (e.locations.merge ⟨e.identity, name⟩).2 }
    rw [enterOwn, hd, hl]
    exact ⟨Cache.capacity_upsert _ _ _ _, LocationTable.capacity_merge _ _⟩

theorem identity_enterOwn (e : Engine) (own : List String) :
    (e.enterOwn own).identity = e.identity ∧ (e.enterOwn own).metrics = e.metrics := by
  induction own generalizing e with
  | nil => exact ⟨rfl, rfl⟩
  | cons name own ih => exact ih _

theorem identity_seed (e : Engine) : e.seed.identity = e.identity :=
  (identity_enterOwn _ _).1

theorem knows_enterOwn {own : List String} (h : e.HasRoom names ls)
    (hnames : ∀ name ∈ own, name ∈ names ∧ (⟨e.identity, name⟩ : Location) ∈ ls) :
    (e.enterOwn own).HasRoom names ls ∧
      ∀ f, (e.enterOwn own).Knows f ↔ e.Knows f ∨ IsOwn e.identity own f := by
  induction own generalizing e with
  | nil =>
    refine ⟨h, fun f => ?_⟩
    cases f with
    | distance name hops => simp [enterOwn, IsOwn]
    | location l => simp [enterOwn, IsOwn]
  | cons name own ih =>
    obtain ⟨hname, hl⟩ := hnames name List.mem_cons_self
    have hroom : ({ e with
        distances := (e.distances.merge name 0 e.identity).2
        locations := (e.locations.merge ⟨e.identity, name⟩).2 } : Engine).HasRoom names ls :=
      ⟨h.distances.merge hname, h.locations.merge hl⟩
    obtain ⟨hroom', hknows⟩ := ih hroom fun name hn => hnames name (List.mem_cons_of_mem _ hn)
    refine ⟨hroom', fun f => (hknows f).trans ?_⟩
    cases f with
    | distance name' hops =>
      have hmerge : (e.distances.merge name 0 e.identity).2.Knows name' hops ↔ _ :=
        DistanceTable.knows_merge h.distances hname
      simp only [Knows, IsOwn, hmerge, List.mem_cons, UInt32.toNat_zero, Nat.zero_le, and_true,
        or_assoc, eq_comm (a := name)]
    | location l =>
      have hmerge : l ∈ (e.locations.merge ⟨e.identity, name⟩).2.entries ↔ _ :=
        LocationTable.mem_merge h.locations hl
      simp only [Knows, IsOwn, hmerge, List.mem_cons, or_assoc]
      refine or_congr_right ?_
      constructor
      · rintro (rfl | ⟨hh, hn⟩)
        · exact ⟨rfl, Or.inl rfl⟩
        · exact ⟨hh, Or.inr hn⟩
      · rintro ⟨hh, rfl | hn⟩
        · exact Or.inl (by rw [← hh])
        · exact Or.inr ⟨hh, hn⟩

/-- **A new engine that is seeded knows its own metrics**, and nothing else. -/
theorem knows_seed {identity : PeerAddress} {metrics : Metrics} {settings : EngineSettings}
    {coins : Draws} (he : e = (Engine.new identity metrics settings coins).seed)
    (hdistances : names.card ≤ e.distances.cache.capacity)
    (hlocations : ls.card ≤ e.locations.cache.capacity)
    (hnameKeys : Set.InjOn Gossip.nameKey names) (hkeys : Set.InjOn Location.key ls)
    (hnames : ∀ name ∈ metrics.metricNames,
      name ∈ names ∧ (⟨identity, name⟩ : Location) ∈ ls) :
    e.HasRoom names ls ∧ ∀ f, e.Knows f ↔ IsOwn identity metrics.metricNames f := by
  have hseed : e = (Engine.new identity metrics settings coins).enterOwn metrics.metricNames := he
  obtain ⟨hd, hl⟩ :=
    capacity_enterOwn (Engine.new identity metrics settings coins) metrics.metricNames
  rw [hseed, hd] at hdistances
  rw [hseed, hl] at hlocations
  have hnone : ∀ f, ¬ (Engine.new identity metrics settings coins).Knows f := by
    intro f hf
    cases f with
    | distance name hops =>
      obtain ⟨entry, hentry, -⟩ := hf
      cases hentry
    | location l => cases hf
  have hroom : (Engine.new identity metrics settings coins).HasRoom names ls :=
    ⟨⟨fun name hops hk => absurd hk (hnone (.distance name hops)), hdistances, hnameKeys⟩,
      ⟨fun l hk => absurd hk (hnone (.location l)), hlocations, hkeys⟩⟩
  obtain ⟨hroom', hknows⟩ := knows_enterOwn hroom hnames
  rw [hseed]
  refine ⟨hroom', fun f => (hknows f).trans ?_⟩
  exact or_iff_right (hnone f)

end Engine

end OverlayCensus
