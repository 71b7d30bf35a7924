/-
  OverlayCensus — new metrics in the place of old ones.

  A peer that is seeded again drops what both tables say about itself and enters its present
  metrics.  As long as these and what others have told fit into the tables, nothing that others
  have told is lost: an entry for a name of its own gains the peer as a holder, and all other
  entries stay, in their order of use.

  * `DistanceTable.entries_merge`, `LocationTable.entries_merge`: the entries of a table with room
    after a report, in order;
  * `Engine.others`, `Engine.elsewhere`: the entries that are not the peer's own;
  * `Engine.reseed_replaces`: what both tables hold after a seeding.
-/
import Mathlib
import OverlayCensus.Proofs.DistanceReports

namespace OverlayCensus

/-! ## Entries in order -/

namespace DistanceTable

variable {t : DistanceTable} {names : Finset String} {name : String}

/-- A report puts the entry of its name in front and leaves all others in their order. -/
theorem entries_merge (h : t.HasRoom names) (hname : name ∈ names) (distance : UInt32)
    (holder : PeerAddress) : ∃ e, e.name = name ∧
      (t.merge name distance holder).2.entries = e :: t.entries.filter fun e => e.name ≠ name := by
  have hothers : (Cache.without (Gossip.nameKey name) t.cache.entries).map Prod.snd =
      t.entries.filter fun e => e.name ≠ name := by
    rw [entries, Cache.values, List.filter_map, Cache.without]
    refine congrArg _ (List.filter_congr fun e he => ?_)
    have hkey : e.1 = Gossip.nameKey name ↔ e.2.name = name := by
      rw [t.keyed e he]
      exact h.keys.eq_iff (h.name_mem he) hname
    simp [hkey]
  have huse : ∀ v, (t.cache.use (Gossip.nameKey name) v).values =
      v :: t.entries.filter fun e => e.name ≠ name := by
    intro v
    rw [Cache.values, h.entries_use hname, List.map_cons, hothers]
  simp only [merge, Cache.putDistance, Cache.upsert, entries]
  cases he : t.cache.get? (Gossip.nameKey name) with
  | none => exact ⟨_, rfl, huse _⟩
  | some e =>
    have hen : e.name = name := h.name_eq hname he
    exact ⟨(e.merge distance holder).2, hen, huse _⟩

theorem entries_forgetHolder (t : DistanceTable) (p : PeerAddress) :
    (t.forgetHolder p).2.entries = t.entries.filter fun e => p ∉ e.holders := by
  rw [entries, entries, Cache.values, Cache.values, List.filter_map]
  rfl

end DistanceTable

namespace LocationTable

variable {t : LocationTable} {ls : Finset Location} {l : Location}

/-- A location that is told comes to the front and leaves all others in their order. -/
theorem entries_merge (h : t.HasRoom ls) (hl : l ∈ ls) :
    (t.merge l).2.entries = l :: t.entries.filter fun l' => l' ≠ l := by
  rw [entries, (merge_of_room h hl).2, Cache.values, h.entries_use hl, List.map_cons, entries,
    Cache.values, List.filter_map, Cache.without]
  refine congrArg (l :: ·) (congrArg _ (List.filter_congr fun e he => ?_))
  have hkey : e.1 = l.key ↔ e.2 = l := by
    rw [t.keyed e he]
    exact h.keys.eq_iff (h.known _ (mem_entries_iff.2 ⟨e, he, rfl⟩)) hl
  simp [hkey]

theorem entries_forgetHolder (t : LocationTable) (p : PeerAddress) :
    (t.forgetHolder p).2.entries = t.entries.filter fun l => l.holder ≠ p := by
  rw [entries, entries, Cache.values, Cache.values, List.filter_map]
  rfl

end LocationTable

namespace Engine

variable {e : Engine} {own : List String} {names : Finset String} {ls : Finset Location}

/-! ## Entries of others -/

/-- The distances that the peer does not have from itself. -/
def others (e : Engine) : List DistanceEntry :=
  e.distances.entries.filter fun entry => e.identity ∉ entry.holders

/-- The locations at other peers. -/
def elsewhere (e : Engine) : List Location :=
  e.locations.entries.filter fun l => l.holder ≠ e.identity

theorem mem_others {entry : DistanceEntry} :
    entry ∈ e.others ↔ entry ∈ e.distances.entries ∧ e.identity ∉ entry.holders := by
  simp [others]

theorem mem_elsewhere {l : Location} :
    l ∈ e.elsewhere ↔ l ∈ e.locations.entries ∧ l.holder ≠ e.identity := by
  simp [elsewhere]

/-- Both tables have room for some metrics of the peer beside the entries of others, under keys
    that differ. -/
structure CanSeed (e : Engine) (own : List String) : Prop where
  distances : (e.others.map DistanceEntry.name ++ own).toFinset.card ≤ e.distances.cache.capacity
  nameKeys : Set.InjOn Gossip.nameKey {name | name ∈ e.others.map DistanceEntry.name ++ own}
  locations : (e.elsewhere ++ own.map (Location.mk e.identity)).toFinset.card ≤
    e.locations.cache.capacity
  locationKeys : Set.InjOn Location.key
    {l | l ∈ e.elsewhere ++ own.map (Location.mk e.identity)}

/-- The engine with new metrics, and nothing about itself in its tables. -/
def cleared (e : Engine) (metrics : Metrics) : Engine :=
  { e with
    metrics := metrics
    distances := (e.distances.forgetHolder e.identity).2
    locations := (e.locations.forgetHolder e.identity).2 }

/-- The engine seeded with new metrics. -/
def reseed (e : Engine) (metrics : Metrics) : Engine :=
  ({ e with metrics := metrics } : Engine).seed

/-- What is entered for the peer's own metrics leaves all entries for other names, and all
    locations at other peers, in their order. -/
theorem filter_enterOwn (h : e.HasRoom names ls)
    (hown : ∀ name ∈ own, name ∈ names ∧ (⟨e.identity, name⟩ : Location) ∈ ls)
    {p : DistanceEntry → Bool} (hp : ∀ entry, entry.name ∈ own → p entry = false) :
    (e.enterOwn own).distances.entries.filter p = e.distances.entries.filter p ∧
      (e.enterOwn own).elsewhere = e.elsewhere := by
  induction own generalizing e with
  | nil => exact ⟨rfl, rfl⟩
  | cons name own ih =>
    obtain ⟨hname, hl⟩ := hown name List.mem_cons_self
    obtain ⟨hdistances, helsewhere⟩ := ih (e := { e with
        distances := (e.distances.merge name 0 e.identity).2
        locations := (e.locations.merge ⟨e.identity, name⟩).2 })
      ⟨h.distances.merge hname, h.locations.merge hl⟩
      (fun name' hn => hown name' (List.mem_cons_of_mem _ hn))
      fun entry he => hp entry (List.mem_cons_of_mem _ he)
    refine ⟨hdistances.trans ?_, helsewhere.trans ?_⟩
    · obtain ⟨entry, hen, hentries⟩ :=
        DistanceTable.entries_merge h.distances hname 0 e.identity
      rw [hentries, List.filter_cons_of_neg (by simp [hp entry (by simp [hen])]),
        List.filter_filter]
      refine List.filter_congr fun entry' _ => ?_
      by_cases hen' : entry'.name = name
      · simp [hp entry' (by simp [hen'])]
      · simp [hen']
    · rw [elsewhere, elsewhere, LocationTable.entries_merge h.locations hl,
        List.filter_cons_of_neg (by simp), List.filter_filter]
      refine List.filter_congr fun l _ => ?_
      by_cases hl' : l = ⟨e.identity, name⟩
      · simp [hl']
      · simp [hl']

/-! ## Seeding -/

variable {metrics : Metrics}

theorem reseed_eq (e : Engine) (metrics : Metrics) :
    e.reseed metrics = (e.cleared metrics).enterOwn metrics.metricNames := rfl

theorem entries_cleared (e : Engine) (metrics : Metrics) :
    (e.cleared metrics).distances.entries = e.others ∧
      (e.cleared metrics).locations.entries = e.elsewhere :=
  ⟨DistanceTable.entries_forgetHolder _ _, LocationTable.entries_forgetHolder _ _⟩

theorem CanSeed.hasRoom (h : e.CanSeed own) (metrics : Metrics) : (e.cleared metrics).HasRoom
    (e.others.map DistanceEntry.name ++ own).toFinset
    (e.elsewhere ++ own.map (Location.mk e.identity)).toFinset := by
  obtain ⟨hothers, helsewhere⟩ := e.entries_cleared metrics
  refine ⟨⟨fun name hops hk => ?_, h.distances, ?_⟩, ⟨fun l hl => ?_, h.locations, ?_⟩⟩
  · obtain ⟨entry, he, hname, -⟩ := DistanceTable.knows_iff.1 hk
    rw [hothers] at he
    exact List.mem_toFinset.2 (List.mem_append_left _ (List.mem_map.2 ⟨entry, he, hname⟩))
  · rw [List.coe_toFinset]
    exact h.nameKeys
  · rw [helsewhere] at hl
    exact List.mem_toFinset.2 (List.mem_append_left _ hl)
  · rw [List.coe_toFinset]
    exact h.locationKeys

theorem mem_own (e : Engine) (own : List String) (metrics : Metrics) : ∀ name ∈ own,
    name ∈ (e.others.map DistanceEntry.name ++ own).toFinset ∧
      (⟨(e.cleared metrics).identity, name⟩ : Location) ∈
        (e.elsewhere ++ own.map (Location.mk e.identity)).toFinset := fun _ hn =>
  ⟨List.mem_toFinset.2 (List.mem_append_right _ hn),
    List.mem_toFinset.2 (List.mem_append_right _ (List.mem_map_of_mem hn))⟩

/-- What a peer knows after it has been seeded with new metrics, and whom it lists. -/
theorem facts_reseed (h : e.CanSeed metrics.metricNames) :
    (∀ name hops, (e.reseed metrics).distances.Knows name hops ↔
      (∃ former ∈ e.others, former.name = name ∧ former.distance.toNat ≤ hops) ∨
        name ∈ metrics.metricNames) ∧
    (∀ name p, (e.reseed metrics).distances.Lists name p ↔
      (∃ former ∈ e.others, former.name = name ∧ p ∈ former.holders) ∨
        name ∈ metrics.metricNames ∧ p = e.identity) ∧
    ∀ l, l ∈ (e.reseed metrics).locations.entries ↔
      l ∈ e.elsewhere ∨ l.holder = e.identity ∧ l.name ∈ metrics.metricNames := by
  obtain ⟨hothers, helsewhere⟩ := e.entries_cleared metrics
  have hroom := h.hasRoom metrics
  obtain ⟨-, hknows, hlists⟩ :=
    distances_enterOwn hroom.distances fun name hn => (e.mem_own _ metrics name hn).1
  obtain ⟨-, hfacts⟩ := knows_enterOwn hroom (e.mem_own _ metrics)
  refine ⟨fun name hops => (hknows name hops).trans (or_congr_left ?_),
    fun name p => (hlists name p).trans (or_congr_left ?_),
    fun l => (hfacts (.location l)).trans (or_congr_left ?_)⟩
  · rw [DistanceTable.knows_iff, hothers]
  · rw [DistanceTable.lists_iff, hothers]
  · rw [Knows, helsewhere]

/-- **A peer that is seeded again replaces what both tables say about itself.**  Its state and its
    new metrics may be any, as long as the metrics fit beside what others have told.  Then the
    entries that list the peer are one for each of its metrics, all at distance 0 and with the
    holders that others have told; the entries for other names are those that did not list the
    peer, unchanged and in their order; the locations at the peer are its metrics; and the
    locations at other peers are unchanged and in their order. -/
theorem reseed_replaces (h : e.CanSeed metrics.metricNames) :
    (∀ name ∈ metrics.metricNames,
      ∃ entry ∈ (e.reseed metrics).distances.entries, entry.name = name) ∧
    (∀ entry ∈ (e.reseed metrics).distances.entries,
      (e.identity ∈ entry.holders ↔ entry.name ∈ metrics.metricNames) ∧
      (e.identity ∈ entry.holders → entry.distance = 0 ∧ ∀ p, p ∈ entry.holders ↔
        p = e.identity ∨ ∃ former ∈ e.others, former.name = entry.name ∧ p ∈ former.holders)) ∧
    ((e.reseed metrics).distances.entries.filter
        (fun entry => entry.name ∉ metrics.metricNames) =
      e.others.filter fun entry => entry.name ∉ metrics.metricNames) ∧
    (∀ name, (⟨e.identity, name⟩ : Location) ∈ (e.reseed metrics).locations.entries ↔
      name ∈ metrics.metricNames) ∧
    (e.reseed metrics).elsewhere = e.elsewhere := by
  obtain ⟨hknows, hlists, hlocations⟩ := facts_reseed h
  obtain ⟨hothers, helsewhere⟩ := e.entries_cleared metrics
  have hfilter := filter_enterOwn (h.hasRoom metrics) (e.mem_own _ metrics)
    (p := fun entry => entry.name ∉ metrics.metricNames) fun entry hn => by simpa using hn
  rw [← reseed_eq] at hfilter
  refine ⟨fun name hn => ?_, fun entry hentry => ?_, hfilter.1.trans ?_, fun name => ?_,
    hfilter.2.trans ?_⟩
  · obtain ⟨entry, he, hname, -⟩ := DistanceTable.knows_iff.1 ((hknows name 0).2 (Or.inr hn))
    exact ⟨entry, he, hname⟩
  · obtain ⟨-, hleast, hholders⟩ := DistanceTable.mem_entries_iff.1 hentry
    have hlisted : e.identity ∈ entry.holders ↔ entry.name ∈ metrics.metricNames := by
      rw [hholders, hlists, and_iff_left rfl]
      refine or_iff_right ?_
      rintro ⟨former, hformer, -, hmine⟩
      exact (mem_others.1 hformer).2 hmine
    refine ⟨hlisted, fun hmine => ⟨?_, fun p => ?_⟩⟩
    · have hle := hleast 0 ((hknows _ 0).2 (Or.inr (hlisted.1 hmine)))
      exact UInt32.toNat_inj.1 (Nat.le_zero.1 hle)
    · rw [hholders, hlists, and_iff_right (hlisted.1 hmine)]
      exact or_comm
  · rw [hothers]
  · rw [hlocations, mem_elsewhere, and_iff_right rfl]
    exact or_iff_right fun hl => hl.2 rfl
  · rw [elsewhere, helsewhere]
    exact List.filter_eq_self.2 fun l hl => decide_eq_true (mem_elsewhere.1 hl).2

namespace Sample

/-- A peer with one metric, that has heard of this and another one. -/
def settled : Engine :=
  let e := (Engine.new ⟨"p", 1⟩ ⟨1, fun _ => 1, ["t"]⟩ {} (.ofSeed 0)).seed
  let e := (e.onDistances [] ⟨"p", 2⟩ [("t", 0), ("h", 1)]).1
  (e.onLocations [] ⟨"p", 2⟩ [(⟨"p", 2⟩, "t"), (⟨"p", 2⟩, "h")]).1

/-- Metrics without the former one, told twice over. -/
def exchanged : Metrics :=
  ⟨2, fun _ => 2, ["h", "k", "h"]⟩

theorem others_settled : settled.others = [⟨"h", 2, .single ⟨"p", 2⟩⟩] ∧
    settled.elsewhere = [⟨⟨"p", 2⟩, "h"⟩, ⟨⟨"p", 2⟩, "t"⟩] := by decide +kernel

theorem canSeed_settled : settled.CanSeed exchanged.metricNames := by
  obtain ⟨hothers, helsewhere⟩ := others_settled
  have hnames : ∀ a ∈ ["h", "h", "k", "h"], ∀ b ∈ ["h", "h", "k", "h"],
      Gossip.nameKey a = Gossip.nameKey b → a = b := by decide +kernel
  have hlocations :
      let ls : List Location := [⟨⟨"p", 2⟩, "h"⟩, ⟨⟨"p", 2⟩, "t"⟩, ⟨⟨"p", 1⟩, "h"⟩,
        ⟨⟨"p", 1⟩, "k"⟩, ⟨⟨"p", 1⟩, "h"⟩]
      ∀ a ∈ ls, ∀ b ∈ ls, a.key = b.key → a = b := by decide +kernel
  refine ⟨?_, ?_, ?_, ?_⟩
  · rw [hothers]
    decide +kernel
  · rw [hothers]
    exact fun a ha b hb => hnames a ha b hb
  · rw [helsewhere]
    decide +kernel
  · rw [helsewhere]
    exact fun a ha b hb => hlocations a ha b hb

theorem reseed_replaces_settled : settled.CanSeed exchanged.metricNames ∧
    (settled.reseed exchanged).elsewhere = [⟨⟨"p", 2⟩, "h"⟩, ⟨⟨"p", 2⟩, "t"⟩] ∧
    (∀ name, (⟨⟨"p", 1⟩, name⟩ : Location) ∈ (settled.reseed exchanged).locations.entries ↔
      name ∈ ["h", "k", "h"]) ∧
    ∀ entry ∈ (settled.reseed exchanged).distances.entries,
      ⟨"p", 1⟩ ∈ entry.holders ↔ entry.name ∈ ["h", "k", "h"] := by
  obtain ⟨-, hentries, -, hown, helsewhere⟩ := reseed_replaces canSeed_settled
  exact ⟨canSeed_settled, helsewhere.trans others_settled.2, hown, fun entry he => (hentries entry he).1⟩

end Sample

end Engine

end OverlayCensus
