/-
  OverlayCensus — whom the distance table of a peer lists for a metric.

  An entry lists everyone who has told about its metric, not only those who told the least
  distance.  In a table with room, a report adds its sender to the list, and asking for a
  metric changes nothing but the order of use.

  * `DistanceTable.lists_mergeAdvertised`: whom a table lists after gossip;
  * `DistanceTable.mem_holdersWithin`: whom it names to a query;
  * `Engine.Heard`: what any message does to the distances that an engine knows.
-/
import Mathlib
import OverlayCensus.Proofs.GossipFacts

namespace OverlayCensus

/-! ## Asking a cache -/

namespace Cache

variable {κ ν : Type} [DecidableEq κ] {c : Cache κ ν} {k : κ}

theorem touch_fst (c : Cache κ ν) (k : κ) : (c.touch k).1 = c.get? k := by
  unfold touch
  cases c.get? k <;> rfl

theorem capacity_touch (c : Cache κ ν) (k : κ) : (c.touch k).2.capacity = c.capacity := by
  unfold touch
  cases c.get? k <;> rfl

/-- A cache that is asked has the same entries in another order. -/
theorem mem_entries_touch_iff {e : κ × ν} : e ∈ (c.touch k).2.entries ↔ e ∈ c.entries := by
  refine ⟨mem_entries_touch, fun he => ?_⟩
  unfold touch
  cases hv : c.get? k with
  | none => exact he
  | some v =>
    have hk : k ∈ c.keys.toFinset :=
      List.mem_toFinset.2 (List.mem_map_of_mem (mem_of_get? hv))
    have hnodup : c.keys.Nodup := c.distinct
    have hroom : c.keys.toFinset.card ≤ c.capacity := by
      rw [List.toFinset_card_of_nodup hnodup, keys, List.length_map]
      exact c.length_le
    show e ∈ (c.use k v).entries
    rw [entries_use_of_room (fun j hj => List.mem_toFinset.2 hj) hk hroom]
    by_cases hek : e.1 = k
    · have hsame := List.inj_on_of_nodup_map c.distinct he (mem_of_get? hv) hek
      exact List.mem_cons.2 (Or.inl hsame)
    · exact List.mem_cons_of_mem _ (List.mem_filter.2 ⟨he, by simpa using hek⟩)

end Cache

/-! ## Holders -/

namespace DistanceTable

/-- The table lists a peer among those who told about a name. -/
def Lists (t : DistanceTable) (name : String) (p : PeerAddress) : Prop :=
  ∃ e ∈ t.cache.entries, e.2.name = name ∧ p ∈ e.2.holders

variable {t : DistanceTable} {names : Finset String} {name name' : String} {distance : UInt32}
  {holder p : PeerAddress}

/-- **A report adds its sender to the list**, and nobody is lost. -/
theorem lists_merge (h : t.HasRoom names) (hname : name ∈ names) :
    (t.merge name distance holder).2.Lists name' p ↔
      t.Lists name' p ∨ (name = name' ∧ p = holder) := by
  show (∃ e ∈ (t.cache.putDistance (Gossip.nameKey name) name distance holder).2.entries,
    e.2.name = name' ∧ p ∈ e.2.holders) ↔ _
  unfold Cache.putDistance Cache.upsert Lists
  cases he : t.cache.get? (Gossip.nameKey name) with
  | none =>
    rw [h.entries_use hname, List.exists_mem_cons_iff, Cache.exists_entries_of_get?_none
      (P := fun e => e.name = name' ∧ p ∈ e.holders) he]
    simp only [PeerSet.mem_single]
    exact or_comm
  | some e =>
    have hen := h.name_eq hname he
    rw [h.entries_use hname, List.exists_mem_cons_iff, Cache.exists_entries_of_get?
      (P := fun e => e.name = name' ∧ p ∈ e.holders) he]
    simp only [DistanceEntry.merge, hen, PeerSet.mem_insert]
    rw [and_or_left, or_assoc, or_comm]

/-- **After gossip the table lists its sender** for every name that it told. -/
theorem lists_mergeAdvertised (sender : PeerAddress) {es : List (String × UInt32)}
    (h : t.HasRoom names) (hes : ∀ e ∈ es, e.1 ∈ names) :
    (t.mergeAdvertised sender es).2.Lists name p ↔
      t.Lists name p ∨ (p = sender ∧ ∃ d, (name, d) ∈ es) := by
  induction es generalizing t with
  | nil => simp [mergeAdvertised]
  | cons e es ih =>
    obtain ⟨name₀, d₀⟩ := e
    have hname : name₀ ∈ names := hes (name₀, d₀) List.mem_cons_self
    rw [mergeAdvertised, ih (h.merge hname) fun e he => hes e (List.mem_cons_of_mem _ he),
      lists_merge h hname]
    constructor
    · rintro ((hl | ⟨rfl, rfl⟩) | ⟨rfl, d, hd⟩)
      · exact Or.inl hl
      · exact Or.inr ⟨rfl, d₀, List.mem_cons_self⟩
      · exact Or.inr ⟨rfl, d, List.mem_cons_of_mem _ hd⟩
    · rintro (hl | ⟨rfl, d, hd⟩)
      · exact Or.inl (Or.inl hl)
      · rcases List.mem_cons.1 hd with hd | hd
        · cases hd
          exact Or.inl (Or.inr ⟨rfl, rfl⟩)
        · exact Or.inr ⟨rfl, d, hd⟩

/-! ## Reports that change nothing -/

variable {sender : PeerAddress}

/-- A report of a known distance by a listed teller changes nothing. -/
theorem merge_of_known (hknows : t.Knows name distance.toNat) (hlists : t.Lists name holder) :
    (t.merge name distance holder).1 = false := by
  obtain ⟨e, he, rfl, hdistance⟩ := hknows
  obtain ⟨e', he', hen, hholder⟩ := hlists
  have hkey : e'.1 = e.1 := by rw [t.keyed e he, t.keyed e' he', hen]
  rw [List.inj_on_of_nodup_map t.cache.distinct he' he hkey] at hholder
  have hget : t.cache.get? (Gossip.nameKey e.2.name) = some e.2 := by
    rw [← t.keyed e he]
    exact Cache.get?_eq_some_iff.2 he
  have hle : ¬ distance < e.2.distance :=
    UInt32.not_lt.2 (UInt32.le_iff_toNat_le.2 hdistance)
  show (t.cache.putDistance (Gossip.nameKey e.2.name) e.2.name distance holder).1 = false
  simp only [Cache.putDistance, Cache.upsert, hget, DistanceEntry.merge, hholder, hle,
    not_true_eq_false, decide_false, Bool.or_self]

/-- A report that changes nothing has a listed teller. -/
theorem lists_of_merge_eq_false (h : t.HasRoom names) (hname : name ∈ names)
    (hsame : (t.merge name distance holder).1 = false) : t.Lists name holder := by
  have hup : (t.cache.putDistance (Gossip.nameKey name) name distance holder).1 = false := hsame
  unfold Cache.putDistance Cache.upsert at hup
  cases he : t.cache.get? (Gossip.nameKey name) with
  | none => simp [he] at hup
  | some e =>
    have hholder : holder ∈ e.holders := by
      simp only [he, DistanceEntry.merge, Bool.or_eq_false_iff, decide_eq_false_iff_not,
        not_not] at hup
      exact hup.1
    exact ⟨_, Cache.mem_of_get? he, h.name_eq hname he, hholder⟩

/-- **An advertisement of what is known**, by a listed teller, changes nothing. -/
theorem mergeAdvertised_of_known {es : List (String × UInt32)} (h : t.HasRoom names)
    (hes : ∀ e ∈ es, e.1 ∈ names)
    (hknown : ∀ e ∈ es, t.Knows e.1 (nextHop e.2).toNat ∧ t.Lists e.1 sender) :
    (t.mergeAdvertised sender es).1 = false := by
  induction es generalizing t with
  | nil => rfl
  | cons e es ih =>
    have hname := hes e List.mem_cons_self
    obtain ⟨hknows, hlists⟩ := hknown e List.mem_cons_self
    have hlater : ∀ e' ∈ es, (t.merge e.1 (nextHop e.2) sender).2.Knows e'.1
          (nextHop e'.2).toNat ∧ (t.merge e.1 (nextHop e.2) sender).2.Lists e'.1 sender := by
      intro e' he'
      obtain ⟨hknows', hlists'⟩ := hknown e' (List.mem_cons_of_mem _ he')
      exact ⟨(knows_merge h hname).2 (Or.inl hknows'), (lists_merge h hname).2 (Or.inl hlists')⟩
    have hfirst := merge_of_known hknows hlists
    have hrest := ih (h.merge hname) (fun e' he' => hes e' (List.mem_cons_of_mem _ he')) hlater
    simp only [mergeAdvertised, hfirst, hrest, Bool.or_self]

/-! ## Asking for a metric -/

variable {limit : UInt32}

/-- A table with the same entries and as much room, in another order of use. -/
structure Same (t t' : DistanceTable) : Prop where
  entries : ∀ e, e ∈ t'.cache.entries ↔ e ∈ t.cache.entries
  capacity : t'.cache.capacity = t.cache.capacity

theorem Same.refl (t : DistanceTable) : t.Same t := ⟨fun _ => Iff.rfl, rfl⟩

theorem same_holdersWithin (t : DistanceTable) (name : String) (limit : UInt32) :
    t.Same (t.holdersWithin name limit).2 :=
  ⟨fun _ => Cache.mem_entries_touch_iff, Cache.capacity_touch _ _⟩

namespace Same
variable {t' : DistanceTable} (h : t.Same t')
include h

theorem knows_iff {hops : ℕ} : t'.Knows name hops ↔ t.Knows name hops := by
  simp only [Knows, h.entries]

theorem lists_iff : t'.Lists name p ↔ t.Lists name p := by
  simp only [Lists, h.entries]

theorem hasRoom (hroom : t.HasRoom names) : t'.HasRoom names where
  known name hops hk := hroom.known name hops (h.knows_iff.1 hk)
  room := h.capacity ▸ hroom.room
  keys := hroom.keys

end Same

theorem mem_holdersWithin_iff_get? : p ∈ (t.holdersWithin name limit).1 ↔
    ∃ e, t.cache.get? (Gossip.nameKey name) = some e ∧ e.distance < limit ∧ p ∈ e.holders := by
  simp only [holdersWithin, Cache.touch_fst]
  cases t.cache.get? (Gossip.nameKey name) with
  | none => simp
  | some e =>
    simp only [Option.some.injEq, exists_eq_left']
    split_ifs with hd
    · exact (and_iff_right hd).symm
    · simp [hd]

/-- Whoever a table names is listed for some name. -/
theorem lists_of_mem_holdersWithin (h : p ∈ (t.holdersWithin name limit).1) :
    ∃ name', t.Lists name' p := by
  obtain ⟨e, he, -, hp⟩ := mem_holdersWithin_iff_get?.1 h
  exact ⟨e.name, _, Cache.mem_of_get? he, rfl, hp⟩

/-- **A table names everyone it lists for a metric** that is near enough. -/
theorem mem_holdersWithin {hops : ℕ} (hlists : t.Lists name p) (hknows : t.Knows name hops)
    (hlimit : hops < limit.toNat) :
    p ∈ (t.holdersWithin name limit).1 := by
  obtain ⟨e, he, rfl, hp⟩ := hlists
  obtain ⟨e', he', hen, hd⟩ := hknows
  have hkey : e'.1 = e.1 := by rw [t.keyed e he, t.keyed e' he', hen]
  rw [List.inj_on_of_nodup_map t.cache.distinct he' he hkey] at hd
  refine mem_holdersWithin_iff_get?.2 ⟨e.2, ?_, UInt32.lt_iff_toNat_lt.2 (hd.trans_lt hlimit), hp⟩
  rw [← t.keyed e he]
  exact Cache.get?_eq_some_iff.2 he

end DistanceTable

/-! ## What any message does to the distances -/

theorem Message.tag_of_teaches {m : Message} {name : String} {hops : ℕ}
    (h : m.Teaches (.distance name hops)) : m.tag = .gossipData := by
  cases m with
  | distances => rfl
  | _ => exact h.elim

namespace Engine

/-- What comes of a message for the distances that an engine knows: the engine has learned
    what it was taught and lists the teacher, and what it now tells and did not tell before
    is on its way to all neighbours but the teacher.  Only gossip about distances makes it
    send such gossip. -/
structure Heard (e : Engine) (neighbors : List PeerAddress) (m : Message)
    (r : Engine × List Parcel) : Prop where
  knows : ∀ name hops, r.1.Knows (.distance name hops) ↔
    e.Knows (.distance name hops) ∨ m.Teaches (.distance name hops)
  lists : ∀ name p, r.1.distances.Lists name p ↔ e.distances.Lists name p ∨
    (m.gossiper? = some p ∧ ∃ hops, m.Teaches (.distance name hops))
  forwarded : ∀ p ∈ neighbors, m.gossiper? ≠ some p → ∀ name hops,
    r.1.Tells (.distance name hops) → e.Tells (.distance name hops) ∨
      ∃ parcel ∈ r.2, parcel.receiver = p ∧ parcel.message.Teaches (.distance name hops)
  sent : ∀ parcel ∈ r.2, parcel.message.tag = .gossipData → m.tag = .gossipData ∧
    parcel.receiver ∈ neighbors ∧ parcel.message.gossiper? = some e.identity ∧
      ∀ f, parcel.message.Teaches f → r.1.Tells f

variable {e : Engine} {neighbors : List PeerAddress} {pick : ℕ} {m : Message}
  {r : Engine × List Parcel} {names : Finset String}

/-- A query changes at most the order of use. -/
theorem same_onQuery (e : Engine) (neighbors : List PeerAddress) (pick : ℕ) (kind : QueryKind)
    (q : Query) : e.distances.Same (e.onQuery neighbors pick kind q).1.distances := by
  have hgossip : e.distances.Same (e.onGossipQuery kind q).1.distances := by
    have hroutes : ∀ e' : Engine, e'.distances = e.distances →
        e.distances.Same (e'.routes kind q).2.distances := by
      intro e' he
      rw [← he]
      cases kind with
      | gossipDistance => exact DistanceTable.same_holdersWithin _ _ (hopsLeft q)
      | _ => exact .refl _
    simp only [onGossipQuery]
    split
    · exact .refl _
    · split
      · exact .refl _
      · split <;> exact hroutes _ rfl
  cases kind with
  | flood =>
    simp only [onQuery, onFlood]
    split
    · exact .refl _
    · split
      · exact .refl _
      · split <;> exact .refl _
  | randomWalk =>
    have hnoted : ∀ (new : Bool) (e' : Engine), e'.distances = e.distances →
        e.distances.Same (if new = true then e'.contribute q else e').distances := by
      intro new e' he
      rw [← he]
      split <;> exact .refl _
    simp only [onQuery, onRandomWalk]
    split
    · exact hnoted _ _ rfl
    · split
      · exact hnoted _ _ rfl
      · split <;> exact hnoted _ _ rfl
  | gossipDistance | gossipLocation => exact hgossip

/-- A message that is not gossip about distances leaves them as they are. -/
theorem Heard.of_same (h : e.distances.Same r.1.distances) (hm : m.tag ≠ .gossipData)
    (hsent : ∀ parcel ∈ r.2, parcel.message.tag ≠ .gossipData) : e.Heard neighbors m r where
  knows _ _ :=
    h.knows_iff.trans (or_iff_left fun ht => hm (Message.tag_of_teaches ht)).symm
  lists _ _ :=
    h.lists_iff.trans (or_iff_left fun ⟨_, _, ht⟩ => hm (Message.tag_of_teaches ht)).symm
  forwarded _ _ _ _ _ := fun ⟨d, hd, hle⟩ => Or.inl ⟨d, h.knows_iff.1 hd, hle⟩
  sent parcel hparcel htag := absurd htag (hsent parcel hparcel)

/-- **What an engine makes of any message** that teaches distances to names for which its
    table has room. -/
theorem heard_of_handle (hr : e.handle neighbors pick m = some r)
    (h : e.distances.HasRoom names)
    (hm : ∀ name hops, m.Teaches (.distance name hops) → name ∈ names) :
    e.Heard neighbors m r ∧ r.1.distances.HasRoom names := by
  cases m with
  | query kind q =>
    rw [handle_query, Option.some.injEq] at hr
    subst hr
    have hsame := e.same_onQuery neighbors pick kind q
    refine ⟨.of_same hsame ?_ fun parcel hparcel => ?_, hsame.hasRoom h⟩
    · cases kind <;> simp [Message.tag, QueryKind.tag]
    · rcases (e.handled_onQuery neighbors pick kind q).mem hparcel with h | h <;> rw [h] <;>
        cases kind <;> simp [Message.tag, QueryKind.tag]
  | distances sender es =>
    cases hr
    have hes : ∀ entry ∈ es, entry.1 ∈ names := fun entry he =>
      hm entry.1 (nextHop entry.2).toNat ⟨entry.2, he, le_rfl⟩
    have hroom : e.HasRoom names e.locations.entries.toFinset :=
      ⟨h, e.locations.hasRoom_entries⟩
    obtain ⟨habsorbed, hroom'⟩ : e.Absorbed neighbors sender (.distances sender es)
        (e.onDistances neighbors sender es) ∧ _ := absorbed_onDistances hroom hes
    refine ⟨⟨fun name hops => habsorbed.knows (.distance name hops), fun name p => ?_,
      fun p hp hne name hops hf => ?_, fun parcel hparcel _ => ?_⟩, hroom'.distances⟩
    · refine (DistanceTable.lists_mergeAdvertised sender h hes).trans (or_congr_right ?_)
      constructor
      · rintro ⟨rfl, d, hd⟩
        exact ⟨rfl, (nextHop d).toNat, d, hd, le_rfl⟩
      · rintro ⟨hp, -, d, hd, -⟩
        exact ⟨(Option.some.inj hp).symm, d, hd⟩
    · exact habsorbed.forwarded p hp (fun he => hne (congrArg some he.symm)) _ hf
    · exact ⟨rfl, habsorbed.sent parcel hparcel⟩
  | locations sender es =>
    cases hr
    refine ⟨.of_same (.refl _) (by simp [Message.tag]) fun parcel hparcel => ?_, h⟩
    simp only [onLocations] at hparcel
    split_ifs at hparcel
    · obtain ⟨r, -, -, rfl⟩ := mem_toAll.1 hparcel
      simp [locationsMessage, Message.tag]
    · cases hparcel
  | _ => cases hr

/-! ## Gossip of its own -/

theorem distances_enterOwn {own : List String} (h : e.distances.HasRoom names)
    (hown : ∀ name ∈ own, name ∈ names) :
    (e.enterOwn own).distances.HasRoom names ∧
      (∀ name hops, (e.enterOwn own).distances.Knows name hops ↔
        e.distances.Knows name hops ∨ name ∈ own) ∧
      ∀ name p, (e.enterOwn own).distances.Lists name p ↔
        e.distances.Lists name p ∨ (name ∈ own ∧ p = e.identity) := by
  induction own generalizing e with
  | nil => exact ⟨h, fun name hops => by simp [enterOwn], fun name p => by simp [enterOwn]⟩
  | cons name₀ own ih =>
    have hname := hown name₀ List.mem_cons_self
    obtain ⟨hroom, hknows, hlists⟩ := ih (e := { e with
        distances := (e.distances.merge name₀ 0 e.identity).2
        locations := (e.locations.merge ⟨e.identity, name₀⟩).2 }) (h.merge hname)
      fun name hn => hown name (List.mem_cons_of_mem _ hn)
    refine ⟨hroom, fun name hops => (hknows name hops).trans ?_,
      fun name p => (hlists name p).trans ?_⟩
    · rw [DistanceTable.knows_merge h hname, List.mem_cons, or_assoc, eq_comm (a := name₀),
        UInt32.toNat_zero, and_iff_left (Nat.zero_le hops)]
    · rw [DistanceTable.lists_merge h hname, List.mem_cons, or_assoc, eq_comm (a := name₀),
        or_and_right]

/-- **A new engine that is seeded knows the distance to its own metrics**, and lists itself
    for them. -/
theorem distances_seed {identity : PeerAddress} {metrics : Metrics} {settings : EngineSettings}
    {coins : Draws} (he : e = (Engine.new identity metrics settings coins).seed)
    (hcapacity : names.card ≤ e.distances.cache.capacity)
    (hkeys : Set.InjOn Gossip.nameKey names) (hown : ∀ name ∈ metrics.metricNames, name ∈ names) :
    e.distances.HasRoom names ∧
      (∀ name hops, e.distances.Knows name hops ↔ name ∈ metrics.metricNames) ∧
      ∀ name p, e.distances.Lists name p ↔ name ∈ metrics.metricNames ∧ p = identity := by
  have hseed : e = (Engine.new identity metrics settings coins).enterOwn metrics.metricNames := he
  obtain ⟨hsame, -⟩ :=
    capacity_enterOwn (Engine.new identity metrics settings coins) metrics.metricNames
  rw [hseed, hsame] at hcapacity
  have hknows : ∀ name hops,
      ¬ (Engine.new identity metrics settings coins).distances.Knows name hops := by
    rintro name hops ⟨entry, hentry, -⟩
    cases hentry
  have hlists : ∀ name p,
      ¬ (Engine.new identity metrics settings coins).distances.Lists name p := by
    rintro name p ⟨entry, hentry, -⟩
    cases hentry
  obtain ⟨hroom, hknows', hlists'⟩ := distances_enterOwn
    ⟨fun name hops hk => absurd hk (hknows name hops), hcapacity, hkeys⟩ hown
  rw [hseed]
  exact ⟨hroom, fun name hops => (hknows' name hops).trans (or_iff_right (hknows name hops)),
    fun name p => (hlists' name p).trans (or_iff_right (hlists name p))⟩

end Engine

end OverlayCensus
