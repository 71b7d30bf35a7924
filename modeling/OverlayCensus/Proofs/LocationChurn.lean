/-
  OverlayCensus — gossip about locations that never ends.

  Three peers are linked to each other, and their tables have one place and never skip a
  location.  Two locations that come to one of the peers at a time push each other out of its
  table, so it passes both on, each past the other, until they come together again at the
  next peer.

  * `Filled.after`: a peer whose only place is taken takes another location and passes it on;
  * `Meeting`: two locations come together at a peer, and `Meeting.after` that they do so
    again three deliveries later;
  * `locations_never_die_out`: so the gossip of such peers has no end.
-/
import Mathlib
import OverlayCensus.Proofs.LocationQuiescence

namespace OverlayCensus

/-! ## Tables with one place -/

namespace LocationTable

variable {t : LocationTable} {x y : Location}

/-- The table has one place, with a location in it, and skips nothing. -/
structure IsSingle (t : LocationTable) (x : Location) : Prop where
  entries : t.entries = [x]
  capacity : t.cache.capacity = 1
  skip : t.skip = ⟨0⟩

/-- **A location pushes out another one** where there is one place. -/
theorem IsSingle.merge (h : t.IsSingle y) (hkey : x.key ≠ y.key) :
    (t.merge x).1 = true ∧ (t.merge x).2.IsSingle x := by
  have hskip : t.skip.chance = 0 := by
    rw [h.skip]
    decide +kernel
  obtain ⟨hfirst, hcache, -⟩ := merge_of_chance hskip x
  have hnew : t.cache.contains x.key = false := by
    rw [← Bool.not_eq_true, Cache.contains_iff]
    intro hmem
    obtain ⟨e, he, hk⟩ := List.mem_map.1 hmem
    have hvalue : e.2 ∈ t.entries := mem_entries_iff.2 ⟨e, he, rfl⟩
    rw [h.entries, List.mem_singleton] at hvalue
    exact hkey (by rw [← hk, t.keyed e he, hvalue])
  refine ⟨hfirst.trans (by rw [hnew]; rfl), ?_, ?_, h.skip⟩
  · rw [LocationTable.entries, hcache, Cache.values, Cache.entries_use, h.capacity]
    rfl
  · rw [hcache, Cache.capacity_use, h.capacity]

end LocationTable

namespace Network

/-! ## Peers with one place -/

/-- The gossip of a peer that knows one location. -/
def news (p : PeerAddress) (x : Location) : Message :=
  .locations p [(x.holder, x.name)]

/-- A peer whose neighbours are two others. -/
structure Between (now : Network) (p s r : PeerAddress) : Prop where
  peer : now.IsPeer p
  onward : ((now.neighborsOf p).filter fun q => q ∉ [s]) = [r]
  back : ((now.neighborsOf p).filter fun q => q ∉ [r]) = [s]

/-- A peer with two neighbours, whose only place for a location is taken. -/
structure Filled (now : Network) (p s r : PeerAddress) (x : Location) : Prop
    extends now.Between p s r where
  table : ∃ t, now.tableOf p = some t ∧ t.IsSingle x

section
variable {now next : Network} {d : Delivery} {p s r : PeerAddress} {x y : Location}
  {rest : List Envelope}

theorem Between.later (h : now.Between p s r) (hlater : now.Later next) :
    next.Between p s r where
  peer := (isPeer_congr hlater p).2 h.peer
  onward := hlater.neighborsOf p ▸ h.onward
  back := hlater.neighborsOf p ▸ h.back

theorem Filled.swap (h : now.Filled p s r x) : now.Filled p r s x :=
  ⟨⟨h.peer, h.back, h.onward⟩, h.table⟩

/-- **A peer takes another location for its own** and passes it on. -/
theorem Filled.after (h : now.Filled p s r y) (hkey : x.key ≠ y.key) (hd : d.index = 0)
    (hflight : now.flight = ⟨p, news s x⟩ :: rest) :
    (now.after d).flight = rest ++ [⟨r, news p x⟩] ∧ (now.after d).Filled p s r x ∧
      ∀ {q s' r' z}, q ≠ p → now.Filled q s' r' z → (now.after d).Filled q s' r' z := by
  obtain ⟨hm, hrest⟩ := front_of_flight hd hflight
  have hlater := later_after now d
  obtain ⟨t, ht, hsingle⟩ := h.table
  obtain ⟨t', hheard⟩ := heard_after hm rfl h.peer
  cases ht.symm.trans hheard.table
  have hheard : Heard now d ⟨p, news s x⟩ s [x] t (now.after d) := hheard
  obtain ⟨hchanged, hcache⟩ := hsingle.merge hkey
  have hall : (t.mergeAll [x]).1 = true := by
    simp only [LocationTable.mergeAll, hchanged, Bool.true_or]
  have hentries : (t.mergeAll [x]).2.entries = [x] := hcache.entries
  refine ⟨?_, ⟨h.toBetween.later hlater, _, hheard.tableOf_receiver, hcache⟩,
    fun hne h' => ⟨h'.toBetween.later hlater, ?_⟩⟩
  · have hnext := hheard.flight
    rw [hrest, if_pos hall, hentries, Engine.toAll, h.onward] at hnext
    exact hnext
  · rw [hheard.tableOf_of_ne hne]
    exact h'.table

/-- Two locations come together at a peer, one from each of its neighbours, whose only places
    are taken by what they tell.  The place of the peer is taken by the second one. -/
structure Meeting (now : Network) (p s r : PeerAddress) (x y : Location) : Prop where
  flight : now.flight = [⟨p, news s x⟩, ⟨p, news r y⟩]
  here : now.Filled p s r y
  left : now.Filled s p r x
  right : now.Filled r p s y
  distinct : [p, s, r].Nodup

/-- **The two locations come together again** after three deliveries. -/
theorem Meeting.after (h : now.Meeting p s r x y) (hkey : x.key ≠ y.key) {d d' d'' : Delivery}
    (hd : d.index = 0) (hd' : d'.index = 0) (hd'' : d''.index = 0) :
    (((now.after d).after d').after d'').Meeting s p r y x := by
  have hdistinct := h.distinct
  simp only [List.nodup_cons, List.mem_cons, List.not_mem_nil, or_false, not_or] at hdistinct
  obtain ⟨⟨hps, hpr⟩, hsr, -⟩ := hdistinct
  -- the peer takes the first location, and then the second again
  obtain ⟨hflight₁, hhere₁, hothers₁⟩ := h.here.after hkey hd h.flight
  obtain ⟨hflight₂, hhere₂, hothers₂⟩ := hhere₁.swap.after hkey.symm hd' hflight₁
  -- the first location has gone to the second neighbour, which takes it and passes it on
  have hright := hothers₂ (Ne.symm hpr) (hothers₁ (Ne.symm hpr) h.right)
  obtain ⟨hflight₃, hright₃, hothers₃⟩ := hright.after hkey hd'' hflight₂
  have hleft := hothers₂ (Ne.symm hps) (hothers₁ (Ne.symm hps) h.left)
  refine ⟨hflight₃, hothers₃ hsr hleft, hothers₃ hpr hhere₂.swap, hright₃.swap, ?_⟩
  simp only [List.nodup_cons, List.mem_cons, List.not_mem_nil, or_false, not_or,
    List.nodup_nil, not_false_eq_true, and_true]
  exact ⟨⟨Ne.symm hps, hsr⟩, hpr⟩

/-- **After two locations have come together, gossip never ends**, and it did not before. -/
theorem Meeting.unending {ds : ℕ → Delivery} {k : ℕ}
    (h : (now.afterAll (firstOf ds k)).Meeting p s r x y) (hkey : x.key ≠ y.key)
    (hfifo : ∀ k, (ds k).index = 0) (j : ℕ) :
    ∃ m ∈ (now.afterAll (firstOf ds j)).flight, ∃ s es, m.message = .locations s es := by
  have hagain : ∀ i, ∃ p s r x y, x.key ≠ y.key ∧
      (now.afterAll (firstOf ds (k + 3 * i))).Meeting p s r x y := by
    intro i
    induction i with
    | zero => exact ⟨p, s, r, x, y, hkey, h⟩
    | succ i ih =>
      obtain ⟨p, s, r, x, y, hkey, hmeeting⟩ := ih
      refine ⟨s, p, r, y, x, hkey.symm, ?_⟩
      have hthree := hmeeting.after hkey (hfifo (k + 3 * i)) (hfifo (k + 3 * i + 1))
        (hfifo (k + 3 * i + 2))
      rwa [← afterAll_firstOf_succ, ← afterAll_firstOf_succ, ← afterAll_firstOf_succ] at hthree
  obtain ⟨p, s, r, x, y, -, hmeeting⟩ := hagain j
  by_contra! hquiet
  refine no_locations_of_le (k := k + 3 * j) (by omega) hquiet ⟨p, news s x⟩ ?_ _ _ rfl
  rw [hmeeting.flight]
  exact List.mem_cons_self

end

end Network

namespace Sample
open Network

/-- The ring of peers with one place each, after 23 messages of their gossip. -/
def churning : Network :=
  ((ring 1).send ((ring 1).nodes.flatMap fun n => n.engine.broadcast n.neighbors)).afterAll
    (firstOf (fun _ => ⟨0, 0, 0⟩) 23)

/-- The peers of the ring stand in order, so they tell their tables in the order they have. -/
theorem afterAll_exchange_ring :
    (ring 1).exchange.afterAll (firstOf (fun _ => ⟨0, 0, 0⟩) 23) = churning := by
  rw [churning, exchange, List.mergeSort_of_pairwise (by decide +kernel)]

theorem later_churning : (ring 1).Later churning := by
  rw [← afterAll_exchange_ring]
  exact later_afterAll (ring 1).exchange _

/-- What is in flight then, and what the places of the peers are taken by. -/
theorem churning_eq :
    churning.flight = [⟨peer 2, news (peer 3) ⟨peer 2, "t"⟩⟩,
      ⟨peer 2, news (peer 1) ⟨peer 1, "t"⟩⟩] ∧
    ([peer 2, peer 3, peer 1].map fun p =>
      (churning.tableOf p).map fun t => (t.entries, t.cache.capacity, t.skip)) =
      [some ([⟨peer 1, "t"⟩], 1, ⟨0⟩), some ([⟨peer 2, "t"⟩], 1, ⟨0⟩),
        some ([⟨peer 1, "t"⟩], 1, ⟨0⟩)] := by
  decide +kernel

/-- Two locations have come together at a peer of the ring. -/
theorem meeting_churning :
    churning.Meeting (peer 2) (peer 3) (peer 1) ⟨peer 2, "t"⟩ ⟨peer 1, "t"⟩ := by
  have hfilled : ∀ {p s r : PeerAddress} {x : Location}, (ring 1).Between p s r →
      (churning.tableOf p).map (fun t => (t.entries, t.cache.capacity, t.skip)) =
        some ([x], 1, ⟨0⟩) → churning.Filled p s r x := by
    intro p s r x hbetween htable
    obtain ⟨t, ht, heq⟩ := Option.map_eq_some_iff.1 htable
    simp only [Prod.mk.injEq] at heq
    exact ⟨hbetween.later later_churning, t, ht, heq.1, heq.2.1, heq.2.2⟩
  obtain ⟨hflight, htables⟩ := churning_eq
  simp only [List.map_cons, List.map_nil, List.cons.injEq, and_true] at htables
  obtain ⟨htwo, hthree, hone⟩ := htables
  exact ⟨hflight,
    hfilled ⟨by decide +kernel, by decide +kernel, by decide +kernel⟩ htwo,
    hfilled ⟨by decide +kernel, by decide +kernel, by decide +kernel⟩ hthree,
    hfilled ⟨by decide +kernel, by decide +kernel, by decide +kernel⟩ hone,
    by decide +kernel⟩

end Sample

namespace Network
open Sample

/-- **Gossip about locations need not end**: three peers with links to each other, tables with
    one place and nothing skipped tell each other two locations for ever. -/
theorem locations_never_die_out :
    (ring 1).Linked ∧ (ring 1).flight = [] ∧
      (∀ n ∈ (ring 1).nodes, ∃ metrics settings coins,
        1 ≤ settings.tableCapacity ∧ settings.skip = ⟨0⟩ ∧
          n.engine = (Engine.new n.engine.identity metrics settings coins).seed) ∧
      ∀ k, ∃ m ∈ ((ring 1).exchange.afterAll (firstOf (fun _ => ⟨0, 0, 0⟩) k)).flight,
        ∃ s es, m.message = .locations s es := by
  have hlinked : (ring 1).Linked :=
    ⟨by decide +kernel, by decide +kernel, by decide +kernel, by decide +kernel⟩
  have hmeeting := meeting_churning
  rw [← afterAll_exchange_ring] at hmeeting
  exact ⟨hlinked, rfl, engines_ring le_rfl,
    hmeeting.unending (by decide +kernel) fun _ => rfl⟩

end Network

end OverlayCensus
