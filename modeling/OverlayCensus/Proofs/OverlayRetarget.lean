/-
  OverlayCensus — other peers at the vertices of an arena.

  Peers are put at the vertices by position, edges are read by id; both add the links of a
  verified overlay from their lower ends upward, and so both give the same arena.

  * `SameShape`: what is kept of an overlay when its peers are replaced;
  * `Simple.sameShape_of_retarget`: it is kept, and the peers are those of the list;
  * `retarget_spec`: for the arenas that come about, with the lists that are accepted.
-/
import Mathlib
import OverlayCensus.Proofs.OverlayArena
import OverlayCensus.Proofs.OverlayRelinking

namespace OverlayCensus

namespace Overlay

variable {o o' : Overlay} {peers : List PeerAddress}

/-- Overlays that differ in their peers, and in the order of the links of a vertex. -/
structure SameShape (o o' : Overlay) : Prop where
  band : o'.band = o.band
  ids : o'.ends.map EdgeEnd.id = o.ends.map EdgeEnd.id
  devices : o'.ends.map EdgeEnd.devices = o.ends.map EdgeEnd.devices
  links : ∀ i, (o'.linksAt i).Perm (o.linksAt i)

/-- **Nothing but the peers is replaced.** -/
theorem Simple.sameShape_of_retarget (h : o.Simple) (hverify : o.verify = .ok ())
    (hok : o.retarget peers = .ok o') : SameShape o o' ∧ o'.ends.map EdgeEnd.peer = peers := by
  obtain ⟨hlength, -, rfl⟩ := (h.retarget_eq_ok_iff hverify).1 hok
  obtain ⟨hpeers, hids, hdevices⟩ := map_endsOver hlength
  have hends := o.ends_relinked (o.endsOver peers)
  exact ⟨⟨o.band_relinked _, hends.symm ▸ hids, hends.symm ▸ hdevices,
    h.perm_linksAt_relinked (length_endsOver hlength)⟩, hends.symm ▸ hpeers⟩

end Overlay

namespace Arena

open Overlay (SameShape)

variable {m : Arena}

/-- **Other peers** can be put at the vertices of a verified arena if there are as many, all
    different.  Nothing else changes, peers that were there before leave no trace, and with the
    peers that are there it is the arena of the edges, unless a vertex is isolated. -/
theorem retarget_spec (hm : Reached m) (hverify : m.overlay.verify = .ok ()) :
    (∀ peers, (∃ m', m.retarget peers = .ok m') ↔
      peers.length = m.overlay.size ∧ peers.Nodup) ∧
    (∀ peers m', m.retarget peers = .ok m' → SameShape m.overlay m'.overlay ∧
      m'.overlay.ends.map EdgeEnd.peer = peers ∧
      ∀ peers', m'.retarget peers' = m.retarget peers') ∧
    ((∀ a < m.overlay.size, 1 ≤ m.overlay.degreeAt a) →
      ∃ m', ofEdges m.overlay.band m.overlay.edges = .ok m' ∧
        m.retarget (m.overlay.ends.map EdgeEnd.peer) = .ok m') := by
  obtain ⟨o, hordered, rfl⟩ := hm.eq_indexed
  rw [overlay_indexed] at hverify ⊢
  refine ⟨fun peers => ?_, fun peers m' hok => ?_, fun hdegree => ?_⟩
  · rw [retarget_eq, overlay_indexed]
    constructor
    · rintro ⟨m', hok⟩
      obtain ⟨o', ho', rfl⟩ := map_eq_ok hok
      obtain ⟨hlength, hnodup, -⟩ := (hordered.retarget_eq_ok_iff hverify).1 ho'
      exact ⟨hlength, hnodup⟩
    · rintro ⟨hlength, hnodup⟩
      rw [(hordered.retarget_eq_ok_iff hverify).2 ⟨hlength, hnodup, rfl⟩]
      exact ⟨_, rfl⟩
  · rw [retarget_eq, overlay_indexed] at hok
    obtain ⟨o', ho', rfl⟩ := map_eq_ok hok
    obtain ⟨hshape, hpeers⟩ := hordered.sameShape_of_retarget hverify ho'
    refine ⟨hshape, hpeers, fun peers' => ?_⟩
    rw [retarget_eq, retarget_eq, overlay_indexed, overlay_indexed,
      hordered.retarget_retarget hverify ho']
  · have hedges := hordered.ofEdges_edges_eq hdegree hverify
    refine ⟨indexed (o.relinked o.ends), ?_, ?_⟩
    · rw [ofEdges_eq, hedges]
      rfl
    · rw [retarget_eq, overlay_indexed, ← hordered.ofEdges_edges_eq_retarget hdegree hverify, hedges]
      rfl

namespace Sample

open Overlay.Sample (four)

/-- On the ring, the last vertex has its links in the other order afterwards. -/
theorem retarget_spec_ring :
    (Reached (indexed ring) ∧ ring.verify = .ok () ∧
      ∀ a < ring.size, 1 ≤ ring.degreeAt a) ∧
    ∃ m m', (indexed ring).retarget (four.map Prod.fst).reverse = .ok m ∧
      SameShape ring m.overlay ∧ m.retarget (ring.ends.map EdgeEnd.peer) = .ok m' ∧
      ofEdges ring.band ring.edges = .ok m' ∧
      ring.linksAt 3 = [⟨2, 5⟩, ⟨0, 3⟩] ∧ m'.overlay.linksAt 3 = [⟨0, 3⟩, ⟨2, 5⟩] := by
  obtain ⟨d, hbuild⟩ := build_ring
  have hreached : Reached (indexed ring) := .build hbuild
  have hverify : ring.verify = .ok () := by decide +kernel
  have hdegree : ∀ a < ring.size, 1 ≤ ring.degreeAt a := by decide +kernel
  obtain ⟨haccepts, hshape, hedges⟩ := retarget_spec hreached hverify
  obtain ⟨m, hm⟩ := (haccepts (four.map Prod.fst).reverse).2 ⟨by decide, by decide⟩
  obtain ⟨hsame, -, hagain⟩ := hshape _ _ hm
  obtain ⟨m', hm', hpeers⟩ := hedges hdegree
  refine ⟨⟨hreached, hverify, hdegree⟩, m, m', hm, hsame, (hagain _).trans hpeers, hm',
    by decide +kernel, ?_⟩
  obtain ⟨o, hordered, hring⟩ := hreached.eq_indexed
  obtain rfl : ring = o := congrArg Arena.overlay hring
  rw [ofEdges_eq, overlay_indexed, hordered.ofEdges_edges_eq hdegree hverify] at hm'
  cases hm'
  decide +kernel

end Sample

end Arena

end OverlayCensus
