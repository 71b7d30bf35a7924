/-
  OverlayCensus — a flood followed through a run.

  * `floodStep`: what one more delivery of a run does to a flood that was fresh when it was
    injected (`FloodStep`);
  * `copy_start`: at first, only what was injected is in flight.
-/
import Mathlib
import OverlayCensus.Proofs.Account
import OverlayCensus.Proofs.FloodSending

namespace OverlayCensus.Network

/-- What one more delivery of a run does to a fresh flood: nothing is there to deliver, or no
    peer handles a copy, or one does. -/
inductive FloodStep (net : Network) (q : Query) (ds : List Delivery) (d : Delivery) : Prop
  | idle (after : net.afterAll (ds ++ [d]) = net.afterAll ds)
      (delivered : net.delivered (ds ++ [d]) = net.delivered ds)
  | aside {m : Envelope} (front : (net.afterAll ds).flight[d.index]? = some m)
      (sent : List Envelope) (kept : m.copyOf? q.id = none ∨ ¬ net.IsPeer m.receiver)
      (flight : (net.afterAll (ds ++ [d])).flight =
        ((net.afterAll ds).without d.index).flight ++ sent)
      (nothing : copies q.id sent = [])
      (results : (net.afterAll (ds ++ [d])).results.totals q.id =
        (net.afterAll ds).results.totals q.id +
          if m.receiver = net.registry then carried q.id [m] else 0)
  | handled {m : Envelope} {n : Node} {q' : Query}
      (front : (net.afterAll ds).flight[d.index]? = some m)
      (copy : m.copyOf? q.id = some q') (peer : net.IsPeer m.receiver)
      (node : (net.afterAll ds).node? m.receiver = some n)
      (neighbors : n.neighbors = net.neighborsOf m.receiver) (hop : q'.IsHopOf q)
      (new : n.engine.IsNew q' ↔ m.receiver ∉ net.handlers q.id ds)
      (gain : net.shares q.id q.metric (ds ++ [d]) =
        net.shares q.id q.metric ds + n.engine.gain q')
      (flight : (net.afterAll (ds ++ [d])).flight = ((net.afterAll ds).without d.index).flight ++
        (n.engine.onFlood n.neighbors d.pick q').2.map Parcel.envelope)
      (results : (net.afterAll (ds ++ [d])).results = (net.afterAll ds).results)

section
variable {net : Network} {entry : PeerAddress} {q : Query} {now : ℕ} {ds : List Delivery}

/-- **One more delivery of a run of a fresh flood.** -/
theorem floodStep {d : Delivery} (hfresh : net.Fresh q.id)
    (hlogs : (net.start entry .flood q now).LogsSuffice (ds ++ [d])) :
    (net.start entry .flood q now).FloodStep q ds d := by
  have hlater := later_afterAll (net.start entry .flood q now) ds
  have hafter := afterAll_append_singleton (net.start entry .flood q now) ds d
  cases hm : ((net.start entry .flood q now).afterAll ds).flight[d.index]? with
  | none => exact .idle (afterAll_append_of_none hm) (delivered_append_of_none hm)
  | some m =>
    cases copyStep (x := q.id) (step_after hm) with
    | aside sent hkept hflight hsent hresults =>
      rw [← hafter] at hflight hresults
      rw [isPeer_congr hlater] at hkept
      rw [hlater.1] at hresults
      exact .aside hm sent hkept hflight hsent hresults
    | @handled n kind q' r hpeer hn hk hid hr hflight hresults =>
      rw [← hafter] at hflight hresults
      obtain ⟨rfl, hhop⟩ := (isHop_afterAll (isHop_start hfresh) ds).1 m
        (List.mem_of_getElem? hm) kind q' hk hid
      have hcopy : m.copyOf? q.id = some q' :=
        Envelope.copyOf?_eq_some_iff.2 ⟨⟨.flood, hk⟩, hid⟩
      have hgain := sum_handlers_append hfresh hlogs.of_append_singleton hm hcopy hpeer hn
      rw [isPeer_congr hlater] at hpeer
      subst hr
      refine .handled hm hcopy hpeer hn ?_ hhop ?_ hgain hflight hresults
      · rw [← hlater.neighborsOf, neighborsOf_eq hn]
      · exact isNew_iff_not_mem_handlers hfresh hlogs.of_append_singleton hpeer hn hid

/-- The only copy in flight at first is the one that was injected. -/
theorem copy_start (hfresh : net.Fresh q.id) {m : Envelope}
    (hm : m ∈ (net.start entry .flood q now).flight) {q' : Query} (hq' : q' ∈ m.copyOf? q.id) :
    m.receiver = entry ∧ q' = q := by
  rcases List.mem_append.1 hm with hm | hm
  · rw [copies_eq_nil_iff.1 hfresh.copies_flight m hm] at hq'
    cases hq'
  · rw [List.mem_singleton.1 hm, Envelope.copyOf?_query, Option.mem_some_iff] at hq'
    exact ⟨by rw [List.mem_singleton.1 hm], hq'.symm⟩

end

end OverlayCensus.Network
