/-
  OverlayCensus — what a peer sends because of a flood.

  A flood that is new and may go on goes to all neighbours but its sender, and to the
  originator if there are none.  Any other flood goes back to the originator.

  * `onFlood_of_new`, `onFlood_of_old`: the messages themselves;
  * `mem_candidates_of_onFlood`: nobody else receives anything;
  * `mem_receivers_of_new`: a flood that goes on leaves out its sender only;
  * `receivers_of_new`, `receivers_of_old`: who receives a flood without a limit.
-/
import Mathlib
import OverlayCensus.Proofs.Handling

namespace OverlayCensus.Engine

variable {e : Engine} {neighbors : List PeerAddress} {pick : Nat} {q : Query}

/-! ## The random neighbour -/

theorem mem_candidates {sender p : PeerAddress} :
    p ∈ candidates neighbors sender ↔ p ∈ neighbors ∧ p ≠ sender := by
  simp [candidates]

theorem length_candidates (hnodup : neighbors.Nodup) (sender : PeerAddress) :
    (candidates neighbors sender).length =
      neighbors.length - if sender ∈ neighbors then 1 else 0 := by
  rw [candidates, filter_ne_eq_erase hnodup, List.length_erase]
  split_ifs <;> rfl

theorem mem_of_choose {cs : List PeerAddress} {p : PeerAddress} (h : choose cs pick = some p) :
    p ∈ cs :=
  List.mem_of_getElem? h

theorem choose_eq_none_iff {cs : List PeerAddress} : choose cs pick = none ↔ cs = [] := by
  rw [choose, List.getElem?_eq_none_iff]
  constructor
  · intro h
    by_contra hne
    have hpos : 0 < cs.length := List.length_pos_iff.2 hne
    have := Nat.mod_lt pick hpos
    omega
  · rintro rfl
    exact Nat.zero_le _

/-- The neighbours that are left besides the sender and a carrier are the other
    candidates. -/
theorem filter_not_mem_pair (hnodup : neighbors.Nodup) (sender carrier : PeerAddress) :
    (neighbors.filter fun p => p ∉ [sender, carrier]) =
      (candidates neighbors sender).erase carrier := by
  have hcs : (candidates neighbors sender).Nodup := hnodup.filter _
  rw [← filter_ne_eq_erase hcs, candidates, List.filter_filter]
  exact List.filter_congr fun p _ => by simp [Bool.and_comm]

theorem receivers_toAll (neighbors exclude : List PeerAddress) (m : Message) :
    (toAll neighbors exclude m).map Parcel.receiver = neighbors.filter fun p => p ∉ exclude := by
  rw [toAll, List.map_map]
  exact List.map_id _

/-! ## Receivers of a flood -/

theorem onFlood_of_old (h : ¬ e.IsNew q) :
    (e.onFlood neighbors pick q).2 = [reply .flood (e.passOn q)] := by
  simp only [onFlood, mark, QueryLog.mark_fst, contains_eq_true h, Bool.not_true, Bool.not_false,
    if_true]
  rfl

/-- What a peer sends that has not seen a flood before. -/
theorem onFlood_of_new (h : e.IsNew q) :
    (e.onFlood neighbors pick q).2 =
      if q.limit ≠ Query.unlimited ∧ !q.mayForward then [reply .flood (e.accumulated q)]
      else
        match choose (candidates neighbors q.sender) pick with
        | some carrier =>
          ⟨.random, carrier, .query .flood (e.accumulated q)⟩ ::
            toAll neighbors [q.sender, carrier] (.query .flood (e.passOn q))
        | none => [reply .flood (e.accumulated q)] := by
  simp only [onFlood, mark, QueryLog.mark_fst, contains_eq_false h, Bool.not_false, Bool.not_true,
    Bool.false_eq_true, if_false]
  split
  · rfl
  · cases choose (candidates neighbors q.sender) pick <;> rfl

/-- **A flood is carried on by one message**, and repeated by others only if it is new and
    may go on. -/
theorem onFlood_cases (e : Engine) (neighbors : List PeerAddress) (pick : Nat) (q : Query) :
    (e.onFlood neighbors pick q).2 = [reply .flood (e.next q)] ∨
      ∃ carrier, e.IsNew q ∧ choose (candidates neighbors q.sender) pick = some carrier ∧
        (e.onFlood neighbors pick q).2 =
          ⟨.random, carrier, .query .flood (e.accumulated q)⟩ ::
            toAll neighbors [q.sender, carrier] (.query .flood (e.passOn q)) := by
  by_cases h : e.IsNew q
  · rw [onFlood_of_new h, next, if_pos h]
    split
    · exact Or.inl rfl
    · cases choose (candidates neighbors q.sender) pick with
      | none => exact Or.inl rfl
      | some carrier => exact Or.inr ⟨carrier, h, rfl, rfl⟩
  · rw [onFlood_of_old h, next, if_neg h]
    exact Or.inl rfl

/-- **A flood goes to neighbours other than its sender and to the originator only.** -/
theorem mem_candidates_of_onFlood {p : Parcel} (hp : p ∈ (e.onFlood neighbors pick q).2) :
    p.receiver ∈ candidates neighbors q.sender ∨ p.receiver = q.originator := by
  rcases onFlood_cases e neighbors pick q with hone | ⟨carrier, -, hc, hall⟩
  · rw [hone, List.mem_singleton] at hp
    exact Or.inr (hp ▸ (next_isHopOf e q).2.1)
  · rw [hall] at hp
    rcases List.mem_cons.1 hp with rfl | hp
    · exact Or.inl (mem_of_choose hc)
    · obtain ⟨r, hr, hother, rfl⟩ := mem_toAll.1 hp
      exact Or.inl (mem_candidates.2 ⟨hr, fun hs => hother (hs ▸ List.mem_cons_self)⟩)

theorem receiver_onFlood {p : Parcel} (hp : p ∈ (e.onFlood neighbors pick q).2) :
    p.receiver ∈ neighbors ∨ p.receiver = q.originator :=
  (mem_candidates_of_onFlood hp).imp_left fun h => (mem_candidates.1 h).1

/-- **A new flood that may go on goes to every neighbour but its sender.** -/
theorem mem_receivers_of_new (pick : Nat) (h : e.IsNew q) (hforward : q.mayForward = true)
    {r : PeerAddress} (hr : r ∈ neighbors) (hne : r ≠ q.sender) :
    r ∈ (e.onFlood neighbors pick q).2.map Parcel.receiver := by
  simp only [onFlood_of_new h, hforward, Bool.not_true, Bool.false_eq_true, and_false, if_false]
  split
  next carrier hc =>
    rw [List.map_cons, receivers_toAll, List.mem_cons, List.mem_filter]
    by_cases hcarrier : r = carrier
    · exact Or.inl hcarrier
    · exact Or.inr ⟨hr, by simp [hne, hcarrier]⟩
  next hc =>
    have hmem : r ∈ candidates neighbors q.sender := mem_candidates.2 ⟨hr, hne⟩
    rw [choose_eq_none_iff.1 hc] at hmem
    cases hmem

theorem receivers_of_old (neighbors : List PeerAddress) (pick : Nat) (h : ¬ e.IsNew q) :
    (e.onFlood neighbors pick q).2.map Parcel.receiver = [q.originator] := by
  rw [onFlood_of_old h]
  rfl

/-- **A new flood without a limit goes to every neighbour but its sender**, once if
    no neighbour is listed twice, and to the originator if there is no other. -/
theorem receivers_of_new (pick : Nat) (h : e.IsNew q) (hlimit : q.limit = Query.unlimited)
    (hnodup : neighbors.Nodup) :
    ((e.onFlood neighbors pick q).2.map Parcel.receiver).Perm
      (if candidates neighbors q.sender = [] then [q.originator]
        else candidates neighbors q.sender) := by
  simp only [onFlood_of_new h, hlimit, ne_eq, not_true_eq_false, false_and, if_false]
  split
  next carrier hc =>
    have hmem := mem_of_choose hc
    have hne : candidates neighbors q.sender ≠ [] := List.ne_nil_of_mem hmem
    rw [if_neg hne, List.map_cons, receivers_toAll, filter_not_mem_pair hnodup]
    exact (List.perm_cons_erase hmem).symm
  next hc =>
    rw [if_pos (choose_eq_none_iff.1 hc)]
    exact List.Perm.refl _

theorem length_of_new (pick : Nat) (h : e.IsNew q) (hlimit : q.limit = Query.unlimited)
    (hnodup : neighbors.Nodup) :
    (e.onFlood neighbors pick q).2.length = max 1 (candidates neighbors q.sender).length := by
  have hlength := (receivers_of_new pick h hlimit hnodup).length_eq
  rw [List.length_map] at hlength
  rw [hlength]
  split_ifs with hnil
  · rw [hnil]
    rfl
  · exact (max_eq_right (List.length_pos_iff.2 hnil)).symm

end OverlayCensus.Engine
