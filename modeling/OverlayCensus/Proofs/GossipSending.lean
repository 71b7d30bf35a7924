/-
  OverlayCensus — what a peer sends because of a gossip query.

  A gossip query that is new and may go on goes to the peers that a table names, but
  neither to the peer itself nor to the sender, and to the originator if there are no
  others.  Any other gossip query goes back to the originator.

  * `onGossipQuery_sent`: the messages themselves;
  * `receivers_of_new_gossip`: who receives a gossip query that goes on;
  * `receiver_gossip`: nobody else receives anything, whatever the query.
-/
import Mathlib
import OverlayCensus.Proofs.Handling

namespace OverlayCensus

theorem LocationTable.mem_holdersOf {t : LocationTable} {name : String} {p : PeerAddress} :
    p ∈ t.holdersOf name ↔ ⟨p, name⟩ ∈ t.entries := by
  simp only [holdersOf, List.mem_map, List.mem_filter, decide_eq_true_eq]
  constructor
  · rintro ⟨l, ⟨hl, rfl⟩, rfl⟩
    exact hl
  · intro h
    exact ⟨⟨p, name⟩, ⟨h, rfl⟩, rfl⟩

namespace Engine

variable {e : Engine} {kind : QueryKind} {q : Query}

theorem mem_targets {named : List PeerAddress} {p : PeerAddress} :
    p ∈ e.targets q named ↔ p ∈ named ∧ p ≠ e.identity ∧ p ≠ q.sender := by
  simp [targets]

/-- The peers that a table names for a query.  They do not depend on the log. -/
def named (e : Engine) (kind : QueryKind) (q : Query) : List PeerAddress :=
  (e.routes kind q).1

theorem routes_noted (e : Engine) (kind : QueryKind) (q : Query) (queries : QueryLog) :
    ((({ e with queries := queries } : Engine).contribute q).routes kind q).1 =
      e.named kind q := by
  cases kind <;> rfl

theorem onGossipQuery_of_old (h : ¬ e.IsNew q) :
    (e.onGossipQuery kind q).2 = [reply kind (e.passOn q)] := by
  simp only [onGossipQuery, mark, QueryLog.mark_fst, contains_eq_true h, Bool.not_true,
    Bool.not_false, if_true]
  rfl

/-- What a peer sends for a gossip query. -/
theorem onGossipQuery_sent (e : Engine) (kind : QueryKind) (q : Query) :
    (e.onGossipQuery kind q).2 =
      if e.IsNew q ∧ q.mayForward then
        match e.targets q (e.named kind q) with
        | [] => [reply kind (e.next q)]
        | first :: rest => ⟨.direct, first, .query kind (e.next q)⟩ ::
            rest.map fun p => ⟨.direct, p, .query kind (q.nextHop e.identity 0 0)⟩
      else [reply kind (e.next q)] := by
  by_cases h : e.IsNew q
  · simp only [onGossipQuery, mark, QueryLog.mark_fst, contains_eq_false h, Bool.not_false,
      Bool.not_true, Bool.false_eq_true, if_false, h, true_and, next, if_true]
    cases q.mayForward with
    | false => rfl
    | true =>
      obtain ⟨t, ht⟩ := routes_snd (({ e with queries := (e.queries.mark q.id q.metric q.sender).2 } :
        Engine).contribute q) kind q
      have htargets : ({ ({ e with queries := (e.queries.mark q.id q.metric q.sender).2 } :
          Engine).contribute q with distances := t } : Engine).targets q (e.named kind q) =
            e.targets q (e.named kind q) := rfl
      simp only [routes_noted, ht, htargets, Bool.not_true, Bool.false_eq_true, if_false, if_true]
      cases e.targets q (e.named kind q) <;> rfl
  · rw [onGossipQuery_of_old h]
    simp only [h, false_and, if_false, next]

/-- **A new gossip query that may go on goes to every peer named** but the peer itself and
    the sender, and to the originator if there is no other. -/
theorem receivers_of_new_gossip (kind : QueryKind) (h : e.IsNew q)
    (hforward : q.mayForward = true) :
    (e.onGossipQuery kind q).2.map Parcel.receiver =
      if e.targets q (e.named kind q) = [] then [q.originator]
        else e.targets q (e.named kind q) := by
  rw [onGossipQuery_sent, if_pos ⟨h, hforward⟩]
  cases hs : e.targets q (e.named kind q) with
  | nil => exact congrArg (fun p => [p]) (e.next_isHopOf q).2.1
  | cons first rest =>
    rw [if_neg (List.cons_ne_nil first rest), List.map_cons, List.map_map]
    exact congrArg _ (List.map_id rest)

/-- **A gossip query goes to the originator or to peers that a table names.** -/
theorem receiver_gossip {p : Parcel} (hp : p ∈ (e.onGossipQuery kind q).2) :
    p.receiver = q.originator ∨
      e.IsNew q ∧ q.mayForward = true ∧ p.receiver ∈ e.targets q (e.named kind q) := by
  by_cases h : e.IsNew q ∧ q.mayForward = true
  · have hmem : p.receiver ∈ (e.onGossipQuery kind q).2.map Parcel.receiver :=
      List.mem_map_of_mem hp
    rw [receivers_of_new_gossip kind h.1 h.2] at hmem
    split_ifs at hmem
    · exact Or.inl (List.mem_singleton.1 hmem)
    · exact Or.inr ⟨h.1, h.2, hmem⟩
  · rw [onGossipQuery_sent, if_neg h, List.mem_singleton] at hp
    rw [hp]
    exact Or.inl (e.next_isHopOf q).2.1

end Engine

end OverlayCensus
