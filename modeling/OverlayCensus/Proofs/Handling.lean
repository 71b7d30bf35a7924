/-
  OverlayCensus — what a peer does with one query.

  All kinds of queries do the same to a peer: the id is marked, and a new query is added
  to the peer's contributions.  The first message sent carries on the totals that came,
  with the peer's devices if the query is new (`next`); all others repeat the totals of a
  flood and are empty otherwise (`aside`).

  * `Handled` says so, and `handled_onQuery` proves it of every kind;
  * `onRandomWalk_sent`: the message that a peer sends for a walk;
  * `Fits`: the peer's devices can be added without passing a bound;
  * `Handled.carried_eq`, `Handled.le_carried`, `Handled.totals_le`: what this means
    for the sum of the totals sent, and for each of them.
-/
import Mathlib
import OverlayCensus.Proofs.Copies
import OverlayCensus.Proofs.QueryLog

namespace OverlayCensus.Engine

/-! ## One rule for all kinds -/

/-- What an engine does with a query of some kind. -/
def onQuery (e : Engine) (neighbors : List PeerAddress) (pick : Nat) (kind : QueryKind)
    (q : Query) : Engine × List Parcel :=
  match kind with
  | .flood => e.onFlood neighbors pick q
  | .randomWalk => e.onRandomWalk neighbors pick q
  | _ => e.onGossipQuery kind q

variable {e : Engine} {neighbors : List PeerAddress} {pick : Nat} {kind : QueryKind} {q : Query}

theorem handle_query (e : Engine) (neighbors : List PeerAddress) (pick : Nat) (kind : QueryKind)
    (q : Query) :
    e.handle neighbors pick (.query kind q) = some (e.onQuery neighbors pick kind q) := by
  cases kind <;> rfl

/-- Whether the engine has not seen a query yet. -/
def IsNew (e : Engine) (q : Query) : Prop :=
  q.id ∉ e.queries.ids

instance (e : Engine) (q : Query) : Decidable (e.IsNew q) :=
  inferInstanceAs (Decidable (q.id ∉ e.queries.ids))

theorem contains_eq_false (h : e.IsNew q) : e.queries.contains q.id = false := by
  rw [← Bool.not_eq_true, QueryLog.contains_iff]
  exact h

theorem contains_eq_true (h : ¬ e.IsNew q) : e.queries.contains q.id = true :=
  QueryLog.contains_iff.2 (not_not.1 h)

theorem contains_eq (e : Engine) (q : Query) : e.queries.contains q.id = !decide (e.IsNew q) := by
  by_cases h : e.IsNew q
  · rw [contains_eq_false h, decide_eq_true h, Bool.not_true]
  · rw [contains_eq_true h, decide_eq_false h, Bool.not_false]

/-- The engine after a query, whatever its distance table has become. -/
def noted (e : Engine) (q : Query) (distances : DistanceTable) : Engine :=
  { e with
    queries := (e.queries.mark q.id q.metric q.sender).2
    contributions := if e.IsNew q then q.id :: e.contributions else e.contributions
    distances := distances }

/-- The copy of a query that carries on what came, with the peer's devices if it is
    new. -/
def next (e : Engine) (q : Query) : Query :=
  if e.IsNew q then e.accumulated q else e.passOn q

/-- The copy that goes to all but one of several peers: a flood repeats the totals that
    came, a gossip query leaves them out. -/
def aside (e : Engine) (kind : QueryKind) (q : Query) : Query :=
  if kind = .flood then e.passOn q else q.nextHop e.identity 0 0

/-- What comes of a query: the engine has noted it, and the first message sent carries
    the totals on. -/
def Handled (e : Engine) (kind : QueryKind) (q : Query) (r : Engine × List Parcel) : Prop :=
  ∃ t first rest, r = (e.noted q t, first :: rest) ∧ first.message = .query kind (e.next q) ∧
    ∀ p ∈ rest, p.message = .query kind (e.aside kind q)

theorem Handled.reply (e : Engine) (kind : QueryKind) (q : Query) :
    e.Handled kind q (e.noted q e.distances, [Engine.reply kind (e.next q)]) :=
  ⟨e.distances, _, [], rfl, rfl, by simp⟩

theorem mem_toAll {neighbors exclude : List PeerAddress} {m : Message} {p : Parcel} :
    p ∈ toAll neighbors exclude m ↔
      ∃ r ∈ neighbors, r ∉ exclude ∧ p = ⟨.everyone, r, m⟩ := by
  simp only [toAll, List.mem_map, List.mem_filter, decide_eq_true_eq]
  constructor
  · rintro ⟨r, ⟨hr, he⟩, rfl⟩; exact ⟨r, hr, he, rfl⟩
  · rintro ⟨r, hr, he, rfl⟩; exact ⟨r, ⟨hr, he⟩, rfl⟩

theorem handled_onFlood : e.Handled .flood q (e.onFlood neighbors pick q) := by
  by_cases h : e.IsNew q
  · have hn : e.noted q e.distances =
        { e with
          queries := (e.queries.mark q.id q.metric q.sender).2
          contributions := q.id :: e.contributions } := by simp [noted, h]
    have hx : e.next q = e.accumulated q := by simp [next, h]
    have hr := Handled.reply e .flood q
    rw [hn, hx] at hr
    simp only [onFlood, mark, QueryLog.mark_fst, contains_eq_false h, Bool.not_false, Bool.not_true,
      Bool.false_eq_true, if_false]
    split
    · exact hr
    · split
      · refine ⟨e.distances, _, _, by rw [hn]; rfl, by rw [hx]; rfl, fun p hp => ?_⟩
        obtain ⟨r, -, -, rfl⟩ := mem_toAll.1 hp
        rfl
      · exact hr
  · have hr := Handled.reply e .flood q
    simp only [noted, next, h, if_false] at hr
    simp only [onFlood, mark, QueryLog.mark_fst, contains_eq_true h, Bool.not_true,
      Bool.not_false, if_true]
    exact hr

theorem handled_onRandomWalk : e.Handled .randomWalk q (e.onRandomWalk neighbors pick q) := by
  -- the walk has one message, so only its addressee depends on the branch
  have hone : ∀ route r, e.Handled .randomWalk q
      (e.noted q e.distances, [⟨route, r, .query .randomWalk (e.next q)⟩]) :=
    fun route r => ⟨e.distances, _, [], rfl, rfl, by simp⟩
  have hr := Handled.reply e .randomWalk q
  by_cases h : e.IsNew q
  · simp only [noted, next, h, if_true] at hone hr
    simp only [onRandomWalk, mark, QueryLog.mark_fst, contains_eq_false h, Bool.not_false, if_true]
    split
    · exact hr
    · split
      · exact hone _ _
      · split
        · exact hone _ _
        · exact hr
  · simp only [noted, next, h, if_false] at hone hr
    simp only [onRandomWalk, mark, QueryLog.mark_fst, contains_eq_true h, Bool.not_true,
      Bool.false_eq_true, if_false]
    split
    · exact hr
    · split
      · exact hone _ _
      · split
        · exact hone _ _
        · exact hr

/-- What a peer sends for a random walk. -/
theorem onRandomWalk_sent (e : Engine) (neighbors : List PeerAddress) (pick : ℕ) (q : Query) :
    (e.onRandomWalk neighbors pick q).2 =
      if q.mayForward then
        match choose (candidates neighbors q.sender) pick with
        | some peer => [⟨.random, peer, .query .randomWalk (e.next q)⟩]
        | none =>
          if q.sender ∈ neighbors then [⟨.direct, q.sender, .query .randomWalk (e.next q)⟩]
          else [reply .randomWalk (e.next q)]
      else [reply .randomWalk (e.next q)] := by
  simp only [onRandomWalk, mark, QueryLog.mark_fst, contains_eq, Bool.not_not, decide_eq_true_eq,
    next]
  cases q.mayForward with
  | false => rfl
  | true =>
    cases choose (candidates neighbors q.sender) pick with
    | some peer => rfl
    | none =>
      simp only [Bool.not_true, Bool.false_eq_true, if_false, if_true]
      split_ifs <;> rfl

theorem routes_snd (e : Engine) (kind : QueryKind) (q : Query) :
    ∃ t, (e.routes kind q).2 = { e with distances := t } := by
  cases kind <;> exact ⟨_, rfl⟩

theorem handled_onGossipQuery (hkind : kind ≠ .flood) :
    e.Handled kind q (e.onGossipQuery kind q) := by
  have hr := Handled.reply e kind q
  by_cases h : e.IsNew q
  · simp only [noted, next, h, if_true] at hr
    simp only [onGossipQuery, mark, QueryLog.mark_fst, contains_eq_false h, Bool.not_false,
      Bool.not_true, Bool.false_eq_true, if_false]
    split
    · exact hr
    · obtain ⟨t, ht⟩ := routes_snd
        (({ e with queries := (e.queries.mark q.id q.metric q.sender).2 } : Engine).contribute q)
        kind q
      have hn : e.noted q t = { e with
          queries := (e.queries.mark q.id q.metric q.sender).2
          contributions := q.id :: e.contributions
          distances := t } := by simp [noted, h]
      split
      · exact ⟨t, _, [], by rw [ht, hn]; rfl, by simp [next, h]; rfl, by simp⟩
      · refine ⟨t, _, _, by rw [ht, hn]; rfl, by simp [next, h]; rfl, fun p hp => ?_⟩
        obtain ⟨r, -, rfl⟩ := List.mem_map.1 hp
        simp [aside, hkind, contribute]
  · simp only [noted, next, h, if_false] at hr
    simp only [onGossipQuery, mark, QueryLog.mark_fst, contains_eq_true h, Bool.not_true,
      Bool.not_false, if_true]
    exact hr

/-- **Every query is handled in the same way**: noted, and its totals carried on by the
    first message sent. -/
theorem handled_onQuery (e : Engine) (neighbors : List PeerAddress) (pick : Nat)
    (kind : QueryKind) (q : Query) : e.Handled kind q (e.onQuery neighbors pick kind q) := by
  cases kind with
  | flood => exact handled_onFlood
  | randomWalk => exact handled_onRandomWalk
  | gossipDistance | gossipLocation => exact handled_onGossipQuery (by simp)

/-! ## Totals -/

/-- The peer's devices fit into the totals of a query. -/
def Fits (e : Engine) (q : Query) : Prop :=
  (e.metrics.deviceCount : ℤ) < 2 ^ 31 ∧ q.checked.toInt + e.metrics.deviceCount < 2 ^ 31 ∧
    (e.metrics.metricCount q.metric : ℤ) < 2 ^ 31 ∧
      q.matched.toInt + e.metrics.metricCount q.metric < 2 ^ 31

instance (e : Engine) (q : Query) : Decidable (e.Fits q) := by
  unfold Fits; infer_instance

/-- A peer's share of a query, which it gives only once. -/
def gain (e : Engine) (q : Query) : ℤ × ℤ :=
  if e.IsNew q then e.metrics.share q.metric else 0

theorem gain_nonneg (e : Engine) (q : Query) : 0 ≤ e.gain q := by
  unfold gain
  split_ifs
  · exact e.metrics.share_nonneg q.metric
  · exact le_rfl

theorem toInt_satAdd_count {a : Int32} {n : ℕ} (hn : (n : ℤ) < 2 ^ 31)
    (ha : a.toInt + n < 2 ^ 31) : (Int32.satAdd a (count n)).toInt = a.toInt + n := by
  have hlow := a.le_toInt
  have hcount : (count n).toInt = n := by
    rw [count, toInt_nearest, clampInt]; omega
  rw [toInt_satAdd_of_le (by omega) (by omega), hcount]

theorem totals_next (h : e.IsNew q → e.Fits q) : (e.next q).totals = q.totals + e.gain q := by
  unfold next gain
  split_ifs with hnew
  · obtain ⟨h1, h2, h3, h4⟩ := h hnew
    simp only [accumulated, Query.totals_nextHop, toInt_satAdd_count h1 h2,
      toInt_satAdd_count h3 h4]
    rfl
  · rw [add_zero]; rfl

theorem totals_aside (e : Engine) (kind : QueryKind) (q : Query) :
    (e.aside kind q).totals = if kind = .flood then q.totals else 0 := by
  unfold aside
  split_ifs <;> rfl

theorem next_isHopOf (e : Engine) (q : Query) : (e.next q).IsHopOf q := by
  unfold next
  split_ifs <;> exact Query.IsHopOf.refl q

theorem aside_isHopOf (e : Engine) (kind : QueryKind) (q : Query) :
    (e.aside kind q).IsHopOf q := by
  unfold aside
  split_ifs <;> exact Query.IsHopOf.refl q

namespace Handled
variable {r : Engine × List Parcel}

/-- Everything sent is a hop of the same query, with one of two totals. -/
theorem mem (h : e.Handled kind q r) {p : Parcel} (hp : p ∈ r.2) :
    p.message = .query kind (e.next q) ∨ p.message = .query kind (e.aside kind q) := by
  obtain ⟨t, first, rest, rfl, hfirst, hrest⟩ := h
  rcases List.mem_cons.1 hp with rfl | hp
  · exact Or.inl hfirst
  · exact Or.inr (hrest p hp)

theorem sender (h : e.Handled kind q r) {p : Parcel} (hp : p ∈ r.2) {kind' : QueryKind}
    {q' : Query} (hq' : p.message = .query kind' q') : q'.sender = e.identity := by
  rcases h.mem hp with h | h <;> rw [h] at hq' <;> cases hq'
  · unfold next
    split_ifs <;> rfl
  · unfold aside
    split_ifs <;> rfl

theorem isSome_copyOf? (h : e.Handled kind q r) {p : Parcel} (hp : p ∈ r.2) :
    (p.envelope.copyOf? q.id).isSome := by
  rcases h.mem hp with h | h
  · rw [Envelope.copyOf?_eq_some_iff.2 ⟨⟨kind, h⟩, (e.next_isHopOf q).1⟩]
    rfl
  · rw [Envelope.copyOf?_eq_some_iff.2 ⟨⟨kind, h⟩, (e.aside_isHopOf kind q).1⟩]
    rfl

/-- Everything sent is a copy. -/
theorem length_copies (h : e.Handled kind q r) :
    (copies q.id (r.2.map Parcel.envelope)).length = r.2.length := by
  rw [copies, List.length_filterMap_eq_countP, List.countP_map, List.countP_eq_length]
  exact fun p hp => h.isSome_copyOf? hp

theorem carried_rest {rest : List Parcel} {q' : Query}
    (h : ∀ p ∈ rest, p.message = .query kind q') :
    carried q'.id (rest.map Parcel.envelope) = rest.length • q'.totals := by
  induction rest with
  | nil => simp
  | cons p rest ih =>
    have hp : p.envelope.copyOf? q'.id = some q' := by
      rw [Parcel.envelope, h p (by simp)]; exact Envelope.copyOf?_query _ _ _
    rw [List.map_cons, carried_cons_of_some hp, ih fun p hp => h p (by simp [hp]),
      List.length_cons, succ_nsmul']

/-- The sum of the totals sent: what came, the peer's share, and what the other
    messages repeat. -/
theorem carried_sent (h : e.Handled kind q r) (hfits : e.IsNew q → e.Fits q) :
    ∃ n : ℕ, carried q.id (r.2.map Parcel.envelope) =
      q.totals + e.gain q + n • (if kind = .flood then q.totals else 0) := by
  obtain ⟨t, first, rest, rfl, hfirst, hrest⟩ := h
  have hp : first.envelope.copyOf? q.id = some (e.next q) := by
    rw [Parcel.envelope, hfirst]
    exact Envelope.copyOf?_eq_some_iff.2 ⟨⟨kind, rfl⟩, (e.next_isHopOf q).1⟩
  have hc := carried_rest hrest
  rw [(e.aside_isHopOf kind q).1, totals_aside] at hc
  exact ⟨rest.length, by
    rw [List.map_cons, carried_cons_of_some hp, totals_next hfits, hc]⟩

/-- **A random walk and a gossip query send on what came**, and the peer's share. -/
theorem carried_eq (h : e.Handled kind q r) (hkind : kind ≠ .flood)
    (hfits : e.IsNew q → e.Fits q) :
    carried q.id (r.2.map Parcel.envelope) = q.totals + e.gain q := by
  obtain ⟨n, hn⟩ := h.carried_sent hfits
  rw [hn, if_neg hkind, smul_zero, add_zero]

/-- **No query loses totals**: at least what came is sent on, and the peer's share. -/
theorem le_carried (h : e.Handled kind q r) (hq : 0 ≤ q.totals)
    (hfits : e.IsNew q → e.Fits q) :
    q.totals + e.gain q ≤ carried q.id (r.2.map Parcel.envelope) := by
  obtain ⟨n, hn⟩ := h.carried_sent hfits
  rw [hn]
  refine le_add_of_nonneg_right (nsmul_nonneg ?_ n)
  split_ifs
  · exact hq
  · exact le_rfl

/-- No message sent carries more than what came and the peer's share. -/
theorem totals_le (h : e.Handled kind q r) (hq : 0 ≤ q.totals) (hfits : e.IsNew q → e.Fits q)
    {p : Parcel} (hp : p ∈ r.2) {q' : Query} (hq' : p.message = .query kind q') :
    0 ≤ q'.totals ∧ q'.totals ≤ q.totals + e.gain q := by
  have hg := e.gain_nonneg q
  rcases h.mem hp with h | h <;> rw [h] at hq' <;> cases hq'
  · rw [totals_next hfits]
    exact ⟨add_nonneg hq hg, le_rfl⟩
  · rw [totals_aside]
    split_ifs
    · exact ⟨hq, le_add_of_nonneg_right hg⟩
    · exact ⟨le_rfl, add_nonneg hq hg⟩

end Handled

/-! ## Gossip leaves queries alone -/

/-- An engine with other tables. -/
def withTables (e : Engine) (distances : DistanceTable) (locations : LocationTable) : Engine :=
  { e with distances := distances, locations := locations }

/-- A handled message is a query, or it changes only the tables and sends no query. -/
theorem handle_cases {m : Message} {r : Engine × List Parcel}
    (h : e.handle neighbors pick m = some r) :
    (∃ kind q, m = .query kind q ∧ e.Handled kind q r) ∨
      (∀ kind q, m ≠ .query kind q) ∧ (∃ d l, r.1 = e.withTables d l) ∧
        ∀ p ∈ r.2, ∀ kind q, p.message ≠ .query kind q := by
  cases m with
  | query kind q =>
    rw [handle_query, Option.some.injEq] at h
    exact Or.inl ⟨kind, q, rfl, h ▸ e.handled_onQuery neighbors pick kind q⟩
  | distances sender entries =>
    simp only [handle, Option.some.injEq] at h
    subst h
    refine Or.inr ⟨by simp, ⟨_, e.locations, rfl⟩, fun p hp => ?_⟩
    simp only [onDistances] at hp
    split_ifs at hp
    · obtain ⟨r, -, -, rfl⟩ := mem_toAll.1 hp
      simp [distancesMessage]
    · cases hp
  | locations sender entries =>
    simp only [handle, Option.some.injEq] at h
    subst h
    refine Or.inr ⟨by simp, ⟨e.distances, _, rfl⟩, fun p hp => ?_⟩
    simp only [onLocations] at hp
    split_ifs at hp
    · obtain ⟨r, -, -, rfl⟩ := mem_toAll.1 hp
      simp [locationsMessage]
    · cases hp
  | _ => simp [handle] at h

theorem identity_of_handle {m : Message} {r : Engine × List Parcel}
    (h : e.handle neighbors pick m = some r) : r.1.identity = e.identity := by
  rcases handle_cases h with ⟨_, _, rfl, _, _, _, rfl, -⟩ | ⟨-, ⟨_, _, hr⟩, -⟩
  · rfl
  · rw [hr]
    rfl

/-- A query is sent only because of a query of which it is a hop. -/
theorem query_of_sent {m : Message} {r : Engine × List Parcel}
    (h : e.handle neighbors pick m = some r) {p : Parcel} (hp : p ∈ r.2) {q' : Query}
    (hq' : p.message = .query kind q') :
    ∃ q, m = .query kind q ∧ e.Handled kind q r ∧ q'.IsHopOf q := by
  rcases handle_cases h with ⟨kind₀, q₀, hm, hh⟩ | ⟨-, -, hno⟩
  · rcases hh.mem hp with h | h <;> rw [h] at hq' <;> cases hq'
    · exact ⟨q₀, hm, hh, next_isHopOf _ _⟩
    · exact ⟨q₀, hm, hh, aside_isHopOf _ _ _⟩
  · exact absurd hq' (hno p hp kind q')

end OverlayCensus.Engine
