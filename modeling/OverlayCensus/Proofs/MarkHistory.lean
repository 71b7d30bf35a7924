/-
  OverlayCensus — the query log as a window over its history.

  What a log does with an id depends on the marks it was given, and on nothing else: an id
  is forgotten when as many other ids have been marked since its last mark as the log has
  places, and its senders are collected from the last time it was taken for new.
  Histories are lists of marks, the last one first.

  * `recent` are the ids of a history in the order of their last marks; `ids_afterMarks`:
    the log holds the first ones of them;
  * `sendersSinceNew` are the senders of an id's marks from the last one that was new on;
  * `mark_window`: when a mark is new, and what `senders` answers, after any history.
-/
import Mathlib
import OverlayCensus.Proofs.QueryLog

namespace OverlayCensus

/-- One delivery of a query, as the log notes it. -/
structure Mark where
  id : Uuid
  metric : String
  sender : PeerAddress
deriving DecidableEq

/-- The ids of marks. -/
def markedIds (h : List Mark) : Finset Uuid :=
  (h.map Mark.id).toFinset

theorem markedIds_cons (m : Mark) (h : List Mark) :
    markedIds (m :: h) = insert m.id (markedIds h) := by
  simp [markedIds]

namespace QueryLog

/-! ## Histories -/

/-- Notes a mark; tells whether it is new. -/
def note (log : QueryLog) (m : Mark) : Bool × QueryLog :=
  log.mark m.id m.metric m.sender

/-- The log after the marks of a history. -/
def afterMarks (log : QueryLog) : List Mark → QueryLog
  | [] => log
  | m :: earlier => ((log.afterMarks earlier).note m).2

/-- The ids of a history, the most recently marked first. -/
def recent : List Mark → List Uuid
  | [] => []
  | m :: earlier => m.id :: (recent earlier).filter fun i => i ≠ m.id

/-- The senders of an id's marks from the last one that was new on, the last one
    first. -/
def sendersSinceNew (log : QueryLog) (id : Uuid) : List Mark → List PeerAddress
  | [] => []
  | m :: earlier =>
    if m.id = id then
      m.sender ::
        if ((log.afterMarks earlier).note m).1 then [] else log.sendersSinceNew id earlier
    else log.sendersSinceNew id earlier

@[simp] theorem note_fst (log : QueryLog) (m : Mark) :
    (log.note m).1 = !log.contains m.id := rfl

@[simp] theorem capacity_afterMarks (log : QueryLog) (h : List Mark) :
    (log.afterMarks h).capacity = log.capacity := by
  induction h with
  | nil => rfl
  | cons m earlier ih => exact (capacity_mark _ _ _ _).trans ih

/-! ## Ids in the log -/

/-- Of the elements in front, at most one is `a`, so that all places but one are taken by
    the others. -/
theorem take_cons_filter_take {α : Type} [DecidableEq α] {l : List α} (hl : l.Nodup) (a : α)
    (n : ℕ) :
    (a :: (l.take n).filter fun b => b ≠ a).take n = (a :: l.filter fun b => b ≠ a).take n := by
  cases n with
  | zero => rfl
  | succ n =>
    rw [List.take_succ_cons, List.take_succ_cons]
    congr 1
    rcases Nat.le_total l.length (n + 1) with hle | hle
    · rw [List.take_of_length_le hle]
    · conv_rhs => rw [← List.take_append_drop (n + 1) l, List.filter_append]
      refine (List.take_append_of_le_length ?_).symm
      have hlength : (l.take (n + 1)).length = n + 1 := List.length_take_of_le hle
      rw [filter_ne_eq_erase (hl.sublist (List.take_sublist _ l)), List.length_erase]
      split_ifs <;> omega

theorem nodup_recent (h : List Mark) : (recent h).Nodup := by
  induction h with
  | nil => exact List.nodup_nil
  | cons m earlier ih => exact List.nodup_cons.2 ⟨by simp, ih.filter _⟩

/-- **The log holds the most recently marked ids**, as many as it has places. -/
theorem ids_afterMarks {log : QueryLog} (hempty : log.ids = []) (h : List Mark) :
    (log.afterMarks h).ids = (recent h).take log.capacity := by
  induction h with
  | nil => simp [afterMarks, recent, hempty]
  | cons m earlier ih =>
    rw [afterMarks, note, ids_mark, ih, capacity_afterMarks, recent]
    exact take_cons_filter_take (nodup_recent earlier) m.id log.capacity

theorem mem_recent {id : Uuid} {h : List Mark} : id ∈ recent h ↔ ∃ m ∈ h, m.id = id := by
  induction h with
  | nil => simp [recent]
  | cons m earlier ih =>
    by_cases hid : id = m.id
    · simp [recent, hid]
    · simp [recent, hid, ih, Ne.symm hid]

theorem takeWhile_filter_of_ne {α : Type} [DecidableEq α] {a b : α} (h : a ≠ b) (l : List α) :
    ((l.filter fun c => c ≠ b).takeWhile fun c => c ≠ a) =
      (l.takeWhile fun c => c ≠ a).filter fun c => c ≠ b := by
  induction l with
  | nil => rfl
  | cons c l ih =>
    by_cases hcb : c = b
    · subst hcb; simpa [h.symm] using ih
    · by_cases hca : c = a
      · subst hca; simp [h]
      · simpa [hcb, hca] using ih

/-- The ids in front of an id are those marked since its last mark. -/
theorem toFinset_takeWhile_recent (id : Uuid) (h : List Mark) :
    ((recent h).takeWhile fun i => i ≠ id).toFinset =
      markedIds (h.takeWhile fun m => m.id ≠ id) := by
  induction h with
  | nil => rfl
  | cons m earlier ih =>
    by_cases hid : m.id = id
    · simp [recent, hid, markedIds]
    · have hstep : ((recent (m :: earlier)).takeWhile fun i => i ≠ id) =
          m.id :: ((recent earlier).takeWhile fun i => i ≠ id).filter fun i => i ≠ m.id := by
        rw [recent, List.takeWhile_cons_of_pos (by simpa using hid),
          takeWhile_filter_of_ne (Ne.symm hid)]
      rw [hstep, List.takeWhile_cons_of_pos (by simpa using hid)]
      rw [markedIds_cons, List.toFinset_cons, List.toFinset_filter, ih]
      ext i
      by_cases hi : i = m.id <;> simp [hi]

theorem mem_take_iff {α : Type} [DecidableEq α] {a : α} {l : List α} {n : ℕ} :
    a ∈ l.take n ↔ a ∈ l ∧ (l.takeWhile fun b => b ≠ a).length < n := by
  induction l generalizing n with
  | nil => simp
  | cons b l ih =>
    cases n with
    | zero => simp
    | succ n =>
      by_cases hb : b = a
      · simp [hb]
      · simp [hb, Ne.symm hb, ih]

/-- **An id is in the log** if it was marked, and since then fewer other ids than the log
    has places. -/
theorem contains_afterMarks_iff {log : QueryLog} (hempty : log.ids = []) {id : Uuid}
    {h : List Mark} :
    (log.afterMarks h).contains id = true ↔
      (∃ m ∈ h, m.id = id) ∧ (markedIds (h.takeWhile fun m => m.id ≠ id)).card < log.capacity := by
  have hnodup : ((recent h).takeWhile fun i => i ≠ id).Nodup :=
    (nodup_recent h).sublist (List.takeWhile_sublist _)
  rw [contains_iff, ids_afterMarks hempty, mem_take_iff, mem_recent,
    ← List.toFinset_card_of_nodup hnodup, toFinset_takeWhile_recent]

/-! ## Senders -/

theorem mem_senders {log : QueryLog} {id : Uuid} {p : PeerAddress} :
    p ∈ log.senders id ↔ ∃ r, log.cache.get? id = some r ∧ p ∈ r.members := by
  unfold senders
  cases h : log.cache.get? id with
  | none => simp
  | some r => simp [PeerSet.mem_toList]

theorem sorted_senders (log : QueryLog) (id : Uuid) :
    (log.senders id).Pairwise fun a b => compare a b = .lt := by
  unfold senders
  split
  · next r _ => exact r.members.sorted
  · exact List.Pairwise.nil

theorem senders_eq_nil {log : QueryLog} {id : Uuid} (h : log.contains id = false) :
    log.senders id = [] := by
  rw [contains, Cache.contains, Option.isSome_eq_false_iff, Option.isNone_iff_eq_none] at h
  rw [senders, h]

/-- A mark adds its sender to those of its id, and no other id gains one. -/
theorem mem_senders_mark {log : QueryLog} {id j : Uuid} {metric : String}
    {sender p : PeerAddress} :
    p ∈ (log.mark id metric sender).2.senders j ↔
      j ∈ (log.mark id metric sender).2.ids ∧ (j = id ∧ p = sender ∨ p ∈ log.senders j) := by
  obtain ⟨v, hv, hmembers⟩ : ∃ v : Roster,
      (log.cache.putMember id metric sender).2 = log.cache.use id v ∧
        ∀ p, p ∈ v.members ↔ p = sender ∨ p ∈ log.senders id := by
    unfold Cache.putMember Cache.upsert
    cases h : log.cache.get? id with
    | none =>
      have hno : ∀ p, ¬ p ∈ log.senders id := by simp [senders, h]
      refine ⟨⟨metric, .single sender⟩, rfl, fun p => ?_⟩
      rw [or_iff_left (hno p)]
      exact PeerSet.mem_single
    | some r =>
      refine ⟨(r.insert sender).2, rfl, fun p => ?_⟩
      have hold : p ∈ log.senders id ↔ p ∈ r.members := by simp [mem_senders, h]
      exact PeerSet.mem_insert.trans (or_congr_right hold.symm)
  rw [mem_senders, mark, ids, hv, Cache.get?_use]
  by_cases hj : j ∈ (log.cache.use id v).keys
  · by_cases hid : j = id
    · subst hid
      simp [hj, hmembers]
    · simp [hj, hid, mem_senders]
  · simp [hj]

/-- **The senders of an id** are those of its marks from the last one that was new on, as
    long as the id is in the log. -/
theorem mem_senders_afterMarks {log : QueryLog} (hempty : log.ids = []) {id : Uuid}
    {p : PeerAddress} {h : List Mark} :
    p ∈ (log.afterMarks h).senders id ↔
      (log.afterMarks h).contains id = true ∧ p ∈ log.sendersSinceNew id h := by
  induction h with
  | nil =>
    have hno : log.contains id = false := by
      rw [← Bool.not_eq_true, contains_iff, hempty]
      exact List.not_mem_nil
    simp [afterMarks, senders_eq_nil hno, hno]
  | cons m earlier ih =>
    rw [afterMarks, note, mem_senders_mark, contains_iff]
    refine and_congr_right fun hid => ?_
    by_cases heq : m.id = id
    · subst heq
      rw [sendersSinceNew, if_pos rfl, List.mem_cons, ih, note_fst]
      cases (log.afterMarks earlier).contains m.id <;> simp
    · have hold : (log.afterMarks earlier).contains id = true :=
        contains_iff.2 ((eq_or_mem_of_mem_mark hid).resolve_left (Ne.symm heq))
      rw [sendersSinceNew, if_neg heq, ih, and_iff_right hold]
      simp [Ne.symm heq]

/-- **The log is a window over its history.**  A mark is new if its id was never marked,
    or if at least as many other ids as the log has places were marked since; the senders
    of an id in the log are, in increasing order and each once, those of its marks from
    the last new one on, and an id that is not in the log has none. -/
theorem mark_window (capacity : ℕ) (h : List Mark) :
    (∀ m : Mark, (((empty capacity).afterMarks h).note m).1 = true ↔
      (∀ m' ∈ h, m'.id ≠ m.id) ∨
        max capacity 1 ≤ (markedIds (h.takeWhile fun m' => m'.id ≠ m.id)).card) ∧
    (∀ id, ((empty capacity).afterMarks h).contains id = true →
      (((empty capacity).afterMarks h).senders id).Pairwise (fun a b => compare a b = .lt) ∧
        ∀ p, p ∈ ((empty capacity).afterMarks h).senders id ↔
          p ∈ (empty capacity).sendersSinceNew id h) ∧
    (∀ id, ((empty capacity).afterMarks h).contains id = false →
      ((empty capacity).afterMarks h).senders id = []) := by
  have hempty : (empty capacity).ids = [] := rfl
  refine ⟨fun m => ?_, fun id hid => ⟨sorted_senders _ _, fun p => ?_⟩, fun id => senders_eq_nil⟩
  · rw [note_fst, Bool.not_eq_true', ← Bool.not_eq_true, contains_afterMarks_iff hempty, not_and_or,
      not_lt, not_exists]
    simp only [not_and]
    rfl
  · rw [mem_senders_afterMarks hempty, and_iff_right hid]

end QueryLog

end OverlayCensus
