/-
  OverlayCensus — how long the query log remembers an id.

  Marking an id puts it in front of all others, so the ids marked since some moment
  are the first ones of the log, as long as they fit (`Remembers`).  An id is lost
  only to as many other ids as the log has places.

  * `ids_mark`: what marking does to the ids in the log;
  * `Remembers.mark`: marked ids stay while the log has room for all of them.
-/
import Mathlib
import OverlayCensus.Gossip.QueryLog

namespace OverlayCensus

theorem filter_ne_eq_erase {α : Type} [DecidableEq α] {l : List α} (h : l.Nodup) (a : α) :
    (l.filter fun b => b ≠ a) = l.erase a := by
  rw [h.erase_eq_filter]
  exact List.filter_congr fun b _ => by by_cases hb : b = a <;> simp [hb]

namespace Cache

variable {κ ν : Type} [DecidableEq κ]

theorem contains_iff {c : Cache κ ν} {k : κ} : c.contains k = true ↔ k ∈ c.keys := by
  simp only [contains, get?, keys, Option.isSome_map, List.find?_isSome, decide_eq_true_eq,
    List.mem_map]

theorem get?_eq_none_iff {c : Cache κ ν} {k : κ} : c.get? k = none ↔ k ∉ c.keys := by
  rw [← contains_iff, contains, Option.isSome_iff_ne_none, not_not]

theorem get?_eq_some_iff {c : Cache κ ν} {k : κ} {v : ν} :
    c.get? k = some v ↔ (k, v) ∈ c.entries := by
  refine ⟨mem_of_get?, fun h => ?_⟩
  cases hw : c.get? k with
  | none => exact absurd (List.mem_map_of_mem h) (get?_eq_none_iff.1 hw)
  | some w => rw [(Prod.mk.inj (List.inj_on_of_nodup_map c.distinct h (mem_of_get? hw) rfl)).2]

/-- Caches with the same entries have the same values, whatever the order of use. -/
theorem get?_congr {c c' : Cache κ ν} (h : ∀ e, e ∈ c'.entries ↔ e ∈ c.entries) (k : κ) :
    c'.get? k = c.get? k := by
  ext v
  rw [get?_eq_some_iff, get?_eq_some_iff, h]

theorem keys_use (c : Cache κ ν) (k : κ) (v : ν) :
    (c.use k v).keys = (k :: c.keys.filter fun j => j ≠ k).take c.capacity := by
  simp only [keys, entries_use, List.map_take, List.map_cons, without, List.filter_map]
  rfl

/-- After a use, the used key has the new value and every other key that is still there
    the one it had. -/
theorem get?_use (c : Cache κ ν) (k : κ) (v : ν) (j : κ) :
    (c.use k v).get? j =
      if j ∈ (c.use k v).keys then if j = k then some v else c.get? j else none := by
  split_ifs with hj hjk
  · obtain ⟨⟨j', w⟩, hw, rfl⟩ := List.mem_map.1 hj
    subst hjk
    rcases List.mem_cons.1 (List.mem_of_mem_take hw) with hw' | hw'
    · exact get?_eq_some_iff.2 (hw' ▸ hw)
    · simp [without] at hw'
  · obtain ⟨⟨j', w⟩, hw, rfl⟩ := List.mem_map.1 hj
    rcases mem_entries_use hw with hw' | hw'
    · exact absurd (Prod.mk.inj hw').1 hjk
    · rw [get?_eq_some_iff.2 hw, get?_eq_some_iff.2 hw']
  · exact get?_eq_none_iff.2 hj

theorem keys_upsert (c : Cache κ ν) (k : κ) (create : ν) (update : ν → Bool × ν) :
    (c.upsert k create update).2.keys = (k :: c.keys.filter fun j => j ≠ k).take c.capacity := by
  unfold upsert
  split <;> exact keys_use _ _ _

@[simp] theorem capacity_upsert (c : Cache κ ν) (k : κ) (create : ν) (update : ν → Bool × ν) :
    (c.upsert k create update).2.capacity = c.capacity := by
  unfold upsert
  split <;> rfl

end Cache

namespace QueryLog

/-- The ids in the log, the most recently marked first. -/
def ids (log : QueryLog) : List Uuid :=
  log.cache.keys

/-- The number of ids for which the log has room. -/
def capacity (log : QueryLog) : Nat :=
  log.cache.capacity

variable {log : QueryLog} {id : Uuid} {metric : String} {sender : PeerAddress}
  {seen : Finset Uuid}

theorem contains_iff : log.contains id = true ↔ id ∈ log.ids :=
  Cache.contains_iff

theorem nodup_ids (log : QueryLog) : log.ids.Nodup :=
  log.cache.distinct

theorem ids_mark (log : QueryLog) (id : Uuid) (metric : String) (sender : PeerAddress) :
    (log.mark id metric sender).2.ids =
      (id :: log.ids.filter fun i => i ≠ id).take log.capacity :=
  Cache.keys_upsert _ _ _ _

@[simp] theorem capacity_mark (log : QueryLog) (id : Uuid) (metric : String)
    (sender : PeerAddress) : (log.mark id metric sender).2.capacity = log.capacity :=
  Cache.capacity_upsert _ _ _ _

@[simp] theorem mark_fst (log : QueryLog) (id : Uuid) (metric : String) (sender : PeerAddress) :
    (log.mark id metric sender).1 = !log.contains id := rfl

theorem eq_or_mem_of_mem_mark {i : Uuid} (h : i ∈ (log.mark id metric sender).2.ids) :
    i = id ∨ i ∈ log.ids := by
  rw [ids_mark] at h
  rcases List.mem_cons.1 (List.mem_of_mem_take h) with rfl | h
  · exact Or.inl rfl
  · exact Or.inr (List.mem_filter.1 h).1

/-- The log remembers the ids `seen` as the ones marked last. -/
def Remembers (log : QueryLog) (seen : Finset Uuid) : Prop :=
  ∃ recent, recent <+: log.ids ∧ recent.toFinset = seen

theorem remembers_empty (log : QueryLog) : log.Remembers ∅ :=
  ⟨[], List.nil_prefix, rfl⟩

theorem Remembers.mem (h : log.Remembers seen) (hid : id ∈ seen) : id ∈ log.ids := by
  obtain ⟨recent, hp, rfl⟩ := h
  exact hp.subset (List.mem_toFinset.1 hid)

/-- **A marked id stays in the log** while no more ids are marked than it has
    places. -/
theorem Remembers.mark (h : log.Remembers seen) (hroom : (insert id seen).card ≤ log.capacity) :
    (log.mark id metric sender).2.Remembers (insert id seen) := by
  obtain ⟨recent, hp, rfl⟩ := h
  set front := id :: recent.filter fun i => i ≠ id with hfront
  have hset : front.toFinset = insert id recent.toFinset := by
    ext i
    by_cases hi : i = id <;> simp [hfront, hi]
  have hnodup : front.Nodup := by
    refine List.nodup_cons.2 ⟨by simp, ?_⟩
    exact ((log.nodup_ids).sublist hp.sublist).filter _
  refine ⟨front, ?_, hset⟩
  rw [ids_mark, List.prefix_take_iff]
  refine ⟨(List.prefix_cons_inj id).2 (hp.filter _), ?_⟩
  rw [← List.toFinset_card_of_nodup hnodup, hset]
  exact hroom

end QueryLog

end OverlayCensus
