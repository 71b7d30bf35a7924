/-
  OverlayCensus — a larger cache holds what a smaller one holds.

  Two caches get the same operations.  They come apart: a key that only the larger one still
  has is used there and missed in the smaller one, and its removal makes room in the larger
  one only.  What stays is that the keys of the smaller cache are keys of the larger one, in
  the same order of use, and that the smaller one has no more free places (`Within`).  So when
  the larger one pushes out a key that the smaller one has, the smaller one is full as well,
  and the key is its last one too.

  * `Within.use`, `Within.remove`: using and removing a key in both caches;
  * `Within.perform`: every operation that goes by keys alone (`CacheOp.ByKey`);
  * `keys_of_larger`: any such operations on caches in linked slots, and any marks in query
    logs.
-/
import Mathlib
import OverlayCensus.Proofs.MarkHistory
import OverlayCensus.Proofs.SlotRefinement

namespace OverlayCensus

/-- Leaving out at least as many elements at the end of the shorter list keeps it within the
    longer one. -/
theorem sublist_take_take {α : Type} {as bs : List α} (h : as.Sublist bs) :
    ∀ {a b : ℕ}, a + bs.length ≤ b + as.length → (as.take a).Sublist (bs.take b) := by
  induction h with
  | slnil => simp
  | @cons as bs x h ih =>
    intro a b hroom
    have hle := h.length_le
    rw [List.length_cons] at hroom
    obtain ⟨b, rfl⟩ := Nat.exists_eq_succ_of_ne_zero (show b ≠ 0 by omega)
    exact (ih (by omega)).cons x
  | @cons_cons as bs x h ih =>
    intro a b hroom
    have hle := h.length_le
    rw [List.length_cons, List.length_cons] at hroom
    cases a with
    | zero => exact List.nil_sublist _
    | succ a =>
      obtain ⟨b, rfl⟩ := Nat.exists_eq_succ_of_ne_zero (show b ≠ 0 by omega)
      exact (ih (by omega)).cons_cons x

namespace Cache

section
variable {κ ν : Type}

theorem length_keys (c : Cache κ ν) : c.keys.length = c.size :=
  List.length_map _

theorem nodup_keys (c : Cache κ ν) : c.keys.Nodup :=
  c.distinct

/-- The smaller cache has keys of the larger one, in the same order, and no more free
    places. -/
structure Within (small large : Cache κ ν) : Prop where
  keys : small.keys.Sublist large.keys
  room : small.capacity + large.size ≤ large.capacity + small.size

theorem within_empty {m n : ℕ} (h : m ≤ n) : (empty m : Cache κ ν).Within (empty n) where
  keys := List.nil_sublist _
  room := Nat.add_le_add_right (max_le_max_right 1 h) 0

end

variable {κ ν : Type} [DecidableEq κ] {small large small' large' : Cache κ ν} {k : κ}

/-! ## Uses and removals -/

theorem keys_remove (c : Cache κ ν) (k : κ) : (c.remove k).2.keys = c.keys.erase k := by
  rw [← filter_ne_eq_erase c.nodup_keys, keys, entries_remove, without, keys, List.filter_map]
  rfl

namespace Within

/-- A key that is taken out of both caches makes no more room in the smaller one. -/
theorem room_erase (h : small.Within large) (k : κ) :
    small.capacity + (large.keys.erase k).length ≤
      large.capacity + (small.keys.erase k).length := by
  have hroom := h.room
  rw [← length_keys, ← length_keys] at hroom
  by_cases hsmall : k ∈ small.keys
  · have hlarge := h.keys.subset hsmall
    have hpos := List.length_pos_of_mem hsmall
    have hpos' := List.length_pos_of_mem hlarge
    rw [List.length_erase_of_mem hsmall, List.length_erase_of_mem hlarge]
    omega
  · have hle := List.length_erase_le (a := k) (l := large.keys)
    rw [List.erase_of_not_mem hsmall]
    omega

/-- A key that comes to the front of both caches, whether they have it or not. -/
theorem of_front (h : small.Within large)
    (hsmall : small'.keys = (k :: small.keys.filter fun j => j ≠ k).take small.capacity)
    (hlarge : large'.keys = (k :: large.keys.filter fun j => j ≠ k).take large.capacity)
    (hcap : small'.capacity = small.capacity) (hcap' : large'.capacity = large.capacity) :
    small'.Within large' := by
  rw [filter_ne_eq_erase small.nodup_keys] at hsmall
  rw [filter_ne_eq_erase large.nodup_keys] at hlarge
  have hroom := h.room_erase k
  constructor
  · rw [hsmall, hlarge]
    refine sublist_take_take ((h.keys.erase k).cons_cons k) ?_
    rw [List.length_cons, List.length_cons]
    omega
  · rw [← length_keys, ← length_keys, hsmall, hlarge, hcap, hcap', List.length_take,
      List.length_take, List.length_cons, List.length_cons]
    omega

theorem use (h : small.Within large) (k : κ) (v w : ν) :
    (small.use k v).Within (large.use k w) :=
  h.of_front (keys_use small k v) (keys_use large k w) rfl rfl

theorem upsert (h : small.Within large) (k : κ) (create : ν) (update : ν → Bool × ν) :
    (small.upsert k create update).2.Within (large.upsert k create update).2 :=
  h.of_front (keys_upsert small k create update) (keys_upsert large k create update)
    (capacity_upsert small k create update) (capacity_upsert large k create update)

/-- A use of a key that the larger cache alone has pushes nothing out. -/
theorem use_large (h : small.Within large) (hsmall : k ∉ small.keys) (hlarge : k ∈ large.keys)
    (v : ν) : small.Within (large.use k v) := by
  have hpos := List.length_pos_of_mem hlarge
  have hle := large.length_le
  have hsize := large.length_keys
  have hkeys : (large.use k v).keys = k :: large.keys.erase k := by
    rw [keys_use, filter_ne_eq_erase large.nodup_keys, List.take_of_length_le]
    rw [List.length_cons, List.length_erase_of_mem hlarge]
    rw [size] at hsize
    omega
  constructor
  · rw [hkeys, ← List.erase_of_not_mem hsmall]
    exact (h.keys.erase k).cons k
  · have hroom := h.room
    rw [← (large.use k v).length_keys, hkeys, List.length_cons, List.length_erase_of_mem hlarge,
      capacity_use]
    omega

theorem touch (h : small.Within large) (k : κ) :
    (small.touch k).2.Within (large.touch k).2 := by
  unfold Cache.touch
  cases hsmall : small.get? k with
  | some v =>
    have hmem : k ∈ large.keys := h.keys.subset (List.mem_map_of_mem (mem_of_get? hsmall))
    obtain ⟨w, hlarge⟩ := Option.isSome_iff_exists.1 (contains_iff.2 hmem)
    rw [hlarge]
    exact h.use k v w
  | none =>
    cases hlarge : large.get? k with
    | some w =>
      exact h.use_large (get?_eq_none_iff.1 hsmall) (List.mem_map_of_mem (mem_of_get? hlarge)) w
    | none => exact h

theorem remove (h : small.Within large) (k : κ) :
    (small.remove k).2.Within (large.remove k).2 where
  keys := by
    rw [keys_remove, keys_remove]
    exact h.keys.erase k
  room := by
    rw [← length_keys, ← length_keys, keys_remove, keys_remove]
    exact h.room_erase k

end Within
end Cache

/-! ## Runs -/

/-- Whether an operation goes by keys alone, and not by values or coins. -/
def CacheOp.ByKey {κ ν : Type} : CacheOp κ ν → Prop
  | .putSkipping .. | .retain _ => False
  | _ => True

namespace Cache.Within

variable {κ ν : Type} [DecidableEq κ] {small large : Cache κ ν}

/-- **One operation** in both caches. -/
theorem perform (h : small.Within large) {op : CacheOp κ ν} (hop : op.ByKey) :
    (small.perform op).2.Within (large.perform op).2 := by
  cases op with
  | touch k => exact h.touch k
  | look k => exact h
  | contains k => exact h
  | put k v => exact h.use k v v
  | putSkipping => exact hop.elim
  | upsert k create update => exact h.upsert k create update
  | putMember k name p => exact h.upsert k ⟨name, .single p⟩ fun r => r.insert p
  | putDistance k name distance holder =>
    exact h.upsert k ⟨name, distance, .single holder⟩ fun e => e.merge distance holder
  | remove k => exact h.remove k
  | retain => exact hop.elim

theorem performAll (h : small.Within large) {ops : List (CacheOp κ ν)}
    (hops : ∀ op ∈ ops, op.ByKey) :
    (small.performAll ops).2.Within (large.performAll ops).2 := by
  induction ops generalizing small large with
  | nil => exact h
  | cons op ops ih =>
    rw [List.forall_mem_cons] at hops
    exact ih (h.perform hops.1) hops.2

end Cache.Within

/-- Marks keep a log within a larger one. -/
theorem QueryLog.within_afterMarks {small large : QueryLog} (h : small.cache.Within large.cache)
    (marks : List Mark) :
    (small.afterMarks marks).cache.Within (large.afterMarks marks).cache := by
  induction marks with
  | nil => exact h
  | cons m earlier ih => exact ih.upsert m.id _ _

/-- **A larger cache never forgets what a smaller one remembers.**  After any touches, looks,
    writes, additions of members and removals that both caches have got since they were empty,
    the keys of the smaller one in the order of their use are some of the keys of the larger one
    in the order of their use.  A query that is new to a log is new to every smaller log with the
    same marks. -/
theorem keys_of_larger {κ ν : Type} [DecidableEq κ] [Hashable κ] {small large : ℕ}
    (h : small ≤ large) :
    (∀ ops : List (CacheOp κ ν), (∀ op ∈ ops, op.ByKey) →
      (((SlotCache.empty small).performAll ops).2.entries.map Prod.fst).Sublist
        (((SlotCache.empty large).performAll ops).2.entries.map Prod.fst)) ∧
    ∀ (marks : List Mark) (m : Mark),
      (((QueryLog.empty large).afterMarks marks).note m).1 = true →
        (((QueryLog.empty small).afterMarks marks).note m).1 = true := by
  constructor
  · intro ops hops
    rw [((SlotCache.refines_empty small).performAll ops).refines.entries_eq,
      ((SlotCache.refines_empty large).performAll ops).refines.entries_eq]
    exact ((Cache.within_empty h).performAll hops).keys
  · intro marks m hnew
    have hwithin : ((QueryLog.empty small).afterMarks marks).cache.Within
        ((QueryLog.empty large).afterMarks marks).cache :=
      QueryLog.within_afterMarks (Cache.within_empty h) marks
    rw [QueryLog.note_fst, Bool.not_eq_true', ← Bool.not_eq_true, QueryLog.contains_iff] at hnew ⊢
    exact fun hmem => hnew (hwithin.keys.subset hmem)

namespace Sample

/-- The third write pushes 1 out of a cache for two keys, so that the touch misses it there. -/
def partingOps : List (CacheOp ℕ ℕ) :=
  [.put 1 10, .put 2 20, .put 3 30, .touch 1, .remove 3, .put 4 40]

theorem keys_parting :
    ((SlotCache.empty 2).performAll partingOps).2.entries.map Prod.fst = [4, 2] ∧
      ((SlotCache.empty 3).performAll partingOps).2.entries.map Prod.fst = [4, 1, 2] := by
  rw [((SlotCache.refines_empty 2).performAll partingOps).refines.entries_eq,
    ((SlotCache.refines_empty 3).performAll partingOps).refines.entries_eq]
  decide

/-- Two queries have been marked. -/
def partingMarks : List Mark :=
  [⟨.ofNat 2, "t", ⟨"p", 1⟩⟩, ⟨.ofNat 1, "t", ⟨"p", 2⟩⟩]

/-- A third one is new to a log for two queries, and so to a log for one. -/
theorem keys_of_larger_parting :
    (∀ op ∈ partingOps, op.ByKey) ∧ [4, 2].Sublist [4, 1, 2] ∧
      (((QueryLog.empty 2).afterMarks partingMarks).note ⟨.ofNat 3, "t", ⟨"p", 1⟩⟩).1 = true ∧
      (((QueryLog.empty 1).afterMarks partingMarks).note ⟨.ofNat 3, "t", ⟨"p", 1⟩⟩).1 = true := by
  have hops : ∀ op ∈ partingOps, op.ByKey := by simp [partingOps, CacheOp.ByKey]
  obtain ⟨hsmall, hlarge⟩ := keys_parting
  have hkeys := (keys_of_larger (show 2 ≤ 3 by decide)).1 partingOps hops
  rw [hsmall, hlarge] at hkeys
  have hnew : (((QueryLog.empty 2).afterMarks partingMarks).note
      ⟨.ofNat 3, "t", ⟨"p", 1⟩⟩).1 = true := by decide
  exact ⟨hops, hkeys, hnew, (@keys_of_larger ℕ ℕ _ _ 1 2 (by decide)).2 _ _ hnew⟩

end Sample

end OverlayCensus
