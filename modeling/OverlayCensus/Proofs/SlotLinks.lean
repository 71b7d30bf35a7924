/-
  OverlayCensus — the links between slots.

  The slots of a cache are threaded on a list of positions, the most recently used one in
  front: each slot points to its neighbours in that list, and the cache to its two ends
  (`Threaded`).  The steps of which every change of order is made keep the slots
  threaded, on a list that is easily told:

  * `ThreadedOn.unlink`: without the position that is taken out;
  * `ThreadedOn.pushFront`: with the new position in front;
  * `ThreadedOn.vacate`: with the gap in place of the last position.
-/
import Mathlib
import OverlayCensus.SlotCache

namespace OverlayCensus.SlotCache

variable {κ ν : Type}

/-! ## Places in a list -/

theorem cons_eraseIdx_perm {order : List ℕ} {i n : ℕ} (hn : order[n]? = some i) :
    (i :: order.eraseIdx n).Perm order := by
  obtain ⟨hlt, rfl⟩ := List.getElem?_eq_some_iff.1 hn
  exact List.getElem_cons_eraseIdx_perm hlt

theorem mem_eraseIdx_iff {order : List ℕ} {i j n : ℕ} (h : order.Nodup)
    (hn : order[n]? = some i) : j ∈ order.eraseIdx n ↔ j ∈ order ∧ j ≠ i := by
  have hperm := cons_eraseIdx_perm hn
  have hnot : i ∉ order.eraseIdx n := (List.nodup_cons.1 (hperm.nodup_iff.2 h)).1
  rw [← hperm.mem_iff, List.mem_cons]
  constructor
  · exact fun hj => ⟨Or.inr hj, fun h' => hnot (h' ▸ hj)⟩
  · exact fun hj => hj.1.resolve_left hj.2

theorem mem_set_iff {order : List ℕ} {i j n last : ℕ} (h : order.Nodup)
    (hn : order[n]? = some last) : j ∈ order.set n i ↔ j = i ∨ j ∈ order ∧ j ≠ last := by
  obtain ⟨hlt, rfl⟩ := List.getElem?_eq_some_iff.1 hn
  have hperm : (order.set n i).Perm (i :: order.eraseIdx n) := List.set_perm_cons_eraseIdx hlt i
  rw [hperm.mem_iff, List.mem_cons, mem_eraseIdx_iff h hn]

/-! ## Threads -/

/-- The element of a list in front of a place. -/
def before (order : List ℕ) (n : ℕ) : Option ℕ :=
  if n = 0 then none else order[n - 1]?

/-- The slots are linked in the order of a list of positions. -/
structure Threaded (slots : Array (Slot κ ν)) (newest oldest : Option ℕ) (order : List ℕ) :
    Prop where
  nodup : order.Nodup
  newest_eq : newest = order[0]?
  oldest_eq : oldest = before order order.length
  slot : ∀ n i, order[n]? = some i →
    ∃ s, slots[i]? = some s ∧ s.newer = before order n ∧ s.older = order[n + 1]?

namespace Threaded
variable {slots slots' : Array (Slot κ ν)} {newest oldest : Option ℕ} {order : List ℕ} {i j n m : ℕ}

theorem eq_of_getElem? (h : Threaded slots newest oldest order) (hn : order[n]? = some i)
    (hm : order[m]? = some i) : n = m :=
  (List.getElem?_inj (List.getElem?_eq_some_iff.1 hn).1 h.nodup).1 (hn.trans hm.symm)

theorem lt_size (h : Threaded slots newest oldest order) (hi : i ∈ order) : i < slots.size := by
  obtain ⟨n, hn⟩ := List.mem_iff_getElem?.1 hi
  obtain ⟨s, hs, -⟩ := h.slot n i hn
  exact (Array.getElem?_eq_some_iff.1 hs).1

/-- Threading depends on the links only. -/
theorem of_links (h : Threaded slots newest oldest order)
    (hlinks : ∀ i ∈ order, ∀ s, slots[i]? = some s →
      ∃ s', slots'[i]? = some s' ∧ s'.newer = s.newer ∧ s'.older = s.older) :
    Threaded slots' newest oldest order := by
  refine ⟨h.nodup, h.newest_eq, h.oldest_eq, fun n i hn => ?_⟩
  obtain ⟨s, hs, hnewer, holder⟩ := h.slot n i hn
  obtain ⟨s', hs', hnewer', holder'⟩ := hlinks i (List.mem_of_getElem? hn) s hs
  exact ⟨s', hs', hnewer'.trans hnewer, holder'.trans holder⟩

end Threaded

variable [BEq κ] [Hashable κ] {c : SlotCache κ ν} {order : List ℕ} {i j n : ℕ} {s : Slot κ ν}

/-- The slots of a cache are linked in the order of a list of positions. -/
def ThreadedOn (c : SlotCache κ ν) (order : List ℕ) : Prop :=
  Threaded c.slots c.newest c.oldest order

/-! ## Slots after the steps -/

theorem getElem?_setOlder (c : SlotCache κ ν) (spot link : Option ℕ) (j : ℕ) :
    (c.setOlder spot link).slots[j]? =
      if spot = some j then c.slots[j]?.map fun t => { t with older := link } else c.slots[j]? := by
  cases spot <;> simp [setOlder, change, Array.getElem?_modify]

theorem getElem?_setNewer (c : SlotCache κ ν) (spot link : Option ℕ) (j : ℕ) :
    (c.setNewer spot link).slots[j]? =
      if spot = some j then c.slots[j]?.map fun t => { t with newer := link } else c.slots[j]? := by
  cases spot <;> simp [setNewer, change, Array.getElem?_modify]

theorem getElem?_unlink (hs : c.slots[i]? = some s) (j : ℕ) :
    (c.unlink i).slots[j]? =
      if j = i then some { s with newer := none, older := none }
      else c.slots[j]?.map fun t =>
        { t with
          older := if s.newer = some j then s.older else t.older
          newer := if s.older = some j then s.newer else t.newer } := by
  simp only [unlink, hs, change, Array.getElem?_modify, getElem?_setNewer, getElem?_setOlder]
  by_cases hj : i = j
  · subst hj
    simp only [if_true, hs]
    split_ifs <;> rfl
  · simp only [hj, Ne.symm hj, if_false]
    cases c.slots[j]? <;> split_ifs <;> rfl

theorem newest_unlink (hs : c.slots[i]? = some s) :
    (c.unlink i).newest = if s.newer = none then s.older else c.newest := by
  simp only [unlink, hs]
  cases s.newer <;> cases s.older <;> rfl

theorem oldest_unlink (hs : c.slots[i]? = some s) :
    (c.unlink i).oldest = if s.older = none then s.newer else c.oldest := by
  simp only [unlink, hs]
  cases s.newer <;> cases s.older <;> rfl

theorem getElem?_pushFront (hi : c.newest ≠ some i) (j : ℕ) :
    (c.pushFront i).slots[j]? =
      c.slots[j]?.map fun t =>
        if j = i then { t with newer := none, older := c.newest }
        else if c.newest = some j then { t with newer := some i } else t := by
  unfold pushFront
  cases hfirst : c.newest with
  | none =>
    simp only [change, Array.getElem?_modify]
    by_cases hj : i = j
    · simp [hj]
    · simp [hj, Ne.symm hj]
  | some first =>
    have hne : first ≠ i := fun h => hi (h ▸ hfirst)
    simp only [change, Array.getElem?_modify]
    by_cases hj : i = j
    · subst hj
      simp [hne]
    · by_cases hjf : first = j <;> simp [hj, Ne.symm hj, hjf]

/-- The last slot leaves no gap. -/
theorem vacate_of_last (hi : i + 1 = c.slots.size) :
    c.vacate i = { c with slots := c.slots.pop } := by
  obtain ⟨s, hs⟩ : ∃ s, c.slots.back? = some s := by
    rw [Array.back?_eq_getElem?]
    exact ⟨_, Array.getElem?_eq_getElem (by omega)⟩
  have hslots : (c.slots.setIfInBounds i s).pop = c.slots.pop := by
    refine Array.ext_getElem? fun j => ?_
    grind
  simp only [vacate, hs, hi, if_true, hslots]

theorem getElem?_vacate (hi : i + 1 < c.slots.size) (hs : c.slots[c.slots.size - 1]? = some s)
    (j : ℕ) :
    (c.vacate i).slots[j]? =
      if j + 1 < c.slots.size then
        (if j = i then some s else c.slots[j]?).map fun t =>
          { t with
            older := if s.newer = some j then some i else t.older
            newer := if s.older = some j then some i else t.newer }
      else none := by
  have hlast : c.slots.back? = some s := by rw [Array.back?_eq_getElem?, hs]
  have hshrunk : (c.slots.setIfInBounds i s).pop[j]? =
      if j + 1 < c.slots.size then if j = i then some s else c.slots[j]? else none := by
    grind
  simp only [vacate, hlast, Nat.ne_of_lt hi, if_false, getElem?_setNewer, getElem?_setOlder,
    hshrunk]
  by_cases hj : j + 1 < c.slots.size
  · simp only [hj, if_true]
    cases (if j = i then some s else c.slots[j]?) <;> split_ifs <;> rfl
  · simp only [hj, if_false, Option.map_none, ite_self]

theorem newest_vacate (hi : i + 1 < c.slots.size) (hs : c.slots[c.slots.size - 1]? = some s) :
    (c.vacate i).newest = if s.newer = none then some i else c.newest := by
  have hlast : c.slots.back? = some s := by rw [Array.back?_eq_getElem?, hs]
  simp only [vacate, hlast, Nat.ne_of_lt hi, if_false]
  cases s.newer <;> cases s.older <;> rfl

theorem oldest_vacate (hi : i + 1 < c.slots.size) (hs : c.slots[c.slots.size - 1]? = some s) :
    (c.vacate i).oldest = if s.older = none then some i else c.oldest := by
  have hlast : c.slots.back? = some s := by rw [Array.back?_eq_getElem?, hs]
  simp only [vacate, hlast, Nat.ne_of_lt hi, if_false]
  cases s.newer <;> cases s.older <;> rfl

/-! ## Steps keep the slots threaded -/

/-- **Taking a slot out** leaves the others threaded. -/
theorem ThreadedOn.unlink (h : c.ThreadedOn order) (hn : order[n]? = some i) :
    (c.unlink i).ThreadedOn (order.eraseIdx n) := by
  obtain ⟨s, hs, hnewer, holder⟩ := h.slot n i hn
  have hlt := (List.getElem?_eq_some_iff.1 hn).1
  refine ⟨h.nodup.sublist (List.eraseIdx_sublist _ _), ?_, ?_, fun m j hm => ?_⟩
  · rw [newest_unlink hs, hnewer, holder, h.newest_eq]
    grind [before]
  · rw [oldest_unlink hs, hnewer, holder, h.oldest_eq]
    grind [before]
  · obtain ⟨m', hm', hplace⟩ : ∃ m', order[m']? = some j ∧ m' = if m < n then m else m + 1 := by
      grind
    obtain ⟨t, ht, htnewer, htolder⟩ := h.slot m' j hm'
    have hne : j ≠ i := by
      rintro rfl
      have := h.eq_of_getElem? hm' hn
      grind
    rw [getElem?_unlink hs, if_neg hne, ht]
    -- no position stands twice in the list, so only the neighbours of the gap are relinked
    have hafter : order[n + 1]? = some j → m' = n + 1 := fun h' => h.eq_of_getElem? hm' h'
    have hbefore : order[n - 1]? = some j → m' = n - 1 := fun h' => h.eq_of_getElem? hm' h'
    refine ⟨_, rfl, ?_, ?_⟩
    · change (if s.older = some j then s.newer else t.newer) = _
      rw [holder, hnewer, htnewer]
      grind [before]
    · change (if s.newer = some j then s.older else t.older) = _
      rw [holder, hnewer, htolder]
      grind [before]

/-- **Putting a slot in front** of the others. -/
theorem ThreadedOn.pushFront (h : c.ThreadedOn order) (hi : i ∉ order)
    (hs : c.slots[i]? = some s) : (c.pushFront i).ThreadedOn (i :: order) := by
  have hfront : c.newest ≠ some i := by
    rw [h.newest_eq]
    exact fun h' => hi (List.mem_of_getElem? h')
  refine ⟨List.nodup_cons.2 ⟨hi, h.nodup⟩, rfl, ?_, fun n j hn => ?_⟩
  · change c.oldest.or (some i) = _
    rw [h.oldest_eq]
    cases order with
    | nil => rfl
    | cons j rest => simp [before]
  · cases n with
    | zero =>
      obtain rfl : i = j := by simpa using hn
      refine ⟨_, by rw [getElem?_pushFront hfront, hs]; rfl, ?_, ?_⟩
      · simp [before]
      · simp [h.newest_eq]
    | succ n =>
      rw [List.getElem?_cons_succ] at hn
      obtain ⟨t, ht, htnewer, htolder⟩ := h.slot n j hn
      have hne : j ≠ i := fun h' => hi (h' ▸ List.mem_of_getElem? hn)
      have hfirst : order[0]? = some j → n = 0 := fun h' => h.eq_of_getElem? hn h'
      refine ⟨_, by rw [getElem?_pushFront hfront, ht]; rfl, ?_, ?_⟩
      · simp only [hne, if_false, h.newest_eq]
        grind [before]
      · simp only [hne, if_false]
        grind

/-- **Moving a slot to the front.** -/
theorem ThreadedOn.promote (h : c.ThreadedOn order) (hn : order[n]? = some i) :
    (c.promote i).ThreadedOn (i :: order.eraseIdx n) := by
  unfold SlotCache.promote
  split_ifs with hfront
  · have hzero : n = 0 := h.eq_of_getElem? hn (h.newest_eq ▸ hfront)
    cases order with
    | nil => simp at hn
    | cons k rest =>
      obtain rfl : k = i := by simpa [hzero] using hn
      simpa [hzero] using h
  · obtain ⟨s, hs, -⟩ := h.slot n i hn
    have hout : i ∉ order.eraseIdx n := fun hmem => ((mem_eraseIdx_iff h.nodup hn).1 hmem).2 rfl
    exact (h.unlink hn).pushFront hout (by rw [getElem?_unlink hs, if_pos rfl])

/-- What stands in a slot out of the order does not matter to the others. -/
theorem ThreadedOn.change (h : c.ThreadedOn order) (hi : i ∉ order) (f : Slot κ ν → Slot κ ν) :
    (c.change i f).ThreadedOn order := by
  refine h.of_links fun j hj t ht => ⟨t, ?_, rfl, rfl⟩
  have hne : i ≠ j := fun h' => hi (h' ▸ hj)
  simp only [SlotCache.change, Array.getElem?_modify, if_neg hne, ht]

theorem ThreadedOn.append (h : c.ThreadedOn order) (s : Slot κ ν) :
    Threaded (c.slots.push s) c.newest c.oldest order := by
  refine Threaded.of_links h fun j hj t ht => ⟨t, ?_, rfl, rfl⟩
  rw [Array.getElem?_push, if_neg (h.lt_size hj).ne, ht]

/-- The last slot can go if it is out of the order. -/
theorem ThreadedOn.vacate_of_last (h : c.ThreadedOn order) (hi : i + 1 = c.slots.size)
    (hout : i ∉ order) : (c.vacate i).ThreadedOn order := by
  rw [SlotCache.vacate_of_last hi]
  refine ⟨h.nodup, h.newest_eq, h.oldest_eq, fun m j hm => ?_⟩
  obtain ⟨t, ht, hlinks⟩ := h.slot m j hm
  have hne : j ≠ i := fun h' => hout (h' ▸ List.mem_of_getElem? hm)
  have hlt := (Array.getElem?_eq_some_iff.1 ht).1
  refine ⟨t, ?_, hlinks⟩
  change c.slots.pop[j]? = some t
  rw [Array.getElem?_pop, if_pos (by omega), ht]

/-- **Filling a gap** puts it in the place of the last slot. -/
theorem ThreadedOn.vacate (h : c.ThreadedOn order) (hi : i + 1 < c.slots.size) (hout : i ∉ order)
    (hn : order[n]? = some (c.slots.size - 1)) : (c.vacate i).ThreadedOn (order.set n i) := by
  obtain ⟨s, hs, hnewer, holder⟩ := h.slot n _ hn
  have hlength := (List.getElem?_eq_some_iff.1 hn).1
  refine ⟨h.nodup.set hout, ?_, ?_, fun m j hm => ?_⟩
  · rw [newest_vacate hi hs, hnewer, h.newest_eq]
    grind [before]
  · rw [oldest_vacate hi hs, holder, h.oldest_eq]
    grind [before]
  · rw [getElem?_vacate hi hs]
    by_cases hmn : n = m
    · subst hmn
      obtain rfl : i = j := by grind
      rw [if_pos hi, if_pos rfl]
      refine ⟨_, rfl, ?_, ?_⟩
      · simp only [hnewer, holder]
        grind [before]
      · simp only [hnewer, holder]
        grind [before]
    · have hm' : order[m]? = some j := by grind
      obtain ⟨t, ht, htnewer, htolder⟩ := h.slot m j hm'
      have hlast : j ≠ c.slots.size - 1 := fun h' => hmn (h.eq_of_getElem? hn (h' ▸ hm'))
      have hne : j ≠ i := fun h' => hout (h' ▸ List.mem_of_getElem? hm')
      have hlt := (Array.getElem?_eq_some_iff.1 ht).1
      rw [if_pos (by omega), if_neg hne, ht]
      -- no position stands twice in the list, so only the neighbours of the last slot are relinked
      have hafter : order[n + 1]? = some j → m = n + 1 := fun h' => h.eq_of_getElem? hm' h'
      have hbefore : order[n - 1]? = some j → m = n - 1 := fun h' => h.eq_of_getElem? hm' h'
      refine ⟨_, rfl, ?_, ?_⟩
      · simp only [holder, htnewer]
        grind [before]
      · simp only [hnewer, htolder]
        grind [before]

end OverlayCensus.SlotCache
