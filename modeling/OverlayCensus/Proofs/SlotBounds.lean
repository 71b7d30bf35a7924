/-
  OverlayCensus — slots that are really there.

  A slot number outside the array reads as nothing and is written without effect.  Every
  step that follows a number has a variant here that fails instead; on threaded slots no
  variant fails, and each gives what the step gives.

  * `ThreadedOn.promote?_eq`, `ThreadedOn.vacate?_eq`: changes of order;
  * `Layout.entries?_eq`: reading all entries, which fails as well if there are more slots
    to follow than there are slots.
-/
import Mathlib
import OverlayCensus.Proofs.SlotLayout

namespace OverlayCensus.SlotCache

variable {κ ν : Type}

/-- The entries from a slot on, unless a link leaves the array or there are more than `fuel`
    of them. -/
def follow? (slots : Array (Slot κ ν)) : ℕ → Option ℕ → Option (List (κ × ν))
  | _, none => some []
  | 0, some _ => none
  | fuel + 1, some i => do
    let s ← slots[i]?
    let rest ← follow? slots fuel s.older
    return (s.key, s.value) :: rest

theorem Threaded.follow?_eq {slots : Array (Slot κ ν)} {newest oldest : Option ℕ}
    {order : List ℕ} (h : Threaded slots newest oldest order) :
    ∀ fuel n, order.length ≤ n + fuel →
      follow? slots fuel order[n]? = some (follow slots fuel order[n]?)
  | 0, n, hfuel => by
    rw [List.getElem?_eq_none (show order.length ≤ n from hfuel)]
    rfl
  | fuel + 1, n, hfuel => by
    cases hn : order[n]? with
    | none => rfl
    | some i =>
      obtain ⟨s, hs, -, holder⟩ := h.slot n i hn
      simp only [follow?, follow, hs, holder, h.follow?_eq fuel (n + 1) (by omega),
        Option.bind_eq_bind, Option.bind_some]
      rfl

section
variable [BEq κ] [Hashable κ]

/-- All entries, most recently used first, unless the links from the newest slot on leave the
    array or go on after as many entries as there are slots. -/
def entries? (c : SlotCache κ ν) : Option (List (κ × ν)) :=
  follow? c.slots c.slots.size c.newest

/-- Changes a slot, unless it is outside the array. -/
def change? (c : SlotCache κ ν) (i : ℕ) (f : Slot κ ν → Slot κ ν) : Option (SlotCache κ ν) :=
  if i < c.slots.size then some (c.change i f) else none

/-- Writes what is older than a slot, which may not be outside the array, or what is the newest if
    there is no slot. -/
def setOlder? (c : SlotCache κ ν) (spot link : Option ℕ) : Option (SlotCache κ ν) :=
  match spot with
  | some i => c.change? i fun s => { s with older := link }
  | none => some { c with newest := link }

/-- Writes what is newer than a slot, which may not be outside the array, or what is the oldest if
    there is no slot. -/
def setNewer? (c : SlotCache κ ν) (spot link : Option ℕ) : Option (SlotCache κ ν) :=
  match spot with
  | some i => c.change? i fun s => { s with newer := link }
  | none => some { c with oldest := link }

/-- Takes a slot out of the order, unless it or a slot that it is linked to is outside the
    array. -/
def unlink? (c : SlotCache κ ν) (i : ℕ) : Option (SlotCache κ ν) := do
  let s ← c.slots[i]?
  let c ← c.setOlder? s.newer s.older
  let c ← c.setNewer? s.older s.newer
  c.change? i fun s => { s with newer := none, older := none }

/-- Puts a slot in front, unless it or what has been the newest slot is outside the array. -/
def pushFront? (c : SlotCache κ ν) (i : ℕ) : Option (SlotCache κ ν) := do
  let placed ← c.change? i fun s => { s with newer := none, older := c.newest }
  let linked ←
    match c.newest with
    | some first => placed.change? first fun s => { s with newer := some i }
    | none => some placed
  return { linked with newest := some i, oldest := c.oldest.or (some i) }

/-- Moves a slot to the front, unless a slot that has to be written is outside the array.  The
    newest slot stays, and is not looked at. -/
def promote? (c : SlotCache κ ν) (i : ℕ) : Option (SlotCache κ ν) :=
  if c.newest = some i then some c
  else do
    let c ← c.unlink? i
    c.pushFront? i

/-- Fills the gap at a slot with the last slot, unless there is no last slot, or the gap or a
    slot that the last one is linked to is outside the array. -/
def vacate? (c : SlotCache κ ν) (i : ℕ) : Option (SlotCache κ ν) := do
  let last ← c.slots.back?
  if i < c.slots.size then
    let shrunk := { c with slots := (c.slots.setIfInBounds i last).pop }
    if i + 1 = c.slots.size then some shrunk
    else do
      let linked ← shrunk.setOlder? last.newer (some i)
      let linked ← linked.setNewer? last.older (some i)
      return { linked with index := c.index.insert last.key i }
  else none

end

variable [DecidableEq κ] [Hashable κ] {c : SlotCache κ ν} {order : List ℕ} {es : List (κ × ν)}
  {i j n : ℕ} {s : Slot κ ν}

/-! ## Steps inside the array -/

theorem change?_eq (hi : i < c.slots.size) (f : Slot κ ν → Slot κ ν) :
    c.change? i f = some (c.change i f) :=
  if_pos hi

theorem setOlder?_eq {spot : Option ℕ} (h : ∀ i, spot = some i → i < c.slots.size)
    (link : Option ℕ) : c.setOlder? spot link = some (c.setOlder spot link) := by
  cases spot with
  | none => rfl
  | some i => exact change?_eq (h i rfl) _

theorem setNewer?_eq {spot : Option ℕ} (h : ∀ i, spot = some i → i < c.slots.size)
    (link : Option ℕ) : c.setNewer? spot link = some (c.setNewer spot link) := by
  cases spot with
  | none => rfl
  | some i => exact change?_eq (h i rfl) _

@[simp] theorem size_change (c : SlotCache κ ν) (i : ℕ) (f : Slot κ ν → Slot κ ν) :
    (c.change i f).slots.size = c.slots.size :=
  Array.size_modify ..

@[simp] theorem size_setOlder (c : SlotCache κ ν) (spot link : Option ℕ) :
    (c.setOlder spot link).slots.size = c.slots.size :=
  size_eq_of_entryAt? (entryAt?_setOlder c spot link)

@[simp] theorem size_setNewer (c : SlotCache κ ν) (spot link : Option ℕ) :
    (c.setNewer spot link).slots.size = c.slots.size :=
  size_eq_of_entryAt? (entryAt?_setNewer c spot link)

@[simp] theorem size_unlink (c : SlotCache κ ν) (i : ℕ) :
    (c.unlink i).slots.size = c.slots.size :=
  size_eq_of_entryAt? (entryAt?_unlink c i)

theorem unlink?_eq (hs : c.slots[i]? = some s)
    (hnewer : ∀ j, s.newer = some j → j < c.slots.size)
    (holder : ∀ j, s.older = some j → j < c.slots.size) :
    c.unlink? i = some (c.unlink i) := by
  have hi := (Array.getElem?_eq_some_iff.1 hs).1
  simp only [unlink?, unlink, hs, Option.bind_eq_bind, Option.bind_some]
  rw [setOlder?_eq hnewer, Option.bind_some, setNewer?_eq (by simpa using holder),
    Option.bind_some, change?_eq (by simpa using hi)]

theorem pushFront?_eq (hi : i < c.slots.size)
    (hnewest : ∀ j, c.newest = some j → j < c.slots.size) :
    c.pushFront? i = some (c.pushFront i) := by
  simp only [pushFront?, pushFront, Option.bind_eq_bind]
  rw [change?_eq hi, Option.bind_some]
  cases hfirst : c.newest with
  | none => rfl
  | some first =>
    simp only
    rw [change?_eq (by simpa using hnewest first hfirst), Option.bind_some]
    rfl

/-! ## Threads -/

namespace ThreadedOn

theorem newest_lt (h : c.ThreadedOn order) (hj : c.newest = some j) : j < c.slots.size := by
  rw [h.newest_eq] at hj
  exact h.lt_size (List.mem_of_getElem? hj)

theorem newer_eq (h : c.ThreadedOn order) (hn : order[n]? = some i) (hs : c.slots[i]? = some s) :
    s.newer = before order n := by
  obtain ⟨t, ht, hnewer, -⟩ := h.slot n i hn
  rw [← hnewer, Option.some.inj (hs.symm.trans ht)]

theorem older_eq (h : c.ThreadedOn order) (hn : order[n]? = some i) (hs : c.slots[i]? = some s) :
    s.older = order[n + 1]? := by
  obtain ⟨t, ht, -, holder⟩ := h.slot n i hn
  rw [← holder, Option.some.inj (hs.symm.trans ht)]

/-- The links of a slot lead to other slots. -/
theorem newer_mem (h : c.ThreadedOn order) (hn : order[n]? = some i)
    (hs : c.slots[i]? = some s) (hj : s.newer = some j) : j ∈ order ∧ j ≠ i := by
  rw [h.newer_eq hn hs, before] at hj
  split_ifs at hj with hzero
  refine ⟨List.mem_of_getElem? hj, ?_⟩
  rintro rfl
  have := h.eq_of_getElem? hj hn
  omega

theorem older_mem (h : c.ThreadedOn order) (hn : order[n]? = some i)
    (hs : c.slots[i]? = some s) (hj : s.older = some j) : j ∈ order ∧ j ≠ i := by
  rw [h.older_eq hn hs] at hj
  refine ⟨List.mem_of_getElem? hj, ?_⟩
  rintro rfl
  have := h.eq_of_getElem? hj hn
  omega

theorem unlink?_eq (h : c.ThreadedOn order) (hn : order[n]? = some i) :
    c.unlink? i = some (c.unlink i) := by
  obtain ⟨s, hs, -⟩ := h.slot n i hn
  exact SlotCache.unlink?_eq hs (fun j hj => h.lt_size (h.newer_mem hn hs hj).1)
    fun j hj => h.lt_size (h.older_mem hn hs hj).1

theorem pushFront?_eq (h : c.ThreadedOn order) (hi : i < c.slots.size) :
    c.pushFront? i = some (c.pushFront i) :=
  SlotCache.pushFront?_eq hi fun _ => h.newest_lt

theorem promote?_eq (h : c.ThreadedOn order) (hn : order[n]? = some i) :
    c.promote? i = some (c.promote i) := by
  have hi := h.lt_size (List.mem_of_getElem? hn)
  unfold SlotCache.promote? SlotCache.promote
  split_ifs
  · rfl
  · rw [h.unlink?_eq hn]
    exact (h.unlink hn).pushFront?_eq (by simpa using hi)

/-- Filling a gap stays in the array, although that has one slot less by then. -/
theorem vacate?_eq (h : c.ThreadedOn order) (hi : i < c.slots.size)
    (hlast : i + 1 < c.slots.size → c.slots.size - 1 ∈ order) :
    c.vacate? i = some (c.vacate i) := by
  obtain ⟨s, hs⟩ : ∃ s, c.slots[c.slots.size - 1]? = some s :=
    ⟨_, Array.getElem?_eq_getElem (by omega)⟩
  have hback : c.slots.back? = some s := by rw [Array.back?_eq_getElem?, hs]
  simp only [SlotCache.vacate?, SlotCache.vacate, hback, Option.bind_eq_bind, Option.bind_some, hi,
    if_true]
  split_ifs with hgap
  · rfl
  · obtain ⟨n, hn⟩ := List.mem_iff_getElem?.1 (hlast (by omega))
    have hshrunk : (c.slots.setIfInBounds i s).pop.size = c.slots.size - 1 := by simp
    have hin : ∀ j, j ∈ order ∧ j ≠ c.slots.size - 1 →
        j < (c.slots.setIfInBounds i s).pop.size := by
      rintro j ⟨hj, hne⟩
      have := h.lt_size hj
      omega
    rw [setOlder?_eq fun j hj => hin j (h.newer_mem hn hs hj), Option.bind_some,
      setNewer?_eq fun j hj => by simpa using hin j (h.older_mem hn hs hj), Option.bind_some]
    rfl

end ThreadedOn

/-- **The links end** after as many slots as there are. -/
theorem Layout.entries?_eq (h : c.Layout order es) : c.entries? = some es := by
  have hfollow := h.threaded.follow?_eq c.slots.size 0 (by rw [h.length_order]; omega)
  rw [entries?, h.threaded.newest_eq, hfollow, ← h.threaded.newest_eq]
  exact congrArg some h.entries_eq

end OverlayCensus.SlotCache
