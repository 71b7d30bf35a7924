/-
  OverlayCensus — linked slots refine the list in order of use.

  `Refines`: the slots are a layout of the entries of a `Cache`, with as much capacity.
  Every operation keeps this, answers as on the list, and stays inside the array of slots
  (`Agrees`); so do all sequences of operations (`CacheOp`) from an empty cache on.

  * `Refines.promote`, `Refines.insertNew`: what using a key and entering one do;
  * `Refines.perform`, `Refines.performAll`: one operation, and all of them;
  * `performAll_empty`: all of them on an empty cache.
-/
import Mathlib
import OverlayCensus.Proofs.QueryLog
import OverlayCensus.Proofs.SlotBounds

namespace OverlayCensus

/-! ## The list at a key's place -/

namespace Cache

variable {κ ν : Type} [DecidableEq κ] {l : Cache κ ν} {k : κ} {v w : ν} {n : ℕ}

theorem without_eq_eraseIdx (hn : l.entries[n]? = some (k, v)) :
    without k l.entries = l.entries.eraseIdx n := by
  obtain ⟨hlt, he⟩ := List.getElem?_eq_some_iff.1 hn
  have hsplit : l.entries = l.entries.take n ++ (k, v) :: l.entries.drop (n + 1) := by
    rw [← he, List.getElem_cons_drop, List.take_append_drop]
  have hnot : k ∉ (l.entries.eraseIdx n).map Prod.fst := by
    have hnodup := l.distinct
    rw [hsplit, List.map_append, List.map_cons, List.nodup_middle, List.nodup_cons,
      ← List.map_append, ← List.eraseIdx_eq_take_drop_succ] at hnodup
    exact hnodup.1
  have hrest : (l.entries.eraseIdx n).filter (fun e => e.1 ≠ k) = l.entries.eraseIdx n :=
    List.filter_eq_self.2 fun e he => decide_eq_true fun h' => hnot (h' ▸ List.mem_map_of_mem he)
  rw [List.eraseIdx_eq_take_drop_succ] at hrest ⊢
  rw [without]
  conv_lhs => rw [hsplit]
  rw [List.filter_append, List.filter_cons_of_neg (by simp), ← List.filter_append, hrest]

theorem without_eq_self (h : l.get? k = none) : without k l.entries = l.entries := by
  refine List.filter_eq_self.2 fun e he => decide_eq_true ?_
  rintro rfl
  exact get?_eq_none_iff.1 h (List.mem_map_of_mem he)

theorem entries_use_of_getElem? (hn : l.entries[n]? = some (k, v)) :
    (l.use k w).entries = (k, w) :: l.entries.eraseIdx n := by
  have hlt := (List.getElem?_eq_some_iff.1 hn).1
  rw [entries_use, without_eq_eraseIdx hn, List.take_of_length_le]
  rw [List.length_cons, List.length_eraseIdx_of_lt hlt]
  have := l.length_le
  omega

theorem entries_use_of_not_isFull (h : l.get? k = none) (hroom : l.isFull = false) :
    (l.use k v).entries = (k, v) :: l.entries := by
  rw [isFull, decide_eq_false_iff_not] at hroom
  rw [entries_use, without_eq_self h, List.take_of_length_le]
  exact Nat.succ_le_of_lt (Nat.lt_of_not_le hroom)

theorem entries_use_of_isFull (h : l.get? k = none) (hfull : l.isFull = true) :
    (l.use k v).entries = (k, v) :: l.entries.eraseIdx (l.entries.length - 1) := by
  have hsize : l.capacity = l.entries.length :=
    Nat.le_antisymm (of_decide_eq_true hfull) l.length_le
  obtain ⟨m, hm⟩ := Nat.exists_eq_succ_of_ne_zero l.capacity_pos.ne'
  rw [entries_use, without_eq_self h, hm, List.take_succ_cons, ← hsize, hm, Nat.succ_sub_one,
    List.eraseIdx_eq_take_drop_succ, List.drop_eq_nil_of_le (by omega), List.append_nil]

/-- The list after removing keys one after the other. -/
def removeAll (l : Cache κ ν) (ks : List κ) : Cache κ ν :=
  ks.foldl (fun l k => (l.remove k).2) l

theorem capacity_removeAll (l : Cache κ ν) (ks : List κ) :
    (l.removeAll ks).capacity = l.capacity := by
  induction ks generalizing l with
  | nil => rfl
  | cons k ks ih => exact ih (l.remove k).2

theorem entries_removeAll (l : Cache κ ν) (ks : List κ) :
    (l.removeAll ks).entries = l.entries.filter fun e => e.1 ∉ ks := by
  induction ks generalizing l with
  | nil => simp [removeAll]
  | cons k ks ih =>
    have hremoved : (l.removeAll (k :: ks)).entries = ((l.remove k).2.removeAll ks).entries := rfl
    rw [hremoved, ih, entries_remove, without, List.filter_filter]
    refine List.filter_congr fun e _ => ?_
    simp [Bool.and_comm]

/-- Removing the keys of all values that fail a test leaves the others. -/
theorem entries_removeAll_doomed (l : Cache κ ν) (keep : ν → Bool) :
    (l.removeAll ((l.entries.filter fun e => !keep e.2).map Prod.fst)).entries =
      (l.retain keep).2.entries := by
  rw [entries_removeAll, entries_retain]
  refine List.filter_congr fun e he => ?_
  have hdoomed : e.1 ∈ (l.entries.filter fun e => !keep e.2).map Prod.fst ↔ keep e.2 = false := by
    constructor
    · intro hmem
      obtain ⟨e', he', hkey⟩ := List.mem_map.1 hmem
      obtain ⟨hmem', hfails⟩ := List.mem_filter.1 he'
      rw [← List.inj_on_of_nodup_map l.distinct hmem' he hkey]
      simpa using hfails
    · intro hfails
      exact List.mem_map_of_mem (List.mem_filter.2 ⟨he, by simp [hfails]⟩)
  cases hkeep : keep e.2 <;> simp [hdoomed, hkeep]

end Cache

namespace SlotCache

/-! ## Operations that fail outside the array -/

section
variable {κ ν : Type} [BEq κ] [Hashable κ]

/-- The value under a key, unless the index leads outside the array. -/
def look? (c : SlotCache κ ν) (k : κ) : Option (Option ν) :=
  match c.index[k]? with
  | some i => (c.valueAt i).map some
  | none => some none

/-- The slot for a new key, and the cache with room for it, unless the oldest slot of a full
    cache cannot be taken out. -/
def makeRoom? (c : SlotCache κ ν) : Option (Option ℕ × SlotCache κ ν) :=
  match if c.isFull then c.oldest else none with
  | none => some (none, c)
  | some i => do
    let c ← c.unlink? i
    let s ← c.slots[i]?
    return (some i, { c with index := c.index.erase s.key })

/-- Enters a key that has no value yet, unless there is no room to be made or a link leaves the
    array. -/
def insertNew? (c : SlotCache κ ν) (k : κ) (v : ν) : Option (SlotCache κ ν) := do
  match ← c.makeRoom? with
  | (some i, c) =>
    let written ← c.change? i fun s => { s with key := k, value := v }
    { written with index := written.index.insert k i }.pushFront? i
  | (none, c) =>
    let i := c.slots.size
    { c with
      slots := c.slots.push ⟨k, v, none, none⟩
      index := c.index.insert k i }.pushFront? i

/-- Reads a value and marks it as used, unless the index or a link leads outside the array. -/
def touch? (c : SlotCache κ ν) (k : κ) : Option (Option ν × SlotCache κ ν) :=
  match c.index[k]? with
  | some i => do
    let c ← c.promote? i
    let v ← c.valueAt i
    return (some v, c)
  | none => some (none, c)

/-- Writes a value, unless the index or a link leads outside the array; tells whether the key is
    new. -/
def put? (c : SlotCache κ ν) (k : κ) (v : ν) : Option (Bool × SlotCache κ ν) :=
  match c.index[k]? with
  | some i => do
    let c ← c.change? i fun s => { s with value := v }
    let c ← c.promote? i
    return (false, c)
  | none => do
    let c ← c.insertNew? k v
    return (true, c)

/-- Writes a value as `put?`, unless the key is new, the cache full and the coin shows heads:
    then nothing can fail. -/
def putSkipping? (c : SlotCache κ ν) (k : κ) (v : ν) (p : Binary64) (d : Draws) :
    Option (Bool × SlotCache κ ν × Draws) :=
  if !c.contains k && c.isFull then
    let (skipped, d) := d.coin p
    if skipped then some (false, c, d)
    else do
      let (new, c) ← c.put? k v
      return (new, c, d)
  else do
    let (new, c) ← c.put? k v
    return (new, c, d)

/-- Creates or updates a value, unless the index or a link leads outside the array; tells
    whether the key is new or `update` reports a change. -/
def upsert? (c : SlotCache κ ν) (k : κ) (create : ν) (update : ν → Bool × ν) :
    Option (Bool × SlotCache κ ν) :=
  match c.index[k]? with
  | some i => do
    let v ← c.valueAt i
    let c ← c.change? i fun s => { s with value := (update s.value).2 }
    let c ← c.promote? i
    return ((update v).1, c)
  | none => do
    let c ← c.insertNew? k create
    return (true, c)

/-- Removes a key, unless the index or a link leads outside the array; tells which value it
    had. -/
def remove? (c : SlotCache κ ν) (k : κ) : Option (Option ν × SlotCache κ ν) :=
  match c.index[k]? with
  | some i => do
    let v ← c.valueAt i
    let c ← { c with index := c.index.erase k }.unlink? i
    let c ← c.vacate? i
    return (some v, c)
  | none => some (none, c)

/-- Removes the values that fail `keep`, unless these cannot be collected or one of them cannot
    be removed; tells how many those are. -/
def retain? (c : SlotCache κ ν) (keep : ν → Bool) : Option (ℕ × SlotCache κ ν) := do
  let es ← c.entries?
  let doomed := (es.filter fun e => !keep e.2).map Prod.fst
  let c ← doomed.foldlM (fun c k => (c.remove? k).map Prod.snd) c
  return (doomed.length, c)

/-- Adds a member to the roster under a key, where `upsert?` does not fail. -/
def putMember? (c : SlotCache κ Roster) (k : κ) (name : String) (p : PeerAddress) :
    Option (Bool × SlotCache κ Roster) :=
  c.upsert? k ⟨name, .single p⟩ fun r => r.insert p

/-- Folds a report into the entry under a key, where `upsert?` does not fail. -/
def putDistance? (c : SlotCache κ DistanceEntry) (k : κ) (name : String) (distance : UInt32)
    (holder : PeerAddress) : Option (Bool × SlotCache κ DistanceEntry) :=
  c.upsert? k ⟨name, distance, .single holder⟩ fun e => e.merge distance holder

end

variable {κ ν : Type} [DecidableEq κ] [Hashable κ] {c : SlotCache κ ν} {l : Cache κ ν} {k : κ}
  {v : ν}

/-! ## Refinement -/

/-- The slots lay out the entries of a list with as much capacity. -/
structure Refines (c : SlotCache κ ν) (l : Cache κ ν) : Prop where
  capacity_eq : c.capacity = l.capacity
  layout : ∃ order, c.Layout order l.entries

/-- An operation stays inside the array, answers as on the list and leaves slots that
    refine the list. -/
structure Agrees {α : Type} (checked : Option (α × SlotCache κ ν)) (done : α × SlotCache κ ν)
    (listed : α × Cache κ ν) : Prop where
  inside : checked = some done
  answer : done.1 = listed.1
  refines : done.2.Refines listed.2

/-- A full cache gives up the slot of its last entry. -/
theorem makeRoom_of_isFull {order : List ℕ} {es : List (κ × ν)} {i n : ℕ} {old : κ} {w : ν}
    (h : c.Layout order es) (hfull : c.isFull = true) (hlast : n = es.length - 1)
    (hn : order[n]? = some i) (he : es[n]? = some (old, w)) :
    c.makeRoom = (some i, { c.unlink i with index := c.index.erase old }) ∧
      c.makeRoom? = some (some i, { c.unlink i with index := c.index.erase old }) := by
  have holdest : c.oldest = some i := by
    have hlt := (List.getElem?_eq_some_iff.1 hn).1
    rw [h.threaded.oldest_eq, before, if_neg (by omega), ← hn, hlast, h.length_order, h.length_es]
  have hentry : entryAt? (c.unlink i).slots i = some (old, w) := by
    rw [entryAt?_unlink, h.entryAt?_eq hn, he]
  obtain ⟨s, hs, hsame⟩ := Option.map_eq_some_iff.1 hentry
  obtain ⟨rfl, rfl⟩ := Prod.mk.inj hsame
  simp only [makeRoom, makeRoom?, hfull, if_true, holdest, hs, h.threaded.unlink?_eq hn,
    Option.bind_eq_bind, Option.bind_some, index_unlink]
  exact ⟨trivial, rfl⟩

namespace Refines

theorem size_eq (h : c.Refines l) : c.size = l.size := by
  obtain ⟨order, ho⟩ := h.layout
  exact ho.size_eq

theorem of_entries_eq {l' : Cache κ ν} (h : c.Refines l) (hcapacity : l'.capacity = l.capacity)
    (hentries : l'.entries = l.entries) : c.Refines l' :=
  ⟨h.capacity_eq.trans hcapacity.symm, hentries ▸ h.layout⟩

theorem entries_eq (h : c.Refines l) : c.entries = l.entries := by
  obtain ⟨order, ho⟩ := h.layout
  exact ho.entries_eq

theorem entries?_eq (h : c.Refines l) : c.entries? = some l.entries := by
  obtain ⟨order, ho⟩ := h.layout
  exact ho.entries?_eq

theorem isFull_eq (h : c.Refines l) : c.isFull = l.isFull := by
  rw [SlotCache.isFull, Cache.isFull, h.capacity_eq, h.size_eq]

/-- What the index and the list say about a key. -/
theorem lookup (h : c.Refines l) (k : κ) :
    (c.index[k]? = none ∧ l.get? k = none) ∨
      ∃ (order : List ℕ) (i n : ℕ) (v : ν), c.Layout order l.entries ∧ c.index[k]? = some i ∧
        order[n]? = some i ∧ l.entries[n]? = some (k, v) ∧ l.get? k = some v := by
  obtain ⟨order, ho⟩ := h.layout
  cases hk : c.index[k]? with
  | none => exact Or.inl ⟨rfl, Cache.get?_eq_none_iff.2 (ho.not_mem_keys hk)⟩
  | some i =>
    obtain ⟨n, v, hn, he⟩ := ho.exists_place hk
    exact Or.inr ⟨order, i, n, v, ho, rfl, hn, he,
      Cache.get?_eq_some_iff.2 (List.mem_of_getElem? he)⟩

theorem contains_eq (h : c.Refines l) (k : κ) : c.contains k = l.contains k := by
  rw [SlotCache.contains, Cache.contains, Std.HashMap.contains_eq_isSome_getElem?]
  rcases h.lookup k with ⟨hk, hl⟩ | ⟨order, i, n, v, -, hk, -, -, hl⟩
  · rw [hk, hl]
    rfl
  · rw [hk, hl]
    rfl

theorem look (h : c.Refines l) (k : κ) : c.look? k = some (c.get? k) ∧ c.get? k = l.get? k := by
  rcases h.lookup k with ⟨hk, hl⟩ | ⟨order, i, n, v, ho, hk, hn, he, hl⟩
  · rw [look?, SlotCache.get?, hk, hl]
    exact ⟨rfl, rfl⟩
  · simp only [look?, SlotCache.get?, hk, hl, Option.bind_some, ho.valueAt_eq hn he,
      Option.map_some, and_self]

/-- **Using a key** moves it to the front of the list. -/
theorem promote (h : c.Refines l) {order : List ℕ} {i n : ℕ} (ho : c.Layout order l.entries)
    (hn : order[n]? = some i) (he : l.entries[n]? = some (k, v)) :
    (c.promote i).Refines (l.use k v) := by
  refine ⟨by simp [h.capacity_eq], i :: order.eraseIdx n, ?_⟩
  rw [Cache.entries_use_of_getElem? he]
  exact ho.promote hn he

/-- **Writing under a key** that is there moves it to the front as well. -/
theorem rewrite (h : c.Refines l) {order : List ℕ} {i n : ℕ} (ho : c.Layout order l.entries)
    (hn : order[n]? = some i) (he : l.entries[n]? = some (k, v)) (g : ν → ν) :
    ((c.change i fun s => { s with value := g s.value }).promote i).Refines (l.use k (g v)) := by
  have hlt := (List.getElem?_eq_some_iff.1 he).1
  have hpromoted := (ho.replace hn he g).promote hn (List.getElem?_set_self hlt)
  refine ⟨by simp [change, h.capacity_eq], i :: order.eraseIdx n, ?_⟩
  rw [Cache.entries_use_of_getElem? he]
  rwa [List.eraseIdx_set_eq] at hpromoted

/-- The last entry of a full cache, and its slot. -/
theorem exists_last (h : c.Refines l) {order : List ℕ} (ho : c.Layout order l.entries)
    (hfull : c.isFull = true) :
    ∃ (n : ℕ) (old : κ) (w : ν) (i : ℕ), n = l.entries.length - 1 ∧ order[n]? = some i ∧
      l.entries[n]? = some (old, w) := by
  have hpos : 0 < l.entries.length := by
    rw [h.isFull_eq, Cache.isFull] at hfull
    exact l.capacity_pos.trans_le (of_decide_eq_true hfull)
  have horder : l.entries.length - 1 < order.length := by
    rw [ho.length_order, ← ho.length_es]
    omega
  exact ⟨l.entries.length - 1, _, _, _, rfl, List.getElem?_eq_getElem horder,
    List.getElem?_eq_getElem (by omega)⟩

/-- **Entering a key** in a new slot, or in that of the last entry if the cache is full. -/
theorem insertNew (h : c.Refines l) (hk : c.index[k]? = none) (hl : l.get? k = none) (v : ν) :
    c.insertNew? k v = some (c.insertNew k v) ∧ (c.insertNew k v).Refines (l.use k v) := by
  obtain ⟨order, ho⟩ := h.layout
  cases hfull : c.isFull with
  | false =>
    have hroom : c.makeRoom = (none, c) := by simp [makeRoom, hfull]
    have hroom? : c.makeRoom? = some (none, c) := by simp [makeRoom?, hfull]
    simp only [SlotCache.insertNew?, SlotCache.insertNew, hroom, hroom?, Option.bind_eq_bind,
      Option.bind_some]
    have hthreaded := ho.threaded.append ⟨k, v, none, none⟩
    refine ⟨ThreadedOn.pushFront?_eq (c := { c with
      slots := c.slots.push ⟨k, v, none, none⟩, index := c.index.insert k c.slots.size })
      hthreaded (by simp), by simp [h.capacity_eq], c.slots.size :: order, ?_⟩
    rw [Cache.entries_use_of_not_isFull hl (h.isFull_eq ▸ hfull)]
    exact ho.push hk v
  | true =>
    obtain ⟨n, old, w, i, hlast, hn, he⟩ := h.exists_last ho hfull
    obtain ⟨hroom, hroom?⟩ := makeRoom_of_isFull ho hfull hlast hn he
    have hlinked : (c.unlink i).ThreadedOn (order.eraseIdx n) := ho.threaded.unlink hn
    have hi : i < (c.unlink i).slots.size := by
      rw [size_unlink, ← ho.covers]
      exact List.mem_of_getElem? hn
    have hthreaded := hlinked.change (ho.not_mem_eraseIdx hn) fun s =>
      { s with key := k, value := v }
    simp only [SlotCache.insertNew?, SlotCache.insertNew, hroom, hroom?, Option.bind_eq_bind,
      Option.bind_some]
    rw [change?_eq (by exact hi)]
    refine ⟨ThreadedOn.pushFront?_eq (c := { (c.unlink i).change i fun s =>
      { s with key := k, value := v } with index := (c.index.erase old).insert k i })
      hthreaded (by simpa using hi), by simp [change, h.capacity_eq], i :: order.eraseIdx n, ?_⟩
    rw [Cache.entries_use_of_isFull hl (h.isFull_eq ▸ hfull), ← hlast]
    exact ho.reuse hk hn he v

/-! ## Operations -/

theorem touch (h : c.Refines l) (k : κ) : Agrees (c.touch? k) (c.touch k) (l.touch k) := by
  rcases h.lookup k with ⟨hk, hl⟩ | ⟨order, i, n, v, ho, hk, hn, he, hl⟩
  · simp only [touch?, SlotCache.touch, Cache.touch, hk, hl]
    exact ⟨rfl, rfl, h⟩
  · have hvalue := ho.valueAt_eq hn he
    have hpromoted : (c.promote i).valueAt i = some v := by
      rw [valueAt_eq_map, entryAt?_promote, ← valueAt_eq_map, hvalue]
    simp only [touch?, SlotCache.touch, Cache.touch, hk, hl, hvalue, hpromoted,
      ho.threaded.promote?_eq hn, Option.bind_eq_bind, Option.bind_some]
    exact ⟨rfl, rfl, h.promote ho hn he⟩

theorem put (h : c.Refines l) (k : κ) (v : ν) :
    Agrees (c.put? k v) (c.put k v) (l.put k v) := by
  rcases h.lookup k with ⟨hk, hl⟩ | ⟨order, i, n, w, ho, hk, hn, he, hl⟩
  · obtain ⟨hinside, hrefines⟩ := h.insertNew hk hl v
    simp only [put?, SlotCache.put, Cache.put, Cache.contains, hk, hl, hinside,
      Option.bind_eq_bind, Option.bind_some]
    exact ⟨rfl, rfl, hrefines⟩
  · have hi := ho.threaded.lt_size (List.mem_of_getElem? hn)
    simp only [put?, SlotCache.put, Cache.put, Cache.contains, hk, hl, change?_eq hi,
      (ho.replace hn he fun _ => v).threaded.promote?_eq hn, Option.bind_eq_bind, Option.bind_some]
    exact ⟨rfl, rfl, h.rewrite ho hn he fun _ => v⟩

theorem upsert (h : c.Refines l) (k : κ) (create : ν) (update : ν → Bool × ν) :
    Agrees (c.upsert? k create update) (c.upsert k create update) (l.upsert k create update) := by
  rcases h.lookup k with ⟨hk, hl⟩ | ⟨order, i, n, v, ho, hk, hn, he, hl⟩
  · obtain ⟨hinside, hrefines⟩ := h.insertNew hk hl create
    simp only [upsert?, SlotCache.upsert, Cache.upsert, hk, hl, hinside,
      Option.bind_eq_bind, Option.bind_some]
    exact ⟨rfl, rfl, hrefines⟩
  · have hi := ho.threaded.lt_size (List.mem_of_getElem? hn)
    simp only [upsert?, SlotCache.upsert, Cache.upsert, hk, hl, change?_eq hi,
      ho.valueAt_eq hn he, (ho.replace hn he fun v => (update v).2).threaded.promote?_eq hn,
      Option.bind_eq_bind, Option.bind_some]
    exact ⟨rfl, rfl, h.rewrite ho hn he fun v => (update v).2⟩

theorem remove (h : c.Refines l) (k : κ) : Agrees (c.remove? k) (c.remove k) (l.remove k) := by
  rcases h.lookup k with ⟨hk, hl⟩ | ⟨order, i, n, v, ho, hk, hn, he, hl⟩
  · have hsame : c.Refines (l.remove k).2 := h.of_entries_eq rfl (Cache.without_eq_self hl)
    simp only [remove?, SlotCache.remove, hk]
    exact ⟨rfl, hl.symm, hsame⟩
  · obtain ⟨order', ho'⟩ := ho.remove hn he
    have hrefines : (c.remove k).2.Refines (l.remove k).2 := by
      simp only [SlotCache.remove, hk]
      refine ⟨(by simp : _ = c.capacity).trans h.capacity_eq, order', ?_⟩
      rw [Cache.entries_remove, Cache.without_eq_eraseIdx he]
      exact ho'
    refine ⟨?_, ?_, hrefines⟩
    · have hlinked := ThreadedOn.unlink (c := { c with index := c.index.erase k }) ho.threaded hn
      have hi : i < c.slots.size := (ho.covers i).1 (List.mem_of_getElem? hn)
      have hlast : i + 1 < c.slots.size → c.slots.size - 1 ∈ order.eraseIdx n := fun hlt =>
        (mem_eraseIdx_iff ho.threaded.nodup hn).2 ⟨(ho.covers _).2 (by omega), by omega⟩
      simp only [remove?, SlotCache.remove, hk, ho.valueAt_eq hn he, Option.bind_eq_bind,
        Option.bind_some]
      rw [ThreadedOn.unlink?_eq (c := { c with index := c.index.erase k }) ho.threaded hn,
        Option.bind_some, hlinked.vacate?_eq (by simpa using hi) (by simpa using hlast)]
      rfl
    · simp only [SlotCache.remove, hk]
      exact (ho.valueAt_eq hn he).trans hl.symm

/-- Removing keys one after the other takes all their entries out of the list. -/
theorem removeAll (h : c.Refines l) (ks : List κ) :
    (ks.foldlM (fun c k => (c.remove? k).map Prod.snd) c) =
        some (ks.foldl (fun c k => (c.remove k).2) c) ∧
      (ks.foldl (fun c k => (c.remove k).2) c).Refines (l.removeAll ks) := by
  induction ks generalizing c l with
  | nil => exact ⟨rfl, h⟩
  | cons k ks ih =>
    obtain ⟨hinside, -, hrefines⟩ := h.remove k
    rw [List.foldlM_cons, hinside]
    exact ih hrefines

theorem retain (h : c.Refines l) (keep : ν → Bool) :
    Agrees (c.retain? keep) (c.retain keep) (l.retain keep) := by
  set doomed := (l.entries.filter fun e => !keep e.2).map Prod.fst with hdoomed
  obtain ⟨hinside, hrefines⟩ := h.removeAll doomed
  refine ⟨?_, ?_, ?_⟩
  · simp only [retain?, SlotCache.retain, h.entries?_eq, h.entries_eq, Option.bind_eq_bind,
      Option.bind_some]
    rw [← hdoomed, hinside]
    rfl
  · simp only [SlotCache.retain, h.entries_eq]
    have hsplit := List.length_eq_length_filter_add (l := l.entries) fun e => keep e.2
    rw [List.length_map, Cache.retain, Cache.size, Cache.size, Cache.restrict]
    dsimp only
    omega
  · simp only [SlotCache.retain, h.entries_eq]
    exact hrefines.of_entries_eq (l.capacity_removeAll doomed).symm
      (l.entries_removeAll_doomed keep).symm

theorem putSkipping (h : c.Refines l) (k : κ) (v : ν) (p : Binary64) (d : Draws) :
    ∃ (new : Bool) (c' : SlotCache κ ν) (l' : Cache κ ν) (rest : Draws),
      c.putSkipping? k v p d = some (new, c', rest) ∧ c.putSkipping k v p d = (new, c', rest) ∧
        l.putSkipping k v p d = (new, l', rest) ∧ c'.Refines l' := by
  obtain ⟨hinside, hanswer, hrefines⟩ := h.put k v
  simp only [putSkipping?, SlotCache.putSkipping, Cache.putSkipping, h.contains_eq, h.isFull_eq,
    hinside, hanswer]
  split_ifs
  · exact ⟨_, _, _, _, rfl, rfl, rfl, h⟩
  · exact ⟨(l.put k v).1, (c.put k v).2, (l.put k v).2, _, by simp [hanswer], rfl, rfl,
      hrefines⟩
  · exact ⟨(l.put k v).1, (c.put k v).2, (l.put k v).2, _, by simp [hanswer], rfl, rfl,
      hrefines⟩

end Refines
end SlotCache

/-! ## Runs -/

/-- An operation on a cache with keys `κ`, for the type of its values.  What a coin shows
    comes from the draws it is thrown with. -/
inductive CacheOp (κ : Type) : Type → Type 1
  | touch {ν : Type} (k : κ) : CacheOp κ ν
  | look {ν : Type} (k : κ) : CacheOp κ ν
  | contains {ν : Type} (k : κ) : CacheOp κ ν
  | put {ν : Type} (k : κ) (v : ν) : CacheOp κ ν
  | putSkipping {ν : Type} (k : κ) (v : ν) (p : Binary64) (d : Draws) : CacheOp κ ν
  | upsert {ν : Type} (k : κ) (create : ν) (update : ν → Bool × ν) : CacheOp κ ν
  | putMember (k : κ) (name : String) (p : PeerAddress) : CacheOp κ Roster
  | putDistance (k : κ) (name : String) (distance : UInt32) (holder : PeerAddress) :
      CacheOp κ DistanceEntry
  | remove {ν : Type} (k : κ) : CacheOp κ ν
  | retain {ν : Type} (keep : ν → Bool) : CacheOp κ ν

/-- What an operation returns. -/
inductive CacheAnswer (ν : Type)
  | value (v : Option ν)
  | flag (b : Bool)
  | drawn (b : Bool) (rest : Draws)
  | count (n : ℕ)

namespace Cache

variable {κ ν : Type} [DecidableEq κ]

/-- An operation on a list. -/
def perform (l : Cache κ ν) : CacheOp κ ν → CacheAnswer ν × Cache κ ν
  | .touch k => (l.touch k).map .value id
  | .look k => (.value (l.get? k), l)
  | .contains k => (.flag (l.contains k), l)
  | .put k v => (l.put k v).map .flag id
  | .putSkipping k v p d =>
    let (new, l, rest) := l.putSkipping k v p d
    (.drawn new rest, l)
  | .upsert k create update => (l.upsert k create update).map .flag id
  | .putMember k name p => (l.putMember k name p).map .flag id
  | .putDistance k name distance holder => (l.putDistance k name distance holder).map .flag id
  | .remove k => (l.remove k).map .value id
  | .retain keep => (l.retain keep).map .count id

/-- Operations one after the other. -/
def performAll (l : Cache κ ν) : List (CacheOp κ ν) → List (CacheAnswer ν) × Cache κ ν
  | [] => ([], l)
  | op :: ops =>
    let (answer, l) := l.perform op
    (l.performAll ops).map (answer :: ·) id

theorem capacity_perform (l : Cache κ ν) (op : CacheOp κ ν) :
    (l.perform op).2.capacity = l.capacity := by
  cases op with
  | touch k =>
    simp only [perform, touch]
    split <;> rfl
  | putSkipping k v p d =>
    simp only [perform, putSkipping]
    split_ifs <;> rfl
  | upsert k create update => exact capacity_upsert l k create update
  | putMember k name p => exact capacity_upsert l k ⟨name, .single p⟩ fun r => r.insert p
  | putDistance k name distance holder =>
    exact capacity_upsert l k ⟨name, distance, .single holder⟩ fun e => e.merge distance holder
  | look | contains | put | remove | retain => rfl

theorem capacity_performAll (l : Cache κ ν) (ops : List (CacheOp κ ν)) :
    (l.performAll ops).2.capacity = l.capacity := by
  induction ops generalizing l with
  | nil => rfl
  | cons op ops ih => exact (ih (l.perform op).2).trans (l.capacity_perform op)

end Cache

namespace SlotCache

section
variable {κ ν : Type} [BEq κ] [Hashable κ]

/-- An operation on slots. -/
def perform (c : SlotCache κ ν) : CacheOp κ ν → CacheAnswer ν × SlotCache κ ν
  | .touch k => (c.touch k).map .value id
  | .look k => (.value (c.get? k), c)
  | .contains k => (.flag (c.contains k), c)
  | .put k v => (c.put k v).map .flag id
  | .putSkipping k v p d =>
    let (new, c, rest) := c.putSkipping k v p d
    (.drawn new rest, c)
  | .upsert k create update => (c.upsert k create update).map .flag id
  | .putMember k name p => (c.putMember k name p).map .flag id
  | .putDistance k name distance holder => (c.putDistance k name distance holder).map .flag id
  | .remove k => (c.remove k).map .value id
  | .retain keep => (c.retain keep).map .count id

/-- An operation on slots that fails if it meets a slot outside the array. -/
def perform? (c : SlotCache κ ν) : CacheOp κ ν → Option (CacheAnswer ν × SlotCache κ ν)
  | .touch k => (c.touch? k).map (Prod.map .value id)
  | .look k => (c.look? k).map fun v => (.value v, c)
  | .contains k => some (.flag (c.contains k), c)
  | .put k v => (c.put? k v).map (Prod.map .flag id)
  | .putSkipping k v p d => do
    let (new, c, rest) ← c.putSkipping? k v p d
    return (.drawn new rest, c)
  | .upsert k create update => (c.upsert? k create update).map (Prod.map .flag id)
  | .putMember k name p => (c.putMember? k name p).map (Prod.map .flag id)
  | .putDistance k name distance holder =>
    (c.putDistance? k name distance holder).map (Prod.map .flag id)
  | .remove k => (c.remove? k).map (Prod.map .value id)
  | .retain keep => (c.retain? keep).map (Prod.map .count id)

/-- Operations one after the other. -/
def performAll (c : SlotCache κ ν) : List (CacheOp κ ν) → List (CacheAnswer ν) × SlotCache κ ν
  | [] => ([], c)
  | op :: ops =>
    let (answer, c) := c.perform op
    (c.performAll ops).map (answer :: ·) id

/-- Operations one after the other, until one fails. -/
def performAll? (c : SlotCache κ ν) :
    List (CacheOp κ ν) → Option (List (CacheAnswer ν) × SlotCache κ ν)
  | [] => some ([], c)
  | op :: ops => do
    let (answer, c) ← c.perform? op
    let (answers, c) ← c.performAll? ops
    return (answer :: answers, c)

end

variable {κ ν : Type} [DecidableEq κ] [Hashable κ] {c : SlotCache κ ν} {l : Cache κ ν}

theorem Agrees.map {α β : Type} {checked : Option (α × SlotCache κ ν)} {done : α × SlotCache κ ν}
    {listed : α × Cache κ ν} (h : Agrees checked done listed) (f : α → β) :
    Agrees (checked.map (Prod.map f id)) (done.map f id) (listed.map f id) :=
  ⟨by rw [h.inside]; rfl, congrArg f h.answer, h.refines⟩

/-- **One operation** on slots is the operation on the list. -/
theorem Refines.perform (h : c.Refines l) (op : CacheOp κ ν) :
    Agrees (c.perform? op) (c.perform op) (l.perform op) := by
  cases op with
  | touch k => exact (h.touch k).map _
  | look k =>
    obtain ⟨hinside, hanswer⟩ := h.look k
    simp only [SlotCache.perform?, SlotCache.perform, Cache.perform, hinside]
    exact ⟨rfl, congrArg CacheAnswer.value hanswer, h⟩
  | contains k => exact ⟨rfl, congrArg CacheAnswer.flag (h.contains_eq k), h⟩
  | put k v => exact (h.put k v).map _
  | putSkipping k v p d =>
    obtain ⟨new, c', l', rest, hinside, hdone, hlisted, hrefines⟩ := h.putSkipping k v p d
    simp only [SlotCache.perform?, SlotCache.perform, Cache.perform, hinside, hdone, hlisted]
    exact ⟨rfl, rfl, hrefines⟩
  | upsert k create update => exact (h.upsert k create update).map _
  | putMember k name p => exact (h.upsert k _ _).map _
  | putDistance k name distance holder => exact (h.upsert k _ _).map _
  | remove k => exact (h.remove k).map _
  | retain keep => exact (h.retain keep).map _

theorem Refines.performAll (h : c.Refines l) (ops : List (CacheOp κ ν)) :
    Agrees (c.performAll? ops) (c.performAll ops) (l.performAll ops) := by
  induction ops generalizing c l with
  | nil => exact ⟨rfl, rfl, h⟩
  | cons op ops ih =>
    obtain ⟨hinside, hanswer, hrefines⟩ := h.perform op
    obtain ⟨hinsides, hanswers, hend⟩ := ih hrefines
    refine ⟨?_, ?_, hend⟩
    · simp only [SlotCache.performAll?, hinside, hinsides, Option.bind_eq_bind, Option.bind_some]
      rfl
    · exact congrArg₂ List.cons hanswer hanswers

theorem refines_empty (capacity : ℕ) :
    (empty capacity : SlotCache κ ν).Refines (Cache.empty capacity) := by
  refine ⟨rfl, [], ⟨List.nodup_nil, rfl, rfl, fun n i hn => by simp at hn⟩, fun i => ?_, rfl, ?_⟩
  · simp [empty]
  · refine ⟨fun k i => ?_, ?_⟩
    · simp [empty, entryAt?]
    · simp [empty]

/-- **Linked slots are the list in order of use.**  From an empty cache on, any operations
    on the slots return what they return on a list of distinct keys with room for
    `max capacity 1` entries, and leave the slots with the entries of the list.  They never
    leave the array of slots, nor does reading the entries, which ends after as many slots
    as there are: the slots are linked in both directions on a list of all of them without
    repeats. -/
theorem performAll_empty (capacity : ℕ) (ops : List (CacheOp κ ν)) :
    let slots := (empty capacity : SlotCache κ ν).performAll ops
    let list := (Cache.empty capacity : Cache κ ν).performAll ops
    slots.1 = list.1 ∧ slots.2.size = list.2.size ∧ slots.2.entries = list.2.entries ∧
      list.2.capacity = max capacity 1 ∧
      (empty capacity : SlotCache κ ν).performAll? ops = some slots ∧
      slots.2.entries? = some slots.2.entries ∧ ∃ order, slots.2.Layout order list.2.entries := by
  intro slots list
  obtain ⟨hinside, hanswers, hrefines⟩ := (refines_empty capacity).performAll ops
  refine ⟨hanswers, hrefines.size_eq, hrefines.entries_eq, Cache.capacity_performAll _ ops,
    hinside, ?_, hrefines.layout⟩
  rw [hrefines.entries?_eq, hrefines.entries_eq]

end SlotCache

end OverlayCensus
