/-
  OverlayCensus — bounded caches in order of use.

  A cache holds at most `capacity` values under distinct keys, listed from the most
  to the least recently used.  Using a key moves it to the front; a new key in a
  full cache pushes out the last one.

  * `use` puts a value in front, and every operation that uses a key goes through
    it; `get?` and `contains` look without using;
  * `entries_use`, `entries_remove` and `entries_retain` say what the operations do
    to the list;
  * `putSkipping` draws a coin before it pushes a key out, and only then.
-/
import OverlayCensus.Draws

namespace OverlayCensus

/-- A cache, most recently used entry first. -/
@[ext] structure Cache (κ ν : Type) where
  capacity : Nat
  entries : List (κ × ν)
  capacity_pos : 0 < capacity
  distinct : (entries.map Prod.fst).Nodup
  length_le : entries.length ≤ capacity

namespace Cache

section
variable {κ ν : Type}

/-- The cache without entries.  It has room for at least one. -/
def empty (capacity : Nat) : Cache κ ν :=
  ⟨max capacity 1, [], by omega, .nil, by simp⟩

@[simp] theorem entries_empty (n : Nat) : (empty n : Cache κ ν).entries = [] := rfl

@[simp] theorem capacity_empty (n : Nat) : (empty n : Cache κ ν).capacity = max n 1 := rfl

theorem nodup_sublist {es fs : List (κ × ν)} (h : (fs.map Prod.fst).Nodup) (hs : es.Sublist fs) :
    (es.map Prod.fst).Nodup :=
  h.sublist (hs.map _)

end

variable {κ ν : Type} [DecidableEq κ]

/-! ## Looking -/

/-- The number of entries. -/
def size (c : Cache κ ν) : Nat :=
  c.entries.length

/-- Whether a new key would push one out. -/
def isFull (c : Cache κ ν) : Bool :=
  c.capacity ≤ c.size

/-- The keys, most recently used first. -/
def keys (c : Cache κ ν) : List κ :=
  c.entries.map Prod.fst

/-- The values, most recently used first. -/
def values (c : Cache κ ν) : List ν :=
  c.entries.map Prod.snd

/-- The value under a key.  The order of use stays. -/
def get? (c : Cache κ ν) (k : κ) : Option ν :=
  (c.entries.find? fun e => e.1 = k).map Prod.snd

/-- Whether a key has a value. -/
def contains (c : Cache κ ν) (k : κ) : Bool :=
  (c.get? k).isSome

/-! ## Changing -/

/-- Entries without the one of a key. -/
def without (k : κ) (es : List (κ × ν)) : List (κ × ν) :=
  es.filter fun e => e.1 ≠ k

theorem nodup_cons_without {k : κ} {v : ν} {es : List (κ × ν)} (h : (es.map Prod.fst).Nodup) :
    (((k, v) :: without k es).map Prod.fst).Nodup := by
  rw [List.map_cons, List.nodup_cons]
  refine ⟨?_, nodup_sublist h List.filter_sublist⟩
  simp [without]

/-- The cache with a value under a key, as the most recently used entry. -/
def use (c : Cache κ ν) (k : κ) (v : ν) : Cache κ ν where
  capacity := c.capacity
  entries := ((k, v) :: without k c.entries).take c.capacity
  capacity_pos := c.capacity_pos
  distinct := nodup_sublist (nodup_cons_without c.distinct) (List.take_sublist _ _)
  length_le := List.length_take_le _ _

/-- The entries in `es`, which are some of the cache's in the same order. -/
def restrict (c : Cache κ ν) (es : List (κ × ν)) (h : es.Sublist c.entries) : Cache κ ν where
  capacity := c.capacity
  entries := es
  capacity_pos := c.capacity_pos
  distinct := nodup_sublist c.distinct h
  length_le := Nat.le_trans h.length_le c.length_le

/-- Reads a value and marks it as used. -/
def touch (c : Cache κ ν) (k : κ) : Option ν × Cache κ ν :=
  match c.get? k with
  | some v => (some v, c.use k v)
  | none => (none, c)

/-- Writes a value; tells whether the key is new. -/
def put (c : Cache κ ν) (k : κ) (v : ν) : Bool × Cache κ ν :=
  (!c.contains k, c.use k v)

/-- Writes a value, unless the key is new, the cache full and the coin of
    probability `p` shows heads.  The coin is drawn only if it can matter. -/
def putSkipping (c : Cache κ ν) (k : κ) (v : ν) (p : Binary64) (d : Draws) :
    Bool × Cache κ ν × Draws :=
  if !c.contains k && c.isFull then
    let (skipped, d) := d.coin p
    if skipped then (false, c, d)
    else
      let (new, c) := c.put k v
      (new, c, d)
  else
    let (new, c) := c.put k v
    (new, c, d)

/-- Creates or updates a value; tells whether the key is new or `update` reports a
    change. -/
def upsert (c : Cache κ ν) (k : κ) (create : ν) (update : ν → Bool × ν) : Bool × Cache κ ν :=
  match c.get? k with
  | some v =>
    let (changed, v) := update v
    (changed, c.use k v)
  | none => (true, c.use k create)

/-- Removes a key; tells which value it had. -/
def remove (c : Cache κ ν) (k : κ) : Option ν × Cache κ ν :=
  (c.get? k, c.restrict (without k c.entries) List.filter_sublist)

/-- Removes the values that fail `keep`; tells how many those are. -/
def retain (c : Cache κ ν) (keep : ν → Bool) : Nat × Cache κ ν :=
  let kept := c.restrict (c.entries.filter fun e => keep e.2) List.filter_sublist
  (c.size - kept.size, kept)

/-! ## What the operations do to the list -/

@[simp] theorem entries_use (c : Cache κ ν) (k : κ) (v : ν) :
    (c.use k v).entries = ((k, v) :: without k c.entries).take c.capacity := rfl

@[simp] theorem capacity_use (c : Cache κ ν) (k : κ) (v : ν) :
    (c.use k v).capacity = c.capacity := rfl

@[simp] theorem entries_remove (c : Cache κ ν) (k : κ) :
    (c.remove k).2.entries = without k c.entries := rfl

omit [DecidableEq κ] in
@[simp] theorem entries_retain (c : Cache κ ν) (keep : ν → Bool) :
    (c.retain keep).2.entries = c.entries.filter fun e => keep e.2 := rfl

/-- An entry after a use is the used one or was there before. -/
theorem mem_entries_use {c : Cache κ ν} {k : κ} {v : ν} {e : κ × ν}
    (h : e ∈ (c.use k v).entries) : e = (k, v) ∨ e ∈ c.entries := by
  rcases List.mem_cons.1 (List.mem_of_mem_take h) with h | h
  · exact .inl h
  · exact .inr (List.mem_filter.1 h).1

theorem mem_of_get? {c : Cache κ ν} {k : κ} {v : ν} (h : c.get? k = some v) :
    (k, v) ∈ c.entries := by
  obtain ⟨⟨k', v'⟩, he, rfl⟩ := Option.map_eq_some_iff.1 h
  have hk : k' = k := by simpa using List.find?_some he
  subst hk
  exact List.mem_of_find?_eq_some he

theorem mem_entries_touch {c : Cache κ ν} {k : κ} {e : κ × ν}
    (h : e ∈ (c.touch k).2.entries) : e ∈ c.entries := by
  unfold touch at h
  split at h
  · next v hv =>
    rcases mem_entries_use h with rfl | h
    · exact mem_of_get? hv
    · exact h
  · exact h

theorem mem_entries_put {c : Cache κ ν} {k : κ} {v : ν} {e : κ × ν}
    (h : e ∈ (c.put k v).2.entries) : e = (k, v) ∨ e ∈ c.entries :=
  mem_entries_use h

theorem mem_entries_putSkipping {c : Cache κ ν} {k : κ} {v : ν} {p : Binary64} {d : Draws}
    {e : κ × ν} (h : e ∈ (c.putSkipping k v p d).2.1.entries) : e = (k, v) ∨ e ∈ c.entries := by
  unfold putSkipping at h
  split at h
  · simp only at h
    split at h
    · exact .inr h
    · exact mem_entries_put h
  · exact mem_entries_put h

/-- An entry after an update was there before, was created or is an updated one. -/
theorem mem_entries_upsert {c : Cache κ ν} {k : κ} {create : ν} {update : ν → Bool × ν}
    {e : κ × ν} (h : e ∈ (c.upsert k create update).2.entries) :
    e ∈ c.entries ∨ e = (k, create) ∨ ∃ v, (k, v) ∈ c.entries ∧ e = (k, (update v).2) := by
  unfold upsert at h
  split at h
  · next v hv =>
    rcases mem_entries_use h with h | h
    · exact .inr (.inr ⟨v, mem_of_get? hv, h⟩)
    · exact .inl h
  · rcases mem_entries_use h with h | h
    · exact .inr (.inl h)
    · exact .inl h

omit [DecidableEq κ] in
theorem mem_entries_retain {c : Cache κ ν} {keep : ν → Bool} {e : κ × ν} :
    e ∈ (c.retain keep).2.entries ↔ e ∈ c.entries ∧ keep e.2 :=
  List.mem_filter

end Cache

end OverlayCensus
