/-
  OverlayCensus — how linked slots lay out a list of entries.

  The slots of a cache are threaded on a list of all their positions, and read in that
  order they show a list of entries, each of which the index finds (`Layout`).  What is
  done to the slots is done to the list.

  * `Layout.entries_eq`, `Layout.size_eq`, `Layout.exists_place`: the list read off the slots;
  * `Layout.promote`, `Layout.replace`, `Layout.push`, `Layout.reuse`, `Layout.remove`: the
    steps on slots as steps on the list; a removal goes by way of slots with a gap (`Gapped`).
-/
import Mathlib
import OverlayCensus.Proofs.SlotLinks

namespace OverlayCensus.SlotCache

variable {κ ν : Type}

/-! ## Entries -/

/-- The entry in a slot. -/
def entryAt? (slots : Array (Slot κ ν)) (i : ℕ) : Option (κ × ν) :=
  slots[i]?.map fun s => (s.key, s.value)

section
variable {slots slots' : Array (Slot κ ν)} {i : ℕ}

theorem lt_size_of_entryAt? {e : κ × ν} (h : entryAt? slots i = some e) : i < slots.size := by
  obtain ⟨s, hs, -⟩ := Option.map_eq_some_iff.1 h
  exact (Array.getElem?_eq_some_iff.1 hs).1

theorem entryAt?_of_le (h : slots.size ≤ i) : entryAt? slots i = none := by
  rw [entryAt?, Array.getElem?_eq_none h]
  rfl

theorem size_eq_of_entryAt? (h : ∀ j, entryAt? slots' j = entryAt? slots j) :
    slots'.size = slots.size := by
  have hlt : ∀ (a : Array (Slot κ ν)) (j : ℕ), (entryAt? a j).isSome ↔ j < a.size := by
    simp [entryAt?]
  have hsame : ∀ j, j < slots'.size ↔ j < slots.size := fun j => by rw [← hlt, ← hlt, h]
  exact Nat.le_antisymm (Nat.le_of_not_lt fun h' => absurd ((hsame _).1 h') (lt_irrefl _))
    (Nat.le_of_not_lt fun h' => absurd ((hsame _).2 h') (lt_irrefl _))

theorem entryAt?_of_shows {order : List ℕ} {es : List (κ × ν)} {n : ℕ}
    (h : order.map (entryAt? slots) = es.map some) (hn : order[n]? = some i) :
    entryAt? slots i = es[n]? := by
  have hplace := congrArg (fun l => l[n]?) h
  simp only [List.getElem?_map, hn, Option.map_some] at hplace
  cases he : es[n]? with
  | none => simp [he] at hplace
  | some e => simpa [he] using hplace

theorem shows_of_entryAt? {order : List ℕ} {es : List (κ × ν)} (hlength : order.length = es.length)
    (h : ∀ (n i : ℕ), order[n]? = some i → entryAt? slots i = es[n]?) :
    order.map (entryAt? slots) = es.map some := by
  refine List.ext_getElem? fun n => ?_
  rw [List.getElem?_map, List.getElem?_map]
  cases hn : order[n]? with
  | none =>
    rw [List.getElem?_eq_none_iff, hlength] at hn
    rw [List.getElem?_eq_none_iff.2 hn]
    rfl
  | some i =>
    have hlt : n < es.length := hlength ▸ (List.getElem?_eq_some_iff.1 hn).1
    rw [Option.map_some, h n i hn, List.getElem?_eq_getElem hlt]
    rfl

end

/-- The links read the positions off one after the other, however many steps are
    allowed beyond their number. -/
theorem Threaded.follow_eq {slots : Array (Slot κ ν)} {newest oldest : Option ℕ} {order : List ℕ}
    (h : Threaded slots newest oldest order) :
    ∀ fuel n, order.length ≤ n + fuel →
      follow slots fuel order[n]? = (order.drop n).filterMap (entryAt? slots)
  | 0, n, hfuel => by
    rw [List.drop_eq_nil_of_le (by omega)]
    rfl
  | fuel + 1, n, hfuel => by
    cases hn : order[n]? with
    | none =>
      rw [List.drop_eq_nil_of_le (List.getElem?_eq_none_iff.1 hn)]
      rfl
    | some i =>
      obtain ⟨s, hs, -, holder⟩ := h.slot n i hn
      obtain ⟨hlt, rfl⟩ := List.getElem?_eq_some_iff.1 hn
      rw [List.drop_eq_getElem_cons hlt, List.filterMap_cons]
      simp only [follow, entryAt?, hs, Option.map_some, holder]
      rw [h.follow_eq fuel (n + 1) (by omega)]

variable [DecidableEq κ] [Hashable κ] {c : SlotCache κ ν} {order : List ℕ} {es : List (κ × ν)}
  {i n : ℕ} {k : κ} {v : ν} {s : Slot κ ν}

theorem valueAt_eq_map (c : SlotCache κ ν) (i : ℕ) :
    c.valueAt i = (entryAt? c.slots i).map Prod.snd := by
  rw [entryAt?, Option.map_map]
  rfl

theorem entryAt?_change (c : SlotCache κ ν) (i j : ℕ) {f : Slot κ ν → Slot κ ν}
    (hf : ∀ s, (f s).key = s.key ∧ (f s).value = s.value) :
    entryAt? (c.change i f).slots j = entryAt? c.slots j := by
  simp only [entryAt?, change, Array.getElem?_modify]
  split_ifs
  · simp [Function.comp_def, hf]
  · rfl

@[simp] theorem entryAt?_setOlder (c : SlotCache κ ν) (spot link : Option ℕ) (j : ℕ) :
    entryAt? (c.setOlder spot link).slots j = entryAt? c.slots j := by
  cases spot with
  | none => rfl
  | some i => exact entryAt?_change c i j fun _ => ⟨rfl, rfl⟩

@[simp] theorem entryAt?_setNewer (c : SlotCache κ ν) (spot link : Option ℕ) (j : ℕ) :
    entryAt? (c.setNewer spot link).slots j = entryAt? c.slots j := by
  cases spot with
  | none => rfl
  | some i => exact entryAt?_change c i j fun _ => ⟨rfl, rfl⟩

@[simp] theorem entryAt?_unlink (c : SlotCache κ ν) (i j : ℕ) :
    entryAt? (c.unlink i).slots j = entryAt? c.slots j := by
  cases hs : c.slots[i]? with
  | none => simp [unlink, hs]
  | some s =>
    rw [entryAt?, entryAt?, getElem?_unlink hs]
    by_cases hj : j = i
    · subst hj
      simp [hs]
    · rw [if_neg hj, Option.map_map]
      rfl

@[simp] theorem entryAt?_pushFront (c : SlotCache κ ν) (i j : ℕ) :
    entryAt? (c.pushFront i).slots j = entryAt? c.slots j := by
  unfold pushFront
  cases c.newest <;> simp [entryAt?_change]

@[simp] theorem entryAt?_promote (c : SlotCache κ ν) (i j : ℕ) :
    entryAt? (c.promote i).slots j = entryAt? c.slots j := by
  unfold promote
  split <;> simp

theorem entryAt?_vacate_of_last (hi : i + 1 = c.slots.size) (j : ℕ) :
    entryAt? (c.vacate i).slots j = if j = i then none else entryAt? c.slots j := by
  rw [vacate_of_last hi, entryAt?, entryAt?, Array.getElem?_pop]
  grind

theorem entryAt?_vacate (hi : i + 1 < c.slots.size) (hs : c.slots[c.slots.size - 1]? = some s)
    (j : ℕ) :
    entryAt? (c.vacate i).slots j =
      if j = i then some (s.key, s.value)
      else if j + 1 < c.slots.size then entryAt? c.slots j else none := by
  rw [entryAt?, entryAt?, getElem?_vacate hi hs]
  by_cases hj : j = i
  · subst hj
    rw [if_pos hi, if_pos rfl, if_pos rfl]
    rfl
  · rw [if_neg hj, if_neg hj]
    by_cases hlt : j + 1 < c.slots.size
    · rw [if_pos hlt, if_pos hlt, Option.map_map]
      rfl
    · rw [if_neg hlt, if_neg hlt]
      rfl

theorem size_vacate (hi : i < c.slots.size) : (c.vacate i).slots.size + 1 = c.slots.size := by
  rcases Nat.lt_or_ge (i + 1) c.slots.size with hlt | hge
  · have hlast : c.slots.back? = some c.slots[c.slots.size - 1] := by
      rw [Array.back?_eq_getElem?, Array.getElem?_eq_getElem]
    simp only [vacate, hlast, Nat.ne_of_lt hlt, if_false]
    cases c.slots[c.slots.size - 1].newer <;> cases c.slots[c.slots.size - 1].older <;>
      simp [setOlder, setNewer, change] <;> omega
  · rw [vacate_of_last (by omega)]
    simp
    omega

@[simp] theorem index_setOlder (c : SlotCache κ ν) (spot link : Option ℕ) :
    (c.setOlder spot link).index = c.index := by
  cases spot <;> rfl

@[simp] theorem index_setNewer (c : SlotCache κ ν) (spot link : Option ℕ) :
    (c.setNewer spot link).index = c.index := by
  cases spot <;> rfl

@[simp] theorem index_unlink (c : SlotCache κ ν) (i : ℕ) : (c.unlink i).index = c.index := by
  unfold unlink
  split <;> simp [change]

@[simp] theorem index_pushFront (c : SlotCache κ ν) (i : ℕ) : (c.pushFront i).index = c.index := by
  unfold pushFront
  cases c.newest <;> rfl

@[simp] theorem index_promote (c : SlotCache κ ν) (i : ℕ) : (c.promote i).index = c.index := by
  unfold promote
  split <;> simp

theorem index_vacate (hi : i + 1 < c.slots.size) (hs : c.slots[c.slots.size - 1]? = some s) :
    (c.vacate i).index = c.index.insert s.key i := by
  have hlast : c.slots.back? = some s := by rw [Array.back?_eq_getElem?, hs]
  simp only [vacate, hlast, Nat.ne_of_lt hi, if_false]

@[simp] theorem capacity_setOlder (c : SlotCache κ ν) (spot link : Option ℕ) :
    (c.setOlder spot link).capacity = c.capacity := by
  cases spot <;> rfl

@[simp] theorem capacity_setNewer (c : SlotCache κ ν) (spot link : Option ℕ) :
    (c.setNewer spot link).capacity = c.capacity := by
  cases spot <;> rfl

@[simp] theorem capacity_unlink (c : SlotCache κ ν) (i : ℕ) :
    (c.unlink i).capacity = c.capacity := by
  unfold unlink
  split <;> simp [change]

@[simp] theorem capacity_pushFront (c : SlotCache κ ν) (i : ℕ) :
    (c.pushFront i).capacity = c.capacity := by
  unfold pushFront
  cases c.newest <;> rfl

@[simp] theorem capacity_promote (c : SlotCache κ ν) (i : ℕ) :
    (c.promote i).capacity = c.capacity := by
  unfold promote
  split <;> simp

@[simp] theorem capacity_vacate (c : SlotCache κ ν) (i : ℕ) :
    (c.vacate i).capacity = c.capacity := by
  unfold vacate
  split
  · rfl
  · dsimp only
    split <;> simp

/-! ## The index -/

/-- The index finds the slot of every key. -/
structure Indexed (index : Std.HashMap κ ℕ) (slots : Array (Slot κ ν)) : Prop where
  get : ∀ k i, index[k]? = some i ↔ (entryAt? slots i).map Prod.fst = some k
  size : index.size = slots.size

namespace Indexed
variable {index : Std.HashMap κ ℕ} {slots slots' : Array (Slot κ ν)} {k old : κ} {v w : ν} {i : ℕ}

theorem of_entryAt?_eq (h : Indexed index slots)
    (hentries : ∀ j, entryAt? slots' j = entryAt? slots j) : Indexed index slots' := by
  refine ⟨fun k j => ?_, h.size.trans (size_eq_of_entryAt? hentries).symm⟩
  rw [hentries, h.get]

theorem insert (h : Indexed index slots) (hk : index[k]? = none)
    (hsize : slots'.size = slots.size + 1)
    (hentries : ∀ j, entryAt? slots' j = if j = slots.size then some (k, v) else entryAt? slots j) :
    Indexed (index.insert k slots.size) slots' := by
  refine ⟨fun k' j => ?_, ?_⟩
  · rw [Std.HashMap.getElem?_insert, hentries]
    have hget := h.get k' j
    have hlast : entryAt? slots slots.size = none := entryAt?_of_le le_rfl
    grind
  · have hnot : ¬ k ∈ index := by rw [Std.HashMap.mem_iff_isSome_getElem?, hk]; simp
    rw [Std.HashMap.size_insert, if_neg hnot, h.size, hsize]

theorem replace (h : Indexed index slots) (hk : index[k]? = none)
    (hi : entryAt? slots i = some (old, w)) (hsize : slots'.size = slots.size)
    (hentries : ∀ j, entryAt? slots' j = if j = i then some (k, v) else entryAt? slots j) :
    Indexed ((index.erase old).insert k i) slots' := by
  have hold : index[old]? = some i := (h.get old i).2 (by rw [hi]; rfl)
  refine ⟨fun k' j => ?_, ?_⟩
  · rw [Std.HashMap.getElem?_insert, Std.HashMap.getElem?_erase, hentries]
    have hget := h.get k' j
    grind
  · have hlt := lt_size_of_entryAt? hi
    grind [h.size]

theorem erase_last (h : Indexed index slots) (hi : i + 1 = slots.size)
    (hentry : entryAt? slots i = some (k, v)) (hsize : slots'.size + 1 = slots.size)
    (hentries : ∀ j, entryAt? slots' j = if j = i then none else entryAt? slots j) :
    Indexed (index.erase k) slots' := by
  have hk : index[k]? = some i := (h.get k i).2 (by rw [hentry]; rfl)
  refine ⟨fun k' j => ?_, ?_⟩
  · rw [Std.HashMap.getElem?_erase, hentries]
    have hget := h.get k' j
    grind
  · grind [h.size]

theorem erase_move (h : Indexed index slots) (hi : i + 1 < slots.size)
    (hentry : entryAt? slots i = some (k, v))
    (hlast : entryAt? slots (slots.size - 1) = some (old, w)) (hsize : slots'.size + 1 = slots.size)
    (hentries : ∀ j, entryAt? slots' j =
      if j = i then some (old, w) else if j + 1 < slots.size then entryAt? slots j else none) :
    Indexed ((index.erase k).insert old i) slots' := by
  have hk : index[k]? = some i := (h.get k i).2 (by rw [hentry]; rfl)
  have hold : index[old]? = some (slots.size - 1) := (h.get old _).2 (by rw [hlast]; rfl)
  refine ⟨fun k' j => ?_, ?_⟩
  · rw [Std.HashMap.getElem?_insert, Std.HashMap.getElem?_erase, hentries]
    have hget := h.get k' j
    grind [entryAt?_of_le]
  · grind [h.size]

end Indexed

/-! ## Layouts -/

/-- The slots show some entries when they are read in the order of a list of all
    positions, and the index finds each of them. -/
structure Layout (c : SlotCache κ ν) (order : List ℕ) (es : List (κ × ν)) : Prop where
  threaded : c.ThreadedOn order
  covers : ∀ i, i ∈ order ↔ i < c.slots.size
  shows : order.map (entryAt? c.slots) = es.map some
  indexed : Indexed c.index c.slots

namespace Layout

theorem length_order (h : c.Layout order es) : order.length = c.slots.size := by
  have hperm : order.Perm (List.range c.slots.size) :=
    (List.perm_ext_iff_of_nodup h.threaded.nodup List.nodup_range).2 fun i => by
      rw [h.covers, List.mem_range]
  rw [hperm.length_eq, List.length_range]

theorem length_es (h : c.Layout order es) : es.length = c.slots.size := by
  rw [← h.length_order]
  simpa using congrArg List.length h.shows.symm

theorem size_eq (h : c.Layout order es) : c.size = es.length :=
  h.indexed.size.trans h.length_es.symm

theorem follow_eq (h : c.Layout order es) {fuel : ℕ} (hfuel : c.slots.size ≤ fuel) :
    follow c.slots fuel c.newest = es := by
  have hfollow := h.threaded.follow_eq fuel 0 (by rw [h.length_order]; omega)
  calc follow c.slots fuel c.newest = order.filterMap (entryAt? c.slots) := by
        rw [h.threaded.newest_eq, hfollow, List.drop_zero]
    _ = (order.map (entryAt? c.slots)).filterMap id := by
        rw [List.filterMap_map]
        rfl
    _ = (es.map some).filterMap id := by rw [h.shows]
    _ = es := by rw [List.filterMap_map]; exact List.filterMap_some

/-- **The slots list the entries.** -/
theorem entries_eq (h : c.Layout order es) : c.entries = es :=
  h.follow_eq le_rfl

/-- The slot at a place shows the entry at that place. -/
theorem entryAt?_eq (h : c.Layout order es) (hn : order[n]? = some i) :
    entryAt? c.slots i = es[n]? :=
  entryAt?_of_shows h.shows hn

theorem valueAt_eq (h : c.Layout order es) (hn : order[n]? = some i) (he : es[n]? = some (k, v)) :
    c.valueAt i = some v := by
  rw [valueAt_eq_map, h.entryAt?_eq hn, he]
  rfl

/-- **The index finds every entry** at its place in the order. -/
theorem exists_place (h : c.Layout order es) (hk : c.index[k]? = some i) :
    ∃ (n : ℕ) (v : ν), order[n]? = some i ∧ es[n]? = some (k, v) := by
  obtain ⟨⟨k', v⟩, he, rfl⟩ := Option.map_eq_some_iff.1 ((h.indexed.get k i).1 hk)
  obtain ⟨n, hn⟩ := List.mem_iff_getElem?.1 ((h.covers i).2 (lt_size_of_entryAt? he))
  exact ⟨n, v, hn, (h.entryAt?_eq hn).symm.trans he⟩

theorem not_mem_keys (h : c.Layout order es) (hk : c.index[k]? = none) :
    k ∉ es.map Prod.fst := by
  intro hmem
  obtain ⟨⟨k', v⟩, he, rfl⟩ := List.mem_map.1 hmem
  obtain ⟨n, hn⟩ := List.mem_iff_getElem?.1 he
  have hlt : n < order.length := by
    rw [h.length_order, ← h.length_es]
    exact (List.getElem?_eq_some_iff.1 hn).1
  have hi := h.entryAt?_eq (List.getElem?_eq_getElem hlt)
  have := (h.indexed.get k' order[n]).2 (by rw [hi, hn]; rfl)
  rw [hk] at this
  cases this

/-! ## Steps -/

/-- Steps that only change links change the order and the list alike. -/
theorem of_entryAt?_eq {c' : SlotCache κ ν} {order' : List ℕ} {es' : List (κ × ν)}
    (h : c.Layout order es) (hindex : c'.index = c.index)
    (hentries : ∀ j, entryAt? c'.slots j = entryAt? c.slots j) (hthreaded : c'.ThreadedOn order')
    (horder : order'.Perm order) (hshows : order'.map (entryAt? c.slots) = es'.map some) :
    c'.Layout order' es' := by
  refine ⟨hthreaded, fun i => ?_, ?_, hindex ▸ h.indexed.of_entryAt?_eq hentries⟩
  · rw [horder.mem_iff, h.covers, size_eq_of_entryAt? hentries]
  · rw [← hshows]
    exact List.map_congr_left fun j _ => hentries j

theorem shows_eraseIdx (h : c.Layout order es) (n : ℕ) :
    (order.eraseIdx n).map (entryAt? c.slots) = (es.eraseIdx n).map some := by
  rw [← List.eraseIdx_map, h.shows, List.eraseIdx_map]

theorem not_mem_eraseIdx (h : c.Layout order es) (hn : order[n]? = some i) :
    i ∉ order.eraseIdx n :=
  fun hmem => ((mem_eraseIdx_iff h.threaded.nodup hn).1 hmem).2 rfl

/-- **Promotion** moves an entry to the front. -/
theorem promote (h : c.Layout order es) (hn : order[n]? = some i) (he : es[n]? = some (k, v)) :
    (c.promote i).Layout (i :: order.eraseIdx n) ((k, v) :: es.eraseIdx n) := by
  refine h.of_entryAt?_eq (index_promote c i) (entryAt?_promote c i) (h.threaded.promote hn)
    (cons_eraseIdx_perm hn) ?_
  rw [List.map_cons, List.map_cons, (h.entryAt?_eq hn).trans he, h.shows_eraseIdx]

/-- A new value under a key that is there. -/
theorem replace (h : c.Layout order es) (hn : order[n]? = some i) (he : es[n]? = some (k, v))
    (g : ν → ν) :
    (c.change i fun s => { s with value := g s.value }).Layout order (es.set n (k, g v)) := by
  have hi := (h.entryAt?_eq hn).trans he
  have hentries : ∀ j, entryAt? (c.change i fun s => { s with value := g s.value }).slots j =
      if j = i then some (k, g v) else entryAt? c.slots j := by
    intro j
    simp only [entryAt?, change, Array.getElem?_modify, eq_comm (a := j)] at hi ⊢
    split_ifs with hj
    · subst hj
      obtain ⟨s, hs, hentry⟩ := Option.map_eq_some_iff.1 hi
      obtain ⟨rfl, rfl⟩ := Prod.mk.inj hentry
      rw [hs]
      rfl
    · rfl
  have hsize : (c.change i fun s => { s with value := g s.value }).slots.size = c.slots.size :=
    Array.size_modify ..
  refine ⟨h.threaded.of_links fun j _ t ht => ?_, fun j => ?_, ?_, fun k' j => ?_, ?_⟩
  · simp only [change, Array.getElem?_modify, ht]
    split_ifs <;> exact ⟨_, rfl, rfl, rfl⟩
  · rw [h.covers, hsize]
  · refine shows_of_entryAt? (by rw [List.length_set, h.length_order, h.length_es])
      fun m j hm => ?_
    rw [hentries, List.getElem?_set]
    by_cases hmn : n = m
    · subst hmn
      obtain rfl : i = j := Option.some.inj (hn.symm.trans hm)
      rw [if_pos rfl, if_pos rfl, if_pos (List.getElem?_eq_some_iff.1 he).1]
    · have hji : j ≠ i := fun h' => hmn (h.threaded.eq_of_getElem? hn (h' ▸ hm))
      rw [if_neg hji, if_neg hmn, h.entryAt?_eq hm]
  · refine (h.indexed.get k' j).trans ?_
    rw [hentries]
    split_ifs with hj
    · rw [hj, hi]
      rfl
    · rfl
  · exact h.indexed.size.trans hsize.symm

/-- **A new entry in a new slot.** -/
theorem push (h : c.Layout order es) (hk : c.index[k]? = none) (v : ν) :
    ({ c with
        slots := c.slots.push ⟨k, v, none, none⟩
        index := c.index.insert k c.slots.size }.pushFront c.slots.size).Layout
      (c.slots.size :: order) ((k, v) :: es) := by
  set pushed : SlotCache κ ν :=
    { c with
      slots := c.slots.push ⟨k, v, none, none⟩
      index := c.index.insert k c.slots.size } with hpushed
  have hentries : ∀ j, entryAt? (pushed.pushFront c.slots.size).slots j =
      if j = c.slots.size then some (k, v) else entryAt? c.slots j := by
    intro j
    rw [entryAt?_pushFront]
    simp only [entryAt?, hpushed, Array.getElem?_push]
    split_ifs <;> rfl
  have hsize : (pushed.pushFront c.slots.size).slots.size = c.slots.size + 1 := by
    rw [size_eq_of_entryAt? (entryAt?_pushFront pushed c.slots.size)]
    exact Array.size_push ..
  have hout : c.slots.size ∉ order := fun hmem => lt_irrefl _ ((h.covers _).1 hmem)
  have hlast : pushed.slots[c.slots.size]? = some ⟨k, v, none, none⟩ := Array.getElem?_push_size
  have hthreaded : pushed.ThreadedOn order := h.threaded.append _
  refine ⟨hthreaded.pushFront hout hlast, fun j => ?_, ?_, ?_⟩
  · rw [hsize, List.mem_cons, h.covers]
    omega
  · rw [List.map_cons, List.map_cons, hentries, if_pos rfl, ← h.shows]
    congr 1
    refine List.map_congr_left fun j hj => ?_
    have hne : j ≠ c.slots.size := fun h' => hout (h' ▸ hj)
    rw [hentries, if_neg hne]
  · rw [index_pushFront]
    exact h.indexed.insert hk hsize hentries

/-- **A new entry in the slot of another.** -/
theorem reuse (h : c.Layout order es) (hk : c.index[k]? = none) (hn : order[n]? = some i)
    {old : κ} {w : ν} (he : es[n]? = some (old, w)) (v : ν) :
    ({ (c.unlink i).change i (fun s => { s with key := k, value := v }) with
        index := (c.index.erase old).insert k i }.pushFront i).Layout
      (i :: order.eraseIdx n) ((k, v) :: es.eraseIdx n) := by
  set written : SlotCache κ ν :=
    { (c.unlink i).change i (fun s => { s with key := k, value := v }) with
      index := (c.index.erase old).insert k i } with hwritten
  have hi := (h.entryAt?_eq hn).trans he
  have hslots : ∀ j, written.slots[j]? = if i = j then
      (c.unlink i).slots[j]?.map fun s => { s with key := k, value := v }
        else (c.unlink i).slots[j]? := fun j => Array.getElem?_modify
  have hentries : ∀ j, entryAt? (written.pushFront i).slots j =
      if j = i then some (k, v) else entryAt? c.slots j := by
    intro j
    rw [entryAt?_pushFront, entryAt?, hslots, ← entryAt?_unlink c i j]
    split_ifs with h₁ h₂ h₂
    · subst h₁
      have hu := (entryAt?_unlink c i i).trans hi
      obtain ⟨s, hs, -⟩ := Option.map_eq_some_iff.1 hu
      rw [hs]
      rfl
    · exact absurd h₁.symm h₂
    · exact absurd h₂.symm h₁
    · rfl
  have hsize : (written.pushFront i).slots.size = c.slots.size := by
    rw [size_eq_of_entryAt? (entryAt?_pushFront written i), hwritten]
    refine (Array.size_modify ..).trans ?_
    exact size_eq_of_entryAt? (entryAt?_unlink c i)
  have hout := h.not_mem_eraseIdx hn
  have hthreaded : written.ThreadedOn (order.eraseIdx n) :=
    (h.threaded.unlink hn).change hout fun s => { s with key := k, value := v }
  obtain ⟨t, ht⟩ : ∃ t, written.slots[i]? = some t := by
    obtain ⟨s, hs, -⟩ := h.threaded.slot n i hn
    rw [hslots, if_pos rfl, getElem?_unlink hs, if_pos rfl]
    exact ⟨_, rfl⟩
  refine ⟨hthreaded.pushFront hout ht, fun j => ?_, ?_, ?_⟩
  · rw [hsize, (cons_eraseIdx_perm hn).mem_iff, h.covers]
  · rw [List.map_cons, List.map_cons, hentries, if_pos rfl, ← h.shows_eraseIdx]
    congr 1
    refine List.map_congr_left fun j hj => ?_
    have hne : j ≠ i := fun h' => hout (h' ▸ hj)
    rw [hentries, if_neg hne]
  · rw [index_pushFront]
    exact h.indexed.replace hk hi hsize hentries

end Layout

/-! ## Gaps -/

/-- Slots with a gap: one of them is out of the order and out of the index, but still
    shows its entry. -/
structure Gapped (c : SlotCache κ ν) (i : ℕ) (order : List ℕ) (es : List (κ × ν)) : Prop where
  threaded : c.ThreadedOn order
  covers : ∀ j, j ∈ order ↔ j < c.slots.size ∧ j ≠ i
  shows : order.map (entryAt? c.slots) = es.map some
  indexed : ∃ (index : Std.HashMap κ ℕ) (k : κ) (v : ν), Indexed index c.slots ∧
    entryAt? c.slots i = some (k, v) ∧ c.index = index.erase k

/-- Taking an entry out of the order and the index leaves a gap. -/
theorem Layout.unlink (h : c.Layout order es) (hn : order[n]? = some i)
    (he : es[n]? = some (k, v)) :
    ({ c with index := c.index.erase k }.unlink i).Gapped i (order.eraseIdx n)
      (es.eraseIdx n) := by
  have hentries := entryAt?_unlink { c with index := c.index.erase k } i
  refine ⟨ThreadedOn.unlink (c := { c with index := c.index.erase k }) h.threaded hn, fun j => ?_,
    ?_, c.index, k, v, h.indexed.of_entryAt?_eq hentries, ?_, index_unlink _ i⟩
  · rw [mem_eraseIdx_iff h.threaded.nodup hn, h.covers, size_eq_of_entryAt? hentries]
  · rw [← h.shows_eraseIdx]
    exact List.map_congr_left fun j _ => hentries j
  · rw [hentries, h.entryAt?_eq hn, he]

namespace Gapped

theorem not_mem (h : c.Gapped i order es) : i ∉ order :=
  fun hmem => ((h.covers i).1 hmem).2 rfl

theorem lt_size (h : c.Gapped i order es) : i < c.slots.size := by
  obtain ⟨index, k, v, -, hentry, -⟩ := h.indexed
  exact lt_size_of_entryAt? hentry

/-- A gap at the end goes away. -/
theorem vacate_of_last (h : c.Gapped i order es) (hi : i + 1 = c.slots.size) :
    (c.vacate i).Layout order es := by
  have hsize := size_vacate h.lt_size
  have hentries := entryAt?_vacate_of_last hi
  obtain ⟨index, k, v, hindexed, hentry, hindex⟩ := h.indexed
  refine ⟨h.threaded.vacate_of_last hi h.not_mem, fun j => ?_, ?_, ?_⟩
  · rw [h.covers]
    omega
  · rw [← h.shows]
    refine List.map_congr_left fun j hj => ?_
    rw [hentries, if_neg ((h.covers j).1 hj).2]
  · have hsame : (c.vacate i).index = c.index := by rw [SlotCache.vacate_of_last hi]
    rw [hsame, hindex]
    exact hindexed.erase_last hi hentry hsize hentries

/-- Another gap is filled with the last slot. -/
theorem vacate (h : c.Gapped i order es) (hi : i + 1 < c.slots.size) :
    ∃ order', (c.vacate i).Layout order' es := by
  have hsize := size_vacate h.lt_size
  obtain ⟨n, hn⟩ := List.mem_iff_getElem?.1 ((h.covers (c.slots.size - 1)).2 ⟨by omega, by omega⟩)
  obtain ⟨s, hs, -⟩ := h.threaded.slot n _ hn
  have hlast : entryAt? c.slots (c.slots.size - 1) = some (s.key, s.value) := by
    rw [entryAt?, hs]
    rfl
  have hentries := entryAt?_vacate hi hs
  obtain ⟨index, k, v, hindexed, hentry, hindex⟩ := h.indexed
  refine ⟨order.set n i, h.threaded.vacate hi h.not_mem hn, fun j => ?_, ?_, ?_⟩
  · rw [mem_set_iff h.threaded.nodup hn, h.covers]
    omega
  · have hlength : (order.set n i).length = es.length := by
      simpa using congrArg List.length h.shows
    refine shows_of_entryAt? hlength fun m j hm => ?_
    rw [List.getElem?_set] at hm
    by_cases hnm : n = m
    · subst hnm
      obtain rfl : i = j := by grind
      rw [hentries, if_pos rfl, ← hlast]
      exact entryAt?_of_shows h.shows hn
    · rw [if_neg hnm] at hm
      have hj := (h.covers j).1 (List.mem_of_getElem? hm)
      have hne : j ≠ c.slots.size - 1 := fun h' => hnm (h.threaded.eq_of_getElem? hn (h' ▸ hm))
      rw [hentries, if_neg hj.2, if_pos (by omega)]
      exact entryAt?_of_shows h.shows hm
  · rw [index_vacate hi hs, hindex]
    exact hindexed.erase_move hi hentry hlast hsize hentries

end Gapped

/-- **Removal** takes an entry out. -/
theorem Layout.remove (h : c.Layout order es) (hn : order[n]? = some i)
    (he : es[n]? = some (k, v)) :
    ∃ order', (({ c with index := c.index.erase k }.unlink i).vacate i).Layout order'
      (es.eraseIdx n) := by
  have hgap := h.unlink hn he
  rcases Nat.lt_or_ge (i + 1) ({ c with index := c.index.erase k }.unlink i).slots.size with hi | hi
  · exact hgap.vacate hi
  · exact ⟨_, hgap.vacate_of_last (Nat.le_antisymm (Nat.succ_le_of_lt hgap.lt_size) hi)⟩

end OverlayCensus.SlotCache
