/-
  OverlayCensus — gossip tables with room for all there is to know.

  A table whose names (or locations) all belong to a set that fits into it, and that are
  filed under different keys, never pushes anything out.

  * `DistanceTable.knows_mergeAdvertised`, `LocationTable.mem_mergeAll`: such a table knows
    what it knew before and what it is told, and nothing else; if it reports no change, it
    had known everything.
-/
import Mathlib
import OverlayCensus.Gossip.DistanceTable
import OverlayCensus.Gossip.LocationTable
import OverlayCensus.Proofs.QueryLog

namespace OverlayCensus

/-! ## Caches with room -/

namespace Cache

variable {κ ν : Type} [DecidableEq κ] {c : Cache κ ν} {k : κ} {v : ν} {ks : Finset κ}

theorem entries_use_of_room (hkeys : ∀ j ∈ c.keys, j ∈ ks) (hk : k ∈ ks)
    (hroom : ks.card ≤ c.capacity) :
    (c.use k v).entries = (k, v) :: without k c.entries := by
  rw [entries_use, List.take_of_length_le]
  have hnodup := nodup_cons_without (k := k) (v := v) c.distinct
  have hlength : ((k, v) :: without k c.entries).length =
      (((k, v) :: without k c.entries).map Prod.fst).length := (List.length_map _).symm
  rw [hlength, ← List.toFinset_card_of_nodup hnodup]
  refine (Finset.card_le_card fun j hj => ?_).trans hroom
  obtain ⟨e, he, rfl⟩ := List.mem_map.1 (List.mem_toFinset.1 hj)
  rcases List.mem_cons.1 he with rfl | he
  · exact hk
  · exact hkeys _ (List.mem_map_of_mem (List.mem_of_mem_filter he))

theorem isFull_eq_false (hkeys : ∀ j ∈ c.keys, j ∈ ks) (hk : k ∈ ks) (hnew : k ∉ c.keys)
    (hroom : ks.card ≤ c.capacity) : c.isFull = false := by
  have hnodup : c.keys.Nodup := c.distinct
  have hsize : c.size = c.keys.toFinset.card := by
    rw [List.toFinset_card_of_nodup hnodup, keys, List.length_map]
    rfl
  have hlt : c.keys.toFinset.card < ks.card := by
    refine Finset.card_lt_card ⟨fun j hj => hkeys j (List.mem_toFinset.1 hj), fun hsub => ?_⟩
    exact hnew (List.mem_toFinset.1 (hsub hk))
  rw [isFull, decide_eq_false_iff_not, hsize]
  omega

/-- The value under a key and the other entries make up the cache. -/
theorem exists_entries_of_get? {P : ν → Prop} (h : c.get? k = some v) :
    (∃ e ∈ c.entries, P e.2) ↔ P v ∨ ∃ e ∈ without k c.entries, P e.2 := by
  constructor
  · rintro ⟨e, he, hp⟩
    by_cases hek : e.1 = k
    · have hsame := List.inj_on_of_nodup_map c.distinct he (mem_of_get? h) hek
      rw [hsame] at hp
      exact Or.inl hp
    · exact Or.inr ⟨e, List.mem_filter.2 ⟨he, by simpa using hek⟩, hp⟩
  · rintro (hp | ⟨e, he, hp⟩)
    · exact ⟨(k, v), mem_of_get? h, hp⟩
    · exact ⟨e, List.mem_of_mem_filter he, hp⟩

theorem exists_entries_of_get?_none {P : ν → Prop} (h : c.get? k = none) :
    (∃ e ∈ c.entries, P e.2) ↔ ∃ e ∈ without k c.entries, P e.2 := by
  constructor
  · rintro ⟨e, he, hp⟩
    have hek : e.1 ≠ k := by
      rintro rfl
      exact get?_eq_none_iff.1 h (List.mem_map_of_mem he)
    exact ⟨e, List.mem_filter.2 ⟨he, by simpa using hek⟩, hp⟩
  · rintro ⟨e, he, hp⟩
    exact ⟨e, List.mem_of_mem_filter he, hp⟩

/-- A coin of probability zero never shows heads, and is drawn only if it could matter. -/
theorem putSkipping_of_chance {p : Binary64} (hp : p.chance = 0)
    (c : Cache κ ν) (k : κ) (v : ν) (d : Draws) :
    c.putSkipping k v p d =
      (!c.contains k, c.use k v, if !c.contains k && c.isFull then (d.coin p).2 else d) := by
  have hcoin : (d.coin p).1 = false := by simp [Draws.coin, hp]
  simp only [putSkipping, hcoin]
  split <;> rfl

end Cache

/-! ## Distances -/

theorem toNat_nextHop (d : UInt32) : (nextHop d).toNat = min (d.toNat + 1) (2 ^ 32 - 1) := by
  have hlt := d.toNat_lt
  unfold nextHop
  split_ifs with h
  · rw [h]
    rfl
  · have hne : d.toNat ≠ 2 ^ 32 - 1 := fun he => h (UInt32.toNat_inj.1 he)
    rw [UInt32.toNat_add, UInt32.toNat_one]
    omega

namespace DistanceTable

/-- The table has a distance to a name of at most so many hops. -/
def Knows (t : DistanceTable) (name : String) (hops : ℕ) : Prop :=
  ∃ e ∈ t.cache.entries, e.2.name = name ∧ e.2.distance.toNat ≤ hops

/-- All names in the table belong to a set that has room in it, with keys of their
    own. -/
structure HasRoom (t : DistanceTable) (names : Finset String) : Prop where
  known : ∀ name hops, t.Knows name hops → name ∈ names
  room : names.card ≤ t.cache.capacity
  keys : Set.InjOn Gossip.nameKey names

/-- No name has two entries. -/
theorem nodup_names (t : DistanceTable) : (t.entries.map DistanceEntry.name).Nodup := by
  have hkeys : t.cache.entries.map Prod.fst =
      (t.entries.map DistanceEntry.name).map Gossip.nameKey := by
    rw [entries, Cache.values, List.map_map, List.map_map]
    exact List.map_congr_left fun e he => t.keyed e he
  have hnodup := t.cache.distinct
  rw [hkeys] at hnodup
  exact hnodup.of_map _

variable {t : DistanceTable} {names : Finset String} {name : String} {distance : UInt32}
  {holder : PeerAddress}

theorem knows_iff {hops : ℕ} :
    t.Knows name hops ↔ ∃ e ∈ t.entries, e.name = name ∧ e.distance.toNat ≤ hops := by
  simp only [Knows, entries, Cache.values, List.mem_map, exists_exists_and_eq_and]

theorem HasRoom.name_mem (h : t.HasRoom names) {e : Uuid × DistanceEntry}
    (he : e ∈ t.cache.entries) : e.2.name ∈ names :=
  h.known _ _ ⟨e, he, rfl, le_rfl⟩

theorem HasRoom.key_mem (h : t.HasRoom names) :
    ∀ k ∈ t.cache.keys, k ∈ names.image Gossip.nameKey := by
  intro k hk
  obtain ⟨e, he, rfl⟩ := List.mem_map.1 hk
  rw [t.keyed e he]
  exact Finset.mem_image_of_mem _ (h.name_mem he)

theorem HasRoom.entries_use (h : t.HasRoom names) (hname : name ∈ names) (e : DistanceEntry) :
    (t.cache.use (Gossip.nameKey name) e).entries =
      (Gossip.nameKey name, e) :: Cache.without (Gossip.nameKey name) t.cache.entries :=
  Cache.entries_use_of_room h.key_mem (Finset.mem_image_of_mem _ hname)
    (Finset.card_image_le.trans h.room)

theorem HasRoom.name_eq (h : t.HasRoom names) (hname : name ∈ names) {e : DistanceEntry}
    (he : t.cache.get? (Gossip.nameKey name) = some e) : e.name = name := by
  have hmem := Cache.mem_of_get? he
  exact h.keys (h.name_mem hmem) hname (t.keyed _ hmem).symm

/-- **A report adds what it says**, and nothing is lost. -/
theorem knows_merge (h : t.HasRoom names) (hname : name ∈ names) {name' : String} {hops : ℕ} :
    (t.merge name distance holder).2.Knows name' hops ↔
      t.Knows name' hops ∨ (name = name' ∧ distance.toNat ≤ hops) := by
  show (∃ e ∈ (t.cache.putDistance (Gossip.nameKey name) name distance holder).2.entries,
    e.2.name = name' ∧ e.2.distance.toNat ≤ hops) ↔ _
  unfold Cache.putDistance Cache.upsert Knows
  cases he : t.cache.get? (Gossip.nameKey name) with
  | none =>
    rw [h.entries_use hname, List.exists_mem_cons_iff, Cache.exists_entries_of_get?_none
      (P := fun e => e.name = name' ∧ e.distance.toNat ≤ hops) he]
    exact or_comm
  | some e =>
    have hen := h.name_eq hname he
    rw [h.entries_use hname, List.exists_mem_cons_iff, Cache.exists_entries_of_get?
      (P := fun e => e.name = name' ∧ e.distance.toNat ≤ hops) he]
    simp only [DistanceEntry.merge, hen, UInt32.toNat_min, min_le_iff, and_or_left]
    exact or_right_comm

/-- A report that changes nothing was known. -/
theorem knows_of_merge_eq_false (h : t.HasRoom names) (hname : name ∈ names)
    (hsame : (t.merge name distance holder).1 = false) : t.Knows name distance.toNat := by
  have hup : (t.cache.putDistance (Gossip.nameKey name) name distance holder).1 = false := hsame
  unfold Cache.putDistance Cache.upsert at hup
  cases he : t.cache.get? (Gossip.nameKey name) with
  | none => simp [he] at hup
  | some e =>
    have hle : e.distance ≤ distance := by
      simp only [he, DistanceEntry.merge, Bool.or_eq_false_iff, decide_eq_false_iff_not] at hup
      exact UInt32.not_lt.1 hup.2
    exact ⟨_, Cache.mem_of_get? he, h.name_eq hname he, UInt32.le_iff_toNat_le.1 hle⟩

theorem HasRoom.merge (h : t.HasRoom names) (hname : name ∈ names) :
    (t.merge name distance holder).2.HasRoom names where
  known name' hops hk := by
    rcases (knows_merge h hname).1 hk with hk | ⟨rfl, -⟩
    · exact h.known _ _ hk
    · exact hname
  room := by
    have hcap : (t.merge name distance holder).2.cache.capacity = t.cache.capacity :=
      Cache.capacity_upsert _ _ _ _
    rw [hcap]
    exact h.room
  keys := h.keys

/-- **What a neighbour advertises is known afterwards**, one hop further away, and so is all
    that was known before. -/
theorem knows_mergeAdvertised (sender : PeerAddress) {es : List (String × UInt32)}
    (h : t.HasRoom names) (hes : ∀ e ∈ es, e.1 ∈ names) :
    (t.mergeAdvertised sender es).2.HasRoom names ∧
      (∀ name hops, (t.mergeAdvertised sender es).2.Knows name hops ↔ t.Knows name hops ∨
        ∃ d, (name, d) ∈ es ∧ (nextHop d).toNat ≤ hops) ∧
      ((t.mergeAdvertised sender es).1 = false →
        ∀ name d, (name, d) ∈ es → t.Knows name (nextHop d).toNat) := by
  induction es generalizing t with
  | nil => exact ⟨h, fun name hops => by simp [mergeAdvertised], fun _ name d hd => by cases hd⟩
  | cons e es ih =>
    obtain ⟨name₀, d₀⟩ := e
    have hname : name₀ ∈ names := hes (name₀, d₀) List.mem_cons_self
    have hmerge : ∀ name' hops, (t.merge name₀ (nextHop d₀) sender).2.Knows name' hops ↔ _ :=
      fun _ _ => knows_merge h hname
    have hroom₀ : (t.merge name₀ (nextHop d₀) sender).2.HasRoom names := h.merge hname
    obtain ⟨hroom, hknows, hsame⟩ := ih hroom₀ fun e he => hes e (List.mem_cons_of_mem _ he)
    refine ⟨hroom, fun name hops => ?_, fun hfalse name d hd => ?_⟩
    · rw [mergeAdvertised, hknows, hmerge]
      constructor
      · rintro ((hk | ⟨rfl, hle⟩) | ⟨d, hd, hle⟩)
        · exact Or.inl hk
        · exact Or.inr ⟨d₀, List.mem_cons_self, hle⟩
        · exact Or.inr ⟨d, List.mem_cons_of_mem _ hd, hle⟩
      · rintro (hk | ⟨d, hd, hle⟩)
        · exact Or.inl (Or.inl hk)
        · rcases List.mem_cons.1 hd with hd | hd
          · cases hd
            exact Or.inl (Or.inr ⟨rfl, hle⟩)
          · exact Or.inr ⟨d, hd, hle⟩
    · simp only [mergeAdvertised, Bool.or_eq_false_iff] at hfalse
      have hfirst := knows_of_merge_eq_false h hname hfalse.1
      rcases List.mem_cons.1 hd with hd | hd
      · cases hd
        exact hfirst
      · rcases (hmerge _ _).1 (hsame hfalse.2 name d hd) with hk | ⟨rfl, hle⟩
        · exact hk
        · obtain ⟨e, he, hen, hed⟩ := hfirst
          exact ⟨e, he, hen, hed.trans hle⟩

end DistanceTable

/-! ## Locations -/

namespace LocationTable

/-- All locations in the table belong to a set that has room in it, with keys of their
    own. -/
structure HasRoom (t : LocationTable) (ls : Finset Location) : Prop where
  known : ∀ l ∈ t.entries, l ∈ ls
  room : ls.card ≤ t.cache.capacity
  keys : Set.InjOn Location.key ls

/-- No location has two entries. -/
theorem nodup_entries (t : LocationTable) : t.entries.Nodup := by
  have hkeys : t.cache.entries.map Prod.fst = t.entries.map Location.key := by
    rw [entries, Cache.values, List.map_map]
    exact List.map_congr_left fun e he => t.keyed e he
  have hnodup := t.cache.distinct
  rw [hkeys] at hnodup
  exact hnodup.of_map _

variable {t : LocationTable} {ls : Finset Location} {l l' : Location}

theorem mem_entries_iff : l ∈ t.entries ↔ ∃ e ∈ t.cache.entries, e.2 = l :=
  List.mem_map

theorem HasRoom.key_mem (h : t.HasRoom ls) : ∀ k ∈ t.cache.keys, k ∈ ls.image Location.key := by
  intro k hk
  obtain ⟨e, he, rfl⟩ := List.mem_map.1 hk
  rw [t.keyed e he]
  exact Finset.mem_image_of_mem _ (h.known _ (mem_entries_iff.2 ⟨e, he, rfl⟩))

theorem HasRoom.entries_use (h : t.HasRoom ls) (hl : l ∈ ls) :
    (t.cache.use l.key l).entries = (l.key, l) :: Cache.without l.key t.cache.entries :=
  Cache.entries_use_of_room h.key_mem (Finset.mem_image_of_mem _ hl)
    (Finset.card_image_le.trans h.room)

theorem capacity_merge (t : LocationTable) (l : Location) :
    (t.merge l).2.cache.capacity = t.cache.capacity := by
  simp only [merge, Cache.putSkipping]
  split
  · split <;> rfl
  · rfl

/-- In a table with room no coin is drawn. -/
theorem merge_of_room (h : t.HasRoom ls) (hl : l ∈ ls) :
    (t.merge l).1 = !t.cache.contains l.key ∧ (t.merge l).2.cache = t.cache.use l.key l := by
  have hput : (!t.cache.contains l.key && t.cache.isFull) = false := by
    cases hc : t.cache.contains l.key with
    | true => rfl
    | false =>
      have hnew : l.key ∉ t.cache.keys := by
        rw [← Cache.contains_iff, hc]
        exact Bool.false_ne_true
      rw [Cache.isFull_eq_false h.key_mem (Finset.mem_image_of_mem _ hl) hnew
        (Finset.card_image_le.trans h.room)]
      rfl
  simp only [merge, Cache.putSkipping, hput, Bool.false_eq_true, if_false, Cache.put]
  exact ⟨trivial, trivial⟩

/-- Where nothing is ever skipped, a coin is drawn only for a location that is new. -/
theorem merge_of_chance (hskip : t.skip.chance = 0) (l : Location) :
    (t.merge l).1 = !t.cache.contains l.key ∧ (t.merge l).2.cache = t.cache.use l.key l ∧
      ((t.merge l).1 = false → (t.merge l).2.coins = t.coins) := by
  simp only [merge, Cache.putSkipping_of_chance hskip, true_and]
  intro hknown
  rw [hknown]
  rfl

theorem HasRoom.eq_of_get? (h : t.HasRoom ls) (hl : l ∈ ls)
    (he : t.cache.get? l.key = some l') : l' = l := by
  have hmem := Cache.mem_of_get? he
  exact h.keys (h.known l' (mem_entries_iff.2 ⟨_, hmem, rfl⟩)) hl (t.keyed _ hmem).symm

/-- **A location is added**, and nothing is lost. -/
theorem mem_merge (h : t.HasRoom ls) (hl : l ∈ ls) :
    l' ∈ (t.merge l).2.entries ↔ l' ∈ t.entries ∨ l = l' := by
  rw [mem_entries_iff, (merge_of_room h hl).2, h.entries_use hl, List.exists_mem_cons_iff,
    mem_entries_iff]
  cases he : t.cache.get? l.key with
  | none =>
    rw [Cache.exists_entries_of_get?_none (P := fun l => l = l') he]
    exact or_comm
  | some l₀ =>
    rw [Cache.exists_entries_of_get? (P := fun l => l = l') he, h.eq_of_get? hl he, or_right_comm,
      or_self]

/-- A location that changes nothing was known. -/
theorem mem_of_merge_eq_false (h : t.HasRoom ls) (hl : l ∈ ls)
    (hsame : (t.merge l).1 = false) : l ∈ t.entries := by
  rw [(merge_of_room h hl).1, Bool.not_eq_false', Cache.contains, Option.isSome_iff_exists] at hsame
  obtain ⟨l₀, he⟩ := hsame
  exact mem_entries_iff.2 ⟨_, Cache.mem_of_get? he, h.eq_of_get? hl he⟩

theorem HasRoom.merge (h : t.HasRoom ls) (hl : l ∈ ls) : (t.merge l).2.HasRoom ls where
  known l' hl' := by
    rcases (mem_merge h hl).1 hl' with hl' | rfl
    · exact h.known l' hl'
    · exact hl
  room := by
    rw [(merge_of_room h hl).2]
    exact h.room
  keys := h.keys

/-- **All locations that are told are known afterwards**, and all that were before. -/
theorem mem_mergeAll {new : List Location} (h : t.HasRoom ls) (hnew : ∀ l ∈ new, l ∈ ls) :
    (t.mergeAll new).2.HasRoom ls ∧
      (∀ l, l ∈ (t.mergeAll new).2.entries ↔ l ∈ t.entries ∨ l ∈ new) ∧
      ((t.mergeAll new).1 = false → ∀ l ∈ new, l ∈ t.entries) := by
  induction new generalizing t with
  | nil => exact ⟨h, fun l => by simp [mergeAll], fun _ l hl => by cases hl⟩
  | cons l₀ new ih =>
    have hl₀ : l₀ ∈ ls := hnew l₀ List.mem_cons_self
    have hmerge : ∀ l', l' ∈ (t.merge l₀).2.entries ↔ l' ∈ t.entries ∨ l₀ = l' :=
      fun _ => mem_merge h hl₀
    obtain ⟨hroom, hmem, hsame⟩ := ih (h.merge hl₀) fun l hl => hnew l (List.mem_cons_of_mem _ hl)
    refine ⟨hroom, fun l => ?_, fun hfalse l hl => ?_⟩
    · rw [mergeAll, hmem, hmerge, List.mem_cons, or_assoc, eq_comm (a := l₀)]
    · simp only [mergeAll, Bool.or_eq_false_iff] at hfalse
      have hfirst := mem_of_merge_eq_false h hl₀ hfalse.1
      rcases List.mem_cons.1 hl with rfl | hl
      · exact hfirst
      · rcases (hmerge l).1 (hsame hfalse.2 l hl) with hl | rfl
        · exact hl
        · exact hfirst

theorem contains_of_mem (h : l ∈ t.entries) : t.cache.contains l.key = true := by
  obtain ⟨e, he, rfl⟩ := mem_entries_iff.1 h
  rw [Cache.contains_iff, ← t.keyed e he]
  exact List.mem_map_of_mem he

/-- A table has room for what it has. -/
theorem hasRoom_entries (t : LocationTable) : t.HasRoom t.entries.toFinset where
  known _ hl := List.mem_toFinset.2 hl
  room := by
    rw [List.toFinset_card_of_nodup t.nodup_entries, entries, Cache.values, List.length_map]
    exact t.cache.length_le
  keys := by
    intro l hl l' hl' hk
    obtain ⟨e, he, rfl⟩ := mem_entries_iff.1 (List.mem_toFinset.1 hl)
    obtain ⟨e', he', rfl⟩ := mem_entries_iff.1 (List.mem_toFinset.1 hl')
    rw [← t.keyed e he, ← t.keyed e' he'] at hk
    rw [List.inj_on_of_nodup_map t.cache.distinct he he' hk]

theorem mergeAll_eq_false {new : List Location} (h : t.HasRoom ls)
    (hnew : ∀ l ∈ new, l ∈ t.entries) : (t.mergeAll new).1 = false := by
  induction new generalizing t with
  | nil => rfl
  | cons l₀ new ih =>
    have hmem : l₀ ∈ t.entries := hnew l₀ List.mem_cons_self
    have hl₀ : l₀ ∈ ls := h.known l₀ hmem
    have hlater := ih (h.merge hl₀) fun l hl =>
      (mem_merge h hl₀).2 (Or.inl (hnew l (List.mem_cons_of_mem _ hl)))
    have hfirst : (t.merge l₀).1 = false := by
      rw [(merge_of_room h hl₀).1, contains_of_mem hmem]
      rfl
    simp only [mergeAll, hfirst, hlater, Bool.or_false]

/-- **Locations that a table has change nothing.** -/
theorem mergeAll_of_known {new : List Location} (hnew : ∀ l ∈ new, l ∈ t.entries) :
    (t.mergeAll new).1 = false ∧ ∀ l, l ∈ (t.mergeAll new).2.entries ↔ l ∈ t.entries := by
  have hroom := t.hasRoom_entries
  refine ⟨mergeAll_eq_false hroom hnew, fun l => ?_⟩
  rw [(mem_mergeAll hroom fun l hl => List.mem_toFinset.2 (hnew l hl)).2.1 l]
  exact or_iff_left_of_imp (hnew l)

end LocationTable

end OverlayCensus
