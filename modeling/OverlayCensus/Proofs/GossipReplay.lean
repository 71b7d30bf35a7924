/-
  OverlayCensus — gossip that is heard twice.

  A batch of writes brings its keys to the front of a cache, the last one first of all, and what
  else is there follows in its old order.  The same batch once more finds its keys in front and
  leaves them in the same order.  If they all fit, none of them is pushed out on the way, so the
  second time nothing is new; and if no write undoes another one, no value changes either.

  * `broughtForward`: the order of use after a batch, which is the same after two;
  * `Cache.writeAll_again`: so a batch that `Settles` changes nothing the second time;
  * `Engine.handle_again`: gossip that fits into a table is silent when it is heard again, and
    leaves the engine as it was.
-/
import Mathlib
import OverlayCensus.Proofs.DistanceReports
import OverlayCensus.Proofs.MarkHistory

namespace OverlayCensus

/-! ## The order of use -/

section
variable {κ : Type} [DecidableEq κ]

/-- Keys in order of use after some keys have been used, one after another. -/
def broughtForward (order : List κ) (used : List κ) : List κ :=
  used.foldl (fun order k => k :: order.filter fun j => j ≠ k) order

variable {order used : List κ} {k : κ}

@[simp] theorem broughtForward_append_singleton (order used : List κ) (k : κ) :
    broughtForward order (used ++ [k]) = k :: (broughtForward order used).filter fun j => j ≠ k := by
  rw [broughtForward, List.foldl_append]
  rfl

theorem nodup_broughtForward (h : order.Nodup) (used : List κ) :
    (broughtForward order used).Nodup := by
  induction used using List.reverseRecOn with
  | nil => exact h
  | append_singleton used k ih =>
    rw [broughtForward_append_singleton]
    exact List.nodup_cons.2 ⟨by simp, ih.filter _⟩

/-- The keys used stand in front of those that were not. -/
theorem broughtForward_eq (order used : List κ) :
    broughtForward order used = broughtForward [] used ++ order.filter fun j => j ∉ used := by
  induction used using List.reverseRecOn with
  | nil => simp [broughtForward]
  | append_singleton used k ih =>
    rw [broughtForward_append_singleton, broughtForward_append_singleton, ih, List.filter_append,
      List.filter_filter, List.cons_append]
    refine congrArg (k :: _ ++ ·) (List.filter_congr fun j _ => ?_)
    simp [and_comm]

theorem mem_broughtForward_nil : k ∈ broughtForward [] used ↔ k ∈ used := by
  induction used using List.reverseRecOn with
  | nil => rfl
  | append_singleton used j ih =>
    by_cases hk : k = j <;> simp [hk, ih]

/-- **Using the same keys once more** leaves the order as it is. -/
theorem broughtForward_again (order used : List κ) :
    broughtForward (broughtForward order used) used = broughtForward order used := by
  rw [broughtForward_eq (broughtForward order used), broughtForward_eq order, List.filter_append,
    List.filter_filter]
  have hfront : (broughtForward [] used).filter (fun j => j ∉ used) = [] :=
    List.filter_eq_nil_iff.2 fun j hj => by simpa using mem_broughtForward_nil.1 hj
  rw [hfront, List.nil_append]
  simp

/-- Keys that fit are among the first after their use. -/
theorem mem_take_broughtForward {n : ℕ} (hroom : used.toFinset.card ≤ n) (hk : k ∈ used)
    (order : List κ) : k ∈ (broughtForward order used).take n := by
  have hlength : (broughtForward [] used).length ≤ n := by
    rw [← List.toFinset_card_of_nodup (nodup_broughtForward List.nodup_nil used)]
    have hset : (broughtForward [] used).toFinset = used.toFinset := by
      ext j
      rw [List.mem_toFinset, List.mem_toFinset, mem_broughtForward_nil]
    rwa [hset]
  rw [broughtForward_eq, List.take_append, List.take_of_length_le hlength]
  exact List.mem_append_left _ (mem_broughtForward_nil.2 hk)

end

/-! ## Batches of writes -/

/-- A write to a cache: the value that it makes of another one under its key, or of none. -/
structure CacheWrite (κ ν : Type) where
  key : κ
  create : ν
  update : ν → Bool × ν

/-- The write has nothing to change in a value. -/
def CacheWrite.Settled {κ ν : Type} (w : CacheWrite κ ν) (v : ν) : Prop :=
  w.update v = (false, v)

/-- Each write of a batch leaves itself nothing to change, and no other one under its key undoes
    that. -/
structure Settles {κ ν : Type} (ws : List (CacheWrite κ ν)) : Prop where
  create : ∀ w ∈ ws, w.Settled w.create
  update : ∀ w ∈ ws, ∀ v, w.Settled (w.update v).2
  keep : ∀ w ∈ ws, ∀ w' ∈ ws, w'.key = w.key → ∀ v, w.Settled v → w.Settled (w'.update v).2

theorem Settles.of_append {κ ν : Type} {ws ws' : List (CacheWrite κ ν)}
    (h : Settles (ws ++ ws')) : Settles ws where
  create w hw := h.create w (List.mem_append_left _ hw)
  update w hw := h.update w (List.mem_append_left _ hw)
  keep w hw w' hw' := h.keep w (List.mem_append_left _ hw) w' (List.mem_append_left _ hw')

namespace Cache

variable {κ ν : Type} [DecidableEq κ] {c : Cache κ ν} {ws : List (CacheWrite κ ν)}
  {w : CacheWrite κ ν} {v : ν}

/-- Does one write; tells whether anything changed. -/
def write (c : Cache κ ν) (w : CacheWrite κ ν) : Bool × Cache κ ν :=
  c.upsert w.key w.create w.update

/-- Does writes in order; tells whether anything changed. -/
def writeAll (c : Cache κ ν) : List (CacheWrite κ ν) → Bool × Cache κ ν
  | [] => (false, c)
  | w :: ws =>
    let (changed, c) := c.write w
    let (later, c) := c.writeAll ws
    (changed || later, c)

@[simp] theorem capacity_writeAll (c : Cache κ ν) (ws : List (CacheWrite κ ν)) :
    (c.writeAll ws).2.capacity = c.capacity := by
  induction ws generalizing c with
  | nil => rfl
  | cons w ws ih => exact (ih _).trans (capacity_upsert _ _ _ _)

theorem writeAll_append_singleton (c : Cache κ ν) (ws : List (CacheWrite κ ν))
    (w : CacheWrite κ ν) : (c.writeAll (ws ++ [w])).2 = ((c.writeAll ws).2.write w).2 := by
  induction ws generalizing c with
  | nil => rfl
  | cons w' ws ih => exact ih _

/-- **The keys after a batch**: those that the cache would have if nothing were ever pushed out,
    up to its capacity. -/
theorem keys_writeAll {order : List κ} (hkeys : c.keys = order.take c.capacity)
    (horder : order.Nodup) (ws : List (CacheWrite κ ν)) :
    (c.writeAll ws).2.keys =
      (broughtForward order (ws.map CacheWrite.key)).take c.capacity := by
  induction ws generalizing c order with
  | nil => exact hkeys
  | cons w ws ih =>
    have hwrite : (c.write w).2.keys =
        (w.key :: order.filter fun j => j ≠ w.key).take c.capacity := by
      rw [write, keys_upsert, hkeys]
      exact QueryLog.take_cons_filter_take horder w.key c.capacity
    have hcap : (c.write w).2.capacity = c.capacity := capacity_upsert _ _ _ _
    rw [← hcap] at hwrite ⊢
    exact ih hwrite (List.nodup_cons.2 ⟨by simp, horder.filter _⟩)

omit [DecidableEq κ] in
theorem keys_eq_take (c : Cache κ ν) : c.keys = c.keys.take c.capacity :=
  (List.take_of_length_le ((List.length_map _).trans_le c.length_le)).symm

/-- A batch that was done before leaves the keys in their order. -/
theorem keys_writeAll_again (c : Cache κ ν) (ws : List (CacheWrite κ ν)) :
    ((c.writeAll ws).2.writeAll ws).2.keys = (c.writeAll ws).2.keys := by
  have hnodup : c.keys.Nodup := c.distinct
  have hfirst := keys_writeAll c.keys_eq_take hnodup ws
  have hsecond := keys_writeAll (c := (c.writeAll ws).2) (by rw [hfirst, capacity_writeAll])
    (nodup_broughtForward hnodup _) ws
  rw [hsecond, broughtForward_again, capacity_writeAll, hfirst]

/-! ## Settled writes -/

/-- What a write leaves under the keys that are still there. -/
theorem get?_write {j : κ} (hj : j ∈ (c.write w).2.keys) :
    (c.write w).2.get? j =
      if j = w.key then some (((c.get? w.key).map fun v => (w.update v).2).getD w.create)
      else c.get? j := by
  unfold write upsert at hj ⊢
  cases hget : c.get? w.key with
  | none =>
    simp only [hget] at hj
    simp only [get?_use, if_pos hj, Option.map_none, Option.getD_none]
  | some v =>
    simp only [hget] at hj
    simp only [get?_use, if_pos hj, Option.map_some, Option.getD_some]

/-- **After a batch that fits, its writes have nothing left to change.** -/
theorem settled_writeAll (h : Settles ws)
    (hroom : (ws.map CacheWrite.key).toFinset.card ≤ c.capacity) :
    ∀ w ∈ ws, ∃ v, (c.writeAll ws).2.get? w.key = some v ∧ w.Settled v := by
  -- what the last write finds was left by those before it, so the induction is from the end
  induction ws using List.reverseRecOn with
  | nil => simp
  | append_singleton ws last ih =>
    have hlast : last ∈ ws ++ [last] := List.mem_append_right _ List.mem_cons_self
    have hpresent : ∀ w ∈ ws ++ [last], w.key ∈ ((c.writeAll ws).2.write last).2.keys := by
      intro w hw
      rw [← writeAll_append_singleton, keys_writeAll c.keys_eq_take c.distinct]
      exact mem_take_broughtForward hroom (List.mem_map_of_mem hw) _
    have hearlier : ∀ w ∈ ws, ∃ v, (c.writeAll ws).2.get? w.key = some v ∧ w.Settled v := by
      refine ih h.of_append ((Finset.card_le_card ?_).trans hroom)
      rw [List.map_append, List.toFinset_append]
      exact Finset.subset_union_left
    intro w hw
    rw [writeAll_append_singleton, get?_write (hpresent w hw)]
    split_ifs with hkey
    · refine ⟨_, rfl, ?_⟩
      cases hget : (c.writeAll ws).2.get? last.key with
      | none =>
        rcases List.mem_append.1 hw with hmem | hmem
        · obtain ⟨v, hv, -⟩ := hearlier w hmem
          rw [hkey, hget] at hv
          cases hv
        · rw [List.mem_singleton.1 hmem]
          exact h.create last hlast
      | some v =>
        rcases List.mem_append.1 hw with hmem | hmem
        · obtain ⟨v', hv', hsettled⟩ := hearlier w hmem
          rw [hkey, hget] at hv'
          cases hv'
          exact h.keep w hw last hlast hkey.symm v hsettled
        · rw [List.mem_singleton.1 hmem]
          exact h.update last hlast v
    · rcases List.mem_append.1 hw with hmem | hmem
      · exact hearlier w hmem
      · exact absurd (congrArg CacheWrite.key (List.mem_singleton.1 hmem)) hkey

/-- Writes that have nothing to change change nothing but the order of use. -/
theorem writeAll_of_settled (h : ∀ w ∈ ws, ∃ v, c.get? w.key = some v ∧ w.Settled v) :
    (c.writeAll ws).1 = false ∧ ∀ e, e ∈ (c.writeAll ws).2.entries ↔ e ∈ c.entries := by
  induction ws generalizing c with
  | nil => exact ⟨rfl, fun e => Iff.rfl⟩
  | cons w ws ih =>
    obtain ⟨v, hv, hsettled⟩ := h w List.mem_cons_self
    have htouch : c.write w = (false, (c.touch w.key).2) := by
      have hupdate : w.update v = (false, v) := hsettled
      simp only [write, upsert, touch, hv, hupdate]
    have hentries : ∀ e, e ∈ (c.write w).2.entries ↔ e ∈ c.entries := by
      rw [htouch]
      exact fun e => mem_entries_touch_iff
    obtain ⟨hlater, hsame⟩ := ih (c := (c.write w).2) fun w' hw' => by
      rw [get?_congr hentries]
      exact h w' (List.mem_cons_of_mem _ hw')
    refine ⟨?_, fun e => (hsame e).trans (hentries e)⟩
    show ((c.write w).1 || ((c.write w).2.writeAll ws).1) = false
    rw [hlater, htouch]
    rfl

omit [DecidableEq κ] in
/-- Entries are settled by their keys, in order, and by what they are. -/
theorem eq_of_keys_eq {c c' : Cache κ ν} (hcap : c'.capacity = c.capacity)
    (hkeys : c'.keys = c.keys) (hentries : ∀ e, e ∈ c'.entries ↔ e ∈ c.entries) : c' = c := by
  have hlength : c'.entries.length = c.entries.length := by
    simpa only [keys, List.length_map] using congrArg List.length hkeys
  refine Cache.ext hcap (List.ext_getElem hlength fun i hi' hi => ?_)
  have hkey : c'.entries[i].1 = c.entries[i].1 := by
    simpa [keys, hi, hi'] using congrArg (fun ks : List κ => ks[i]?) hkeys
  exact List.inj_on_of_nodup_map c.distinct ((hentries _).1 (List.getElem_mem hi'))
    (List.getElem_mem hi) hkey

/-- **A batch that settles changes nothing the second time**, not even the order of use. -/
theorem writeAll_again (h : Settles ws)
    (hroom : (ws.map CacheWrite.key).toFinset.card ≤ c.capacity) :
    (c.writeAll ws).2.writeAll ws = (false, (c.writeAll ws).2) := by
  obtain ⟨hsame, hentries⟩ := writeAll_of_settled (settled_writeAll h hroom)
  refine Prod.ext hsame (eq_of_keys_eq (capacity_writeAll _ _) ?_ hentries)
  exact keys_writeAll_again c ws

end Cache

/-! ## Reports -/

theorem PeerSet.insert_of_mem {a : PeerAddress} {s : PeerSet} (h : a ∈ s) : s.insert a = s :=
  ext_mem fun _ => PeerSet.mem_insert.trans (or_iff_right_of_imp fun hb => hb ▸ h)

/-- A report changes nothing in an entry that lists its holder and is as near. -/
theorem DistanceEntry.merge_eq_self_iff {e : DistanceEntry} {distance : UInt32}
    {holder : PeerAddress} :
    e.merge distance holder = (false, e) ↔ holder ∈ e.holders ∧ e.distance ≤ distance := by
  constructor
  · intro h
    have hflag := congrArg Prod.fst h
    simpa [merge] using hflag
  · rintro ⟨hholder, hle⟩
    have hmin : min e.distance distance = e.distance := if_pos hle
    simp [merge, hholder, hle, hmin, PeerSet.insert_of_mem]

/-- What a report writes. -/
def DistanceReport.write (r : DistanceReport) : CacheWrite Uuid DistanceEntry :=
  ⟨Gossip.nameKey r.name, ⟨r.name, r.distance, .single r.holder⟩,
    fun e => e.merge r.distance r.holder⟩

/-- Holders only accumulate and distances only shrink. -/
theorem settles_reports (rs : List DistanceReport) : Settles (rs.map DistanceReport.write) where
  create w hw := by
    obtain ⟨r, -, rfl⟩ := List.mem_map.1 hw
    exact DistanceEntry.merge_eq_self_iff.2 ⟨PeerSet.mem_insert.2 (Or.inl rfl), UInt32.le_refl _⟩
  update w hw e := by
    obtain ⟨r, -, rfl⟩ := List.mem_map.1 hw
    exact DistanceEntry.merge_eq_self_iff.2 ⟨PeerSet.mem_insert.2 (Or.inl rfl), Std.min_le_right⟩
  keep w hw w' hw' _ e h := by
    obtain ⟨r, -, rfl⟩ := List.mem_map.1 hw
    obtain ⟨r', -, rfl⟩ := List.mem_map.1 hw'
    obtain ⟨hholder, hle⟩ := DistanceEntry.merge_eq_self_iff.1 h
    exact DistanceEntry.merge_eq_self_iff.2
      ⟨PeerSet.mem_insert.2 (Or.inr hholder), UInt32.le_trans Std.min_le_left hle⟩

namespace DistanceTable

theorem mergeReports_eq_writeAll (t : DistanceTable) (rs : List DistanceReport) :
    (t.mergeReports rs).1 = (t.cache.writeAll (rs.map DistanceReport.write)).1 ∧
      (t.mergeReports rs).2.cache = (t.cache.writeAll (rs.map DistanceReport.write)).2 := by
  induction rs generalizing t with
  | nil => exact ⟨rfl, rfl⟩
  | cons r rs ih =>
    obtain ⟨hflag, hcache⟩ := ih (t.merge r.name r.distance r.holder).2
    exact ⟨congrArg ((t.cache.write r.write).1 || ·) hflag, hcache⟩

/-- **Reports that fit** change nothing the second time. -/
theorem mergeReports_again {t : DistanceTable} {rs : List DistanceReport}
    (hroom : (rs.map DistanceReport.name).toFinset.card ≤ t.cache.capacity) :
    (t.mergeReports rs).2.mergeReports rs = (false, (t.mergeReports rs).2) := by
  have hkeys : ((rs.map DistanceReport.write).map CacheWrite.key).toFinset.card ≤
      t.cache.capacity := by
    have himage : ((rs.map DistanceReport.write).map CacheWrite.key).toFinset =
        (rs.map DistanceReport.name).toFinset.image Gossip.nameKey := by
      ext k
      simp [DistanceReport.write]
    rw [himage]
    exact Finset.card_image_le.trans hroom
  have hagain := Cache.writeAll_again (settles_reports rs) hkeys
  obtain ⟨-, hcache⟩ := t.mergeReports_eq_writeAll rs
  obtain ⟨hflag', hcache'⟩ := (t.mergeReports rs).2.mergeReports_eq_writeAll rs
  rw [hcache, hagain] at hflag' hcache'
  exact Prod.ext hflag' (DistanceTable.ext (hcache'.trans hcache.symm))

end DistanceTable

/-! ## Locations -/

/-- What a location writes. -/
def Location.write (l : Location) : CacheWrite Uuid Location :=
  ⟨l.key, l, fun _ => (false, l)⟩

theorem Location.write_eq (c : Cache Uuid Location) (l : Location) :
    c.write l.write = (!c.contains l.key, c.use l.key l) := by
  simp only [Cache.write, Cache.upsert, Location.write, Cache.contains]
  cases c.get? l.key <;> rfl

theorem settles_locations {ls : List Location} (hkeys : Set.InjOn Location.key {l | l ∈ ls}) :
    Settles (ls.map Location.write) where
  create w hw := by
    obtain ⟨l, -, rfl⟩ := List.mem_map.1 hw
    rfl
  update w hw _ := by
    obtain ⟨l, -, rfl⟩ := List.mem_map.1 hw
    rfl
  keep w hw w' hw' hkey _ _ := by
    obtain ⟨l, hl, rfl⟩ := List.mem_map.1 hw
    obtain ⟨l', hl', rfl⟩ := List.mem_map.1 hw'
    rw [hkeys hl' hl hkey]
    rfl

namespace LocationTable

variable {t t' : LocationTable} {ls : List Location}

theorem eq_of_cache_eq (hcache : t'.cache = t.cache) (hskip : t'.skip = t.skip)
    (hcoins : t'.coins = t.coins) : t' = t := by
  cases t
  cases t'
  cases hcache
  cases hskip
  cases hcoins
  rfl

theorem mergeAll_eq_writeAll (hskip : t.skip.chance = 0) (ls : List Location) :
    (t.mergeAll ls).1 = (t.cache.writeAll (ls.map Location.write)).1 ∧
      (t.mergeAll ls).2.cache = (t.cache.writeAll (ls.map Location.write)).2 ∧
      (t.mergeAll ls).2.skip = t.skip ∧
      ((t.mergeAll ls).1 = false → (t.mergeAll ls).2.coins = t.coins) := by
  induction ls generalizing t with
  | nil => exact ⟨rfl, rfl, rfl, fun _ => rfl⟩
  | cons l ls ih =>
    obtain ⟨hflag, hcache, hcoins⟩ := merge_of_chance hskip l
    obtain ⟨hflag', hcache', hskip', hcoins'⟩ := ih (t := (t.merge l).2) hskip
    rw [List.map_cons, Cache.writeAll, Location.write_eq]
    refine ⟨?_, ?_, hskip', fun hsame => ?_⟩
    · show ((t.merge l).1 || ((t.merge l).2.mergeAll ls).1) = _
      rw [hflag, hflag', hcache]
    · show ((t.merge l).2.mergeAll ls).2.cache = _
      rw [hcache', hcache]
    · obtain ⟨hfirst, hlater⟩ := (Bool.or_eq_false_iff ..).1 hsame
      exact (hcoins' hlater).trans (hcoins hfirst)

/-- **Locations that fit** change nothing the second time, if none is ever skipped. -/
theorem mergeAll_again (hskip : t.skip.chance = 0)
    (hroom : ls.toFinset.card ≤ t.cache.capacity)
    (hkeys : Set.InjOn Location.key {l | l ∈ ls}) :
    (t.mergeAll ls).2.mergeAll ls = (false, (t.mergeAll ls).2) := by
  have hkeysRoom : ((ls.map Location.write).map CacheWrite.key).toFinset.card ≤
      t.cache.capacity := by
    have himage : ((ls.map Location.write).map CacheWrite.key).toFinset =
        ls.toFinset.image Location.key := by
      ext k
      simp [Location.write]
    rw [himage]
    exact Finset.card_image_le.trans hroom
  have hagain := Cache.writeAll_again (settles_locations hkeys) hkeysRoom
  obtain ⟨-, hcache, hskip', -⟩ := mergeAll_eq_writeAll hskip ls
  obtain ⟨hflag', hcache', hskip'', hcoins'⟩ :=
    mergeAll_eq_writeAll (t := (t.mergeAll ls).2) (hskip' ▸ hskip) ls
  rw [hcache, hagain] at hflag' hcache'
  exact Prod.ext hflag' (eq_of_cache_eq (hcache'.trans hcache.symm) hskip'' (hcoins' hflag'))

end LocationTable

/-! ## Engines -/

namespace Engine

/-- Gossip that fits into the table it is for.  Locations are never skipped, and have keys of
    their own. -/
def CanHold (e : Engine) : Message → Prop
  | .distances _ es => (es.map Prod.fst).toFinset.card ≤ e.distances.cache.capacity
  | .locations _ es => es.toFinset.card ≤ e.locations.cache.capacity ∧
      e.locations.skip.chance = 0 ∧ Set.InjOn Location.key {l | (l.holder, l.name) ∈ es}
  | _ => False

variable {e : Engine} {m : Message}

/-- **Gossip that is heard twice is silent the second time.**  An engine in any state handles
    gossip whose names or locations fit into its table, whatever else is there; if it then handles
    the same message again, it sends nothing and stays as it is, down to the order of use in both
    tables. -/
theorem handle_again (h : e.CanHold m) (neighbors : List PeerAddress) (pick : ℕ) :
    ∃ e' sent, e.handle neighbors pick m = some (e', sent) ∧
      ∀ neighbors' pick', e'.handle neighbors' pick' m = some (e', []) := by
  cases m with
  | distances sender es =>
    refine ⟨_, _, rfl, fun neighbors' pick' => ?_⟩
    have hroom : ((es.map (.ofAdvertised sender)).map DistanceReport.name).toFinset.card ≤
        e.distances.cache.capacity := by
      rw [List.map_map]
      exact h
    have hagain := DistanceTable.mergeReports_again hroom
    rw [← DistanceTable.mergeAdvertised_eq, ← DistanceTable.mergeAdvertised_eq] at hagain
    simp only [handle, onDistances, hagain, Bool.false_eq_true, if_false]
  | locations sender es =>
    refine ⟨_, _, rfl, fun neighbors' pick' => ?_⟩
    obtain ⟨hroom, hskip, hkeys⟩ := h
    set ls := es.map fun l => (⟨l.1, l.2⟩ : Location) with hls
    have hmem : ∀ l, l ∈ ls ↔ (l.holder, l.name) ∈ es := by
      intro l
      rw [hls, List.mem_map]
      constructor
      · rintro ⟨entry, he, rfl⟩
        exact he
      · exact fun he => ⟨_, he, rfl⟩
    have hroom' : ls.toFinset.card ≤ e.locations.cache.capacity := by
      have himage : ls.toFinset = es.toFinset.image fun l => ⟨l.1, l.2⟩ := by
        ext l
        simp [hls]
      rw [himage]
      exact Finset.card_image_le.trans hroom
    have hagain := LocationTable.mergeAll_again hskip hroom' fun l hl l' hl' =>
      hkeys ((hmem l).1 hl) ((hmem l').1 hl')
    simp only [handle, onLocations, ← hls, hagain, Bool.false_eq_true, if_false]
  | _ => exact h.elim

namespace Sample

/-- A peer whose tables have two places each, taken by what another peer told. -/
def crowded : Engine :=
  let e := Engine.new ⟨"p", 1⟩ ⟨0, fun _ => 0, []⟩ { tableCapacity := 2, skip := .zero } (.ofSeed 0)
  let e := (e.onDistances [] ⟨"p", 2⟩ [("a", 0), ("b", 0)]).1
  (e.onLocations [] ⟨"p", 2⟩ [(⟨"p", 2⟩, "a"), (⟨"p", 2⟩, "b")]).1

/-- Two names, one of them twice. -/
def distances : Message :=
  .distances ⟨"p", 3⟩ [("t", 1), ("h", 0), ("t", 0)]

/-- Two locations, one of them twice. -/
def toldLocations : List (PeerAddress × String) :=
  [(⟨"p", 3⟩, "t"), (⟨"p", 4⟩, "t"), (⟨"p", 3⟩, "t")]

/-- The holder of two of them tells about all. -/
def locations : Message :=
  .locations ⟨"p", 3⟩ toldLocations

theorem canHold_distances : crowded.CanHold distances := by
  have hcapacity : crowded.distances.cache.capacity = 2 := by decide +kernel
  show (["t", "h", "t"] : List String).toFinset.card ≤ crowded.distances.cache.capacity
  rw [hcapacity]
  decide

theorem canHold_locations : crowded.CanHold locations := by
  have hcapacity : crowded.locations.cache.capacity = 2 := by decide +kernel
  refine ⟨?_, by decide +kernel, fun l hl l' hl' hkey => ?_⟩
  · rw [hcapacity]
    decide
  · have hkeys : ∀ x ∈ toldLocations, ∀ y ∈ toldLocations,
        (⟨x.1, x.2⟩ : Location).key = (⟨y.1, y.2⟩ : Location).key → x = y := by decide +kernel
    have hsame := hkeys (l.holder, l.name) hl (l'.holder, l'.name) hl' hkey
    cases l
    cases l'
    cases hsame
    rfl

/-- Both messages push out what was there and are told on, but only once. -/
theorem handle_again_crowded : (crowded.CanHold distances ∧ crowded.CanHold locations) ∧
    ∀ m ∈ [distances, locations], ∃ e' sent, crowded.handle [⟨"p", 2⟩] 0 m = some (e', sent) ∧
      sent ≠ [] ∧ e'.handle [⟨"p", 2⟩] 0 m = some (e', []) := by
  have htold : ∀ m ∈ [distances, locations],
      (crowded.handle [⟨"p", 2⟩] 0 m).map Prod.snd ≠ some [] := by decide +kernel
  refine ⟨⟨canHold_distances, canHold_locations⟩, fun m hm => ?_⟩
  have hfits : crowded.CanHold m := by
    simp only [List.mem_cons, List.not_mem_nil, or_false] at hm
    rcases hm with rfl | rfl
    · exact canHold_distances
    · exact canHold_locations
  obtain ⟨e', sent, hfirst, hagain⟩ := handle_again hfits [⟨"p", 2⟩] 0
  refine ⟨e', sent, hfirst, ?_, hagain _ _⟩
  rintro rfl
  exact htold m hm (by rw [hfirst]; rfl)

end Sample

end Engine

end OverlayCensus
