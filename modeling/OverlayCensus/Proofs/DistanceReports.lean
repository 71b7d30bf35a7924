/-
  OverlayCensus — distances add up, in whatever order they are told.

  A table with room for all names that it is told about loses nothing.  What it holds is then
  settled by the reports alone, not by their order or number: for each name the least distance
  that was told, and everyone who told one (`AddsUp`).

  * `mem_entries_iff`: an entry is given by what the table knows and whom it lists, so two tables
    that know and list the same have the same entries (`toFinset_entries_eq_iff`);
  * `mergeReports_spec`: what reports add to a table, and when they say that it changed;
  * `mergeAdvertised_eq`: an advertisement is the reports of its entries, one hop further away;
  * `entries_of_reports`: reports to an empty table, and advertisements after them.
-/
import Mathlib
import OverlayCensus.Proofs.DistanceHolders

namespace OverlayCensus

/-! ## Reports -/

/-- Someone tells how far away a metric is, and leads to it. -/
structure DistanceReport where
  name : String
  distance : UInt32
  holder : PeerAddress
deriving DecidableEq

/-- The report that an advertised distance comes to: one hop further away, unless it is the largest
    distance already. -/
def DistanceReport.ofAdvertised (sender : PeerAddress) (entry : String × UInt32) :
    DistanceReport :=
  ⟨entry.1, .ofNat (min (entry.2.toNat + 1) (2 ^ 32 - 1)), sender⟩

/-- The entry has the least distance that is reported for its name, and the holders of all these
    reports. -/
structure DistanceEntry.AddsUp (e : DistanceEntry) (rs : List DistanceReport) : Prop where
  reported : ∃ r ∈ rs, r.name = e.name ∧ r.distance = e.distance
  least : ∀ r ∈ rs, r.name = e.name → e.distance ≤ r.distance
  holders : ∀ p, p ∈ e.holders ↔ ∃ r ∈ rs, r.name = e.name ∧ r.holder = p

namespace DistanceTable

/-- Folds in reports in order; tells whether the table changed. -/
def mergeReports (t : DistanceTable) : List DistanceReport → Bool × DistanceTable
  | [] => (false, t)
  | r :: rest =>
    let (changed, t) := t.merge r.name r.distance r.holder
    let (later, t) := t.mergeReports rest
    (changed || later, t)

theorem nextHop_eq (d : UInt32) : nextHop d = .ofNat (min (d.toNat + 1) (2 ^ 32 - 1)) := by
  rw [← toNat_nextHop, UInt32.ofNat_toNat]

/-- **An advertisement is a batch of reports.** -/
theorem mergeAdvertised_eq (t : DistanceTable) (sender : PeerAddress)
    (es : List (String × UInt32)) :
    t.mergeAdvertised sender es = t.mergeReports (es.map (.ofAdvertised sender)) := by
  induction es generalizing t with
  | nil => rfl
  | cons e es ih =>
    simp only [mergeAdvertised, nextHop_eq, ih]
    rfl

/-! ## Entries -/

variable {t t' : DistanceTable} {names : Finset String} {name : String} {rs : List DistanceReport}

theorem lists_iff {p : PeerAddress} :
    t.Lists name p ↔ ∃ e ∈ t.entries, e.name = name ∧ p ∈ e.holders := by
  simp only [Lists, entries, Cache.values, List.mem_map, exists_exists_and_eq_and]

theorem eq_of_name {e e' : DistanceEntry} (he : e ∈ t.entries) (he' : e' ∈ t.entries)
    (h : e'.name = e.name) : e' = e :=
  List.inj_on_of_nodup_map t.nodup_names he' he h

/-- **An entry is what the table knows and whom it lists** for a name. -/
theorem mem_entries_iff {e : DistanceEntry} :
    e ∈ t.entries ↔ t.Knows e.name e.distance.toNat ∧
      (∀ hops, t.Knows e.name hops → e.distance.toNat ≤ hops) ∧
        ∀ p, p ∈ e.holders ↔ t.Lists e.name p := by
  constructor
  · intro he
    refine ⟨knows_iff.2 ⟨e, he, rfl, le_rfl⟩, fun hops hk => ?_, fun p => ?_⟩
    · obtain ⟨e', he', hname, hle⟩ := knows_iff.1 hk
      rwa [eq_of_name he he' hname] at hle
    · rw [lists_iff]
      constructor
      · exact fun hp => ⟨e, he, rfl, hp⟩
      · rintro ⟨e', he', hname, hp⟩
        rwa [eq_of_name he he' hname] at hp
  · rintro ⟨hknows, hleast, hholders⟩
    obtain ⟨e', he', hname, hle⟩ := knows_iff.1 hknows
    have hge := hleast _ (knows_iff.2 ⟨e', he', hname, le_rfl⟩)
    have hdistance : e'.distance = e.distance := UInt32.toNat_inj.1 (hle.antisymm hge)
    have hsame : e'.holders = e.holders := by
      refine PeerSet.ext_mem fun p => ?_
      rw [hholders, lists_iff]
      constructor
      · exact fun hp => ⟨e', he', hname, hp⟩
      · rintro ⟨e'', he'', hname'', hp⟩
        rwa [eq_of_name he' he'' (hname''.trans hname.symm)] at hp
    cases e
    cases e'
    cases hname
    cases hdistance
    cases hsame
    exact he'

theorem toFinset_entries_eq_iff :
    t'.entries.toFinset = t.entries.toFinset ↔
      (∀ name hops, t'.Knows name hops ↔ t.Knows name hops) ∧
        ∀ name p, t'.Lists name p ↔ t.Lists name p := by
  constructor
  · intro h
    have hmem : ∀ e, e ∈ t'.entries ↔ e ∈ t.entries := fun e => by
      rw [← List.mem_toFinset, h, List.mem_toFinset]
    exact ⟨fun name hops => by simp only [knows_iff, hmem],
      fun name p => by simp only [lists_iff, hmem]⟩
  · rintro ⟨hknows, hlists⟩
    ext e
    rw [List.mem_toFinset, List.mem_toFinset, mem_entries_iff, mem_entries_iff]
    simp only [hknows, hlists]

/-! ## What reports add -/

/-- A report changes nothing exactly if it was known and its holder listed. -/
theorem merge_eq_false_iff {distance : UInt32} {holder : PeerAddress} (h : t.HasRoom names)
    (hname : name ∈ names) : (t.merge name distance holder).1 = false ↔
      t.Knows name distance.toNat ∧ t.Lists name holder :=
  ⟨fun hsame => ⟨knows_of_merge_eq_false h hname hsame, lists_of_merge_eq_false h hname hsame⟩,
    fun hknown => merge_of_known hknown.1 hknown.2⟩

/-- **What reports do to a table with room**: it knows and lists what they say, and it has changed
    unless it did so before. -/
theorem mergeReports_spec (h : t.HasRoom names) (hrs : ∀ r ∈ rs, r.name ∈ names) :
    (t.mergeReports rs).2.HasRoom names ∧
      (∀ name hops, (t.mergeReports rs).2.Knows name hops ↔ t.Knows name hops ∨
        ∃ r ∈ rs, r.name = name ∧ r.distance.toNat ≤ hops) ∧
      (∀ name p, (t.mergeReports rs).2.Lists name p ↔ t.Lists name p ∨
        ∃ r ∈ rs, r.name = name ∧ r.holder = p) ∧
      ((t.mergeReports rs).1 = false ↔
        ∀ r ∈ rs, t.Knows r.name r.distance.toNat ∧ t.Lists r.name r.holder) := by
  induction rs generalizing t with
  | nil => exact ⟨h, by simp [mergeReports], by simp [mergeReports], by simp [mergeReports]⟩
  | cons r rs ih =>
    have hname := hrs r List.mem_cons_self
    obtain ⟨hroom, hknows, hlists, hsame⟩ :=
      ih (h.merge hname) fun r' hr' => hrs r' (List.mem_cons_of_mem _ hr')
    refine ⟨hroom, fun name hops => ?_, fun name p => ?_, ?_⟩
    · rw [mergeReports, hknows, knows_merge h hname, or_assoc, List.exists_mem_cons_iff]
    · rw [mergeReports, hlists, lists_merge h hname, or_assoc, List.exists_mem_cons_iff,
        eq_comm (a := p)]
    · rw [mergeReports, Bool.or_eq_false_iff, merge_eq_false_iff h hname, hsame,
        List.forall_mem_cons]
      refine and_congr_right fun hknown => forall₂_congr fun r' hr' => ?_
      -- what the first report adds was there
      rw [knows_merge h hname, lists_merge h hname]
      refine and_congr (or_iff_left_of_imp ?_) (or_iff_left_of_imp ?_)
      · rintro ⟨heq, hle⟩
        obtain ⟨e, he, hen, hd⟩ := hknown.1
        exact ⟨e, he, hen.trans heq, hd.trans hle⟩
      · rintro ⟨heq, hholder⟩
        rw [← heq, hholder]
        exact hknown.2

/-- **Reports tell the truth about a change**: they say that the table has changed exactly if its
    entries have. -/
theorem mergeReports_changed_iff (h : t.HasRoom names) (hrs : ∀ r ∈ rs, r.name ∈ names) :
    (t.mergeReports rs).1 = true ↔
      (t.mergeReports rs).2.entries.toFinset ≠ t.entries.toFinset := by
  obtain ⟨-, hknows, hlists, hsame⟩ := mergeReports_spec h hrs
  rw [← Bool.not_eq_false, hsame, Ne, not_iff_not, toFinset_entries_eq_iff]
  constructor
  · intro hknown
    constructor
    · intro name hops
      rw [hknows]
      refine or_iff_left_of_imp ?_
      rintro ⟨r, hr, rfl, hle⟩
      obtain ⟨e, he, hen, hd⟩ := (hknown r hr).1
      exact ⟨e, he, hen, hd.trans hle⟩
    · intro name p
      rw [hlists]
      refine or_iff_left_of_imp ?_
      rintro ⟨r, hr, rfl, rfl⟩
      exact (hknown r hr).2
  · rintro ⟨hknows', hlists'⟩ r hr
    exact ⟨(hknows' _ _).1 ((hknows _ _).2 (Or.inr ⟨r, hr, rfl, le_rfl⟩)),
      (hlists' _ _).1 ((hlists _ _).2 (Or.inr ⟨r, hr, rfl, rfl⟩))⟩

theorem hasRoom_empty {capacity : ℕ} (hroom : names.card ≤ max capacity 1)
    (hkeys : Set.InjOn Gossip.nameKey names) : (empty capacity).HasRoom names where
  known name hops := by
    rintro ⟨e, he, -⟩
    cases he
  room := hroom
  keys := hkeys

/-- Reports to an empty table add up to its entries. -/
theorem mem_entries_mergeReports {capacity : ℕ} (hroom : names.card ≤ max capacity 1)
    (hkeys : Set.InjOn Gossip.nameKey names) (hrs : ∀ r ∈ rs, r.name ∈ names)
    {e : DistanceEntry} : e ∈ ((empty capacity).mergeReports rs).2.entries ↔ e.AddsUp rs := by
  obtain ⟨-, hknows, hlists, -⟩ := mergeReports_spec (hasRoom_empty hroom hkeys) hrs
  have hnothing : ∀ name hops, ¬ (empty capacity).Knows name hops := by
    rintro name hops ⟨e, he, -⟩
    cases he
  have hnobody : ∀ name p, ¬ (empty capacity).Lists name p := by
    rintro name p ⟨e, he, -⟩
    cases he
  simp only [hnothing, false_or] at hknows
  simp only [hnobody, false_or] at hlists
  rw [mem_entries_iff]
  simp only [hknows, hlists]
  constructor
  · rintro ⟨⟨r, hr, hname, hle⟩, hleast, hholders⟩
    have hge := hleast _ ⟨r, hr, hname, le_rfl⟩
    exact ⟨⟨r, hr, hname, UInt32.toNat_inj.1 (hle.antisymm hge)⟩,
      fun r' hr' hname' => UInt32.le_iff_toNat_le.2 (hleast _ ⟨r', hr', hname', le_rfl⟩), hholders⟩
  · rintro ⟨⟨r, hr, hname, hdistance⟩, hleast, hholders⟩
    refine ⟨⟨r, hr, hname, by rw [hdistance]⟩, ?_, hholders⟩
    rintro hops ⟨r', hr', hname', hle⟩
    exact (UInt32.le_iff_toNat_le.1 (hleast r' hr' hname')).trans hle

/-- **Distances add up in any order.**  After reports to an empty table with room for all their
    names, the table has for each of them one entry, with the least distance reported and all
    holders, and these entries are the same in whatever order the reports came.  Each report says
    that the table has changed exactly if its entries have.  An advertisement then does the same
    as its entries reported in order with one hop more, up to the largest distance, and says that
    the table has changed exactly if its entries are not those before. -/
theorem entries_of_reports {capacity : ℕ} (hroom : names.card ≤ max capacity 1)
    (hkeys : Set.InjOn Gossip.nameKey names) (hrs : ∀ r ∈ rs, r.name ∈ names) :
    (∀ e, e ∈ ((empty capacity).mergeReports rs).2.entries ↔ e.AddsUp rs) ∧
    (∀ r ∈ rs, ∃! e, e ∈ ((empty capacity).mergeReports rs).2.entries ∧ e.name = r.name) ∧
    (∀ rs' : List DistanceReport, rs'.Perm rs →
      ((empty capacity).mergeReports rs').2.entries.toFinset =
        ((empty capacity).mergeReports rs).2.entries.toFinset) ∧
    (∀ earlier r later, rs = earlier ++ r :: later →
      let t := ((empty capacity).mergeReports earlier).2
      let merged := t.merge r.name r.distance r.holder
      merged.1 = true ↔ merged.2.entries.toFinset ≠ t.entries.toFinset) ∧
    ∀ (sender : PeerAddress) (batch : List (String × UInt32)), (∀ e ∈ batch, e.1 ∈ names) →
      let t := ((empty capacity).mergeReports rs).2
      let merged := t.mergeAdvertised sender batch
      merged = t.mergeReports (batch.map (.ofAdvertised sender)) ∧
        (merged.1 = true ↔ merged.2.entries.toFinset ≠ t.entries.toFinset) := by
  have hempty : (empty capacity).HasRoom names := hasRoom_empty hroom hkeys
  refine ⟨fun e => mem_entries_mergeReports hroom hkeys hrs, fun r hr => ?_, fun rs' hperm => ?_,
    fun earlier r later heq => ?_, fun sender batch hbatch => ?_⟩
  · obtain ⟨-, hknows, -, -⟩ := mergeReports_spec hempty hrs
    obtain ⟨e, he, hname, -⟩ := knows_iff.1 ((hknows _ _).2 (Or.inr ⟨r, hr, rfl, le_rfl⟩))
    exact ⟨e, ⟨he, hname⟩, fun e' he' => eq_of_name he he'.1 (he'.2.trans hname.symm)⟩
  · obtain ⟨-, hknows, hlists, -⟩ := mergeReports_spec hempty hrs
    obtain ⟨-, hknows', hlists', -⟩ :=
      mergeReports_spec hempty fun r hr => hrs r (hperm.mem_iff.1 hr)
    refine toFinset_entries_eq_iff.2 ⟨fun name hops => ?_, fun name p => ?_⟩
    · simp only [hknows, hknows', hperm.mem_iff]
    · simp only [hlists, hlists', hperm.mem_iff]
  · subst heq
    have hearlier := (mergeReports_spec hempty fun r' hr' =>
      hrs r' (List.mem_append_left _ hr')).1
    have hsingle : ∀ r' ∈ [r], r'.name ∈ names := by
      intro r' hr'
      rw [List.mem_singleton.1 hr']
      exact hrs r (List.mem_append_right _ List.mem_cons_self)
    have hchanged := mergeReports_changed_iff hearlier hsingle
    simpa only [mergeReports, Bool.or_false] using hchanged
  · have hafter := (mergeReports_spec hempty hrs).1
    refine ⟨mergeAdvertised_eq _ sender batch, ?_⟩
    rw [mergeAdvertised_eq]
    refine mergeReports_changed_iff hafter fun r hr => ?_
    obtain ⟨e, he, rfl⟩ := List.mem_map.1 hr
    exact hbatch e he

namespace Sample

/-- Two peers tell about two metrics, one of them better the second time. -/
def told : List DistanceReport :=
  [⟨"t", 3, ⟨"p", 1⟩⟩, ⟨"h", 1, ⟨"p", 2⟩⟩, ⟨"t", 5, ⟨"p", 2⟩⟩, ⟨"t", 2, ⟨"p", 1⟩⟩]

/-- What the reports on the first metric add up to. -/
def toldEntry : DistanceEntry :=
  ⟨"t", 2, .ofList [⟨"p", 1⟩, ⟨"p", 2⟩]⟩

theorem addsUp_toldEntry : toldEntry.AddsUp told where
  reported := by decide
  least := by decide
  holders p := by
    rw [toldEntry, PeerSet.mem_ofList]
    simp [told, or_comm, eq_comm]

/-- The same reports in another order come to the same entry, and a third peer that is as far away
    as can be still adds itself. -/
theorem entries_of_reports_told :
    ({"t", "h"} : Finset String).card ≤ max 2 1 ∧
      Set.InjOn Gossip.nameKey (({"t", "h"} : Finset String) : Set String) ∧
      (∀ r ∈ told, r.name ∈ ({"t", "h"} : Finset String)) ∧
      toldEntry ∈ ((empty 2).mergeReports told.reverse).2.entries ∧
      (((empty 2).mergeReports told).2.mergeAdvertised ⟨"p", 3⟩
        [("h", 0xFFFFFFFF)]).2.entries.toFinset ≠
          ((empty 2).mergeReports told).2.entries.toFinset := by
  have hkeys : Set.InjOn Gossip.nameKey (({"t", "h"} : Finset String) : Set String) := by
    have hne : ∀ a ∈ ({"t", "h"} : Finset String), ∀ b ∈ ({"t", "h"} : Finset String),
        Gossip.nameKey a = Gossip.nameKey b → a = b := by decide +kernel
    exact fun a ha b hb => hne a ha b hb
  have hrs : ∀ r ∈ told, r.name ∈ ({"t", "h"} : Finset String) := by decide
  have hroom : ({"t", "h"} : Finset String).card ≤ max 2 1 := by decide
  obtain ⟨hentries, -, hperm, -, hadvertised⟩ := entries_of_reports hroom hkeys hrs
  refine ⟨hroom, hkeys, hrs, ?_, ?_⟩
  · rw [← List.mem_toFinset, hperm told.reverse told.reverse_perm, List.mem_toFinset, hentries]
    exact addsUp_toldEntry
  · have hchanged := (hadvertised ⟨"p", 3⟩ [("h", 0xFFFFFFFF)] (by decide)).2
    exact hchanged.1 (by decide +kernel)

end Sample

end DistanceTable

end OverlayCensus
