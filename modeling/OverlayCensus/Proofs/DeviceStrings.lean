/-
  OverlayCensus — what a device string denotes.

  * `isSome_ofText?`: the texts that are read are those that are digits between blanks;
  * `render_of_ofText?`, `deviceCount_of_ofText?`: digits that are missing are zeros, and digits
    beyond the catalog do not count;
  * `mem_metricNames_iff`, `metricCount_le`: the metrics that are named are those that are counted,
    and no device is counted twice;
  * `ofText?_denotes`: what a text says of the inventory that is read from it.
-/
import Mathlib
import OverlayCensus.Device.Inventory
import OverlayCensus.Proofs.Inventories
import OverlayCensus.Proofs.Numerals

namespace OverlayCensus.Inventory

variable {i : Inventory} {s metric : String} {cs : List Char} {ns : List (Fin 10)}

/-! ## Reading -/

theorem isSome_readDigits : (readDigits cs).isSome = true ↔ ∀ c ∈ cs, c.isDigit = true := by
  induction cs with
  | nil => simp [readDigits]
  | cons c cs ih =>
    rw [readDigits, List.forall_mem_cons, ← ih, ← Decimal.isSome_digitValue]
    split
    · next d hd => simp [hd]
    · next hnone => simp [hnone]

/-- **The texts that are read** are those that are digits between blanks. -/
theorem isSome_ofText? :
    (ofText? s).isSome = true ↔ ∀ c ∈ (Text.trim s).toList, c.isDigit = true := by
  rw [ofText?, Option.isSome_map, Text.toList_trim, isSome_readDigits]

/-- The digits of a text that was read. -/
theorem exists_of_ofText? (h : ofText? s = some i) :
    ∃ ns, (Text.trim s).toList = digitChars ns ∧ ofCounts ns = i := by
  obtain ⟨ns, hns, hcounts⟩ := Option.map_eq_some_iff.1 h
  exact ⟨ns, by rw [Text.toList_trim, eq_digitChars_of_readDigits hns], hcounts⟩

/-- Counts that are missing are zeros, and those beyond the catalog are left out. -/
theorem counts_ofCounts (ns : List (Fin 10)) :
    (ofCounts ns).counts.toList = (ns.take 19).rightpad 19 0 := by
  rw [ofCounts, Vector.toList_ofFn, List.rightpad]
  refine List.ext_getElem (by simp) fun k hk hk' => ?_
  have hslot : k < 19 := by simpa using hk
  rw [List.getElem_ofFn, List.getElem_append]
  split_ifs with hin
  · rw [List.getElem_take, List.getD_eq_getElem]
  · rw [List.getElem_replicate, List.getD_eq_default]
    change ns.length ≤ k
    rw [List.length_take] at hin
    omega

theorem digitChars_rightpad (ns : List (Fin 10)) (n : ℕ) :
    digitChars (ns.rightpad n 0) = (digitChars ns).rightpad n '0' := by
  rw [digitChars, digitChars, List.rightpad, List.rightpad, List.map_append, List.map_replicate,
    List.length_map]
  rfl

/-- **The device string** of an inventory that was read: its digits as they were written, and
    zeros for those that are missing. -/
theorem render_of_ofText? (h : ofText? s = some i) :
    i.render.toList = ((Text.trim s).toList.take 19).rightpad 19 '0' := by
  obtain ⟨ns, hns, rfl⟩ := exists_of_ofText? h
  rw [hns, toList_render, counts_ofCounts, digitChars_rightpad, digitChars, digitChars,
    List.map_take]

theorem digitChar_sub (n : Fin 10) : (Decimal.digitChar n.val).toNat - '0'.toNat = n.val :=
  (Decimal.digitValue_eq_some_iff.1 (Decimal.digitValue_digitChar n.isLt)).2

/-- **The number of devices** of an inventory that was read is the sum of its digits. -/
theorem deviceCount_of_ofText? (h : ofText? s = some i) : i.deviceCount =
    (((Text.trim s).toList.take 19).map fun c => c.toNat - '0'.toNat).sum := by
  obtain ⟨ns, hns, rfl⟩ := exists_of_ofText? h
  have hvalues : (digitChars ns).map (fun c => c.toNat - '0'.toNat) = ns.map Fin.val := by
    rw [digitChars, List.map_map]
    exact List.map_congr_left fun n _ => digitChar_sub n
  rw [hns, deviceCount, counts_ofCounts, List.rightpad, List.map_append, List.sum_append,
    List.map_replicate, List.sum_replicate, List.map_take, List.map_take, hvalues]
  rfl

/-! ## Metrics -/

/-- A kind that reports a metric is present iff its devices are counted. -/
theorem metricCount_pos_iff :
    0 < i.metricCount metric ↔ ∃ e ∈ i.present, metric ∈ e.1.metrics := by
  rw [metricCount, List.sum_pos_iff_exists_pos_nat]
  constructor
  · rintro ⟨n, hn, -⟩
    obtain ⟨e, he, rfl⟩ := List.mem_map.1 hn
    obtain ⟨hpresent, hmetric⟩ := List.mem_filter.1 he
    exact ⟨e, hpresent, List.contains_iff_mem.1 hmetric⟩
  · rintro ⟨e, hpresent, hmetric⟩
    refine ⟨e.2, List.mem_map_of_mem (List.mem_filter.2 ⟨hpresent, ?_⟩), ?_⟩
    · exact List.contains_iff_mem.2 hmetric
    · exact of_decide_eq_true (List.mem_filter.1 hpresent).2

/-- **The metrics that are named** are those that are counted. -/
theorem mem_metricNames_iff : metric ∈ i.metricNames ↔ 0 < i.metricCount metric := by
  rw [metricNames, List.mem_mergeSort, List.mem_eraseDups, List.mem_flatMap, metricCount_pos_iff]

/-- No device is counted twice. -/
theorem metricCount_le (i : Inventory) (metric : String) :
    i.metricCount metric ≤ i.deviceCount := by
  have hcounts : i.byKind.map Prod.snd = i.counts.toList.map Fin.val :=
    List.map_snd_zip (by simp)
  rw [metricCount, deviceCount, ← hcounts]
  exact List.Sublist.sum_le_sum ((List.filter_sublist.trans List.filter_sublist).map _) (by simp)

/-! ## Texts -/

/-- **What a text denotes.**  A text is read as an inventory exactly if it is digits between
    blanks, however many.  The device string of the inventory is made of the first of these
    digits, as many as there are kinds, and of zeros if there are fewer; it holds as many devices
    as their sum, its device string is read as the same inventory, and the metrics that it names
    are those that it counts. -/
theorem ofText?_denotes (s : String) :
    ((ofText? s).isSome = true ↔ ∀ c ∈ (Text.trim s).toList, c.isDigit = true) ∧
      ∀ i, ofText? s = some i →
        i.render.toList = ((Text.trim s).toList.take 19).rightpad 19 '0' ∧
        i.deviceCount = (((Text.trim s).toList.take 19).map fun c => c.toNat - '0'.toNat).sum ∧
        ofText? i.render = some i ∧
        ∀ metric, (metric ∈ i.metricNames ↔ 0 < i.metricCount metric) ∧
          i.metricCount metric ≤ i.deviceCount :=
  ⟨isSome_ofText?, fun i h => ⟨render_of_ofText? h, deviceCount_of_ofText? h, ofText?_render i,
    fun metric => ⟨mem_metricNames_iff, metricCount_le i metric⟩⟩⟩

/-- A text between two blanks with more digits than there are kinds, and one with an Arabic
    digit in it. -/
theorem ofText?_denotes_surplus :
    (∃ i, ofText? "\u30003204000000100010200999\u0085" = some i ∧ i.deviceCount = 13 ∧
        i.render = "3204000000100010200" ∧ "CPU_USAGE" ∈ i.metricNames) ∧
      (ofText? "12\u06634").isSome = false := by
  have hi : ofText? "\u30003204000000100010200999\u0085" =
      some (ofCounts [3, 2, 0, 4, 0, 0, 0, 0, 0, 0, 1, 0, 0, 0, 1, 0, 2, 0, 0]) := by decide
  obtain ⟨hrender, hcount, -, hmetrics⟩ := (ofText?_denotes _).2 _ hi
  rw [Text.toList_trim] at hrender hcount
  refine ⟨⟨_, hi, hcount.trans (by decide), ?_, (hmetrics "CPU_USAGE").1.2 (by decide)⟩, ?_⟩
  · rw [← String.toList_inj, hrender]
    decide
  · rw [Bool.eq_false_iff, ne_eq, (ofText?_denotes "12\u06634").1, Text.toList_trim,
      ← List.all_eq_true]
    decide

end OverlayCensus.Inventory
