/-
  OverlayCensus — inventories that are drawn, and inventories that are written.

  A drawn inventory has as many devices as asked for, whatever is drawn and however many draws are
  wasted: what is missing after all draws goes where there is room, and there is room as long as
  devices are missing.

  * `held_add`, `exists_room`: adding a device, and when there is room for one;
  * `deviceCount_fill`: a drawn inventory has the size that was asked for;
  * `ofText?_render`: a device string reads back as its inventory;
  * `render_eq_iff`: the texts that are read as an inventory and are its device string.
-/
import Mathlib
import OverlayCensus.Device.Inventory
import OverlayCensus.Proofs.AddressText

namespace OverlayCensus

namespace Inventory

variable {i : Inventory} {n total tries : ℕ}

/-! ## Counting -/

theorem toList_eq_ofFn {α : Type} {n : ℕ} (v : Vector α n) :
    v.toList = List.ofFn fun k : Fin n => v[k] := by
  refine List.ext_getElem (by simp) fun k hk hk' => ?_
  simp

/-- The number of devices of the kind at a slot. -/
def held (i : Inventory) (slot : Fin 19) : ℕ :=
  (i.counts.get slot).val

theorem deviceCount_eq_sum (i : Inventory) : i.deviceCount = ∑ slot, i.held slot := by
  rw [deviceCount, toList_eq_ofFn, List.map_ofFn, List.sum_ofFn]
  rfl

theorem held_le (i : Inventory) (slot : Fin 19) : i.held slot ≤ 9 :=
  Nat.le_of_lt_succ (i.counts.get slot).isLt

/-- A device string cannot carry more. -/
theorem deviceCount_le (i : Inventory) : i.deviceCount ≤ capacity := by
  rw [deviceCount_eq_sum]
  exact Finset.sum_le_card_nsmul Finset.univ i.held 9 fun slot _ => i.held_le slot

/-- As long as devices are missing, there is room for one. -/
theorem exists_room (h : i.deviceCount < capacity) : ∃ slot, i.held slot < 9 := by
  by_contra! hfull
  have hle := Finset.card_nsmul_le_sum Finset.univ i.held 9 fun slot _ => hfull slot
  rw [← deviceCount_eq_sum] at hle
  exact absurd hle (not_le.2 h)

/-- Adding a device changes nothing at the other slots, and nothing at all if there is no room. -/
theorem held_add (i : Inventory) (slot k : Fin 19) :
    (i.add slot).held k = i.held k + if k = slot ∧ i.held slot < 9 then 1 else 0 := by
  by_cases hroom : i.held slot < 9
  · have hadd : i.add slot = ⟨i.counts.set slot ⟨i.held slot + 1, by omega⟩⟩ := dif_pos hroom
    rw [hadd]
    by_cases hk : k = slot
    · subst hk
      rw [if_pos ⟨rfl, hroom⟩]
      simp [held, Vector.get_eq_getElem]
    · have hne : slot.val ≠ k.val := fun h => hk (Fin.ext h.symm)
      simp [held, Vector.get_eq_getElem, hne, hk]
  · have hadd : i.add slot = i := dif_neg hroom
    rw [hadd, if_neg fun h => hroom h.2, Nat.add_zero]

theorem deviceCount_add (i : Inventory) (slot : Fin 19) :
    (i.add slot).deviceCount = i.deviceCount + if i.held slot < 9 then 1 else 0 := by
  rw [deviceCount_eq_sum, deviceCount_eq_sum, Finset.sum_congr rfl fun k _ => i.held_add slot k,
    Finset.sum_add_distrib]
  by_cases hroom : i.held slot < 9 <;> simp [hroom]

/-! ## Drawing -/

/-- If devices are missing, the first slot with room is found. -/
theorem exists_freeSlot (h : i.deviceCount < capacity) :
    ∃ slot, i.freeSlot? = some slot ∧ i.held slot < 9 := by
  obtain ⟨slot, hroom⟩ := exists_room h
  have hsome : i.freeSlot?.isSome = true := by
    rw [freeSlot?, List.find?_isSome]
    exact ⟨slot, List.mem_finRange slot, decide_eq_true hroom⟩
  obtain ⟨first, hfirst⟩ := Option.isSome_iff_exists.1 hsome
  refine ⟨first, hfirst, ?_⟩
  rw [freeSlot?] at hfirst
  simpa [held, Vector.get_eq_getElem] using List.find?_some hfirst

theorem deviceCount_addFirst (h : i.deviceCount + n ≤ capacity) :
    (addFirst n i).deviceCount = i.deviceCount + n := by
  induction n generalizing i with
  | zero => rfl
  | succ n ih =>
    obtain ⟨slot, hfree, hroom⟩ := exists_freeSlot (i := i) (by omega)
    have hadded : (i.add slot).deviceCount = i.deviceCount + 1 := by
      rw [deviceCount_add, if_pos hroom]
    simp only [addFirst, hfree]
    rw [ih (by omega), hadded]
    omega

/-- **A drawn inventory has the size that was asked for**, whatever is drawn, and however many
    draws are allowed. -/
theorem deviceCount_fill (hle : i.deviceCount ≤ total) (htotal : total ≤ capacity) (d : Draws) :
    (fill total tries i d).1.deviceCount = total := by
  induction tries generalizing i d with
  | zero =>
    rw [fill, deviceCount_addFirst (by omega)]
    omega
  | succ tries ih =>
    rw [fill]
    split_ifs with hless
    · refine ih ?_ _
      rw [deviceCount_add]
      split_ifs <;> omega
    · exact le_antisymm hle (not_lt.1 hless)

end Inventory

/-! ## Device strings -/

namespace Decimal

theorem digitChar_of_digitValue {c : Char} {d : ℕ} (h : digitValue c = some d) :
    digitChar d = c := by
  unfold digitValue at h
  split at h
  · next hc =>
    have hlow : 48 ≤ c.toNat := hc.1
    cases h
    rw [digitChar, Nat.add_sub_cancel' hlow, Char.ofNat_toNat]
  · cases h

end Decimal

namespace Inventory

open Decimal (digitChar digitValue)

variable {i : Inventory} {s : String} {cs : List Char} {ns : List (Fin 10)}

/-- The characters of a device string with the given counts. -/
def digitChars (ns : List (Fin 10)) : List Char :=
  ns.map fun n => digitChar n.val

theorem toList_render (i : Inventory) : i.render.toList = digitChars i.counts.toList :=
  String.toList_ofList

/-- Whether a text has one digit for each kind, and nothing else. -/
def Full (s : String) : Prop :=
  s.toList.length = 19 ∧ ∀ c ∈ s.toList, (digitValue c).isSome = true

theorem isSome_of_mem_digitChars : ∀ c ∈ digitChars ns, (digitValue c).isSome = true := by
  intro c hc
  obtain ⟨n, -, rfl⟩ := List.mem_map.1 hc
  rw [Decimal.digitValue_digitChar n.isLt]
  rfl

theorem full_render (i : Inventory) : Full i.render := by
  rw [Full, toList_render]
  exact ⟨by rw [digitChars, List.length_map, Vector.length_toList], isSome_of_mem_digitChars⟩

/-- Digits are read as their values. -/
theorem readDigits_digitChars (ns : List (Fin 10)) : readDigits (digitChars ns) = some ns := by
  induction ns with
  | nil => rfl
  | cons n ns ih =>
    have hn := Decimal.digitValue_digitChar n.isLt
    rw [digitChars, List.map_cons, ← digitChars, readDigits]
    split
    · next d hd =>
      rw [hn, Option.some.injEq] at hd
      rw [ih, Option.map_some, Fin.ext (a := ⟨d, _⟩) hd.symm]
    · next hnone =>
      rw [hn] at hnone
      cases hnone

/-- Nothing else is read. -/
theorem eq_digitChars_of_readDigits (h : readDigits cs = some ns) : cs = digitChars ns := by
  induction cs generalizing ns with
  | nil =>
    cases h
    rfl
  | cons c cs ih =>
    rw [readDigits] at h
    split at h
    · next d hd =>
      obtain ⟨rest, hrest, rfl⟩ := Option.map_eq_some_iff.1 h
      rw [digitChars, List.map_cons, ← digitChars, ← ih hrest,
        Decimal.digitChar_of_digitValue hd]
    · cases h

theorem trimChars_of_digits (h : ∀ c ∈ cs, (digitValue c).isSome = true) :
    Text.trimChars cs = cs :=
  Text.trimChars_eq_self
    (fun c hc => Decimal.isBlank_of_digitValue (h c (List.mem_of_mem_head? hc)))
    fun c hc => Decimal.isBlank_of_digitValue (h c (List.mem_of_mem_getLast? hc))

theorem ofCounts_toList (i : Inventory) : ofCounts i.counts.toList = i := by
  obtain ⟨counts⟩ := i
  rw [ofCounts, mk.injEq]
  refine Vector.ext fun k hk => ?_
  rw [Vector.getElem_ofFn, List.getD_eq_getElem _ _ (by rwa [Vector.length_toList])]
  exact Vector.getElem_toList _

theorem ofFn_getD {n : ℕ} (h : ns.length = n) : List.ofFn (fun k : Fin n => ns.getD k 0) = ns := by
  subst h
  refine List.ext_getElem List.length_ofFn fun k hk hk' => ?_
  rw [List.getElem_ofFn, List.getD_eq_getElem _ _ hk']

/-- No count is missing, and none is beyond the catalog. -/
theorem toList_ofCounts (h : ns.length = 19) : (ofCounts ns).counts.toList = ns := by
  rw [ofCounts, Vector.toList_ofFn, ofFn_getD h]

/-- **A device string reads back** as its inventory. -/
theorem ofText?_render (i : Inventory) : ofText? i.render = some i := by
  rw [ofText?, toList_render, trimChars_of_digits isSome_of_mem_digitChars,
    readDigits_digitChars, Option.map_some, ofCounts_toList]

/-- **A text that is read as an inventory is its device string** if it has one digit for each
    kind.  Else digits are lacking, too many, or stand between blanks. -/
theorem render_eq_iff (h : ofText? s = some i) : i.render = s ↔ Full s := by
  constructor
  · rintro rfl
    exact i.full_render
  · rintro ⟨hlength, hdigits⟩
    rw [ofText?, trimChars_of_digits hdigits, Option.map_eq_some_iff] at h
    obtain ⟨ns, hns, rfl⟩ := h
    have hchars := eq_digitChars_of_readDigits hns
    rw [hchars, digitChars, List.length_map] at hlength
    rw [← String.toList_inj, toList_render, toList_ofCounts hlength, hchars]

end Inventory

end OverlayCensus
