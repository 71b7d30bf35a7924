/-
  OverlayCensus — how an inventory is filled.

  Slots are drawn one after the other as long as devices are missing.  A draw of a full slot is
  wasted, so nothing bounds the number of draws.  But no more devices are asked for than there is
  room for, so that a draw which is not wasted is always left, and where the draws end there are
  exactly as many devices as were asked for.

  * `Filling`: the draws that are made, and what becomes of an inventory;
  * `held_of_filling`, `deviceCount_of_filling`: what it holds after them;
  * `exists_completion`: the draws can always be brought to an end;
  * `fill_of_filling`, `exists_drawn`: `fill` makes these draws, and all of them can come up;
  * `fills_exactly`: so an inventory is filled exactly.
-/
import Mathlib
import OverlayCensus.Proofs.DrawOutcomes
import OverlayCensus.Proofs.Inventories

namespace OverlayCensus.Inventory

variable {total : ℕ} {i i' i'' : Inventory} {slots more : List (Fin 19)} {d rest : Draws}

/-- The slots are drawn one after the other, each while devices are missing, and turn the first
    inventory into the second. -/
inductive Filling (total : ℕ) : Inventory → List (Fin 19) → Inventory → Prop
  | nil (i : Inventory) : Filling total i [] i
  | draw {i i' : Inventory} {slot : Fin 19} {slots : List (Fin 19)} :
      i.deviceCount < total → Filling total (i.add slot) slots i' →
        Filling total i (slot :: slots) i'

instance decidableFilling : ∀ (i : Inventory) (slots : List (Fin 19)) (i' : Inventory),
    Decidable (Filling total i slots i')
  | i, [], i' => decidable_of_iff (i = i') ⟨fun h => h ▸ .nil i, fun h => by cases h; rfl⟩
  | i, slot :: slots, i' =>
    have := decidableFilling (i.add slot) slots i'
    decidable_of_iff (i.deviceCount < total ∧ Filling total (i.add slot) slots i')
      ⟨fun h => .draw h.1 h.2, fun h => by cases h with | draw hless h => exact ⟨hless, h⟩⟩

theorem Filling.append (h : Filling total i slots i') (hmore : Filling total i' more i'') :
    Filling total i (slots ++ more) i'' := by
  induction h with
  | nil _ => exact hmore
  | draw hless _ ih => exact .draw hless (ih hmore)

/-- The number of draws that find room. -/
def productive : Inventory → List (Fin 19) → ℕ
  | _, [] => 0
  | i, slot :: slots => (if i.held slot < 9 then 1 else 0) + productive (i.add slot) slots

/-! ## What an inventory holds after draws -/

theorem held_empty (k : Fin 19) : held .empty k = 0 := by
  simp [held, empty, Vector.get_eq_getElem]

theorem deviceCount_empty : deviceCount .empty = 0 :=
  rfl

/-- **Of each kind there are as many devices as its slot was drawn**, up to nine. -/
theorem held_of_filling (h : Filling total i slots i') (k : Fin 19) :
    i'.held k = min 9 (i.held k + slots.count k) := by
  induction h with
  | nil i =>
    have hle := i.held_le k
    rw [List.count_nil]
    omega
  | @draw i i' slot slots _ _ ih =>
    have hle := i.held_le k
    rw [ih, held_add, List.count_cons]
    by_cases hk : k = slot
    · -- a tenth device is not taken, and the bound hides its draw
      subst hk
      simp only [true_and, beq_self_eq_true, if_true]
      split_ifs <;> omega
    · have hne : (slot == k) = false := beq_false_of_ne (Ne.symm hk)
      simp [hk, hne]

theorem deviceCount_of_filling (h : Filling total i slots i') :
    i'.deviceCount = i.deviceCount + productive i slots := by
  induction h with
  | nil i => rfl
  | draw _ _ ih => rw [ih, deviceCount_add, productive, Nat.add_assoc]

/-- One draw brings at most one device, and none is made when none is missing. -/
theorem deviceCount_le_of_filling (h : Filling total i slots i') (hle : i.deviceCount ≤ total) :
    i'.deviceCount ≤ total := by
  induction h with
  | nil i => exact hle
  | draw hless _ ih =>
    refine ih ?_
    rw [deviceCount_add]
    split_ifs <;> omega

/-! ## Room for what is missing -/

/-- As long as devices are missing, a draw that brings one is left. -/
theorem exists_productive (h : i.deviceCount < capacity) :
    ∃ slot, i.held slot < 9 ∧ (i.add slot).deviceCount = i.deviceCount + 1 := by
  obtain ⟨slot, hroom⟩ := exists_room h
  exact ⟨slot, hroom, by rw [deviceCount_add, if_pos hroom]⟩

/-- **The draws can be brought to an end** by as many more as devices are missing. -/
theorem exists_completion (htotal : total ≤ capacity) (hle : i.deviceCount ≤ total) :
    ∃ slots i', Filling total i slots i' ∧ slots.length = total - i.deviceCount ∧
      i'.deviceCount = total := by
  -- the number of missing devices goes down by one with each draw
  induction hmissing : total - i.deviceCount generalizing i with
  | zero => exact ⟨[], i, .nil i, rfl, by omega⟩
  | succ missing ih =>
    obtain ⟨slot, -, hadded⟩ := exists_productive (i := i) (by omega)
    obtain ⟨slots, i', hfilling, hlength, hcount⟩ := ih (i := i.add slot) (by omega) (by omega)
    exact ⟨slot :: slots, i', .draw (by omega) hfilling, by rw [List.length_cons, hlength], hcount⟩

/-! ## The draws of a stream -/

/-- The slots are the next ones that are drawn from a stream, and leave the other stream. -/
inductive Drawn : Draws → List (Fin 19) → Draws → Prop
  | nil (d : Draws) : Drawn d [] d
  | next {d rest : Draws} {slots : List (Fin 19)} :
      Drawn (d.below 19).2 slots rest → Drawn d (Fin.ofNat 19 (d.below 19).1 :: slots) rest

/-- **The loop makes these draws**, and goes on with what they leave. -/
theorem fill_of_filling (h : Filling total i slots i') (hdrawn : Drawn d slots rest) (tries : ℕ) :
    fill total (slots.length + tries) i d = fill total tries i' rest := by
  induction hdrawn generalizing i with
  | nil d =>
    cases h
    rw [List.length_nil, Nat.zero_add]
  | next _ ih =>
    obtain _ | ⟨hless, hrest⟩ := h
    rw [List.length_cons, Nat.succ_add, fill, if_pos hless]
    exact ih hrest

/-- Where no devices are missing, nothing is drawn. -/
theorem fill_eq_self (h : total ≤ i.deviceCount) (tries : ℕ) (d : Draws) :
    fill total tries i d = (i, d) := by
  cases tries with
  | zero => rw [fill, Nat.sub_eq_zero_of_le h, addFirst]
  | succ tries => rw [fill, if_neg (not_lt.2 h)]

/-- **Every sequence of slots can be drawn**, on some words to begin with. -/
theorem exists_drawn (slots : List (Fin 19)) :
    ∃ ws : List UInt64, ∀ d, d.Starts ws → Drawn d slots (d.skip ws.length) := by
  induction slots with
  | nil => exact ⟨[], fun d _ => .nil d⟩
  | cons slot slots ih =>
    obtain ⟨ws, hws⟩ := Draws.leads_below (by norm_num) slot.isLt Prod.mk
    obtain ⟨vs, hvs⟩ := ih
    refine ⟨ws ++ vs, fun d hd => ?_⟩
    obtain ⟨hfirst, hrest⟩ := Draws.starts_append.1 hd
    have hbelow : d.below 19 = (slot.val, d.skip ws.length) := hws d hfirst
    have hslot : Fin.ofNat 19 (d.below 19).1 = slot := by rw [hbelow, Fin.ofNat_val_eq_self]
    have hdrawn := hvs _ hrest
    rw [Draws.skip_skip, ← List.length_append] at hdrawn
    exact hslot ▸ Drawn.next (by rwa [hbelow])

/-! ## Exactness -/

/-- **An inventory is filled exactly.**  Whatever slots have come up, there are as many devices of
    each kind as its slot was drawn, but no more than nine; and on every stream that begins with
    these slots, of which there are some, the draws go on from there.  While devices are missing
    there is a slot with room, any slot can be drawn next, and the draws can end after as many more
    as devices are missing.  Where they end there are as many devices as were asked for, or as many
    as an inventory can hold if that is less, and just as many draws found room.  This is then the
    inventory that is drawn, however many draws are allowed, if these are among them. -/
theorem fills_exactly (h : Filling (min total capacity) .empty slots i) :
    let target := min total capacity
    (∀ k, i.held k = min 9 (slots.count k)) ∧
      (∃ d rest, Drawn d slots rest) ∧
      (∀ d rest, Drawn d slots rest → ∀ tries,
        fill target (slots.length + tries) .empty d = fill target tries i rest) ∧
      (i.deviceCount < target →
        (∃ slot, i.held slot < 9 ∧ (i.add slot).deviceCount = i.deviceCount + 1) ∧
        (∀ slot, Filling target .empty (slots ++ [slot]) (i.add slot)) ∧
        ∃ more i', Filling target .empty (slots ++ more) i' ∧
          i.deviceCount + more.length = target ∧ i'.deviceCount = target) ∧
      (target ≤ i.deviceCount →
        i.deviceCount = target ∧ productive .empty slots = target ∧
        ∀ d rest, Drawn d slots rest →
          (∀ tries, slots.length ≤ tries → fill target tries .empty d = (i, rest)) ∧
          (slots.length ≤ patience → withTotal total d = (i, rest))) := by
  intro target
  have hle : i.deviceCount ≤ target := deviceCount_le_of_filling h (Nat.zero_le _)
  have hcount : i.deviceCount = productive .empty slots := by
    rw [deviceCount_of_filling h, deviceCount_empty, Nat.zero_add]
  have hfill : ∀ d rest, Drawn d slots rest → ∀ tries,
      fill target (slots.length + tries) .empty d = fill target tries i rest :=
    fun d rest hd tries => fill_of_filling h hd tries
  obtain ⟨ws, hws⟩ := exists_drawn slots
  obtain ⟨word, hword⟩ := Draws.exists_starts ws
  refine ⟨fun k => ?_, ⟨_, _, hws _ hword⟩, hfill, fun hless => ⟨?_, fun slot => ?_, ?_⟩,
    fun hge => ⟨le_antisymm hle hge, hcount ▸ le_antisymm hle hge, fun d rest hd => ?_⟩⟩
  · rw [held_of_filling h, held_empty, Nat.zero_add]
  · exact exists_productive (hless.trans_le (min_le_right _ _))
  · exact h.append (.draw hless (.nil _))
  · obtain ⟨more, i', hmore, hlength, htotal⟩ := exists_completion (min_le_right _ _) hle
    exact ⟨more, i', h.append hmore, by omega, htotal⟩
  · have hend : ∀ tries, slots.length ≤ tries → fill target tries .empty d = (i, rest) := by
      intro tries htries
      obtain ⟨spare, rfl⟩ := Nat.exists_eq_add_of_le htries
      rw [hfill d rest hd, fill_eq_self hge]
    exact ⟨hend, hend patience⟩

/-- Twelve devices are asked for.  The first slot comes up ten times, so that one draw is wasted and
    three devices are missing, which three other slots bring. -/
theorem fills_exactly_wasted :
    let slots : List (Fin 19) := List.replicate 10 0 ++ [1, 2, 3]
    let i := ofCounts [9, 1, 1, 1]
    (Filling (min 12 capacity) .empty (List.replicate 10 0) (ofCounts [9]) ∧
        (ofCounts [9]).deviceCount < min 12 capacity ∧ ∃ slot, (ofCounts [9]).held slot < 9) ∧
      (Filling (min 12 capacity) .empty slots i ∧ min 12 capacity ≤ i.deviceCount) ∧
        i.deviceCount = 12 ∧ productive .empty slots = 12 ∧
          ∃ d rest, Drawn d slots rest ∧ withTotal 12 d = (i, rest) := by
  intro slots i
  have hmid : Filling (min 12 capacity) .empty (List.replicate 10 0) (ofCounts [9]) := by decide
  have hless : (ofCounts [9]).deviceCount < min 12 capacity := by decide
  have hend : Filling (min 12 capacity) .empty slots i := by decide
  have hge : min 12 capacity ≤ i.deviceCount := by decide
  obtain ⟨-, -, -, hmissing, -⟩ := fills_exactly hmid
  obtain ⟨⟨slot, hroom, -⟩, -⟩ := hmissing hless
  obtain ⟨-, ⟨d, rest, hd⟩, -, -, hfull⟩ := fills_exactly hend
  obtain ⟨hcount, hproductive, hdrawn⟩ := hfull hge
  exact ⟨⟨hmid, hless, slot, hroom⟩, ⟨hend, hge⟩, hcount, hproductive, d, rest, hd,
    (hdrawn d rest hd).2 (by decide)⟩

end OverlayCensus.Inventory
