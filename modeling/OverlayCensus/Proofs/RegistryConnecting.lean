/-
  OverlayCensus — what connecting hands out.

  Every vertex of an overlay is told whom to dial, and which devices it has.  These are the ones
  that its peer has registered, or drawn ones; and as a draw can be wasted, so many are allowed
  before a drawn inventory is completed without.

  * `assignedIn`, `issuesIn`: the inventories of the vertices, whatever number of draws is allowed;
  * `connectPeers_eq`: no vertex is left out, and none is refused.
-/
import Mathlib
import OverlayCensus.Proofs.OverlayDialing
import OverlayCensus.Registry

namespace OverlayCensus.Registry

variable {r : Registry} {o : Overlay}

/-- The inventory that a vertex is assigned if `tries` draws are allowed for one that is drawn. -/
def assignedIn (r : Registry) (tries : ℕ) (v : Vertex) (d : Draws) : Inventory × Draws :=
  let drawn := Inventory.fill (min v.devices.toNat Inventory.capacity) tries .empty d
  match r.peers.find? fun p => p.identity = v.peer with
  | some p => if p.inventory.deviceCount = v.devices.toNat then (p.inventory, d) else drawn
  | none => drawn

theorem assignedIn_patience (r : Registry) : r.assignedIn Inventory.patience = r.assigned :=
  rfl

/-- Vertices with the inventories that they are assigned one after the other. -/
def issuesIn (r : Registry) (tries : ℕ) : List Vertex → Draws → List (Vertex × Inventory)
  | [], _ => []
  | v :: vs, d =>
    (v, (r.assignedIn tries v d).1) :: issuesIn r tries vs (r.assignedIn tries v d).2

theorem map_fst_issuesIn (r : Registry) (tries : ℕ) (vs : List Vertex) (d : Draws) :
    (r.issuesIn tries vs d).map Prod.fst = vs := by
  induction vs generalizing d with
  | nil => rfl
  | cons v vs ih => exact congrArg (v :: ·) (ih _)

/-- Each inventory is assigned to its vertex with the draws that the vertices before have left. -/
theorem exists_draws_of_mem_issuesIn {tries : ℕ} {vs : List Vertex} {d : Draws}
    {a : Vertex × Inventory} (ha : a ∈ r.issuesIn tries vs d) :
    a.1 ∈ vs ∧ ∃ d', a.2 = (r.assignedIn tries a.1 d').1 := by
  induction vs generalizing d with
  | nil => cases ha
  | cons v vs ih =>
    rcases List.mem_cons.1 ha with rfl | ha
    · exact ⟨List.mem_cons_self, d, rfl⟩
    · exact (ih ha).imp_left (List.mem_cons_of_mem v)

/-- What tells a vertex whom to dial and which devices it has. -/
def issue (o : Overlay) (a : Vertex × Inventory) : Outgoing :=
  .send a.1.peer (.initiateConnections (o.listOf a.1.peer) a.2.render)

theorem connectionLists_eq (r : Registry) (h : o.Distinct) (vs : List Vertex)
    (hvs : ∀ v ∈ vs, v.peer ∈ o.peers) (d : Draws) :
    r.connectionLists o vs d = ((r.issuesIn Inventory.patience vs d).map (issue o), none) := by
  induction vs generalizing d with
  | nil => rfl
  | cons v vs ih =>
    obtain ⟨hv, hrest⟩ := List.forall_mem_cons.1 hvs
    simp only [connectionLists, h.initiationList_eq_ok hv, ih hrest, issuesIn,
      assignedIn_patience, List.map_cons, issue]

/-- **Connecting tells every vertex** whom to dial and which devices it has. -/
theorem connectPeers_eq (h : o.Distinct) (hoverlay : r.overlay = some o) (d : Draws) :
    r.connectPeers d =
      { r.say ("Sent connection lists to " ++ Decimal.render o.size ++ " peers") with
        outgoing := r.unlessStopped
          ((r.issuesIn Inventory.patience o.vertices.toList d).map (issue o)) } := by
  have hlists := r.connectionLists_eq h o.vertices.toList (fun v hv => List.mem_map_of_mem hv) d
  simp only [connectPeers, hoverlay, hlists]

theorem execute_connectPeers (h : o.Distinct) (hoverlay : r.overlay = some o)
    (hrunning : r.stopped = false) (occasion : Occasion) :
    (r.execute occasion .connectPeers).registry = r ∧
      (r.execute occasion .connectPeers).outgoing =
        (r.issuesIn Inventory.patience o.vertices.toList occasion.draws).map (issue o) := by
  rw [execute, connectPeers_eq h hoverlay, unlessStopped, hrunning]
  exact ⟨rfl, rfl⟩

end OverlayCensus.Registry
