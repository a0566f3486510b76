import Mathlib.Order.WellFounded
import Mathlib.Logic.ExistsUnique

/-!
# Settle — networks without cycles

Every node of a network has a value that is a function of the values of the
nodes that feed it. Where no node feeds itself through others, the network has
exactly one state in which every node has the value of its function.
-/

namespace Settle

variable {ι : Type*} {V : ι → Type*}

/-- The function of a node reads only the nodes that feed it. -/
def Local (feeds : ι → ι → Prop) (drive : (∀ i, V i) → ∀ i, V i) : Prop :=
  ∀ v v' i, (∀ j, feeds j i → v j = v' j) → drive v i = drive v' i

/-- Every node has the value of its function. -/
def Settled (drive : (∀ i, V i) → ∀ i, V i) (v : ∀ i, V i) : Prop := ∀ i, v i = drive v i

section Acyclic

variable {feeds : ι → ι → Prop} {drive : (∀ i, V i) → ∀ i, V i}

/-- Settled states that agree on some nodes agree on all nodes that these decide. -/
theorem Settled.eq_of_acc (hlocal : Local feeds drive) {v v' : ∀ i, V i} (hv : Settled drive v)
    (hv' : Settled drive v') {i : ι} (hi : Acc feeds i) : v i = v' i := by
  induction hi with
  | intro i _ ih => rw [hv i, hv' i, hlocal v v' i ih]

open Classical in
/-- The state, node by node. -/
noncomputable def settle [∀ i, Inhabited (V i)] (hwf : WellFounded feeds)
    (drive : (∀ i, V i) → ∀ i, V i) : ∀ i, V i :=
  hwf.fix fun i rec => drive (fun j => if h : feeds j i then rec j h else default) i

theorem settled_settle [∀ i, Inhabited (V i)] (hwf : WellFounded feeds)
    (hlocal : Local feeds drive) : Settled drive (settle hwf drive) := by
  intro i
  rw [settle, WellFounded.fix_eq]
  apply hlocal
  intro j hj
  exact dif_pos hj

/-- **A network without cycles settles in one state.** -/
theorem existsUnique_settled [∀ i, Inhabited (V i)] (hwf : WellFounded feeds)
    (hlocal : Local feeds drive) : ∃! v, Settled drive v :=
  ⟨settle hwf drive, settled_settle hwf hlocal, fun _ hv =>
    funext fun i => hv.eq_of_acc hlocal (settled_settle hwf hlocal) (hwf.apply i)⟩

end Acyclic

end Settle
