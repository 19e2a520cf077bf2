/-! Names of tree nodes. A node is named by its position in creation order, kept in 32 bits; the
root comes first. -/
namespace MembershipCache

structure NodeId where
  number : UInt32
  deriving DecidableEq, Hashable, Repr

namespace NodeId

def root : NodeId := ⟨0⟩

def position (id : NodeId) : Nat := id.number.toNat

/-- The name of the node at a position. Positions that differ by a multiple of 2^32 share one. -/
def ofPosition (n : Nat) : NodeId := ⟨.ofNat n⟩

@[simp] theorem position_root : root.position = 0 := rfl

theorem position_inj {a b : NodeId} : a.position = b.position ↔ a = b := by
  cases a; cases b; simp [position, UInt32.toNat_inj]

theorem position_ofPosition (n : Nat) : (ofPosition n).position = n % UInt32.size := by
  simp [position, ofPosition, UInt32.size]

theorem position_lt (id : NodeId) : id.position < UInt32.size := id.number.toNat_lt

@[simp] theorem ofPosition_position (id : NodeId) : ofPosition id.position = id := by
  simp [position, ofPosition]

end NodeId
end MembershipCache
