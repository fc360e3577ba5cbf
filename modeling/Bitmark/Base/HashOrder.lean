import Mathlib.Order.Lattice
import Bitmark.Base.Word

/-!
# The order of hashes

Maps of `uint256` are iterated in the order of `base_uint::operator<` (`src/uint256.h:228`), which
compares the words from the high one down.
-/

namespace Bitmark

instance : LinearOrder Uint256 where
  le_refl := BitVec.le_refl
  le_trans _ _ _ := BitVec.le_trans
  lt_iff_le_not_ge _ _ := by
    rw [BitVec.not_le]
    exact ⟨fun h ↦ ⟨BitVec.le_of_lt h, h⟩, And.right⟩
  le_antisymm _ _ := BitVec.le_antisymm
  le_total := BitVec.le_total
  toDecidableLE := inferInstance

end Bitmark
