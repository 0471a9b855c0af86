import RowVault.Proofs.Binary64.Precedence
import RowVault.Proofs.Statistic.Weight

/-!
# Keys of multiplicities

Multiplicities are kept by keys, which stand for bit patterns one to one and in the total order.
When multiplicities are merged, each key is read back to its number, and the number gets its key
again: it is the same one, so that every entry meets the one of its own number and no other.
-/

namespace RowVault.Multiplicities

/-- Keys are isomorphic to bit patterns in the total order. The number of a bit pattern's key has
the same bits, and a number's key is the key it has been read from; one key is below another one
just if its bit pattern comes before in the total order. So merging, which takes each key to its
number and back, changes the entry of each key of the second one by what is kept there, and no other
entry. -/
theorem order_keys_isomorphic :
    (∀ x : Binary64, (Binary64.ofOrderKey x.orderKey).bits = x.bits) ∧
      (∀ key : UInt64, (Binary64.ofOrderKey key).orderKey = key) ∧
      (∀ x y : Binary64, x.orderKey < y.orderKey ↔ x.Precedes y) ∧
      ∀ (m n : Multiplicities) (key : UInt64),
        (m.merge n)[key]? =
          match n[key]? with
          | none => m[key]?
          | some delta => kept? (m.getD key 0 + delta) := by
  refine ⟨?_, Binary64.orderKey_ofOrderKey, ?_, getElem?_merge⟩
  · intro x
    rw [Binary64.ofOrderKey_orderKey]
  · intro x y
    exact Binary64.orderKey_lt_iff

/-- The zeros are kept apart, negative zero first. -/
example :
    ((bump ∅ ⟨0x0000000000000000⟩ 2).merge (bump ∅ ⟨0x8000000000000000⟩ 1)).toList =
      [(0x7FFFFFFFFFFFFFFF, 1), (0x8000000000000000, 2)] := by
  decide +kernel

end RowVault.Multiplicities
