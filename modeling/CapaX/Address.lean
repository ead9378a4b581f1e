import Mathlib.Data.Prod.Lex
import Mathlib.Order.Lattice
import Mathlib.Order.Basic
import Mathlib.Data.Nat.Basic
import Mathlib.Order.Nat

/-
  Addresses (`address.rs`). Every kind is its own constructor, so `absolute 0x1000` and
  `relative 0x1000` differ. The order is the lexicographic one on `sortKey`: the kind first,
  then the fields in the order the drivers visit them.
-/

namespace CapaX

inductive Address where
  | absolute (v : UInt64)
  | relative (v : UInt64)
  | file (v : UInt64)
  | dnToken (v : UInt32)
  | dnTokenOffset (token offset : UInt32)
  | process (ppid pid : UInt32)
  | thread (ppid pid tid : UInt32)
  | call (ppid pid tid : UInt32) (id : UInt64)
  | noAddress
  deriving DecidableEq, Repr

namespace Address

/-- The six components an address is compared by; components a kind does not have are zero. -/
abbrev SortKey := ℕ ×ₗ ℕ ×ₗ ℕ ×ₗ ℕ ×ₗ ℕ ×ₗ ℕ

def sortKeyOf (kind v a b c d : Nat) : SortKey :=
  toLex (kind, toLex (v, toLex (a, toLex (b, toLex (c, d)))))

def sortKey : Address → SortKey
  | absolute v => sortKeyOf 0 v.toNat 0 0 0 0
  | relative v => sortKeyOf 1 v.toNat 0 0 0 0
  | file v => sortKeyOf 2 v.toNat 0 0 0 0
  | dnToken v => sortKeyOf 3 v.toNat 0 0 0 0
  | dnTokenOffset token offset => sortKeyOf 4 0 token.toNat offset.toNat 0 0
  | process ppid pid => sortKeyOf 5 0 ppid.toNat pid.toNat 0 0
  | thread ppid pid tid => sortKeyOf 6 0 ppid.toNat pid.toNat tid.toNat 0
  | call ppid pid tid id => sortKeyOf 7 0 ppid.toNat pid.toNat tid.toNat id.toNat
  | noAddress => sortKeyOf 8 0 0 0 0 0

theorem sortKeyOf_inj {k v a b c d k' v' a' b' c' d' : Nat} :
    sortKeyOf k v a b c d = sortKeyOf k' v' a' b' c' d' ↔
      k = k' ∧ v = v' ∧ a = a' ∧ b = b' ∧ c = c' ∧ d = d' := by
  simp [sortKeyOf]

/-- No two addresses compare equal. -/
theorem sortKey_injective : Function.Injective sortKey := by
  intro x y h
  cases x <;> cases y <;>
    simp_all [sortKey, sortKeyOf_inj, UInt64.toNat_inj, UInt32.toNat_inj]

instance : LinearOrder Address := LinearOrder.lift' sortKey sortKey_injective

/-- `noAddress` is the greatest address. -/
theorem le_noAddress (x : Address) : x ≤ noAddress := by
  change x.sortKey ≤ noAddress.sortKey
  cases x <;> simp [sortKey, sortKeyOf, Prod.Lex.le_iff]

end Address

end CapaX
