import Mathlib.Data.Nat.ModEq

/-! Slots written round and round: item n goes to slot n modulo the size. The slots hold
the latest items, and from the last wrap on they hold them in order. -/
namespace Fresknode.Rings

variable {α : Type _} {size n : Nat} {cell other items : Nat → α}

def Kept (size : Nat) (cell items : Nat → α) (n : Nat) : Prop :=
  ∀ j ≤ n, n < j + size → cell (j % size) = items j

theorem slotsApart {j : Nat} (before : j ≤ n) (recent : n + 1 < j + size) :
    j % size ≠ (n + 1) % size := by
  intro same
  have divides := (Nat.modEq_iff_dvd' (by omega)).mp same
  have far := Nat.le_of_dvd (by omega) divides
  omega

theorem keptNext (kept : Kept size cell items n)
    (written : other ((n + 1) % size) = items (n + 1))
    (frame : ∀ i, i ≠ (n + 1) % size → other i = cell i) : Kept size other items (n + 1) := by
  intro j before recent
  by_cases last : j = n + 1
  · rw [last]
    exact written
  · rw [frame _ (slotsApart (by omega) recent)]
    exact kept j (by omega) (by omega)

def lastWrap (size n : Nat) : Nat := n - n % size

theorem sinceWrap (kept : Kept size cell items n) {i : Nat} (written : i ≤ n % size)
    (positive : 0 < size) : cell i = items (lastWrap size n + i) := by
  have below := Nat.mod_lt n positive
  have small := Nat.mod_le n size
  have whole : lastWrap size n = size * (n / size) := by
    have parts := Nat.div_add_mod n size
    unfold lastWrap
    omega
  have slot : (lastWrap size n + i) % size = i := by
    rw [whole,Nat.mul_add_mod]
    exact Nat.mod_eq_of_lt (by omega)
  have found := kept (lastWrap size n + i) (by unfold lastWrap; omega) (by unfold lastWrap; omega)
  rwa [slot] at found

end Fresknode.Rings
