import Mathlib.Data.Finset.Card
import Unerase.Table

/-!
# Counting the keys of a table

A table lists every key once, so its size is the number of keys under which something is stored.
Nothing has to be known of how the table came about.
-/

namespace Unerase

universe u v

variable {κ : Type u} {ν : Type v}

theorem Entries.length_keys (entries : List (κ × ν)) : (keys entries).length = entries.length := by
  induction entries with
  | nil => rfl
  | cons entry rest ih => rw [keys, List.length_cons, List.length_cons, ih]

/-- The size of a table is the number of keys under which a value is stored. -/
theorem Table.size_eq_card [DecidableEq κ] {t : Table κ ν} {keys : Finset κ}
    (h : ∀ key, t.contains key = true ↔ key ∈ keys) : t.size = keys.card := by
  have hkeys : t.keys.toFinset = keys := by
    ext key
    rw [List.mem_toFinset, mem_keys_iff, h]
  have hnodup : t.keys.Nodup := t.nodup
  rw [← hkeys, List.toFinset_card_of_nodup hnodup]
  exact (Entries.length_keys t.entries).symm

end Unerase
