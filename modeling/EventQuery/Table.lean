/-!
# Tables

Finite maps whose entries come in no particular order. A table carries the
proof that no key occurs twice, so an entry is what a look-up of its key
finds.
-/

namespace EventQuery

structure Table (κ α : Type) where
  entries : List (κ × α)
  nodup : (entries.map Prod.fst).Nodup

namespace Table

variable {κ α : Type} [DecidableEq κ]

def empty : Table κ α := ⟨[], .nil⟩

def get? (t : Table κ α) (key : κ) : Option α := t.entries.lookup key

def contains (t : Table κ α) (key : κ) : Bool := (t.get? key).isSome

def size (t : Table κ α) : Nat := t.entries.length

/-- Set the value of a key, in place of the one it had. -/
def insert (t : Table κ α) (key : κ) (value : α) : Table κ α where
  entries := (key, value) :: t.entries.filter (·.1 ≠ key)
  nodup := by
    refine List.nodup_cons.mpr ⟨fun member => ?_, t.nodup.sublist (List.filter_sublist.map _)⟩
    obtain ⟨entry, kept, same⟩ := List.mem_map.mp member
    exact of_decide_eq_true (List.mem_filter.mp kept).2 same

theorem lookup_filter_ne {key other : κ} (h : other ≠ key) (entries : List (κ × α)) :
    (entries.filter (·.1 ≠ key)).lookup other = entries.lookup other := by
  induction entries with
  | nil => rfl
  | cons entry rest ih =>
    obtain ⟨k, v⟩ := entry
    rw [List.filter_cons]
    split
    · rw [List.lookup_cons, List.lookup_cons, ih]
    · rename_i same
      have hk : k = key := by simpa using same
      have hbeq : (other == k) = false := beq_eq_false_iff_ne.mpr (hk ▸ h)
      rw [List.lookup_cons, hbeq, ih]

theorem get?_insert (t : Table κ α) (key other : κ) (value : α) :
    (t.insert key value).get? other = if other = key then some value else t.get? other := by
  rw [get?, insert, List.lookup_cons]
  split
  · rename_i same
    exact (if_pos (beq_iff_eq.mp same)).symm
  · rename_i different
    have hne : other ≠ key := beq_eq_false_iff_ne.mp different
    rw [if_neg hne]
    exact lookup_filter_ne hne t.entries

/-- An entry is what a look-up of its key finds. -/
theorem mem_entries_iff {t : Table κ α} {key : κ} {value : α} :
    (key, value) ∈ t.entries ↔ t.get? key = some value := by
  obtain ⟨entries, nodup⟩ := t
  change (key, value) ∈ entries ↔ entries.lookup key = some value
  induction entries with
  | nil => simp
  | cons entry rest ih =>
    obtain ⟨k, v⟩ := entry
    obtain ⟨hfresh, hrest⟩ := List.nodup_cons.mp nodup
    rw [List.lookup_cons, List.mem_cons]
    by_cases hk : key = k
    · subst hk
      have habsent : (key, value) ∉ rest := fun hmem => hfresh (List.mem_map.mpr ⟨_, hmem, rfl⟩)
      simp [habsent, eq_comm]
    · have hbeq : (key == k) = false := beq_eq_false_iff_ne.mpr hk
      simp [hbeq, hk, ih hrest]

end Table

end EventQuery
