/-!
# Keyed tables

A finite table from keys to values that lists every key once, in the order of its first
insertion. `update` is the one operation that writes: it hands the present value of a key, if
any, to a function and stores the result. What the other writes do to `get?` follows from
`get?_update`. The size is the number of keys under which something is stored, however the table
came about.
-/

namespace Unerase

universe u v

namespace Entries

variable {κ : Type u} {ν : Type v}

/-- The keys of a list of entries. -/
def keys : List (κ × ν) → List κ
  | [] => []
  | (k, _) :: rest => k :: keys rest

variable [DecidableEq κ]

/-- The value listed with a key. -/
def get? (key : κ) : List (κ × ν) → Option ν
  | [] => none
  | (k, v) :: rest => if k = key then some v else get? key rest

/-- Changes the value of a key in place, or lists the key at the end. -/
def update (key : κ) (f : Option ν → ν) : List (κ × ν) → List (κ × ν)
  | [] => [(key, f none)]
  | (k, v) :: rest => if k = key then (k, f (some v)) :: rest else (k, v) :: update key f rest

theorem get?_update (key other : κ) (f : Option ν → ν) (entries : List (κ × ν)) :
    get? other (update key f entries) =
      if other = key then some (f (get? key entries)) else get? other entries := by
  induction entries with
  | nil => by_cases h : key = other <;> simp [update, get?, h, eq_comm]
  | cons entry rest ih =>
    obtain ⟨k, v⟩ := entry
    by_cases hk : k = key <;> by_cases h : k = other
    · subst hk
      simp [update, get?, h]
    · subst hk
      simp [update, get?, h, Ne.symm h]
    · subst h
      simp [update, get?, hk]
    · simp [update, get?, hk, h, ih]

theorem mem_keys_update (key other : κ) (f : Option ν → ν) (entries : List (κ × ν)) :
    other ∈ keys (update key f entries) ↔ other = key ∨ other ∈ keys entries := by
  induction entries with
  | nil => simp [update, keys]
  | cons entry rest ih =>
    obtain ⟨k, v⟩ := entry
    by_cases hk : k = key
    · subst hk
      simp [update, keys]
    · simp only [update, hk, if_false, keys, List.mem_cons, ih]
      constructor <;> rintro (h | h | h) <;> simp [h]

theorem nodup_update (key : κ) (f : Option ν → ν) {entries : List (κ × ν)}
    (h : (keys entries).Nodup) : (keys (update key f entries)).Nodup := by
  induction entries with
  | nil => simp [update, keys]
  | cons entry rest ih =>
    obtain ⟨k, v⟩ := entry
    rw [keys, List.nodup_cons] at h
    by_cases hk : k = key
    · simpa [update, hk, keys] using hk ▸ h
    · simp only [update, hk, if_false, keys, List.nodup_cons, mem_keys_update]
      exact ⟨fun hm => hm.elim id h.1, ih h.2⟩

theorem get?_eq_none_iff {key : κ} {entries : List (κ × ν)} :
    get? key entries = none ↔ key ∉ keys entries := by
  induction entries with
  | nil => simp [get?, keys]
  | cons entry rest ih =>
    obtain ⟨k, v⟩ := entry
    by_cases hk : k = key
    · simp [get?, hk, keys]
    · simp [get?, hk, keys, ih, Ne.symm hk]

/-- Nothing changes where the value of a key stays what it is. -/
theorem update_eq_self {key : κ} {f : Option ν → ν} {value : ν} {entries : List (κ × ν)}
    (h : get? key entries = some value) (hf : f (some value) = value) :
    update key f entries = entries := by
  induction entries with
  | nil => cases h
  | cons entry rest ih =>
    obtain ⟨k, v⟩ := entry
    by_cases hk : k = key
    · obtain rfl : v = value := by simpa [get?, hk] using h
      simp [update, hk, hf]
    · simp only [get?, hk, if_false] at h
      simp [update, hk, ih h]

end Entries

/-- A table lists its keys without repetition. -/
structure Table (κ : Type u) (ν : Type v) where
  entries : List (κ × ν)
  nodup : (Entries.keys entries).Nodup

namespace Table

variable {κ : Type u} {ν : Type v}

/-- The table without entries. -/
def empty : Table κ ν := ⟨[], List.nodup_nil⟩

/-- The keys of a table, each once. -/
def keys (t : Table κ ν) : List κ := Entries.keys t.entries

/-- The number of keys. -/
def size (t : Table κ ν) : Nat := t.entries.length

/-- A table is empty when it lists no key. -/
def isEmpty (t : Table κ ν) : Bool := t.entries.isEmpty

/-- The entries in increasing order of their keys. -/
def sorted [Ord κ] (t : Table κ ν) : List (κ × ν) :=
  t.entries.mergeSort fun a b => (compare a.1 b.1).isLE

variable [DecidableEq κ]

/-- The value stored under a key. -/
def get? (t : Table κ ν) (key : κ) : Option ν := Entries.get? key t.entries

/-- A table contains a key when a value is stored under it. -/
def contains (t : Table κ ν) (key : κ) : Bool := (t.get? key).isSome

/-- Stores what a function makes of the present value of a key. -/
def update (t : Table κ ν) (key : κ) (f : Option ν → ν) : Table κ ν :=
  ⟨Entries.update key f t.entries, Entries.nodup_update key f t.nodup⟩

/-- Stores a value, in place of an older one if there is one. -/
def put (t : Table κ ν) (key : κ) (value : ν) : Table κ ν := t.update key fun _ => value

/-- Stores a value unless the key has one already. -/
def putNew (t : Table κ ν) (key : κ) (value : ν) : Table κ ν :=
  t.update key fun present => present.getD value

@[simp] theorem get?_empty (key : κ) : (empty : Table κ ν).get? key = none := rfl

theorem get?_update (t : Table κ ν) (key other : κ) (f : Option ν → ν) :
    (t.update key f).get? other = if other = key then some (f (t.get? key)) else t.get? other :=
  Entries.get?_update key other f t.entries

@[simp] theorem get?_put (t : Table κ ν) (key other : κ) (value : ν) :
    (t.put key value).get? other = if other = key then some value else t.get? other :=
  get?_update t key other _

@[simp] theorem get?_putNew (t : Table κ ν) (key other : κ) (value : ν) :
    (t.putNew key value).get? other =
      if other = key then some ((t.get? key).getD value) else t.get? other :=
  get?_update t key other _

/-- A key that has a value keeps it. -/
theorem putNew_eq_self {t : Table κ ν} {key : κ} {present : ν} (h : t.get? key = some present)
    (value : ν) : t.putNew key value = t := by
  obtain ⟨entries, hnodup⟩ := t
  have hentries : Entries.update key (fun old => old.getD value) entries = entries :=
    Entries.update_eq_self h rfl
  simp only [putNew, update, hentries]

/-- The listed keys are those under which a value is stored. -/
theorem mem_keys_iff {t : Table κ ν} {key : κ} : key ∈ t.keys ↔ t.contains key = true := by
  have h : t.get? key = none ↔ key ∉ t.keys := Entries.get?_eq_none_iff
  rw [contains, Option.isSome_iff_ne_none, ne_eq, h, Decidable.not_not]

theorem isEmpty_iff {t : Table κ ν} : t.isEmpty = true ↔ ∀ key, t.get? key = none := by
  constructor
  · intro h key
    simp [get?, List.isEmpty_iff.1 h, Entries.get?]
  · intro h
    cases he : t.entries with
    | nil => simp [isEmpty, he]
    | cons entry rest =>
      have hnone := h entry.1
      simp [get?, he, Entries.get?] at hnone

end Table

end Unerase
