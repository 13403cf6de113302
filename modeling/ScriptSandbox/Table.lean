/-
  Tables keyed by names, and sets of names.

  A `Table` lists its entries in the order in which their names first appeared; writing to a name
  that is present keeps its position. A `NameSet` is a list of names without repetition.
-/

namespace ScriptSandbox

/-- A table from names to values, in order of first insertion. -/
structure Table (α : Type) where
  entries : List (String × α)
deriving Repr

namespace Table

variable {α β : Type}

def empty : Table α := ⟨[]⟩

instance : EmptyCollection (Table α) := ⟨empty⟩

instance : Inhabited (Table α) := ⟨empty⟩

/-- The value at a name in a list of entries. -/
def lookup (name : String) : List (String × α) → Option α
  | [] => none
  | (n, v) :: rest => if n = name then some v else lookup name rest

/-- The entries with the value at `name` replaced, or with a new entry at the end. -/
def write (name : String) (value : α) : List (String × α) → List (String × α)
  | [] => [(name, value)]
  | (n, v) :: rest => if n = name then (n, value) :: rest else (n, v) :: write name value rest

/-- The value at a name. -/
def find? (t : Table α) (name : String) : Option α := lookup name t.entries

def contains (t : Table α) (name : String) : Bool := (t.find? name).isSome

/-- Write a value at a name; a name that is present keeps its position. -/
def insert (t : Table α) (name : String) (value : α) : Table α := ⟨write name value t.entries⟩

/-- Write a value only where the name is absent. -/
def insertNew (t : Table α) (name : String) (value : α) : Table α :=
  if t.contains name then t else t.insert name value

def erase (t : Table α) (name : String) : Table α :=
  ⟨t.entries.filter fun e => e.1 != name⟩

def names (t : Table α) : List String := t.entries.map (·.1)

def map (f : α → β) (t : Table α) : Table β := ⟨t.entries.map fun e => (e.1, f e.2)⟩

/-- A table of entries read from the left, a later entry overwriting an earlier one. -/
def ofList (es : List (String × α)) : Table α := es.foldl (fun t e => t.insert e.1 e.2) empty

/-- The entries in order of their names. -/
def sorted (t : Table α) : List (String × α) := t.entries.mergeSort fun a b => !(b.1 < a.1)

/-! ## Reading after writing -/

theorem lookup_write_self (name : String) (v : α) (es : List (String × α)) :
    lookup name (write name v es) = some v := by
  induction es with
  | nil => simp [write, lookup]
  | cons e es ih =>
    obtain ⟨n, u⟩ := e
    by_cases h : n = name <;> simp [write, lookup, h, ih]

theorem lookup_write_ne {name other : String} (h : other ≠ name) (v : α)
    (es : List (String × α)) : lookup other (write name v es) = lookup other es := by
  induction es with
  | nil => simp [write, lookup, Ne.symm h]
  | cons e es ih =>
    obtain ⟨n, u⟩ := e
    by_cases hn : n = name
    · simp [write, lookup, hn, Ne.symm h]
    · by_cases ho : n = other <;> simp_all [write, lookup]

@[simp] theorem find?_empty (name : String) : (empty : Table α).find? name = none := rfl

@[simp] theorem find?_insert_self (t : Table α) (name : String) (v : α) :
    (t.insert name v).find? name = some v := lookup_write_self name v t.entries

theorem find?_insert_ne (t : Table α) {name other : String} (h : other ≠ name) (v : α) :
    (t.insert name v).find? other = t.find? other := lookup_write_ne h v t.entries

theorem find?_insert (t : Table α) (name other : String) (v : α) :
    (t.insert name v).find? other = if other = name then some v else t.find? other := by
  by_cases h : other = name
  · subst h; simp
  · simp [h, find?_insert_ne t h]

theorem lookup_filter_self (name : String) (es : List (String × α)) :
    lookup name (es.filter fun e => e.1 != name) = none := by
  induction es with
  | nil => rfl
  | cons e es ih =>
    obtain ⟨n, u⟩ := e
    by_cases h : n = name <;> simp [h, lookup, ih]

theorem lookup_filter_ne {name other : String} (h : other ≠ name) (es : List (String × α)) :
    lookup other (es.filter fun e => e.1 != name) = lookup other es := by
  induction es with
  | nil => rfl
  | cons e es ih =>
    obtain ⟨n, u⟩ := e
    by_cases hn : n = name
    · simp [hn, lookup, Ne.symm h, ih]
    · by_cases ho : n = other <;> simp_all [lookup]

@[simp] theorem find?_erase_self (t : Table α) (name : String) :
    (t.erase name).find? name = none := lookup_filter_self name t.entries

theorem find?_erase_ne (t : Table α) {name other : String} (h : other ≠ name) :
    (t.erase name).find? other = t.find? other := lookup_filter_ne h t.entries

/-! ## The values of a table -/

theorem mem_write {name : String} {v u : α} {es : List (String × α)}
    (h : u ∈ (write name v es).map (·.2)) : u ∈ es.map (·.2) ∨ u = v := by
  induction es with
  | nil => exact .inr (List.mem_singleton.mp h)
  | cons e es ih =>
    obtain ⟨n, x⟩ := e
    simp only [write] at h
    split at h
    · rcases List.mem_cons.mp h with rfl | h
      · exact .inr rfl
      · exact .inl (List.mem_cons_of_mem _ h)
    · rcases List.mem_cons.mp h with rfl | h
      · exact .inl List.mem_cons_self
      · exact (ih h).imp_left (List.mem_cons_of_mem _)

theorem mem_erase {t : Table α} {name : String} {u : α}
    (h : u ∈ (t.erase name).entries.map (·.2)) : u ∈ t.entries.map (·.2) := by
  obtain ⟨e, he, rfl⟩ := List.mem_map.mp h
  exact List.mem_map_of_mem (List.mem_filter.mp he).1

theorem mem_of_lookup {name : String} {v : α} {es : List (String × α)}
    (h : lookup name es = some v) : v ∈ es.map (·.2) := by
  induction es with
  | nil => cases h
  | cons e es ih =>
    obtain ⟨n, x⟩ := e
    simp only [lookup] at h
    split at h
    · cases h
      exact List.mem_cons_self
    · exact List.mem_cons_of_mem _ (ih h)

end Table

/-- A set of names, listed without repetition. -/
structure NameSet where
  names : List String
deriving Repr

namespace NameSet

def empty : NameSet := ⟨[]⟩

instance : EmptyCollection NameSet := ⟨empty⟩

instance : Inhabited NameSet := ⟨empty⟩

def contains (s : NameSet) (name : String) : Bool := s.names.contains name

instance : Membership String NameSet := ⟨fun s name => name ∈ s.names⟩

def insert (s : NameSet) (name : String) : NameSet :=
  if s.contains name then s else ⟨s.names ++ [name]⟩

def erase (s : NameSet) (name : String) : NameSet := ⟨s.names.filter (· != name)⟩

def ofList (names : List String) : NameSet := names.foldl insert empty

/-- The names in order. -/
def sorted (s : NameSet) : List String := s.names.mergeSort fun a b => !(b < a)

theorem mem_def {s : NameSet} {name : String} : name ∈ s ↔ name ∈ s.names := Iff.rfl

theorem contains_iff {s : NameSet} {name : String} : s.contains name = true ↔ name ∈ s := by
  simp [contains, mem_def]

@[simp] theorem mem_insert {s : NameSet} {name other : String} :
    other ∈ s.insert name ↔ other ∈ s ∨ other = name := by
  unfold insert
  by_cases h : s.contains name
  · rw [if_pos h]
    rw [contains_iff] at h
    exact ⟨Or.inl, fun o => o.elim id fun e => e ▸ h⟩
  · simp [h, mem_def]

@[simp] theorem mem_erase {s : NameSet} {name other : String} :
    other ∈ s.erase name ↔ other ∈ s ∧ other ≠ name := by
  simp [erase, mem_def]

end NameSet

end ScriptSandbox
