/-!
# Finite maps on names

Entries stay in the order in which their names came first. Writing a name again replaces its entry
in place, so that putting the old value back restores the map.
-/

namespace ProofScript

structure NameMap (α : Type) where
  entries : List (String × α)
  deriving Repr

namespace NameMap

def empty : NameMap α := ⟨[]⟩

instance : EmptyCollection (NameMap α) := ⟨empty⟩

instance : Inhabited (NameMap α) := ⟨empty⟩

def find? (m : NameMap α) (x : String) : Option α := m.entries.lookup x

def contains (m : NameMap α) (x : String) : Bool := (m.find? x).isSome

def values (m : NameMap α) : List α := m.entries.map Prod.snd

def insertEntry (x : String) (a : α) : List (String × α) → List (String × α)
  | [] => [(x, a)]
  | (y, b) :: rest => if x == y then (y, a) :: rest else (y, b) :: insertEntry x a rest

def eraseEntry (x : String) : List (String × α) → List (String × α)
  | [] => []
  | (y, b) :: rest => if x == y then rest else (y, b) :: eraseEntry x rest

def insert (m : NameMap α) (x : String) (a : α) : NameMap α := ⟨insertEntry x a m.entries⟩

def erase (m : NameMap α) (x : String) : NameMap α := ⟨eraseEntry x m.entries⟩

/-- Inserts from left to right; of two entries for one name the later counts. -/
def ofList (entries : List (String × α)) : NameMap α :=
  entries.foldl (fun m (x, a) => m.insert x a) empty

/-- Makes `x` mean `a?` again, which may be nothing. -/
def restore (m : NameMap α) (x : String) (a? : Option α) : NameMap α :=
  match a? with
  | some a => m.insert x a
  | none => m.erase x

theorem insertEntry_lookup {entries : List (String × α)} {old : α}
    (h : entries.lookup x = some old) (a : α) :
    insertEntry x old (insertEntry x a entries) = entries := by
  induction entries with
  | nil => simp at h
  | cons entry rest ih =>
    obtain ⟨y, b⟩ := entry
    by_cases hxy : x = y
    · subst hxy
      simp_all [insertEntry]
    · have hne : (x == y) = false := by simp [hxy]
      simp only [List.lookup_cons, hne] at h
      simp [insertEntry, hxy, ih h]

theorem eraseEntry_insertEntry {entries : List (String × α)}
    (h : entries.lookup x = none) (a : α) :
    eraseEntry x (insertEntry x a entries) = entries := by
  induction entries with
  | nil => simp [insertEntry, eraseEntry]
  | cons entry rest ih =>
    obtain ⟨y, b⟩ := entry
    by_cases hxy : x = y
    · subst hxy
      simp at h
    · have hne : (x == y) = false := by simp [hxy]
      simp only [List.lookup_cons, hne] at h
      simp [insertEntry, eraseEntry, hxy, ih h]

theorem restore_insert (m : NameMap α) (x : String) (a : α) :
    (m.insert x a).restore x (m.find? x) = m := by
  cases h : m.find? x with
  | some old => simp [restore, insert, insertEntry_lookup h]
  | none => simp [restore, insert, erase, eraseEntry_insertEntry h]

end NameMap

end ProofScript
