import LoopNest.Word

/-! Statements are known by number. A table lists its entries in ascending order of the statement
and has at most one entry for each, so two tables are equal if they hold the same. -/

namespace LoopNest

structure StmtMap (α : Type) where
  entries : List (Nat × α)
  sorted : entries.Pairwise fun a b => a.1 < b.1
  deriving DecidableEq

instance [Repr α] : Repr (StmtMap α) := ⟨fun m n => reprPrec m.entries n⟩

namespace StmtMap

variable {α β : Type}

def empty : StmtMap α := ⟨[], .nil⟩

def insertEntry (stmt : Nat) (value : α) : List (Nat × α) → List (Nat × α)
  | [] => [(stmt, value)]
  | (s, v) :: rest =>
    if stmt < s then (stmt, value) :: (s, v) :: rest
    else if stmt = s then (stmt, value) :: rest
    else (s, v) :: insertEntry stmt value rest

theorem fst_of_mem_insertEntry {stmt : Nat} {value : α} {entries : List (Nat × α)}
    {e : Nat × α} (h : e ∈ insertEntry stmt value entries) :
    e.1 = stmt ∨ e ∈ entries := by
  induction entries with
  | nil => simp_all [insertEntry]
  | cons head rest ih =>
    obtain ⟨s, v⟩ := head
    simp only [insertEntry] at h
    split at h
    · rcases List.mem_cons.mp h with rfl | h <;> simp_all
    · split at h
      · rcases List.mem_cons.mp h with rfl | h <;> simp_all
      · rcases List.mem_cons.mp h with rfl | h
        · simp
        · rcases ih h with h | h <;> simp_all

theorem pairwise_insertEntry {stmt : Nat} {value : α} {entries : List (Nat × α)}
    (sorted : entries.Pairwise fun a b => a.1 < b.1) :
    (insertEntry stmt value entries).Pairwise fun a b => a.1 < b.1 := by
  induction entries with
  | nil => simp [insertEntry]
  | cons head rest ih =>
    obtain ⟨s, v⟩ := head
    obtain ⟨above, tail⟩ := List.pairwise_cons.mp sorted
    simp only [insertEntry]
    split
    · refine List.pairwise_cons.mpr ⟨fun e he => ?_, sorted⟩
      rcases List.mem_cons.mp he with rfl | he
      · assumption
      · have := above e he
        simp only at *
        omega
    · split
      · subst stmt
        exact List.pairwise_cons.mpr ⟨above, tail⟩
      · refine List.pairwise_cons.mpr ⟨fun e he => ?_, ih tail⟩
        rcases fst_of_mem_insertEntry he with h | h
        · simp only [h]
          omega
        · exact above e h

/-- A later value for a statement replaces an earlier one. -/
def insert (m : StmtMap α) (stmt : Nat) (value : α) : StmtMap α :=
  ⟨insertEntry stmt value m.entries, pairwise_insertEntry m.sorted⟩

def ofList (entries : List (Nat × α)) : StmtMap α :=
  entries.foldl (fun m e => m.insert e.1 e.2) empty

def get? (m : StmtMap α) (stmt : Nat) : Option α :=
  (m.entries.find? (·.1 = stmt)).map (·.2)

def contains (m : StmtMap α) (stmt : Nat) : Bool := (m.get? stmt).isSome

def keys (m : StmtMap α) : List Nat := m.entries.map (·.1)

def isEmpty (m : StmtMap α) : Bool := m.entries.isEmpty

def map (f : Nat → α → β) (m : StmtMap α) : StmtMap β :=
  ⟨m.entries.map fun e => (e.1, f e.1 e.2), by
    rw [List.pairwise_map]
    exact m.sorted⟩

def filter (keep : Nat → Bool) (m : StmtMap α) : StmtMap α :=
  ⟨m.entries.filter fun e => keep e.1, m.sorted.sublist List.filter_sublist⟩

def traverse (f : α → Checked β) (m : StmtMap α) : Checked (StmtMap β) := do
  let entries ← m.entries.mapM fun e => do
    let value ← f e.2
    return (e.1, value)
  return ofList entries

@[simp]
theorem get?_empty (stmt : Nat) : (empty : StmtMap α).get? stmt = none := rfl

theorem find?_insertEntry (stmt other : Nat) (value : α) (entries : List (Nat × α))
    (sorted : entries.Pairwise fun a b => a.1 < b.1) :
    ((insertEntry stmt value entries).find? (·.1 = other)).map (·.2) =
      if stmt = other then some value else (entries.find? (·.1 = other)).map (·.2) := by
  induction entries with
  | nil => by_cases h : stmt = other <;> simp [insertEntry, h]
  | cons head rest ih =>
    obtain ⟨s, v⟩ := head
    have tail := (List.pairwise_cons.mp sorted).2
    simp only [insertEntry]
    split
    · by_cases h : stmt = other <;> simp [h]
    · split
      · subst s
        by_cases h : stmt = other <;> simp [h]
      · by_cases h : s = other
        · have : stmt ≠ other := by omega
          simp [h, this]
        · simpa [h] using ih tail

theorem get?_insert (m : StmtMap α) (stmt other : Nat) (value : α) :
    (m.insert stmt value).get? other = if stmt = other then some value else m.get? other :=
  find?_insertEntry stmt other value m.entries m.sorted

@[simp]
theorem get?_map (f : Nat → α → β) (m : StmtMap α) (stmt : Nat) :
    (m.map f).get? stmt = (m.get? stmt).map (f stmt) := by
  simp only [get?, map]
  induction m.entries with
  | nil => rfl
  | cons head rest ih =>
    by_cases h : head.1 = stmt
    · simp [h]
    · simpa [h] using ih

@[simp]
theorem get?_filter (keep : Nat → Bool) (m : StmtMap α) (stmt : Nat) :
    (m.filter keep).get? stmt = if keep stmt then m.get? stmt else none := by
  simp only [get?, filter]
  induction m.entries with
  | nil => simp
  | cons head rest ih =>
    by_cases h : head.1 = stmt
    · subst h
      by_cases k : keep head.1
      · simp [k]
      · simpa [k] using ih
    · by_cases k : keep head.1 <;> simp_all

theorem insertEntry_of_lt {stmt : Nat} {value : α} {entries : List (Nat × α)}
    (above : ∀ e ∈ entries, e.1 < stmt) :
    insertEntry stmt value entries = entries ++ [(stmt, value)] := by
  induction entries with
  | nil => rfl
  | cons head rest ih =>
    obtain ⟨s, v⟩ := head
    have : s < stmt := above (s, v) (by simp)
    rw [insertEntry, if_neg (by omega), if_neg (by omega), ih fun e he => above e (by simp [he]),
      List.cons_append]

theorem entries_foldl_insert (m : StmtMap α) (entries : List (Nat × α))
    (sorted : (m.entries ++ entries).Pairwise fun a b => a.1 < b.1) :
    (entries.foldl (fun m e => m.insert e.1 e.2) m).entries = m.entries ++ entries := by
  induction entries generalizing m with
  | nil => simp
  | cons e rest ih =>
    have step : (m.insert e.1 e.2).entries = m.entries ++ [e] :=
      insertEntry_of_lt fun a ha => (List.pairwise_append.mp sorted).2.2 a ha e (by simp)
    rw [List.foldl_cons, ih _ (by rw [step]; simpa using sorted), step]
    simp

/-- A list that is in order is the list of entries of its table. -/
theorem entries_ofList {entries : List (Nat × α)}
    (sorted : entries.Pairwise fun a b => a.1 < b.1) : (ofList entries).entries = entries :=
  entries_foldl_insert empty entries sorted

@[simp]
theorem ofList_entries (m : StmtMap α) : ofList m.entries = m := by
  have same := entries_ofList m.sorted
  cases m with
  | mk entries sorted =>
    cases h : ofList entries with
    | mk others _ => simp_all

end StmtMap

abbrev StmtSet := StmtMap Unit

def StmtSet.ofList (stmts : List Nat) : StmtSet := StmtMap.ofList (stmts.map (·, ()))

def StmtMap.keySet (m : StmtMap α) : StmtSet := m.map fun _ _ => ()

end LoopNest
