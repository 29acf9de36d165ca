/-
  Finite maps kept as entry lists in strictly ascending key order.

  A program carries two of them (constants by address, functions by name) and the compiler a few
  more.  What other parts can see of such a map is its look-up function and its entries in key
  order, so the order is part of the type: `Table.ascending` says that each key is below every later
  one.  Two tables with the same entries are then equal outright, which is what lets a decoded
  program be compared with the one that was written.

  `insert` is a single pass: it stops at the first key that is not below the new one and replaces
  the entry there when the keys agree, so the last write to a key wins.
-/

namespace Quadruple

/-- A finite map from `κ` to `ν`: entries in strictly ascending key order. -/
structure Table (κ ν : Type) [Ord κ] where
  entries : List (κ × ν)
  ascending : entries.Pairwise (fun a b => compare a.1 b.1 = .lt)

namespace Table

variable {κ ν : Type} [Ord κ]

/-! ## Entry lists -/

/-- Put an entry at its place, replacing the entry of the same key. -/
def insertEntry (k : κ) (v : ν) : List (κ × ν) → List (κ × ν)
  | [] => [(k, v)]
  | (k', v') :: rest =>
    match compare k k' with
    | .lt => (k, v) :: (k', v') :: rest
    | .eq => (k, v) :: rest
    | .gt => (k', v') :: insertEntry k v rest

/-- The value of the first entry whose key agrees with `k`. -/
def valueIn? (k : κ) : List (κ × ν) → Option ν
  | [] => none
  | (k', v) :: rest => if compare k k' = .eq then some v else valueIn? k rest

theorem mem_insertEntry {k : κ} {v : ν} {e : κ × ν} :
    ∀ {l : List (κ × ν)}, e ∈ insertEntry k v l → e = (k, v) ∨ e ∈ l
  | [], h => by
    rw [insertEntry, List.mem_singleton] at h
    exact Or.inl h
  | (k', v') :: rest, h => by
    rw [insertEntry] at h
    split at h
    · exact (List.mem_cons.mp h).imp id id
    · exact (List.mem_cons.mp h).imp id (List.mem_cons_of_mem _)
    rcases List.mem_cons.mp h with h | h
    · exact Or.inr (h ▸ List.mem_cons_self)
    · exact (mem_insertEntry h).imp id (List.mem_cons_of_mem _)

theorem insertEntry_ascending [Std.TransOrd κ] [Std.LawfulEqOrd κ] (k : κ) (v : ν) :
    ∀ {l : List (κ × ν)}, l.Pairwise (fun a b => compare a.1 b.1 = .lt) →
      (insertEntry k v l).Pairwise (fun a b => compare a.1 b.1 = .lt)
  | [], _ => List.pairwise_singleton _ _
  | (k', v') :: rest, h => by
    have hhead := (List.pairwise_cons.mp h).1
    have htail := (List.pairwise_cons.mp h).2
    rw [insertEntry]
    split
    · rename_i hlt
      -- the new key is below the head, hence below everything after it
      refine List.pairwise_cons.mpr ⟨fun e he => ?_, h⟩
      rcases List.mem_cons.mp he with rfl | he
      · exact hlt
      · exact Std.TransCmp.lt_trans hlt (hhead e he)
    · rename_i heq
      have hk : k = k' := Std.LawfulEqOrd.compare_eq_iff_eq.mp heq
      exact List.pairwise_cons.mpr ⟨fun e he => hk ▸ hhead e he, htail⟩
    · rename_i hgt
      refine List.pairwise_cons.mpr ⟨fun e he => ?_, insertEntry_ascending k v htail⟩
      rcases mem_insertEntry he with rfl | he
      · exact Std.OrientedCmp.lt_of_gt hgt
      · exact hhead e he

theorem valueIn?_insertEntry_self [Std.LawfulEqOrd κ] (k : κ) (v : ν) :
    ∀ l : List (κ × ν), valueIn? k (insertEntry k v l) = some v
  | [] => by simp [insertEntry, valueIn?]
  | (k', v') :: rest => by
    rw [insertEntry]
    split
    · simp [valueIn?]
    · simp [valueIn?]
    · rename_i hgt
      simp [valueIn?, hgt, valueIn?_insertEntry_self k v rest]

theorem valueIn?_insertEntry_of_ne [Std.LawfulEqOrd κ] {k j : κ} (v : ν) (h : j ≠ k) :
    ∀ l : List (κ × ν), valueIn? j (insertEntry k v l) = valueIn? j l
  | [] => by simp [insertEntry, valueIn?, h]
  | (k', v') :: rest => by
    rw [insertEntry]
    split
    · simp [valueIn?, h]
    · rename_i heq
      have hk : k = k' := Std.LawfulEqOrd.compare_eq_iff_eq.mp heq
      subst hk
      simp [valueIn?, h]
    · simp [valueIn?, valueIn?_insertEntry_of_ne v h rest]

/-- A key above all others goes to the end. -/
theorem insertEntry_of_forall_lt [Std.OrientedOrd κ] (k : κ) (v : ν) :
    ∀ {l : List (κ × ν)}, (∀ e ∈ l, compare e.1 k = .lt) → insertEntry k v l = l ++ [(k, v)]
  | [], _ => rfl
  | (k', v') :: rest, h => by
    obtain ⟨hhead, htail⟩ := List.forall_mem_cons.mp h
    rw [insertEntry, Std.OrientedCmp.gt_of_lt hhead]
    exact congrArg ((k', v') :: ·) (insertEntry_of_forall_lt k v htail)

/-! ## Tables -/

/-- The table with no entries. -/
def empty : Table κ ν := ⟨[], List.Pairwise.nil⟩

instance : Inhabited (Table κ ν) := ⟨empty⟩

theorem ext_entries {s t : Table κ ν} (h : s.entries = t.entries) : s = t := by
  cases s; cases t; cases h; rfl

instance [DecidableEq κ] [DecidableEq ν] : DecidableEq (Table κ ν) := fun s t =>
  decidable_of_iff (s.entries = t.entries) ⟨ext_entries, fun h => h ▸ rfl⟩

/-- The value stored at `k`. -/
def find? (t : Table κ ν) (k : κ) : Option ν := valueIn? k t.entries

/-- Whether `k` has an entry. -/
def contains (t : Table κ ν) (k : κ) : Bool := (t.find? k).isSome

/-- How many entries there are. -/
def size (t : Table κ ν) : Nat := t.entries.length

/-- The keys in ascending order. -/
def keys (t : Table κ ν) : List κ := t.entries.map (·.1)

/-- Keep every key and change its value. -/
def mapValues {ω : Type} (f : ν → ω) (t : Table κ ν) : Table κ ω where
  entries := t.entries.map fun e => (e.1, f e.2)
  ascending := by
    rw [List.pairwise_map]
    exact t.ascending

@[simp] theorem find?_empty (k : κ) : (empty : Table κ ν).find? k = none := rfl

variable [Std.TransOrd κ] [Std.LawfulEqOrd κ]

/-- Store `v` at `k`, replacing what was there. -/
def insert (t : Table κ ν) (k : κ) (v : ν) : Table κ ν :=
  ⟨insertEntry k v t.entries, insertEntry_ascending k v t.ascending⟩

/-- Change the value at `k`; nothing happens when there is none. -/
def modify (t : Table κ ν) (k : κ) (f : ν → ν) : Table κ ν :=
  match t.find? k with
  | some v => t.insert k (f v)
  | none => t

/-- The table of a list of entries in any order; of two entries with one key the later counts. -/
def ofList (l : List (κ × ν)) : Table κ ν := l.foldl (fun t e => t.insert e.1 e.2) empty

@[simp] theorem find?_insert_self (t : Table κ ν) (k : κ) (v : ν) :
    (t.insert k v).find? k = some v :=
  valueIn?_insertEntry_self k v t.entries

theorem find?_insert_of_ne (t : Table κ ν) {k j : κ} (v : ν) (h : j ≠ k) :
    (t.insert k v).find? j = t.find? j :=
  valueIn?_insertEntry_of_ne v h t.entries

theorem find?_insert_eq_some_iff {t : Table κ ν} {k j : κ} {v w : ν} :
    (t.insert k v).find? j = some w ↔ j = k ∧ w = v ∨ j ≠ k ∧ t.find? j = some w := by
  by_cases h : j = k
  · subst h
    rw [find?_insert_self]
    constructor
    · rintro ⟨⟩
      exact Or.inl ⟨rfl, rfl⟩
    · rintro (⟨-, rfl⟩ | ⟨hne, -⟩)
      · rfl
      · exact (hne rfl).elim
  · rw [find?_insert_of_ne _ _ h]
    constructor
    · intro hw
      exact Or.inr ⟨h, hw⟩
    · rintro (⟨heq, -⟩ | ⟨-, hw⟩)
      · exact (h heq).elim
      · exact hw

/-- What holds of all entries still does if it holds of the one inserted. -/
theorem forall_insert {p : κ → ν → Prop} {t : Table κ ν} {k : κ} {v : ν}
    (ht : ∀ j w, t.find? j = some w → p j w) (hv : p k v) :
    ∀ j w, (t.insert k v).find? j = some w → p j w := by
  intro j w h
  rcases find?_insert_eq_some_iff.mp h with ⟨rfl, rfl⟩ | ⟨-, h⟩
  · exact hv
  · exact ht j w h

/-- Ascending entries that are inserted one after the other, each above all that are there, follow
these in order. -/
theorem entries_foldl_insert : ∀ {l : List (κ × ν)} {t : Table κ ν},
    (t.entries ++ l).Pairwise (fun a b => compare a.1 b.1 = .lt) →
      (l.foldl (fun t e => t.insert e.1 e.2) t).entries = t.entries ++ l
  | [], t, _ => (List.append_nil t.entries).symm
  | (k, v) :: rest, t, h => by
    have hbelow : ∀ e ∈ t.entries, compare e.1 k = .lt := fun e he =>
      (List.pairwise_append.mp h).2.2 e he (k, v) List.mem_cons_self
    have hinsert : (t.insert k v).entries = t.entries ++ [(k, v)] :=
      insertEntry_of_forall_lt k v hbelow
    rw [List.foldl_cons, entries_foldl_insert (by rwa [hinsert, List.append_assoc]), hinsert,
      List.append_assoc]
    rfl

/-- A table is the table of its entries. -/
@[simp] theorem ofList_entries (t : Table κ ν) : ofList t.entries = t :=
  ext_entries (entries_foldl_insert (t := empty) t.ascending)

/-- What a view of the values shows after an insertion. -/
theorem map_find?_insert {ω : Type} [DecidableEq κ] (f : ν → ω) (t : Table κ ν) (k : κ) (v : ν) :
    (fun j => ((t.insert k v).find? j).map f) = fun j => if j = k then some (f v)
      else (t.find? j).map f := by
  funext j
  by_cases h : j = k
  · subst h
    rw [find?_insert_self, Option.map_some, if_pos rfl]
  · rw [find?_insert_of_ne t v h, if_neg h]

/-- A view of the values does not show what it leaves out. -/
theorem map_find?_insert_of_eq {ω : Type} [DecidableEq κ] (f : ν → ω) {t : Table κ ν} {k : κ}
    {v v' : ν} (hk : t.find? k = some v) (hv : f v' = f v) :
    (fun j => ((t.insert k v').find? j).map f) = fun j => (t.find? j).map f := by
  rw [map_find?_insert]
  funext j
  split
  · rename_i h
    rw [h, hk, Option.map_some, hv]
  · rfl

end Table

end Quadruple
