/-!
# Ordered tables

A `Table` is a finite map kept as a list of entries in ascending key order. The order is part of the
type: writing a table out in the order of its keys is writing out its entries. `get?_insert` and
`get?_erase` say what the operations do to a lookup.
-/

namespace NodeFormula

/-- A finite map from `κ` to `ν`, with its entries in strictly ascending key order. -/
structure Table (κ : Type) [Ord κ] (ν : Type) where
  /-- The entries, least key first. -/
  entries : List (κ × ν)
  ascending : entries.Pairwise fun a b => compare a.1 b.1 = .lt

namespace Table

variable {κ ν : Type} [Ord κ]

/-- The value under a key in a list of entries. -/
def lookup (k : κ) : List (κ × ν) → Option ν
  | [] => none
  | e :: rest => if compare k e.1 = .eq then some e.2 else lookup k rest

/-- Put `v` under `k`, in key order, in place of an entry with that key. -/
def place (k : κ) (v : ν) : List (κ × ν) → List (κ × ν)
  | [] => [(k, v)]
  | e :: rest =>
    match compare k e.1 with
    | .lt => (k, v) :: e :: rest
    | .eq => (k, v) :: rest
    | .gt => e :: place k v rest

/-- Leave out the entry with key `k`. -/
def remove (k : κ) (entries : List (κ × ν)) : List (κ × ν) :=
  entries.filter fun e => compare k e.1 != .eq

theorem mem_place {k : κ} {v : ν} {l : List (κ × ν)} {e : κ × ν} (h : e ∈ place k v l) :
    e = (k, v) ∨ e ∈ l := by
  induction l with
  | nil => simpa [place] using h
  | cons x rest ih =>
    rw [place] at h
    split at h <;> grind

/-- Placing an entry keeps the keys ascending, by induction on the list. An entry with the same key
is replaced, and otherwise the new one goes in front of the first with a larger key. -/
theorem pairwise_place [Std.TransOrd κ] [Std.LawfulEqOrd κ] (k : κ) (v : ν) {l : List (κ × ν)}
    (h : l.Pairwise fun a b => compare a.1 b.1 = .lt) :
    (place k v l).Pairwise fun a b => compare a.1 b.1 = .lt := by
  induction l with
  | nil => simp [place]
  | cons x rest ih =>
    obtain ⟨hx, hrest⟩ := List.pairwise_cons.1 h
    rw [place]
    split
    next hlt =>
      refine List.pairwise_cons.2 ⟨?_, h⟩
      intro b hb
      rcases List.mem_cons.1 hb with rfl | hb
      · exact hlt
      · exact Std.TransCmp.lt_trans hlt (hx b hb)
    next heq =>
      have hk : k = x.1 := Std.LawfulEqCmp.eq_of_compare heq
      exact List.pairwise_cons.2 ⟨fun b hb => by simpa [hk] using hx b hb, hrest⟩
    next hgt =>
      refine List.pairwise_cons.2 ⟨?_, ih hrest⟩
      intro b hb
      rcases mem_place hb with rfl | hb
      · exact Std.OrientedCmp.lt_of_gt hgt
      · exact hx b hb

/-- The table without entries. -/
def empty : Table κ ν := ⟨[], .nil⟩

instance : EmptyCollection (Table κ ν) := ⟨empty⟩

instance : Inhabited (Table κ ν) := ⟨empty⟩

/-- The value under `k`, if there is one. -/
def get? (t : Table κ ν) (k : κ) : Option ν := lookup k t.entries

/-- Whether there is a value under `k`. -/
def contains (t : Table κ ν) (k : κ) : Bool := (t.get? k).isSome

/-- Whether there is no entry. -/
def isEmpty (t : Table κ ν) : Bool := t.entries.isEmpty

/-- The keys in ascending order. -/
def keys (t : Table κ ν) : List κ := t.entries.map (·.1)

/-- Put `v` under `k`, in place of what was there. -/
def insert [Std.TransOrd κ] [Std.LawfulEqOrd κ] (t : Table κ ν) (k : κ) (v : ν) : Table κ ν :=
  ⟨place k v t.entries, pairwise_place k v t.ascending⟩

/-- Put every pair of a list into a table, from first to last. -/
def insertAll [Std.TransOrd κ] [Std.LawfulEqOrd κ] (t : Table κ ν) (pairs : List (κ × ν)) :
    Table κ ν :=
  pairs.foldl (fun t p => t.insert p.1 p.2) t

/-- The table of a list of pairs; of two pairs with one key the later counts. -/
def ofList [Std.TransOrd κ] [Std.LawfulEqOrd κ] (pairs : List (κ × ν)) : Table κ ν :=
  insertAll ∅ pairs

/-- Leave out what is under `k`. -/
def erase (t : Table κ ν) (k : κ) : Table κ ν :=
  ⟨remove k t.entries, t.ascending.filter _⟩

theorem compare_eq_iff [Std.LawfulEqOrd κ] {a b : κ} : compare a b = .eq ↔ a = b :=
  Std.LawfulEqCmp.compare_eq_iff_eq

@[simp] theorem get?_empty (k : κ) : (∅ : Table κ ν).get? k = none := rfl

/-- A lookup after placing an entry gives it for its key, and what was there for the others. -/
theorem lookup_place [Std.TransOrd κ] [Std.LawfulEqOrd κ] [DecidableEq κ] (k k' : κ) (v : ν)
    (l : List (κ × ν)) :
    lookup k' (place k v l) = if k' = k then some v else lookup k' l := by
  induction l with
  | nil => simp [place, lookup]
  | cons x rest ih =>
    rw [place]
    split
    next hlt => simp [lookup]
    next heq =>
      have hk : k = x.1 := Std.LawfulEqCmp.eq_of_compare heq
      subst hk
      by_cases h : k' = x.1 <;> simp [lookup, h]
    next hgt =>
      have hne : k ≠ x.1 := fun h => by simp [compare_eq_iff.2 h] at hgt
      by_cases h : k' = x.1
      · simp [lookup, h, Ne.symm hne]
      · simp [lookup, h, ih]

theorem get?_insert [Std.TransOrd κ] [Std.LawfulEqOrd κ] [DecidableEq κ] (t : Table κ ν)
    (k k' : κ) (v : ν) : (t.insert k v).get? k' = if k' = k then some v else t.get? k' := by
  simp [get?, insert, lookup_place]

/-- A lookup after several pairs were put in finds the last pair with its key. -/
theorem get?_insertAll [Std.TransOrd κ] [Std.LawfulEqOrd κ] [DecidableEq κ] (t : Table κ ν)
    (pairs : List (κ × ν)) (k : κ) :
    (t.insertAll pairs).get? k =
      ((pairs.reverse.find? fun p => p.1 = k).map (·.2)).or (t.get? k) := by
  induction pairs generalizing t with
  | nil => rfl
  | cons p pairs ih =>
    change ((t.insert p.1 p.2).insertAll pairs).get? k = _
    rw [ih, get?_insert, List.reverse_cons, List.find?_append]
    cases pairs.reverse.find? fun p => p.1 = k with
    | some q => rfl
    | none =>
      by_cases hk : p.1 = k
      · simp [hk]
      · simp [hk, Ne.symm hk]

theorem get?_ofList [Std.TransOrd κ] [Std.LawfulEqOrd κ] [DecidableEq κ] (pairs : List (κ × ν))
    (k : κ) : (ofList pairs).get? k = (pairs.reverse.find? fun p => p.1 = k).map (·.2) := by
  rw [ofList, get?_insertAll, get?_empty, Option.or_none]

/-- A lookup after removing a key gives nothing for it, and what was there for the others. -/
theorem lookup_remove [Std.TransOrd κ] [Std.LawfulEqOrd κ] [DecidableEq κ] (k k' : κ)
    (l : List (κ × ν)) :
    lookup k' (remove k l) = if k' = k then none else lookup k' l := by
  induction l with
  | nil => simp [remove, lookup]
  | cons x rest ih =>
    rw [remove] at ih
    by_cases hk : k = x.1
    · subst hk
      simp only [remove, List.filter_cons, compare_eq_iff.2 rfl, bne_self_eq_false,
        Bool.false_eq_true, if_false, ih]
      by_cases h : k' = x.1 <;> simp [lookup, h]
    · have hx : (compare k x.1 != .eq) = true := by simpa [compare_eq_iff] using hk
      simp only [remove, List.filter_cons, hx, if_true, lookup, compare_eq_iff, ih]
      by_cases h : k' = x.1
      · simp [h, Ne.symm hk]
      · simp [h]

theorem get?_erase [Std.TransOrd κ] [Std.LawfulEqOrd κ] [DecidableEq κ] (t : Table κ ν)
    (k k' : κ) : (t.erase k).get? k' = if k' = k then none else t.get? k' := by
  simp [get?, erase, lookup_remove]

/-- The keys of a table are those for which it has something, by induction on its entries. -/
theorem mem_keys_iff [Std.LawfulEqOrd κ] {t : Table κ ν} {k : κ} :
    k ∈ t.keys ↔ t.contains k = true := by
  rw [keys, contains, get?]
  induction t.entries with
  | nil => simp [lookup]
  | cons x rest ih =>
    rw [List.map_cons, List.mem_cons, lookup]
    split
    next heq => simp [compare_eq_iff.1 heq]
    next hne =>
      rw [← ih]
      exact or_iff_right fun h => hne (compare_eq_iff.2 h)

theorem ext_entries {t u : Table κ ν} (h : t.entries = u.entries) : t = u := by
  obtain ⟨es, _⟩ := t
  obtain ⟨fs, _⟩ := u
  subst h
  rfl

instance [DecidableEq κ] [DecidableEq ν] : DecidableEq (Table κ ν) := fun t u =>
  decidable_of_iff (t.entries = u.entries) ⟨ext_entries, fun h => h ▸ rfl⟩

end Table

end NodeFormula
