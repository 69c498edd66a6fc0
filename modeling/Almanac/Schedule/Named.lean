set_option autoImplicit false

/-!
Named entries in the order in which their names were first added. A name that is removed and added
again goes to the end.
-/

namespace Almanac

variable {α : Type}

structure Named (α : Type) where
  entries : List (String × α)

namespace Named

def empty : Named α := ⟨[]⟩

def get? (r : Named α) (name : String) : Option α := r.entries.lookup name

def names (r : Named α) : List String := r.entries.map Prod.fst

def contains (r : Named α) (name : String) : Bool := (r.get? name).isSome

def values (r : Named α) : List α := r.entries.map Prod.snd

def size (r : Named α) : Nat := r.entries.length

/-- The entries with one put in the place of that of its name, or at the end. -/
def putEntry (name : String) (a : α) : List (String × α) → List (String × α)
  | [] => [(name, a)]
  | e :: es => if e.1 = name then (name, a) :: es else e :: putEntry name a es

def put (r : Named α) (name : String) (a : α) : Named α := ⟨putEntry name a r.entries⟩

def erase (r : Named α) (name : String) : Named α := ⟨r.entries.filter (fun e => e.1 ≠ name)⟩

variable {r : Named α} {name : String} {a : α} {e : String × α}

theorem mem_of_get? (found : r.get? name = some a) : (name, a) ∈ r.entries := by
  obtain ⟨before, after, split, -⟩ := List.lookup_eq_some_iff.mp found
  rw [split]
  exact List.mem_append_right before List.mem_cons_self

/-- Where no name stands twice an entry is found by its name. -/
theorem get?_of_mem (distinct : r.names.Nodup) (member : (name, a) ∈ r.entries) :
    r.get? name = some a := by
  obtain ⟨before, after, split⟩ := List.append_of_mem member
  refine List.lookup_eq_some_iff.mpr ⟨before, after, split, ?_⟩
  intro e earlier
  rw [names, split, List.map_append, List.nodup_append] at distinct
  have other := distinct.2.2 e.1 (List.mem_map_of_mem earlier) name List.mem_cons_self
  simpa using other.symm

theorem mem_names_of_mem (member : (name, a) ∈ r.entries) : name ∈ r.names :=
  List.mem_map_of_mem (f := Prod.fst) member

theorem mem_values_of_mem (member : (name, a) ∈ r.entries) : a ∈ r.values :=
  List.mem_map_of_mem (f := Prod.snd) member

theorem mem_erase : e ∈ (r.erase name).entries ↔ e ∈ r.entries ∧ e.1 ≠ name := by
  simp [erase]

theorem nodup_erase (distinct : r.names.Nodup) (name : String) : (r.erase name).names.Nodup :=
  distinct.sublist (List.filter_sublist.map _)

/-- Where no name stands twice, putting an entry replaces that of its name. -/
theorem mem_putEntry {es : List (String × α)} (distinct : (es.map Prod.fst).Nodup) :
    e ∈ putEntry name a es ↔ e = (name, a) ∨ e ∈ es ∧ e.1 ≠ name := by
  induction es with
  | nil => simp [putEntry]
  | cons first es ih =>
    rw [List.map_cons, List.nodup_cons] at distinct
    by_cases same : first.1 = name
    · have others : e ∈ es → e.1 ≠ name := by
        intro member named
        apply distinct.1
        rw [same, ← named]
        exact List.mem_map_of_mem member
      simp only [putEntry, same, if_true, List.mem_cons]
      grind
    · simp only [putEntry, same, if_false, List.mem_cons, ih distinct.2]
      grind

theorem mem_put (distinct : r.names.Nodup) :
    e ∈ (r.put name a).entries ↔ e = (name, a) ∨ e ∈ r.entries ∧ e.1 ≠ name :=
  mem_putEntry distinct

theorem nodup_putEntry {es : List (String × α)} (distinct : (es.map Prod.fst).Nodup) :
    ((putEntry name a es).map Prod.fst).Nodup := by
  induction es with
  | nil => simp [putEntry]
  | cons first es ih =>
    have rest := (List.nodup_cons.mp distinct).2
    by_cases same : first.1 = name
    · rw [List.map_cons, same] at distinct
      rw [putEntry, if_pos same]
      exact distinct
    · rw [putEntry, if_neg same, List.map_cons, List.nodup_cons]
      refine ⟨?_, ih rest⟩
      intro member
      obtain ⟨e, member, named⟩ := List.mem_map.mp member
      rcases (mem_putEntry rest).mp member with new | ⟨old, -⟩
      · exact same (by rw [← named, new])
      · exact (List.nodup_cons.mp distinct).1 (named ▸ List.mem_map_of_mem old)

theorem nodup_put (distinct : r.names.Nodup) : (r.put name a).names.Nodup :=
  nodup_putEntry distinct

end Named

end Almanac
