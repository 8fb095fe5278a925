/-!
# Rosters

A roster is a list kept in increasing order of a name that each entry has, one entry to a name.
Rules, imports, the grammars of a library and registered actions are all kept this way, so that they
are listed in name order.

* `Roster.get?`: the entry of a name.
* `Roster.insert`: adds an entry, in place of the entry of the same name if there is one.
* `Ordered.insert`: insertion keeps the order.
-/

namespace Packrat

namespace Roster

variable {α : Type} (key : α → String)

/-- The entry called `name`. -/
def get? (name : String) (entries : List α) : Option α :=
  entries.find? fun a => key a = name

/-- Whether some entry is called `name`. -/
def has (name : String) (entries : List α) : Bool := (get? key name entries).isSome

/-- Adds an entry where its name belongs; it takes the place of an entry of the same name. -/
def insert (a : α) : List α → List α
  | [] => [a]
  | b :: bs =>
    if key a < key b then a :: b :: bs
    else if key a = key b then a :: bs
    else b :: insert a bs

/-- The roster without the entry called `name`. -/
def erase (name : String) (entries : List α) : List α :=
  entries.filter fun a => key a ≠ name

/-- The roster of a list; of entries with one name the last is kept. -/
def ofList (entries : List α) : List α :=
  entries.foldl (fun roster a => insert key a roster) []

/-- The names of a roster are in increasing order. -/
def Ordered (entries : List α) : Prop := entries.Pairwise fun a b => key a < key b

variable {key}

/-- A map that keeps names may be applied to the entries or to the entry that is found. -/
theorem get?_map {f : α → α} (hf : ∀ a, key (f a) = key a) (name : String) (entries : List α) :
    get? key name (entries.map f) = (get? key name entries).map f := by
  have hkey : (fun a => decide (key a = name)) ∘ f = fun a => decide (key a = name) := by
    funext a
    simp only [Function.comp_apply, hf]
  unfold get?
  rw [List.find?_map, hkey]

theorem mem_of_mem_insert {a x : α} {entries : List α} (h : x ∈ insert key a entries) :
    x = a ∨ x ∈ entries := by
  induction entries with
  | nil => simpa [insert] using h
  | cons b bs ih =>
    simp only [insert] at h
    split at h
    · simpa using h
    · split at h
      · rcases List.mem_cons.1 h with h | h
        · exact .inl h
        · exact .inr (List.mem_cons_of_mem _ h)
      · rcases List.mem_cons.1 h with h | h
        · exact .inr (h ▸ List.mem_cons_self)
        · exact (ih h).imp_right (List.mem_cons_of_mem _)

/-- Insertion keeps the order. -/
theorem Ordered.insert {entries : List α} (h : Ordered key entries) (a : α) :
    Ordered key (insert key a entries) := by
  induction entries with
  | nil => simp [Roster.insert, Ordered]
  | cons b bs ih =>
    obtain ⟨hb, hbs⟩ := List.pairwise_cons.1 h
    simp only [Roster.insert]
    split
    next hlt =>
      refine List.pairwise_cons.2 ⟨fun x hx => ?_, h⟩
      rcases List.mem_cons.1 hx with rfl | hx
      · exact hlt
      · exact String.lt_trans hlt (hb x hx)
    next hnlt =>
      split
      next heq => exact List.pairwise_cons.2 ⟨fun x hx => heq ▸ hb x hx, hbs⟩
      next hne =>
        refine List.pairwise_cons.2 ⟨fun x hx => ?_, ih hbs⟩
        rcases mem_of_mem_insert hx with rfl | hx
        · exact Std.lt_of_le_of_ne (String.not_lt.1 hnlt) (Ne.symm hne)
        · exact hb x hx

end Roster

end Packrat
