import Packrat.Matcher.Memo

/-!
# Laws of memo tables

A table behaves like a map from applications to entries, whatever slots it keeps them under.

* `Memo.get?_set`, `Memo.get?_erase`: one entry is changed and all others stay.
* `Memo.get?_forgetAfter`: exactly the applications logged after the mark are forgotten.
* `Memo.Every`: what is true of every result stays true as long as new results keep to it.
* `Memo.Matches`: two tables that hold entries of the same applications, which are related.
-/

namespace Packrat

variable {φ : Type}

namespace Bucket

/-- The entry of an application in a bucket with one more entry. -/
theorem lookup_cons (x s : Spot) (e : Entry φ) (rest : Bucket φ) :
    List.lookup x ((s, e) :: rest) = if x = s then some e else rest.lookup x := by
  rw [List.lookup_cons]
  by_cases h : x = s
  · simp [h]
  · simp [h, beq_false_of_ne h]

theorem lookup_set (spot : Spot) (entry : Entry φ) (x : Spot) :
    ∀ bucket : Bucket φ, (set spot entry bucket).lookup x =
      if x = spot then some entry else bucket.lookup x
  | [] => by rw [set, lookup_cons]
  | (s, e) :: rest => by
    unfold set
    by_cases hs : s = spot
    · subst hs
      rw [if_pos rfl, lookup_cons, lookup_cons]
      by_cases h : x = s
      · rw [if_pos h, if_pos h]
      · rw [if_neg h, if_neg h, if_neg h]
    · rw [if_neg hs, lookup_cons, lookup_cons, lookup_set spot entry x rest]
      by_cases h : x = s
      · subst h
        rw [if_pos rfl, if_neg hs, if_pos rfl]
      · rw [if_neg h, if_neg h]

theorem lookup_erase (spot x : Spot) :
    ∀ bucket : Bucket φ, (erase spot bucket).lookup x =
      if x = spot then none else bucket.lookup x
  | [] => by simp [erase]
  | (s, e) :: rest => by
    have ih := lookup_erase spot x rest
    unfold erase at ih ⊢
    by_cases hs : s = spot
    · subst hs
      rw [List.filter_cons_of_neg (by simp), ih, lookup_cons]
      by_cases h : x = s
      · rw [if_pos h, if_pos h]
      · rw [if_neg h, if_neg h, if_neg h]
    · rw [List.filter_cons_of_pos (by simpa using hs), lookup_cons, lookup_cons, ih]
      by_cases h : x = s
      · subst h
        rw [if_pos rfl, if_neg hs, if_pos rfl]
      · rw [if_neg h, if_neg h]

end Bucket

namespace Memo

@[simp] theorem get?_empty (x : Spot) : (empty : Memo φ).get? x = none := by
  simp [get?, bucket, empty]

@[simp] theorem get?_set (m : Memo φ) (spot : Spot) (entry : Entry φ) (x : Spot) :
    (m.set spot entry).get? x = if x = spot then some entry else m.get? x := by
  unfold get? set bucket
  rw [Std.TreeMap.getD_insert]
  -- applications of one slot share a bucket, in which the laws of buckets decide
  by_cases hslot : spot.slot = x.slot
  · rw [if_pos (by simpa using hslot), Bucket.lookup_set, hslot]
  · rw [if_neg (by simpa using hslot), if_neg (by rintro rfl; exact hslot rfl)]

@[simp] theorem get?_erase (m : Memo φ) (spot x : Spot) :
    (m.erase spot).get? x = if x = spot then none else m.get? x := by
  unfold get? erase bucket
  rw [Std.TreeMap.getD_insert]
  by_cases hslot : spot.slot = x.slot
  · rw [if_pos (by simpa using hslot), Bucket.lookup_erase, hslot]
  · rw [if_neg (by simpa using hslot), if_neg (by rintro rfl; exact hslot rfl)]

@[simp] theorem log_set (m : Memo φ) (spot : Spot) (entry : Entry φ) :
    (m.set spot entry).log = m.log := rfl

@[simp] theorem log_erase (m : Memo φ) (spot : Spot) : (m.erase spot).log = m.log := rfl

/-- The table is looked up by what is known, not by the log. -/
theorem get?_log (m : Memo φ) (log : Array Spot) (x : Spot) :
    ({ m with log } : Memo φ).get? x = m.get? x := rfl

@[simp] theorem get?_begin (m : Memo φ) (spot x : Spot) :
    (m.begin spot).get? x = if x = spot then some (.active false) else m.get? x := by
  rw [begin, get?_set, get?_log]

@[simp] theorem log_begin (m : Memo φ) (spot : Spot) : (m.begin spot).log = m.log.push spot := rfl

/-- Erasing one application after another. -/
theorem get?_foldl_erase (spots : List Spot) (x : Spot) :
    ∀ m : Memo φ, (spots.foldl (fun m spot => m.erase spot) m).get? x =
      if x ∈ spots then none else m.get? x := by
  induction spots with
  | nil => simp
  | cons spot rest ih =>
    intro m
    rw [List.foldl_cons, ih, get?_erase]
    by_cases hr : x ∈ rest
    · simp [hr]
    · by_cases hx : x = spot <;> simp [hr, hx]

theorem log_foldl_erase (spots : List Spot) :
    ∀ m : Memo φ, (spots.foldl (fun m spot => m.erase spot) m).log = m.log := by
  induction spots with
  | nil => simp
  | cons spot rest ih => intro m; rw [List.foldl_cons, ih, log_erase]

/-- **Forgetting** takes away what was logged after the mark and nothing else. -/
theorem get?_forgetAfter (m : Memo φ) (mark : Nat) (x : Spot) :
    (m.forgetAfter mark).get? x =
      if x ∈ m.log.toList.drop (mark + 1) then none else m.get? x := by
  unfold forgetAfter
  rw [← Array.foldl_toList, get?_foldl_erase, get?_log]
  simp [List.take_of_length_le]

theorem log_forgetAfter (m : Memo φ) (mark : Nat) :
    (m.forgetAfter mark).log = m.log.take (mark + 1) := by
  unfold forgetAfter
  rw [← Array.foldl_toList, log_foldl_erase]

theorem toList_forgetAfter {m : Memo φ} {mark : Nat} :
    (m.forgetAfter mark).log.toList = m.log.toList.take (mark + 1) := by
  rw [log_forgetAfter]
  simp [Array.take]

/-! ### What all results have in common -/

/-- **Every result that a table holds** passes. -/
def Every (P : Spot → Option Value → Nat → φ → Prop) (m : Memo φ) : Prop :=
  ∀ spot v stop a, m.get? spot = some (.done v stop a) → P spot v stop a

namespace Every

variable {P : Spot → Option Value → Nat → φ → Prop} {m : Memo φ} {spot : Spot}

theorem empty : (Memo.empty : Memo φ).Every P := fun _ _ _ _ h => by simp at h

theorem set_active (h : m.Every P) {met : Bool} : (m.set spot (.active met)).Every P := by
  intro x v stop a hg
  rw [get?_set] at hg
  split at hg
  · cases hg
  · exact h x v stop a hg

theorem set_done (h : m.Every P) {v : Option Value} {stop : Nat} {a : φ} (hp : P spot v stop a) :
    (m.set spot (.done v stop a)).Every P := by
  intro x v' stop' a' hg
  rw [get?_set] at hg
  split at hg
  next hx =>
    cases hg
    rw [hx]
    exact hp
  next => exact h x v' stop' a' hg

theorem erase (h : m.Every P) : (m.erase spot).Every P := by
  intro x v stop a hg
  rw [get?_erase] at hg
  split at hg
  · cases hg
  · exact h x v stop a hg

theorem begin (h : m.Every P) : (m.begin spot).Every P := by
  intro x v stop a hg
  rw [get?_begin] at hg
  split at hg
  · cases hg
  · exact h x v stop a hg

theorem forgetAfter (h : m.Every P) {mark : Nat} : (m.forgetAfter mark).Every P := by
  intro x v stop a hg
  rw [get?_forgetAfter] at hg
  split at hg
  · cases hg
  · exact h x v stop a hg

end Every

/-! ### Two tables side by side -/

/-- The table with other entries for the same applications. -/
def mapEntries {ψ : Type} (g : Spot → Entry φ → Entry ψ) (m : Memo φ) : Memo ψ where
  buckets := m.buckets.map fun _ b => b.map fun item => (item.1, g item.1 item.2)
  log := m.log

theorem lookup_mapEntries {ψ : Type} (g : Spot → Entry φ → Entry ψ) (x : Spot) :
    ∀ b : Bucket φ, List.lookup x (b.map fun item => (item.1, g item.1 item.2)) =
      (b.lookup x).map (g x)
  | [] => rfl
  | (y, e) :: rest => by
    rw [List.map_cons, Bucket.lookup_cons, Bucket.lookup_cons]
    split
    next he => rw [he]; rfl
    next => exact lookup_mapEntries g x rest

theorem get?_mapEntries {ψ : Type} (g : Spot → Entry φ → Entry ψ) (m : Memo φ) (x : Spot) :
    (m.mapEntries g).get? x = (m.get? x).map (g x) := by
  unfold get? bucket mapEntries
  rw [Std.TreeMap.getD_map, Std.TreeMap.getD_eq_getD_getElem?]
  cases m.buckets[x.slot]? with
  | none => rfl
  | some b => exact lookup_mapEntries g x b

/-- **Two tables that match**: they hold entries of the same applications, in the same order, and
the entries are related. -/
structure Matches {ψ : Type} (E : Entry φ → Entry ψ → Prop) (m : Memo φ) (w : Memo ψ) : Prop where
  get (x : Spot) : Option.Rel E (m.get? x) (w.get? x)
  log : m.log = w.log

namespace Matches

variable {ψ : Type} {E : Entry φ → Entry ψ → Prop} {m : Memo φ} {w : Memo ψ}

theorem empty : (Memo.empty : Memo φ).Matches E (Memo.empty : Memo ψ) where
  get x := by
    rw [get?_empty, get?_empty]
    exact .none
  log := rfl

theorem set (h : m.Matches E w) (spot : Spot) {a : Entry φ} {b : Entry ψ} (hab : E a b) :
    (m.set spot a).Matches E (w.set spot b) where
  get x := by
    rw [get?_set, get?_set]
    split
    · exact .some hab
    · exact h.get x
  log := h.log

theorem erase (h : m.Matches E w) (spot : Spot) : (m.erase spot).Matches E (w.erase spot) where
  get x := by
    rw [get?_erase, get?_erase]
    split
    · exact .none
    · exact h.get x
  log := h.log

theorem begin (h : m.Matches E w) (spot : Spot) (he : E (.active false) (.active false)) :
    (m.begin spot).Matches E (w.begin spot) where
  get x := by
    rw [get?_begin, get?_begin]
    split
    · exact .some he
    · exact h.get x
  log := by rw [log_begin, log_begin, h.log]

theorem forgetAfter (h : m.Matches E w) (mark : Nat) :
    (m.forgetAfter mark).Matches E (w.forgetAfter mark) where
  get x := by
    rw [get?_forgetAfter, get?_forgetAfter, h.log]
    split
    · exact .none
    · exact h.get x
  log := by rw [log_forgetAfter, log_forgetAfter, h.log]

/-- The other table matches, too. -/
theorem symm (h : m.Matches E w) : w.Matches (fun b a => E a b) m where
  get x := by
    have hrel := h.get x
    generalize m.get? x = a at hrel
    generalize w.get? x = b at hrel
    cases hrel with
    | none => exact .none
    | some hab => exact .some hab
  log := h.log.symm

/-- Entries may be related more loosely. -/
theorem imp {E' : Entry φ → Entry ψ → Prop} (h : m.Matches E w) (hE : ∀ a b, E a b → E' a b) :
    m.Matches E' w where
  get x := by
    have hrel := h.get x
    generalize m.get? x = a at hrel
    generalize w.get? x = b at hrel
    cases hrel with
    | none => exact .none
    | some hab => exact .some (hE _ _ hab)
  log := h.log

theorem of_none (h : m.Matches E w) {x : Spot} (hx : m.get? x = none) : w.get? x = none := by
  have hrel := h.get x
  rw [hx] at hrel
  generalize w.get? x = b at hrel
  cases hrel
  rfl

theorem of_some (h : m.Matches E w) {x : Spot} {a : Entry φ} (hx : m.get? x = some a) :
    ∃ b, w.get? x = some b ∧ E a b := by
  have hrel := h.get x
  rw [hx] at hrel
  generalize w.get? x = b at hrel
  cases hrel with
  | some hab => exact ⟨_, rfl, hab⟩

/-- **A table can be made to match** another, if for each entry there is one that is related to it
and has what is asked of it. -/
theorem exists_of_entries {P : Spot → Entry ψ → Prop} (m : Memo φ)
    (h : ∀ x a, m.get? x = some a → ∃ b, E a b ∧ P x b) :
    ∃ w : Memo ψ, m.Matches E w ∧ ∀ x b, w.get? x = some b → P x b := by
  have hchoice : ∀ x : Spot, ∃ g : Entry φ → Entry ψ, ∀ a, m.get? x = some a →
      E a (g a) ∧ P x (g a) := by
    intro x
    cases hx : m.get? x with
    | none => exact ⟨fun _ => .active false, fun _ ha => by cases ha⟩
    | some a =>
      obtain ⟨b, hb⟩ := h x a hx
      exact ⟨fun _ => b, fun a' ha => by cases ha; exact hb⟩
  obtain ⟨g, hg⟩ := Classical.axiomOfChoice hchoice
  refine ⟨m.mapEntries g, ⟨fun x => ?_, rfl⟩, fun x b hb => ?_⟩
  · rw [get?_mapEntries]
    cases hx : m.get? x with
    | none => exact .none
    | some a => exact .some (hg x a hx).1
  · rw [get?_mapEntries] at hb
    obtain ⟨a, ha, rfl⟩ := Option.map_eq_some_iff.1 hb
    exact (hg x a ha).2

end Matches

end Memo

end Packrat
