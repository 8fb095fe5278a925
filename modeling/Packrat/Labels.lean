/-!
# Sets of labels

What was expected at a place is a set of labels, listed in increasing order. The order is part of the
type, so two sets with the same labels are equal. A label finds its place by halving, since a long
choice expects many things at one place.

* `Labels.rank`: where a label belongs.
* `Labels.insert`, `Labels.union`
-/

namespace Packrat

/-- A set of labels in increasing order. -/
structure Labels where
  toArray : Array String
  ordered : toArray.toList.Pairwise (· < ·)
deriving DecidableEq

namespace Labels

def toList (labels : Labels) : List String := labels.toArray.toList

/-- No labels. -/
def empty : Labels := ⟨#[], List.Pairwise.nil⟩

instance : Inhabited Labels := ⟨empty⟩

/-- Where a label belongs in an increasing array, if it belongs between `low` and `high`. -/
def rankIn (labels : Array String) (label : String) : (fuel low high : Nat) → Nat
  | 0, low, _ => low
  | fuel + 1, low, high =>
    if low < high then
      let middle := (low + high) / 2
      if (labels[middle]?.any fun l => l < label) then rankIn labels label fuel (middle + 1) high
      else rankIn labels label fuel low middle
    else low

/-- Where a label belongs in an increasing array: after all that are smaller. -/
def rank (labels : Array String) (label : String) : Nat :=
  rankIn labels label labels.size 0 labels.size

theorem rankIn_le (labels : Array String) (label : String) (fuel low high : Nat)
    (hlh : low ≤ high) : rankIn labels label fuel low high ≤ high := by
  induction fuel generalizing low high with
  | zero => exact hlh
  | succ fuel ih =>
    simp only [rankIn]
    split
    · split
      · exact ih _ _ (by omega)
      · exact Nat.le_trans (ih _ _ (by omega)) (by omega)
    · exact hlh

theorem rank_le (labels : Array String) (label : String) : rank labels label ≤ labels.size :=
  rankIn_le _ _ _ _ _ (Nat.zero_le _)

/-- All labels before a place are smaller than `label`, and none from it on is. -/
def Splits (labels : Array String) (label : String) (low high : Nat) : Prop :=
  ∀ i l, labels[i]? = some l → (i < low → l < label) ∧ (high ≤ i → ¬l < label)

theorem rankIn_splits {labels : Array String} (label : String)
    (ho : labels.toList.Pairwise (· < ·)) (fuel low high : Nat) (hf : high ≤ low + fuel)
    (hlh : low ≤ high) (hs : high ≤ labels.size) (h : Splits labels label low high) :
    Splits labels label (rankIn labels label fuel low high)
      (rankIn labels label fuel low high) := by
  induction fuel generalizing low high with
  | zero =>
    have : high = low := by omega
    subst this
    exact h
  | succ fuel ih =>
    simp only [rankIn]
    split
    · have hm : (low + high) / 2 < labels.size := by omega
      have hsorted : ∀ i j (hij : i < j) (hj : j < labels.size), labels[i] < labels[j] := by
        intro i j hij hj
        exact List.pairwise_iff_getElem.1 ho i j (by simpa using by omega) (by simpa using hj) hij
      split
      next hlt =>
        rw [Array.getElem?_eq_getElem hm] at hlt
        have hlt : labels[(low + high) / 2] < label := by simpa using hlt
        refine ih _ _ (by omega) (by omega) hs fun i l hi => ⟨fun hle => ?_, (h i l hi).2⟩
        obtain ⟨his, rfl⟩ := Array.getElem?_eq_some_iff.1 hi
        rcases Nat.lt_or_ge i ((low + high) / 2) with hlt' | hge
        · exact String.lt_trans (hsorted _ _ hlt' hm) hlt
        · have : i = (low + high) / 2 := by omega
          subst this
          exact hlt
      next hnlt =>
        rw [Array.getElem?_eq_getElem hm] at hnlt
        have hnlt : ¬labels[(low + high) / 2] < label := by simpa using hnlt
        refine ih _ _ (by omega) (by omega) (by omega) fun i l hi =>
          ⟨(h i l hi).1, fun hle hl => ?_⟩
        obtain ⟨his, rfl⟩ := Array.getElem?_eq_some_iff.1 hi
        rcases Nat.lt_or_ge ((low + high) / 2) i with hlt' | hge
        · exact hnlt (String.lt_trans (hsorted _ _ hlt' his) hl)
        · have : i = (low + high) / 2 := by omega
          subst this
          exact hnlt hl
    · have : high = low := by omega
      subst this
      exact h

/-- **The place of a label** divides what is smaller from what is not. -/
theorem rank_splits {labels : Array String} (label : String)
    (ho : labels.toList.Pairwise (· < ·)) :
    Splits labels label (rank labels label) (rank labels label) := by
  refine rankIn_splits label ho _ _ _ (by omega) (by omega) (Nat.le_refl _) fun i l hi => ⟨?_, ?_⟩
  · intro h
    omega
  · intro h
    have := (Array.getElem?_eq_some_iff.1 hi).1
    omega

theorem insertIdx_eq_append {α : Type} (a : α) :
    ∀ (i : Nat) (l : List α), i ≤ l.length → l.insertIdx i a = l.take i ++ a :: l.drop i
  | 0, l, _ => by simp
  | i + 1, [], h => by simp at h
  | i + 1, b :: l, h => by
    simpa using insertIdx_eq_append a i l (by simpa using h)

/-- A label put in at its place keeps the order, unless it is there already. -/
theorem ordered_insertIdx {labels : Array String} {label : String} {place : Nat}
    (ho : labels.toList.Pairwise (· < ·)) (hle : place ≤ labels.size)
    (hs : Splits labels label place place) (hn : labels[place]? ≠ some label) :
    (labels.insertIdx place label hle).toList.Pairwise (· < ·) := by
  have hbefore : ∀ x ∈ labels.toList.take place, x < label := by
    intro x hx
    obtain ⟨i, hi, rfl⟩ := List.mem_iff_getElem.1 hx
    simp only [List.length_take, Array.length_toList] at hi
    simpa using (hs i labels[i] (Array.getElem?_eq_getElem _)).1 (by omega)
  have hafter : ∀ x ∈ labels.toList.drop place, label < x := by
    intro x hx
    obtain ⟨i, hi, rfl⟩ := List.mem_iff_getElem.1 hx
    simp only [List.length_drop, Array.length_toList] at hi
    have hi' : place + i < labels.size := by omega
    have hnlt := (hs _ _ (Array.getElem?_eq_getElem hi')).2 (by omega)
    simp only [List.getElem_drop, Array.getElem_toList]
    refine Std.lt_of_le_of_ne (String.not_lt.1 hnlt) fun heq => ?_
    rcases Nat.eq_zero_or_pos i with rfl | hpos
    · exact hn (by rw [Array.getElem?_eq_getElem (by omega), heq]; rfl)
    · have hlt : labels[place] < labels[place + i] :=
        List.pairwise_iff_getElem.1 ho _ _ (by simpa using by omega) (by simpa using hi') (by omega)
      rw [← heq] at hlt
      exact (hs _ _ (Array.getElem?_eq_getElem (by omega))).2 (Nat.le_refl _) hlt
  rw [Array.toList_insertIdx, insertIdx_eq_append _ _ _ (by simpa using hle), List.pairwise_append,
    List.pairwise_cons]
  refine ⟨ho.sublist (List.take_sublist _ _), ⟨hafter, ho.sublist (List.drop_sublist _ _)⟩, ?_⟩
  intro x hx y hy
  rcases List.mem_cons.1 hy with rfl | hy
  · exact hbefore x hx
  · exact String.lt_trans (hbefore x hx) (hafter y hy)

/-- Adds one label. -/
def insert (label : String) (labels : Labels) : Labels :=
  let place := rank labels.toArray label
  if h : labels.toArray[place]? = some label then labels
  else ⟨labels.toArray.insertIdx place label (rank_le _ _),
    ordered_insertIdx labels.ordered _ (rank_splits label labels.ordered) h⟩

/-- The set of one label. -/
def singleton (label : String) : Labels := ⟨#[label], List.pairwise_singleton _ _⟩

/-- The labels of both sets. -/
def union (a b : Labels) : Labels := b.toArray.foldl (fun set label => set.insert label) a

/-- The labels of a list. -/
def ofList (labels : List String) : Labels := labels.foldl (fun set label => set.insert label) empty

def isEmpty (labels : Labels) : Bool := labels.toArray.isEmpty

end Labels

end Packrat
