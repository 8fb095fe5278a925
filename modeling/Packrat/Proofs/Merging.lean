import Mathlib.Data.List.Sort
import Packrat.Proofs.Blame

/-!
# Putting accounts together

The furthest of several misses does not depend on which of them are compared first, and to come upon
the same misses once more adds nothing.

* `Account.Joins`: accounts that are put together in this way.
* `Furthest.joins`: the furthest miss is such an account.
-/

namespace Packrat

/-- **Accounts that join**: nothing missed adds nothing, the grouping does not matter, and what was
just added adds nothing when it is added again. -/
structure Account.Joins (φ : Type) [Account φ] : Prop where
  nothing (a : φ) : append a empty = a
  assoc (a b c : φ) : append (append a b) c = append a (append b c)
  again (a b : φ) : append (append a b) b = append a b

namespace Labels

/-- Sets with the same labels are the same set. -/
theorem ext_mem {a b : Labels} (h : ∀ l, l ∈ a.toList ↔ l ∈ b.toList) : a = b := by
  have hlist : a.toList = b.toList := a.ordered.eq_of_mem_iff b.ordered h
  obtain ⟨a, ha⟩ := a
  obtain ⟨b, hb⟩ := b
  obtain rfl : a = b := Array.toList_inj.1 hlist
  rfl

theorem union_assoc (a b c : Labels) : (a.union b).union c = a.union (b.union c) :=
  ext_mem fun l => by simp only [mem_union, or_assoc]

theorem union_self (a : Labels) : a.union a = a :=
  ext_mem fun l => by simp only [mem_union, or_self]

end Labels

namespace Miss

variable {a b c : Miss}

theorem merge_of_nearer (h : compare b.location a.location = .lt) : a.merge b = a := by
  unfold merge
  rw [h]

theorem merge_of_further (h : compare b.location a.location = .gt) : a.merge b = b := by
  unfold merge
  rw [h]

/-- What is expected at one place. -/
def both (a b : Miss) : Miss :=
  { a with rules := a.rules.union b.rules, expected := a.expected.union b.expected }

theorem merge_of_same (h : compare b.location a.location = .eq) : a.merge b = a.both b := by
  unfold merge
  rw [h]
  rfl

@[simp] theorem location_both : (a.both b).location = a.location := rfl

theorem both_assoc : (a.both b).both c = a.both (b.both c) := by
  unfold both
  simp only [Labels.union_assoc]

/-- **The furthest of three misses** may be found in any order. -/
theorem merge_assoc (a b c : Miss) : (a.merge b).merge c = a.merge (b.merge c) := by
  cases hba : compare b.location a.location with
  | lt =>
    rw [merge_of_nearer hba]
    cases hcb : compare c.location b.location with
    | lt => rw [merge_of_nearer hcb, merge_of_nearer hba, merge_of_nearer (Std.TransCmp.lt_trans hcb hba)]
    | gt => rw [merge_of_further hcb]
    | eq =>
      have hloc : c.location = b.location := Std.LawfulEqOrd.eq_of_compare hcb
      rw [merge_of_same hcb, merge_of_nearer (show compare (b.both c).location _ = _ from hba),
        merge_of_nearer (by rw [hloc, hba])]
  | gt =>
    rw [merge_of_further hba]
    cases hcb : compare c.location b.location with
    | lt => rw [merge_of_nearer hcb, merge_of_further hba]
    | gt => rw [merge_of_further hcb, merge_of_further (Std.TransCmp.gt_trans hcb hba)]
    | eq => rw [merge_of_same hcb, merge_of_further (show compare (b.both c).location _ = _ from hba)]
  | eq =>
    have hloc : b.location = a.location := Std.LawfulEqOrd.eq_of_compare hba
    rw [merge_of_same hba]
    cases hcb : compare c.location b.location with
    | lt =>
      rw [merge_of_nearer hcb, merge_of_same hba,
        merge_of_nearer (show compare _ (a.both b).location = _ by rw [location_both, ← hloc, hcb])]
    | gt =>
      rw [merge_of_further hcb,
        merge_of_further (show compare _ (a.both b).location = _ by rw [location_both, ← hloc, hcb]),
        merge_of_further (by rw [← hloc, hcb])]
    | eq =>
      rw [merge_of_same hcb,
        merge_of_same (show compare _ (a.both b).location = _ by rw [location_both, ← hloc, hcb]),
        merge_of_same (show compare (b.both c).location _ = _ from hba), both_assoc]

/-- A miss merged with itself is the same miss. -/
theorem merge_self (a : Miss) : a.merge a = a := by
  rw [merge_of_same Std.ReflCmp.compare_self]
  unfold both
  rw [Labels.union_self, Labels.union_self]

end Miss

/-- **The furthest miss joins.** -/
theorem Furthest.joins : Account.Joins Furthest where
  nothing _ := rfl
  assoc a b c := by
    cases c with
    | none => rfl
    | some c =>
      cases b with
      | none => cases a <;> rfl
      | some b =>
        cases a with
        | none => rfl
        | some a => exact congrArg some (a.merge_assoc b c)
  again a b := by
    cases b with
    | none => rfl
    | some b =>
      cases a with
      | none => exact congrArg some b.merge_self
      | some a => exact congrArg some (by rw [Miss.merge_assoc, b.merge_self])

end Packrat
