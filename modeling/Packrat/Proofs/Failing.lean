import Packrat.Action.Registry
import Packrat.Proofs.Lineage

/-!
# How actions fail

The standard functions fail in no way but those of actions, so an action that calls nothing else
fails so, too.

* `Tame`: a computation that fails only with causes of the action category.
* `Native.standard_tame`: the standard functions are tame.
* `Action.eval_tame`: and so is an action under a registry of standard functions.
-/

namespace Packrat

/-- A computation that fails only with causes of the action category. -/
def Tame {α : Type} (m : Except Cause α) : Prop := ∀ c, m = .error c → c.category = .action

namespace Tame

variable {α β : Type}

@[grind .] theorem ok {a : α} : Tame (.ok a) := fun _ h => by cases h

@[grind .] theorem pure {a : α} : Tame (Pure.pure a) := fun _ h => by cases h

@[grind .] theorem bind {m : Except Cause α} {k : α → Except Cause β} (hm : Tame m)
    (hk : ∀ a, Tame (k a)) : Tame (m >>= k) := by
  intro c h
  cases m with
  | error c' => exact hm c (by cases h; rfl)
  | ok a => exact hk a c h

end Tame

namespace Native

@[grind .] theorem wrongCount_tame {name expected : String} {args : List Value} :
    Tame (wrongCount name expected args) := fun _ h => by cases h; rfl

@[grind .] theorem wrongType_tame {α : Type} {expected : String} {v : Value} :
    Tame (wrongType (α := α) expected v) := fun _ h => by cases h; rfl

@[grind .] theorem typeMismatch_tame {α : Type} {expected actual : String} :
    Tame (.error (.typeMismatch expected actual) : Except Cause α) := fun _ h => by cases h; rfl

@[grind .] theorem asString_tame {v : Value} : Tame (asString v) := by
  unfold asString
  split
  · exact .ok
  · exact wrongType_tame

@[grind .] theorem asList_tame {v : Value} : Tame (asList v) := by
  unfold asList
  split
  · exact .ok
  · exact wrongType_tame

@[grind .] theorem asNode_tame {v : Value} : Tame (asNode v) := by
  unfold asNode
  split
  · exact .ok
  · exact wrongType_tame

@[grind .] theorem asWidth_tame {v : Value} : Tame (asWidth v) := by
  unfold asWidth
  split
  · split
    · split
      · exact .ok
      · exact typeMismatch_tame
    · exact typeMismatch_tame
  · exact wrongType_tame

/-- A registered function of the standard registry. -/
theorem standard_mem {name : String} {f : Native} (h : Registry.standard.get? name = some f) :
    f ∈ [concat, str, join, escape, unescape, toNumber, list, cons, append, extend, first, len,
      isEmpty, node, tag, children, eq, not, indent, lines, template] := by
  obtain ⟨entry, he, rfl⟩ := Option.map_eq_some_iff.1 h
  have hm := Roster.mem_of_mem_ofList (List.mem_of_find?_eq_some he)
  simpa using List.mem_map_of_mem (f := Prod.snd) hm

/-- **The standard functions are tame.** -/
theorem standard_tame {name : String} {f : Native} (h : Registry.standard.get? name = some f)
    (args : List Value) : Tame (f args) := by
  have hm := standard_mem h
  simp only [List.mem_cons, List.not_mem_nil, or_false] at hm
  -- each function is a tree of cases with a tame computation at every leaf
  rcases hm with rfl | rfl | rfl | rfl | rfl | rfl | rfl | rfl | rfl | rfl | rfl | rfl | rfl | rfl |
    rfl | rfl | rfl | rfl | rfl | rfl | rfl
  · exact .ok
  · fun_cases str args <;> grind
  · fun_cases join args <;> grind
  · fun_cases escape args <;> grind
  · fun_cases unescape args <;> grind
  · fun_cases toNumber args <;> grind
  · exact .ok
  · fun_cases cons args <;> grind
  · fun_cases append args <;> grind
  · fun_cases extend args <;> grind
  · fun_cases first args <;> grind
  · fun_cases len args <;> grind
  · fun_cases isEmpty args <;> grind
  · fun_cases node args <;> grind
  · fun_cases tag args <;> grind
  · fun_cases children args <;> grind
  · fun_cases eq args <;> grind
  · fun_cases not args <;> grind
  · fun_cases indent args <;> grind
  · fun_cases lines args <;> grind
  · fun_cases template args <;> grind

end Native

/-- A registry that holds standard functions only, under whatever names. -/
def Registry.OfStandard (r : Registry) : Prop :=
  ∀ name f, r.get? name = some f → ∃ origin, standard.get? origin = some f

theorem Registry.standard_ofStandard : standard.OfStandard := fun name _ h => ⟨name, h⟩

namespace Action

variable {registry : Registry}

mutual

/-- **An action is tame** under a registry of standard functions. -/
theorem eval_tame (hr : registry.OfStandard) (scope : Scope) :
    ∀ a : Action, Tame (eval registry scope a)
  | literal v => by rw [eval]; exact .ok
  | var name => by
    rw [eval]
    split
    · exact .ok
    · intro c h; cases h; rfl
  | list items => by
    rw [eval]
    exact (evalAll_tame hr scope items).bind fun _ => .pure
  | node tag args => by
    rw [eval]
    exact (evalAll_tame hr scope args).bind fun _ => .pure
  | call func args => by
    rw [eval]
    split
    · intro c h; cases h; rfl
    next f hf =>
      obtain ⟨origin, ho⟩ := hr func f hf
      exact (evalAll_tame hr scope args).bind (Native.standard_tame ho)

theorem evalAll_tame (hr : registry.OfStandard) (scope : Scope) :
    ∀ as : List Action, Tame (evalAll registry scope as)
  | [] => by rw [evalAll]; exact .ok
  | a :: as => by
    rw [evalAll]
    exact (eval_tame hr scope a).bind fun _ => (evalAll_tame hr scope as).bind fun _ => .pure

end

end Action

end Packrat
