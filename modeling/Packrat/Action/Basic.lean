import Packrat.Value.Basic

/-!
# Actions

An action is what a rule computes when it has matched: an expression over the values that the rule
has bound, which builds lists and nodes and calls functions by name.
-/

namespace Packrat

/-- An action expression. -/
inductive Action
  | literal (v : Value)
  | var (name : String)
  | list (items : List Action)
  | node (tag : String) (args : List Action)
  | call (func : String) (args : List Action)
deriving Inhabited

namespace Action

mutual

/-- The functions an action calls, in the order in which their names are written. -/
def calls : Action → List String
  | literal _ | var _ => []
  | list items => callsAll items
  | node _ args => callsAll args
  | call func args => func :: callsAll args

/-- The functions that the actions of a list call. -/
def callsAll : List Action → List String
  | [] => []
  | a :: as => calls a ++ callsAll as

end

mutual

/-- Whether two actions are written alike, up to numbers that pass `same`. -/
def agree (same : Number → Number → Bool) : Action → Action → Bool
  | literal a, literal b => a.agree same b
  | var a, var b => a == b
  | list as, list bs => agreeAll same as bs
  | node t as, node u bs => t == u && agreeAll same as bs
  | call f as, call g bs => f == g && agreeAll same as bs
  | _, _ => false

/-- `agree` on the actions of two lists. -/
def agreeAll (same : Number → Number → Bool) : List Action → List Action → Bool
  | [], [] => true
  | a :: as, b :: bs => agree same a b && agreeAll same as bs
  | _, _ => false

end

mutual

/-- Under an exact test on numbers, agreement is equality. -/
theorem agree_iff {same : Number → Number → Bool} (h : ∀ m n, same m n = true ↔ m = n) :
    ∀ a b : Action, agree same a b = true ↔ a = b
  | literal _, b => by cases b <;> simp [agree, Value.agree_iff h]
  | var _, b => by cases b <;> simp [agree]
  | list as, b => by cases b <;> simp [agree, agreeAll_iff h as]
  | node _ as, b => by cases b <;> simp [agree, agreeAll_iff h as]
  | call _ as, b => by cases b <;> simp [agree, agreeAll_iff h as]

theorem agreeAll_iff {same : Number → Number → Bool} (h : ∀ m n, same m n = true ↔ m = n) :
    ∀ as bs : List Action, agreeAll same as bs = true ↔ as = bs
  | [], bs => by cases bs <;> simp [agreeAll]
  | a :: as, bs => by cases bs <;> simp [agreeAll, agree_iff h a, agreeAll_iff h as]

end

instance : DecidableEq Action := fun a b =>
  decidable_of_iff (agree (fun m n => decide (m = n)) a b = true) (agree_iff (by simp) a b)

end Action

end Packrat
