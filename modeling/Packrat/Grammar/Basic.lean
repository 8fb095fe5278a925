import Packrat.Expr
import Packrat.Builtin
import Packrat.Roster

/-!
# Grammars

A grammar has a name, rules, grammars it imports, and possibly a parent whose rules it inherits.
Rules and imports are rosters: listed in name order, one to a name. Two grammars built at different
times are two grammars, even if they have the same name and rules, so each carries a stamp.

* `Grammar.resolve?`: the rule of a name, here or in the nearest ancestor, and who defines it.
* `Grammar.target?`: what applying a name means, a rule or else a built-in rule.
-/

namespace Packrat

/-- A named rule with parameters. -/
structure Rule where
  name : String
  params : List String := []
  body : Expr
deriving DecidableEq, Inhabited

/-- Whether two rules compare equal: numbers in them compare by `Number.equals`. -/
def Rule.equals (a b : Rule) : Bool :=
  a.name == b.name && a.params == b.params && a.body.agree Number.equals b.body

/-- A grammar. -/
structure Grammar where
  name : String
  parent : Option Grammar
  imports : List Grammar
  rules : List Rule
  /-- Tells grammars apart that were built at different times, even if they read alike. -/
  stamp : Nat
deriving Inhabited

namespace Grammar

/-- The rule of a name that the grammar itself defines. -/
def rule? (g : Grammar) (name : String) : Option Rule := Roster.get? Rule.name name g.rules

/-- **Resolution.** The rule of a name, here or in the nearest ancestor that defines it, with the
grammar that does. -/
def resolve? (name : String) : Grammar → Option (Grammar × Rule)
  | g@⟨_, parent, _, rules, _⟩ =>
    match Roster.get? Rule.name name rules with
    | some rule => some (g, rule)
    | none =>
      match parent with
      | some p => resolve? name p
      | none => none
termination_by structural g => g

/-- Whether a rule is defined here or in an ancestor. -/
def hasRule (g : Grammar) (name : String) : Bool := (g.resolve? name).isSome

/-- The imported grammar of a name, here or in the nearest ancestor that imports it. -/
def import? (name : String) : Grammar → Option Grammar
  | ⟨_, parent, imports, _, _⟩ =>
    match Roster.get? Grammar.name name imports with
    | some g => some g
    | none =>
      match parent with
      | some p => import? name p
      | none => none
termination_by structural g => g

/-- The name of the grammar, then those of its ancestors. -/
def ancestry : Grammar → List String
  | ⟨name, none, _, _, _⟩ => [name]
  | ⟨name, some p, _, _, _⟩ => name :: ancestry p
termination_by structural g => g

/-! ### Equality -/

mutual

/-- Whether two grammars are the same. -/
def same : Grammar → Grammar → Bool
  | ⟨m, p, is, rs, s⟩, ⟨n, q, js, ts, t⟩ =>
    s == t && m == n && sameParent p q && sameAll is js && rs == ts

/-- `same` on parents. -/
def sameParent : Option Grammar → Option Grammar → Bool
  | none, none => true
  | some p, some q => same p q
  | _, _ => false

/-- `same` on imports. -/
def sameAll : List Grammar → List Grammar → Bool
  | [], [] => true
  | g :: gs, h :: hs => same g h && sameAll gs hs
  | _, _ => false

end

mutual

theorem same_iff : ∀ g h : Grammar, same g h = true ↔ g = h
  | ⟨_, p, is, _, _⟩, ⟨_, _, _, _, _⟩ => by
    simp only [same, Bool.and_eq_true, beq_iff_eq, sameParent_iff p, sameAll_iff is, mk.injEq]
    exact ⟨fun ⟨⟨⟨⟨hs, hn⟩, hp⟩, hi⟩, hr⟩ => ⟨hn, hp, hi, hr, hs⟩,
      fun ⟨hn, hp, hi, hr, hs⟩ => ⟨⟨⟨⟨hs, hn⟩, hp⟩, hi⟩, hr⟩⟩

theorem sameParent_iff : ∀ p q : Option Grammar, sameParent p q = true ↔ p = q
  | none, q => by cases q <;> simp [sameParent]
  | some p, q => by cases q <;> simp [sameParent, same_iff p]

theorem sameAll_iff : ∀ gs hs : List Grammar, sameAll gs hs = true ↔ gs = hs
  | [], hs => by cases hs <;> simp [sameAll]
  | g :: gs, hs => by cases hs <;> simp [sameAll, same_iff g, sameAll_iff gs]

end

/-- Equality is decided at once for a grammar that is shared. -/
instance : DecidableEq Grammar := fun g h =>
  withPtrEqDecEq g h fun _ => decidable_of_iff (same g h = true) (same_iff g h)

end Grammar

/-! ### What a name means -/

/-- What an application applies: a rule and the grammar that defines it, or a built-in rule. -/
inductive Target
  | rule (owner : Grammar) (rule : Rule)
  | builtin (b : Builtin)

namespace Target

def name : Target → String
  | rule _ r => r.name
  | builtin b => b.name

def arity : Target → Arity
  | rule _ r => .exactly r.params.length
  | builtin b => b.arity

end Target

/-- **What a name means** to a grammar: a rule of its own or inherited, else a built-in rule. -/
def Grammar.target? (g : Grammar) (name : String) : Option Target :=
  match g.resolve? name with
  | some (owner, rule) => some (.rule owner rule)
  | none => (Builtin.ofName? name).map .builtin

/-- One line about a grammar. -/
def Grammar.summary (g : Grammar) : String :=
  let extending :=
    match g.parent with
    | some p => ", extends " ++ p.name
    | none => ""
  let imported :=
    if g.imports.isEmpty then "" else ", uses " ++ ", ".intercalate (g.imports.map Grammar.name)
  g.name ++ " (" ++ toString g.rules.length ++ " rules" ++ extending ++ imported ++ ")"

end Packrat
