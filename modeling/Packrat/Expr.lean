import Packrat.Action.Basic
import Packrat.Value.Printer

/-!
# Expressions

The bodies of rules: ordered choice, sequence, greedy repetition, lookahead and applications of
other rules, over single elements and runs of characters.
-/

namespace Packrat

/-- The body of a rule. -/
inductive Expr
  /-- Any one element. -/
  | any
  /-- One element equal to the value. -/
  | terminal (v : Value)
  /-- A run of characters of a text, or one item that is this string. -/
  | literal (text : String)
  /-- One character between two, both included. -/
  | range (low high : Char)
  | sequence (items : List Expr)
  | choice (alternatives : List Expr)
  /-- Greedy repetition. At most one gives the value or `nil`, everything else gives a list. -/
  | repeated (body : Expr) (min : Nat) (max : Option Nat)
  /-- Whether the body matches here, or does not, without going further. -/
  | lookahead (negated : Bool) (body : Expr)
  /-- A rule as the grammar being matched sees it. -/
  | apply (rule : String) (args : List Action)
  /-- The parent's version of a rule. -/
  | super (rule : String) (args : List Action)
  /-- A rule of an imported grammar. -/
  | foreign (grammar rule : String) (args : List Action)
  | bind (name : String) (body : Expr)
  /-- The value of an action; nothing is consumed. -/
  | action (a : Action)
  /-- Fails unless the value of the action counts as true. -/
  | guard (a : Action)
  /-- The contents of the next element, all of them. -/
  | nested (body : Expr)
  /-- What the body consumed. -/
  | capture (body : Expr)
deriving Inhabited

namespace Expr

/-! ### Common forms -/

def many (body : Expr) : Expr := repeated body 0 none

def many1 (body : Expr) : Expr := repeated body 1 none

def opt (body : Expr) : Expr := repeated body 0 (some 1)

def not (body : Expr) : Expr := lookahead true body

def look (body : Expr) : Expr := lookahead false body

/-- A rule without arguments. -/
def app (rule : String) : Expr := apply rule []

/-- White space as the grammar defines it, then exactly this text. -/
def token (text : String) : Expr := apply "token" [.literal (.string text)]

/-! ### Views -/

/-- The short form in failure reports. -/
def describe : Expr → String
  | any => "anything"
  | terminal v => v.describe
  | literal text => Text.quoted text
  | range low high => Text.quoted low.toString ++ ".." ++ Text.quoted high.toString
  | apply rule _ | super rule _ => rule
  | foreign grammar rule _ => grammar ++ "." ++ rule
  | nested _ => "a nested sequence"
  | guard _ => "a true guard"
  | _ => "an expression"

mutual

/-- An expression and everything inside it, each before its parts. -/
def subexprs : Expr → List Expr
  | e@(sequence items) => e :: subexprsAll items
  | e@(choice alternatives) => e :: subexprsAll alternatives
  | e@(repeated body _ _) => e :: subexprs body
  | e@(lookahead _ body) => e :: subexprs body
  | e@(bind _ body) => e :: subexprs body
  | e@(nested body) => e :: subexprs body
  | e@(capture body) => e :: subexprs body
  | e => [e]

/-- The subexpressions of the expressions of a list. -/
def subexprsAll : List Expr → List Expr
  | [] => []
  | e :: es => subexprs e ++ subexprsAll es

end

/-! ### Equality -/

mutual

/-- Whether two expressions are written alike, up to numbers that pass `same`. -/
def agree (same : Number → Number → Bool) : Expr → Expr → Bool
  | any, any => true
  | terminal v, terminal w => v.agree same w
  | literal s, literal t => s == t
  | range a b, range c d => a == c && b == d
  | sequence as, sequence bs => agreeAll same as bs
  | choice as, choice bs => agreeAll same as bs
  | repeated a m n, repeated b k l => agree same a b && m == k && n == l
  | lookahead m a, lookahead n b => m == n && agree same a b
  | apply r as, apply s bs => r == s && Action.agreeAll same as bs
  | super r as, super s bs => r == s && Action.agreeAll same as bs
  | foreign g r as, foreign h s bs => g == h && r == s && Action.agreeAll same as bs
  | bind m a, bind n b => m == n && agree same a b
  | action a, action b => a.agree same b
  | guard a, guard b => a.agree same b
  | nested a, nested b => agree same a b
  | capture a, capture b => agree same a b
  | _, _ => false

/-- `agree` on the expressions of two lists. -/
def agreeAll (same : Number → Number → Bool) : List Expr → List Expr → Bool
  | [], [] => true
  | a :: as, b :: bs => agree same a b && agreeAll same as bs
  | _, _ => false

end

mutual

/-- Under an exact test on numbers, agreement is equality. -/
theorem agree_iff {same : Number → Number → Bool} (h : ∀ m n, same m n = true ↔ m = n) :
    ∀ a b : Expr, agree same a b = true ↔ a = b
  | any, b => by cases b <;> simp [agree]
  | terminal _, b => by cases b <;> simp [agree, Value.agree_iff h]
  | literal _, b => by cases b <;> simp [agree]
  | range _ _, b => by cases b <;> simp [agree]
  | sequence as, b => by cases b <;> simp [agree, agreeAll_iff h as]
  | choice as, b => by cases b <;> simp [agree, agreeAll_iff h as]
  | repeated a _ _, b => by cases b <;> simp [agree, agree_iff h a, and_assoc]
  | lookahead _ a, b => by cases b <;> simp [agree, agree_iff h a]
  | apply _ _, b => by cases b <;> simp [agree, Action.agreeAll_iff h]
  | super _ _, b => by cases b <;> simp [agree, Action.agreeAll_iff h]
  | foreign _ _ _, b => by cases b <;> simp [agree, Action.agreeAll_iff h, and_assoc]
  | bind _ a, b => by cases b <;> simp [agree, agree_iff h a]
  | action _, b => by cases b <;> simp [agree, Action.agree_iff h]
  | guard _, b => by cases b <;> simp [agree, Action.agree_iff h]
  | nested a, b => by cases b <;> simp [agree, agree_iff h a]
  | capture a, b => by cases b <;> simp [agree, agree_iff h a]

theorem agreeAll_iff {same : Number → Number → Bool} (h : ∀ m n, same m n = true ↔ m = n) :
    ∀ as bs : List Expr, agreeAll same as bs = true ↔ as = bs
  | [], bs => by cases bs <;> simp [agreeAll]
  | a :: as, bs => by cases bs <;> simp [agreeAll, agree_iff h a, agreeAll_iff h as]

end

instance : DecidableEq Expr := fun a b =>
  decidable_of_iff (agree (fun m n => decide (m = n)) a b = true) (agree_iff (by simp) a b)

end Expr

end Packrat
