import Mathlib.Data.List.Forall2
import Packrat.Action.Registry
import Packrat.Notation.Declaration

/-!
# Kinds of values

A value is of a kind by what can be done with it. A text is a string, but a value is of the kind of
expressions if `Expr.ofTree` reads it, whatever it looks like. One thing may go wrong in reading a
tree, and it is no matter of kinds: a bound of a range may be a text of more or fewer characters
than one.

* `Meets`: a computation comes to what it should, or fails in a way that it may fail in.
* `Value.HasOddBound`: there is a range in a tree with a bound that is not one character.
* `Kind`, `Kind.Holds`: the kinds, and the values of each.
* `Kind.children?`, `Kind.arguments?`: what a node is made of, and what a function is called on, for
  a value of a kind.
* `Kind.node_holds`, `Kind.call_holds`: then it is of the kind.
-/

namespace Packrat

/-- **A computation meets its purpose**: it comes to something that satisfies `post`, or it fails in
a way that satisfies `bad`. -/
def Meets {ε α : Type} (bad : ε → Prop) (post : α → Prop) : Except ε α → Prop
  | .ok a => post a
  | .error e => bad e

namespace Meets

variable {ε α β : Type} {bad : ε → Prop} {post : α → Prop} {m : Except ε α}

theorem bind {post' : β → Prop} {k : α → Except ε β} (h : Meets bad post m)
    (hk : ∀ a, post a → Meets bad post' (k a)) : Meets bad post' (m >>= k) := by
  cases m with
  | error e => exact h
  | ok a => exact hk a h

theorem mono {post' : α → Prop} (h : Meets bad post m) (hp : ∀ a, post a → post' a) :
    Meets bad post' m := by
  cases m with
  | error e => exact h
  | ok a => exact hp a h

/-- Another way to fail may be as good. -/
theorem weaken {bad' : ε → Prop} (h : Meets bad post m) (hb : ∀ e, bad e → bad' e) :
    Meets bad' post m := by
  cases m with
  | error e => exact hb e h
  | ok a => exact h

theorem result {a : α} (h : Meets bad post m) (ha : m = .ok a) : post a := by
  rw [ha] at h
  exact h

theorem error {e : ε} (h : Meets bad post m) (he : m = .error e) : bad e := by
  rw [he] at h
  exact h

/-- Nothing but the ways to fail may be of interest. -/
theorem of_error (h : ∀ e, m = .error e → bad e) : Meets bad (fun _ => True) m := by
  cases m with
  | error e => exact h e rfl
  | ok a => trivial

theorem mapM {γ : Type} {f : γ → Except ε α} :
    ∀ {xs : List γ}, (∀ x ∈ xs, Meets bad post (f x)) →
      Meets bad (fun as => ∀ a ∈ as, post a) (xs.mapM f)
  | [], _ => by
    rw [List.mapM_nil]
    exact fun _ h => by cases h
  | x :: xs, h => by
    rw [List.mapM_cons]
    refine (h x List.mem_cons_self).bind fun a ha => ?_
    refine (mapM fun y hy => h y (List.mem_cons_of_mem x hy)).bind fun as has => ?_
    exact List.forall_mem_cons.2 ⟨ha, has⟩

theorem forM {γ : Type} {f : γ → Except ε Unit} :
    ∀ {xs : List γ}, (∀ x ∈ xs, Meets bad (fun _ => True) (f x)) →
      Meets bad (fun _ => True) (xs.forM f)
  | [], _ => trivial
  | x :: xs, h =>
    (h x List.mem_cons_self).bind (k := fun _ => xs.forM f) fun _ _ =>
      forM fun y hy => h y (List.mem_cons_of_mem x hy)

end Meets

/-! ### Ranges in a tree -/

/-- A part of a value: the value itself, or a part of one of its items or children. -/
inductive Value.Contains : Value → Value → Prop
  | self (v : Value) : Contains v v
  | item {items : List Value} {v w : Value} : v ∈ items → Contains v w → Contains (.list items) w
  | child {tag : String} {children : List Value} {v w : Value} : v ∈ children → Contains v w →
    Contains (.node tag children) w

/-- **An odd bound**: a range in the tree has a bound that is not exactly one character. -/
def Value.HasOddBound (v : Value) (bound : String) : Prop :=
  ∃ low high, v.Contains (.node "Range" [.string low, .string high]) ∧
    (bound = low ∨ bound = high) ∧ bound.length ≠ 1

/-- What is said of a bound that is not one character. -/
def Cause.oddBound (bound : String) : Cause :=
  .malformedGrammar ("range bounds must be single characters, found " ++ bound)

/-- Reading the tree may fail so: at an odd bound. -/
def Value.Odd (v : Value) (c : Cause) : Prop := ∃ bound, v.HasOddBound bound ∧ c = .oddBound bound

namespace Value

variable {v w : Value} {c : Cause} {tag : String} {vs : List Value}

theorem Odd.item (h : v.Odd c) (hv : v ∈ vs) : (Value.list vs).Odd c := by
  obtain ⟨bound, ⟨low, high, hc, hb⟩, he⟩ := h
  exact ⟨bound, ⟨low, high, .item hv hc, hb⟩, he⟩

theorem Odd.child (h : v.Odd c) (hv : v ∈ vs) : (Value.node tag vs).Odd c := by
  obtain ⟨bound, ⟨low, high, hc, hb⟩, he⟩ := h
  exact ⟨bound, ⟨low, high, .child hv hc, hb⟩, he⟩

/-- **A tree is readable** if reading it gives something, or fails at an odd bound in it. -/
def Readable {α : Type} (v : Value) (r : Except Cause α) : Prop := Meets v.Odd (fun _ => True) r

namespace Readable

variable {α β : Type} {r : Except Cause α}

theorem ok {a : α} : v.Readable (.ok a) := trivial

theorem bind {k : α → Except Cause β} (h : v.Readable r) (hk : ∀ a, v.Readable (k a)) :
    v.Readable (r >>= k) :=
  Meets.bind h fun a _ => hk a

theorem error (h : v.Readable r) (hc : r = .error c) : v.Odd c := Meets.error h hc

theorem item (h : v.Readable r) (hv : v ∈ vs) : (Value.list vs).Readable r :=
  Meets.weaken h fun _ hc => hc.item hv

theorem child (h : v.Readable r) (hv : v ∈ vs) : (Value.node tag vs).Readable r :=
  Meets.weaken h fun _ hc => hc.child hv

/-- Trees that are readable one by one are so in a list. -/
theorem mapM {read : Value → Except Cause α} (h : ∀ x ∈ vs, x.Readable (read x)) :
    (Value.list vs).Readable (vs.mapM read) :=
  Meets.mono (Meets.mapM fun x hx => (h x hx).item hx) fun _ _ => trivial

end Readable

end Value

/-! ### Kinds -/

/-- The kinds of values that a description is read through. -/
inductive Kind
  | anything
  | text
  /-- A text that stands for a number. -/
  | numeral
  | number
  /-- The name of a parent, or nothing. -/
  | parent
  | action
  | expr
  | rule
  | grammar
  | list (each : Kind)
deriving DecidableEq

namespace Kind

/-- **The values of a kind.** -/
def Holds : Kind → Value → Prop
  | anything, _ => True
  | text, v => ∃ s, v = .string s
  | numeral, v => ∃ s, v = .string s ∧ (Number.parse? (Text.trimBlank s.toList)).isSome
  | number, v => ∃ n, v = .number n
  | parent, v => v = .nil ∨ ∃ s, v = .string s
  | action, v => v.Readable (Action.ofTree v)
  | expr, v => v.Readable (Expr.ofTree v)
  | rule, v => v.Readable (Rule.ofTree v)
  | grammar, v => v.Readable (Declaration.ofTree v)
  | list each, v => ∃ items, v = .list items ∧ ∀ x ∈ items, each.Holds x

/-- Whether a value of the first kind is known to be of the second. -/
def fits (k k' : Kind) : Bool := k' = anything || k = k' || (k = text && k' = parent)

theorem Holds.of_fits {k k' : Kind} {v : Value} (h : k.Holds v) (hb : k.fits k' = true) :
    k'.Holds v := by
  simp only [fits, Bool.or_eq_true, Bool.and_eq_true, decide_eq_true_eq] at hb
  rcases hb with (rfl | rfl) | ⟨rfl, rfl⟩
  · trivial
  · exact h
  · exact .inr h

/-- Whether a value that is written down is of a kind. -/
def admits : Kind → Value → Bool
  | anything, _ | text, .string _ | parent, .nil | parent, .string _ => true
  | _, _ => false

theorem holds_of_admits {k : Kind} {v : Value} (h : k.admits v = true) : k.Holds v := by
  unfold admits at h
  split at h
  · trivial
  · exact ⟨_, rfl⟩
  · exact .inl rfl
  · exact .inr ⟨_, rfl⟩
  · cases h

end Kind

/-! ### Trees -/

theorem Action.ofTrees_eq (vs : List Value) : ofTrees vs = vs.mapM ofTree := by
  induction vs with
  | nil => rfl
  | cons v vs ih => rw [ofTrees, ih, List.mapM_cons]

theorem Expr.ofTrees_eq (vs : List Value) : ofTrees vs = vs.mapM ofTree := by
  induction vs with
  | nil => rfl
  | cons v vs ih => rw [ofTrees, ih, List.mapM_cons]

namespace Kind

/-- What the nodes of actions are made of. -/
def actionChildren? : (tag : String) → Option (List Kind)
  | "HLit" => some [anything]
  | "HVar" => some [text]
  | "HList" => some [list action]
  | "HNode" | "HCall" => some [text, list action]
  | _ => none

/-- What the nodes of expressions are made of. -/
def exprChildren? : (tag : String) → Option (List Kind)
  | "Or" | "And" => some [list expr]
  | "Not" | "Look" | "Many" | "Many1" | "Opt" | "List" | "Capture" => some [expr]
  | "Bind" => some [text, expr]
  | "Pred" | "Act" => some [action]
  | "Range" => some [text, text]
  | "Lit" | "Tok" | "Sym" => some [text]
  | "Num" => some [number]
  | "Any" => some []
  | "Super" | "App" => some [text, list action]
  | "Foreign" => some [text, text, list action]
  | _ => none

/-- **What a node is made of**: the kinds that its children must be of for the node to be of a
kind. -/
def children? (tag : String) : Kind → Option (List Kind)
  | action => actionChildren? tag
  | expr => exprChildren? tag
  | rule => if tag = "Rule" then some [text, list text, expr] else none
  | grammar => if tag = "Grammar" then some [text, parent, list text, list rule] else none
  | _ => none

variable {v w : Value} {tag : String} {vs : List Value}

theorem Holds.actions (h : (list action).Holds v) : v.Readable (Action.ofList v) := by
  obtain ⟨items, rfl, hs⟩ := h
  rw [Action.ofList, Action.ofTrees_eq]
  exact .mapM hs

theorem Holds.exprs (h : (list expr).Holds v) : v.Readable (Expr.ofList v) := by
  obtain ⟨items, rfl, hs⟩ := h
  rw [Expr.ofList, Expr.ofTrees_eq]
  exact .mapM hs

theorem Holds.rules (h : (list rule).Holds v) : v.Readable (Declaration.rulesOfTree v) := by
  obtain ⟨items, rfl, hs⟩ := h
  exact .mapM hs

theorem Holds.name (h : text.Holds v) (what : String) : w.Readable (Tree.name what v) := by
  obtain ⟨s, rfl⟩ := h
  exact .ok

theorem Holds.names (h : (list text).Holds v) (what each : String) :
    v.Readable (Tree.names what each v) := by
  obtain ⟨items, rfl, hs⟩ := h
  exact .mapM fun x hx => (hs x hx).name each

theorem Holds.parentName (h : parent.Holds v) : w.Readable (Declaration.parentOfTree v) := by
  rcases h with rfl | ⟨s, rfl⟩
  · exact .ok
  · exact .ok

/-- A bound of a range is one character, or it is odd. -/
theorem bound_readable {low high bound : String} (h : bound = low ∨ bound = high) :
    (Value.node "Range" [.string low, .string high]).Readable (Tree.bound (.string bound)) := by
  unfold Tree.bound Value.char?
  split
  next => exact .ok
  next hc =>
    refine ⟨bound, ⟨low, high, .self _, h, fun hl => ?_⟩, rfl⟩
    -- a text of length one would have been taken for its character
    rw [← String.length_toList] at hl
    obtain ⟨c, hc'⟩ := List.length_eq_one_iff.1 hl
    simp [hc'] at hc

theorem action_holds {ks : List Kind} (hk : actionChildren? tag = some ks)
    (hs : List.Forall₂ Holds ks vs) : action.Holds (.node tag vs) := by
  unfold actionChildren? at hk
  split at hk <;> cases hk
  case h_1 => -- `HLit`, of any value
    obtain _ | ⟨-, _ | _⟩ := hs
    exact .ok
  case h_2 => -- `HVar`
    obtain _ | ⟨hv, _ | _⟩ := hs
    exact .bind (hv.name _) fun _ => .ok
  case h_3 => -- `HList`
    obtain _ | ⟨hv, _ | _⟩ := hs
    exact .bind (hv.actions.child (by simp)) fun _ => .ok
  case h_4 | h_5 => -- `HNode`, `HCall`
    obtain _ | ⟨hv, _ | ⟨hw, _ | _⟩⟩ := hs
    exact .bind (hv.name _) fun _ => .bind (hw.actions.child (by simp)) fun _ => .ok

theorem expr_holds {ks : List Kind} (hk : exprChildren? tag = some ks)
    (hs : List.Forall₂ Holds ks vs) : expr.Holds (.node tag vs) := by
  unfold exprChildren? at hk
  split at hk <;> cases hk
  case h_1 | h_2 => -- `Or`, `And`
    obtain _ | ⟨hv, _ | _⟩ := hs
    exact .bind (hv.exprs.child (by simp)) fun _ => .ok
  case h_3 | h_4 | h_5 | h_6 | h_7 | h_8 | h_9 => -- what is around one expression
    obtain _ | ⟨hv, _ | _⟩ := hs
    exact .bind (Value.Readable.child hv (by simp)) fun _ => .ok
  case h_10 => -- `Bind`
    obtain _ | ⟨hv, _ | ⟨hw, _ | _⟩⟩ := hs
    exact .bind (hv.name _) fun _ => .bind (Value.Readable.child hw (by simp)) fun _ => .ok
  case h_11 | h_12 => -- `Pred`, `Act`
    obtain _ | ⟨hv, _ | _⟩ := hs
    exact .bind (Value.Readable.child hv (by simp)) fun _ => .ok
  case h_13 => -- `Range`, the one node that may not be read
    obtain _ | ⟨⟨low, rfl⟩, _ | ⟨⟨high, rfl⟩, _ | _⟩⟩ := hs
    exact .bind (bound_readable (.inl rfl)) fun _ =>
      .bind (bound_readable (.inr rfl)) fun _ => .ok
  case h_14 | h_15 | h_16 => -- `Lit`, `Tok`, `Sym`
    obtain _ | ⟨hv, _ | _⟩ := hs
    exact .bind (hv.name _) fun _ => .ok
  case h_17 => -- `Num`
    obtain _ | ⟨⟨n, rfl⟩, _ | _⟩ := hs
    exact .ok
  case h_18 => -- `Any`
    cases hs
    exact .ok
  case h_19 | h_20 => -- `Super`, `App`
    obtain _ | ⟨hv, _ | ⟨hw, _ | _⟩⟩ := hs
    exact .bind (hv.name _) fun _ => .bind (hw.actions.child (by simp)) fun _ => .ok
  case h_21 => -- `Foreign`
    obtain _ | ⟨hv, _ | ⟨hw, _ | ⟨hx, _ | _⟩⟩⟩ := hs
    exact .bind (hv.name _) fun _ => .bind (hw.name _) fun _ =>
      .bind (hx.actions.child (by simp)) fun _ => .ok

theorem rule_holds {name params body : Value} (hn : text.Holds name)
    (hp : (list text).Holds params) (hb : expr.Holds body) :
    rule.Holds (.node "Rule" [name, params, body]) := by
  refine .bind ((hp.names _ _).child (by simp)) fun _ => .bind (hn.name _) fun _ => ?_
  exact .bind (Value.Readable.child hb (by simp)) fun _ => .ok

theorem grammar_holds {name parent imports rules : Value} (hn : text.Holds name)
    (hp : Kind.parent.Holds parent) (hi : (list text).Holds imports)
    (hr : (list rule).Holds rules) :
    grammar.Holds (.node "Grammar" [name, parent, imports, rules]) := by
  refine .bind hp.parentName fun _ => .bind ((hi.names _ _).child (by simp)) fun _ => ?_
  exact .bind (hr.rules.child (by simp)) fun _ => .bind (hn.name _) fun _ => .ok

/-- **A node is of a kind** if its children are of the kinds that it is made of. -/
theorem node_holds {k : Kind} {ks : List Kind} (hk : k.children? tag = some ks)
    (hs : List.Forall₂ Holds ks vs) : k.Holds (.node tag vs) := by
  cases k with
  | action => exact action_holds hk hs
  | expr => exact expr_holds hk hs
  | rule =>
    simp only [children?] at hk
    split at hk <;> cases hk
    next ht =>
      subst ht
      obtain _ | ⟨hn, _ | ⟨hp, _ | ⟨hb, _ | _⟩⟩⟩ := hs
      exact rule_holds hn hp hb
  | grammar =>
    simp only [children?] at hk
    split at hk <;> cases hk
    next ht =>
      subst ht
      obtain _ | ⟨hn, _ | ⟨hp, _ | ⟨hi, _ | ⟨hr, _ | _⟩⟩⟩⟩ := hs
      exact grammar_holds hn hp hi hr
  | _ => cases hk

/-! ### Functions -/

/-- **What a function is called on**: the kinds that its arguments must be of for its value to be of
a kind. -/
def arguments? (func : String) : Kind → Option (List Kind)
  | text =>
    match func with
    | "join" => some [list anything]
    | "unescape" => some [text]
    | _ => none
  | number => if func = "to_number" then some [numeral] else none
  | list each =>
    match func with
    | "cons" => some [each, list each]
    | "append" => some [list each, each]
    | _ => none
  | _ => none

/-- **A call gives a value of a kind** if the arguments are of the kinds that it takes. -/
theorem call_holds {func : String} {k : Kind} {ks : List Kind} (hk : k.arguments? func = some ks)
    (hs : List.Forall₂ Holds ks vs) :
    ∃ f v, Registry.standard.get? func = some f ∧ f vs = .ok v ∧ k.Holds v := by
  unfold arguments? at hk
  split at hk
  next =>
    split at hk <;> cases hk
    case h_1 =>
      obtain _ | ⟨⟨items, rfl, -⟩, _ | _⟩ := hs
      exact ⟨Native.join, _, rfl, rfl, _, rfl⟩
    case h_2 =>
      obtain _ | ⟨⟨s, rfl⟩, _ | _⟩ := hs
      exact ⟨Native.unescape, _, rfl, rfl, _, rfl⟩
  next =>
    split at hk <;> cases hk
    next hf =>
      subst hf
      obtain _ | ⟨⟨s, rfl, hs⟩, _ | _⟩ := hs
      obtain ⟨n, hn⟩ := Option.isSome_iff_exists.1 hs
      exact ⟨Native.toNumber, .number n, rfl, by simp only [Native.toNumber, hn], n, rfl⟩
  next each =>
    split at hk <;> cases hk
    case h_1 =>
      obtain _ | ⟨hv, _ | ⟨⟨items, rfl, hi⟩, _ | _⟩⟩ := hs
      exact ⟨Native.cons, _, rfl, rfl, _, rfl, List.forall_mem_cons.2 ⟨hv, hi⟩⟩
    case h_2 =>
      obtain _ | ⟨⟨items, rfl, hi⟩, _ | ⟨hv, _ | _⟩⟩ := hs
      refine ⟨Native.append, _, rfl, rfl, _, rfl, fun x hx => ?_⟩
      rcases List.mem_append.1 hx with hx | hx
      · exact hi x hx
      · cases List.mem_singleton.1 hx
        exact hv
  next => cases hk

end Kind

end Packrat
