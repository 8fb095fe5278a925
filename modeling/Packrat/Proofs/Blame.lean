import Packrat.Proofs.Places
import Packrat.Proofs.Rendering

/-!
# Blame

What a failed match reports, in terms of all that the match came upon. An account that forgets
nothing is a tree: every expectation that was not met is a leaf of it, below the applications and
the negated lookaheads around it. What stays in a table is the tree of the application that put it
there, so a result that is used again counts as a copy of that application.

The engine keeps far less. It has one furthest miss at a time, which every application puts aside,
collects anew, puts down to itself if it failed there, and merges back. Here is what is left in the
end, said of the tree: the furthest of the leaves that are not hidden, and for each of those at that
place the outermost application to blame, or else what was expected.

* `Event`, `Trace`: the tree of a match.
* `Leaf`, `Trace.leaves`: its leaves, with what is around them.
* `Leaf.isHidden`, `Leaf.blamed?`: which leaves count, and what they are put down to.
* `Failure.ExplainedBy`: a report says exactly what follows from some leaves.
* `Engine.failure_explained`: every report is explained by the leaves of its match.
-/

namespace Packrat

/-! ### Sets of labels -/

namespace Labels

variable {label x : String} {a b : Labels}

@[simp] theorem mem_empty : ¬ x ∈ empty.toList := by simp [empty, toList]

@[simp] theorem mem_singleton : x ∈ (singleton label).toList ↔ x = label := by
  simp [singleton, toList]

theorem mem_insert : x ∈ (insert label a).toList ↔ x = label ∨ x ∈ a.toList := by
  unfold insert toList
  dsimp only
  split
  next h =>
    have hmem : label ∈ a.toArray.toList := Array.mem_toList_iff.2 (Array.mem_of_getElem? h)
    constructor
    · exact .inr
    · rintro (rfl | hx)
      · exact hmem
      · exact hx
  next h =>
    rw [Array.toList_insertIdx, List.mem_insertIdx (by simpa using rank_le _ _)]

theorem mem_union : x ∈ (union a b).toList ↔ x ∈ a.toList ∨ x ∈ b.toList := by
  unfold union
  rw [← Array.foldl_toList]
  show _ ↔ _ ∨ x ∈ b.toArray.toList
  generalize b.toArray.toList = labels
  induction labels generalizing a with
  | nil => simp
  | cons l labels ih =>
    rw [List.foldl_cons, ih, mem_insert, List.mem_cons, or_assoc, or_left_comm]

end Labels

/-! ### The order of places -/

/-- Paths are compared as lists are ordered. -/
theorem compare_path_lt {p q : List Nat} : compare p q = .lt ↔ p.lt q := by
  induction p generalizing q with
  | nil => cases q <;> simp [compare, List.compareLex]
  | cons x p ih =>
    cases q with
    | nil => simp [compare, List.compareLex]
    | cons y q =>
      have hcons : compare (x :: p) (y :: q) = (compare x y).then (compare p q) :=
        List.compareLex_cons_cons
      rw [hcons, Ordering.then_eq_lt, ih, Nat.compare_eq_lt, Nat.compare_eq_eq]
      exact List.cons_lt_cons_iff.symm

theorem compare_path_gt {p q : List Nat} : compare p q = .gt ↔ q.lt p := by
  rw [Std.OrientedOrd.eq_swap, Ordering.swap_eq_gt, compare_path_lt]

/-! ### The tree of a match -/

/-- Something that a match came upon. -/
inductive Event
  /-- `label` was expected at a position. -/
  | miss (frame : Frame) (pos : Nat) (label : String)
  /-- A rule was applied at `start`. -/
  | application (frame : Frame) (rule : String) (start : Nat) (failed : Bool) (inside : List Event)
  /-- A negated lookahead. -/
  | negation (inside : List Event)

/-- **The tree of a match**: all that it came upon, in order. -/
abbrev Trace := List Event

/-- An account that forgets nothing. -/
instance : Account Trace where
  empty := []
  miss frame pos label := [.miss frame pos label]
  append a b := a ++ b
  ofRule frame rule start failed inside := [.application frame rule start failed inside]
  ofNegation inside := [.negation inside]

/-- What may be around a leaf. -/
inductive Around
  | application (frame : Frame) (rule : String) (start : Nat) (failed : Bool)
  | negation
deriving DecidableEq

/-- **A leaf of the tree**: an expectation that was not met, and what is around it, outermost
first. -/
structure Leaf where
  frame : Frame
  pos : Nat
  label : String
  around : List Around := []
deriving DecidableEq

namespace Leaf

def location (l : Leaf) : List Nat := l.frame.location l.pos

/-- The leaf with one more thing around it. -/
def within (a : Around) (l : Leaf) : Leaf := { l with around := a :: l.around }

end Leaf

namespace Around

/-- White space and negated lookaheads hide what is inside them. -/
def hides : Around → Bool
  | application _ rule _ _ => rule = "spaces"
  | negation => true

/-- Whether a miss at a location is put down to this: to a rule that failed and had started there,
white space skipped. -/
def blame? (location : List Nat) : Around → Option String
  | application frame rule start failed =>
    if failed ∧ frame.location (frame.input.tokenStart start) = location then some rule else none
  | negation => none

end Around

namespace Leaf

/-- A leaf that does not count. -/
def isHidden (l : Leaf) : Bool := l.around.any Around.hides

/-- **What a leaf is put down to**: the outermost rule around it that is to blame, if any. -/
def blamed? (l : Leaf) : Option String := l.around.findSome? (Around.blame? l.location)

@[simp] theorem isHidden_within (a : Around) (l : Leaf) :
    (l.within a).isHidden = (a.hides || l.isHidden) := rfl

theorem blamed?_within (a : Around) (l : Leaf) :
    (l.within a).blamed? = (a.blame? l.location).or l.blamed? := by
  show List.findSome? (Around.blame? l.location) (a :: l.around) = _
  rw [List.findSome?_cons]
  cases a.blame? l.location <;> rfl

end Leaf

mutual

/-- The leaves of an event. -/
def Event.leaves : Event → List Leaf
  | .miss frame pos label => [{ frame, pos, label }]
  | .application frame rule start failed inside =>
    (Trace.leaves inside).map (Leaf.within (.application frame rule start failed))
  | .negation inside => (Trace.leaves inside).map (Leaf.within .negation)

/-- **The leaves of the tree.** -/
def Trace.leaves : List Event → List Leaf
  | [] => []
  | e :: es => e.leaves ++ Trace.leaves es

end

/-- The leaves that count. -/
def Trace.visible (t : Trace) : List Leaf := (Trace.leaves t).filter fun l => !l.isHidden

namespace Trace

theorem leaves_append (a b : Trace) : leaves (a ++ b) = leaves a ++ leaves b := by
  induction a with
  | nil => rfl
  | cons e a ih => simp only [List.cons_append, leaves, ih, List.append_assoc]

theorem visible_append (a b : Trace) : visible (a ++ b) = visible a ++ visible b := by
  unfold visible
  rw [leaves_append, List.filter_append]

theorem visible_negation (inside : Trace) : visible [.negation inside] = [] := by
  simp [visible, leaves, Event.leaves, Around.hides]

/-- What is inside an application counts, unless the application hides it. -/
theorem visible_application (f : Frame) (rule : String) (start : Nat) (failed : Bool)
    (inside : Trace) :
    visible [.application f rule start failed inside] =
      if rule = "spaces" then []
      else (visible inside).map (Leaf.within (.application f rule start failed)) := by
  have hleaves : leaves [.application f rule start failed inside] =
      (leaves inside).map (Leaf.within (.application f rule start failed)) := by
    rw [leaves, leaves, List.append_nil, Event.leaves]
  unfold visible
  rw [hleaves, List.filter_map]
  by_cases h : rule = "spaces"
  · simp [h, Function.comp_def, Around.hides]
  · simp [h, Function.comp_def, Around.hides]

end Trace

/-! ### Explanation -/

/-- **A miss is explained by some leaves**: it is the furthest of them, its rules are those to blame
for the leaves at that place, and its expectations are those of the leaves there that no rule is to
blame for. -/
structure Miss.ExplainedBy (leaves : List Leaf) (m : Miss) : Prop where
  attained : ∃ l ∈ leaves, l.location = m.location
  greatest : ∀ l ∈ leaves, l.location.le m.location
  rules : ∀ name, name ∈ m.rules.toList ↔
    ∃ l ∈ leaves, l.location = m.location ∧ l.blamed? = some name
  expected : ∀ label, label ∈ m.expected.toList ↔
    ∃ l ∈ leaves, l.location = m.location ∧ l.blamed? = none ∧ l.label = label

/-- The furthest miss is explained, or there was none. -/
def Furthest.ExplainedBy (leaves : List Leaf) : Furthest → Prop
  | none => leaves = []
  | some m => m.ExplainedBy leaves

namespace Miss.ExplainedBy

variable {k l leaves : List Leaf} {a b m : Miss}

theorem single (f : Frame) (p : Nat) (label : String) :
    (Miss.single f p label).ExplainedBy [{ frame := f, pos := p, label }] where
  attained := ⟨_, List.mem_singleton.2 rfl, rfl⟩
  greatest x hx := by
    rw [List.mem_singleton.1 hx]
    exact List.le_refl _
  rules name := by
    simp [Miss.single, Leaf.blamed?]
  expected x := by
    simp [Miss.single, Leaf.blamed?, Leaf.location, Miss.location, eq_comm]

/-- The order of the leaves makes no difference. -/
theorem perm (h : m.ExplainedBy k) (hp : k.Perm l) : m.ExplainedBy l where
  attained := by simpa only [hp.mem_iff] using h.attained
  greatest x hx := h.greatest x (hp.mem_iff.2 hx)
  rules name := by simpa only [hp.mem_iff] using h.rules name
  expected label := by simpa only [hp.mem_iff] using h.expected label

/-- Leaves that are nearer than the miss make no difference. -/
theorem append_nearer (h : a.ExplainedBy k) (hl : ∀ x ∈ l, x.location.lt a.location) :
    a.ExplainedBy (k ++ l) := by
  have hnone (p : Leaf → Prop) : ¬ ∃ x, x ∈ l ∧ x.location = a.location ∧ p x := by
    rintro ⟨x, hx, heq, -⟩
    have hlt := hl x hx
    rw [heq] at hlt
    exact List.lt_irrefl _ hlt
  refine ⟨?_, fun x hx => ?_, fun name => ?_, fun label => ?_⟩
  · obtain ⟨x, hx, heq⟩ := h.attained
    exact ⟨x, List.mem_append_left _ hx, heq⟩
  · rcases List.mem_append.1 hx with hx | hx
    · exact h.greatest x hx
    · exact List.le_of_lt (hl x hx)
  · simp only [List.mem_append, or_and_right, exists_or, hnone, or_false]
    exact h.rules name
  · simp only [List.mem_append, or_and_right, exists_or, hnone, or_false]
    exact h.expected label

/-- At one place, what is put down to either is put down to both. -/
theorem union (ha : a.ExplainedBy k) (hb : b.ExplainedBy l) (h : b.location = a.location) :
    Miss.ExplainedBy (k ++ l)
      { a with rules := a.rules.union b.rules, expected := a.expected.union b.expected } where
  attained := by
    obtain ⟨x, hx, heq⟩ := ha.attained
    exact ⟨x, List.mem_append_left _ hx, heq⟩
  greatest x hx := by
    rcases List.mem_append.1 hx with hx | hx
    · exact ha.greatest x hx
    · exact h ▸ hb.greatest x hx
  rules name := by
    simp only [List.mem_append, or_and_right, exists_or]
    rw [Labels.mem_union, ha.rules, hb.rules, h]
    rfl
  expected label := by
    simp only [List.mem_append, or_and_right, exists_or]
    rw [Labels.mem_union, ha.expected, hb.expected, h]
    rfl

/-- **Two misses are merged** as their leaves are put together. -/
theorem merge (ha : a.ExplainedBy k) (hb : b.ExplainedBy l) :
    (a.merge b).ExplainedBy (k ++ l) := by
  unfold Miss.merge
  split
  next hlt =>
    refine ha.append_nearer fun x hx => ?_
    exact List.lt_of_le_of_lt (hb.greatest x hx) (compare_path_lt.1 hlt)
  next hgt =>
    refine (hb.append_nearer fun x hx => ?_).perm List.perm_append_comm
    exact List.lt_of_le_of_lt (ha.greatest x hx) (compare_path_gt.1 hgt)
  next heq => exact ha.union hb (Std.compare_eq_iff_eq.1 heq)

/-- A rule around the leaves takes the blame for all that was missed at the place. -/
theorem within_blamed {around : Around} {rule : String} (h : m.ExplainedBy leaves)
    (hb : around.blame? m.location = some rule) :
    (m.attributeTo rule).ExplainedBy (leaves.map (Leaf.within around)) := by
  have hblamed (x : Leaf) (hx : x.location = m.location) :
      (x.within around).blamed? = some rule := by
    rw [Leaf.blamed?_within, hx, hb, Option.some_or]
  obtain ⟨x, hx, hxm⟩ := h.attained
  refine ⟨⟨_, List.mem_map_of_mem hx, hxm⟩, fun y hy => ?_, fun name => ⟨fun hname => ?_, ?_⟩,
    fun label => ⟨fun hlabel => absurd hlabel Labels.mem_empty, ?_⟩⟩
  · obtain ⟨x, hx, rfl⟩ := List.mem_map.1 hy
    exact h.greatest x hx
  · rw [Labels.mem_singleton.1 hname]
    exact ⟨_, List.mem_map_of_mem hx, hxm, hblamed x hxm⟩
  · rintro ⟨y, hy, hym, hname⟩
    obtain ⟨x, -, rfl⟩ := List.mem_map.1 hy
    rw [hblamed x hym, Option.some.injEq] at hname
    exact Labels.mem_singleton.2 hname.symm
  · rintro ⟨y, hy, hym, hnone, -⟩
    obtain ⟨x, -, rfl⟩ := List.mem_map.1 hy
    rw [hblamed x hym] at hnone
    cases hnone

/-- What is not to blame for the place may stand around the leaves. -/
theorem within_spared {around : Around} (h : m.ExplainedBy leaves)
    (hb : around.blame? m.location = none) :
    m.ExplainedBy (leaves.map (Leaf.within around)) := by
  have hblamed (x : Leaf) (hx : x.location = m.location) :
      (x.within around).blamed? = x.blamed? := by
    rw [Leaf.blamed?_within, hx, hb, Option.none_or]
  have hexists (p : Option String → String → Prop) :
      (∃ x ∈ leaves.map (Leaf.within around), x.location = m.location ∧ p x.blamed? x.label) ↔
        ∃ x ∈ leaves, x.location = m.location ∧ p x.blamed? x.label := by
    constructor
    · rintro ⟨y, hy, hxm, hp⟩
      obtain ⟨x, hx, rfl⟩ := List.mem_map.1 hy
      rw [hblamed x hxm] at hp
      exact ⟨x, hx, hxm, hp⟩
    · rintro ⟨x, hx, hxm, hp⟩
      rw [← hblamed x hxm] at hp
      exact ⟨_, List.mem_map_of_mem hx, hxm, hp⟩
  refine ⟨?_, fun y hy => ?_, fun name => ?_, fun label => ?_⟩
  · obtain ⟨x, hx, hxm⟩ := h.attained
    exact ⟨_, List.mem_map_of_mem hx, hxm⟩
  · obtain ⟨x, hx, rfl⟩ := List.mem_map.1 hy
    exact h.greatest x hx
  · rw [hexists fun blamed _ => blamed = some name]
    exact h.rules name
  · rw [hexists fun blamed own => blamed = none ∧ own = label]
    exact h.expected label

end Miss.ExplainedBy

namespace Furthest.ExplainedBy

variable {a b : Furthest}

theorem append {k l : List Leaf} (ha : a.ExplainedBy k) (hb : b.ExplainedBy l) :
    (a.append b).ExplainedBy (k ++ l) := by
  cases b with
  | none =>
    cases hb
    rw [List.append_nil]
    exact ha
  | some n =>
    cases a with
    | none =>
      cases ha
      exact hb
    | some m => exact Miss.ExplainedBy.merge ha hb

/-- **What a rule reports** is explained by the leaves inside it, with the rule around them. -/
theorem ofRule {inside : Trace} (h : a.ExplainedBy inside.visible) (f : Frame) (rule : String)
    (start : Nat) (failed : Bool) :
    (a.ofRule f rule start failed).ExplainedBy
      (Trace.visible [.application f rule start failed inside]) := by
  rw [Trace.visible_application]
  unfold Furthest.ofRule
  by_cases hs : rule = "spaces"
  · rw [if_pos hs, if_pos hs]
    rfl
  rw [if_neg hs, if_neg hs]
  generalize inside.visible = leaves at h
  cases a with
  | none =>
    cases h
    cases failed <;> rfl
  | some m =>
    -- only the furthest place matters: leaves that are nearer may be put down to the rule, too
    cases failed with
    | false => exact Miss.ExplainedBy.within_spared h (by simp [Around.blame?])
    | true =>
      by_cases hm : m.location = f.location (f.input.tokenStart start)
      · simp only [Option.map_some, hm, if_true]
        exact Miss.ExplainedBy.within_blamed h (if_pos ⟨rfl, hm.symm⟩)
      · simp only [Option.map_some, hm, if_true, if_false]
        exact Miss.ExplainedBy.within_spared h (if_neg fun hb => hm hb.2.symm)

end Furthest.ExplainedBy

/-- **The furthest miss renders the tree**: putting accounts together keeps it explained by the
leaves that count. -/
def Furthest.rendering : Rendering Furthest Trace where
  accounts a t := a.ExplainedBy t.visible
  empty := rfl
  miss {f p label} := Miss.ExplainedBy.single f p label
  append {_ _ t u} ha hb := by
    show Furthest.ExplainedBy (Trace.visible (t ++ u)) _
    rw [Trace.visible_append]
    exact ha.append hb
  rule h := h.ofRule _ _ _ _
  negation {_ t} _ := Trace.visible_negation t

theorem Furthest.append_some (a : Furthest) (m : Miss) : ∃ n, a.append (some m) = some n := by
  cases a <;> exact ⟨_, rfl⟩

/-! ### Reports -/

/-- **A report is explained by some leaves**: it gives the furthest place among them, the rules to
blame for the leaves at that place, and what was expected by those that no rule is to blame for.
Without leaves it gives the start. -/
structure Failure.ExplainedBy (leaves : List Leaf) (f : Failure) : Prop where
  start : leaves = [] → f.location = [0]
  attained : leaves ≠ [] → ∃ l ∈ leaves, l.location = f.location
  greatest : ∀ l ∈ leaves, l.location.le f.location
  rules : ∀ name, name ∈ f.rules.toList ↔
    ∃ l ∈ leaves, l.location = f.location ∧ l.blamed? = some name
  expected : ∀ label, label ∈ f.expected.toList ↔
    ∃ l ∈ leaves, l.location = f.location ∧ l.blamed? = none ∧ l.label = label

theorem Miss.ExplainedBy.report {leaves : List Leaf} {m : Miss} (h : m.ExplainedBy leaves) :
    m.report.ExplainedBy leaves where
  start hnil := by
    obtain ⟨l, hl, -⟩ := h.attained
    rw [hnil] at hl
    cases hl
  attained _ := h.attained
  greatest := h.greatest
  rules := h.rules
  expected := h.expected

/-- The report of a state is explained if its account is; without one it must be at the start. -/
theorem State.report_explained {input : Input} {leaves : List Leaf} {st : State Furthest}
    (h : st.account.ExplainedBy leaves) (hpos : st.account = none → st.pos = 0) :
    (st.report { input }).ExplainedBy leaves := by
  unfold State.report
  cases ha : st.account with
  | some m =>
    rw [ha] at h
    exact Miss.ExplainedBy.report h
  | none =>
    rw [ha] at h
    cases h
    exact ⟨fun _ => by rw [hpos ha], fun h => absurd rfl h, by simp, by simp, by simp⟩

namespace Engine

/-- **The tree of a run.** Where something is left of the input that should not be, its end is one
more leaf. -/
def trace (e : Engine) (g : Grammar) (rule : String) (input : Input) (args : List Value)
    (toEnd : Bool) : Except Halt Trace := do
  let (value, st) ← (e.start g rule input args : Except Halt (Answer Trace))
  if value.isSome && toEnd && st.pos < input.size then
    return (st.expect { input } st.pos "end of input").account
  else return st.account

/-- **Every report of a failed match is explained by the leaves of the match** that are neither in
white space nor in a negated lookahead. -/
theorem failure_explained (e : Engine) (g : Grammar) (rule : String) (input : Input)
    (args : List Value) (toEnd : Bool) (f : Failure)
    (h : e.run g rule input args toEnd = .ok (.failure f)) :
    ∃ trace, e.trace g rule input args toEnd = .ok trace ∧ f.ExplainedBy trace.visible := by
  have hr := e.start_renders Furthest.rendering g rule input args
  have ha : Ends (fun r => Advance (Books.blank Furthest) { input } (.start Account.empty) r.1 r.2)
      (e.start g rule input args) := start_advances trivial
  rw [run_eq] at h
  unfold trace
  cases ht : e.start (φ := Trace) g rule input args with
  | error halt =>
    rw [ht] at hr
    rw [hr.resolve_left id] at h
    cases h
  | ok r =>
    obtain ⟨v, t⟩ := r
    rw [ht] at hr
    obtain ⟨s, hs, hpos, hacc⟩ := hr
    rw [hs] at h ha
    have h : conclude input toEnd (v, s) = .failure f := Except.ok.inj h
    cases v with
    | none =>
      -- a rule that fails goes back, so without a leaf the report is about the start
      cases h
      exact ⟨_, rfl, State.report_explained hacc fun _ => ha.back rfl⟩
    | some v =>
      simp only [conclude] at h
      split at h
      next hleft =>
        cases h
        refine ⟨_, if_pos (by simpa [hpos] using hleft), State.report_explained ?_ ?_⟩
        · rw [hpos]
          exact Furthest.rendering.append hacc Furthest.rendering.miss
        · intro hnone
          obtain ⟨m, hm⟩ := Furthest.append_some s.account (.single { input } s.pos "end of input")
          cases hm.symm.trans hnone
      next => cases h

/-- Rules that try a quantity twice at one place, and then look ahead for a number behind white
space. -/
def quantities : Draft :=
  { name := "Quantities"
    rules := [
      { name := "start", body := .choice [
          .sequence [.literal "x", .app "quantity", .literal "y"],
          .sequence [.literal "x", .app "quantity", .literal "z"],
          .sequence [.literal "x", .app "spaces", .not (.app "number"), .literal "q"]] },
      { name := "quantity", body := .app "number" },
      { name := "number", body := .app "digit" },
      { name := "spaces", body := .many (.literal " ") }] }

/-- The report of `quantities` on `xa`. -/
def quantityReport : Failure :=
  { location := [1], line := some (1, 2), rules := .singleton "quantity",
    expected := .singleton "'q'", found := "a" }

/-- Five leaves at one place. The digit is put down to the outer of two rules that failed there, and
again in the copy that the table holds; white space and the lookahead hide a leaf each; and no rule
is to blame for the last. -/
theorem failure_explained_quantities :
    (({} : Engine).run quantities.freeze "start" (.ofString "xa") [] false =
        .ok (.failure quantityReport)) ∧
      (∃ trace,
        ({} : Engine).trace quantities.freeze "start" (.ofString "xa") [] false = .ok trace ∧
          quantityReport.ExplainedBy trace.visible) ∧
      ((({} : Engine).trace quantities.freeze "start" (.ofString "xa") [] false).map fun trace =>
          (Trace.leaves trace).map fun l => (l.location, l.label, l.isHidden, l.blamed?)) =
        .ok [([1], "digit", false, some "quantity"), ([1], "digit", false, some "quantity"),
          ([1], "' '", true, none), ([1], "digit", true, some "number"),
          ([1], "'q'", false, none)] := by
  have hrun : ({} : Engine).run quantities.freeze "start" (.ofString "xa") [] false =
      .ok (.failure quantityReport) := by decide +kernel
  exact ⟨hrun, failure_explained _ _ _ _ _ _ _ hrun, by decide +kernel⟩

end Engine

end Packrat
