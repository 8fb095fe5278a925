import Packrat.Proofs.References

/-!
# Numbers of arguments

When a grammar is built, the number of arguments of each application is checked against what the
name means to that grammar. An heir may give the name another meaning, and `token` applies the rule
`spaces` without being asked. So the check is worth as much as those who override rules keep to it.

* `Grammar.next`, `Reachable`: what a run may come to apply.
* `Grammar.keepsCounts`: overriding has not changed how many arguments the applications of a rule
  need.
* `Engine.no_arity_mismatch`: then no run ends in a wrong number of arguments.
* `Expr.eval_of_not_keepsCount`: and where it is changed, the application ends the run.
-/

namespace Packrat

variable {d o g home : Grammar} {target start : Target} {name : String}

deriving instance DecidableEq for Target

/-- **What is applied next** on behalf of `d`: what the applications in a rule mean, and the rule
`spaces` where a token is matched. -/
def Grammar.next (d : Grammar) : Target → List (Grammar × Target)
  | .rule o r => r.body.subexprs.filterMap fun e =>
      match e.application? d o with
      | some (_, .ok step) => some step
      | _ => none
  | .builtin .token => ((d.resolve? "spaces").map fun (o, r) => (d, .rule o r)).toList
  | .builtin _ => []

/-- What a run may come to apply that starts with `start` on behalf of `home`. -/
inductive Reachable (home : Grammar) (start : Target) : Grammar → Target → Prop
  | start : Reachable home start home start
  | next {d g : Grammar} {target other : Target} : Reachable home start d target →
      (g, other) ∈ d.next target → Reachable home start g other

/-- What holds at the start and is handed on from step to step holds of all that is reachable. -/
theorem Reachable.mem {steps : List (Grammar × Target)} (hs : (home, start) ∈ steps)
    (hn : ∀ step ∈ steps, ∀ other ∈ step.1.next step.2, other ∈ steps)
    (h : Reachable home start d target) : (d, target) ∈ steps := by
  induction h with
  | start => exact hs
  | next _ hm ih => exact hn _ ih _ hm

theorem Reachable.application {r : Rule} {e : Expr} {as : List Action}
    (h : Reachable home start d (.rule o r)) (he : e ∈ r.body.subexprs)
    (hm : e.application? d o = some (as, .ok (g, target))) : Reachable home start g target := by
  refine h.next (List.mem_filterMap.2 ⟨e, he, ?_⟩)
  rw [hm]

theorem Reachable.spaces {r : Rule} (h : Reachable home start d (.builtin .token))
    (hr : d.resolve? "spaces" = some (o, r)) : Reachable home start d (.rule o r) := by
  refine h.next ?_
  simp only [Grammar.next, hr, Option.map_some, Option.toList_some, List.mem_singleton]

/-- Whether an application in a rule of `o` that runs on behalf of `d` may have as many arguments as
it was allowed where it is written. -/
def Expr.keepsCount (d o : Grammar) : Expr → Bool
  | .apply name args =>
    match o.target? name, d.target? name with
    | some first, some target =>
      !first.arity.accepts args.length || target.arity.accepts args.length
    | _, _ => true
  | _ => true

/-- **Counts are kept** in what is applied: by each application in a rule, and for a token by the
rule `spaces`, which gets no arguments. -/
def Grammar.keepsCounts (d : Grammar) : Target → Bool
  | .rule o r => r.body.subexprs.all (Expr.keepsCount d o)
  | .builtin .token => (d.resolve? "spaces").all fun (_, r) => r.params.isEmpty
  | .builtin _ => true

/-- A counted application that keeps its count fits what is applied. -/
theorem Expr.Counted.accepts {e : Expr} {as : List Action} (hn : e.Counted d o as.length target)
    (hm : e.application? d o = some (as, .ok (g, target))) (hk : e.keepsCount d o = true) :
    target.arity.accepts as.length = true := by
  rcases hn with ha | ⟨name, args, first, rfl, ht, hf, ha⟩
  · exact ha
  · obtain ⟨rfl, -⟩ : args = as ∧ _ := by simpa [application?] using hm
    simp only [keepsCount, hf, ht, ha, Bool.not_true, Bool.false_or] at hk
    exact hk

/-- Errors of actions are not about arguments of rules. -/
theorem Tame.counted {α : Type} {m : Except Cause α} (h : Tame m) {rule expected : String}
    {actual : Nat} : m ≠ .error (.arityMismatch rule expected actual) := by
  intro hm
  cases h _ hm

/-- What may be applied where counts are kept. -/
structure Fitting (home : Grammar) (start : Target) (d : Grammar) (target : Target)
    (args : List Value) : Prop where
  sound : Sound d target
  reachable : Reachable home start d target
  accepts : target.arity.accepts args.length = true

/-- Runs that keep counts never come upon a wrong number of arguments. -/
theorem safety_of_counts {registry : Registry} (hr : registry.OfStandard)
    (happly : ∀ d, ¬ Reachable home start d (.builtin .apply))
    (hkeep : ∀ d target, Reachable home start d target → d.keepsCounts target = true) :
    Safety registry
      (fun h => ∀ rule expected actual, h ≠ .fatal (.arityMismatch rule expected actual))
      (Fitting home start) where
  count hf hc := by rw [hf.accepts] at hc; cases hc
  type _ _ _ h := by cases h
  action he _ _ _ h := by cases h; exact (Action.eval_tame hr _ _).counted he
  loop _ _ _ h := by cases h
  limit _ _ _ h := by cases h
  dynamic hf _ := (happly _ hf.reachable).elim
  spaces {d o r args} hf hr := by
    refine ⟨.of_resolve? hf.sound.built hr, hf.reachable.spaces hr, ?_⟩
    -- no application names `spaces` here, so it was never counted when the grammar was built
    have hk := hkeep _ _ hf.reachable
    simp only [Grammar.keepsCounts, hr, Option.all_some, List.isEmpty_iff] at hk
    simp [Target.arity, Arity.accepts, hk]
  body {d o r args e as meaning} hf he hm := by
    obtain ⟨g, target, rfl, hs, hn⟩ := hf.sound.application he hm
    intro args' hargs
    have hk : e.keepsCount d o = true :=
      List.all_eq_true.1 (hkeep _ _ hf.reachable) e he
    refine ⟨hs, hf.reachable.application he hm, ?_⟩
    rw [hargs]
    exact hn.accepts hm hk

/-- **An application that does not keep its count ends the run**, once its arguments are there: what
the name means now does not take them. -/
theorem Expr.eval_of_not_keepsCount {φ : Type} [Account φ] {apply : Applier φ} {registry : Registry}
    {ctx : Context} {e : Expr} {scope : Scope} {as : List Action} {values : List Value}
    {meaning : Except Cause (Grammar × Target)} {st : State φ}
    (hm : e.application? ctx.dispatch ctx.owner = some (as, meaning))
    (hk : e.keepsCount ctx.dispatch ctx.owner = false)
    (hv : Action.evalAll registry scope as = .ok values) :
    ∃ rule expected, e.eval apply registry ctx scope st =
      .error (.fatal (.arityMismatch rule expected as.length)) := by
  cases e with
  | apply name args =>
    obtain ⟨rfl, rfl⟩ : args = as ∧ _ = meaning := by simpa [application?] using hm
    simp only [keepsCount] at hk
    split at hk
    next first target hf ht =>
      rw [Bool.or_eq_false_iff] at hk
      refine ⟨target.name, target.arity.text, ?_⟩
      have happ : (Expr.apply name args).application? ctx.dispatch ctx.owner =
          some (args, .ok (ctx.dispatch, target)) := by simp [application?, ht]
      rw [eval_application happ, hv]
      have hc : target.arity.accepts values.length = false := by
        rw [Action.evalAll_length hv]; exact hk.2
      have hcheck : target.checkCount values =
          .error (.fatal (.arityMismatch target.name target.arity.text args.length)) := by
        unfold Target.checkCount
        rw [hc, Action.evalAll_length hv]
        rfl
      show (applyTarget _ _ _ target values st >>= _) = _
      unfold applyTarget
      rw [hcheck]
      rfl
    next => cases hk
  | _ => simp [keepsCount] at hk

namespace Engine

/-- **No wrong number of arguments.** A match of a built grammar, with standard functions and a rule
called as it is declared, never ends in a wrong number of arguments, if no rule that it may come to
looks up names at run time and overriding has kept the numbers of arguments. -/
theorem no_arity_mismatch (e : Engine) (g : Grammar) (rule : String) (target : Target)
    (input : Input) (args : List Value) (hr : e.registry.OfStandard) (hg : Grammar.Built g)
    (ht : g.target? rule = some target) (ha : target.arity.accepts args.length = true)
    (happly : ∀ d, ¬ Reachable g target d (.builtin .apply))
    (hkeep : ∀ d other, Reachable g target d other → d.keepsCounts other = true) :
    ∀ name expected actual,
      e.matchRule g rule input args ≠ .error (.arityMismatch name expected actual) := by
  intro name expected actual hm
  unfold matchRule at hm
  cases hrun : e.run g rule input args false with
  | ok outcome => rw [hrun] at hm; cases hm
  | error h =>
    rw [hrun] at hm
    have hsafe := (safety_of_counts hr happly hkeep).run ht ⟨.of_target? hg ht, .start, ha⟩ hrun
    cases h with
    | exhausted => cases hm
    | fatal c => exact hsafe name expected actual (by cases hm; rfl)

/-- A grammar with `start = item('a')` and `item(x) = token(x)`. -/
def items : Draft :=
  { name := "Items"
    rules := [
      { name := "item", params := ["x"], body := .apply "token" [.var "x"] },
      { name := "start", body := .apply "item" [.literal (.string "a")] }] }

/-- An heir of `items` with an `item(y)` of its own and with its own white space. -/
def spacedItems : Draft :=
  { name := "SpacedItems", parent := some items.freeze
    rules := [
      { name := "item", params := ["y"], body := .choice [.super "item" [.var "y"], .literal "b"] },
      { name := "spaces", body := .repeated (.literal "_") 0 none }] }

/-- An heir of `items` whose `item` takes no argument. -/
def plainItems : Draft :=
  { name := "PlainItems", parent := some items.freeze
    rules := [{ name := "item", body := .literal "a" }] }

theorem items_built : Grammar.Built items.freeze :=
  .freeze (fun p hp => by cases hp) (fun i hi => by cases hi) (by decide +kernel)

/-- The rule of a name in a grammar that has it. -/
def ruleOf (g : Grammar) (name : String) : Target := .rule g ((g.rule? name).getD default)

/-- All that a run of `spacedItems` may come to. -/
def spacedSteps : List (Grammar × Target) :=
  [ruleOf items.freeze "start", ruleOf spacedItems.freeze "item", ruleOf items.freeze "item",
    .builtin .token, ruleOf spacedItems.freeze "spaces"].map fun target =>
      (spacedItems.freeze, target)

/-- An heir that keeps the number of arguments. -/
theorem no_arity_mismatch_spacedItems :
    Grammar.Built spacedItems.freeze ∧ ∀ name expected actual,
      ({} : Engine).matchRule spacedItems.freeze "start" (.ofString "__a") [] ≠
        .error (.arityMismatch name expected actual) := by
  have hb : Grammar.Built spacedItems.freeze := by
    refine .freeze (fun p hp => ?_) (fun i hi => by cases hi) (by decide +kernel)
    cases hp
    exact items_built
  -- the list is closed under `next`, so a run comes to nothing else
  have hmem : ∀ d target, Reachable spacedItems.freeze (ruleOf items.freeze "start") d target →
      (d, target) ∈ spacedSteps := fun d target h => h.mem (by decide +kernel) (by decide +kernel)
  have hne : ∀ step ∈ spacedSteps, step.2 ≠ .builtin .apply := by decide +kernel
  have hk : ∀ step ∈ spacedSteps, step.1.keepsCounts step.2 = true := by decide +kernel
  exact ⟨hb, no_arity_mismatch {} spacedItems.freeze "start" (ruleOf items.freeze "start")
    (.ofString "__a") [] Registry.standard_ofStandard hb (by decide +kernel) (by decide +kernel)
    (fun d h => hne _ (hmem _ _ h) rfl) fun d target h => hk _ (hmem _ _ h)⟩

/-- An heir that does not: it is built all the same, its `start` is called as it is declared,
nothing looks up names at run time, and the match ends in a wrong number of arguments. -/
theorem arity_mismatch_plainItems :
    Grammar.Built plainItems.freeze ∧
      plainItems.freeze.target? "start" = some (ruleOf items.freeze "start") ∧
      (ruleOf items.freeze "start").arity.accepts 0 = true ∧
      (∀ d, ¬ Reachable plainItems.freeze (ruleOf items.freeze "start") d (.builtin .apply)) ∧
      ({} : Engine).matchRule plainItems.freeze "start" (.ofString "a") [] =
        .error (.arityMismatch "item" "0" 1) := by
  have hb : Grammar.Built plainItems.freeze := by
    refine .freeze (fun p hp => ?_) (fun i hi => by cases hi) (by decide +kernel)
    cases hp
    exact items_built
  refine ⟨hb, by decide +kernel, by decide +kernel, fun d h => ?_, by decide +kernel⟩
  have hmem : (d, .builtin .apply) ∈ [(plainItems.freeze, ruleOf items.freeze "start"),
      (plainItems.freeze, ruleOf plainItems.freeze "item")] :=
    h.mem (by decide +kernel) (by decide +kernel)
  simp [ruleOf] at hmem

end Engine

end Packrat
