import Packrat.Proofs.Congruence
import Packrat.Proofs.Pairing
import Packrat.Proofs.Runs

/-!
# Matching on behalf of another grammar

A match looks at grammars for two reasons only: to find out what a name means, and to tell
applications apart in its tables. So a match on behalf of one grammar goes step by step like a match
on behalf of another, as long as each name that comes up means the same to both, and no two
applications of the first match fall together in the second. What a name means to the other grammar
may even be another rule, if its body does the same.

* `Rewording`: grammars and rules put for those that a match may come to apply.
* `Renaming`: other grammars put, with the same rules.
* `Expr.eval_reworded`: what an expression does where other grammars and rules are put.
* `Memo.Renamed`: a table with its applications filed under the other grammars.
* `Rewording.start`: a whole match comes to the same.
-/

namespace Packrat

variable {φ : Type} [Account φ] {ρ : Grammar → Grammar} {τ : Grammar → Rule → Rule}
  {permits : Grammar → Target → Prop}

/-! ### What is put -/

/-- What is applied, with another grammar put for the one that defines it, and another rule. -/
def Target.reworded (ρ : Grammar → Grammar) (τ : Grammar → Rule → Rule) : Target → Target
  | .rule o r => .rule (ρ o) (τ o r)
  | .builtin b => .builtin b

/-- What is applied, with another grammar put for the one that defines it. -/
abbrev Target.renamed (ρ : Grammar → Grammar) : Target → Target := reworded ρ fun _ r => r

/-- What an application means, with other grammars and rules put. -/
def Meaning.reworded (ρ : Grammar → Grammar) (τ : Grammar → Rule → Rule) :
    Except Cause (Grammar × Target) → Except Cause (Grammar × Target) :=
  Except.map fun step => (ρ step.1, step.2.reworded ρ τ)

/-- What an application means, with other grammars put. -/
abbrev Meaning.renamed (ρ : Grammar → Grammar) :
    Except Cause (Grammar × Target) → Except Cause (Grammar × Target) :=
  reworded ρ fun _ r => r

def Context.renamed (ρ : Grammar → Grammar) (ctx : Context) : Context :=
  { ctx with dispatch := ρ ctx.dispatch, owner := ρ ctx.owner }

def Call.renamed (ρ : Grammar → Grammar) (call : Call) : Call :=
  { call with dispatch := ρ call.dispatch, owner := ρ call.owner }

def Spot.renamed (ρ : Grammar → Grammar) (spot : Spot) : Spot := (spot.1, spot.2.renamed ρ)

/-- Applies the rules that are put for those asked for, on behalf of the grammars that are put. -/
def Applier.reworded (ρ : Grammar → Grammar) (τ : Grammar → Rule → Rule) (apply : Applier φ) :
    Applier φ :=
  fun f d o r args => apply f (ρ d) (ρ o) (τ o r) args

/-- The applications among some expressions mean the same where other grammars and rules are put,
and what they mean is permitted. -/
def Agreeing (ρ : Grammar → Grammar) (τ : Grammar → Rule → Rule)
    (permits : Grammar → Target → Prop) (d o : Grammar) (es : List Expr) : Prop :=
  ∀ e ∈ es, ∀ as meaning, e.application? d o = some (as, meaning) →
    e.application? (ρ d) (ρ o) = some (as, Meaning.reworded ρ τ meaning) ∧
      ∀ g target, meaning = .ok (g, target) → permits g target

/-- No two permitted applications of rules fall together. -/
def Apart (ρ : Grammar → Grammar) (permits : Grammar → Target → Prop) : Prop :=
  ∀ {d d' o o' : Grammar} {r r' : Rule}, permits d (.rule o r) → permits d' (.rule o' r') →
    ρ d = ρ d' → ρ o = ρ o' → d = d' ∧ o = o'

/-- **Other grammars and rules put for those of a match.** What is permitted covers all that
permitted applications lead to; it means the same to the grammar that is put, and no two permitted
applications of rules fall together. -/
structure Rewording (ρ : Grammar → Grammar) (τ : Grammar → Rule → Rule)
    (permits : Grammar → Target → Prop) : Prop where
  apart : Apart ρ permits
  rule {d o : Grammar} {r : Rule} : permits d (.rule o r) →
    (τ o r).name = r.name ∧ (τ o r).params = r.params
  dynamic {d : Grammar} (name : String) : permits d (.builtin .apply) →
    (ρ d).target? name = (d.target? name).map (Target.reworded ρ τ) ∧
      ∀ target, d.target? name = some target → permits d target
  spaces {d : Grammar} : permits d (.builtin .token) →
    (ρ d).resolve? "spaces" = (d.resolve? "spaces").map (fun x => (ρ x.1, τ x.1 x.2)) ∧
      ∀ o r, d.resolve? "spaces" = some (o, r) → permits d (.rule o r)
  body {d o : Grammar} {r : Rule} : permits d (.rule o r) → Agreeing ρ τ permits d o r.body.subexprs

/-- **Other grammars put for those of a match**, with the same rules. -/
abbrev Renaming (ρ : Grammar → Grammar) (permits : Grammar → Target → Prop) : Prop :=
  Rewording ρ (fun _ r => r) permits

/-! ### Evaluation -/

variable {apply : Applier φ} {registry : Registry} {d o : Grammar}

theorem Rewording.checkCount (R : Rewording ρ τ permits) {target : Target} (hp : permits d target)
    (args : List Value) : (target.reworded ρ τ).checkCount args = target.checkCount args := by
  cases target with
  | builtin b => rfl
  | rule o r =>
    obtain ⟨hname, hparams⟩ := R.rule hp
    unfold Target.checkCount Target.arity Target.name Target.reworded
    simp only [hname, hparams]

omit [Account φ] in
/-- What is permitted stands for what is put for it. -/
theorem Rewording.standing (R : Rewording ρ τ permits) (f : Frame) (d : Grammar) :
    Standing (Applier.reworded ρ τ apply) apply f d (ρ d) fun t t' =>
      permits d t ∧ t' = t.reworded ρ τ where
  count args h := by rw [h.2, R.checkCount h.1]
  rule args h := ⟨_, _, h.2, rfl⟩
  builtin h := h.2
  dynamic name h := by
    obtain ⟨hsame, hmay⟩ := R.dynamic name h.1
    rw [hsame]
    cases ht : d.target? name with
    | none => exact .none
    | some t => exact .some ⟨hmay t ht, rfl⟩
  spaces h := by
    obtain ⟨hsame, hmay⟩ := R.spaces h.1
    rw [hsame]
    cases hs : d.resolve? "spaces" with
    | none => exact .none
    | some x => exact .some ⟨hmay x.1 x.2 hs, rfl⟩

/-- What is permitted is applied as what is put for it. -/
theorem Rewording.target (R : Rewording ρ τ permits) {f : Frame} {target : Target}
    (hp : permits d target) (args : List Value) :
    applyTarget (Applier.reworded ρ τ apply) f d target args =
      applyTarget apply f (ρ d) (target.reworded ρ τ) args :=
  (R.standing f d).target ⟨hp, rfl⟩ args

theorem Expr.eval_application_reworded (R : Rewording ρ τ permits) {e : Expr} {ctx : Context}
    {as : List Action} {meaning : Except Cause (Grammar × Target)}
    (he : e.application? ctx.dispatch ctx.owner = some (as, meaning))
    (h : Agreeing ρ τ permits ctx.dispatch ctx.owner [e]) :
    e.eval (Applier.reworded ρ τ apply) registry ctx = e.eval apply registry (ctx.renamed ρ) := by
  obtain ⟨he', hmay⟩ := h e (.head _) as meaning he
  refine eval_application_congr he he' fun _ args _ => ?_
  cases meaning with
  | error c => rfl
  | ok step => exact R.target (hmay step.1 step.2 rfl) args

/-- Where other grammars and rules are put, the leaves come to the same with applications handed to
those. -/
theorem Agreeing.leafwise (R : Rewording ρ τ permits) {es : List Expr}
    (h : Agreeing ρ τ permits d o es) :
    Leafwise (Applier.reworded ρ τ apply) apply registry
      (fun c c' => c.dispatch = d ∧ c.owner = o ∧ c' = c.renamed ρ) es where
  leaf {e c c'} he hleaf hc := by
    obtain ⟨rfl, rfl, rfl⟩ := hc
    have hone : Agreeing ρ τ permits c.dispatch c.owner [e] :=
      fun x hx => h x (List.mem_singleton.1 hx ▸ he)
    cases e with
    | apply | super | foreign => exact Expr.eval_application_reworded R rfl hone
    | action =>
      funext scope st
      rw [Expr.eval, Expr.eval]
    | any | terminal | literal | range | guard =>
      funext scope st
      rw [Expr.eval, Expr.eval]
      rfl
    | _ => cases hleaf
  sequence {c c'} p hc := by
    obtain ⟨hd, ho, rfl⟩ := hc
    exact ⟨hd, ho, rfl⟩
  size {c c'} hc := by
    obtain ⟨-, -, rfl⟩ := hc
    rfl
  capture {_ c c'} _ hc := by
    obtain ⟨-, -, rfl⟩ := hc
    rfl
  nested {_ c c'} _ hc := by
    obtain ⟨hd, ho, rfl⟩ := hc
    exact ⟨rfl, fun _ => ⟨hd, ho, rfl⟩⟩

/-- **What an expression does where other grammars and rules are put** is what it does with
applications handed to those. -/
theorem Expr.eval_reworded (R : Rewording ρ τ permits) (e : Expr) (ctx : Context)
    (h : Agreeing ρ τ permits ctx.dispatch ctx.owner e.subexprs) :
    e.eval (Applier.reworded ρ τ apply) registry ctx = e.eval apply registry (ctx.renamed ρ) :=
  (h.leafwise R).eval e ⟨rfl, rfl, rfl⟩

/-- The body of a rule runs for the grammars that are put as it does with applications handed to
those. -/
theorem Rewording.runBody (R : Rewording ρ τ permits) {apply : Applier φ} {registry : Registry}
    {d o : Grammar} {r : Rule} (hp : permits d (.rule o r)) (f : Frame) (args : List Value) :
    Packrat.runBody apply registry f (ρ d) (ρ o) r args =
      Packrat.runBody (Applier.reworded ρ τ apply) registry f d o r args := by
  funext st
  have h : r.body.eval (Applier.reworded ρ τ apply) registry
      { frame := f, dispatch := d, owner := o } =
      r.body.eval apply registry { frame := f, dispatch := ρ d, owner := ρ o } :=
    Expr.eval_reworded R r.body _ (R.body hp)
  unfold Packrat.runBody
  rw [h]

/-! ### Tables -/

/-- An application of a rule that is permitted. -/
def Call.Permitted (permits : Grammar → Target → Prop) (call : Call) : Prop :=
  ∃ r, permits call.dispatch (.rule call.owner r)

theorem Apart.spot_inj (ha : Apart ρ permits) {x y : Spot} (hx : x.2.Permitted permits)
    (hy : y.2.Permitted permits) : x.renamed ρ = y.renamed ρ ↔ x = y := by
  refine ⟨fun h => ?_, fun h => by rw [h]⟩
  obtain ⟨p, rule, args, d, o, digest⟩ := x
  obtain ⟨p', rule', args', d', o', digest'⟩ := y
  obtain ⟨r, hr⟩ := hx
  obtain ⟨r', hr'⟩ := hy
  simp only [Spot.renamed, Call.renamed, Prod.mk.injEq, Call.mk.injEq] at h
  obtain ⟨rfl, rfl, rfl, hd, ho, rfl⟩ := h
  obtain ⟨rfl, rfl⟩ := ha hr hr' hd ho
  rfl

/-- **A table with its applications filed under other grammars.** -/
structure Memo.Renamed (ρ : Grammar → Grammar) (permits : Grammar → Target → Prop)
    (m w : Memo φ) : Prop where
  get (x : Spot) : x.2.Permitted permits → w.get? (x.renamed ρ) = m.get? x
  log : w.log.toList = m.log.toList.map (Spot.renamed ρ)
  permitted : ∀ x ∈ m.log.toList, x.2.Permitted permits

namespace Memo.Renamed

variable {m w : Memo φ}

omit [Account φ] in
theorem empty : (Memo.empty : Memo φ).Renamed ρ permits (Memo.empty : Memo φ) where
  get x _ := by rw [get?_empty, get?_empty]
  log := rfl
  permitted x hx := by cases hx

omit [Account φ] in
theorem set (ha : Apart ρ permits) (h : m.Renamed ρ permits w) (spot : Spot)
    (hs : spot.2.Permitted permits) (entry : Entry φ) :
    (m.set spot entry).Renamed ρ permits (w.set (spot.renamed ρ) entry) where
  get x hx := by
    rw [get?_set, get?_set, h.get x hx]
    simp only [ha.spot_inj hx hs]
  log := h.log
  permitted := h.permitted

omit [Account φ] in
theorem erase (ha : Apart ρ permits) (h : m.Renamed ρ permits w) (spot : Spot)
    (hs : spot.2.Permitted permits) :
    (m.erase spot).Renamed ρ permits (w.erase (spot.renamed ρ)) where
  get x hx := by
    rw [get?_erase, get?_erase, h.get x hx]
    simp only [ha.spot_inj hx hs]
  log := h.log
  permitted := h.permitted

omit [Account φ] in
theorem begin (ha : Apart ρ permits) (h : m.Renamed ρ permits w) (spot : Spot)
    (hs : spot.2.Permitted permits) :
    (m.begin spot).Renamed ρ permits (w.begin (spot.renamed ρ)) where
  get x hx := by
    rw [get?_begin, get?_begin, h.get x hx]
    simp only [ha.spot_inj hx hs]
  log := by simp [h.log]
  permitted x hx := by
    rw [log_begin, Array.toList_push, List.mem_append, List.mem_singleton] at hx
    rcases hx with hx | rfl
    · exact h.permitted x hx
    · exact hs

omit [Account φ] in
theorem forgetAfter (ha : Apart ρ permits) (h : m.Renamed ρ permits w) (mark : Nat) :
    (m.forgetAfter mark).Renamed ρ permits (w.forgetAfter mark) where
  get x hx := by
    -- what is forgotten in one table is what is forgotten in the other, as keys stay apart
    have hmem : x.renamed ρ ∈ w.log.toList.drop (mark + 1) ↔
        x ∈ m.log.toList.drop (mark + 1) := by
      rw [h.log, ← List.map_drop, List.mem_map]
      constructor
      · rintro ⟨y, hy, he⟩
        have hyp : y.2.Permitted permits := h.permitted y (List.mem_of_mem_drop hy)
        rwa [← (ha.spot_inj hyp hx).1 he]
      · exact fun hm => ⟨x, hm, rfl⟩
    rw [get?_forgetAfter, get?_forgetAfter, h.get x hx]
    simp only [hmem]
  log := by simp [log_forgetAfter, h.log, List.map_take]
  permitted x hx := by
    rw [log_forgetAfter, Array.take, Array.toList_extract] at hx
    exact h.permitted x (List.mem_of_mem_drop (List.mem_of_mem_take hx))

end Memo.Renamed

/-- A match beside the same match on behalf of other grammars. -/
def renamedLikeness (ρ : Grammar → Grammar) (permits : Grammar → Target → Prop) :
    Likeness φ φ :=
  .ofTables (fun _ => False) (fun _ m w => m.Renamed ρ permits w) .empty

omit [Account φ] in
theorem Entry.like_eq {a b : Entry φ} : a.Like Eq b ↔ a = b := by
  constructor
  · intro h
    cases h with
    | active met => rfl
    | done v stop h => rw [h]
  · rintro rfl
    cases a with
    | active met => exact .active met
    | done v stop a => exact .done v stop rfl

/-- Tables treat a permitted application like the one that is put for it. -/
theorem Apart.pairs (ha : Apart ρ permits) (f : Frame) (call : Call)
    (hc : call.Permitted permits) :
    (renamedLikeness (φ := φ) ρ permits).Pairs f call (call.renamed ρ) where
  rule h := congrArg _ h
  mark h := by
    have hl := congrArg List.length h.log
    rw [List.length_map] at hl
    exact hl.symm
  get p h := by
    rw [show (p, call.renamed ρ) = Spot.renamed ρ (p, call) from rfl, h.get (p, call) hc]
    cases Memo.get? _ (p, call) with
    | none => exact .none
    | some entry => exact .some (Entry.like_eq.2 rfl)
  set p h hab := by
    cases Entry.like_eq.1 hab
    exact h.set ha (p, call) hc _
  erase p h := h.erase ha (p, call) hc
  begin p h := h.begin ha (p, call) hc
  forgetAfter mark h := h.forgetAfter ha mark

/-! ### Whole runs -/

/-- If rules are applied in step with those that are put, so is everything that is permitted. -/
theorem Rewording.calling (R : Rewording ρ τ permits) (registry : Registry) {one two : Applier φ}
    (hr : ∀ f d o r args s t, permits d (.rule o r) →
      (renamedLikeness ρ permits).coupling.rel f s t (one f d o r args s)
        (two f d o r args t)) :
    (renamedLikeness ρ permits).coupling.Calling registry one two
      fun d target _ => permits d target where
  count _ _ := trivial
  type := trivial
  action _ := trivial
  loop := trivial
  rule hp _ := hr _ _ _ _ _ _ _ hp
  dynamic hp ht := (R.dynamic _ hp).2 _ ht
  spaces hp hs := (R.spaces hp).2 _ _ hs

section Runs

variable (R : Rewording ρ τ permits) (keep : Bool) (registry : Registry) (limit : Nat)
  (hbody : ∀ depth f d o r args, permits d (.rule o r) →
    Packrat.runBody (φ := φ) (applyDepth (memoized keep) registry limit depth) registry f (ρ d)
        (ρ o) (τ o r) args =
      Packrat.runBody (applyDepth (memoized keep) registry limit depth) registry f (ρ d) (ρ o) r
        args)

include R hbody

/-- **Rules are applied in step** with those that are put and do the same, at any depth. -/
theorem Rewording.applyDepth (depth : Nat) (f : Frame) (d o : Grammar) (r : Rule)
    (args : List Value) (s t : State φ) (hp : permits d (.rule o r)) :
    (renamedLikeness ρ permits).coupling.rel f s t
      (Packrat.applyDepth (memoized keep) registry limit depth f d o r args s)
      (Applier.reworded ρ τ (Packrat.applyDepth (memoized keep) registry limit depth) f d o r args
        t) := by
  induction depth generalizing f d o r args s t with
  | zero => exact fun _ => .inr rfl
  | succ depth ih =>
    intro hl
    have hpairs := Apart.pairs (φ := φ) R.apart f (r.call d o args) ⟨r, hp⟩
    have hcall : (τ o r).call (ρ d) (ρ o) args = (r.call d o args).renamed ρ := by
      rw [Rule.call, (R.rule hp).1]
      rfl
    unfold Applier.reworded Packrat.applyDepth
    rw [hcall, hbody depth f d o r args hp]
    refine hpairs.memoized (fun s' t' hl' => ?_) hl
    rw [R.runBody hp f args]
    refine (R.calling registry ih).runBody (fun e he as meaning hm => ?_) hl'
    have hmay := ((R.body hp) e he as meaning hm).2
    cases meaning with
    | error c => trivial
    | ok step => exact fun _ _ => hmay step.1 step.2 rfl

end Runs

/-- **A match on behalf of another grammar comes to the same**, if what it starts with is permitted
and means the same, and the bodies that are put do the same. -/
theorem Rewording.start (R : Rewording ρ τ permits) (e : Engine)
    (hbody : ∀ depth f d o r args, permits d (.rule o r) →
      Packrat.runBody (φ := φ)
          (Packrat.applyDepth (memoized e.options.memoize) e.registry e.options.maxDepth depth)
          e.registry f (ρ d) (ρ o) (τ o r) args =
        Packrat.runBody
          (Packrat.applyDepth (memoized e.options.memoize) e.registry e.options.maxDepth depth)
          e.registry f (ρ d) (ρ o) r args)
    {g : Grammar} {rule : String} {target : Target} (ht : g.target? rule = some target)
    (ht' : (ρ g).target? rule = some (target.reworded ρ τ)) (hp : permits g target) (input : Input)
    (args : List Value) :
    Follows (fun _ => False) (fun s t : State φ => s.pos = t.pos ∧ s.account = t.account)
      (e.start g rule input args) (e.start (ρ g) rule input args) := by
  have hrules := R.applyDepth e.options.memoize e.registry e.options.maxDepth hbody
    e.options.maxDepth
  have hrel : (renamedLikeness ρ permits).coupling.rel { input } (.start Account.empty)
      (.start Account.empty) (applyTarget _ { input } g target args (.start Account.empty))
      (applyTarget _ { input } g target args (.start Account.empty)) :=
    (R.calling e.registry hrules).target hp
  have hstep := hrel ⟨rfl, (renamedLikeness ρ permits).fresh (f := { input }), rfl⟩
  rw [R.target hp] at hstep
  unfold Engine.start applyName
  simp only [ht, ht']
  exact hstep.mono fun _ _ hl => ⟨hl.pos, hl.accounts⟩

/-- A run on behalf of another grammar with the same rules comes to the same. -/
theorem Rewording.run_eq (R : Renaming ρ permits) (e : Engine) {g : Grammar} {rule : String}
    {target : Target} (ht : g.target? rule = some target)
    (ht' : (ρ g).target? rule = some (target.renamed ρ)) (hp : permits g target) (input : Input)
    (args : List Value) (toEnd : Bool) :
    e.run (ρ g) rule input args toEnd = e.run g rule input args toEnd := by
  have hstep := R.start (φ := Furthest) e (fun _ _ _ _ _ _ _ => rfl) ht ht' hp input args
  rw [Engine.run_eq, Engine.run_eq]
  exact (Engine.map_conclude_of_follows (fun _ _ h => h) hstep (fun _ _ => id) input toEnd).symm

end Packrat
