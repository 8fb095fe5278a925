import Packrat.Proofs.Counts
import Packrat.Proofs.LeftFold
import Packrat.Proofs.Lineage

/-!
# Left recursion is a left fold

A rule that starts with itself is matched by growing a seed. What comes out is a fold to the left.
The first value is what the base comes to, and each next one is made of the value so far and of what
follows it in the input, for as long as this ends further on. If the rule comes upon itself through
an alias, either of the two may be applied; it is the one that grows, and the other begins anew and
is forgotten in every round.

Both may be applied again and again at all sorts of positions, and the table keeps what they come
to. That does no harm, with one exception. When the alias has grown, the rule itself has been
forgotten with its last round, but the alias stays in the table. If the rule is applied now, it
finds the finished alias on its left. There is no more to be added to that, so it falls back on its
base, and comes to less than the fold.

* `LeftFold.Party`, `LeftFold.Known`: who belongs to the recursion, and a table that knows of them
  what is folded.
* `LeftFold.Overtaken`: what is applied on the left is in the table, and what is applied is not.
* `LeftFold.folded_of_head`, `LeftFold.folded_of_followed`: the head of a recursion comes to the
  fold, and so does who comes upon another that is finished.
* `LeftFold.folded_of_way`, `LeftFold.step_of_overtaken`: so do all applications that are not
  overtaken; one that is comes to a single step.
* `LeftFold.application_folds`: the same of matches that are not keyed and tell what they like.
* `LeftFold.matchRule_overtaken`: a rule that is overtaken by its alias.
-/

namespace Packrat

variable {registry : Registry} {limit : Nat} {S : Grammar → Target → Prop} {f : Frame} {x : Spot}
  {others : List Spot} {keep : Bool} {d o o₁ : Grammar} {r r₁ : Rule} {p : Nat}
  {out out' : Option (Value × Nat)}

/-- The second entry is a result if the first is, which ends at the same place with a value that is
alike. -/
def Entry.Results {φ ψ : Type} (a : Entry φ) (b : Entry ψ) : Prop :=
  ∀ v stop x, a = .done v stop x →
    ∃ v' x', b = .done v' stop x' ∧ Option.Rel Value.Alike v v'

theorem State.Alike.results {φ ψ : Type} [Account φ] [Account ψ] {R : Rendering φ ψ}
    {s : State φ} {t : State ψ} (h : s.Alike R t) : s.memo.Matches Entry.Results t.memo := by
  refine h.tables.imp fun a b hab v stop x ha => ?_
  subst ha
  cases hab with
  | done _ hv _ => exact ⟨_, _, rfl, hv⟩

theorem State.Alike.results_symm {φ ψ : Type} [Account φ] [Account ψ] {R : Rendering φ ψ}
    {s : State φ} {t : State ψ} (h : s.Alike R t) : t.memo.Matches Entry.Results s.memo := by
  refine h.tables.symm.imp fun b a hab v stop x hb => ?_
  subst hb
  cases hab with
  | done _ hv _ => exact ⟨_, _, rfl, Value.rel_alike_symm hv⟩

namespace LeftFold

variable {F : LeftFold}

/-! ### Who belongs to the recursion -/

theorem Way.grounded (hway : F.Way d o r o₁ r₁) :
    o.rule? r.name = some r ∧ o₁.rule? r₁.name = some r₁ := by
  cases hway with
  | self ht => exact ⟨Grammar.target?_grounded ht, Grammar.target?_grounded ht⟩
  | through hy =>
    obtain ⟨name, -, hname⟩ := hy.body
    exact ⟨Grammar.target?_grounded hname, Grammar.target?_grounded hname⟩
  | ahead hy =>
    obtain ⟨name, -, hname⟩ := hy.body
    exact ⟨Grammar.target?_grounded hname, Grammar.target?_grounded hy.again⟩

section Alias

variable {o' : Grammar} {y : Rule} (hy : F.Alias d o r o' y)

include hy

/-- The alias is not the rule. -/
theorem Alias.call_ne (hbody : r.body = F.body) : r.call d o [] ≠ y.call d o' [] := by
  intro h
  obtain ⟨name, hya, hname⟩ := hy.body
  have hr : o.rule? r.name = some r := Grammar.target?_grounded hname
  have hyg : o'.rule? y.name = some y := Grammar.target?_grounded hy.again
  have hsame : r.name = y.name := congrArg Call.rule h
  have howner : o = o' := congrArg Call.owner h
  rw [howner, hsame, hyg] at hr
  cases hr
  rw [hya] at hbody
  cases hbody

/-- The alias is not reached where the rule is not. -/
theorem Alias.not_in (H : Steady registry (F.Reaches d o)) (hself : ¬ F.Reaches d o d (.rule o r)) :
    ¬ Spot.In (F.Reaches d o) (p, y.call d o' []) := by
  obtain ⟨name, hya, hname⟩ := hy.body
  refine Spot.not_in (Grammar.target?_grounded hy.again) fun hreach => ?_
  have ha : (Expr.app name).application? d o' = some ([], .ok (d, .rule o r)) := by
    simp [Expr.app, Expr.application?, hname]
  refine hself (H.body hreach ?_ ha)
  rw [hya]
  exact .head _

end Alias

variable (F) in
/-- **Who belongs to the recursion**: the rule, and what is applied on its left. -/
inductive Party (d o : Grammar) (r : Rule) : Grammar → Rule → Prop
  | rule : Party d o r o r
  | again {o' : Grammar} {y : Rule} : d.target? F.again = some (.rule o' y) → Party d o r o' y

/-- What is applied belongs to it. -/
theorem Way.party (hway : F.Way d o r o₁ r₁) : F.Party d o r o₁ r₁ := by
  cases hway with
  | self _ => exact .rule
  | through _ => exact .rule
  | ahead hy => exact .again hy.again

theorem Party.not_in {o' : Grammar} {y : Rule} (hp : F.Party d o r o' y)
    (H : Steady registry (F.Reaches d o)) (hself : ¬ F.Reaches d o d (.rule o r))
    (hway : F.Way d o r o₁ r₁) (p : Nat) : ¬ Spot.In (F.Reaches d o) (p, y.call d o' []) := by
  have hin : ¬ Spot.In (F.Reaches d o) (p, r.call d o []) := Spot.not_in hway.grounded.1 hself
  cases hp with
  | rule => exact hin
  | again ht =>
    cases hway with
    | self ht' =>
      cases ht.symm.trans ht'
      exact hin
    | through hy =>
      cases ht.symm.trans hy.again
      exact hy.not_in H hself
    | ahead hy =>
      cases ht.symm.trans hy.again
      exact hy.not_in H hself

/-! ### What tables know of the fold -/

section Telling

variable {φ ψ : Type}

variable (F) in
/-- **What is applied is overtaken** by what is applied on its left, of which the table has a value
already, while it has nothing of what is applied. -/
structure Overtaken (d o₁ : Grammar) (r₁ : Rule) (st : State φ) (seed : Value) (stop : Nat) :
    Prop where
  absent : st.memo.get? (st.pos, r₁.call d o₁ []) = none
  again : ∃ o' y a, d.target? F.again = some (.rule o' y) ∧
    st.memo.get? (st.pos, y.call d o' []) = some (.done (some seed) stop a)

/-- Likewise at the same place of a table that has results that are alike. -/
theorem Overtaken.of_matches {st : State φ} {s : State ψ} {seed : Value} {stop : Nat}
    (h : F.Overtaken d o₁ r₁ st seed stop) (hpos : st.pos = s.pos)
    (hm : st.memo.Matches Entry.Results s.memo) :
    ∃ seed', seed.Alike seed' ∧ F.Overtaken d o₁ r₁ s seed' stop := by
  obtain ⟨hnone, o', y, a, ht, hdone⟩ := h
  rw [hpos] at hnone hdone
  obtain ⟨b, hb, hresult⟩ := hm.of_some hdone
  obtain ⟨v, x, rfl, hv⟩ := hresult _ _ _ rfl
  cases hv with
  | some hv => exact ⟨_, hv, hm.of_none hnone, o', y, x, ht, hb⟩

variable (F) in
/-- **An entry that tells what it all amounts to** at a position. -/
def Tells (rules : Nat → Applier Unit) (registry : Registry) (f : Frame) (d o : Grammar) (p : Nat)
    (e : Entry φ) : Prop :=
  ∃ v stop a out, e = .done v stop a ∧ F.Total rules registry f d o p out ∧
    AlikeEnds (v.map fun w => (w, stop)) out

variable (F) in
/-- **A table that knows nothing else of the recursion**, at whatever position. -/
def Known (rules : Nat → Applier Unit) (registry : Registry) (f : Frame) (d o : Grammar) (r : Rule)
    (m : Memo φ) : Prop :=
  ∀ o' y, F.Party d o r o' y → ∀ p e, m.get? (p, y.call d o' []) = some e →
    F.Tells rules registry f d o p e

/-- What is folded by plain matches is folded by keyed ones. -/
theorem total_keyed (hb : registry.Blind)
    (h : F.Total (applyDepth direct registry limit) registry f d o p out) :
    ∃ out', F.Total (applyKeyed direct registry limit) registry f d o p out' ∧
      AlikeEnds out out' :=
  h.alike (fun _ _ _ _ hv hs => hs.keyed hb ((Scope.Alike.refl _).insert hv _))
    fun _ hs => hs.keyed hb (.refl _)

/-- And the other way round. -/
theorem total_plain (hb : registry.Blind)
    (h : F.Total (applyKeyed direct registry limit) registry f d o p out) :
    ∃ out', F.Total (applyDepth direct registry limit) registry f d o p out' ∧
      AlikeEnds out out' :=
  h.alike (fun _ _ _ _ hv hs => hs.plain hb ((Scope.Alike.refl _).insert hv _))
    fun _ hs => hs.plain hb (.refl _)

/-- It is one thing only. -/
theorem total_unique (h : F.Total (applyKeyed direct registry limit) registry f d o p out)
    (h' : F.Total (applyKeyed direct registry limit) registry f d o p out') : out = out' :=
  h.unique h' (fun _ _ => Comes.unique) fun _ _ _ _ => Comes.unique

/-- What a table knows, a table knows that has results that are alike. -/
theorem Known.of_matches {rules rules' : Nat → Applier Unit} {m : Memo φ} {w : Memo ψ}
    (h : F.Known rules registry f d o r m) (hm : m.Matches Entry.Results w)
    (htotal : ∀ {p out}, F.Total rules registry f d o p out →
      ∃ out', F.Total rules' registry f d o p out' ∧ AlikeEnds out out') :
    F.Known rules' registry f d o r w := by
  intro o' y hp p b hb
  obtain ⟨a, ha, hab⟩ := hm.symm.of_some hb
  obtain ⟨v, stop, x, out, rfl, hout, hends⟩ := h o' y hp p a ha
  obtain ⟨v', x', rfl, hv⟩ := hab v stop x rfl
  obtain ⟨out', hout', hends'⟩ := htotal hout
  exact ⟨v', stop, x', out', rfl, hout',
    ((AlikeEnds.ofValue (Value.rel_alike_symm hv) stop).trans hends).trans hends'⟩

end Telling

/-! ### Applications that tell heights -/

section Heights

variable (F registry limit) in
/-- **An application that comes to the fold**, and leaves a table that knows nothing else. -/
structure Folded (f : Frame) (d o : Grammar) (r : Rule) (p : Nat) (a : Answer Height) : Prop where
  total : ∃ out, F.Total (applyKeyed direct registry limit) registry f d o p out ∧
    AlikeEnds a.outcome out
  known : F.Known (applyKeyed direct registry limit) registry f d o r a.2.memo

variable {depth p : Nat} {call : Call} {st : State Height} {a : Answer Height}
  {body : Attempt Height}

/-- What an application leaves in the table of itself tells what it came to. -/
theorem tells_of_memoized (hm : memoized keep f call body st = .ok a)
    (hnone : st.memo.get? (st.pos, call) = none)
    (htotal : F.Total (applyKeyed direct registry limit) registry f d o st.pos out)
    (hends : AlikeEnds a.outcome out) {e : Entry Height}
    (he : a.2.memo.get? (st.pos, call) = some e) :
    F.Tells (applyKeyed direct registry limit) registry f d o st.pos e := by
  obtain ⟨v, st'⟩ := a
  have hidle : st.memo.Idle (st.pos, call) := fun met hmet => by cases hnone.symm.trans hmet
  obtain ⟨stop, h, rfl, hstop⟩ := memoized_entry hm hidle he
  refine ⟨v, stop, h, out, rfl, htotal, ?_⟩
  cases v with
  | none => exact hends
  | some w =>
    rw [hstop rfl]
    exact hends

/-- A table knows no more after the recursion than before, if what it holds of the recursion at its
place tells what it amounts to. -/
theorem Known.after {m m' : Memo Height}
    (hk : F.Known (applyKeyed direct registry limit) registry f d o r m)
    (hout : ∀ o' y, F.Party d o r o' y → ∀ p, ¬ Spot.In S (p, y.call d o' []))
    (hapart : Memo.Apart S x others m m')
    (hx : ∀ e, m'.get? x = some e →
      F.Tells (applyKeyed direct registry limit) registry f d o x.1 e)
    (ho : ∀ z ∈ others, ∀ e, m'.get? z = some e →
      F.Tells (applyKeyed direct registry limit) registry f d o z.1 e) :
    F.Known (applyKeyed direct registry limit) registry f d o r m' := by
  intro o' y hp p e he
  by_cases hyx : (p, y.call d o' []) = x
  · subst hyx
    exact hx e he
  by_cases hyo : (p, y.call d o' []) ∈ others
  · exact ho _ hyo e he
  rcases hapart _ (hout o' y hp p) hyx hyo with hsame | hnone
  · rw [hsame] at he
    exact hk o' y hp p e he
  · cases hnone.symm.trans he

/-- **What is found in the table is the fold.** -/
theorem folded_of_found (hk : F.Known (applyKeyed direct registry limit) registry f d o r st.memo)
    (hp : F.Party d o r o₁ r₁) {e : Entry Height}
    (he : st.memo.get? (st.pos, r₁.call d o₁ []) = some e)
    (happ : applyKeyed (memoized keep) registry limit depth f d o₁ r₁ [] st = .ok a) :
    F.Folded registry limit f d o r st.pos a := by
  obtain ⟨v, stop, h, out, rfl, htotal, hends⟩ := hk o₁ r₁ hp st.pos e he
  cases depth with
  | zero => cases happ
  | succ depth =>
    rw [applyKeyed_succ, memoized_of_done he] at happ
    cases happ
    refine ⟨⟨out, htotal, ?_⟩, hk⟩
    cases v with
    | none => exact hends
    | some w => exact hends

/-- **The head of a recursion comes to the fold** that begins with none of those in the table that
belong to it. -/
theorem folded_of_head (hk : F.Known (applyKeyed direct registry limit) registry f d o r st.memo)
    (hout : ∀ o' y, F.Party d o r o' y → ∀ p, ¬ Spot.In S (p, y.call d o' []))
    (hb : Follow registry limit S f (st.pos, call) others
      (Round (F.Starts (applyKeyed direct registry limit) registry f d o st.pos)
        (F.Step (applyKeyed direct registry limit) registry f d o st.pos)) body)
    (hx : ¬ Spot.In S (st.pos, call)) (hxo : (st.pos, call) ∉ others)
    (hplace : ∀ z ∈ others, z.1 = st.pos) (hkept : Gauged registry limit S f st.memo .empty)
    (hnone : st.memo.get? (st.pos, call) = none) (habsent : ∀ z ∈ others, st.memo.get? z = none)
    (hm : memoized keep f call body st = .ok a) : F.Folded registry limit f d o r st.pos a := by
  obtain ⟨v, st'⟩ := a
  obtain ⟨htotal, hothers, hapart⟩ := memoized_folds hb hx hxo rfl hkept hnone habsent hm
  refine ⟨⟨_, htotal, .refl _⟩, hk.after hout hapart (fun e he => ?_) fun z hz e he => ?_⟩
  · exact tells_of_memoized hm hnone htotal (.refl _) he
  · rcases hothers z hz with hgone | ⟨rfl, hgone | ⟨stop, h, hfailed⟩⟩
    · cases hgone.symm.trans he
    · cases hgone.symm.trans he
    · cases hfailed.symm.trans he
      refine ⟨none, stop, h, none, rfl, ?_, .none⟩
      rw [hplace z hz]
      exact htotal

/-- **Who comes upon another that is finished** comes to the fold if the other did. -/
theorem folded_of_followed {P : Option (Entry Height) → Option (Value × Nat) →
      Option (Entry Height) → Prop}
    (hk : F.Known (applyKeyed direct registry limit) registry f d o r st.memo)
    (hout : ∀ o' y, F.Party d o r o' y → ∀ p, ¬ Spot.In S (p, y.call d o' []))
    (hf : Followed registry limit S f x [(st.pos, call)] P st a)
    (hx : ∀ e, a.2.memo.get? x = some e →
      F.Tells (applyKeyed direct registry limit) registry f d o x.1 e)
    (hnone : st.memo.get? (st.pos, call) = none)
    (htotal : F.Total (applyKeyed direct registry limit) registry f d o st.pos out)
    (hends : AlikeEnds a.outcome out) (hm : memoized keep f call body st = .ok a) :
    F.Folded registry limit f d o r st.pos a := by
  refine ⟨⟨out, htotal, hends⟩, hk.after hout hf.course.keeps_apart hx fun z hz e he => ?_⟩
  cases List.mem_singleton.1 hz
  exact tells_of_memoized hm hnone htotal hends he

/-! ### The ways through the recursion -/

section Ways

variable (H : Steady registry (F.Reaches d o)) (hself : ¬ F.Reaches d o d (.rule o r))
  (hr : r.params = []) (hbody : r.body = F.body)

include H hself hr hbody

/-- The body of the rule, if it comes upon the rule itself. -/
theorem self_follows (ht : d.target? F.again = some (.rule o r)) (p depth : Nat) :
    Follow registry limit (F.Reaches d o) f (p, r.call d o []) []
      (Round (F.Starts (applyKeyed direct registry limit) registry f d o p)
        (F.Step (applyKeyed direct registry limit) registry f d o p))
      (runBody (applyKeyed (memoized keep) registry limit depth) registry f d o r []) := by
  have hin : ¬ Spot.In (F.Reaches d o) (p, r.call d o []) :=
    Spot.not_in (Grammar.target?_grounded ht) hself
  exact body_follows H hin (by simp) applies_base applies_steps hr hbody ht hr
    (head_follows depth hin)

variable {o' : Grammar} {y : Rule} (hy : F.Alias d o r o' y)

include hy

/-- The alias passes on what the rule gives it, which is the head. -/
theorem alias_hits (p depth : Nat) :
    Follow registry limit (F.Reaches d o) f (p, r.call d o []) [(p, y.call d o' [])] Hit
      (applyKeyed (memoized keep) registry limit depth f d o' y []) := by
  obtain ⟨name, hya, hname⟩ := hy.body
  have hin : ¬ Spot.In (F.Reaches d o) (p, r.call d o []) :=
    Spot.not_in (Grammar.target?_grounded hname) hself
  refine Follow.applied (hy.not_in H hself) (by simpa using hy.call_ne hbody) fun n => ?_
  rw [runBody_app hya hname hr]
  exact head_follows n hin

/-- The body of the rule, if it comes upon the rule through the alias. -/
theorem rule_follows (p depth : Nat) :
    Follow registry limit (F.Reaches d o) f (p, r.call d o []) [(p, y.call d o' [])]
      (Round (F.Starts (applyKeyed direct registry limit) registry f d o p)
        (F.Step (applyKeyed direct registry limit) registry f d o p))
      (runBody (applyKeyed (memoized keep) registry limit depth) registry f d o r []) := by
  obtain ⟨name, -, hname⟩ := hy.body
  have hin : ¬ Spot.In (F.Reaches d o) (p, r.call d o []) :=
    Spot.not_in (Grammar.target?_grounded hname) hself
  exact body_follows H hin (by simpa using hy.not_in H hself) applies_base applies_steps hr hbody
    hy.again hy.params (alias_hits H hself hr hbody hy p depth)

/-- The rule, if the alias is the head. -/
theorem rule_rounds (p depth : Nat) :
    Follow registry limit (F.Reaches d o) f (p, y.call d o' []) [(p, r.call d o [])]
      (Round (F.Starts (applyKeyed direct registry limit) registry f d o p)
        (F.Step (applyKeyed direct registry limit) registry f d o p))
      (applyKeyed (memoized keep) registry limit depth f d o r []) := by
  obtain ⟨name, -, hname⟩ := hy.body
  have hin : ¬ Spot.In (F.Reaches d o) (p, r.call d o []) :=
    Spot.not_in (Grammar.target?_grounded hname) hself
  have hyin : ¬ Spot.In (F.Reaches d o) (p, y.call d o' []) := hy.not_in H hself
  refine Follow.applied hin (by simpa using (hy.call_ne hbody).symm) fun n => ?_
  exact body_follows H hyin (by simp) applies_base applies_steps hr hbody hy.again hy.params
    (head_follows n hyin)

end Ways

section Applied

variable (H : Steady registry (F.Reaches d o)) (hself : ¬ F.Reaches d o d (.rule o r))
  (hr : r.params = []) (hbody : r.body = F.body)
  (hkept : Gauged registry limit (F.Reaches d o) f st.memo .empty)
  (hknown : F.Known (applyKeyed direct registry limit) registry f d o r st.memo)

include H hself hr hbody hkept hknown

/-- The rule is applied, of which nothing is in the table. -/
theorem folded_of_through {o' : Grammar} {y : Rule} (hy : F.Alias d o r o' y)
    (hnone : st.memo.get? (st.pos, r.call d o []) = none)
    (hnot : ∀ seed stop, ¬ F.Overtaken d o r st seed stop)
    (happ : applyKeyed (memoized keep) registry limit (depth + 1) f d o r [] st = .ok a) :
    F.Folded registry limit f d o r st.pos a := by
  have hway : F.Way d o r o r := .through hy
  have hout : ∀ o₁ r₁, F.Party d o r o₁ r₁ → ∀ p,
      ¬ Spot.In (F.Reaches d o) (p, r₁.call d o₁ []) := fun _ _ hp => hp.not_in H hself hway
  cases hgy : st.memo.get? (st.pos, y.call d o' []) with
  | none =>
    exact folded_of_head hknown hout (rule_follows H hself hr hbody hy _ _) (hout _ _ .rule _)
      (by simpa using hy.call_ne hbody) (by simp) hkept hnone (by simpa using hgy) happ
  | some e =>
    obtain ⟨v, stop, h, out, rfl, htotal, hends⟩ := hknown o' y (.again hy.again) _ _ hgy
    cases v with
    | some seed => exact absurd ⟨hnone, o', y, h, hy.again, hgy⟩ (hnot seed stop)
    | none =>
      -- the alias has failed, so the base fails
      have hready : Ready registry limit (F.Reaches d o) f (st.pos, y.call d o' [])
          [(st.pos, r.call d o [])] st :=
        ⟨rfl, hkept, .inr ⟨none, stop, h, hgy⟩, by simpa using hnone⟩
      have hf := rule_rounds H hself hr hbody hy st.pos (depth + 1) _ _ hready happ
      obtain ⟨hstarts, hsame⟩ := hf.comes.failed hgy
      cases hends
      have hends : AlikeEnds a.outcome none := by
        cases htotal with
        | fails hfails =>
          rw [hstarts.unique hfails]
          exact .none
      refine folded_of_followed hknown hout hf (fun e he => ?_) hnone htotal hends happ
      rw [hsame] at he
      exact hknown o' y (.again hy.again) _ _ he

/-- The alias is applied, of which nothing is in the table. -/
theorem folded_of_ahead {o' : Grammar} {y : Rule} (hy : F.Alias d o r o' y)
    (hnone : st.memo.get? (st.pos, y.call d o' []) = none)
    (happ : applyKeyed (memoized keep) registry limit (depth + 1) f d o' y [] st = .ok a) :
    F.Folded registry limit f d o r st.pos a := by
  have hway : F.Way d o r o' y := .ahead hy
  have hout : ∀ o₁ r₁, F.Party d o r o₁ r₁ → ∀ p,
      ¬ Spot.In (F.Reaches d o) (p, r₁.call d o₁ []) := fun _ _ hp => hp.not_in H hself hway
  cases hgr : st.memo.get? (st.pos, r.call d o []) with
  | none =>
    have hfollow : Follow registry limit (F.Reaches d o) f (st.pos, y.call d o' [])
        [(st.pos, r.call d o [])]
        (Round (F.Starts (applyKeyed direct registry limit) registry f d o st.pos)
          (F.Step (applyKeyed direct registry limit) registry f d o st.pos))
        (runBody (applyKeyed (memoized keep) registry limit depth) registry f d o' y []) := by
      obtain ⟨name, hya, hname⟩ := hy.body
      rw [runBody_app hya hname hr]
      exact rule_rounds H hself hr hbody hy st.pos depth
    exact folded_of_head hknown hout hfollow (hout _ _ hway.party _)
      (by simpa using (hy.call_ne hbody).symm) (by simp) hkept hnone (by simpa using hgr) happ
  | some e =>
    -- the alias passes on what the rule has come to
    obtain ⟨v, stop, h, out, rfl, htotal, hends⟩ := hknown o r .rule _ _ hgr
    have hready : Ready registry limit (F.Reaches d o) f (st.pos, r.call d o [])
        [(st.pos, y.call d o' [])] st :=
      ⟨rfl, hkept, .inr ⟨v, stop, h, hgr⟩, by simpa using hnone⟩
    have hf := alias_hits H hself hr hbody hy st.pos (depth + 1) _ _ hready happ
    obtain ⟨htold, hsame⟩ := hf.comes.done hgr
    rw [← htold] at hends
    refine folded_of_followed hknown hout hf (fun e he => ?_) hnone htotal hends happ
    rw [hsame] at he
    exact hknown o r .rule _ _ he

/-- **Applications come to the fold**, whichever way the rule comes upon itself, unless they are
overtaken. -/
theorem folded_of_way (hway : F.Way d o r o₁ r₁)
    (hnot : ∀ seed stop, ¬ F.Overtaken d o₁ r₁ st seed stop)
    (happ : applyKeyed (memoized keep) registry limit depth f d o₁ r₁ [] st = .ok a) :
    F.Folded registry limit f d o r st.pos a := by
  cases hg : st.memo.get? (st.pos, r₁.call d o₁ []) with
  | some e => exact folded_of_found hknown hway.party hg happ
  | none =>
    cases depth with
    | zero => cases happ
    | succ depth =>
      cases hway with
      | self ht =>
        have hout : ∀ o₁ r₁, F.Party d o r o₁ r₁ → ∀ p,
            ¬ Spot.In (F.Reaches d o) (p, r₁.call d o₁ []) :=
          fun _ _ hp => hp.not_in H hself (.self ht)
        exact folded_of_head hknown hout (self_follows H hself hr hbody ht _ _) (hout _ _ .rule _)
          (by simp) (by simp) hkept hg (by simp) happ
      | through hy => exact folded_of_through H hself hr hbody hkept hknown hy hg hnot happ
      | ahead hy => exact folded_of_ahead H hself hr hbody hkept hknown hy hg happ

/-- **An application that is overtaken** comes to one more step, or if there is none to what the
base comes to. -/
theorem step_of_overtaken (hway : F.Way d o r o₁ r₁) {seed : Value} {stop : Nat}
    (hover : F.Overtaken d o₁ r₁ st seed stop)
    (happ : applyKeyed (memoized keep) registry limit depth f d o₁ r₁ [] st = .ok a) :
    (a.outcome.isSome ∧
        F.Step (applyKeyed direct registry limit) registry f d o st.pos seed stop a.outcome) ∨
      F.Step (applyKeyed direct registry limit) registry f d o st.pos seed stop none ∧
        F.Starts (applyKeyed direct registry limit) registry f d o st.pos a.outcome := by
  obtain ⟨hnone, o', y, h, ht, hgy⟩ := hover
  cases hway with
  | self ht' =>
    cases ht.symm.trans ht'
    cases hnone.symm.trans hgy
  | ahead hy =>
    cases ht.symm.trans hy.again
    cases hnone.symm.trans hgy
  | through hy =>
    cases ht.symm.trans hy.again
    have hready : Ready registry limit (F.Reaches d o) f (st.pos, y.call d o' [])
        [(st.pos, r.call d o [])] st :=
      ⟨rfl, hkept, .inr ⟨some seed, stop, h, hgy⟩, by simpa using hnone⟩
    have hf := rule_rounds H hself hr hbody hy st.pos depth _ _ hready happ
    refine (hf.comes.again hgy).2.imp_right fun ⟨hspent, hsame⟩ => ⟨hspent, ?_⟩
    -- the alias has a value, so the base comes to one
    obtain ⟨v, _, _, out, he, htotal, hends⟩ := hknown o' y (.again hy.again) _ _ hgy
    cases he
    cases htotal with
    | fails _ => cases hends
    | folds hstart _ =>
      rw [hsame _ hstart]
      exact hstart

end Applied

end Heights

/-- What comes to what is folded fails where the base fails, and else comes to the end of the
fold. -/
theorem folds_of_total (hb : registry.Blind) {v : Option Value} {e : Nat}
    (hv : AlikeEnds (v.map fun w => (w, e)) out)
    (h : F.Total (applyKeyed direct registry limit) registry f d o p out) :
    (v = none ↔ F.Starts (applyDepth direct registry limit) registry f d o p none) ∧
      ∀ (w : Value) (stop : Nat), (∃ w', w.Alike w' ∧ v = some w' ∧ e = stop) ↔
        ∃ v₀ e₀ w', w.Alike w' ∧
          F.Starts (applyDepth direct registry limit) registry f d o p (some (v₀, e₀)) ∧
          Folds (F.Step (applyDepth direct registry limit) registry f d o p) v₀ e₀ w' stop := by
  -- whatever is folded by plain matches is alike
  have hsame {out'} (h' : F.Total (applyDepth direct registry limit) registry f d o p out') :
      AlikeEnds (v.map fun w => (w, e)) out' := by
    obtain ⟨out'', htotal, hends⟩ := total_keyed hb h'
    exact (total_unique h htotal ▸ hv).trans hends.symm
  obtain ⟨out', htotal, hends⟩ := total_plain hb h
  have hv' := hv.trans hends
  refine ⟨⟨fun hnone => ?_, fun hstart => ?_⟩, fun w stop => ⟨?_, ?_⟩⟩
  · subst hnone
    cases hv'
    cases htotal with
    | fails hstart => exact hstart
  · have hfails := hsame (.fails hstart)
    cases v with
    | none => rfl
    | some w => cases hfails
  · rintro ⟨w', hw, rfl, rfl⟩
    cases hv' with
    | @some _ y hxy =>
      obtain ⟨w'', stop⟩ := y
      obtain ⟨hw', rfl⟩ := hxy
      cases htotal with
      | folds hstart hfolds => exact ⟨_, _, w'', hw.trans hw', hstart, hfolds⟩
  · rintro ⟨v₀, e₀, w', hw, hstart, hfolds⟩
    have hends := hsame (.folds hstart hfolds)
    cases v with
    | none => cases hends
    | some x =>
      cases hends with
      | some hxy => exact ⟨x, hw.trans hxy.1.symm, rfl, hxy.2⟩

/-- One more step from a seed, or the base if there is none, is the same of plain matches, up to the
bits of NaNs. -/
theorem step_or_start_plain (hb : registry.Blind) {seed seed' : Value} {stop : Nat}
    {told : Option (Value × Nat)} (hseed : seed'.Alike seed)
    (h : (out.isSome ∧ F.Step (applyKeyed direct registry limit) registry f d o p seed' stop out) ∨
      F.Step (applyKeyed direct registry limit) registry f d o p seed' stop none ∧
        F.Starts (applyKeyed direct registry limit) registry f d o p out)
    (htold : AlikeEnds told out) :
    ∃ out', AlikeEnds told out' ∧
      ((out'.isSome ∧
          F.Step (applyDepth direct registry limit) registry f d o p seed stop out') ∨
        F.Step (applyDepth direct registry limit) registry f d o p seed stop none ∧
          F.Starts (applyDepth direct registry limit) registry f d o p out') := by
  have hscope (name : String) : (Scope.insert [] name seed').Alike (Scope.insert [] name seed) :=
    (Scope.Alike.refl _).insert hseed name
  rcases h with ⟨hsome, hstep⟩ | ⟨hspent, hstart⟩
  · obtain ⟨out', hstep', hout⟩ := hstep.plain hb (hscope _)
    exact ⟨out', htold.trans hout, .inl ⟨hout.isSome ▸ hsome, hstep'⟩⟩
  · obtain ⟨out', hstart', hout⟩ := hstart.plain hb (.refl _)
    obtain ⟨gone, hspent', hgone⟩ := hspent.plain hb (hscope _)
    cases hgone
    exact ⟨out', htold.trans hout, .inr ⟨hspent', hstart'⟩⟩

/-! ### All applications -/

variable {φ : Type} [Account φ] {st : State φ}

variable (registry limit F) in
/-- **Where the rule may be applied**: at a position of the input. Of what the rule reaches, the
table holds what plain matches give; of the recursion itself it may hold, at whatever position, what
is folded. -/
structure Open (f : Frame) (d o : Grammar) (r : Rule) (st : State φ) : Prop where
  sound : st.Sound (Books.blank φ) f
  settled : Settled registry limit (F.Reaches d o) f st.memo
  known : F.Known (applyDepth direct registry limit) registry f d o r st.memo

/-- Any position will do, as long as the table is empty. -/
theorem open_empty {account : φ} (hp : p ≤ f.input.size) :
    F.Open registry limit f d o r ⟨p, .empty, account⟩ where
  sound := ⟨trivial, hp, .empty, trivial⟩
  settled := ⟨fun _ h => by simp at h, fun _ _ h => by simp at h⟩
  known _ _ _ _ _ h := by simp at h

/-- **Left recursion is a left fold.** A rule that starts with itself, at once or through an alias,
and reaches nothing else that is left-recursive or looks up names, is applied, or its alias is.
Unless an error ends the run, it fails where its base fails; and else it comes to what is folded
from what the base comes to, each step being made of what follows the rule in its body, in a scope
with nothing in it but the value so far. The table is left as fit for the next application of either
as it was. All of this is up to the bits of NaNs.

An application that is overtaken is no fold: it comes to one more step from the value that is in the
table already, or if there is none to what the base comes to. Where results are not kept, nothing is
in the table that was not there before, so nothing comes to be overtaken. -/
theorem application_folds (F : LeftFold) (keep : Bool) (registry : Registry) (limit depth : Nat)
    (f : Frame) (d o o₁ : Grammar) (r r₁ : Rule) (st : State φ) (hb : registry.Blind)
    (hr : r.params = []) (hbody : r.body = F.body) (hway : F.Way d o r o₁ r₁)
    (hstraight : ∀ g o' r', F.Reaches d o g (.rule o' r') → ¬ LeftRecursive registry g o' r')
    (hself : ¬ F.Reaches d o d (.rule o r)) (hstatic : ∀ g, ¬ F.Reaches d o g (.builtin .apply))
    (hopen : F.Open registry limit f d o r st)
    (hfatal : ∀ c, applyDepth (memoized keep) registry limit depth f d o₁ r₁ [] st ≠
      .error (.fatal c)) :
    ∃ v st', applyDepth (memoized keep) registry limit depth f d o₁ r₁ [] st = .ok (v, st') ∧
      Settled registry limit (F.Reaches d o) f st'.memo ∧
      ((∀ seed stop, ¬ F.Overtaken d o₁ r₁ st seed stop) →
        F.Open registry limit f d o r st' ∧
        (v = none ↔ F.Starts (applyDepth direct registry limit) registry f d o st.pos none) ∧
        ∀ (w : Value) (stop : Nat), (∃ w', w.Alike w' ∧ v = some w' ∧ st'.pos = stop) ↔
          ∃ v₀ e₀ w', w.Alike w' ∧
            F.Starts (applyDepth direct registry limit) registry f d o st.pos (some (v₀, e₀)) ∧
            Folds (F.Step (applyDepth direct registry limit) registry f d o st.pos) v₀ e₀ w' stop) ∧
      (∀ seed stop, F.Overtaken d o₁ r₁ st seed stop →
        ∃ out, AlikeEnds (v.map fun w => (w, st'.pos)) out ∧
          ((out.isSome ∧
              F.Step (applyDepth direct registry limit) registry f d o st.pos seed stop out) ∨
            F.Step (applyDepth direct registry limit) registry f d o st.pos seed stop none ∧
              F.Starts (applyDepth direct registry limit) registry f d o st.pos out)) ∧
      (keep = false → ∀ x, st.memo.get? x = none → st'.memo.get? x = none) := by
  have hends := applyDepth_advances (B := Books.blank φ) keep registry limit depth f d o₁ r₁ [] st
    hopen.sound
  cases happ : applyDepth (memoized keep) registry limit depth f d o₁ r₁ [] st with
  | error h =>
    rw [happ] at hends
    cases h with
    | fatal c => exact absurd happ (hfatal c)
    | exhausted => exact absurd rfl hends
  | ok q =>
    obtain ⟨v, st'⟩ := q
    rw [happ] at hends
    have H : Steady registry (F.Reaches d o) := steady hb hstraight hstatic
    have hsettled := hopen.settled.application H hway.grounded.2 happ
    obtain ⟨s, s', w, hs, hk, happ', hvw, hs'⟩ := hopen.settled.retold hb happ
    have hknown : F.Known (applyKeyed direct registry limit) registry f d o r s.memo :=
      hopen.known.of_matches hs.results (total_keyed hb)
    have hpos : st.pos = s.pos := hs.pos
    have htold : AlikeEnds (v.map fun w => (w, st'.pos)) (Answer.outcome (w, s')) := by
      rw [hs'.pos]
      exact .ofValue hvw _
    refine ⟨v, st', rfl, hsettled, fun hnot => ?_, fun seed stop hover => ?_, ?_⟩
    · have hnot' : ∀ seed stop, ¬ F.Overtaken d o₁ r₁ s seed stop := by
        intro seed stop hover
        obtain ⟨seed', -, hover'⟩ := hover.of_matches hpos.symm hs.results_symm
        exact hnot seed' stop hover'
      obtain ⟨⟨out, htotal, hout⟩, hknown'⟩ :=
        folded_of_way H hself hr hbody hk hknown hway hnot' happ'
      rw [← hpos] at htotal
      have hv : AlikeEnds (v.map fun w => (w, st'.pos)) out := htold.trans hout
      refine ⟨⟨hends.sound, hsettled, hknown'.of_matches hs'.results_symm (total_plain hb)⟩, ?_⟩
      exact folds_of_total hb hv htotal
    · obtain ⟨seed', hseed, hover'⟩ := hover.of_matches hpos hs.results
      have hstep := step_of_overtaken H hself hr hbody hk hknown hway hover' happ'
      rw [← hpos] at hstep
      exact step_or_start_plain hb hseed.symm hstep htold
    · rintro rfl x hx
      have habsent := Upkeep.absent_rules (· = x) registry limit depth f d o₁ r₁ [] s s
        hway.grounded.2 rfl (fun y hy => hy ▸ hs.tables.of_none hx) w s' happ' x rfl
      exact hs'.tables.symm.of_none habsent

/-! ### Differences of digits -/

/-- `difference = l:expr '-' n:num → [l, n] / num`. -/
def differences : LeftFold where
  left := "l"
  again := "expr"
  rest := [.literal "-", .bind "n" (.app "num")]
  result := .list [.var "l", .var "n"]
  base := .app "num"

def difference : Rule := { name := "difference", body := differences.body }

/-- An alias of `difference`. -/
def expr : Rule := { name := "expr", body := .app "difference" }

def num : Rule := { name := "num", body := .range '0' '9' }

/-- `start = expr ';' / difference '.'`. -/
def start : Rule :=
  { name := "start"
    body := .choice [.sequence [.app "expr", .literal ";"],
      .sequence [.app "difference", .literal "."]] }

/-- A grammar of these rules. -/
def digits : Grammar := Draft.freeze { name := "Digits", rules := [start, expr, difference, num] }

/-- The alias is applied to `1-2-3` behind a bracket. -/
def bracketed : Except Halt (Answer Furthest) :=
  applyDepth (memoized true) .standard 8 8 { input := .ofString "(1-2-3" } digits digits expr []
    ⟨1, .empty, none⟩

/-- All that is reached beside the recursion is `num`. -/
theorem reaches_num {g : Grammar} {t : Target} (h : differences.Reaches digits digits g t) :
    (g, t) = (digits, .rule digits num) := by
  have hfirst : ∀ step ∈ (Expr.subexprsAll (differences.base :: differences.rest)).filterMap
      (Expr.application? digits digits), step.2 = .ok (digits, .rule digits num) := by
    decide +kernel
  obtain ⟨e, he, as, home, start, ha, hreach⟩ := h
  cases hfirst _ (List.mem_filterMap.2 ⟨e, he, ha⟩)
  have hmem : (g, t) ∈ [(digits, Target.rule digits num)] :=
    hreach.mem (by decide +kernel) (by decide +kernel)
  simpa using hmem

theorem num_straight : ¬ LeftRecursive .standard digits digits num := by
  rintro ⟨limit, depth, f, args, pos, h⟩
  cases depth with
  | zero => cases h
  | succ depth =>
    rw [applyDepth, strict_of_idle (fun _ => by simp), runBody, num, Expr.eval] at h
    cases h

/-- The differences are taken from the left. -/
theorem application_folds_digits :
    differences.Way digits digits difference digits expr ∧
      bracketed.map (fun r => (r.1, r.2.pos)) =
        .ok (some (.list [.list [.string "1", .string "2"], .string "3"]), 6) ∧
      ∃ v₀ e₀ w, Value.Alike (.list [.list [.string "1", .string "2"], .string "3"]) w ∧
        differences.Starts (applyDepth direct .standard 8) .standard
          { input := .ofString "(1-2-3" } digits digits 1 (some (v₀, e₀)) ∧
        Folds (differences.Step (applyDepth direct .standard 8) .standard
          { input := .ofString "(1-2-3" } digits digits 1) v₀ e₀ w 6 := by
  have hway : differences.Way digits digits difference digits expr :=
    .ahead ⟨by decide +kernel, rfl, "difference", rfl, by decide +kernel⟩
  have hrun : bracketed.map (fun r => (r.1, r.2.pos)) =
      .ok (some (.list [.list [.string "1", .string "2"], .string "3"]), 6) := by decide +kernel
  refine ⟨hway, hrun, ?_⟩
  obtain ⟨v, st', happ, -, hfold, -, -⟩ := application_folds differences true .standard 8 8
    { input := .ofString "(1-2-3" } digits digits digits difference expr
    (⟨1, .empty, none⟩ : State Furthest) Registry.standard_blind rfl rfl hway
    (fun g o' r' h => by
      cases reaches_num h
      exact num_straight)
    (fun h => by
      have hne : (digits, Target.rule digits difference) ≠ (digits, .rule digits num) := by
        decide +kernel
      exact hne (reaches_num h))
    (fun g h => by cases reaches_num h) (open_empty (by decide +kernel))
    (fun c hc => by
      have hc : bracketed = .error (.fatal c) := hc
      rw [hc] at hrun
      cases hrun)
  have happ : bracketed = .ok (v, st') := happ
  rw [happ] at hrun
  obtain ⟨hv, hpos⟩ := Prod.mk.inj (Except.ok.inj hrun)
  have hnot : ∀ seed stop,
      ¬ differences.Overtaken digits digits expr (⟨1, .empty, none⟩ : State Furthest) seed stop := by
    rintro seed stop ⟨-, o', y, a, -, hdone⟩
    simp at hdone
  exact ((hfold hnot).2.2 _ _).1 ⟨_, rfl, hv, hpos⟩

/-- **A rule that is overtaken by its alias.** Applied for itself, `difference` comes to all of
`1-2-3`. Applied where `expr` has been applied before, it comes to the first digit only. So a match
of `start` fails with kept results, and succeeds without. -/
theorem matchRule_overtaken :
    Grammar.Built digits ∧
      (applyDepth (memoized true) .standard 8 8 { input := .ofString "1-2-3." } digits digits
        difference [] (.start (none : Furthest))).map (fun r => (r.1, r.2.pos)) =
        .ok (some (.list [.list [.string "1", .string "2"], .string "3"]), 5) ∧
      ((applyDepth (memoized true) .standard 8 8 { input := .ofString "1-2-3." } digits digits
        expr [] (.start (none : Furthest))).bind fun r =>
          applyDepth (memoized true) .standard 8 8 { input := .ofString "1-2-3." } digits digits
            difference [] (r.2.moveTo 0)).map (fun r => (r.1, r.2.pos)) =
        .ok (some (.string "1"), 1) ∧
      ((({} : Engine).keeping true).matchRule digits "start" (.ofString "1-2-3.") []).map
        (fun r => r matches .failure _) = .ok true ∧
      (({} : Engine).keeping false).matchRule digits "start" (.ofString "1-2-3.") [] =
        .ok (.success (.string ".") { input := .ofString "1-2-3.", pos := 6 }) := by
  refine ⟨.freeze (fun p hp => by cases hp) (fun i hi => by cases hi) (by decide +kernel), ?_, ?_,
    ?_, ?_⟩
  · decide +kernel
  · decide +kernel
  · decide +kernel
  · decide +kernel

end LeftFold

end Packrat
