import Packrat.Proofs.Application
import Packrat.Proofs.Keyed
import Packrat.Proofs.Tables

/-!
# What tables are kept fit for

To say what some applications come to through a table, one has to know that the table is fit for
them. They are seldom alone, though: they may stand in the midst of a match that applies quite other
rules, and grows seeds. If the fitness of a table is about the entries of the former only, the
others do no harm. They change entries of their own, and they may forget entries.

* `Upkeep`: a fitness of tables that is about some applications.
* `Upkeep.memoized`: another application leaves a table fit, if its body does.
* `Upkeep.rules`: so all that is applied does, if the applications in question do.
-/

namespace Packrat

variable {φ : Type} [Account φ]

/-! ### Beginning and ending -/

namespace State

variable {s inside : State φ} {f : Frame} {call : Call} {keep : Bool} {v : Option Value}

theorem get?_entered (x : Spot) :
    (s.entered call).memo.get? x =
      if x = (s.pos, call) then some (.active false) else s.memo.get? x :=
  s.memo.get?_begin (s.pos, call) x

/-- An application that ends changes no entry but its own. -/
theorem get?_left {x : Spot} (hx : x ≠ (s.pos, call)) :
    (s.left keep f call v inside).memo.get? x = inside.memo.get? x := by
  unfold left
  cases keep with
  | true => rw [if_pos rfl, Memo.get?_set, if_neg hx]
  | false => rw [if_neg Bool.false_ne_true, Memo.get?_erase, if_neg hx]

theorem get?_left_self :
    (s.left keep f call v inside).memo.get? (s.pos, call) =
      if keep then
        some (.done v inside.pos (Account.ofRule f call.rule s.pos v.isNone inside.account))
      else none := by
  unfold left
  cases keep with
  | true => rw [if_pos rfl, if_pos rfl, Memo.get?_set, if_pos rfl]
  | false => rw [if_neg Bool.false_ne_true, if_neg Bool.false_ne_true, Memo.get?_erase, if_pos rfl]

theorem log_left : (s.left keep f call v inside).memo.log = inside.memo.log := by
  unfold left
  cases keep <;> rfl

end State

/-! ### Fitness -/

/-- **A fitness of tables** that is about some applications: the entries of others may be changed,
and any entry may be taken out. -/
structure Upkeep (φ : Type) where
  fit : Frame → Memo φ → Prop
  about : Frame → Spot → Prop
  sub {f : Frame} {m m' : Memo φ} : fit f m →
    (∀ x, about f x → m'.get? x = m.get? x ∨ m'.get? x = none) → fit f m'

namespace Upkeep

variable (U : Upkeep φ) {f : Frame} {call : Call} {body : Attempt φ} {keep : Bool}
  {s s' : State φ} {v : Option Value}

omit [Account φ] in
theorem set {m : Memo φ} {x : Spot} (hx : ¬ U.about f x) (h : U.fit f m) (e : Entry φ) :
    U.fit f (m.set x e) := by
  refine U.sub h fun y hy => .inl ?_
  rw [Memo.get?_set, if_neg]
  rintro rfl
  exact hx hy

omit [Account φ] in
theorem forgetAfter {m : Memo φ} (h : U.fit f m) (mark : Nat) : U.fit f (m.forgetAfter mark) := by
  refine U.sub h fun y _ => ?_
  rw [Memo.get?_forgetAfter]
  split
  · exact .inr rfl
  · exact .inl rfl

/-- Another application begins. -/
theorem entered (hx : ¬ U.about f (s.pos, call)) (h : U.fit f s.memo) :
    U.fit f (s.entered call).memo := by
  refine U.sub h fun y hy => .inl ?_
  rw [State.get?_entered, if_neg]
  rintro rfl
  exact hx hy

/-- Another application ends. -/
theorem left {inside : State φ} (hx : ¬ U.about f (s.pos, call)) (h : U.fit f inside.memo) :
    U.fit f (s.left keep f call v inside).memo := by
  refine U.sub h fun y hy => .inl (State.get?_left ?_)
  rintro rfl
  exact hx hy

section Bodies

variable (hb : ∀ s v s', U.fit f s.memo → body s = .ok (v, s') → U.fit f s'.memo)

include hb

theorem grow {x : Spot} (hx : ¬ U.about f x) {mark fuel : Nat} {seed w : Value} {stop : Nat}
    (h : U.fit f s.memo) (hg : Packrat.grow body x mark fuel seed stop s = .ok (w, s')) :
    U.fit f s'.memo := by
  induction fuel generalizing seed stop s with
  | zero => cases hg
  | succ fuel ih =>
    rw [grow_succ] at hg
    obtain ⟨⟨y, inside⟩, hy, hg⟩ := bind_eq_ok hg
    have hin : U.fit f inside.memo := hb _ _ _ (U.forgetAfter (U.set hx h _) mark) hy
    have hgrown : U.fit f (inside.grown stop mark).memo := U.forgetAfter hin mark
    cases y with
    | none =>
      cases hg
      exact hgrown
    | some y =>
      dsimp only at hg
      split at hg
      · exact ih hin hg
      · cases hg
        exact hgrown

/-- **Another application leaves a table fit**, if its body does. -/
theorem memoized (hx : ¬ U.about f (s.pos, call)) (h : U.fit f s.memo)
    (hm : Packrat.memoized keep f call body s = .ok (v, s')) : U.fit f s'.memo := by
  cases hg : s.memo.get? (s.pos, call) with
  | some entry =>
    cases entry with
    | active met =>
      rw [memoized_of_active hg] at hm
      cases hm
      exact U.set hx h _
    | done w stop a =>
      rw [memoized_of_done hg] at hm
      cases hm
      exact h
  | none =>
    rw [memoized_of_none hg] at hm
    obtain ⟨⟨v', ripe⟩, hripe, hm⟩ := bind_eq_ok hm
    cases hm
    refine U.left hx ?_
    obtain ⟨⟨w, inside⟩, hw, hripe⟩ := bind_eq_ok hripe
    have hin : U.fit f inside.memo := hb _ _ _ (U.entered hx h) hw
    cases w with
    | none =>
      cases hripe
      exact hin
    | some seed =>
      dsimp only at hripe
      split at hripe
      · obtain ⟨⟨w, grown⟩, hg, hripe⟩ := bind_eq_ok hripe
        cases hripe
        exact U.grow hb hx hin hg
      · cases hripe
        exact hin

end Bodies

/-- **A match that keeps its table fit.** Only the first of the two computations matters. -/
def coupling : Coupling φ φ where
  rel f s t m _ := s.pos = t.pos → U.fit f s.memo → ∀ a s', m = .ok (a, s') → U.fit f s'.memo
  halts _ := True
  at_pos h hpos := h hpos hpos
  halt _ _ _ _ _ h := by cases h
  move _ hk _ _ h := by
    cases h
    exact hk
  expect _ hk _ _ h := by
    cases h
    exact hk
  bind hm hjk hpos hk b s'' h := by
    obtain ⟨⟨a, s'⟩, ha, hb⟩ := bind_eq_ok h
    exact hjk a s' s' rfl (hm hpos hk a s' ha) b s'' hb
  negated hm hpos hk a s' h := by
    obtain ⟨⟨a, inside⟩, ha, h⟩ := bind_eq_ok h
    cases h
    exact hm hpos hk a inside ha
  nested _ _ _ hk a s' h := by
    obtain ⟨⟨a, inside⟩, -, h⟩ := bind_eq_ok h
    cases h
    exact hk

/-- **Whatever is applied leaves a table fit**, if the applications in question do. -/
theorem rules {registry : Registry} {limit : Nat}
    (hown : ∀ depth f d o r args s v s', o.rule? r.name = some r →
      U.about f (s.pos, r.call d o args) → U.fit f s.memo →
      applyKeyed (Packrat.memoized keep) registry limit depth f d o r args s = .ok (v, s') →
        U.fit f s'.memo) (depth : Nat) :
    U.coupling.InStep (applyKeyed (Packrat.memoized keep) registry limit depth)
      (applyKeyed (Packrat.memoized keep) registry limit depth) := by
  induction depth with
  | zero => exact fun _ _ _ _ _ _ _ _ _ _ _ _ h => by cases h
  | succ depth ih =>
    intro f d o r args s t hr _ hk v s' hm
    by_cases hx : U.about f (s.pos, r.call d o args)
    · exact hown (depth + 1) f d o r args s v s' hr hx hk hm
    · refine U.memoized (fun s₁ v₁ s₂ hk₁ h₁ => ?_) hx hk hm
      exact Coupling.runBody_of_rules registry (fun _ => trivial) ih f d o r _ s₁ s₁ rfl hk₁ v₁ s₂ h₁

/-! ### Nothing is kept -/

/-- A table that has nothing of some applications. -/
def absent (P : Spot → Prop) : Upkeep φ where
  fit _ m := ∀ x, P x → m.get? x = none
  about _ x := P x
  sub h hsub x hx := (hsub x hx).elim (fun he => he.trans (h x hx)) id

/-- An application of which nothing is kept leaves nothing of itself. -/
theorem get?_memoized_false {st st' : State φ}
    (hnone : st.memo.get? (st.pos, call) = none)
    (hm : Packrat.memoized false f call body st = .ok (v, st')) :
    st'.memo.get? (st.pos, call) = none := by
  rw [memoized_of_none hnone] at hm
  obtain ⟨⟨w, ripe⟩, -, hm⟩ := bind_eq_ok hm
  cases hm
  exact State.get?_left_self

/-- **Where no results are kept**, nothing is in the table that was not there before. -/
theorem absent_rules (P : Spot → Prop) (registry : Registry) (limit depth : Nat) :
    (absent (φ := φ) P).coupling.InStep (applyKeyed (Packrat.memoized false) registry limit depth)
      (applyKeyed (Packrat.memoized false) registry limit depth) := by
  induction depth generalizing P with
  | zero => exact fun _ _ _ _ _ _ _ _ _ _ _ _ h => by cases h
  | succ depth ih =>
    intro f d o r args s t _ _ hk v s' hm
    -- the application itself is in the table while it runs, and is taken out in the end
    have hothers : (absent fun x => P x ∧ x ≠ (s.pos, r.call d o args)).fit f s'.memo := by
      refine (absent _).memoized (fun s₁ v₁ s₂ hk₁ h₁ => ?_) (fun h => h.2 rfl)
        (fun x hx => hk x hx.1) hm
      exact Coupling.runBody_of_rules registry (fun _ => trivial) (ih _) f d o r _ s₁ s₁ rfl hk₁ v₁
        s₂ h₁
    intro x hx
    by_cases he : x = (s.pos, r.call d o args)
    · subst he
      exact get?_memoized_false (hk _ hx) hm
    · exact hothers x ⟨hx, he⟩

end Upkeep

end Packrat
