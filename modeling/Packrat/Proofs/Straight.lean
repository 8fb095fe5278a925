import Packrat.Proofs.Direct
import Packrat.Proofs.Upkeep

/-!
# Matching without left recursion

Left recursion is what a match does, not what a grammar looks like: an application comes upon itself
again, at the same place and with the same arguments, while it is under way. A strict match looks
out for that and gives up as soon as it happens. Otherwise it matches plainly.

* `strict`: application that gives up on left recursion.
* `strict_mono`: a strict match that keeps within a depth is the same at any greater depth.
* `direct_follows_strict`: unless it gives up, a strict match is a plain one.
* `LeftRecursive`: some strict match of the rule gives up.
* `Gives`: what a plain match of an application comes to, at whatever depth.
-/

namespace Packrat

/-- An account that notes nothing. -/
instance : Account Unit where
  empty := ()
  miss _ _ _ := ()
  append _ _ := ()
  ofRule _ _ _ _ _ := ()
  ofNegation _ := ()

variable {φ ψ : Type}

/-- The application is not under way. -/
def Memo.Idle (m : Memo φ) (spot : Spot) : Prop := ∀ met, m.get? spot ≠ some (.active met)

/-- An application is under way or it is not. -/
theorem Memo.active_or_idle (m : Memo φ) (spot : Spot) :
    (∃ met, m.get? spot = some (.active met)) ∨ m.Idle spot := by
  by_cases h : ∃ met, m.get? spot = some (.active met)
  · exact .inl h
  · exact .inr fun met hm => h ⟨met, hm⟩

variable [Account φ] [Account ψ] {f : Frame} {call : Call} {body : Attempt φ}
  {st : State φ}

/-- How a strict application starts: it is marked as running. -/
def State.marked (st : State φ) (call : Call) : State φ :=
  { st with memo := st.memo.set (st.pos, call) (.active false), account := Account.empty }

/-- How a strict application ends: as a plain one does, and it is marked no longer. -/
def State.unmarked (st : State φ) (f : Frame) (call : Call) (v : Option Value)
    (inside : State φ) : State φ :=
  { (settle f call.rule st.pos st.account v inside).2 with memo := st.memo }

theorem State.get?_marked (x : Spot) :
    (st.marked call).memo.get? x =
      if x = (st.pos, call) then some (.active false) else st.memo.get? x :=
  st.memo.get?_set (st.pos, call) _ x

/-- **Strict application.** The body runs plainly; meanwhile the application is marked as running,
and the match ends where an application is come upon that is under way. -/
def strict : Strategy φ := fun frame call body st =>
  match st.memo.get? (st.pos, call) with
  | some (.active _) => .error .exhausted
  | _ => do
    let (value, inside) ← body (st.marked call)
    return (value, st.unmarked frame call value inside)

theorem strict_of_active {met : Bool} (h : st.memo.get? (st.pos, call) = some (.active met)) :
    strict f call body st = .error .exhausted := by
  unfold strict
  rw [h]

theorem strict_of_idle (h : st.memo.Idle (st.pos, call)) :
    strict f call body st =
      body (st.marked call) >>= fun r => .ok (r.1, st.unmarked f call r.1 r.2) := by
  unfold strict
  split
  next met hm => exact absurd hm (h met)
  next => rfl

/-! ### Marks

A match through the table marks what is under way, too. While both matches go side by side, an
application begins, is met or not, and ends in either table. -/

section Marks

variable {s inside : State φ} {t : State ψ} {keep : Bool} {v : Option Value} {x : Spot}

/-- What is under way in one table when an application has begun is so in the other, if that was so
before. -/
theorem State.active_entered {met : Bool} (hpos : s.pos = t.pos)
    (hx : s.memo.get? x = some (.active met) → t.memo.get? x = some (.active met))
    (ha : (s.entered call).memo.get? x = some (.active met)) :
    (t.marked call).memo.get? x = some (.active met) := by
  rw [get?_entered] at ha
  rw [get?_marked, ← hpos]
  split at ha
  next he =>
    cases ha
    rw [if_pos he]
  next he =>
    rw [if_neg he]
    exact hx ha

/-- And likewise when it has ended. -/
theorem State.active_left {met : Bool} (hpos : s.pos = t.pos)
    (hx : inside.memo.get? x = some (.active met) →
      (t.marked call).memo.get? x = some (.active met))
    (ha : (s.left keep f call v inside).memo.get? x = some (.active met)) :
    t.memo.get? x = some (.active met) := by
  by_cases he : x = (s.pos, call)
  · subst he
    rw [get?_left_self] at ha
    split at ha <;> cases ha
  · rw [get?_left he] at ha
    have hmark := hx ha
    rwa [get?_marked, ← hpos, if_neg he] at hmark

omit [Account φ] in
/-- An application that is marked as it was when it began has not been met again. -/
theorem State.not_met (hpos : s.pos = t.pos)
    (hx : ∀ met, inside.memo.get? (s.pos, call) = some (.active met) →
      (t.marked call).memo.get? (s.pos, call) = some (.active met)) :
    inside.memo.isLeftRecursive (s.pos, call) = false := by
  unfold Memo.isLeftRecursive
  split
  next met hm =>
    have hmark := hx met hm
    rw [get?_marked, hpos, if_pos rfl] at hmark
    cases hmark
    rfl
  next => rfl

end Marks

/-! ### Depth and left recursion -/

/-- A computation that was cut off for its depth, or given up for left recursion. -/
def Stopped {α : Type} (m : Except Halt α) : Prop := Limited m ∨ m = .error .exhausted

theorem Stopped.bind {α β : Type} {m : Except Halt α} (h : Stopped m) (k : α → Except Halt β) :
    Stopped (m >>= k) := by
  rcases h with h | rfl
  · exact .inl (h.bind k)
  · exact .inr rfl

/-- Strict application does not tell NaNs apart. -/
theorem strict_alike {R : Rendering φ ψ} {exempt : Halt → Prop} :
    Strategy.Alike R exempt strict strict := by
  intro f call body other hb s t h
  have hpos := h.pos
  rcases s.memo.active_or_idle (s.pos, call) with ⟨met, hmet⟩ | hidle
  · have hmet' : t.memo.get? (t.pos, call) = some (.active met) := by
      rw [← hpos]
      exact h.tables.active_iff.1 hmet
    rw [strict_of_active hmet, strict_of_active hmet']
    exact .inr rfl
  · have hidle' : t.memo.Idle (t.pos, call) := by
      intro met hmet
      rw [← hpos] at hmet
      exact hidle met (h.tables.active_iff.2 hmet)
    have hmarked : (s.marked call).Alike R (t.marked call) := by
      unfold State.marked
      rw [hpos]
      exact ⟨rfl, h.tables.set _ (.active false), R.empty⟩
    rw [strict_of_idle hidle, strict_of_idle hidle']
    refine (hb _ _ hmarked).bind fun a b hab => ⟨_, rfl, hab.value, ?_⟩
    have hsettled := h.settled hab.value hab.state f call.rule
    exact ⟨hsettled.pos, h.tables, hsettled.accounts⟩

variable (registry : Registry) (limit : Nat)

/-- Rules are applied as by a keyed match. -/
theorem strict_keyed {registry : Registry} (hb : registry.Blind) (R : Rendering φ ψ)
    (limit depth : Nat) : Applier.Alike R (fun _ => False) (applyDepth strict registry limit depth)
      (applyKeyed strict registry limit depth) :=
  applyDepth_alike hb strict_alike limit depth

/-- **Depth only cuts off** a strict match, too. -/
theorem strict_mono {n m : Nat} (h : n ≤ m) :
    (Likeness.uncut φ).coupling.InStep (applyKeyed strict registry limit m)
      (applyKeyed strict registry limit n) := by
  refine Likeness.applyKeyed_mono _ registry limit limit (fun _ => rfl) ?_ h
  rintro f call body body' ⟨pos, memo, account⟩ ⟨_, _, _⟩ hb ⟨rfl, rfl, rfl⟩
  rcases memo.active_or_idle (pos, call) with ⟨met, hmet⟩ | hidle
  · rw [strict_of_active hmet, strict_of_active hmet]
    exact .inr rfl
  · rw [strict_of_idle hidle, strict_of_idle hidle]
    refine (hb _ _ ⟨rfl, rfl, rfl⟩).bind ?_
    rintro v ⟨_, _, _⟩ ⟨_, _, _⟩ ⟨rfl, -, rfl⟩
    exact ⟨_, rfl, rfl, rfl, rfl⟩

/-- States of strict matches, the first of which has no more under way than the second. -/
def lighter : Likeness φ ψ where
  accounts _ _ := True
  tables _ m u := ∀ x, u.Idle x → m.Idle x
  exempt h := h.isLimit = true ∨ h = .exhausted
  empty := trivial
  miss := trivial
  append _ _ := trivial
  negation _ := trivial
  fresh _ _ _ := by simp

/-- **The less is under way, the less a strict match gives up.** -/
theorem strict_lighter {n m : Nat} (h : n ≤ m) :
    (lighter (φ := φ) (ψ := ψ)).coupling.InStep (applyKeyed strict registry limit m)
      (applyKeyed strict registry limit n) := by
  refine Likeness.applyKeyed_mono _ registry limit limit (fun _ => Or.inl rfl) ?_ h
  intro f call body body' s t hb hl
  rcases t.memo.active_or_idle (t.pos, call) with ⟨met, hmet⟩ | hidle
  · rw [strict_of_active hmet]
    exact .inl (.inr rfl)
  · have hpos : s.pos = t.pos := hl.pos
    have hmarked : ∀ x, (t.marked call).memo.Idle x → (s.marked call).memo.Idle x := by
      intro x hx met hm
      rw [State.get?_marked] at hm
      split at hm
      next he => exact hx false (by rw [State.get?_marked, if_pos (by rw [he, hpos])])
      next he =>
        refine hl.tables x (fun met' hm' => hx met' ?_) met hm
        rw [State.get?_marked, if_neg (by rwa [← hpos])]
        exact hm'
    rw [strict_of_idle (hpos ▸ hl.tables _ hidle), strict_of_idle hidle]
    refine (hb (s.marked call) (t.marked call) ⟨hpos, hmarked, trivial⟩).bind
      fun v s' t' hst => ⟨_, rfl, ?_, hl.tables, trivial⟩
    simp only [State.unmarked, settle, hst.pos, hpos]

/-- States that need to have nothing in common but the position. -/
def aloof (exempt : Halt → Prop) : Likeness φ ψ where
  accounts _ _ := True
  tables _ _ _ := True
  exempt := exempt
  empty := trivial
  miss := trivial
  append _ _ := trivial
  negation _ := trivial
  fresh := trivial

/-- **A strict match is a plain one**, unless it gives up. -/
theorem direct_follows_strict (n : Nat) :
    (aloof (φ := φ) (ψ := ψ) (· = .exhausted)).coupling.InStep
      (applyKeyed direct registry limit n) (applyKeyed strict registry limit n) := by
  induction n with
  | zero => exact fun _ _ _ _ _ _ _ _ _ => .inr rfl
  | succ n ih =>
    intro f d o r args s t _ hl
    rw [applyKeyed_succ, applyKeyed_succ]
    rcases t.memo.active_or_idle (t.pos, r.call d o args) with ⟨met, hmet⟩ | hidle
    · rw [strict_of_active hmet]
      exact .inl rfl
    · rw [strict_of_idle hidle]
      refine (Coupling.runBody_of_rules registry (fun _ => trivial) ih f d o r _
        { s with account := Account.empty } (t.marked (r.call d o args))
        ⟨hl.pos, trivial, trivial⟩).bind fun v s' t' hst => ⟨_, rfl, ?_, trivial, trivial⟩
      simp only [State.unmarked, settle, hst.pos, hl.pos]

/-- The body of an application, run plainly, comes to what a strict run of it comes to. -/
theorem plainBody_follows_strict (n : Nat) (f : Frame) (spot : Spot) (r : Rule) {t : State φ}
    (ht : t.pos = spot.1) :
    Follows (· = .exhausted) (fun s t => s.pos = t.pos)
      (plainBody (φ := Unit) registry limit n f spot r)
      (runBody (applyKeyed strict registry limit n) registry f spot.2.dispatch spot.2.owner r
        spot.2.args t) :=
  (Coupling.runBody_of_rules registry (fun _ => trivial) (direct_follows_strict registry limit n) f
    _ _ r _ _ t ⟨ht.symm, trivial, trivial⟩).mono fun _ _ hl => hl.pos

/-! ### What is left-recursive, and what is not -/

/-- **A left-recursive rule**: somewhere a strict match of it gives up. -/
def LeftRecursive (d o : Grammar) (r : Rule) : Prop :=
  ∃ limit depth f args pos,
    applyDepth strict registry limit depth f d o r args ⟨pos, .empty, ()⟩ = .error .exhausted

/-- **An application without left recursion**: a strict match of it comes to an end, if it may go
deep enough. -/
def Straight (f : Frame) (x : Spot) : Prop :=
  ∃ r n, x.2.owner.rule? x.2.rule = some r ∧
    ¬ Stopped (applyDepth strict registry limit n f x.2.dispatch x.2.owner r x.2.args
      ⟨x.1, .empty, ()⟩)

/-- **What an application comes to** if it is matched plainly, up to the bits of NaNs: a value and
where it ends, or neither. -/
def Gives (f : Frame) (x : Spot) (v : Option Value) (stop : Nat) : Prop :=
  ∀ r, x.2.owner.rule? x.2.rule = some r →
    ∃ k w t, runBody (applyDepth direct registry limit k) registry f x.2.dispatch x.2.owner r
      x.2.args ⟨x.1, .empty, ()⟩ = .ok (w, t) ∧ Option.Rel Value.Alike v w ∧
        (v.isSome → stop = t.pos)

/-- The same of a keyed match, to the letter. -/
def GivesKeyed (f : Frame) (x : Spot) (v : Option Value) (stop : Nat) : Prop :=
  ∀ r, x.2.owner.rule? x.2.rule = some r →
    ∃ k t, plainBody (φ := Unit) registry limit k f x r = .ok (v, t) ∧ (v.isSome → stop = t.pos)

variable {registry limit}

/-- A computation is stopped if the one is that it does not tell apart from it. -/
theorem Stopped.of_alike {α β : Type} {Q : α → β → Prop} {m : Except Halt α} {n : Except Halt β}
    (h : TracksExcept (fun _ => False) Q m n) : Stopped m ↔ Stopped n := by
  cases m with
  | error e =>
    rw [h.resolve_left id]
    constructor <;> rintro (⟨e', he, hl⟩ | he) <;> cases he
    · exact .inl ⟨_, rfl, hl⟩
    · exact .inr rfl
    · exact .inl ⟨_, rfl, hl⟩
    · exact .inr rfl
  | ok a =>
    obtain ⟨b, rfl, -⟩ := h
    constructor <;> rintro (⟨e', he, -⟩ | he) <;> cases he

/-- What holds of keyed strict matches holds of all: one ends as the other does. -/
theorem strict_keyed_at (hb : registry.Blind) (limit n : Nat) (f : Frame) (d o : Grammar) (r : Rule)
    (args : List Value) (p : Nat) :
    TracksExcept (fun _ => False) (Answer.Alike (.same Unit))
      (applyDepth strict registry limit n f d o r args ⟨p, .empty, ()⟩)
      (applyKeyed strict registry limit n f d o r args ⟨p, .empty, ()⟩) :=
  strict_keyed hb (.same Unit) limit n f d o r args args _ _ rfl ⟨rfl, .empty, rfl⟩

/-- What a keyed match gives up for left recursion is left-recursive. -/
theorem leftRecursive_of_keyed (hb : registry.Blind) {n : Nat} {f : Frame} {d o : Grammar}
    {r : Rule} {args : List Value} {p : Nat}
    (h : applyKeyed strict registry limit n f d o r args ⟨p, .empty, ()⟩ = .error .exhausted) :
    LeftRecursive registry d o r := by
  refine ⟨limit, n, f, args, p, ?_⟩
  have hkeyed := strict_keyed_at hb limit n f d o r args p
  rw [h] at hkeyed
  cases hm : applyDepth strict registry limit n f d o r args ⟨p, .empty, ()⟩ with
  | error e =>
    rw [hm] at hkeyed
    exact (hkeyed.resolve_left id).symm
  | ok a =>
    rw [hm] at hkeyed
    obtain ⟨b, hb, -⟩ := hkeyed
    cases hb

theorem straight_iff_keyed (hb : registry.Blind) {f : Frame} {x : Spot} :
    Straight registry limit f x ↔ ∃ r n, x.2.owner.rule? x.2.rule = some r ∧
      ¬ Stopped (applyKeyed (φ := Unit) strict registry limit n f x.2.dispatch x.2.owner r x.2.args
        ⟨x.1, .empty, ()⟩) := by
  simp only [Straight, Stopped.of_alike (strict_keyed_at hb _ _ _ _ _ _ _ _)]

/-- What plain matches give is what keyed ones give, up to the bits of NaNs. -/
theorem gives_iff_keyed (hb : registry.Blind) {f : Frame} {x : Spot} {v : Option Value}
    {stop : Nat} :
    Gives registry limit f x v stop ↔
      ∃ w, Option.Rel Value.Alike v w ∧ GivesKeyed registry limit f x w stop := by
  have hsame : Value.AlikeAll x.2.args x.2.args := rfl
  have hkeyed (k : Nat) (r : Rule) := runBody_alike hb (direct_keyed hb (.same Unit) limit k) f
    x.2.dispatch x.2.owner r hsame ⟨x.1, .empty, ()⟩ ⟨x.1, .empty, ()⟩ ⟨rfl, .empty, rfl⟩
  constructor
  · intro h
    cases hr : x.2.owner.rule? x.2.rule with
    | none => exact ⟨v, Value.rel_alike_iff.2 rfl, fun r hr' => by cases hr.symm.trans hr'⟩
    | some r =>
      obtain ⟨k, w, t, hrun, hv, hstop⟩ := h r hr
      have h := hkeyed k r
      rw [hrun] at h
      obtain ⟨⟨w', t'⟩, hrun', hw, ht⟩ := h
      refine ⟨w', Value.rel_alike_trans hv hw, fun r' hr' => ?_⟩
      cases hr.symm.trans hr'
      have hsome := Value.isSome_of_alike hw
      have hsome' := Value.isSome_of_alike hv
      exact ⟨k, t', hrun', fun hs => (hstop (by rw [hsome', hsome, hs])).trans ht.pos⟩
  · rintro ⟨w', hv, h⟩ r hr
    obtain ⟨k, t', hrun', hstop⟩ := h r hr
    have h := hkeyed k r
    cases hrun : runBody (applyDepth direct registry limit k) registry f x.2.dispatch x.2.owner r
        x.2.args ⟨x.1, .empty, ()⟩ with
    | error e =>
      rw [hrun] at h
      cases hrun'.symm.trans (h.resolve_left id)
    | ok a =>
      rw [hrun] at h
      obtain ⟨b, hb', hw, ht⟩ := h
      cases hrun'.symm.trans hb'
      refine ⟨k, a.1, a.2, hrun, Value.rel_alike_trans hv (Value.rel_alike_symm hw), fun hs => ?_⟩
      exact (hstop (by rw [← Value.isSome_of_alike hv, hs])).trans ht.pos.symm

end Packrat
