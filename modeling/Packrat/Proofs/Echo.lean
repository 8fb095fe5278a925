import Packrat.Proofs.Application
import Packrat.Proofs.Likeness
import Packrat.Proofs.Merging
import Packrat.Proofs.Tables

/-!
# The same evaluation once more

Where an expression was evaluated, it may be evaluated once more, from the state that was left
behind but at the old position. It comes to the same then, and what it adds to the account is what
it has added before. With results kept, the second evaluation finds all that it applies in the
table. Without, it does everything again, among the same applications that are under way. These may
have been met in the first evaluation, so the tables differ in that. But whether an application was
met matters to nobody before it ends.

All of this is about one and the same way of applying rules, left-recursive or not.

* `Memo.Grown`: what an evaluation leaves of a table, and what it may add.
* `Memo.Running`: a table while an application runs.
* `Memo.Twin`: tables that differ only in what was met of applications under way.
* `ripened_redone`: from such a table, an application does the same again.
* `Echo`: what a second evaluation comes to, given what the first has come to.
* `memoized_echoes`: applications through the table.
* `Expr.eval_echoes`: every expression.
-/

namespace Packrat

variable {φ : Type}

/-! ### What becomes of a table -/

/-- Entries that differ at most in whether an application under way was met. -/
inductive Entry.Kin : Entry φ → Entry φ → Prop
  | active (met met' : Bool) : Kin (.active met) (.active met')
  | done (v : Option Value) (stop : Nat) (a : φ) : Kin (.done v stop a) (.done v stop a)

theorem Entry.Kin.refl (e : Entry φ) : e.Kin e := by
  cases e with
  | active met => exact .active met met
  | done v stop a => exact .done v stop a

theorem Entry.Kin.trans {a b c : Entry φ} (h : a.Kin b) (h' : b.Kin c) : a.Kin c := by
  cases h with
  | active => cases h'; exact .active _ _
  | done => exact h'

namespace Memo

/-- An application is under way. -/
def UnderWay (m : Memo φ) (x : Spot) : Prop := ∃ met, m.get? x = some (.active met)

/-- What is in one table is in the other. -/
def KnownTo (m w : Memo φ) : Prop := ∀ x e, m.get? x = some e → ∃ e', w.get? x = some e' ∧ e.Kin e'

/-- **What an evaluation leaves of a table**: all that was there, and nothing more unless results
are kept. It logs applications only that were not in the table. -/
structure Grown (keep : Bool) (m w : Memo φ) : Prop where
  known : m.KnownTo w
  fresh : keep = false → ∀ x, m.get? x = none → w.get? x = none
  log : ∃ news, w.log.toList = m.log.toList ++ news ∧ ∀ x ∈ news, m.get? x = none

/-- **A table while an application runs** that began from the table `m`. -/
structure Running (keep : Bool) (spot : Spot) (m w : Memo φ) : Prop where
  known : m.KnownTo w
  fresh : keep = false → ∀ x, x ≠ spot → m.get? x = none → w.get? x = none
  own : ∃ e, w.get? spot = some e
  log : ∃ news, w.log.toList = m.log.toList ++ spot :: news ∧ ∀ x ∈ news, x ≠ spot ∧ m.get? x = none

/-- **Tables that differ only in what was met** of some applications under way. -/
structure Twin (D : Spot → Prop) (m w : Memo φ) : Prop where
  active {x : Spot} : D x → m.UnderWay x ∧ w.UnderWay x
  same {x : Spot} : ¬ D x → w.get? x = m.get? x

variable {keep : Bool} {spot : Spot} {m w u : Memo φ} {D : Spot → Prop}

/-- What is in a table is elsewhere than what is not. -/
theorem ne_of_get? {x : Spot} {e : Entry φ} (hn : m.get? spot = none) (hx : m.get? x = some e) :
    x ≠ spot := by
  rintro rfl
  rw [hn] at hx
  cases hx

theorem KnownTo.refl (m : Memo φ) : m.KnownTo m := fun _ e h => ⟨e, h, .refl e⟩

theorem KnownTo.trans (h : m.KnownTo w) (h' : w.KnownTo u) : m.KnownTo u := by
  intro x e hx
  obtain ⟨e', hx', he⟩ := h x e hx
  obtain ⟨e'', hx'', he'⟩ := h' x e' hx'
  exact ⟨e'', hx'', he.trans he'⟩

theorem KnownTo.none (h : m.KnownTo w) {x : Spot} (hx : w.get? x = none) : m.get? x = none := by
  cases hm : m.get? x with
  | none => rfl
  | some e =>
    obtain ⟨e', he, -⟩ := h x e hm
    rw [hx] at he
    cases he

theorem KnownTo.active (h : m.KnownTo w) {x : Spot} (hx : m.UnderWay x) : w.UnderWay x := by
  obtain ⟨met, hx⟩ := hx
  obtain ⟨e, he, hk⟩ := h x _ hx
  cases hk
  exact ⟨_, he⟩

theorem KnownTo.done (h : m.KnownTo w) {x : Spot} {v : Option Value} {stop : Nat} {a : φ}
    (hx : m.get? x = some (.done v stop a)) : w.get? x = some (.done v stop a) := by
  obtain ⟨e, he, hk⟩ := h x _ hx
  cases hk
  exact he

/-- An application under way is met. -/
theorem KnownTo.meet {met : Bool} (hx : m.get? spot = some (.active met)) :
    m.KnownTo (m.set spot (.active true)) := by
  intro x e he
  rw [get?_set]
  split
  next h =>
    subst h
    rw [hx] at he
    cases he
    exact ⟨_, rfl, .active _ _⟩
  next => exact ⟨e, he, .refl e⟩

namespace Grown

theorem refl (keep : Bool) (m : Memo φ) : m.Grown keep m :=
  ⟨.refl m, fun _ _ h => h, [], by simp⟩

theorem trans (h : m.Grown keep w) (h' : w.Grown keep u) : m.Grown keep u where
  known := h.known.trans h'.known
  fresh hk x hx := h'.fresh hk x (h.fresh hk x hx)
  log := by
    obtain ⟨news, hlog, hnew⟩ := h.log
    obtain ⟨news', hlog', hnew'⟩ := h'.log
    refine ⟨news ++ news', by rw [hlog', hlog, List.append_assoc], fun x hx => ?_⟩
    rcases List.mem_append.1 hx with hx | hx
    · exact hnew x hx
    · exact h.known.none (hnew' x hx)

theorem meet {met : Bool} (hx : m.get? spot = some (.active met)) :
    m.Grown keep (m.set spot (.active true)) where
  known := .meet hx
  fresh _ x hn := by
    rw [get?_set, if_neg (ne_of_get? hn hx).symm, hn]
  log := ⟨[], by simp⟩

end Grown

namespace Running

theorem begin (hn : m.get? spot = none) : Running keep spot m (m.begin spot) where
  known x e hx := ⟨e, by rw [get?_begin, if_neg (ne_of_get? hn hx), hx], .refl e⟩
  fresh _ x hne hx := by rw [get?_begin, if_neg hne, hx]
  own := ⟨_, by rw [get?_begin, if_pos rfl]⟩
  log := ⟨[], by simp⟩

/-- The body of the application, or something in it, is evaluated. -/
theorem after (h : Running keep spot m w) (h' : w.Grown keep u) : Running keep spot m u where
  known := h.known.trans h'.known
  fresh hk x hne hx := h'.fresh hk x (h.fresh hk x hne hx)
  own := by
    obtain ⟨e, he⟩ := h.own
    obtain ⟨e', he', -⟩ := h'.known _ e he
    exact ⟨e', he'⟩
  log := by
    obtain ⟨e, he⟩ := h.own
    obtain ⟨news, hlog, hnew⟩ := h.log
    obtain ⟨news', hlog', hnew'⟩ := h'.log
    refine ⟨news ++ news', by rw [hlog', hlog, List.append_assoc, List.cons_append], fun x hx => ?_⟩
    rcases List.mem_append.1 hx with hx | hx
    · exact hnew x hx
    · exact ⟨(ne_of_get? (hnew' x hx) he).symm, h.known.none (hnew' x hx)⟩

/-- The application gets a seed. -/
theorem set (h : Running keep spot m w) (hn : m.get? spot = none) (e : Entry φ) :
    Running keep spot m (w.set spot e) where
  known x e' hx := by
    rw [get?_set, if_neg (ne_of_get? hn hx)]
    exact h.known x e' hx
  fresh hk x hne hx := by rw [get?_set, if_neg hne, h.fresh hk x hne hx]
  own := ⟨e, by rw [get?_set, if_pos rfl]⟩
  log := h.log

theorem drop_log (h : Running keep spot m w) :
    ∀ x ∈ w.log.toList.drop (m.mark + 1), x ≠ spot ∧ m.get? x = none := by
  obtain ⟨news, hlog, hnew⟩ := h.log
  have hdrop : w.log.toList.drop (m.mark + 1) = news := by
    rw [hlog, show m.mark = m.log.toList.length from rfl, List.drop_append]
    simp
  rw [hdrop]
  exact hnew

/-- What began after the application is forgotten. -/
theorem forgetAfter (h : Running keep spot m w) : Running keep spot m (w.forgetAfter m.mark) where
  known x e hx := by
    rw [get?_forgetAfter, if_neg fun hmem => ne_of_get? (h.drop_log x hmem).2 hx rfl]
    exact h.known x e hx
  fresh hk x hne hx := by
    rw [get?_forgetAfter]
    split
    · rfl
    · exact h.fresh hk x hne hx
  own := by
    obtain ⟨e, he⟩ := h.own
    refine ⟨e, ?_⟩
    rw [get?_forgetAfter, if_neg, he]
    exact fun hmem => (h.drop_log spot hmem).1 rfl
  log := by
    obtain ⟨news, hlog, -⟩ := h.log
    refine ⟨[], ?_, by simp⟩
    rw [toList_forgetAfter, hlog, show m.mark = m.log.toList.length from rfl, List.take_append]
    simp [List.take_of_length_le]

/-- **Where no results are kept, there is nothing to forget.** -/
theorem get?_forgetAfter (h : Running false spot m w) (x : Spot) :
    (w.forgetAfter m.mark).get? x = w.get? x := by
  rw [Memo.get?_forgetAfter]
  split
  next hmem =>
    obtain ⟨hne, hn⟩ := h.drop_log x hmem
    rw [h.fresh rfl x hne hn]
  next => rfl

/-- The application ends, and its result is kept or forgotten. -/
theorem ended (h : Running keep spot m w) (hn : m.get? spot = none) (e : Entry φ) :
    m.Grown keep (if keep then w.set spot e else w.erase spot) where
  known x e' hx := by
    have hne : x ≠ spot := ne_of_get? hn hx
    cases keep with
    | true =>
      rw [if_pos rfl, get?_set, if_neg hne]
      exact h.known x e' hx
    | false =>
      rw [if_neg Bool.false_ne_true, get?_erase, if_neg hne]
      exact h.known x e' hx
  fresh hk x hx := by
    subst hk
    rw [if_neg Bool.false_ne_true, get?_erase]
    split
    · rfl
    next hne => exact h.fresh rfl x hne hx
  log := by
    obtain ⟨news, hlog, hnew⟩ := h.log
    refine ⟨spot :: news, ?_, fun x hx => ?_⟩
    · cases keep <;> exact hlog
    · rcases List.mem_cons.1 hx with rfl | hx
      · exact hn
      · exact (hnew x hx).2

end Running

namespace Twin

theorem trans (h : m.Twin D w) (h' : w.Twin D u) : m.Twin D u where
  active hx := ⟨(h.active hx).1, (h'.active hx).2⟩
  same hx := (h'.same hx).trans (h.same hx)

theorem not_of_none (h : m.Twin D w) {x : Spot} (hx : m.get? x = none) : ¬ D x := by
  intro hD
  obtain ⟨⟨met, hm⟩, -⟩ := h.active hD
  rw [hx] at hm
  cases hm

theorem not_of_done (h : m.Twin D w) {x : Spot} {v : Option Value} {stop : Nat} {a : φ}
    (hx : m.get? x = some (.done v stop a)) : ¬ D x := by
  intro hD
  obtain ⟨⟨met, hm⟩, -⟩ := h.active hD
  rw [hx] at hm
  cases hm

theorem set (h : m.Twin D w) (e : Entry φ) (he : D spot → ∃ met, e = .active met) :
    (m.set spot e).Twin D (w.set spot e) where
  active {x} hx := by
    unfold UnderWay
    rw [get?_set, get?_set]
    split
    next hs =>
      obtain ⟨met, rfl⟩ := he (hs ▸ hx)
      exact ⟨⟨met, rfl⟩, met, rfl⟩
    next => exact h.active hx
  same {x} hx := by
    rw [get?_set, get?_set]
    split
    · rfl
    · exact h.same hx

theorem begin (h : m.Twin D w) (hs : ¬ D spot) : (m.begin spot).Twin D (w.begin spot) where
  active {x} hx := by
    have hne : x ≠ spot := fun he => hs (he ▸ hx)
    unfold UnderWay
    rw [get?_begin, get?_begin, if_neg hne, if_neg hne]
    exact h.active hx
  same {x} hx := by
    rw [get?_begin, get?_begin]
    split
    · rfl
    · exact h.same hx

theorem erase (h : m.Twin D w) (hs : ¬ D spot) : (m.erase spot).Twin D (w.erase spot) where
  active {x} hx := by
    have hne : x ≠ spot := fun he => hs (he ▸ hx)
    unfold UnderWay
    rw [get?_erase, get?_erase, if_neg hne, if_neg hne]
    exact h.active hx
  same {x} hx := by
    rw [get?_erase, get?_erase]
    split
    · rfl
    · exact h.same hx

/-- Forgetting does nothing to twins in which nothing is kept. -/
theorem forgetAfter {m₀ w₀ : Memo φ} (h : m.Twin D w) (hm : Running false spot m₀ m)
    (hw : Running false spot w₀ w) : (m.forgetAfter m₀.mark).Twin D (w.forgetAfter w₀.mark) where
  active {x} hx := by
    unfold UnderWay
    rw [hm.get?_forgetAfter, hw.get?_forgetAfter]
    exact h.active hx
  same {x} hx := by
    rw [hm.get?_forgetAfter, hw.get?_forgetAfter]
    exact h.same hx

/-- What is under way stays under way while nothing is kept. -/
theorem of_grown (h : m.Grown false w) : m.Twin m.UnderWay w where
  active hx := ⟨hx, h.known.active hx⟩
  same {x} hx := by
    cases hm : m.get? x with
    | none => exact h.fresh rfl x hm
    | some e =>
      cases e with
      | active met => exact absurd ⟨met, hm⟩ hx
      | done v stop a => exact h.known.done hm

end Twin

end Memo

variable {keep : Bool} {D : Spot → Prop} {f : Frame} {call : Call} {spot : Spot} {m w : Memo φ}
  {s t s' : State φ} {v : Option Value} {body : Attempt φ} [Account φ]

/-! ### Tables while an application ripens -/

section Ripening

variable (hb : ∀ (s s' : State φ) v, body s = .ok (v, s') → s.memo.Grown keep s'.memo)

include hb

/-- A seed grows within the running application. -/
theorem Memo.Running.grow (hn : m.get? spot = none) (fuel : Nat) (seed : Value) (stop : Nat)
    (s : State φ) (h : Running keep spot m s.memo) {value : Value}
    (hg : Packrat.grow body spot m.mark fuel seed stop s = .ok (value, s')) :
    Running keep spot m s'.memo := by
  induction fuel generalizing seed stop s with
  | zero => cases hg
  | succ fuel ih =>
    rw [grow_succ] at hg
    obtain ⟨⟨v, u⟩, hu, hg⟩ := bind_eq_ok hg
    have hseeded : Running keep spot m (s.seeded spot m.mark seed stop).memo :=
      (h.set hn _).forgetAfter
    have hround := hseeded.after (hb _ _ _ hu)
    cases v with
    | none =>
      cases hg
      exact hround.forgetAfter
    | some v =>
      dsimp only at hg
      split at hg
      · exact ih _ _ u hround hg
      · cases hg
        exact hround.forgetAfter

/-- The body of an application, and the growth of its value. -/
theorem Memo.Running.ripened (hn : m.get? spot = none) (h : Running keep spot m s.memo)
    (hr : Packrat.ripened body f spot m.mark s = .ok (v, s')) : Running keep spot m s'.memo := by
  unfold Packrat.ripened at hr
  obtain ⟨⟨v', u⟩, hu, hr⟩ := bind_eq_ok hr
  have hbody := h.after (hb _ _ _ hu)
  cases v' with
  | none =>
    cases hr
    exact hbody
  | some seed =>
    dsimp only at hr
    split at hr
    · obtain ⟨⟨value, r⟩, hg, hr⟩ := bind_eq_ok hr
      cases hr
      exact Running.grow hb hn _ _ _ u hbody hg
    · cases hr
      exact hbody

end Ripening

/-- **States that differ only in what was met** of some applications under way. -/
structure State.Twins (D : Spot → Prop) (s t : State φ) : Prop where
  pos : s.pos = t.pos
  tables : s.memo.Twin D t.memo
  account : s.account = t.account

/-- A computation that comes to what another comes to, in a twin state. -/
def Redone {α : Type} (D : Spot → Prop) (m n : Except Halt (α × State φ)) : Prop :=
  ∀ a s', m = .ok (a, s') → ∃ t', n = .ok (a, t') ∧ s'.Twins D t'

section Redoing

variable (hb : ∀ (s s' : State φ) v, body s = .ok (v, s') → s.memo.Grown false s'.memo)
  (hr : ∀ s t : State φ, s.Twins D t → Redone D (body s) (body t))

include hb hr

/-- A seed grows again as it has grown. -/
theorem grow_redone {w : Memo φ} (hm : m.get? spot = none) (hw : w.get? spot = none)
    (hD : ¬ D spot) (fuel : Nat) (seed : Value) (stop : Nat) (s t : State φ) (h : s.Twins D t)
    (hs : Memo.Running false spot m s.memo) (ht : Memo.Running false spot w t.memo) :
    Redone D (grow body spot m.mark fuel seed stop s) (grow body spot w.mark fuel seed stop t) := by
  induction fuel generalizing seed stop s t with
  | zero => exact nofun
  | succ fuel ih =>
    intro value s' hg
    rw [grow_succ] at hg
    obtain ⟨⟨v, u⟩, hu, hg⟩ := bind_eq_ok hg
    have hs' : Memo.Running false spot m (s.seeded spot m.mark seed stop).memo :=
      (hs.set hm _).forgetAfter
    have ht' : Memo.Running false spot w (t.seeded spot w.mark seed stop).memo :=
      (ht.set hw _).forgetAfter
    have hseeded : (s.seeded spot m.mark seed stop).Twins D (t.seeded spot w.mark seed stop) :=
      ⟨rfl, (h.tables.set _ fun hx => absurd hx hD).forgetAfter (hs.set hm _) (ht.set hw _),
        h.account⟩
    obtain ⟨u', hu', htwins⟩ := hr _ _ hseeded v u hu
    have hsu := hs'.after (hb _ _ _ hu)
    have htu := ht'.after (hb _ _ _ hu')
    have hgrown : (u.grown stop m.mark).Twins D (u'.grown stop w.mark) :=
      ⟨rfl, htwins.tables.forgetAfter hsu htu, htwins.account⟩
    rw [grow_succ, hu']
    cases v with
    | none =>
      cases hg
      exact ⟨_, rfl, hgrown⟩
    | some v =>
      dsimp only at hg
      simp only [bind, Except.bind, ← htwins.pos]
      split at hg
      next hlt =>
        rw [if_pos hlt]
        exact ih _ _ u u' htwins hsu htu value s' hg
      next hge =>
        rw [if_neg hge]
        cases hg
        exact ⟨_, rfl, hgrown⟩

/-- An application ripens again as it has ripened. -/
theorem ripened_redone {w : Memo φ} (hm : m.get? spot = none) (hw : w.get? spot = none)
    (hD : ¬ D spot) (h : s.Twins D t) (hs : Memo.Running false spot m s.memo)
    (ht : Memo.Running false spot w t.memo) :
    Redone D (ripened body f spot m.mark s) (ripened body f spot w.mark t) := by
  intro v s' hrip
  unfold ripened at hrip ⊢
  obtain ⟨⟨v', u⟩, hu, hrip⟩ := bind_eq_ok hrip
  obtain ⟨u', hu', htwins⟩ := hr _ _ h v' u hu
  have hmet : u.memo.isLeftRecursive spot = u'.memo.isLeftRecursive spot := by
    unfold Memo.isLeftRecursive
    rw [htwins.tables.same hD]
  rw [hu']
  cases v' with
  | none =>
    cases hrip
    exact ⟨_, rfl, htwins⟩
  | some seed =>
    dsimp only at hrip
    simp only [bind, Except.bind, ← hmet, ← htwins.pos]
    split at hrip
    next hl =>
      obtain ⟨⟨value, r⟩, hg, hrip⟩ := bind_eq_ok hrip
      cases hrip
      obtain ⟨r', hg', hrr⟩ := grow_redone hb hr hm hw hD _ seed u.pos u u' htwins
        (hs.after (hb _ _ _ hu)) (ht.after (hb _ _ _ hu')) value r hg
      rw [if_pos hl, hg']
      exact ⟨r', rfl, hrr⟩
    next hl =>
      cases hrip
      rw [if_neg hl]
      exact ⟨_, rfl, htwins⟩

end Redoing

/-! ### Echoes -/

/-- A computation that started in `t` comes to `a` at the position of `s'` with the table `w`, and
adds to its account what was added from `s` to `s'`. -/
def Adds {α : Type} (s t s' : State φ) (a : α) (w : Memo φ) (n : Except Halt (α × State φ)) : Prop :=
  ∃ x, s'.account = Account.append s.account x ∧
    n = .ok (a, { pos := s'.pos, memo := w, account := Account.append t.account x })

/-- **What a second evaluation `n` from `t` comes to**, given that the first came from `s` to `a` and
`s'`. From the same table it comes to the same; it finds in its table what the first has put into
its own; and where nothing is kept, it goes through the same among the same applications. -/
structure Echo {α : Type} (keep : Bool) (D : Spot → Prop) (s t s' : State φ) (a : α)
    (n : Except Halt (α × State φ)) : Prop where
  grown : s.memo.Grown keep s'.memo
  same : s.memo = t.memo → Adds s t s' a s'.memo n
  recalled : keep = true → s'.memo.KnownTo t.memo →
    ∃ w, (t.memo.KnownTo w ∧ w.KnownTo t.memo) ∧ Adds s t s' a w n
  redone : keep = false → s.memo.Twin D t.memo → ∃ w, s'.memo.Twin D w ∧ Adds s t s' a w n

/-- **What is added in two steps is added**: the computation is in a state from which it goes on. -/
theorem Adds.then {α β : Type} (J : Account.Joins φ) {s t s' : State φ} {a : α} {w : Memo φ}
    {n : Except Halt (α × State φ)} (h : Adds s t s' a w n) :
    ∃ t', t'.pos = s'.pos ∧ t'.memo = w ∧
      ∀ {s'' : State φ} {b : β} {w' : Memo φ} {k : α × State φ → Except Halt (β × State φ)},
        Adds s' t' s'' b w' (k (a, t')) → Adds s t s'' b w' (n >>= k) := by
  obtain ⟨x, hx, rfl⟩ := h
  refine ⟨⟨s'.pos, w, Account.append t.account x⟩, rfl, rfl, fun {s'' b w' k} h' => ?_⟩
  obtain ⟨y, hy, hk⟩ := h'
  refine ⟨Account.append x y, by rw [hy, hx, J.assoc], ?_⟩
  rw [← J.assoc]
  exact hk

/-- What a negated lookahead adds is what it makes of what was missed inside it. -/
theorem Adds.negated {α : Type} {s t s' : State φ} {a : α} {w : Memo φ}
    {n : Except Halt (α × State φ)}
    (h : Adds { s with account := Account.empty } { t with account := Account.empty } s' a w n) :
    Adds s t { s' with account := Account.append s.account (Account.ofNegation s'.account) } a w
      (n >>= fun r => .ok (r.1, { r.2 with
        account := Account.append t.account (Account.ofNegation r.2.account) })) := by
  obtain ⟨x, hx, rfl⟩ := h
  exact ⟨_, rfl, by rw [hx]; rfl⟩

/-- A step that leaves the tables alone and adds something to the accounts. -/
theorem Echo.still {α : Type} {a : α} {p : Nat} {x : φ} :
    Echo keep D s t { s with pos := p, account := Account.append s.account x } a
      (.ok (a, { t with pos := p, account := Account.append t.account x })) where
  grown := .refl keep s.memo
  same h := ⟨x, rfl, by rw [h]⟩
  recalled _ _ := ⟨t.memo, ⟨.refl _, .refl _⟩, x, rfl, rfl⟩
  redone _ h := ⟨t.memo, h, x, rfl, rfl⟩

/-- **An evaluation and a second one after it.** -/
def echo (J : Account.Joins φ) (keep : Bool) (D : Spot → Prop) : Coupling φ φ where
  rel _ s t m n := s.pos = t.pos → ∀ a s', m = .ok (a, s') → Echo keep D s t s' a n
  halts _ := True
  at_pos h hpos := h hpos hpos
  halt _ _ _ _ h := by cases h
  move {_ _ s t _ p} _ a s' h := by
    cases h
    have hs : s.moveTo p = { s with pos := p, account := Account.append s.account Account.empty } := by
      rw [J.nothing]
      rfl
    have ht : t.moveTo p = { t with pos := p, account := Account.append t.account Account.empty } := by
      rw [J.nothing]
      rfl
    rw [hs, ht]
    exact .still
  expect {_ f s t _ p label} hpos a s' h := by
    cases h
    show Echo keep D s t { s with pos := s.pos, account := _ } _
      (.ok (_, { t with pos := t.pos, account := _ }))
    rw [← hpos]
    exact .still
  bind h hjk hpos b u hm := by
    obtain ⟨⟨a, s'⟩, hma, hj⟩ := bind_eq_ok hm
    have E := h hpos a s' hma
    have E' (t' : State φ) (hp : t'.pos = s'.pos) := hjk a s' t' hp.symm b u hj
    have hgrown := (E' s' rfl).grown
    refine ⟨E.grown.trans hgrown, fun heq => ?_, fun hk hknown => ?_, fun hk htwin => ?_⟩
    · obtain ⟨t', hp, hmemo, hthen⟩ := (E.same heq).then J
      exact hthen ((E' t' hp).same hmemo.symm)
    · obtain ⟨w, ⟨hw, hw'⟩, hadds⟩ := E.recalled hk (hgrown.known.trans hknown)
      obtain ⟨t', hp, hmemo, hthen⟩ := hadds.then J
      obtain ⟨u', ⟨hu, hu'⟩, hadds'⟩ := (E' t' hp).recalled hk (hknown.trans (hmemo ▸ hw))
      rw [hmemo] at hu hu'
      exact ⟨u', ⟨hw.trans hu, hu'.trans hw'⟩, hthen hadds'⟩
    · obtain ⟨w, hw, hadds⟩ := E.redone hk htwin
      obtain ⟨t', hp, hmemo, hthen⟩ := hadds.then J
      obtain ⟨u', hu, hadds'⟩ := (E' t' hp).redone hk (hmemo ▸ hw)
      exact ⟨u', hu, hthen hadds'⟩
  negated h hpos b u hm := by
    obtain ⟨⟨a, s'⟩, hma, hj⟩ := bind_eq_ok hm
    cases hj
    have E := h hpos a s' hma
    refine ⟨E.grown, fun heq => (E.same heq).negated, fun hk hknown => ?_, fun hk htwin => ?_⟩
    · obtain ⟨w, hw, h⟩ := E.recalled hk hknown
      exact ⟨w, hw, h.negated⟩
    · obtain ⟨w, hw, h⟩ := E.redone hk htwin
      exact ⟨w, hw, h.negated⟩
  nested {_ _ _ s t m n _} _ h hpos b u hm := by
    obtain ⟨⟨a, s'⟩, hma, hj⟩ := bind_eq_ok hm
    cases hj
    obtain ⟨x, hx, hn⟩ := (h rfl a s' hma).same rfl
    have hx' : s'.account = Account.append s.account x := hx
    rw [hn, hx']
    show Echo keep D s t { s with pos := s.pos, account := _ } a
      (.ok (a, { t with pos := t.pos, account := Account.append t.account x }))
    rw [← hpos]
    exact .still

/-! ### Applications -/

section Applications

variable {J : Account.Joins φ}

/-- An application that was met does nothing but note it, and so once more. -/
theorem echo_of_active (J : Account.Joins φ) {met : Bool} (hpos : s.pos = t.pos)
    (hs : s.memo.get? (s.pos, call) = some (.active met)) :
    Echo keep D s t { s with memo := s.memo.set (s.pos, call) (.active true) } none
      (memoized keep f call body t) := by
  have hadds {met' : Bool} (ht : t.memo.get? (t.pos, call) = some (.active met')) :
      Adds s t { s with memo := s.memo.set (s.pos, call) (.active true) } none
        (t.memo.set (t.pos, call) (.active true)) (memoized keep f call body t) := by
    refine ⟨Account.empty, (J.nothing _).symm, ?_⟩
    rw [memoized_of_active ht, J.nothing, ← hpos]
  refine ⟨.meet hs, fun heq => ?_, fun _ hknown => ?_, fun _ htwin => ?_⟩
  · have ht : t.memo.get? (t.pos, call) = some (.active met) := by rw [← heq, ← hpos, hs]
    have h := hadds ht
    rwa [← heq, ← hpos] at h
  · have hset : (s.memo.set (s.pos, call) (.active true)).get? (s.pos, call) =
        some (.active true) := by rw [Memo.get?_set, if_pos rfl]
    obtain ⟨met', ht⟩ := hknown.active ⟨true, hset⟩
    rw [hpos] at ht
    refine ⟨_, ⟨.meet ht, fun x e hx => ?_⟩, hadds ht⟩
    rw [Memo.get?_set] at hx
    split at hx
    next he =>
      cases hx
      exact ⟨_, he ▸ ht, .active _ _⟩
    next => exact ⟨e, hx, .refl e⟩
  · obtain ⟨met', ht⟩ : t.memo.UnderWay (t.pos, call) := by
      rw [← hpos]
      by_cases hD : D (s.pos, call)
      · exact (htwin.active hD).2
      · exact ⟨met, by rw [htwin.same hD, hs]⟩
    refine ⟨_, ?_, hadds ht⟩
    rw [← hpos]
    exact htwin.set _ fun _ => ⟨true, rfl⟩

/-- A result that is in the table is in it once more. -/
theorem echo_of_done {value : Option Value} {stop : Nat} {a : φ} (hpos : s.pos = t.pos)
    (hs : s.memo.get? (s.pos, call) = some (.done value stop a)) :
    Echo keep D s t ((s.missed a).moveTo (if value.isSome then stop else s.pos)) value
      (memoized keep f call body t) := by
  have hecho (ht : t.memo.get? (t.pos, call) = some (.done value stop a)) :
      Echo keep D s t ((s.missed a).moveTo (if value.isSome then stop else s.pos)) value
        (memoized keep f call body t) := by
    rw [memoized_of_done ht, ← hpos]
    exact .still
  refine ⟨.refl keep s.memo, fun heq => ?_, fun hk hknown => ?_, fun hk htwin => ?_⟩
  · exact (hecho (by rw [← heq, ← hpos, hs])).same heq
  · exact (hecho (hpos ▸ hknown.done hs)).recalled hk hknown
  · have ht : t.memo.get? (s.pos, call) = some (.done value stop a) := by
      rw [htwin.same (htwin.not_of_done hs), hs]
    exact (hecho (hpos ▸ ht)).redone hk htwin

/-- A result that was kept is found. -/
theorem adds_of_kept {value : Option Value} {r : State φ} (hpos : s.pos = t.pos)
    (hknown : (s.left true f call value r).memo.KnownTo t.memo) :
    Adds s t (s.left true f call value r) value t.memo (memoized true f call body t) := by
  have hdone : (s.left true f call value r).memo.get? (s.pos, call) =
      some (.done value r.pos (Account.ofRule f call.rule s.pos value.isNone r.account)) := by
    unfold State.left
    rw [if_pos rfl, Memo.get?_set, if_pos rfl]
  have ht := hknown.done hdone
  rw [hpos] at ht
  refine ⟨_, rfl, ?_⟩
  rw [memoized_of_done ht, ← hpos]
  rfl

/-- Where a result was forgotten, the body runs again among the same applications. -/
theorem adds_of_forgotten {value : Option Value} {r : State φ}
    (hb : ∀ s t : State φ, (echo J false D).rel f s t (body s) (body t)) (hpos : s.pos = t.pos)
    (hs : s.memo.get? (s.pos, call) = none)
    (hr : ripened body f (s.pos, call) s.memo.mark (s.entered call) = .ok (value, r))
    (htwin : s.memo.Twin D t.memo) :
    ∃ w, (s.left false f call value r).memo.Twin D w ∧
      Adds s t (s.left false f call value r) value w (memoized false f call body t) := by
  have hgrown (s s' : State φ) (v : Option Value) (h : body s = .ok (v, s')) :
      s.memo.Grown false s'.memo := (hb s s rfl v s' h).grown
  have hredone (s t : State φ) (h : s.Twins D t) : Redone D (body s) (body t) := by
    intro a s' hm
    obtain ⟨w, hw, x, hx, hn⟩ := (hb s t h.pos a s' hm).redone rfl h.tables
    exact ⟨_, hn, rfl, hw, by rw [hx, h.account]⟩
  have hD := htwin.not_of_none hs
  have ht : t.memo.get? (s.pos, call) = none := by rw [htwin.same hD, hs]
  have hbegun : (t.entered call).memo = t.memo.begin (s.pos, call) := by rw [hpos]; rfl
  have hentered : (s.entered call).Twins D (t.entered call) :=
    ⟨hpos, by rw [hbegun]; exact htwin.begin hD, rfl⟩
  obtain ⟨r', hr', htwins⟩ := ripened_redone hgrown hredone hs ht hD hentered (.begin hs)
    (by rw [hbegun]; exact .begin ht) value r hr
  have hpos' : r.pos = r'.pos := htwins.pos
  refine ⟨r'.memo.erase (s.pos, call), htwins.tables.erase hD, _, rfl, ?_⟩
  rw [memoized_of_none (hpos ▸ ht), ← hpos, hr', htwins.account]
  simp only [bind, Except.bind, State.left, ← hpos, ← hpos']
  rfl

/-- **Applications through the table echo**, if their bodies do. -/
theorem memoized_echoes
    (hb : ∀ s t : State φ, (echo J keep D).rel f s t (body s) (body t)) (s t : State φ) :
    (echo J keep D).rel f s t (memoized keep f call body s) (memoized keep f call body t) := by
  intro hpos v s' hm
  cases hs : s.memo.get? (s.pos, call) with
  | some entry =>
    cases entry with
    | active met =>
      rw [memoized_of_active hs] at hm
      cases hm
      exact echo_of_active J hpos hs
    | done value stop a =>
      rw [memoized_of_done hs] at hm
      cases hm
      exact echo_of_done hpos hs
  | none =>
    rw [memoized_of_none hs] at hm
    obtain ⟨⟨value, r⟩, hr, hl⟩ := bind_eq_ok hm
    obtain ⟨rfl, rfl⟩ : value = v ∧ s.left keep f call value r = s' := by
      simpa using hl
    have hrun : Memo.Running keep (s.pos, call) s.memo r.memo :=
      Memo.Running.ripened (fun s s' v h => (hb s s rfl v s' h).grown) hs (.begin hs) hr
    refine ⟨hrun.ended hs _, fun heq => ?_, fun hk hknown => ?_, fun hk htwin => ?_⟩
    · -- the same table: the body runs from the very same state
      have hentered : t.entered call = s.entered call := by
        unfold State.entered
        rw [← hpos, ← heq]
      refine ⟨_, rfl, ?_⟩
      rw [memoized_of_none (by rw [← heq, ← hpos, hs]), ← heq, ← hpos, hentered, hr]
      simp only [State.left, ← hpos]
      rfl
    · subst hk
      exact ⟨t.memo, ⟨.refl _, .refl _⟩, adds_of_kept hpos hknown⟩
    · subst hk
      exact adds_of_forgotten hb hpos hs hr htwin

end Applications

/-- **At any depth, the application of a rule echoes.** -/
theorem applyDepth_echoes (J : Account.Joins φ) (keep : Bool) (D : Spot → Prop)
    (registry : Registry) (limit depth : Nat) :
    (echo J keep D).InStep (applyDepth (memoized keep) registry limit depth)
      (applyDepth (memoized keep) registry limit depth) := by
  induction depth with
  | zero => exact fun _ _ _ _ _ _ _ _ _ _ _ h => nomatch h
  | succ depth ih =>
    intro f d o r args s t _
    refine memoized_echoes (fun s t => ?_) s t
    exact Coupling.runBody_of_rules registry (fun _ => trivial) ih f d o r args s t

/-- **Every expression echoes.** -/
theorem Expr.eval_echoes (J : Account.Joins φ) (keep : Bool) (D : Spot → Prop)
    (registry : Registry) (limit depth : Nat) (e : Expr) (ctx : Context) (scope : Scope)
    (s t : State φ) :
    (echo J keep D).replies ctx.frame s t
      (e.eval (applyDepth (memoized keep) registry limit depth) registry ctx scope s)
      (e.eval (applyDepth (memoized keep) registry limit depth) registry ctx scope t) :=
  (Coupling.grounded registry (fun _ => trivial)
    (applyDepth_echoes J keep D registry limit depth)).eval e ctx
    (Coupling.permitted_grounded (fun _ => trivial) ctx.dispatch ctx.owner e.subexprs)

end Packrat
