import Packrat.Proofs.Straight

/-!
# How deep a match without a table would go

A match that finds results in its table may keep within a depth at which the same match without a
table is cut off. So to say that the table makes no difference one has to say how deep the other
match must be allowed to go. A match can be made to tell: its account is a height, to which each
application adds one, and a result that is found in the table brings the height along at which it
was put there.

All of this is about applications without left recursion, which may stand in the midst of a match
that has it. What such applications do to the table is therefore kept apart from what others do.

* `Height`: the account.
* `Steady`: applications without left recursion, closed under what they apply in turn.
* `Gauged`: what the table holds of them, with the heights.
* `Spared`: what they do to the table.
* `measured`: a match through the table beside a strict one that is allowed the height it tells.
* `Steady.evalSequence`: what is evaluated through the table comes to what it comes to plainly.
* `Steady.gauging`: whatever else is applied leaves the table as fit for that as it was.
* `Settled.retold`: a match that tells something else could as well have told heights.
-/

namespace Packrat

/-- How many applications are nested in one another. -/
abbrev Height := Nat

/-- The height that a match without a table would need. -/
instance : Account Height where
  empty := 0
  miss _ _ _ := 0
  append a b := max a b
  ofRule _ _ _ _ a := a + 1
  ofNegation a := a

section Climbing

variable {body : Attempt Height} {f : Frame} {spot : Spot} {mark : Nat} {st st' : State Height}
  (hb : ∀ s v s', body s = .ok (v, s') → s.account ≤ s'.account)

include hb

theorem grow_climbs {fuel : Nat} {seed v : Value} {stop : Nat}
    (hg : grow body spot mark fuel seed stop st = .ok (v, st')) : st.account ≤ st'.account := by
  induction fuel generalizing seed stop st with
  | zero => cases hg
  | succ fuel ih =>
    rw [grow_succ] at hg
    obtain ⟨⟨w, inside⟩, hw, hg⟩ := bind_eq_ok hg
    have hle : st.account ≤ inside.account := hb (st.seeded spot mark seed stop) _ _ hw
    cases w with
    | none =>
      cases hg
      exact hle
    | some w =>
      dsimp only at hg
      split at hg
      · exact Nat.le_trans hle (ih hg)
      · cases hg
        exact hle

/-- What comes out of an application is at least as high as its body was in the first place. -/
theorem ripened_climbs {v w : Option Value} {inside : State Height}
    (hw : body st = .ok (w, inside)) (hr : ripened body f spot mark st = .ok (v, st')) :
    inside.account ≤ st'.account := by
  rw [ripened, hw] at hr
  cases w with
  | none =>
    cases hr
    exact Nat.le_refl _
  | some seed =>
    simp only [bind, Except.bind] at hr
    split at hr
    · obtain ⟨⟨w, grown⟩, hg, hr⟩ := bind_eq_ok hr
      cases hr
      exact grow_climbs hb hg
    · cases hr
      exact Nat.le_refl _

end Climbing

/-! ### Applications without left recursion -/

/-- **Applications without left recursion**: none of them looks up names when it runs, no rule among
them is left-recursive, and what they apply in turn is among them. The functions that actions call
cannot tell NaNs apart. -/
structure Steady (registry : Registry) (S : Grammar → Target → Prop) : Prop where
  blind : registry.Blind
  grounded {d : Grammar} {t : Target} : S d t → t.Grounded
  static {d : Grammar} : ¬ S d (.builtin .apply)
  straight {d o : Grammar} {r : Rule} : S d (.rule o r) → ¬ LeftRecursive registry d o r
  spaces {d o : Grammar} {r : Rule} : S d (.builtin .token) → d.resolve? "spaces" = some (o, r) →
    S d (.rule o r)
  body {d o g : Grammar} {r : Rule} {t : Target} {e : Expr} {as : List Action} :
    S d (.rule o r) → e ∈ r.body.subexprs → e.application? d o = some (as, .ok (g, t)) → S g t

variable {registry : Registry} {limit : Nat} {S : Grammar → Target → Prop} {f : Frame}

/-- The applications in some expressions are among the given ones. -/
def Expr.Applies (S : Grammar → Target → Prop) (d o : Grammar) (es : List Expr) : Prop :=
  ∀ e ∈ es, ∀ as g t, e.application? d o = some (as, .ok (g, t)) → S g t

/-- An application at a position is among the given ones. -/
def Spot.In (S : Grammar → Target → Prop) (x : Spot) : Prop :=
  ∃ r, x.2.owner.rule? x.2.rule = some r ∧ S x.2.dispatch (.rule x.2.owner r)

variable (registry limit S) in
/-- **What a table holds of them**: what a plain run gives at the height that goes with it. What is
under way is so in the other table, too. -/
structure Gauged (f : Frame) (m : Memo Height) (u : Memo Unit) : Prop where
  done {x : Spot} {v : Option Value} {stop : Nat} {h : Height} {r : Rule} :
    m.get? x = some (.done v stop h) → x.2.owner.rule? x.2.rule = some r →
      S x.2.dispatch (.rule x.2.owner r) →
      ∃ k ≤ h, ∃ t, plainBody (φ := Unit) registry limit k f x r = .ok (v, t) ∧
        (v.isSome → stop = t.pos)
  active {x : Spot} {met : Bool} : x.In S → m.get? x = some (.active met) →
    u.get? x = some (.active met)

variable (S) in
/-- **What they do to a table**: entries of other applications stay, and others are not logged. -/
structure Spared (m m' : Memo Height) : Prop where
  get (x : Spot) : ¬ x.In S → m'.get? x = m.get? x
  log : ∃ extra, m'.log.toList = m.log.toList ++ extra ∧ ∀ x ∈ extra, x.In S

namespace Spared

variable {m m' m'' : Memo Height}

theorem refl (m : Memo Height) : Spared S m m := ⟨fun _ _ => rfl, [], by simp⟩

theorem trans (h : Spared S m m') (h' : Spared S m' m'') : Spared S m m'' where
  get x hx := (h'.get x hx).trans (h.get x hx)
  log := by
    obtain ⟨extra, hlog, hin⟩ := h.log
    obtain ⟨extra', hlog', hin'⟩ := h'.log
    refine ⟨extra ++ extra', by rw [hlog', hlog, List.append_assoc], fun x hx => ?_⟩
    exact (List.mem_append.1 hx).elim (hin x) (hin' x)

end Spared

namespace Gauged

variable {m m' : Memo Height} {u : Memo Unit}

theorem empty : Gauged registry limit S f .empty .empty where
  done h := by simp at h
  active _ h := by simp at h

/-- Other entries may be changed, and any may be taken out. -/
theorem sub (h : Gauged registry limit S f m u)
    (hsub : ∀ x : Spot, x.In S → m'.get? x = m.get? x ∨ m'.get? x = none) :
    Gauged registry limit S f m' u where
  done {x v stop k r} hd hr hS := by
    rcases hsub x ⟨r, hr, hS⟩ with he | he
    · rw [he] at hd
      exact h.done hd hr hS
    · rw [he] at hd
      cases hd
  active {x met} hx ha := by
    rcases hsub x hx with he | he
    · rw [he] at ha
      exact h.active hx ha
    · rw [he] at ha
      cases ha

theorem set (h : Gauged registry limit S f m u) {x : Spot} (hx : ¬ x.In S) {e : Entry Height} :
    Gauged registry limit S f (m.set x e) u := by
  refine h.sub fun y hy => .inl ?_
  rw [Memo.get?_set, if_neg]
  rintro rfl
  exact hx hy

theorem forgetAfter (h : Gauged registry limit S f m u) {mark : Nat} :
    Gauged registry limit S f (m.forgetAfter mark) u := by
  refine h.sub fun y _ => ?_
  rw [Memo.get?_forgetAfter]
  split
  · exact .inr rfl
  · exact .inl rfl

/-- An application begins. -/
theorem entered {s : State Height} {t : State Unit} {call : Call}
    (h : Gauged registry limit S f s.memo t.memo) (hpos : s.pos = t.pos) :
    Gauged registry limit S f (s.entered call).memo (t.marked call).memo where
  done {x v stop k r} hd hr hS := by
    rw [State.get?_entered] at hd
    split at hd
    · cases hd
    · exact h.done hd hr hS
  active hx ha := State.active_entered hpos (h.active hx) ha

variable {s inside : State Height} {t : State Unit} {call : Call} {v : Option Value}

/-- An application ends, and what is kept of it is what a plain run gave. -/
theorem left (h : Gauged registry limit S f inside.memo (t.marked call).memo) (hpos : s.pos = t.pos)
    {keep : Bool}
    (hnew : ∀ r, call.owner.rule? call.rule = some r → ∃ k ≤ inside.account + 1, ∃ u,
      plainBody (φ := Unit) registry limit k f (s.pos, call) r = .ok (v, u) ∧
        (v.isSome → inside.pos = u.pos)) :
    Gauged registry limit S f (s.left keep f call v inside).memo t.memo where
  done {x v' stop k r} hd hr hS := by
    by_cases hx : x = (s.pos, call)
    · subst hx
      rw [State.get?_left_self] at hd
      split at hd
      · cases hd
        exact hnew r hr
      · cases hd
    · rw [State.get?_left hx] at hd
      exact h.done hd hr hS
  active hx ha := State.active_left hpos (h.active hx) ha

end Gauged

theorem Spared.left {s inside : State Height} {call : Call} {v : Option Value} {keep : Bool}
    (hin : Spot.In S (s.pos, call)) (h : Spared S (s.entered call).memo inside.memo) :
    Spared S s.memo (s.left keep f call v inside).memo where
  get x hx := by
    have hne : x ≠ (s.pos, call) := fun he => hx (he ▸ hin)
    rw [State.get?_left hne, h.get x hx, State.get?_entered, if_neg hne]
  log := by
    obtain ⟨extra, hlog, hextra⟩ := h.log
    refine ⟨(s.pos, call) :: extra, ?_, fun x hx => ?_⟩
    · rw [State.log_left, hlog]
      show (s.memo.begin (s.pos, call)).log.toList ++ extra = _
      rw [Memo.log_begin, Array.toList_push, List.append_assoc]
      rfl
    · rcases List.mem_cons.1 hx with rfl | hx
      · exact hin
      · exact hextra x hx

/-! ### A match through the table beside a strict one -/

variable (registry limit S) in
/-- How the two matches have gone on: they stand at the same position again, the strict one with the
table it had. -/
structure Paced (f : Frame) (s : State Height) (t : State Unit) (s' : State Height)
    (t' : State Unit) : Prop where
  pos : s'.pos = t'.pos
  kept : Gauged registry limit S f s'.memo t'.memo
  memo : t'.memo = t.memo
  spared : Spared S s.memo s'.memo

variable (registry limit S) in
/-- **A match through the table beside a strict one** that may go as deep as `N`, as long as the
height that the first tells keeps within `N`. The strict match may give up only for something that
was under way before, and a height never goes down. -/
def measured (N : Height) : Coupling Height Unit where
  rel f s t m n := s.pos = t.pos → ∀ a s', m = .ok (a, s') → s.account ≤ s'.account ∧
    (Gauged registry limit S f s.memo t.memo → s'.account ≤ N →
      (n = .error .exhausted ∧ t.memo ≠ .empty) ∨
        ∃ t', n = .ok (a, t') ∧ Paced registry limit S f s t s' t')
  halts _ := True
  at_pos h hpos := h hpos hpos
  halt _ _ _ _ h := by cases h
  move _ _ _ h := by
    cases h
    exact ⟨Nat.le_refl _, fun hk _ => .inr ⟨_, rfl, rfl, hk, rfl, .refl _⟩⟩
  expect hpos _ _ h := by
    cases h
    exact ⟨Nat.le_max_left _ _, fun hk _ => .inr ⟨_, rfl, hpos, hk, rfl, .refl _⟩⟩
  bind {_ _ f s t m n j k} hm hjk hpos b s'' h := by
    obtain ⟨⟨a, s'⟩, ha, hb⟩ := bind_eq_ok h
    obtain ⟨hle, hfirst⟩ := hm hpos a s' ha
    -- what the second part adds to the height does not depend on the strict match
    have hle' : s'.account ≤ s''.account := (hjk a s' ⟨s'.pos, .empty, ()⟩ rfl b s'' hb).1
    refine ⟨Nat.le_trans hle hle', fun hk hN => ?_⟩
    rcases hfirst hk (Nat.le_trans hle' hN) with ⟨rfl, hne⟩ | ⟨t', rfl, hp⟩
    · exact .inl ⟨rfl, hne⟩
    · rcases (hjk a s' t' hp.pos b s'' hb).2 hp.kept hN with ⟨hk, hne⟩ | ⟨t'', hk, hp'⟩
      · exact .inl ⟨hk, hp.memo ▸ hne⟩
      · exact .inr ⟨t'', hk, hp'.pos, hp'.kept, hp'.memo.trans hp.memo,
          hp.spared.trans hp'.spared⟩
  negated {_ _ s t m n} hm hpos a s' h := by
    obtain ⟨⟨a, inside⟩, ha, h⟩ := bind_eq_ok h
    cases h
    refine ⟨Nat.le_max_left _ _, fun hk hN => ?_⟩
    have hN' : inside.account ≤ N := Nat.le_trans (Nat.le_max_right _ _) hN
    rcases (hm hpos a inside ha).2 hk hN' with ⟨rfl, hne⟩ | ⟨t', rfl, hp⟩
    · exact .inl ⟨rfl, hne⟩
    · exact .inr ⟨_, rfl, hp.pos, hp.kept, hp.memo, hp.spared⟩
  nested {_ _ _ s t m n _} _ hm hpos a s' h := by
    obtain ⟨⟨a, inside⟩, ha, h⟩ := bind_eq_ok h
    cases h
    obtain ⟨hle, hin⟩ := hm rfl a inside ha
    refine ⟨hle, fun hk hN => ?_⟩
    -- the contents have tables of their own, in which nothing is under way
    rcases hin .empty hN with ⟨-, hne⟩ | ⟨t', rfl, -⟩
    · exact absurd rfl hne
    · exact .inr ⟨_, rfl, hpos, hk, rfl, .refl _⟩

variable {N : Height} {keep : Bool} {d o : Grammar} {r : Rule} {args : List Value}
  {s : State Height} {t : State Unit}

/-- Applications are all that has to be compared. -/
theorem Steady.calling (H : Steady registry S) {one : Applier Height} {two : Applier Unit}
    (hrule : ∀ f d o r args s t, S d (.rule o r) →
      (measured registry limit S N).rel f s t (one f d o r args s) (two f d o r args t)) :
    (measured registry limit S N).Calling registry one two fun d t _ => S d t where
  count _ _ := trivial
  type := trivial
  action _ := trivial
  loop := trivial
  rule hS _ := hrule _ _ _ _ _ _ _ hS
  dynamic hS _ := absurd hS H.static
  spaces hS hr := H.spaces hS hr

theorem Expr.Applies.permitted {C : Coupling Height Unit} (hh : ∀ h, C.halts h) {es : List Expr}
    (h : Expr.Applies S d o es) : C.Permitted (fun d t _ => S d t) d o es := by
  intro e he as meaning hm
  cases meaning with
  | error c => exact hh _
  | ok gt => exact fun _ _ => h e he as gt.1 gt.2 hm

/-- A strict application of a rule without left recursion does not give up where nothing is under
way. -/
theorem Steady.under_way (H : Steady registry S) (hS : S d (.rule o r)) {n : Nat}
    (h : applyKeyed strict registry limit n f d o r args t = .error .exhausted) :
    t.memo ≠ .empty := by
  intro he
  have halone : applyKeyed strict registry limit n f d o r args ⟨t.pos, .empty, ()⟩ =
      .error .exhausted := by
    rw [← he]
    exact h
  exact H.straight hS (leftRecursive_of_keyed H.blind halone)

/-- A strict run of a body comes to what is known of a plain one that keeps within the same depth,
unless it gives up. -/
theorem strict_of_plainBody {k : Nat} {x : Spot} {v : Option Value} {u : State Unit} (hkN : k ≤ N)
    (hk : plainBody (φ := Unit) registry limit k f x r = .ok (v, u)) (ht : t.pos = x.1) :
    runBody (applyKeyed strict registry limit N) registry f x.2.dispatch x.2.owner r x.2.args t =
        .error .exhausted ∨
      ∃ t', runBody (applyKeyed strict registry limit N) registry f x.2.dispatch x.2.owner r
        x.2.args t = .ok (v, t') ∧ t'.pos = u.pos := by
  have hmono := plainBody_mono (φ := Unit) registry limit hkN f x r
  rw [hk] at hmono
  obtain ⟨u', hu', hpos⟩ := hmono
  have hplain := plainBody_follows_strict registry limit N f x r ht
  rw [hu'] at hplain
  cases hb : runBody (applyKeyed strict registry limit N) registry f x.2.dispatch x.2.owner r
      x.2.args t with
  | error e =>
    rw [hb] at hplain
    exact .inl (by rw [hplain.resolve_right (by simp)])
  | ok b =>
    rw [hb] at hplain
    obtain ⟨u'', hu'', hpos'⟩ := hplain
    cases hu''
    exact .inr ⟨b.2, rfl, hpos'.symm.trans hpos.pos⟩

/-- A rule that is not among the given ones has no application among them. -/
theorem Spot.not_in {p : Nat} (hr : o.rule? r.name = some r) (hS : ¬ S d (.rule o r)) :
    ¬ Spot.In S (p, r.call d o args) := by
  rintro ⟨r', hr', hS'⟩
  cases hr.symm.trans hr'
  exact hS hS'

/-- What is found in the table. -/
theorem Steady.found (H : Steady registry S) (hS : S d (.rule o r)) {v : Option Value}
    {stop : Nat} {h : Height} (hpos : s.pos = t.pos) (hk : Gauged registry limit S f s.memo t.memo)
    (hg : s.memo.get? (s.pos, r.call d o args) = some (.done v stop h)) (hN : h ≤ N) :
    (applyKeyed strict registry limit (N + 1) f d o r args t = .error .exhausted ∧
        t.memo ≠ .empty) ∨
      ∃ t', applyKeyed strict registry limit (N + 1) f d o r args t = .ok (v, t') ∧
        Paced registry limit S f s t
          ((s.missed h).moveTo (if v.isSome then stop else s.pos)) t' := by
  obtain ⟨k, hkh, u, hu, hstop⟩ := hk.done hg (H.grounded hS) hS
  rcases t.memo.active_or_idle (t.pos, r.call d o args) with ⟨met, hmet⟩ | hidle
  · have hrun : applyKeyed strict registry limit (N + 1) f d o r args t = _ :=
      (applyKeyed_succ strict registry limit N f d o r args t).trans (strict_of_active hmet)
    exact .inl ⟨hrun, H.under_way hS hrun⟩
  · have hrun : applyKeyed strict registry limit (N + 1) f d o r args t = _ :=
      (applyKeyed_succ strict registry limit N f d o r args t).trans (strict_of_idle hidle)
    rcases strict_of_plainBody (t := t.marked (r.call d o args)) (Nat.le_trans hkh hN) hu
      hpos.symm with hb | ⟨t', hb, hpos'⟩
    · have hb : runBody _ _ f d o r (Value.signatures args) _ = _ := hb
      rw [hb] at hrun
      exact .inl ⟨hrun, H.under_way hS hrun⟩
    · have hb : runBody _ _ f d o r (Value.signatures args) _ = _ := hb
      rw [hb] at hrun
      refine .inr ⟨_, hrun, ?_, hk, rfl, .refl _⟩
      cases v with
      | none => exact hpos
      | some v => exact (hstop rfl).trans hpos'.symm

/-- What is not in the table: the body has run, beside a strict run of it that was allowed as much
as the body told. -/
theorem Steady.begun (H : Steady registry S) (hS : S d (.rule o r)) {body : Attempt Height}
    {v w : Option Value} {s' inside : State Height} (hpos : s.pos = t.pos)
    (hclimb : ∀ s v s', body s = .ok (v, s') → s.account ≤ s'.account)
    (hg : s.memo.get? (s.pos, r.call d o args) = none)
    (hw : body (s.entered (r.call d o args)) = .ok (w, inside))
    (hm : memoized keep f (r.call d o args) body s = .ok (v, s')) (hN : s'.account ≤ N)
    (hb : (runBody (applyKeyed strict registry limit (inside.account + 1)) registry f d o r
        (Value.signatures args) (t.marked (r.call d o args)) = .error .exhausted) ∨
      ∃ t', runBody (applyKeyed strict registry limit (inside.account + 1)) registry f d o r
          (Value.signatures args) (t.marked (r.call d o args)) = .ok (w, t') ∧
        Paced registry limit S f (s.entered (r.call d o args)) (t.marked (r.call d o args))
          inside t') :
    (applyKeyed strict registry limit (N + 1) f d o r args t = .error .exhausted ∧
        t.memo ≠ .empty) ∨
      ∃ t', applyKeyed strict registry limit (N + 1) f d o r args t = .ok (v, t') ∧
        Paced registry limit S f s t s' t' := by
  have hin : Spot.In S (s.pos, r.call d o args) := ⟨r, H.grounded hS, hS⟩
  have hle : inside.account + 1 ≤ N := by
    rw [memoized_of_none hg] at hm
    obtain ⟨⟨v', ripe⟩, hr, hm⟩ := bind_eq_ok hm
    cases hm
    have hup : inside.account ≤ ripe.account := ripened_climbs hclimb hw hr
    have htop : ripe.account + 1 ≤ N := Nat.le_trans (Nat.le_max_right _ _) hN
    exact Nat.le_trans (Nat.succ_le_succ hup) htop
  rcases t.memo.active_or_idle (t.pos, r.call d o args) with ⟨met, hmet⟩ | hidle
  · have hrun : applyKeyed strict registry limit (N + 1) f d o r args t = _ :=
      (applyKeyed_succ strict registry limit N f d o r args t).trans (strict_of_active hmet)
    exact .inl ⟨hrun, H.under_way hS hrun⟩
  have hrun : applyKeyed strict registry limit (N + 1) f d o r args t = _ :=
    (applyKeyed_succ strict registry limit N f d o r args t).trans (strict_of_idle hidle)
  -- the strict run of the body is the same at the depth that is allowed here
  have hmono := Coupling.runBody_of_rules registry (fun _ => trivial)
    (strict_mono (φ := Unit) registry limit hle) f d o r
    (Value.signatures args) (t.marked (r.call d o args))
    (t.marked (r.call d o args)) ⟨rfl, rfl, rfl⟩
  rcases hb with hb | ⟨t', hb, hp⟩
  · rw [hb] at hmono
    rw [hmono.resolve_left Bool.false_ne_true] at hrun
    exact .inl ⟨hrun, H.under_way hS hrun⟩
  · have hplain := plainBody_follows_strict registry limit (inside.account + 1) f
      (s.pos, r.call d o args) r (t := t.marked (r.call d o args)) hpos.symm
    have hb' : runBody _ registry f (r.call d o args).dispatch (r.call d o args).owner r
      (r.call d o args).args _ = _ := hb
    rw [hb'] at hplain
    obtain ⟨u, hu, hupos⟩ := hplain
    rw [hb] at hmono
    obtain ⟨t'', hb'', hlike⟩ := hmono
    rw [hb''] at hrun
    have hkept : Gauged registry limit S f inside.memo (t.marked (r.call d o args)).memo :=
      hp.memo ▸ hp.kept
    have hmet : inside.memo.isLeftRecursive (s.pos, r.call d o args) = false :=
      State.not_met hpos fun _ => hkept.active hin
    rw [memoized_of_settled hg hw (.inr hmet)] at hm
    cases hm
    refine .inr ⟨_, hrun, ?_, hkept.left hpos fun r' hr' => ?_, rfl, hp.spared.left hin⟩
    · have hsame : inside.pos = t''.pos := hp.pos.trans hlike.pos.symm
      show (if v.isSome then inside.pos else s.pos) = if v.isSome then t''.pos else t.pos
      rw [hsame, hpos]
    · obtain rfl : r = r' := Option.some.inj ((H.grounded hS).symm.trans hr')
      exact ⟨_, Nat.le_refl _, u, hu, fun _ => hp.pos.trans hupos.symm⟩

/-- **At any depth**, applications without left recursion come to what they come to strictly, and
tell how much the strict match has to be allowed for that. -/
theorem Steady.rules (H : Steady registry S) (keep : Bool) (depth : Nat) :
    ∀ N f d o r args s t, S d (.rule o r) → (measured registry limit S N).rel f s t
      (applyKeyed (memoized keep) registry limit depth f d o r args s)
      (applyKeyed strict registry limit (N + 1) f d o r args t) := by
  induction depth with
  | zero =>
    intro N f d o r args s t hS hpos v s' hm
    cases hm
  | succ depth ih =>
    intro N f d o r args s t hS hpos v s' hm
    have hm : memoized keep f (r.call d o args) _ s = .ok (v, s') := hm
    have hbody : ∀ M s t, (measured registry limit S M).rel f s t
        (runBody (applyKeyed (memoized keep) registry limit depth) registry f d o r
          (Value.signatures args) s)
        (runBody (applyKeyed strict registry limit (M + 1)) registry f d o r
          (Value.signatures args) t) :=
      fun M s t => (H.calling (ih M)).runBody
        (Expr.Applies.permitted (fun _ => trivial) fun e he as g t hm => H.body hS he hm)
    have hclimb : ∀ s v s', runBody (applyKeyed (memoized keep) registry limit depth)
        registry f d o r (Value.signatures args) s = .ok (v, s') → s.account ≤ s'.account :=
      fun s v s' h => (hbody 0 s ⟨s.pos, .empty, ()⟩ rfl v s' h).1
    cases hg : s.memo.get? (s.pos, r.call d o args) with
    | some entry =>
      cases entry with
      | active met =>
        rw [memoized_of_active hg] at hm
        cases hm
        refine ⟨Nat.le_refl _, fun hk _ => .inl ?_⟩
        have hin : Spot.In S (s.pos, r.call d o args) := ⟨r, H.grounded hS, hS⟩
        have hmark := hk.active hin hg
        rw [hpos] at hmark
        have hrun : applyKeyed strict registry limit (N + 1) f d o r args t = _ :=
          (applyKeyed_succ strict registry limit N f d o r args t).trans (strict_of_active hmark)
        exact ⟨hrun, H.under_way hS hrun⟩
      | done v' stop h =>
        rw [memoized_of_done hg] at hm
        cases hm
        refine ⟨Nat.le_max_left _ _, fun hk hN => ?_⟩
        exact H.found hS hpos hk hg (Nat.le_trans (Nat.le_max_right _ _) hN)
    | none =>
      have hleft : s.account ≤ s'.account := by
        rw [memoized_of_none hg] at hm
        obtain ⟨⟨_, _⟩, -, hm⟩ := bind_eq_ok hm
        cases hm
        exact Nat.le_max_left _ _
      refine ⟨hleft, fun hk hN => ?_⟩
      cases hw : runBody (applyKeyed (memoized keep) registry limit depth) registry f d o r
          (Value.signatures args) (s.entered (r.call d o args)) with
      | error h =>
        rw [memoized_of_error hg hw] at hm
        cases hm
      | ok wi =>
        obtain ⟨w, inside⟩ := wi
        have hb := (hbody inside.account (s.entered (r.call d o args)) (t.marked (r.call d o args))
          hpos w inside hw).2 (hk.entered hpos) (Nat.le_refl _)
        exact H.begun hS hpos hclimb hg hw hm hN (hb.imp_left And.left)

/-- **What is evaluated through the table comes to what it comes to plainly**, if that is allowed to
go deep enough; and in the table it changes only what is its own. -/
theorem Steady.evalSequence (H : Steady registry S) {depth : Nat} {es : List Expr} {ctx : Context}
    {last : Value} {scope : Scope} {p : Reply Height}
    (he : Expr.Applies S ctx.dispatch ctx.owner (Expr.subexprsAll es))
    (hk : Gauged registry limit S ctx.frame s.memo .empty)
    (hp : Expr.evalSequence (applyKeyed (memoized keep) registry limit depth) registry es
      ctx last scope s = .ok p) :
    (∃ n t, Expr.evalSequence (applyKeyed direct registry limit n) registry es ctx last scope
        ⟨s.pos, .empty, ()⟩ = .ok ⟨p.value, p.scope, t⟩ ∧ t.pos = p.state.pos) ∧
      Gauged registry limit S ctx.frame p.state.memo .empty ∧ Spared S s.memo p.state.memo := by
  let plain : State Unit := ⟨s.pos, .empty, ()⟩
  have hrel : (measured registry limit S p.state.account).replies ctx.frame s plain
      (Expr.evalSequence (applyKeyed (memoized keep) registry limit depth) registry es ctx last
        scope s)
      (Expr.evalSequence (applyKeyed strict registry limit (p.state.account + 1)) registry es ctx
        last scope plain) :=
    (H.calling (H.rules keep depth p.state.account)).evalSequence es ctx
      (he.permitted fun _ => trivial)
  rcases (hrel rfl (p.value, p.scope) p.state (by rw [hp]; rfl)).2 hk (Nat.le_refl _) with
    ⟨-, hne⟩ | ⟨t', hstrict, hpaced⟩
  · exact absurd rfl hne
  -- a strict evaluation that does not give up is a plain one
  have hplain : (aloof (· = .exhausted)).coupling.replies ctx.frame plain plain
      (Expr.evalSequence (applyKeyed direct registry limit (p.state.account + 1)) registry es ctx
        last scope plain)
      (Expr.evalSequence (applyKeyed strict registry limit (p.state.account + 1)) registry es ctx
        last scope plain) :=
    (Coupling.grounded registry (fun _ => trivial)
      (direct_follows_strict registry limit _)).evalSequence es ctx
      (Coupling.permitted_grounded (fun _ => trivial) _ _ _)
  have hfollows := hplain ⟨rfl, trivial, trivial⟩
  rw [hstrict] at hfollows
  obtain ⟨u, hu, hpos⟩ := hfollows
  obtain ⟨q, hq, hsplit⟩ := bind_eq_ok hu
  obtain ⟨v, scope', state⟩ := q
  cases hsplit
  refine ⟨⟨_, state, hq, hpos.pos.trans hpaced.pos.symm⟩, ?_, hpaced.spared⟩
  have hkept := hpaced.kept
  rwa [hpaced.memo] at hkept

/-! ### What other applications leave of it

Whatever else is applied, left-recursive or not, has no entries of its own among those that are
gauged. It may only forget some of them. -/

variable (registry limit S) in
/-- What a match that tells heights keeps its table fit for. -/
def gauging : Upkeep Height where
  fit f m := Gauged registry limit S f m .empty
  about _ x := x.In S
  sub h hsub := h.sub hsub

/-- **Whatever is applied** keeps the table gauged. -/
theorem Steady.gauging (H : Steady registry S) (keep : Bool) (depth : Nat) :
    (Packrat.gauging registry limit S).coupling.InStep
      (applyKeyed (memoized keep) registry limit depth)
      (applyKeyed (memoized keep) registry limit depth) := by
  refine Upkeep.rules _ (fun depth f d o r args s v s' hr hx hk hm => ?_) depth
  obtain ⟨r', hr', hS⟩ := hx
  cases hr.symm.trans hr'
  -- nothing is under way in the table of the strict match, so it does not give up
  rcases (H.rules keep depth s'.account f d o r args s ⟨s.pos, .empty, ()⟩ hS rfl v s' hm).2 hk
    (Nat.le_refl _) with ⟨-, hne⟩ | ⟨t', -, hp⟩
  · exact absurd rfl hne
  · have hkept := hp.kept
    rwa [hp.memo] at hkept

/-! ### Matches that tell something else -/

section Telling

variable {φ : Type} [Account φ]

/-- Any account may stand beside any height. -/
def Rendering.withHeights : Rendering φ Height where
  accounts _ _ := True
  empty := trivial
  miss := trivial
  append _ _ := trivial
  rule _ := trivial
  negation _ := trivial

variable (registry limit S) in
/-- **What a table may hold**, whatever its accounts: of applications without left recursion what
plain runs give, and none of them is under way. -/
structure Settled (f : Frame) (m : Memo φ) : Prop where
  gives {x : Spot} {v : Option Value} {stop : Nat} {a : φ} : x.In S →
    m.get? x = some (.done v stop a) → Gives registry limit f x v stop
  idle {x : Spot} : x.In S → m.Idle x

/-- A keyed match that tells heights could start with a table that is alike. -/
theorem Settled.exists_gauged (hb : registry.Blind) {m : Memo φ}
    (hm : Settled registry limit S f m) :
    ∃ w : Memo Height, m.Matches (Entry.Alike .withHeights) w ∧
      Gauged registry limit S f w .empty := by
  obtain ⟨w, hw, hP⟩ := Memo.Matches.exists_of_entries (E := Entry.Alike .withHeights)
    (P := fun x b => x.In S → (∀ met, b ≠ .active met) ∧ ∀ v stop h r, b = .done v stop h →
      x.2.owner.rule? x.2.rule = some r →
      ∃ t, plainBody (φ := Unit) registry limit h f x r = .ok (v, t) ∧ (v.isSome → stop = t.pos))
    m fun x a ha => by
    by_cases hx : x.In S
    · cases a with
      | active met => exact absurd ha (hm.idle hx met)
      | done v stop a =>
        obtain ⟨w, hv, hgives⟩ := (gives_iff_keyed hb).1 (hm.gives hx ha)
        obtain ⟨r, hr, -⟩ := id hx
        obtain ⟨k, t, ht⟩ := hgives r hr
        refine ⟨.done w stop k, .done stop hv trivial, fun _ => ⟨nofun, fun _ _ _ r' he hr' => ?_⟩⟩
        cases he
        cases hr.symm.trans hr'
        exact ⟨t, ht⟩
    · cases a with
      | active met => exact ⟨_, .active met, fun hx' => absurd hx' hx⟩
      | done v stop a =>
        exact ⟨.done v stop 0, .done stop (Value.rel_alike_iff.2 rfl) trivial,
          fun hx' => absurd hx' hx⟩
  refine ⟨w, hw, fun {x v stop k r} hd hr hS => ?_, fun hx ha => ?_⟩
  · exact ⟨k, Nat.le_refl _, (hP x _ hd ⟨r, hr, hS⟩).2 v stop k r rfl hr⟩
  · exact absurd rfl ((hP _ _ ha hx).1 _)

theorem Gauged.settled (hb : registry.Blind) {m : Memo φ} {w : Memo Height}
    (h : Gauged registry limit S f w .empty) (hw : m.Matches (Entry.Alike .withHeights) w) :
    Settled registry limit S f m where
  gives := by
    rintro x v stop a ⟨r, hr, hS⟩ hg
    obtain ⟨b, hd, hentry⟩ := hw.of_some hg
    cases hentry with
    | done _ hv _ =>
      refine (gives_iff_keyed hb).2 ⟨_, hv, fun r' hr' => ?_⟩
      cases hr.symm.trans hr'
      obtain ⟨k, -, ht⟩ := h.done hd hr hS
      exact ⟨k, ht⟩
  idle hx met hg := by
    have hmark := h.active hx (hw.active_iff.1 hg)
    rw [Memo.get?_empty] at hmark
    cases hmark

/-- **An application could as well have told heights** and been keyed: it would have come to the
same up to the bits of NaNs, through a table that is alike. -/
theorem Settled.retold (hb : registry.Blind) {st st' : State φ} {depth : Nat} {v : Option Value}
    (hst : Settled registry limit S f st.memo)
    (happ : applyDepth (memoized keep) registry limit depth f d o r args st = .ok (v, st')) :
    ∃ (s s' : State Height) (w : Option Value), st.Alike .withHeights s ∧
      Gauged registry limit S f s.memo .empty ∧
      applyKeyed (memoized keep) registry limit depth f d o r args s = .ok (w, s') ∧
      Option.Rel Value.Alike v w ∧ st'.Alike .withHeights s' := by
  obtain ⟨w, hmatches, hk⟩ := hst.exists_gauged hb
  have halike : st.Alike .withHeights (⟨st.pos, w, 0⟩ : State Height) := ⟨rfl, hmatches, trivial⟩
  have happ' := memoized_keyed hb .withHeights keep limit depth f d o r args args st _ rfl halike
  rw [happ] at happ'
  obtain ⟨⟨v', s'⟩, hs, hab⟩ := happ'
  exact ⟨_, s', v', halike, hk, hs, hab.value, hab.state⟩

/-- **Whatever is applied**, a table that holds nothing amiss is left so. -/
theorem Settled.application {st st' : State φ} {depth : Nat} {v : Option Value}
    (hst : Settled registry limit S f st.memo) (H : Steady registry S)
    (hr : o.rule? r.name = some r)
    (happ : applyDepth (memoized keep) registry limit depth f d o r args st = .ok (v, st')) :
    Settled registry limit S f st'.memo := by
  obtain ⟨s, s', w, hs, hk, happ', -, hs'⟩ := hst.retold H.blind happ
  exact Gauged.settled H.blind (H.gauging keep depth f d o r args s s hr rfl hk w s' happ') hs'.tables

end Telling

end Packrat
